import EspDevkit.Library.ByteOrder
import Mathlib.Data.List.ReduceOption
import Mathlib.Data.List.TakeWhile

/-!
# Configuration descriptors

A configuration as the device sent it, and the iterators over its descriptors,
its interfaces and their endpoints.  `none` is a panic: an index or a slice
outside of the bytes.
-/

namespace EspDevkit.Usb.Desc

open List

abbrev Bytes := List UInt8

namespace Kind

def configuration : UInt8 := 0x02
def interface : UInt8 := 0x04
def endpoint : UInt8 := 0x05
def interfaceAssociation : UInt8 := 0x0b

end Kind

def configurationBytes : ℕ := 9

def splitAt (bytes : Bytes) (mid : ℕ) : Option (Bytes × Bytes) :=
  if mid ≤ bytes.length then some (bytes.take mid, bytes.drop mid) else none

theorem splitAt_left (first second : Bytes) :
    splitAt (first ++ second) first.length = some (first, second) := by
  rw [splitAt, if_pos (by simp), take_left, drop_left]

structure Raw where
  kind : UInt8
  bytes : Bytes
  deriving DecidableEq, Repr

structure Descriptors where
  rest : Bytes
  deriving DecidableEq, Repr

/-- Stops at the first descriptor whose length does not fit. -/
def Descriptors.next (self : Descriptors) : Option (Option Raw × Descriptors) :=
  match self.rest with
  | [] => some (none, self)
  | first :: _ =>
    let len := first.toNat
    if len < 2 ∨ self.rest.length < len then
      some (none, { rest := [] })
    else do
      let (bytes, rest) ← splitAt self.rest len
      let kind ← bytes[1]?
      return (some { kind, bytes }, { rest })

theorem Descriptors.next_shorter {self after : Descriptors} {raw : Raw}
    (found : self.next = some (some raw, after)) : after.rest.length < self.rest.length := by
  unfold next at found
  split at found
  · simp at found
  · next first tail bytes =>
    dsimp only at found
    split at found
    · simp at found
    next fits =>
    obtain ⟨⟨taken, rest⟩, split_, found⟩ := Option.bind_eq_some_iff.mp found
    obtain ⟨kind, _, found⟩ := Option.bind_eq_some_iff.mp found
    unfold splitAt at split_
    split at split_ <;> cases split_
    cases found
    simp only [length_drop]
    omega

def Descriptors.collect (self : Descriptors) : Option (List Raw) :=
  match _found : self.next with
  | none => none
  | some (none, _) => some []
  | some (some raw, after) => (collect after).map (raw :: ·)
termination_by self.rest.length
decreasing_by exact next_shorter ‹_›

structure Configuration where
  bytes : Bytes
  deriving DecidableEq, Repr

/-- `bytes` is the whole configuration as wTotalLength gives it. -/
def Configuration.parse (bytes : Bytes) : Option (Option Configuration) :=
  if bytes.length < configurationBytes then
    some none
  else do
    let length ← bytes[0]?
    let kind ← bytes[1]?
    if length.toNat < 9 ∨ kind ≠ Kind.configuration then return none
    let low ← bytes[2]?
    let high ← bytes[3]?
    let total := LittleEndian.ofBytes [low, high]
    if total < configurationBytes ∨ bytes.length < total then return none
    let (bytes, _) ← splitAt bytes total
    return some { bytes }

/-- Every descriptor after the configuration descriptor itself. -/
def Configuration.descriptors (self : Configuration) : Option Descriptors := do
  let length ← self.bytes[0]?
  let (_, rest) ← splitAt self.bytes length.toNat
  return { rest }

structure InterfaceDescriptor where
  number : UInt8
  alternate : UInt8
  endpointsCount : UInt8
  cls : UInt8
  subclass : UInt8
  protocol : UInt8
  string : UInt8
  extra : Bytes
  deriving DecidableEq, Repr

/-- The fields at their indices in `b`. -/
def InterfaceDescriptor.read (b extra : Bytes) : Option InterfaceDescriptor :=
  match b with
  | _ :: _ :: number :: alternate :: endpointsCount :: cls :: subclass :: protocol :: string :: _ =>
    some { number, alternate, endpointsCount, cls, subclass, protocol, string, extra }
  | _ => none

structure Interfaces where
  descriptors : Descriptors
  deriving DecidableEq, Repr

/-- Every alternate setting of every interface, in descriptor order. -/
def Configuration.interfaces (self : Configuration) : Option Interfaces := do
  return { descriptors := ← self.descriptors }

/-- The first loop of `Interfaces::next`. -/
def Descriptors.nextInterface (self : Descriptors) : Option (Option Bytes × Descriptors) :=
  match _found : self.next with
  | none => none
  | some (none, after) => some (none, after)
  | some (some d, after) =>
    if d.kind = Kind.interface ∧ 9 ≤ d.bytes.length then some (some d.bytes, after)
    else nextInterface after
termination_by self.rest.length
decreasing_by exact next_shorter ‹_›

/-- The second loop of `Interfaces::next`. -/
def Descriptors.extraLen (self : Descriptors) : Option ℕ :=
  match _found : self.next with
  | none => none
  | some (none, _) => some 0
  | some (some d, after) =>
    if d.kind = Kind.interface ∨ d.kind = Kind.interfaceAssociation then some 0
    else (extraLen after).map (d.bytes.length + ·)
termination_by self.rest.length
decreasing_by exact next_shorter ‹_›

def Interfaces.next (self : Interfaces) : Option (Option InterfaceDescriptor × Interfaces) := do
  match ← self.descriptors.nextInterface with
  | (none, descriptors) => return (none, { descriptors })
  | (some b, descriptors) =>
    let extraLen ← descriptors.extraLen
    let (extra, _) ← splitAt descriptors.rest extraLen
    return (some (← InterfaceDescriptor.read b extra), { descriptors })

theorem Descriptors.nextInterface_shorter {self after : Descriptors} {b : Bytes}
    (found : self.nextInterface = some (some b, after)) :
    after.rest.length < self.rest.length := by
  fun_induction nextInterface self with
  | case1 | case2 => simp at found
  | case3 self d rest goes =>
    cases found
    exact next_shorter goes
  | case4 self d rest goes other ih => exact (ih found).trans (next_shorter goes)

theorem Interfaces.next_shorter {self after : Interfaces} {interface : InterfaceDescriptor}
    (found : self.next = some (some interface, after)) :
    after.descriptors.rest.length < self.descriptors.rest.length := by
  obtain ⟨⟨_ | b, descriptors⟩, sought, found⟩ := Option.bind_eq_some_iff.mp found
  · simp at found
  · obtain ⟨len, _, found⟩ := Option.bind_eq_some_iff.mp found
    obtain ⟨⟨extra, _⟩, _, found⟩ := Option.bind_eq_some_iff.mp found
    obtain ⟨interface', _, found⟩ := Option.bind_eq_some_iff.mp found
    cases found
    exact Descriptors.nextInterface_shorter sought

def Interfaces.collect (self : Interfaces) : Option (List InterfaceDescriptor) :=
  match _found : self.next with
  | none => none
  | some (none, _) => some []
  | some (some interface, after) => (collect after).map (interface :: ·)
termination_by self.descriptors.rest.length
decreasing_by exact next_shorter ‹_›

def Configuration.interface (self : Configuration) (number alternate : UInt8) :
    Option (Option InterfaceDescriptor) := do
  let interfaces ← (← self.interfaces).collect
  return interfaces.find? fun i => i.number = number ∧ i.alternate = alternate

structure EndpointDescriptor where
  address : UInt8
  attributes : UInt8
  maxPacketSize : ℕ
  interval : UInt8
  deriving DecidableEq, Repr

/-- The fields at their indices in `b`. -/
def EndpointDescriptor.read (b : Bytes) : Option EndpointDescriptor :=
  match b with
  | _ :: _ :: address :: attributes :: low :: high :: interval :: _ =>
    some { address, attributes, maxPacketSize := LittleEndian.ofBytes [low, high], interval }
  | _ => none

def EndpointDescriptor.parse (b : Bytes) : Option (Option EndpointDescriptor) :=
  if b.length < 7 then
    some none
  else do
    let kind ← b[1]?
    if kind ≠ Kind.endpoint then return none
    return some (← read b)

def InterfaceDescriptor.descriptors (self : InterfaceDescriptor) : Descriptors :=
  { rest := self.extra }

def InterfaceDescriptor.endpoints (self : InterfaceDescriptor) :
    Option (List EndpointDescriptor) := do
  let parsed ← (← self.descriptors.collect).mapM fun d => EndpointDescriptor.parse d.bytes
  return parsed.reduceOption

/-! ### Claiming an interface -/

inductive Error
  | noDevice
  | notFound
  | busy
  | hcd (code : ℕ)
  deriving DecidableEq, Repr

structure PipeConfig where
  endpoint : UInt8
  maxPacketBytes : ℕ
  interval : UInt8
  address : UInt8
  deriving DecidableEq, Repr

structure Device where
  gone : Bool
  config : Bytes
  claimed : List UInt8
  address : UInt8

/-- The pipes of a claim; the first that the controller refuses ends it. -/
def allocPipes (pipeAlloc : PipeConfig → Except Error ℕ) (address : UInt8) :
    List EndpointDescriptor → Except Error (List (EndpointDescriptor × ℕ))
  | [] => .ok []
  | ep :: eps => do
    let pipe ← pipeAlloc
      { endpoint := ep.address
        maxPacketBytes := ep.maxPacketSize &&& 0x07ff
        interval := ep.interval
        address }
    return (ep, pipe) :: (← allocPipes pipeAlloc address eps)

/-- A claim that fails later is dropped, and no longer counts as claimed. -/
def Device.claim (self : Device) (pipeAlloc : PipeConfig → Except Error ℕ)
    (interface alternate : UInt8) :
    Option (Except Error (List (EndpointDescriptor × ℕ)) × Device) :=
  if self.gone then
    some (.error .noDevice, self)
  else do
    let configuration ← (← Configuration.parse self.config)
    let some desc ← configuration.interface interface alternate
      | return (.error .notFound, self)
    if interface ∈ self.claimed then return (.error .busy, self)
    let bulk := (← desc.endpoints).filter fun ep => ep.attributes &&& 0x03 = 2
    match allocPipes pipeAlloc self.address bulk with
    | .ok endpoints =>
      return (.ok endpoints, { self with claimed := self.claimed ++ [interface] })
    | .error e =>
      let kept := (self.claimed ++ [interface]).filter (· ≠ interface)
      return (.error e, { self with claimed := kept })

/-! ### The chain of descriptors -/

/-- A descriptor has as many bytes as its first one tells. -/
def Whole (d : Bytes) : Prop := 2 ≤ d.length ∧ d.head?.map UInt8.toNat = some d.length

def Ends (rest : Bytes) : Prop :=
  ∀ first ∈ rest.head?, first.toNat < 2 ∨ rest.length < first.toNat

inductive Chain : Bytes → List Bytes → Prop
  | ends {rest : Bytes} (ends : Ends rest) : Chain rest []
  | descriptor {d rest : Bytes} {ds : List Bytes} (whole : Whole d) (chain : Chain rest ds) :
    Chain (d ++ rest) (d :: ds)

def kindOf (d : Bytes) : UInt8 := d.getD 1 0

def inner (d : Bytes) : Bool :=
  kindOf d ≠ Kind.interface ∧ kindOf d ≠ Kind.interfaceAssociation

/-- The interface descriptors of a chain that are long enough to be one, each with the descriptors
up to the next interface or association. -/
def settings : List Bytes → List InterfaceDescriptor
  | [] => []
  | d :: ds =>
    if kindOf d = Kind.interface then
      (InterfaceDescriptor.read d (ds.takeWhile inner).flatten).toList ++ settings ds
    else settings ds

/-- The endpoint descriptors of a chain that are long enough to be one. -/
def endpointsOf (ds : List Bytes) : List EndpointDescriptor :=
  (ds.filter (kindOf · = Kind.endpoint)).filterMap EndpointDescriptor.read

/-- The endpoints come after an interface, with no association between them. -/
def Placed : Bool → List Bytes → Prop
  | _, [] => True
  | under, d :: ds =>
    if kindOf d = Kind.interface then Placed (9 ≤ d.length) ds
    else if kindOf d = Kind.interfaceAssociation then Placed false ds
    else if kindOf d = Kind.endpoint ∧ 7 ≤ d.length then under ∧ Placed under ds
    else Placed under ds

variable {d rest : Bytes} {ds : List Bytes}

theorem Chain.exists (rest : Bytes) : ∃ ds, Chain rest ds := by
  induction length : rest.length using Nat.strong_induction_on generalizing rest with
  | _ n ih =>
  by_cases ends : Ends rest
  · exact ⟨[], .ends ends⟩
  unfold Ends at ends
  push Not at ends
  obtain ⟨first, head, low, high⟩ := ends
  obtain ⟨tail, rfl⟩ := head?_eq_some_iff.mp head
  have shorter : ((first :: tail).drop first.toNat).length < n := by
    rw [length_drop]
    omega
  obtain ⟨ds, chain⟩ := ih _ shorter _ rfl
  have taken : ((first :: tail).take first.toNat).length = first.toNat := by
    rw [length_take]
    omega
  have whole : Whole ((first :: tail).take first.toNat) := by
    refine ⟨by omega, ?_⟩
    rw [taken, head?_take, if_neg (by omega)]
    rfl
  have both := Chain.descriptor whole chain
  rw [take_append_drop] at both
  exact ⟨_, both⟩

theorem Chain.whole (chain : Chain rest ds) : ∀ d ∈ ds, Whole d := by
  induction chain with
  | ends => simp
  | descriptor whole _ ih => exact forall_mem_cons.mpr ⟨whole, ih⟩

theorem Chain.flatten (chain : Chain rest ds) : ∃ tail, rest = ds.flatten ++ tail := by
  induction chain with
  | @ends rest _ => exact ⟨rest, rfl⟩
  | descriptor _ _ ih =>
    obtain ⟨tail, rfl⟩ := ih
    exact ⟨tail, by simp⟩

theorem Chain.takeWhile_flatten (chain : Chain rest ds) :
    ∃ tail, rest = (ds.takeWhile inner).flatten ++ tail := by
  obtain ⟨tail, rfl⟩ := chain.flatten
  refine ⟨(ds.dropWhile inner).flatten ++ tail, ?_⟩
  rw [← append_assoc, ← flatten_append, takeWhile_append_dropWhile]

theorem chain_flatten (whole : ∀ d ∈ ds, Whole d) : Chain ds.flatten ds := by
  induction ds with
  | nil => exact .ends (by simp [Ends])
  | cons d ds ih =>
    obtain ⟨here, later⟩ := forall_mem_cons.mp whole
    exact .descriptor here (ih later)

theorem Descriptors.next_whole (whole : Whole d) :
    Descriptors.next { rest := d ++ rest } =
      some (some { kind := kindOf d, bytes := d }, { rest }) := by
  obtain ⟨long, length⟩ := whole
  obtain ⟨first, kind, tail, rfl⟩ : ∃ first kind tail, d = first :: kind :: tail := by
    match d, long with
    | first :: kind :: tail, _ => exact ⟨first, kind, tail, rfl⟩
  replace length : first.toNat = (first :: kind :: tail).length := Option.some.inj length
  have short : first.toNat ≤ ((first :: kind :: tail) ++ rest).length := by
    rw [length, length_append]
    exact Nat.le_add_right _ _
  have fits : ¬(first.toNat < 2 ∨ ((first :: kind :: tail) ++ rest).length < first.toNat) := by
    omega
  rw [next]
  dsimp only [cons_append] at fits short ⊢
  rw [if_neg fits, splitAt, if_pos short, ← cons_append, ← cons_append, length,
    take_left, drop_left]
  rfl

theorem Descriptors.next_ends (ends : Ends rest) :
    ∃ after, Descriptors.next { rest } = some (none, after) := by
  cases rest with
  | nil => exact ⟨_, rfl⟩
  | cons first tail =>
    rw [next]
    dsimp only
    rw [if_pos (ends first rfl)]
    exact ⟨_, rfl⟩

theorem Descriptors.collect_chain (chain : Chain rest ds) :
    Descriptors.collect { rest } = some (ds.map fun d => { kind := kindOf d, bytes := d }) := by
  induction chain with
  | ends ends =>
    obtain ⟨after, next⟩ := next_ends ends
    rw [collect]
    split <;> simp_all
  | @descriptor d rest ds whole chain ih =>
    have next : next { rest := d ++ rest } = _ := next_whole whole
    rw [collect]
    split <;> simp_all

theorem Descriptors.extraLen_descriptor (whole : Whole d) :
    Descriptors.extraLen { rest := d ++ rest } =
      if inner d then (Descriptors.extraLen { rest }).map (d.length + ·) else some 0 := by
  have next : next { rest := d ++ rest } = _ := next_whole whole
  rw [extraLen]
  split <;> simp_all [inner, ← not_or]

theorem Descriptors.extraLen_chain (chain : Chain rest ds) :
    Descriptors.extraLen { rest } = some (ds.takeWhile inner).flatten.length := by
  induction chain with
  | ends ends =>
    obtain ⟨after, next⟩ := next_ends ends
    rw [extraLen]
    split <;> simp_all
  | @descriptor d rest ds whole chain ih =>
    rw [extraLen_descriptor whole, ih, takeWhile_cons]
    split
    · rw [flatten_cons, length_append]
      rfl
    · rfl

theorem Descriptors.nextInterface_descriptor (whole : Whole d) :
    Descriptors.nextInterface { rest := d ++ rest } =
      if kindOf d = Kind.interface ∧ 9 ≤ d.length then some (some d, { rest })
      else Descriptors.nextInterface { rest } := by
  have next : next { rest := d ++ rest } = _ := next_whole whole
  rw [nextInterface]
  split <;> simp_all

theorem InterfaceDescriptor.read_cases (d extra : Bytes) :
    read d extra = none ∧ d.length < 9 ∨
      ∃ interface, read d extra = some interface ∧ interface.extra = extra ∧ 9 ≤ d.length := by
  unfold read
  split
  · exact .inr ⟨_, rfl, rfl, by simp⟩
  · next short =>
    refine .inl ⟨rfl, ?_⟩
    by_contra long
    match d, Nat.not_lt.mp long with
    | _ :: _ :: _ :: _ :: _ :: _ :: _ :: _ :: _ :: _, _ => exact short _ _ _ _ _ _ _ _ _ _ rfl

theorem Interfaces.collect_congr {a b : Interfaces} (same : a.next = b.next) :
    a.collect = b.collect := by
  rw [collect, collect, same]

theorem Interfaces.collect_chain (chain : Chain rest ds) :
    Interfaces.collect { descriptors := { rest } } = some (settings ds) := by
  induction chain with
  | @ends rest ends =>
    obtain ⟨after, next⟩ := Descriptors.next_ends ends
    have sought : Descriptors.nextInterface { rest } = some (none, after) := by
      rw [Descriptors.nextInterface]
      split <;> simp_all
    rw [collect]
    split <;> simp_all [Interfaces.next, settings]
  | @descriptor d rest ds whole chain ih =>
    rw [settings]
    have skips (other : ¬(kindOf d = Kind.interface ∧ 9 ≤ d.length)) :
        Interfaces.collect { descriptors := { rest := d ++ rest } } = some (settings ds) := by
      rw [← ih]
      apply collect_congr
      rw [Interfaces.next, Interfaces.next]
      simp only [Descriptors.nextInterface_descriptor whole, if_neg other]
    split
    · next isInterface =>
      rcases InterfaceDescriptor.read_cases d (ds.takeWhile inner).flatten with
        ⟨reads, short⟩ | ⟨interface, reads, _, long⟩
      · rw [reads]
        exact skips fun both => Nat.not_lt_of_le both.2 short
      · obtain ⟨tail, parts⟩ := chain.takeWhile_flatten
        have cut : splitAt rest (ds.takeWhile inner).flatten.length =
            some ((ds.takeWhile inner).flatten, tail) := by
          nth_rewrite 1 [parts]
          exact splitAt_left _ _
        have next : Interfaces.next { descriptors := { rest := d ++ rest } } =
            some (some interface, { descriptors := { rest } }) := by
          rw [Interfaces.next]
          simp only [Descriptors.nextInterface_descriptor whole, isInterface, long, cut, reads,
            Descriptors.extraLen_chain chain, Option.bind_eq_bind, Option.bind_some, and_self,
            if_true]
          rfl
        rw [reads, collect]
        split <;> simp_all
    · next other => exact skips fun both => other both.1

theorem EndpointDescriptor.read_cases (d : Bytes) :
    read d = none ∧ d.length < 7 ∨ ∃ endpoint, read d = some endpoint ∧ 7 ≤ d.length := by
  unfold read
  split
  · exact .inr ⟨_, rfl, by simp⟩
  · next short =>
    refine .inl ⟨rfl, ?_⟩
    by_contra long
    match d, Nat.not_lt.mp long with
    | _ :: _ :: _ :: _ :: _ :: _ :: _ :: _, _ => exact short _ _ _ _ _ _ _ _ rfl

theorem EndpointDescriptor.parse_whole (whole : Whole d) :
    parse d = some (if kindOf d = Kind.endpoint then read d else none) := by
  have kind : d[1]? = some (kindOf d) := by
    rw [kindOf, getD_eq_getElem?_getD, getElem?_eq_getElem whole.1]
    rfl
  unfold parse
  rcases read_cases d with ⟨reads, short⟩ | ⟨endpoint, reads, long⟩
  · rw [if_pos short, reads, ite_self]
  · rw [if_neg long.not_gt, kind, reads]
    dsimp only [Option.bind_eq_bind, Option.bind_some]
    split <;> simp_all

theorem endpointsOf_cons : endpointsOf (d :: ds) =
    (if kindOf d = Kind.endpoint then EndpointDescriptor.read d else none).toList ++
      endpointsOf ds := by
  rw [endpointsOf, filter_cons]
  split
  · next endpoint =>
    rw [filterMap_cons, if_pos (by simpa using endpoint), endpointsOf]
    cases EndpointDescriptor.read d <;> rfl
  · next other => rw [if_neg (by simpa using other), endpointsOf, Option.toList_none, nil_append]

theorem mapM_parse (whole : ∀ d ∈ ds, Whole d) :
    ∃ parsed, (ds.map fun d => ({ kind := kindOf d, bytes := d } : Raw)).mapM
        (fun d => EndpointDescriptor.parse d.bytes) = some parsed ∧
      parsed.reduceOption = endpointsOf ds := by
  induction ds with
  | nil => exact ⟨[], rfl, rfl⟩
  | cons d ds ih =>
    obtain ⟨here, later⟩ := forall_mem_cons.mp whole
    obtain ⟨parsed, reads, same⟩ := ih later
    rw [map_cons, mapM_cons, EndpointDescriptor.parse_whole here, reads, endpointsOf_cons,
      ← same]
    refine ⟨_, rfl, ?_⟩
    cases if kindOf d = Kind.endpoint then EndpointDescriptor.read d else none <;> rfl

theorem InterfaceDescriptor.endpoints_flatten {interface : InterfaceDescriptor}
    (whole : ∀ d ∈ ds, Whole d) (extra : interface.extra = ds.flatten) :
    interface.endpoints = some (endpointsOf ds) := by
  obtain ⟨parsed, reads, same⟩ := mapM_parse whole
  rw [endpoints, descriptors, extra, Descriptors.collect_chain (chain_flatten whole)]
  dsimp only [Option.bind_eq_bind, Option.bind_some]
  rw [reads, ← same]
  rfl

/-- The endpoints of the chain's interfaces; those that come before the next interface are also
of one when they are `under` it. -/
def underInterfaces : Bool → List Bytes → List EndpointDescriptor
  | _, [] => []
  | under, d :: ds =>
    if kindOf d = Kind.interface then underInterfaces (9 ≤ d.length) ds
    else if kindOf d = Kind.interfaceAssociation then underInterfaces false ds
    else if kindOf d = Kind.endpoint ∧ under then
      (EndpointDescriptor.read d).toList ++ underInterfaces under ds
    else underInterfaces under ds

theorem underInterfaces_true : underInterfaces true ds =
    endpointsOf (ds.takeWhile inner) ++ underInterfaces false ds := by
  induction ds with
  | nil => rfl
  | cons d ds ih =>
    rw [underInterfaces, underInterfaces, takeWhile_cons]
    by_cases interface : kindOf d = Kind.interface
    · simp [interface, inner, endpointsOf]
    by_cases association : kindOf d = Kind.interfaceAssociation
    · simp [association, inner, endpointsOf]
    have isInner : inner d = true := by simp [inner, interface, association]
    rw [if_neg interface, if_neg interface, if_neg association, if_neg association, if_pos isInner,
      endpointsOf_cons]
    by_cases endpoint : kindOf d = Kind.endpoint <;> simp [endpoint, ih]

theorem endpoints_settings (whole : ∀ d ∈ ds, Whole d) :
    ∃ each, (settings ds).mapM InterfaceDescriptor.endpoints = some each ∧
      each.flatten = underInterfaces false ds := by
  induction ds with
  | nil => exact ⟨[], rfl, rfl⟩
  | cons d ds ih =>
    obtain ⟨here, later⟩ := forall_mem_cons.mp whole
    obtain ⟨each, reads, same⟩ := ih later
    rw [settings, underInterfaces]
    split
    · rcases InterfaceDescriptor.read_cases d (ds.takeWhile inner).flatten with
        ⟨none, short⟩ | ⟨setting, some_, extra, long⟩
      · rw [none, decide_eq_false short.not_ge]
        exact ⟨each, reads, same⟩
      · have endpoints := InterfaceDescriptor.endpoints_flatten
          (fun d mem => later d (takeWhile_subset _ mem)) extra
        rw [some_, Option.toList_some, singleton_append, mapM_cons, endpoints, reads,
          decide_eq_true long, underInterfaces_true]
        exact ⟨_, rfl, by rw [flatten_cons, same]⟩
    · refine ⟨each, reads, ?_⟩
      simp [same]

theorem length_underInterfaces (under : Bool) :
    (underInterfaces under ds).length ≤ (endpointsOf ds).length := by
  induction ds generalizing under with
  | nil => simp [underInterfaces]
  | cons d ds ih =>
    rw [underInterfaces, endpointsOf_cons, length_append]
    split
    · exact (ih _).trans (Nat.le_add_left _ _)
    split
    · exact (ih _).trans (Nat.le_add_left _ _)
    split
    · next endpoint =>
      rw [if_pos endpoint.1, length_append]
      exact Nat.add_le_add_left (ih _) _
    · exact (ih _).trans (Nat.le_add_left _ _)

theorem placed_iff (under : Bool) : Placed under ds ↔ underInterfaces under ds = endpointsOf ds := by
  induction ds generalizing under with
  | nil => simp [Placed, underInterfaces, endpointsOf]
  | cons d ds ih =>
    rw [Placed, underInterfaces, endpointsOf_cons]
    split
    · next interface =>
      rw [if_neg (by rw [interface]; decide)]
      exact ih _
    split
    · next association =>
      rw [if_neg (by rw [association]; decide)]
      exact ih false
    by_cases endpoint : kindOf d = Kind.endpoint
    · have fewer : _ ≤ (endpointsOf ds).length := length_underInterfaces under
      rcases EndpointDescriptor.read_cases d with ⟨none, short⟩ | ⟨read, some_, long⟩
      · simp [endpoint, none, short.not_ge, ih]
      · cases under with
        | true => simp [endpoint, some_, long, ih]
        | false =>
          simp only [endpoint, some_, long, and_self, if_true, Bool.false_eq_true, false_and,
            false_iff, and_false, if_false]
          intro same
          have lengths := congrArg length same
          rw [length_append] at lengths
          simp at lengths
          omega
    · simp [endpoint, ih]

/-! ### What a configuration gives -/

/-- The descriptors lie one behind another after the configuration's own, each interface comes
with those up to the next interface or association, every interface and endpoint descriptor is
given once and in order, and nothing panics. -/
structure Configuration.Walked (c : Configuration) (ds : List Bytes) : Prop where
  consecutive : ∃ header tail, c.bytes = header ++ ds.flatten ++ tail ∧
    header.head?.map UInt8.toNat = some header.length
  descriptors : c.descriptors.bind Descriptors.collect =
    some (ds.map fun d => { kind := kindOf d, bytes := d })
  interfaces : ∃ given, c.interfaces.bind Interfaces.collect = some given ∧
    given = settings ds ∧ ∃ each, given.mapM InterfaceDescriptor.endpoints = some each ∧
      each.flatten = endpointsOf ds
  interface : ∀ number alternate, (c.interface number alternate).isSome
  claim : ∀ (device : Device) (pipeAlloc : PipeConfig → Except Error ℕ) (interface alternate : UInt8),
    Configuration.parse device.config = some (some c) →
      (device.claim pipeAlloc interface alternate).isSome

theorem Configuration.parse_bytes {bytes : Bytes} {c : Configuration}
    (accepted : Configuration.parse bytes = some (some c)) :
    c.bytes <+: bytes ∧ ∃ first tail, c.bytes = first :: tail ∧ 9 ≤ first.toNat := by
  unfold parse at accepted
  split at accepted
  · cases accepted
  simp only [Option.bind_eq_bind, Option.bind_eq_some_iff] at accepted
  obtain ⟨first, head, kind, _, accepted⟩ := accepted
  split at accepted
  · cases accepted
  next wide =>
  simp only [Option.bind_eq_some_iff] at accepted
  obtain ⟨low, _, high, _, accepted⟩ := accepted
  split at accepted
  · cases accepted
  next long =>
  simp only [Option.bind_eq_some_iff] at accepted
  obtain ⟨⟨taken, left⟩, cut, made⟩ := accepted
  cases made
  unfold splitAt at cut
  split at cut <;> cases cut
  refine ⟨ take_prefix _ _, first, ?_⟩
  obtain ⟨bytes, rfl⟩ : ∃ tail, bytes = first :: tail := by
    cases bytes <;> simp_all
  obtain ⟨total, totals⟩ : ∃ total, LittleEndian.ofBytes [low, high] = total + 1 :=
    Nat.exists_eq_succ_of_ne_zero (by simp only [configurationBytes] at long; omega)
  rw [totals]
  exact ⟨_, take_succ_cons, by omega⟩

theorem Configuration.descriptors_eq {c : Configuration} {first : UInt8} {tail : Bytes}
    (bytes : c.bytes = first :: tail) : c.descriptors =
      if first.toNat ≤ c.bytes.length then some { rest := c.bytes.drop first.toNat } else none := by
  rw [descriptors, bytes]
  dsimp only [getElem?_cons_zero, Option.bind_eq_bind, Option.bind_some]
  unfold splitAt
  split <;> rfl

theorem mapM_mem {α β : Type} {f : α → Option β} {as : List α} {bs : List β}
    (maps : as.mapM f = some bs) : ∀ a ∈ as, (f a).isSome := by
  induction as generalizing bs with
  | nil => simp
  | cons a as ih =>
    rw [mapM_cons] at maps
    obtain ⟨b, first, maps⟩ := Option.bind_eq_some_iff.mp maps
    obtain ⟨bs, later, _⟩ := Option.bind_eq_some_iff.mp maps
    exact forall_mem_cons.mpr ⟨by rw [first]; rfl, ih later⟩

theorem Configuration.interface_eq {c : Configuration} {given : List InterfaceDescriptor}
    (interfaces : c.interfaces.bind Interfaces.collect = some given) (number alternate : UInt8) :
    c.interface number alternate =
      some (given.find? fun i => i.number = number ∧ i.alternate = alternate) := by
  obtain ⟨all, starts, collects⟩ := Option.bind_eq_some_iff.mp interfaces
  rw [interface, starts]
  dsimp only [Option.bind_eq_bind, Option.bind_some]
  rw [collects]
  rfl

theorem Configuration.claim_isSome {c : Configuration} {given : List InterfaceDescriptor}
    {each : List (List EndpointDescriptor)}
    (interfaces : c.interfaces.bind Interfaces.collect = some given)
    (endpoints : given.mapM InterfaceDescriptor.endpoints = some each) {device : Device}
    (pipeAlloc : PipeConfig → Except Error ℕ) (interface alternate : UInt8)
    (parses : Configuration.parse device.config = some (some c)) :
    (device.claim pipeAlloc interface alternate).isSome := by
  unfold Device.claim
  split
  · rfl
  rw [parses]
  dsimp only [Option.bind_eq_bind, Option.bind_some]
  rw [Configuration.interface_eq interfaces]
  cases found : given.find? fun i => i.number = interface ∧ i.alternate = alternate with
  | none => rfl
  | some desc =>
    obtain ⟨eps, reads⟩ := Option.isSome_iff_exists.mp
      (mapM_mem endpoints desc (mem_of_find?_eq_some found))
    dsimp only [Option.bind_some]
    split
    · rfl
    · rw [reads]
      dsimp only [Option.bind_some]
      split <;> rfl

theorem Configuration.walked_of_placed {c : Configuration} {first : UInt8} {tail : Bytes}
    {ds : List Bytes} (bytes : c.bytes = first :: tail) (wide : 9 ≤ first.toNat)
    (fits : first.toNat ≤ c.bytes.length) (chain : Chain (c.bytes.drop first.toNat) ds) (placed : Placed false ds) : c.Walked ds := by
  have endpoints := (placed_iff false).mp placed
  obtain ⟨each, reads, same⟩ := endpoints_settings chain.whole
  have starts := descriptors_eq bytes
  rw [if_pos fits] at starts
  have collects : c.interfaces.bind Interfaces.collect = some (settings ds) := by
    rw [interfaces, starts]
    exact Interfaces.collect_chain chain
  refine ⟨?_, ?_, ⟨_, collects, rfl, each, reads, same.trans endpoints⟩, fun number alternate => ?_,
    fun device pipeAlloc interface alternate => claim_isSome collects reads pipeAlloc interface alternate⟩
  · obtain ⟨left, split_⟩ := chain.flatten
    refine ⟨c.bytes.take first.toNat, left, ?_, ?_⟩
    · rw [append_assoc, ← split_, take_append_drop]
    · rw [length_take, min_eq_left fits, bytes, head?_take, if_neg (by omega)]
      rfl
  · rw [starts]
    exact Descriptors.collect_chain chain
  · rw [interface_eq collects]
    rfl

/-- The configurations that enumeration accepts are walked well exactly when their own descriptor
is no longer than all of them, and the others are in their places. -/
theorem configuration_walked {bytes : Bytes} {c : Configuration}
    (accepted : Configuration.parse bytes = some (some c)) :
    c.bytes <+: bytes ∧ ∃ header ds,
      c.bytes.head?.map UInt8.toNat = some header ∧ Chain (c.bytes.drop header) ds ∧
      (c.Walked ds ↔ header ≤ c.bytes.length ∧ Placed false ds) := by
  obtain ⟨inside, first, tail, cut, wide⟩ := Configuration.parse_bytes accepted
  obtain ⟨ds, chain⟩ := Chain.exists (c.bytes.drop first.toNat)
  refine ⟨inside, first.toNat, ds, by rw [cut]; rfl, chain, fun walked => ?_, fun ⟨fits, placed⟩ =>
    Configuration.walked_of_placed cut wide fits chain placed⟩
  have fits : first.toNat ≤ c.bytes.length := by
    by_contra past
    have panics := walked.descriptors
    rw [Configuration.descriptors_eq cut, if_neg past] at panics
    cases panics
  obtain ⟨_, _, rfl, each, reads, endpoints⟩ := walked.interfaces
  obtain ⟨each', reads', same⟩ := endpoints_settings chain.whole
  cases reads.symm.trans reads'
  exact ⟨fits, (placed_iff false).mpr (same.symm.trans endpoints)⟩

def oneInterface : Bytes :=
  [9, 2, 25, 0, 1, 1, 0, 0x80, 50, 9, 4, 0, 0, 1, 0xff, 0, 0, 0, 7, 5, 0x81, 2, 64, 0, 0]

theorem configuration_walked_one :
    oneInterface <+: oneInterface ∧ ∃ header ds,
      oneInterface.head?.map UInt8.toNat = some header ∧ Chain (oneInterface.drop header) ds ∧
        (Configuration.Walked { bytes := oneInterface } ds ↔
          header ≤ oneInterface.length ∧ Placed false ds) :=
  configuration_walked (by decide : Configuration.parse oneInterface = some (some ⟨oneInterface⟩))

/-- A configuration descriptor longer than its configuration. -/
theorem configuration_panics :
    Configuration.parse [10, 2, 9, 0, 0, 1, 0, 0x80, 50] =
        some (some { bytes := [10, 2, 9, 0, 0, 1, 0, 0x80, 50] }) ∧
      ∀ ds, ¬Configuration.Walked { bytes := [10, 2, 9, 0, 0, 1, 0, 0x80, 50] } ds := by
  refine ⟨by decide, fun ds walked => ?_⟩
  have panics := walked.descriptors
  have none : Configuration.descriptors { bytes := [10, 2, 9, 0, 0, 1, 0, 0x80, 50] } = none := by
    decide
  rw [none] at panics
  cases panics

end EspDevkit.Usb.Desc
