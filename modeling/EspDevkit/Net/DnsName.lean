import Mathlib.Data.Nat.Notation
import Mathlib.Data.List.Basic
import Mathlib.Tactic.Common

/-!
# Names in DNS messages

A name is kept in lower case, its labels joined by dots, without the root's.  In a message
each label follows its length, an empty one ends the name, and a pointer has it go on at
an earlier place.
-/

namespace EspDevkit.Net.Dns

open List

def maxName : ℕ := 253
def maxLabel : ℕ := 63

def header : ℕ := 12

def dot : UInt8 := 0x2e

/-- `u8::to_ascii_lowercase`. -/
def lower (b : UInt8) : UInt8 := if 0x41 ≤ b ∧ b ≤ 0x5a then b + 0x20 else b

/-- `u8::is_ascii_graphic`. -/
def isGraphic (b : UInt8) : Bool := decide (0x21 ≤ b ∧ b ≤ 0x7e)

abbrev Name := List UInt8

/-- The bytes of `host` without the dot of the root. -/
def stripRoot (host : List UInt8) : List UInt8 :=
  if host.getLast? = some dot then host.dropLast else host

/-- `parse_name`, of the bytes of a host. -/
def parseName (host : List UInt8) : Option Name :=
  let host := stripRoot host
  if host.isEmpty ∨ maxName < host.length then none
  else if (host.splitOn dot).all fun l =>
      decide (1 ≤ l.length ∧ l.length ≤ maxLabel) && l.all isGraphic then
    some (host.map lower)
  else none

def putLabel (label : List UInt8) : List UInt8 := UInt8.ofNat label.length :: label

/-- What `put_name` writes. -/
def putName (name : Name) : List UInt8 := (name.splitOn dot).flatMap putLabel ++ [0]

/-- `to_be_bytes` of 16 bits. -/
def be16 (v : UInt16) : List UInt8 := [(v >>> 8).toUInt8, v.toUInt8]

def flagRd : UInt16 := 0x0100
def typeA : UInt16 := 1
def classIn : UInt16 := 1

def query (id : UInt16) (name : Name) : List UInt8 :=
  be16 id ++ be16 flagRd ++ be16 1 ++ List.replicate (header - 6) 0 ++ putName name ++
    be16 typeA ++ be16 classIn

/-- `msg.get(start..stop)`. -/
def slice (msg : List UInt8) (start stop : ℕ) : Option (List UInt8) :=
  if stop ≤ msg.length then some ((msg.drop start).take (stop - start)) else none

def addLabel (name : Name) (label : List UInt8) : Name :=
  (if name.isEmpty then name else name ++ [dot]) ++ label

theorem length_addLabel (name : Name) (label : List UInt8) :
    name.length + label.length ≤ (addLabel name label).length := by
  unfold addLabel
  split <;> simp

variable {msg label : List UInt8} {pos : ℕ}

theorem length_slice {start stop : ℕ} {bytes : List UInt8}
    (here : slice msg start stop = some bytes) : bytes.length = stop - start := by
  unfold slice at here
  split at here
  · obtain rfl := Option.some.inj here
    simp
    omega
  · exact absurd here nofun

def target (len low : UInt8) : ℕ := (len.toNat &&& 0x3f) <<< 8 ||| low.toNat

/-- `read_name` from the point where `name` is read.  It ends: a label makes the name
longer, and a pointer leads back. -/
def readFrom (msg : List UInt8) (name : Name) (pos : ℕ) (stop : Option ℕ) : Option (Name × ℕ) :=
  match msg[pos]? with
  | none => none
  | some len =>
    if len.toNat &&& 0xc0 = 0 then
      if len.toNat = 0 then some (name, stop.getD (pos + 1))
      else
        match label : slice msg (pos + 1) (pos + 1 + len.toNat) with
        | none => none
        | some bytes =>
          if bytes.contains dot then none
          else if maxName < (addLabel name (bytes.map lower)).length then none
          else readFrom msg (addLabel name (bytes.map lower)) (pos + 1 + len.toNat) stop
    else if len.toNat &&& 0xc0 = 0xc0 then
      match msg[pos + 1]? with
      | none => none
      | some low =>
        if pos ≤ target len low then none
        else readFrom msg name (target len low) (stop.or (some (pos + 2)))
    else none
termination_by (maxName + 1 - name.length, pos)
decreasing_by
  · apply Prod.Lex.left
    have added := length_addLabel name (bytes.map lower)
    have long := length_slice label
    rw [length_map] at added
    omega
  · apply Prod.Lex.right
    omega

/-- `read_name`: the name at `pos` and where the record goes on after it. -/
def readName (msg : List UInt8) (pos : ℕ) : Option (Name × ℕ) := readFrom msg [] pos none

structure Label (label : List UInt8) : Prop where
  filled : 1 ≤ label.length
  short : label.length ≤ maxLabel
  noDot : dot ∉ label
  lowered : label.map lower = label

theorem lower_lower (b : UInt8) : lower (lower b) = lower b := by
  unfold lower
  split
  · next upper =>
      have low : ¬(0x41 ≤ b + 0x20 ∧ b + 0x20 ≤ 0x5a) := by
        simp only [UInt8.le_iff_toNat_le, UInt8.toNat_add] at *
        simp at *
        omega
      rw [if_neg low]
  · rfl

theorem lower_eq_dot {b : UInt8} : lower b = dot ↔ b = dot := by
  unfold lower dot
  split
  · next upper =>
      simp only [UInt8.le_iff_toNat_le, ← UInt8.toNat_inj, UInt8.toNat_add] at *
      simp at *
      omega
  · rfl

theorem dot_mem_lower : dot ∈ label.map lower ↔ dot ∈ label := by
  rw [mem_map]
  constructor
  · rintro ⟨b, mem, eq⟩
    rwa [lower_eq_dot.mp eq] at mem
  · intro mem
    exact ⟨dot, mem, lower_eq_dot.mpr rfl⟩

theorem Label.of_bytes {bytes : List UInt8} (filled : 1 ≤ bytes.length)
    (short : bytes.length ≤ maxLabel) (noDot : dot ∉ bytes) : Label (bytes.map lower) where
  filled := by rwa [length_map]
  short := by rwa [length_map]
  noDot := fun mem => noDot (dot_mem_lower.mp mem)
  lowered := by
    rw [map_map]
    exact map_congr_left fun b _ => lower_lower b

theorem not_mem_splitOn {α : Type} [BEq α] [LawfulBEq α] {a : α} {xs piece : List α}
    (mem : piece ∈ xs.splitOn a) : a ∉ piece := by
  induction xs generalizing piece with
  | nil =>
    rw [splitOn_nil, mem_singleton] at mem
    rw [mem]
    exact not_mem_nil
  | cons x xs ih =>
    rw [splitOn_cons_eq_if_modifyHead] at mem
    split at mem
    · rcases mem_cons.mp mem with rfl | mem
      · exact not_mem_nil
      · exact ih mem
    · next other =>
        cases pieces : xs.splitOn a with
        | nil => exact absurd pieces (splitOn_ne_nil a xs)
        | cons first rest =>
          rw [pieces, modifyHead_cons] at mem
          rcases mem_cons.mp mem with rfl | mem
          · intro inside
            rcases mem_cons.mp inside with rfl | inside
            · exact other BEq.rfl
            · exact ih (by rw [pieces]; exact mem_cons_self) inside
          · exact ih (by rw [pieces]; exact mem_cons_of_mem _ mem)

def joined (labels : List (List UInt8)) : Name := labels.foldl addLabel []

theorem foldl_addLabel {name : Name} (labels : List (List UInt8)) (some : name ≠ []) :
    labels.foldl addLabel name = name ++ labels.flatMap (dot :: ·) := by
  induction labels generalizing name with
  | nil => simp
  | cons label labels ih =>
    rw [foldl_cons, ih (by simp [addLabel, some])]
    simp [addLabel, some]

theorem intercalate_cons (label : List UInt8) (labels : List (List UInt8)) :
    [dot].intercalate (label :: labels) = label ++ labels.flatMap (dot :: ·) := by
  induction labels generalizing label with
  | nil => simp
  | cons next labels ih =>
    rw [intercalate_cons_cons, ih next]
    simp

theorem joined_eq {labels : List (List UInt8)} (good : ∀ l ∈ labels, Label l) :
    joined labels = [dot].intercalate labels := by
  cases labels with
  | nil => rfl
  | cons label labels =>
    have first := good label mem_cons_self
    have some : label ≠ [] := ne_nil_of_length_pos first.filled
    rw [intercalate_cons, joined, foldl_cons]
    exact foldl_addLabel labels some

theorem joined_append (labels : List (List UInt8)) (label : List UInt8) :
    joined (labels ++ [label]) = addLabel (joined labels) label := by
  rw [joined, foldl_append]
  rfl

theorem length_le_foldl (name : Name) (labels : List (List UInt8)) :
    name.length ≤ (labels.foldl addLabel name).length := by
  induction labels generalizing name with
  | nil => exact Nat.le_refl _
  | cons label labels ih =>
    have added := length_addLabel name label
    have rest := ih (addLabel name label)
    rw [foldl_cons]
    omega

/-- A name that a message can hold: labels, within the limit. -/
structure Wellformed (name : Name) : Prop where
  labels : ∃ labels, name = joined labels ∧ ∀ l ∈ labels, Label l
  short : name.length ≤ maxName

theorem splitOn_joined {labels : List (List UInt8)} (good : ∀ l ∈ labels, Label l)
    (some : labels ≠ []) : (joined labels).splitOn dot = labels := by
  rw [joined_eq good]
  exact splitOn_intercalate dot (fun l mem => (good l mem).noDot) some

theorem Wellformed.addLabel {name : Name} (known : Wellformed name)
    (good : Label label) (short : (addLabel name label).length ≤ maxName) :
    Wellformed (addLabel name label) where
  labels := by
    obtain ⟨labels, rfl, all⟩ := known.labels
    refine ⟨labels ++ [label], (joined_append labels label).symm, ?_⟩
    intro l mem
    rcases mem_append.mp mem with mem | mem
    · exact all l mem
    · rw [mem_singleton.mp mem]
      exact good
  short := short

theorem length_lt_of_and {len : UInt8} (label : len.toNat &&& 0xc0 = 0) : len.toNat ≤ maxLabel := by
  have small : ∀ n < 256, n &&& 0xc0 = 0 → n ≤ maxLabel := by decide +kernel
  exact small _ len.toNat_lt label

theorem readFrom_wellformed {name : Name} {stop : Option ℕ}
    {result : Name × ℕ} (read : readFrom msg name pos stop = some result)
    (known : Wellformed name) : Wellformed result.1 := by
  fun_induction readFrom msg name pos stop with
  | case2 name pos stop len here plain zero =>
    obtain rfl := Option.some.inj read
    exact known
  | case6 name pos stop len here plain some bytes label noDot short ih =>
    have long := length_slice label
    have narrow := length_lt_of_and plain
    have good : Label (bytes.map lower) :=
      .of_bytes (by omega) (by omega) (fun mem => noDot (contains_iff_mem.mpr mem))
    exact ih read (known.addLabel good (by omega))
  | case9 name pos stop len here plain pointer low next back ih => exact ih read known
  | _ => exact absurd read nofun

theorem readName_wellformed {result : Name × ℕ}
    (read : readName msg pos = some result) : Wellformed result.1 :=
  readFrom_wellformed read ⟨⟨[], rfl, nofun⟩, Nat.zero_le _⟩

theorem parseName_wellformed {host : List UInt8} {name : Name}
    (parsed : parseName host = some name) :
    Wellformed name ∧ name ≠ [] := by
  unfold parseName at parsed
  generalize stripRoot host = host at parsed
  dsimp only at parsed
  split at parsed
  · exact absurd parsed nofun
  · next length =>
      simp only [List.isEmpty_iff, not_or, Nat.not_lt] at length
      split at parsed
      · next valid =>
          obtain rfl := Option.some.inj parsed
          have good : ∀ l ∈ (host.splitOn dot).map (List.map lower), Label l := by
            intro l mem
            obtain ⟨piece, piece_mem, rfl⟩ := mem_map.mp mem
            have fits := all_eq_true.mp valid piece piece_mem
            simp only [Bool.and_eq_true, decide_eq_true_eq] at fits
            exact .of_bytes fits.1.1 fits.1.2 (not_mem_splitOn piece_mem)
          refine ⟨⟨⟨(host.splitOn dot).map (List.map lower), ?_, good⟩, ?_⟩, ?_⟩
          · rw [joined_eq good]
            have parts : [dot].intercalate (host.splitOn dot) = host :=
              intercalate_splitOn dot
            conv_lhs => rw [← parts]
            cases host.splitOn dot with
            | nil => rfl
            | cons first rest =>
              rw [intercalate_cons, map_cons, intercalate_cons, map_append,
                map_flatMap, flatMap_map]
              congr 2
          · rw [length_map]
            exact length.2
          · simpa using length.1
      · exact absurd parsed nofun

theorem and_of_short : ∀ n < 64, n &&& 0xc0 = 0 := by decide +kernel

theorem putLabel_len (good : Label label) :
    (UInt8.ofNat label.length).toNat = label.length := by
  have short := good.short
  unfold maxLabel at short
  rw [UInt8.toNat_ofNat']
  omega

theorem readFrom_of_label {bytes : List UInt8} {name : Name} (stop : Option ℕ)
    {len : UInt8} (here : msg[pos]? = some len) (plain : len.toNat &&& 0xc0 = 0)
    (filled : len.toNat ≠ 0) (label : slice msg (pos + 1) (pos + 1 + len.toNat) = some bytes)
    (noDot : dot ∉ bytes) (short : (addLabel name (bytes.map lower)).length ≤ maxName) :
    readFrom msg name pos stop =
      readFrom msg (addLabel name (bytes.map lower)) (pos + 1 + len.toNat) stop := by
  rw [readFrom, here]
  dsimp only
  rw [if_pos plain, if_neg filled]
  split
  · next none =>
      rw [label] at none
      exact absurd none nofun
  · next found some =>
      rw [label] at some
      obtain rfl := Option.some.inj some
      rw [if_neg (by simpa using noDot), if_neg (by omega)]

theorem readFrom_of_end {name : Name} {stop : Option ℕ}
    (here : msg[pos]? = some 0) :
    readFrom msg name pos stop = some (name, stop.getD (pos + 1)) := by
  rw [readFrom, here]
  rfl

theorem readFrom_putLabel (good : Label label) (before after : List UInt8)
    (name : Name) (short : (addLabel name label).length ≤ maxName) :
    readFrom (before ++ (putLabel label ++ after)) name before.length none =
      readFrom (before ++ (putLabel label ++ after)) (addLabel name label)
        (before.length + (putLabel label).length) none := by
  have len := putLabel_len good
  have filled := good.filled
  have narrow := good.short
  have here : (before ++ (putLabel label ++ after))[before.length]? =
      some (UInt8.ofNat label.length) := by
    simp [putLabel]
  have bytes : slice (before ++ (putLabel label ++ after)) (before.length + 1)
      (before.length + 1 + label.length) = some label := by
    unfold slice
    rw [if_pos (by simp [putLabel]; omega)]
    have past : before.drop (before.length + 1) = [] := drop_of_length_le (by omega)
    simp [putLabel, drop_append, past]
  rw [← good.lowered] at short
  have read := readFrom_of_label none here (by rw [len]; exact and_of_short _ (by
    unfold maxLabel at narrow
    omega)) (by omega) (by rw [len]; exact bytes) good.noDot short
  rw [read, good.lowered, len, putLabel, length_cons]
  congr 1
  omega

theorem readFrom_putLabels (labels : List (List UInt8)) (good : ∀ l ∈ labels, Label l)
    (before after : List UInt8) (name : Name)
    (short : (labels.foldl addLabel name).length ≤ maxName) :
    readFrom (before ++ (labels.flatMap putLabel ++ 0 :: after)) name before.length none =
      some (labels.foldl addLabel name, before.length + (labels.flatMap putLabel).length + 1) := by
  induction labels generalizing before name with
  | nil =>
    rw [readFrom_of_end (by simp)]
    rfl
  | cons label labels ih =>
    have first := length_le_foldl (addLabel name label) labels
    rw [foldl_cons] at short
    have head := readFrom_putLabel (good label mem_cons_self) before
      (labels.flatMap putLabel ++ 0 :: after) name (by omega)
    have tail := ih (fun l mem => good l (mem_cons_of_mem _ mem)) (before ++ putLabel label)
      (addLabel name label) short
    rw [append_assoc, length_append] at tail
    rw [flatMap_cons, append_assoc, head, tail, foldl_cons, length_append]
    congr 2
    omega

theorem Wellformed.readName_putName {name : Name} (known : Wellformed name) (some : name ≠ [])
    (before after : List UInt8) :
    readName (before ++ putName name ++ after) before.length =
      Option.some (name, before.length + (putName name).length) := by
  obtain ⟨labels, same, good⟩ := known.labels
  have labelled : labels ≠ [] := by
    rintro rfl
    exact some same
  have pieces : name.splitOn dot = labels := by rw [same, splitOn_joined good labelled]
  have short := known.short
  rw [same] at short
  have read := readFrom_putLabels labels good before after [] short
  unfold readName putName
  rw [pieces, append_assoc, append_assoc, singleton_append, read, length_append]
  congr 2
  exact same.symm

theorem readName_putName_root (before after : List UInt8) :
    readName (before ++ putName [] ++ after) before.length = some ([], before.length + 1) := by
  unfold readName
  rw [readFrom_of_end (by simp [putName, putLabel])]
  rfl

/-- The names that a resolver knows: those it was given and those it read. -/
inductive Known : Name → Prop
  | parsed (host : List UInt8) {name : Name} (accepted : parseName host = some name) : Known name
  | returned (msg : List UInt8) (pos : ℕ) {name : Name} {next : ℕ}
      (read : readName msg pos = some (name, next)) : Known name

theorem Known.wellformed {name : Name} (known : Known name) : Wellformed name := by
  cases known with
  | parsed host accepted => exact (parseName_wellformed accepted).1
  | returned msg pos read => exact readName_wellformed read

/-- What is written for the name is read back as the name, and nothing is left of it. -/
def RoundTrips (name : Name) : Prop :=
  ∀ before after, readName (before ++ putName name ++ after) before.length =
    some (name, before.length + (putName name).length)

/-- The question of a query is the name, an address type and the class, and it ends there. -/
def AsksFor (id : UInt16) (name : Name) : Prop :=
  ∃ next, readName (query id name) header = some (name, next) ∧
    slice (query id name) next (next + 4) = some (be16 typeA ++ be16 classIn) ∧
    next + 4 = (query id name).length

theorem Known.roundTrips_iff {name : Name} (known : Known name) : RoundTrips name ↔ name ≠ [] := by
  constructor
  · rintro trips rfl
    have read := trips [] []
    rw [readName_putName_root] at read
    exact absurd read (by decide)
  · intro some before after
    exact known.wellformed.readName_putName some before after

theorem query_eq (id : UInt16) (name : Name) :
    ∃ before, before.length = header ∧
      query id name = before ++ putName name ++ (be16 typeA ++ be16 classIn) := by
  refine ⟨be16 id ++ be16 flagRd ++ be16 1 ++ List.replicate (header - 6) 0, rfl, ?_⟩
  unfold query
  rw [append_assoc _ (be16 typeA)]

theorem Known.asksFor_iff {name : Name} (known : Known name) (id : UInt16) :
    AsksFor id name ↔ name ≠ [] := by
  obtain ⟨before, length, same⟩ := query_eq id name
  constructor
  · rintro ⟨next, read, -, stop⟩ rfl
    rw [same, ← length, readName_putName_root] at read
    obtain rfl := congrArg Prod.snd (Option.some.inj read)
    rw [same] at stop
    have written : (putName []).length = 2 := by decide
    rw [length_append, length_append, written] at stop
    exact absurd stop (by simp [be16])
  · intro some
    have read := known.wellformed.readName_putName some before (be16 typeA ++ be16 classIn)
    rw [← same, length] at read
    refine ⟨_, read, ?_, ?_⟩
    · rw [same]
      unfold slice
      rw [if_pos (by simp [be16, length]; omega)]
      simp [be16, ← length]
    · rw [same]
      simp [be16, length]
      omega

/-- Names come back as they were written, and queries ask for them, but for the root's. -/
theorem names_round_trip {name : Name} (known : Known name) (id : UInt16) :
    RoundTrips name ∧ AsksFor id name ↔ name ≠ [] := by
  rw [known.roundTrips_iff, known.asksFor_iff id, and_self]

theorem names_round_trip_example :
    RoundTrips [0x61, 0x2e, 0x62] ∧ AsksFor 7 [0x61, 0x2e, 0x62] ↔
      [0x61, 0x2e, 0x62] ≠ ([] : Name) :=
  names_round_trip (.parsed [0x41, 0x2e, 0x42, 0x2e] (by decide)) 7

/-- The target of an alias may be the root, and no query asks for that. -/
theorem root_not_asked :
    readName [0x00] 0 = some ([], 1) ∧
      readName (query 7 []) header ≠ some ([], header + (putName []).length) ∧ ¬AsksFor 7 [] := by
  have read : readName [0x00] 0 = some ([], 1) := readFrom_of_end rfl
  have known : Known [] := .returned _ _ read
  refine ⟨read, ?_, fun asks => (known.asksFor_iff 7).mp asks rfl⟩
  obtain ⟨before, length, same⟩ := query_eq 7 []
  rw [same, ← length, readName_putName_root]
  intro eq
  have ends := congrArg Prod.snd (Option.some.inj eq)
  rw [length] at ends
  exact absurd ends (by decide)

end EspDevkit.Net.Dns
