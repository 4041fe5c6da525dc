import EspDevkit.Library.ByteOrder
import EspDevkit.Library.Fallible
import EspDevkit.Net.Segment

/-!
# DHCP messages

A message is a part of fixed size and options, each with its code and its length.  What
is decoded is read at given places of the datagram; a place outside of it is a fault.
-/

namespace EspDevkit.Net.Dhcp

/-- The options section of a message starts after the fixed part and the magic. -/
def fixed : ℕ := 236

def magic : List UInt8 := [99, 130, 83, 99]

def optPad : UInt8 := 0
def optSubnet : UInt8 := 1
def optRouter : UInt8 := 3
def optDns : UInt8 := 6
def optHostname : UInt8 := 12
def optRequested : UInt8 := 50
def optLease : UInt8 := 51
def optType : UInt8 := 53
def optServer : UInt8 := 54
def optParams : UInt8 := 55
def optMaxSize : UInt8 := 57
def optT1 : UInt8 := 58
def optT2 : UInt8 := 59
def optClientId : UInt8 := 61
def optEnd : UInt8 := 255

def maxDns : ℕ := 3

abbrev Mac := Vector UInt8 6

structure Message where
  op : UInt8 := 0
  xid : UInt32 := 0
  secs : UInt16 := 0
  flags : UInt16 := 0
  ciaddr : Ipv4Addr := 0
  yiaddr : Ipv4Addr := 0
  chaddr : Mac := Vector.replicate 6 0
  kind : UInt8 := 0
  server : Option Ipv4Addr := none
  requested : Option Ipv4Addr := none
  subnet : Option Ipv4Addr := none
  router : Option Ipv4Addr := none
  dns : List Ipv4Addr := []
  lease : Option UInt32 := none
  t1 : Option UInt32 := none
  t2 : Option UInt32 := none
  hostname : List UInt8 := []
  maxSize : Option UInt16 := none
  deriving DecidableEq

def toBe (count value : ℕ) : List UInt8 := (LittleEndian.toBytes count value).reverse

def ofBe (bytes : List UInt8) : ℕ := LittleEndian.ofBytes bytes.reverse

@[simp]
theorem length_toBe (count value : ℕ) : (toBe count value).length = count := by
  simp [toBe]

theorem ofBe_toBe {count value : ℕ} (fits : value < 256 ^ count) :
    ofBe (toBe count value) = value := by
  unfold ofBe toBe
  rw [List.reverse_reverse, LittleEndian.ofBytes_toBytes_of_lt fits]

/-- `Ipv4Addr::octets`. -/
def octets (a : Ipv4Addr) : List UInt8 := toBe 4 a.toNat

@[simp]
theorem length_octets (a : Ipv4Addr) : (octets a).length = 4 := length_toBe 4 _

/-- The closure `addr` of `encode`. -/
def putAddr (code : UInt8) (a : Option Ipv4Addr) : List UInt8 :=
  match a with
  | some a => [code, 4] ++ octets a
  | none => []

def putDns (dns : List Ipv4Addr) : List UInt8 :=
  if dns.isEmpty then [] else [optDns, UInt8.ofNat (dns.length * 4)] ++ dns.flatMap octets

def putSecs (code : UInt8) (value : Option UInt32) : List UInt8 :=
  match value with
  | some v => [code, 4] ++ toBe 4 v.toNat
  | none => []

def putHostname (hostname : List UInt8) : List UInt8 :=
  if hostname.isEmpty then []
  else
    let name := hostname.take (min hostname.length 255)
    [optHostname, UInt8.ofNat name.length] ++ name

def putMaxSize (maxSize : Option UInt16) : List UInt8 :=
  match maxSize with
  | some size => [optMaxSize, 2] ++ toBe 2 size.toNat
  | none => []

def putClient (m : Message) : List UInt8 :=
  if m.op = 1 then
    [optParams, 4, optSubnet, optRouter, optDns, optLease] ++ [optClientId, 7, 1] ++ m.chaddr.toList
  else []

def putOptions (m : Message) : List UInt8 :=
  [optType, 1, m.kind] ++ (putAddr optServer m.server ++ (putAddr optRequested m.requested ++
    (putAddr optSubnet m.subnet ++ (putAddr optRouter m.router ++ (putDns m.dns ++
      (putSecs optLease m.lease ++ (putSecs optT1 m.t1 ++ (putSecs optT2 m.t2 ++
        (putClient m ++ (putHostname m.hostname ++ (putMaxSize m.maxSize ++ [optEnd])))))))))))

def putFixed (m : Message) : List UInt8 :=
  [m.op, 1, 6, 0] ++ toBe 4 m.xid.toNat ++ toBe 2 m.secs.toNat ++ toBe 2 m.flags.toNat ++
    octets m.ciaddr ++ octets m.yiaddr ++ List.replicate 8 0 ++ m.chaddr.toList ++
    List.replicate 202 0

def encode (m : Message) : List UInt8 := putFixed m ++ magic ++ putOptions m

/-- What may fail in `decode`: it returns nothing, or it faults. -/
abbrev Decoded := Except (Stop Unit)

def rejected {α : Type} : Decoded α := .error (.error ())

def byteAt (p : List UInt8) (i : ℕ) : Decoded UInt8 :=
  match p[i]? with
  | some b => .ok b
  | none => .error .fault

/-- `p[start..stop]`. -/
def range (p : List UInt8) (start stop : ℕ) : Decoded (List UInt8) :=
  if start ≤ stop ∧ stop ≤ p.length then .ok ((p.drop start).take (stop - start))
  else .error .fault

def be16At (p : List UInt8) (i : ℕ) : Decoded UInt16 := do
  let bytes ← range p i (i + 2)
  return UInt16.ofNat (ofBe bytes)

def addrAt (p : List UInt8) (i : ℕ) : Decoded Ipv4Addr := do
  let bytes ← range p i (i + 4)
  return BitVec.ofNat 32 (ofBe bytes)

/-- The closure `addr` of `decode`. -/
def addr (value : List UInt8) : Decoded (Option Ipv4Addr) :=
  if 4 ≤ value.length then do
    let a ← addrAt value 0
    return some a
  else return none

/-- The closure `secs`. -/
def secs (value : List UInt8) : Option UInt32 :=
  if value.length = 4 then some (UInt32.ofNat (ofBe value)) else none

/-- `value.chunks_exact(4).take(left)`, each an address. -/
def addrs : ℕ → List UInt8 → Decoded (List Ipv4Addr)
  | 0, _ => return []
  | left + 1, value =>
    if 4 ≤ value.length then do
      let first ← range value 0 4
      let a ← addrAt first 0
      let more ← addrs left (value.drop 4)
      return a :: more
    else return []

def setOption (m : Message) (code : UInt8) (value : List UInt8) : Decoded Message :=
  if code = optType then
    match value.head? with
    | some kind => return { m with kind := kind }
    | none => rejected
  else if code = optServer then do
    let a ← addr value
    return { m with server := a }
  else if code = optRequested then do
    let a ← addr value
    return { m with requested := a }
  else if code = optSubnet then do
    let a ← addr value
    return { m with subnet := a }
  else if code = optRouter then do
    let a ← addr value
    return { m with router := a }
  else if code = optDns then do
    let dns ← addrs maxDns value
    return { m with dns := dns }
  else if code = optLease then return { m with lease := secs value }
  else if code = optT1 then return { m with t1 := secs value }
  else if code = optT2 then return { m with t2 := secs value }
  else if code = optHostname then return { m with hostname := value }
  else if code = optMaxSize ∧ value.length = 2 then do
    let size ← be16At value 0
    return { m with maxSize := some size }
  else return m

def walk (m : Message) : List UInt8 → Decoded Message
  | [] => return m
  | code :: rest =>
    if code = optPad then walk m rest
    else if code = optEnd then return m
    else
      match rest with
      | [] => rejected
      | len :: rest =>
        if rest.length < len.toNat then rejected
        else
          match setOption m code (rest.take len.toNat) with
          | .error e => .error e
          | .ok m =>
            if len.toNat ≤ rest.length then walk m (rest.drop len.toNat) else .error .fault
termination_by opts => opts.length
decreasing_by
  · exact Nat.lt_succ_self _
  · rw [List.length_drop, List.length_cons, List.length_cons]
    exact Nat.lt_succ_of_lt (Nat.lt_succ_of_le (Nat.sub_le _ _))

def decode (p : List UInt8) : Decoded Message := do
  if p.length < fixed + magic.length then rejected
  else if (← byteAt p 1) ≠ 1 then rejected
  else if (← byteAt p 2) ≠ 6 then rejected
  else if (← range p fixed (fixed + 4)) ≠ magic then rejected
  else
    let op ← byteAt p 0
    let xid ← range p 4 8
    let secs ← be16At p 8
    let flags ← be16At p 10
    let ciaddr ← addrAt p 12
    let yiaddr ← addrAt p 16
    let chaddr ← range p 28 34
    let m : Message := {
      op := op, xid := UInt32.ofNat (ofBe xid), secs := secs, flags := flags, ciaddr := ciaddr,
      yiaddr := yiaddr, chaddr := Vector.ofFn fun i => chaddr.getD i 0 }
    let opts ← range p (fixed + 4) p.length
    let m ← walk m opts
    if m.kind ≠ 0 then return m else rejected

def NoFault {α : Type} (x : Decoded α) : Prop := x ≠ .error .fault

section NoFault

variable {α β : Type} {x : Decoded α} {next : α → Decoded β}

theorem noFault_ok {a : α} : NoFault (.ok a : Decoded α) := nofun

theorem noFault_pure {a : α} : NoFault (pure a : Decoded α) := nofun

theorem noFault_rejected : NoFault (rejected : Decoded α) := nofun

theorem NoFault.bind (first : NoFault x) (rest : ∀ a, x = .ok a → NoFault (next a)) :
    NoFault (x >>= next) := by
  cases x with
  | ok a => exact rest a rfl
  | error e =>
    intro fault
    apply first
    cases e with
    | error e => exact absurd fault nofun
    | fault => rfl

theorem NoFault.ite {c : Prop} [Decidable c] {y : Decoded α} (yes : c → NoFault x)
    (no : NoFault y) : NoFault (if c then x else y) := by
  split
  · next holds => exact yes holds
  · exact no

end NoFault

variable {i : ℕ} {p : List UInt8}

theorem byteAt_noFault (within : i < p.length) : NoFault (byteAt p i) := by
  unfold byteAt
  rw [List.getElem?_eq_getElem within]
  exact noFault_ok

theorem range_eq {start stop : ℕ} (ordered : start ≤ stop)
    (within : stop ≤ p.length) : range p start stop = .ok ((p.drop start).take (stop - start)) :=
  if_pos ⟨ordered, within⟩

theorem range_noFault {start stop : ℕ} (ordered : start ≤ stop)
    (within : stop ≤ p.length) : NoFault (range p start stop) := by
  rw [range_eq ordered within]
  exact noFault_ok

theorem length_of_range {bytes : List UInt8} {start stop : ℕ}
    (here : range p start stop = .ok bytes) : bytes.length = stop - start := by
  unfold range at here
  split at here
  · next within =>
      obtain rfl := Except.ok.inj here
      rw [List.length_take, List.length_drop]
      omega
  · exact absurd here nofun

theorem be16At_noFault (within : i + 2 ≤ p.length) :
    NoFault (be16At p i) :=
  (range_noFault (by omega) within).bind fun _ _ => noFault_pure

theorem addrAt_noFault (within : i + 4 ≤ p.length) :
    NoFault (addrAt p i) :=
  (range_noFault (by omega) within).bind fun _ _ => noFault_pure

theorem addr_noFault (value : List UInt8) : NoFault (addr value) := by
  unfold addr
  split
  · next long => exact (addrAt_noFault (by omega)).bind fun _ _ => noFault_pure
  · exact noFault_pure

theorem addrs_noFault (left : ℕ) (value : List UInt8) : NoFault (addrs left value) := by
  induction left generalizing value with
  | zero => exact noFault_pure
  | succ left ih =>
    unfold addrs
    split
    · next long =>
        refine (range_noFault (by omega) long).bind fun first taken => ?_
        have four := length_of_range taken
        refine (addrAt_noFault (by omega)).bind fun _ _ => ?_
        exact (ih (value.drop 4)).bind fun _ _ => noFault_pure
    · exact noFault_pure

theorem setOption_noFault (m : Message) (code : UInt8) (value : List UInt8) :
    NoFault (setOption m code value) := by
  have address : ∀ set : Option Ipv4Addr → Message,
      NoFault (addr value >>= fun a => (return set a : Decoded Message)) :=
    fun set => (addr_noFault value).bind fun _ _ => noFault_pure
  unfold setOption
  refine .ite (fun _ => ?_) ?_
  · split
    · exact noFault_pure
    · exact noFault_rejected
  refine .ite (fun _ => address _) (.ite (fun _ => address _) (.ite (fun _ => address _)
    (.ite (fun _ => address _) ?_)))
  refine .ite (fun _ => (addrs_noFault maxDns value).bind fun _ _ => noFault_pure) ?_
  refine .ite (fun _ => noFault_pure) (.ite (fun _ => noFault_pure) (.ite (fun _ => noFault_pure)
    (.ite (fun _ => noFault_pure) ?_)))
  refine .ite (fun two => ?_) noFault_pure
  exact (be16At_noFault (by omega)).bind fun _ _ => noFault_pure

theorem walk_noFault (m : Message) (opts : List UInt8) : NoFault (walk m opts) := by
  fun_induction walk m opts with
  | case1 m => exact noFault_pure
  | case2 m rest ih => exact ih
  | case3 m rest => exact noFault_pure
  | case4 => exact noFault_rejected
  | case5 => exact noFault_rejected
  | case6 m code notPad notEnd len rest long e set =>
    have safe := setOption_noFault m code (rest.take len.toNat)
    rw [set] at safe
    intro fault
    exact safe (by rw [Except.error.inj fault])
  | case7 m code notPad notEnd len rest long m' set within ih => exact ih
  | case8 m code notPad notEnd len rest long m' set outside => exact absurd outside (by omega)

theorem decode_noFault (p : List UInt8) : NoFault (decode p) := by
  unfold decode
  split
  · exact noFault_rejected
  · next long =>
      have length : fixed + 4 ≤ p.length := by
        have : magic.length = 4 := rfl
        omega
      unfold fixed at length ⊢
      refine (byteAt_noFault (by omega)).bind fun hardware _ => ?_
      split
      · exact noFault_rejected
      refine (byteAt_noFault (by omega)).bind fun addressLength _ => ?_
      split
      · exact noFault_rejected
      refine (range_noFault (by omega) length).bind fun cookie _ => ?_
      split
      · exact noFault_rejected
      refine (byteAt_noFault (by omega)).bind fun op _ => ?_
      refine (range_noFault (by omega) (by omega)).bind fun xid _ => ?_
      refine (be16At_noFault (by omega)).bind fun secs _ => ?_
      refine (be16At_noFault (by omega)).bind fun flags _ => ?_
      refine (addrAt_noFault (by omega)).bind fun ciaddr _ => ?_
      refine (addrAt_noFault (by omega)).bind fun yiaddr _ => ?_
      refine (range_noFault (by omega) (by omega)).bind fun chaddr _ => ?_
      refine (range_noFault (by omega) (Nat.le_refl _)).bind fun opts _ => ?_
      refine (walk_noFault _ opts).bind fun m _ => ?_
      split
      · exact noFault_pure
      · exact noFault_rejected

theorem range_append (before bytes after : List UInt8) {start stop : ℕ}
    (starts : start = before.length) (stops : stop = before.length + bytes.length) :
    range (before ++ (bytes ++ after)) start stop = .ok bytes := by
  subst starts stops
  rw [range_eq (by omega) (by simp)]
  simp

theorem range_self {bytes : List UInt8} {stop : ℕ} (length : bytes.length = stop) :
    range bytes 0 stop = .ok bytes := by
  have whole := range_append [] bytes [] rfl (Nat.zero_add _).symm
  rwa [List.append_nil, List.nil_append, length] at whole

theorem walk_option {m m' : Message} {code : UInt8} {value : List UInt8} (some : code ≠ optPad)
    (goes : code ≠ optEnd) (short : value.length < 256) (set : setOption m code value = .ok m')
    (rest : List UInt8) :
    walk m (code :: UInt8.ofNat value.length :: (value ++ rest)) = walk m' rest := by
  have len : (UInt8.ofNat value.length).toNat = value.length := by
    rw [UInt8.toNat_ofNat']
    omega
  rw [walk, if_neg some, if_neg goes]
  rw [len, if_neg (by simp), List.take_left' rfl, set]
  change (if _ then _ else _) = _
  rw [if_pos (by simp), List.drop_left' rfl]

theorem addrAt_octets (a : Ipv4Addr) : addrAt (octets a) 0 = .ok a := by
  have whole : range (octets a) 0 (0 + 4) = .ok (octets a) := range_self (length_octets a)
  unfold addrAt
  rw [whole]
  change Except.ok _ = _
  unfold octets
  rw [ofBe_toBe a.isLt, BitVec.ofNat_toNat, BitVec.setWidth_eq]

theorem addr_octets (a : Ipv4Addr) : addr (octets a) = .ok (some a) := by
  unfold addr
  rw [if_pos (by simp), addrAt_octets]
  rfl

theorem secs_toBe (v : UInt32) : secs (toBe 4 v.toNat) = some v := by
  unfold secs
  rw [if_pos (length_toBe 4 _), ofBe_toBe v.toNat_lt, UInt32.ofNat_toNat]

theorem addrs_octets (dns : List Ipv4Addr) {left : ℕ} (few : dns.length ≤ left) :
    addrs left (dns.flatMap octets) = .ok dns := by
  induction dns generalizing left with
  | nil => cases left <;> rfl
  | cons a dns ih =>
    cases left with
    | zero => exact absurd few (by simp)
    | succ left =>
      have first : range (octets a ++ dns.flatMap octets) 0 4 = .ok (octets a) :=
        range_append [] (octets a) _ rfl (by simp)
      have rest := @ih left (by simpa using few)
      rw [List.flatMap_cons]
      unfold addrs
      rw [if_pos (by simp), first, List.drop_left' (length_octets a), rest]
      simp only [bind, Except.bind, addrAt_octets]
      rfl

section Options

variable {m : Message} (code : UInt8) (some : code ≠ optPad) (goes : code ≠ optEnd)
include some goes

theorem walk_putAddr (set : Option Ipv4Addr → Message) (unset : set none = m)
    (sets : ∀ value, setOption m code value = do let a ← addr value; return set a)
    (a : Option Ipv4Addr) (rest : List UInt8) :
    walk m (putAddr code a ++ rest) = walk (set a) rest := by
  cases a with
  | none =>
    rw [unset]
    rfl
  | some a =>
    have read : setOption m code (octets a) = .ok (set (Option.some a)) := by
      rw [sets, addr_octets]
      rfl
    exact walk_option some goes (by simp) read rest

theorem walk_putSecs (set : Option UInt32 → Message) (unset : set none = m)
    (sets : ∀ value, setOption m code value = .ok (set (secs value)))
    (value : Option UInt32) (rest : List UInt8) :
    walk m (putSecs code value ++ rest) = walk (set value) rest := by
  cases value with
  | none =>
    rw [unset]
    rfl
  | some v =>
    have read : setOption m code (toBe 4 v.toNat) = .ok (set (Option.some v)) := by
      rw [sets, secs_toBe]
    exact walk_option some goes (by simp) read rest

end Options

theorem walk_putDns {m : Message} (unset : m.dns = []) {dns : List Ipv4Addr}
    (few : dns.length ≤ maxDns) (rest : List UInt8) :
    walk m (putDns dns ++ rest) = walk { m with dns := dns } rest := by
  have length : (dns.flatMap octets).length = dns.length * 4 := by
    rw [List.length_flatMap]
    simp [Nat.mul_comm]
  unfold putDns
  cases dns with
  | nil =>
    have same : { m with dns := [] } = m := by rw [← unset]
    rw [same]
    rfl
  | cons a dns =>
    have read : setOption m optDns ((a :: dns).flatMap octets) =
        .ok { m with dns := a :: dns } := by
      change (addrs maxDns ((a :: dns).flatMap octets) >>= _) = _
      rw [addrs_octets _ few]
      rfl
    have short : ((a :: dns).flatMap octets).length < 256 := by
      unfold maxDns at few
      omega
    have walked := walk_option (by decide) (by decide) short read rest
    rw [length] at walked
    exact walked

theorem walk_putClient {m : Message} (of : Message) (rest : List UInt8) :
    walk m (putClient of ++ rest) = walk m rest := by
  unfold putClient
  split
  · have asked : setOption m optParams [optSubnet, optRouter, optDns, optLease] = .ok m := rfl
    have named : setOption m optClientId (1 :: of.chaddr.toList) = .ok m := rfl
    have length : (1 :: of.chaddr.toList).length = 7 := by simp
    have second := walk_option (by decide) (by decide) (by simp) named rest
    have first := walk_option (by decide) (by decide) (by decide) asked
      (optClientId :: 7 :: ((1 :: of.chaddr.toList) ++ rest))
    rw [length] at second
    rw [List.append_assoc]
    exact first.trans second
  · rfl

theorem walk_putHostname {m : Message} (unset : m.hostname = []) {hostname : List UInt8}
    (short : hostname.length ≤ 255) (rest : List UInt8) :
    walk m (putHostname hostname ++ rest) = walk { m with hostname := hostname } rest := by
  unfold putHostname
  cases hostname with
  | nil =>
    have same : { m with hostname := [] } = m := by rw [← unset]
    rw [same]
    rfl
  | cons b hostname =>
    have whole : (b :: hostname).take (min (b :: hostname).length 255) = b :: hostname := by
      rw [Nat.min_eq_left short, List.take_length]
    dsimp only [List.isEmpty_cons, Bool.false_eq_true, if_false]
    rw [whole]
    exact walk_option (by decide) (by decide) (Nat.lt_succ_of_le short) rfl rest

theorem walk_putMaxSize {m : Message} (unset : m.maxSize = none) (size : Option UInt16)
    (rest : List UInt8) :
    walk m (putMaxSize size ++ rest) = walk { m with maxSize := size } rest := by
  cases size with
  | none =>
    have same : { m with maxSize := none } = m := by rw [← unset]
    rw [same]
    rfl
  | some v =>
    have whole : range (toBe 2 v.toNat) 0 (0 + 2) = .ok (toBe 2 v.toNat) :=
      range_self (length_toBe 2 _)
    have read : setOption m optMaxSize (toBe 2 v.toNat) = .ok { m with maxSize := some v } := by
      change (be16At (toBe 2 v.toNat) 0 >>= _) = _
      unfold be16At
      rw [whole]
      simp only [bind, Except.bind, pure, Except.pure]
      rw [ofBe_toBe v.toNat_lt, UInt16.ofNat_toNat]
    exact walk_option (by decide) (by decide) (by simp) read rest

/-- What `decode` has read when it comes to the options. -/
def Message.head (m : Message) : Message :=
  { op := m.op, xid := m.xid, secs := m.secs, flags := m.flags, ciaddr := m.ciaddr,
    yiaddr := m.yiaddr, chaddr := m.chaddr }

theorem walk_putOptions (m : Message) (few : m.dns.length ≤ maxDns)
    (short : m.hostname.length ≤ 255) : walk m.head (putOptions m) = .ok m := by
  unfold putOptions
  have kind : setOption m.head optType [m.kind] = .ok { m.head with kind := m.kind } := rfl
  have server := walk_putAddr optServer (by decide) (by decide)
    (fun a => { m.head with kind := m.kind, server := a }) rfl (fun _ => rfl) m.server
  have requested := walk_putAddr optRequested (by decide) (by decide)
    (fun a => { m.head with kind := m.kind, server := m.server, requested := a }) rfl (fun _ => rfl)
    m.requested
  have subnet := walk_putAddr optSubnet (by decide) (by decide)
    (fun a => { m.head with
      kind := m.kind, server := m.server, requested := m.requested, subnet := a })
    rfl (fun _ => rfl) m.subnet
  have router := walk_putAddr optRouter (by decide) (by decide)
    (fun a => { m.head with
      kind := m.kind, server := m.server, requested := m.requested, subnet := m.subnet,
      router := a }) rfl (fun _ => rfl) m.router
  refine (walk_option (by decide) (by decide) (by simp) kind _).trans ?_
  refine (server _).trans ((requested _).trans ((subnet _).trans ((router _).trans ?_)))
  rw [walk_putDns rfl few]
  have lease := walk_putSecs optLease (by decide) (by decide)
    (fun v => { m.head with
      kind := m.kind, server := m.server, requested := m.requested, subnet := m.subnet,
      router := m.router, dns := m.dns, lease := v }) rfl (fun _ => rfl) m.lease
  have t1 := walk_putSecs optT1 (by decide) (by decide)
    (fun v => { m.head with
      kind := m.kind, server := m.server, requested := m.requested, subnet := m.subnet,
      router := m.router, dns := m.dns, lease := m.lease, t1 := v }) rfl (fun _ => rfl) m.t1
  have t2 := walk_putSecs optT2 (by decide) (by decide)
    (fun v => { m.head with
      kind := m.kind, server := m.server, requested := m.requested, subnet := m.subnet,
      router := m.router, dns := m.dns, lease := m.lease, t1 := m.t1, t2 := v }) rfl (fun _ => rfl)
    m.t2
  refine (lease _).trans ((t1 _).trans ((t2 _).trans ?_))
  rw [walk_putClient, walk_putHostname rfl short, walk_putMaxSize rfl]
  rw [walk, if_neg (by decide), if_pos rfl]
  rfl

theorem length_putFixed (m : Message) : (putFixed m).length = fixed := by
  simp only [putFixed, List.length_append, List.length_cons, List.length_nil, length_toBe,
    length_octets, List.length_replicate, Vector.length_toList]
  rfl

theorem range_encode {m : Message} (before bytes after : List UInt8) {start stop : ℕ}
    (parts : putFixed m = before ++ (bytes ++ after)) (starts : start = before.length)
    (stops : stop = before.length + bytes.length) : range (encode m) start stop = .ok bytes := by
  unfold encode
  rw [parts, List.append_assoc, List.append_assoc, List.append_assoc]
  exact range_append before bytes _ starts stops

theorem be16At_of_range {v : UInt16}
    (here : range p i (i + 2) = .ok (toBe 2 v.toNat)) : be16At p i = .ok v := by
  unfold be16At
  rw [here]
  change Except.ok _ = _
  rw [ofBe_toBe v.toNat_lt, UInt16.ofNat_toNat]

theorem addrAt_of_range {a : Ipv4Addr}
    (here : range p i (i + 4) = .ok (octets a)) : addrAt p i = .ok a := by
  unfold addrAt
  rw [here]
  change Except.ok _ = _
  unfold octets
  rw [ofBe_toBe a.isLt, BitVec.ofNat_toNat, BitVec.setWidth_eq]

theorem decode_encode {m : Message} (kind : m.kind ≠ 0) (few : m.dns.length ≤ maxDns)
    (short : m.hostname.length ≤ 255) : decode (encode m) = .ok m := by
  have length : fixed + magic.length ≤ (encode m).length := by
    simp [encode, length_putFixed]
  have hardware : byteAt (encode m) 1 = .ok 1 := rfl
  have addressLength : byteAt (encode m) 2 = .ok 6 := rfl
  have op : byteAt (encode m) 0 = .ok m.op := rfl
  have cookie : range (encode m) fixed (fixed + 4) = .ok magic := by
    unfold encode
    rw [List.append_assoc]
    exact range_append (putFixed m) magic _ (length_putFixed m).symm (by rw [length_putFixed]; rfl)
  have xid : range (encode m) 4 8 = .ok (toBe 4 m.xid.toNat) :=
    range_encode [m.op, 1, 6, 0] _ _ (by simp only [putFixed, List.append_assoc]; rfl) rfl (by simp)
  have secs : be16At (encode m) 8 = .ok m.secs :=
    be16At_of_range (range_encode ([m.op, 1, 6, 0] ++ toBe 4 m.xid.toNat) _ _
      (by simp only [putFixed, List.append_assoc]; rfl) (by simp) (by simp))
  have flags : be16At (encode m) 10 = .ok m.flags :=
    be16At_of_range (range_encode ([m.op, 1, 6, 0] ++ toBe 4 m.xid.toNat ++ toBe 2 m.secs.toNat) _ _
      (by simp only [putFixed, List.append_assoc]; rfl) (by simp) (by simp))
  have ciaddr : addrAt (encode m) 12 = .ok m.ciaddr :=
    addrAt_of_range (range_encode ([m.op, 1, 6, 0] ++ toBe 4 m.xid.toNat ++ toBe 2 m.secs.toNat ++
      toBe 2 m.flags.toNat) _ _ (by simp only [putFixed, List.append_assoc]; rfl) (by simp)
      (by simp))
  have yiaddr : addrAt (encode m) 16 = .ok m.yiaddr :=
    addrAt_of_range (range_encode ([m.op, 1, 6, 0] ++ toBe 4 m.xid.toNat ++ toBe 2 m.secs.toNat ++
      toBe 2 m.flags.toNat ++ octets m.ciaddr) _ _ (by simp only [putFixed, List.append_assoc]; rfl)
      (by simp) (by simp))
  have chaddr : range (encode m) 28 34 = .ok m.chaddr.toList :=
    range_encode ([m.op, 1, 6, 0] ++ toBe 4 m.xid.toNat ++ toBe 2 m.secs.toNat ++
      toBe 2 m.flags.toNat ++ octets m.ciaddr ++ octets m.yiaddr ++ List.replicate 8 0) _ _
      (by simp only [putFixed, List.append_assoc]; rfl) (by simp) (by simp)
  have opts : range (encode m) (fixed + 4) (encode m).length = .ok (putOptions m) := by
    have before : fixed + 4 = (putFixed m ++ magic).length := by
      rw [List.length_append, length_putFixed]
      rfl
    have parts := range_append (putFixed m ++ magic) (putOptions m) [] before rfl
    rw [List.append_nil, ← List.length_append] at parts
    exact parts
  have own : (Vector.ofFn fun i : Fin 6 => m.chaddr.toList.getD i 0) = m.chaddr := by
    ext i within
    simp
  have walked := walk_putOptions m few short
  unfold decode
  rw [if_neg (by omega)]
  simp only [hardware, addressLength, op, cookie, xid, secs, flags, ciaddr, yiaddr, chaddr, opts,
    bind, Except.bind, ne_eq, not_true_eq_false, if_false]
  rw [ofBe_toBe m.xid.toNat_lt, UInt32.ofNat_toNat, own]
  unfold Message.head at walked
  rw [walked]
  exact if_pos kind

/-- What was encoded is decoded, and no datagram leads outside of it. -/
theorem messages_round_trip {m : Message} (kind : m.kind ≠ 0) (few : m.dns.length ≤ 3)
    (short : m.hostname.length ≤ 255) :
    decode (encode m) = .ok m ∧ ∀ p, decode p ≠ .error .fault :=
  ⟨decode_encode kind few short, decode_noFault⟩

theorem messages_round_trip_request :
    decode (encode { op := 1, kind := 3, hostname := [0x61], maxSize := some 1500 }) =
        .ok { op := 1, kind := 3, hostname := [0x61], maxSize := some 1500 } ∧
      ∀ p, decode p ≠ .error .fault :=
  messages_round_trip (by decide) (by decide) (by decide)

end EspDevkit.Net.Dhcp
