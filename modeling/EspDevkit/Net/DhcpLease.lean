import EspDevkit.Library.Transition
import EspDevkit.Net.DhcpMessage

/-!
# The lease of a DHCP client

The client configures the address of a lease, sleeps until T1 and then asks for more,
until the lease runs out.
-/

namespace EspDevkit.Net.Dhcp

open Transition

def second : ℕ := 1000000000

def minRenewRetry : ℕ := 60 * second
def rebootTries : ℕ := 2
def selectTries : ℕ := 4

def offer : UInt8 := 2
def ack : UInt8 := 5
def nak : UInt8 := 6

structure Ipv4Config where
  address : Ipv4Addr
  prefixLen : ℕ
  gateway : Option Ipv4Addr
  deriving DecidableEq

structure Lease where
  config : Ipv4Config
  dns : List Ipv4Addr
  server : Ipv4Addr
  lease : ℕ
  t1 : ℕ
  t2 : ℕ
  deriving DecidableEq

/-- `u32::leading_ones`. -/
def leadingOnes (mask : Ipv4Addr) : ℕ := (~~~mask).clz.toNat

def Lease.fromAck (ack : Message) : Option Lease :=
  if ack.yiaddr = 0 then none
  else
    let prefixLen := ack.subnet.elim 24 leadingOnes
    match ack.lease with
    | none => none
    | some lease =>
      match ack.server with
      | none => none
      | some server =>
        some {
          config := { address := ack.yiaddr, prefixLen := prefixLen, gateway := ack.router }
          dns := ack.dns
          server := server
          lease := lease.toNat * second
          t1 := ack.t1.elim (lease.toNat / 2) UInt32.toNat * second
          t2 := ack.t2.elim (lease.toNat * 7 / 8) UInt32.toNat * second }

/-- `Client::accepted`: an ACK for the address. -/
def accepted (m : Message) (address : Ipv4Addr) : Option Lease :=
  if m.kind = ack ∧ m.yiaddr = address then Lease.fromAck m else none

/-- What `Client::reply` takes. -/
def answers (mac : Mac) (xid : UInt32) (kinds : List UInt8) (m : Message) : Bool :=
  decide (m.op = 2 ∧ m.xid = xid ∧ m.chaddr = mac ∧ m.kind ∈ kinds)

inductive Phase
  | rebooting (address : Ipv4Addr) (xid : UInt32) (left : ℕ)
  | discovering (xid : UInt32)
  | selecting (offered : Message) (xid : UInt32) (left : ℕ)
  | probing (lease : Lease)
  | declined
  | holding (lease : Lease) (boundAt wakeAt : ℕ)
  | extending (lease : Lease) (boundAt : ℕ) (xid : UInt32) (wakeAt : ℕ)

structure Client where
  mac : Mac
  now : ℕ
  phase : Phase
  /-- The configuration of the interface. -/
  ipv4 : Option Ipv4Config
  dhcpLast : Option Ipv4Addr

namespace Client

def discover (c : Client) (random : UInt32) : Client := { c with phase := .discovering random }

/-- The start of the outer loop of `run`. -/
def restart (c : Client) (random : UInt32) : Client :=
  match c.dhcpLast with
  | some address => { c with phase := .rebooting address random (rebootTries - 1) }
  | none => c.discover random

def apply (c : Client) (lease : Option Lease) : Client :=
  { c with ipv4 := lease.map (·.config), dhcpLast := lease.map (·.config.address) }

/-- A round of the inner loop of `run` begins. -/
def bind (c : Client) (lease : Lease) : Client :=
  { c.apply (some lease) with phase := .holding lease c.now (c.now + lease.t1) }

/-- The inner loop of `run` ends. -/
def lapse (c : Client) (random : UInt32) : Client := (c.apply none).restart random

/-- A round of the loop in `extend`. -/
def extend (c : Client) (lease : Lease) (boundAt : ℕ) (random : UInt32) : Client :=
  let elapsed := c.now - boundAt
  if lease.lease ≤ elapsed then c.lapse random
  else
    let rebinding := decide (lease.t2 ≤ elapsed)
    let until' := (if rebinding then lease.lease else lease.t2) - elapsed
    let wait := min (max (until' / 2) minRenewRetry) until'
    { c with phase := .extending lease boundAt random (c.now + wait) }

def heard (c : Client) (m : Message) (random : UInt32) : Client :=
  match c.phase with
  | .rebooting address xid _ =>
    if answers c.mac xid [ack, nak] m then
      match accepted m address with
      | some lease => { c with phase := .probing lease }
      | none => c.discover random
    else c
  | .discovering xid =>
    if answers c.mac xid [offer] m then { c with phase := .selecting m random (selectTries - 1) }
    else c
  | .selecting offered xid _ =>
    if answers c.mac xid [ack, nak] m then
      match accepted m offered.yiaddr with
      | some lease => { c with phase := .probing lease }
      | none => c.discover random
    else c
  | .extending lease _ xid _ =>
    if answers c.mac xid [ack, nak] m then
      match accepted m lease.config.address with
      | some next => c.bind next
      | none => c.lapse random
    else c
  | .probing _ | .declined | .holding _ _ _ => c

/-- The client is run when its wait may be over.  Those without an address are not timed. -/
def woken (c : Client) (random : UInt32) : Client :=
  match c.phase with
  | .rebooting address xid (left + 1) => { c with phase := .rebooting address xid left }
  | .rebooting _ _ 0 => c.discover random
  | .discovering _ => c.discover random
  | .selecting offered xid (left + 1) => { c with phase := .selecting offered xid left }
  | .selecting _ _ 0 => c.discover random
  | .probing _ => c
  | .declined => c.restart random
  | .holding lease boundAt wakeAt => if c.now < wakeAt then c else c.extend lease boundAt random
  | .extending lease boundAt _ wakeAt => if c.now < wakeAt then c else c.extend lease boundAt random

/-- `Client::probe` is over. -/
def probed (c : Client) (isFree : Bool) : Client :=
  match c.phase with
  | .probing lease =>
    if isFree then c.bind lease else { c with phase := .declined, dhcpLast := none }
  | _ => c

end Client

inductive Event
  | heard (m : Message)
  | woken
  | probed (isFree : Bool)

structure Input where
  passed : ℕ
  random : UInt32
  event : Event

def Client.step (c : Client) (input : Input) : Option Client :=
  let c := { c with now := c.now + input.passed }
  match input.event with
  | .heard m => some (c.heard m input.random)
  | .woken => some (c.woken input.random)
  | .probed isFree => some (c.probed isFree)

/-- `run` begins, with the address that the interface had last. -/
def Client.started (mac : Mac) (now : ℕ) (dhcpLast : Option Ipv4Addr) (random : UInt32) : Client :=
  restart { mac := mac, now := now, phase := .declined, ipv4 := none, dhcpLast := dhcpLast } random

def Client.Initial (c : Client) : Prop :=
  ∃ mac now dhcpLast random, c = started mac now dhcpLast random

/-- The address is configured in a wait for the end of its lease, or an earlier one. -/
def Client.Timely (c : Client) : Prop :=
  match c.phase with
  | .holding lease boundAt wakeAt | .extending lease boundAt _ wakeAt =>
    wakeAt ≤ boundAt + lease.lease
  | _ => c.ipv4 = none

/-- T1 comes no later than the end of the lease; nor does T2, or T1 is that end. -/
def Lease.Bounded (lease : Lease) : Prop :=
  lease.t1 ≤ lease.lease ∧ (lease.t2 ≤ lease.lease ∨ lease.t1 = lease.lease)

/-- The times of an ACK, as far as it has them, are bounded by its lease. -/
def Message.Bounded (m : Message) : Prop :=
  ∀ lease, m.lease = some lease → m.t1.elim (lease.toNat / 2) UInt32.toNat ≤ lease.toNat ∧
    (m.t2.elim (lease.toNat * 7 / 8) UInt32.toNat ≤ lease.toNat ∨
      m.t1.elim (lease.toNat / 2) UInt32.toNat = lease.toNat)

variable {lease : Lease} {m : Message} {c : Client}

theorem Lease.fromAck_bounded (taken : Lease.fromAck m = some lease) :
    lease.Bounded ↔ m.Bounded := by
  unfold Lease.fromAck at taken
  split at taken
  · exact absurd taken nofun
  · split at taken
    · exact absurd taken nofun
    · next seconds granted =>
        split at taken
        · exact absurd taken nofun
        · obtain rfl := Option.some.inj taken
          have whole : ∀ a b : ℕ, a * second ≤ b * second ↔ a ≤ b := fun a b =>
            Nat.mul_le_mul_right_iff (by decide)
          have same : ∀ a b : ℕ, a * second = b * second ↔ a = b := fun a b =>
            Nat.mul_left_inj (by decide)
          unfold Lease.Bounded Message.Bounded
          rw [granted]
          simp only [whole, same, Option.some.injEq, forall_eq']

def Careful (_ : Client) (input : Input) : Prop :=
  match input.event with
  | .heard m => m.kind = ack → m.Bounded
  | _ => True

namespace Client

def Inv (c : Client) : Prop :=
  match c.phase with
  | .probing lease => c.ipv4 = none ∧ lease.Bounded
  | .holding lease boundAt wakeAt =>
    lease.Bounded ∧ boundAt ≤ c.now ∧ boundAt + lease.t1 = wakeAt
  | .extending lease boundAt _ wakeAt =>
    lease.Bounded ∧ boundAt ≤ c.now ∧ boundAt + lease.t1 ≤ c.now ∧ wakeAt ≤ boundAt + lease.lease
  | _ => c.ipv4 = none

theorem Inv.timely (inv : c.Inv) : c.Timely := by
  unfold Inv at inv
  unfold Timely
  cases phase : c.phase with
  | holding lease boundAt wakeAt =>
    rw [phase] at inv
    obtain ⟨bounded, -, wakes⟩ := inv
    have := bounded.1
    change wakeAt ≤ boundAt + lease.lease
    omega
  | extending lease boundAt xid wakeAt =>
    rw [phase] at inv
    exact inv.2.2.2
  | probing lease =>
    rw [phase] at inv
    exact inv.1
  | _ =>
    rw [phase] at inv
    exact inv

theorem discover_inv (none : c.ipv4 = none) (random : UInt32) :
    (c.discover random).Inv :=
  none

theorem restart_inv (none : c.ipv4 = none) (random : UInt32) :
    (c.restart random).Inv := by
  unfold restart
  split
  · exact none
  · exact discover_inv none random

theorem lapse_inv (c : Client) (random : UInt32) : (c.lapse random).Inv := restart_inv rfl random

theorem bind_inv (c : Client) (bounded : lease.Bounded) : (c.bind lease).Inv :=
  ⟨bounded, Nat.le_refl _, rfl⟩

theorem extend_inv {boundAt : ℕ} (bounded : lease.Bounded)
    (began : boundAt ≤ c.now) (late : boundAt + lease.t1 ≤ c.now) (random : UInt32) :
    (c.extend lease boundAt random).Inv := by
  unfold extend
  dsimp only
  split
  · exact lapse_inv c random
  · next left =>
      refine ⟨bounded, began, late, ?_⟩
      -- T1 is before the end, so T2 is no later than it
      have before : lease.t2 ≤ lease.lease := bounded.2.resolve_right (by omega)
      split <;> omega

theorem accepted_bounded {address : Ipv4Addr}
    (bounded : m.kind = ack → m.Bounded) (taken : accepted m address = some lease) :
    lease.Bounded := by
  unfold accepted at taken
  split at taken
  · next matching => exact (Lease.fromAck_bounded taken).mpr (bounded matching.1)
  · exact absurd taken nofun

theorem heard_inv (inv : c.Inv) (bounded : m.kind = ack → m.Bounded)
    (random : UInt32) : (c.heard m random).Inv := by
  unfold heard
  cases phase : c.phase with
  | rebooting address xid left =>
    have none : c.ipv4 = none := by simpa only [Inv, phase] using inv
    dsimp only
    split
    · split
      · next lease taken => exact ⟨none, accepted_bounded bounded taken⟩
      · exact discover_inv none random
    · exact inv
  | discovering xid =>
    have none : c.ipv4 = none := by simpa only [Inv, phase] using inv
    dsimp only
    split
    · exact none
    · exact inv
  | selecting offered xid left =>
    have none : c.ipv4 = none := by simpa only [Inv, phase] using inv
    dsimp only
    split
    · split
      · next lease taken => exact ⟨none, accepted_bounded bounded taken⟩
      · exact discover_inv none random
    · exact inv
  | extending lease boundAt xid wakeAt =>
    dsimp only
    split
    · split
      · next next taken => exact bind_inv c (accepted_bounded bounded taken)
      · exact lapse_inv c random
    · exact inv
  | _ => exact inv

theorem woken_inv (inv : c.Inv) (random : UInt32) : (c.woken random).Inv := by
  unfold woken
  cases phase : c.phase with
  | rebooting address xid left =>
    have none : c.ipv4 = none := by simpa only [Inv, phase] using inv
    cases left with
    | zero => exact discover_inv none random
    | succ left => exact none
  | discovering xid =>
    have none : c.ipv4 = none := by simpa only [Inv, phase] using inv
    exact discover_inv none random
  | selecting offered xid left =>
    have none : c.ipv4 = none := by simpa only [Inv, phase] using inv
    cases left with
    | zero => exact discover_inv none random
    | succ left => exact none
  | probing lease => exact inv
  | declined =>
    have none : c.ipv4 = none := by simpa only [Inv, phase] using inv
    exact restart_inv none random
  | holding lease boundAt wakeAt =>
    dsimp only
    split
    · exact inv
    · next elapsed =>
        have held : lease.Bounded ∧ boundAt ≤ c.now ∧ boundAt + lease.t1 = wakeAt := by
          simpa only [Inv, phase] using inv
        exact extend_inv held.1 held.2.1 (by omega) random
  | extending lease boundAt xid wakeAt =>
    dsimp only
    split
    · exact inv
    · have held : lease.Bounded ∧ boundAt ≤ c.now ∧ boundAt + lease.t1 ≤ c.now ∧
          wakeAt ≤ boundAt + lease.lease := by
        simpa only [Inv, phase] using inv
      exact extend_inv held.1 held.2.1 held.2.2.1 random

theorem probed_inv (inv : c.Inv) (isFree : Bool) : (c.probed isFree).Inv := by
  unfold probed
  cases phase : c.phase with
  | probing lease =>
    have held : c.ipv4 = none ∧ lease.Bounded := by simpa only [Inv, phase] using inv
    dsimp only
    split
    · exact bind_inv c held.2
    · exact held.1
  | _ => exact inv

theorem Inv.later (inv : c.Inv) (passed : ℕ) :
    Inv { c with now := c.now + passed } := by
  unfold Inv at *
  cases phase : c.phase with
  | holding lease boundAt wakeAt =>
    rw [phase] at inv
    exact ⟨inv.1, Nat.le_trans inv.2.1 (Nat.le_add_right _ _), inv.2.2⟩
  | extending lease boundAt xid wakeAt =>
    rw [phase] at inv
    exact ⟨inv.1, Nat.le_trans inv.2.1 (Nat.le_add_right _ _),
      Nat.le_trans inv.2.2.1 (Nat.le_add_right _ _), inv.2.2.2⟩
  | _ =>
    rw [phase] at inv
    exact inv

theorem step_inv {c' : Client} (inv : c.Inv) {input : Input} (careful : Careful c input)
    (steps : c.step input = some c') : c'.Inv := by
  unfold step at steps
  unfold Careful at careful
  have later := inv.later input.passed
  cases event : input.event with
  | heard m =>
    rw [event] at steps careful
    obtain rfl := Option.some.inj steps
    exact heard_inv later careful input.random
  | woken =>
    rw [event] at steps
    obtain rfl := Option.some.inj steps
    exact woken_inv later input.random
  | probed isFree =>
    rw [event] at steps
    obtain rfl := Option.some.inj steps
    exact probed_inv later isFree

end Client

def Silent (_ : Client) (input : Input) : Prop := input.event = .woken

theorem Silent.careful {input : Input} (silent : Silent c input) :
    Careful c input := by
  unfold Silent at silent
  unfold Careful
  rw [silent]
  trivial

/-- A renewal that begins just before the end of the lease is waited for past it, if T2 is. -/
theorem Client.extend_untimely {boundAt : ℕ}
    (late : c.now + 1 = boundAt + lease.lease) (began : boundAt ≤ c.now)
    (past : lease.lease < lease.t2)
    (random : UInt32) : ¬(c.extend lease boundAt random).Timely := by
  have retry : 2 ≤ minRenewRetry := by decide
  have going : ¬lease.lease ≤ c.now - boundAt := by omega
  have renewing : ¬lease.t2 ≤ c.now - boundAt := by omega
  intro timely
  unfold extend at timely
  dsimp only at timely
  rw [if_neg going] at timely
  simp only [Timely, renewing, decide_false, Bool.false_eq_true, if_false] at timely
  omega

def offered : Message :=
  { op := 2, xid := 1, kind := offer, yiaddr := 0x0a000002, server := some 0x0a000001 }

def granted (t1 t2 : Option UInt32) : Message :=
  { op := 2, xid := 2, kind := ack, yiaddr := 0x0a000002, server := some 0x0a000001,
    lease := some 60, t1 := t1, t2 := t2 }

def bound (t1 t2 : ℕ) : Client :=
  Client.bind { mac := Vector.replicate 6 0, now := 3, phase := .declined, ipv4 := none,
                dhcpLast := none }
    { config := { address := 0x0a000002, prefixLen := 24, gateway := none }, dns := [],
      server := 0x0a000001, lease := 60 * second, t1 := t1 * second, t2 := t2 * second }

theorem bound_reachable {allows : Client → Input → Prop} (t1 t2 : Option UInt32)
    (takes : ∀ c passed random, allows c ⟨passed, random, .heard offered⟩ ∧
      allows c ⟨passed, random, .heard (granted t1 t2)⟩ ∧ allows c ⟨passed, random, .probed true⟩) :
    Reachable Client.Initial (Allowed Client.step allows)
      (bound (t1.elim 30 UInt32.toNat) (t2.elim 52 UInt32.toNat)) := by
  have begins : Reachable Client.Initial (Allowed Client.step allows)
      (Client.started (Vector.replicate 6 0) 0 none 1) := .start ⟨_, _, _, _, rfl⟩
  have selects := begins.next ⟨⟨1, 2, .heard offered⟩, rfl, (takes _ _ _).1⟩
  have probes := selects.next ⟨⟨1, 3, .heard (granted t1 t2)⟩, rfl, (takes _ _ _).2.1⟩
  exact probes.next ⟨⟨1, 4, .probed true⟩, rfl, (takes _ _ _).2.2⟩

end EspDevkit.Net.Dhcp
