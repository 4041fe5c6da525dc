import EspDevkit.Net.Connection
import EspDevkit.Net.CounterSteps

/-!
# Runs and their counters

In every run whose inputs are paced no counter of a connection overflows.
-/

namespace EspDevkit.Net.Conn

open Transition

def paced (tcb : Tcb) (_ : Instant) (input : Input) : Prop := tcb.Paced input

instance (tcb : Tcb) (now : Instant) : ∀ input, Decidable (paced tcb now input)
  | .segment seg => inferInstanceAs (Decidable
      ((tcb.bringsData (trimSyn tcb seg) → tcb.unackedSegments < u8Max) ∧
        (tcb.opensWindow (trimSyn tcb seg) → tcb.cwnd + tcb.sndMss ≤ usizeMax)))
  | .read _ | .write _ | .shutdown | .release | .accept | .unlisten | .setNodelay _
  | .setKeepalive _ | .icmpError _ _ | .linkReady | .poll => .isTrue trivial

/-- A connection just made, with the MSS of its link in 16 bits. -/
inductive Made : Conn → Prop
  | opened (port : Port) (quiet : port.events = []) {tcb : Tcb} (fresh : Fresh tcb)
      (mss : tcb.rcvMss ≤ u16Max) (now : Instant) : Made (opened port tcb now)

theorem fresh_counted {tcb : Tcb} (fresh : Fresh tcb) (mss : tcb.rcvMss ≤ u16Max) :
    tcb.Counted := by
  cases fresh with
  | connecting localAddr remoteAddr buffers rcvMss iss =>
    exact
      { unacked := Nat.zero_le _
        retries := .inl (Nat.zero_le _)
        closed := nofun
        probes := Nat.zero_le _
        mss_pos := (by decide : 0 < defaultMss)
        mss_le := (by decide : defaultMss ≤ u16Max)
        cwnd := Nat.le_trans mss (by decide)
        ssthresh := Nat.le_refl _
        window := fun synced => absurd rfl synced
        recovery := nofun
        handshake := fun _ => rfl }
  | accepting listener localAddr remoteAddr buffers rcvMss iss syn flag =>
    have made : Tcb.Counted
        { Tcb.new localAddr remoteAddr .synSent buffers rcvMss iss with
          listener := some listener } :=
      { unacked := Nat.zero_le _
        retries := .inl (Nat.zero_le _)
        closed := nofun
        probes := Nat.zero_le _
        mss_pos := (by decide : 0 < defaultMss)
        mss_le := (by decide : defaultMss ≤ u16Max)
        cwnd := Nat.zero_le _
        ssthresh := Nat.le_refl _
        window := fun synced => absurd rfl synced
        recovery := nofun
        handshake := fun _ => rfl }
    have taken := made.onSyn rfl syn
    exact
      { taken with
        retries := .inl (Nat.zero_le _)
        closed := nofun
        window := fun _ _ => Tcb.Counted.onSyn_window _ syn
        handshake := fun _ => rfl }

theorem counted {conn : Conn} (reachable : Transition.Reachable Made (Step paced) conn) :
    conn.tcb.Counted := by
  have start : ∀ conn, Made conn → conn.tcb.Counted := by
    rintro _ ⟨port, quiet, fresh, mss, now⟩
    exact (fresh_counted fresh mss).tcpOutput port now
  have kept : ∀ before after : Conn, before.tcb.Counted → Step paced before after →
      after.tcb.Counted := by
    rintro before _ counted ⟨port, quiet, slot, now, input, alive, possible, paced⟩
    exact counted.step port slot now input possible paced
  exact reachable.invariant start kept

def follow (allowed : Tcb → Instant → Input → Prop)
    [∀ tcb now input, Decidable (allowed tcb now input)] (conn : Conn) :
    List (Port × Instant × Input) → Option Conn
  | [] => some conn
  | (port, now, input) :: steps =>
    if port.events.isEmpty && !conn.tcb.freed && input.possible conn.tcb &&
        decide (allowed conn.tcb now input) then
      (conn.after port 0 now input).follow allowed steps
    else none

theorem reachable_of_follow {made : Conn → Prop} {allowed : Tcb → Instant → Input → Prop}
    [∀ tcb now input, Decidable (allowed tcb now input)] {conn last : Conn}
    (reachable : Transition.Reachable made (Step allowed) conn)
    {steps : List (Port × Instant × Input)} (runs : conn.follow allowed steps = some last) :
    Transition.Reachable made (Step allowed) last := by
  induction steps generalizing conn with
  | nil =>
    cases runs
    exact reachable
  | cons step steps ih =>
    obtain ⟨port, now, input⟩ := step
    rw [follow] at runs
    split at runs
    · rename_i permitted
      simp only [Bool.and_eq_true, List.isEmpty_iff, Bool.not_eq_true',
        decide_eq_true_eq] at permitted
      obtain ⟨⟨⟨quiet, kept⟩, possible⟩, ok⟩ := permitted
      exact ih (.next reachable (.input port quiet 0 now input kept possible ok)) runs
    · cases runs

def roomy : Conn :=
  opened {} (.connecting ⟨0x0a000001, 49152⟩ ⟨0x0a000002, 80⟩
    ⟨256, 64, by decide, Buffers.sixtyFour_lt⟩ 1460 1000) 0

theorem roomy_made : Made roomy := .opened {} rfl (.connecting _ _ _ _ _) (by decide) 0

def refused (input : Input) : Port × Instant × Input :=
  ({ refusals := List.replicate 4 true }, 0, input)

def nextByte (place : ℕ) : Input :=
  .segment (dataFromServer (5001 + BitVec.ofNat 32 place) [0] (by decide))

def unheard : List (Port × Instant × Input) :=
  refused serverSynAck :: (List.range 255).flatMap fun place =>
    [refused (nextByte place), refused (.read 1)]

end EspDevkit.Net.Conn
