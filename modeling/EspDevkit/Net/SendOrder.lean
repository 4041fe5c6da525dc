import EspDevkit.Net.TcpSendInvariant

/-!
# The order of the send sequence numbers

In a run in which the handshake is never completed while `snd_nxt` is back at
the SYN, `snd_una`, `snd_nxt` and `snd_max` are in order.
-/

namespace EspDevkit.Net

open SerialNumber

/-- The input completes the handshake while `snd_nxt` is at the SYN. -/
def CompletesBehind (tcb : Tcb) : Input → Prop
  | .segment seg => tcb.completesHandshake seg ∧ tcb.sndNxt = tcb.iss
  | _ => False

instance (tcb : Tcb) : (input : Input) → Decidable (CompletesBehind tcb input)
  | .segment seg =>
    inferInstanceAs (Decidable (tcb.completesHandshake seg = true ∧ tcb.sndNxt = tcb.iss))
  | .read _ | .write _ | .shutdown | .release | .accept | .unlisten | .setNodelay _
  | .setKeepalive _ | .icmpError _ _ | .linkReady | .poll => inferInstanceAs (Decidable False)

/-- `snd_una`, `snd_nxt` and `snd_max` are in order, no further apart than the
send buffer, the SYN and the FIN take; and `snd_nxt` is not behind the send
buffer once `snd_una` is not. -/
structure SendOrdered (tcb : Tcb) : Prop where
  una_le_nxt : le tcb.sndUna tcb.sndNxt
  nxt_le_max : le tcb.sndNxt tcb.sndMax
  inFlight_le : tcb.inFlight ≤ (tcb.sndMax - tcb.sndUna).toNat
  outstanding_le : (tcb.sndMax - tcb.sndUna).toNat ≤ tcb.tx.len + 2
  base_le_nxt : le tcb.txBase tcb.sndUna → le tcb.txBase tcb.sndNxt

instance (tcb : Tcb) : Decidable (SendOrdered tcb) :=
  decidable_of_iff
    (le tcb.sndUna tcb.sndNxt ∧ le tcb.sndNxt tcb.sndMax ∧
      tcb.inFlight ≤ (tcb.sndMax - tcb.sndUna).toNat ∧
      (tcb.sndMax - tcb.sndUna).toNat ≤ tcb.tx.len + 2 ∧
      (le tcb.txBase tcb.sndUna → le tcb.txBase tcb.sndNxt))
    ⟨fun ⟨una, nxt, inFlight, outstanding, base⟩ => ⟨una, nxt, inFlight, outstanding, base⟩,
      fun ordered => ⟨ordered.una_le_nxt, ordered.nxt_le_max, ordered.inFlight_le,
        ordered.outstanding_le, ordered.base_le_nxt⟩⟩

/-- Positions in order past some origin make a connection ordered. -/
theorem SendOrdered.of_places {tcb : Tcb} {origin : Seq} {una nxt top : ℕ}
    (unaEq : tcb.sndUna = place origin una) (nxtEq : tcb.sndNxt = place origin nxt)
    (maxEq : tcb.sndMax = place origin top) (order : una ≤ nxt ∧ nxt ≤ top)
    (near : top - una ≤ tcb.tx.len + 2) (small : top ≤ 2 ^ 31)
    (base : le tcb.txBase tcb.sndUna → le tcb.txBase tcb.sndNxt) : SendOrdered tcb := by
  have outstanding : (tcb.sndMax - tcb.sndUna).toNat = top - una := by
    rw [unaEq, maxEq]
    exact place_sub_place (by omega) (by omega)
  have inFlight : tcb.inFlight = nxt - una := by
    rw [Tcb.inFlight, unaEq, nxtEq]
    exact place_sub_place (by omega) (by omega)
  refine ⟨?_, ?_, by omega, by omega, base⟩
  · rw [unaEq, nxtEq]
    exact (le_place_iff origin (by omega) (by omega)).mpr order.1
  · rw [nxtEq, maxEq]
    exact (le_place_iff origin (by omega) (by omega)).mpr order.2

theorem SendOrdered.of_inv {tcb : Tcb} {misplaced : Prop}
    (inv : SendInv False misplaced tcb.core.toSendSide) (live : tcb.state ≠ .closed) :
    SendOrdered tcb := by
  have small := WellFormed.len_lt inv.tx
  change tcb.tx.len < 2 ^ 31 at small
  have early : tcb.sndUna = tcb.iss → tcb.txBase = place tcb.iss 1 →
      le tcb.txBase tcb.sndUna = false := by
    intro una base
    rw [una, base]
    apply Bool.eq_false_of_not_eq_true
    intro reached
    have := (@le_place_iff 32 1 0 tcb.iss (by omega) (by omega)).mp
      (by simpa using reached)
    omega
  cases inv.phase with
  | closed closed => exact absurd closed live
  | opening nxt top opening =>
    have order := opening.order
    have una : tcb.sndUna = place tcb.iss 0 := opening.una.trans (place_zero _).symm
    exact .of_places una opening.nxtEq
      opening.maxEq (by omega) (by omega) (by omega)
      fun reached => by simp [early opening.una opening.base] at reached
  | closing nxt top closing =>
    have order := closing.order
    have una : tcb.sndUna = place tcb.iss 0 := closing.una.trans (place_zero _).symm
    exact .of_places una closing.nxtEq
      closing.maxEq (by omega) (by omega) (by omega)
      fun reached => by simp [early closing.una closing.base] at reached
  | behind late => exact late.elim
  | streaming una nxt top streaming =>
    have order := streaming.order
    change _ ∧ _ ∧ _ ≤ tcb.tx.len + 1 ∧ _ at order
    refine .of_places streaming.unaEq streaming.nxtEq streaming.maxEq (by omega) (by omega)
      (by omega) fun _ => ?_
    rw [show tcb.sndNxt = place tcb.txBase nxt from streaming.nxtEq]
    simpa using (@le_place_iff 32 0 _ tcb.txBase (by omega) (by omega)).mpr
      (Nat.zero_le nxt)

/-- When no input completes the handshake behind, every reachable state of a
connection that is not closed has its send numbers in order. -/
theorem send_order {conn : Conn}
    (timely : Conn.Reachable (fun tcb _ input => ¬ CompletesBehind tcb input) conn)
    (live : conn.tcb.state ≠ .closed) : SendOrdered conn.tcb := by
  refine @SendOrdered.of_inv conn.tcb True ?_ live
  refine @Conn.Reachable.invariant _ (fun core _ => SendInv False True core.toSendSide)
    (fun tcb fresh => .fresh fresh) ?_ ?_
    (fun _ _ waiting _ inv => inv.dropBuffers waiting) _ timely
  · intro before history labels after inv move
    exact inv.move move id (fun _ => trivial) id
  · intro tcb now input start allowed startInv before history labels after inv move
    have notLate : ¬ (input.context tcb now).late := by
      cases input with
      | segment seg => exact allowed
      | _ => exact id
    refine inv.move move notLate (fun _ => trivial) ?_
    cases input with
    | segment seg =>
      rintro ⟨completes, unsent⟩
      have opening : tcb.state = .synSent ∨ tcb.state = .synReceived := by
        cases state : tcb.state <;> simp [Tcb.completesHandshake, state] at completes ⊢
      obtain ⟨nxt, top, phase⟩ := SendInv.opening_of startInv opening
      have order := phase.order
      refine allowed ⟨completes, ?_⟩
      have maxEq : place tcb.iss top = place tcb.iss 0 := by
        rw [place_zero]
        exact phase.maxEq.symm.trans unsent
      have zero := (place_inj (by omega) (by omega)).mp maxEq
      have nxtEq : tcb.sndNxt = place tcb.iss nxt := phase.nxtEq
      rw [nxtEq, show nxt = 0 by omega, place_zero]
    | _ => exact id

/-- A connection whose handshake completes in time. -/
theorem send_order_connected :
    SendOrdered (Conn.toServer.run [({}, 100, Conn.serverSynAck), ({}, 200, .write [1, 2, 3])]).tcb :=
  send_order ((Conn.toServer_reachable _).run (by decide)) (by decide)

/-- The SYN goes out, its retransmission is refused by the link, and the answer
to the first one comes: `snd_nxt` stays behind. -/
theorem send_order_fails :
    ∃ conn, Conn.Reachable Conn.anyInput conn ∧ conn.tcb.state ≠ .closed ∧
      ¬ le conn.tcb.sndUna conn.tcb.sndNxt ∧ conn.tcb.inFlight = 2 ^ 32 - 1 ∧
      le conn.tcb.txBase conn.tcb.sndUna ∧ ¬ le conn.tcb.txBase conn.tcb.sndNxt :=
  ⟨Conn.toServer.run [({ refusals := [true] }, 1000000, .poll), ({}, 1000100, Conn.serverSynAck)],
    (Conn.toServer_reachable _).run
    (by decide), by decide, by decide, by decide, by decide, by decide⟩

end EspDevkit.Net
