import EspDevkit.Net.Connection

/-!
# The life of a connection

The states of a connection follow TCP's diagram of them, so that none is entered twice.
-/

namespace EspDevkit.Net

open Relation

/-- The arrows of the diagram, with those of segments that carry two things. -/
inductive State.Arrow : State → State → Prop
  | crossed : Arrow .synSent .synReceived
  | answered : Arrow .synSent .established
  | opened : Arrow .synReceived .established
  | shutEarly : Arrow .synReceived .finWait1
  | shut : Arrow .established .finWait1
  | left : Arrow .established .closeWait
  | shutLast : Arrow .closeWait .lastAck
  | acked : Arrow .finWait1 .finWait2
  | both : Arrow .finWait1 .closing
  | bothAcked : Arrow .finWait1 .timeWait
  | leftLast : Arrow .finWait2 .timeWait
  | bothDone : Arrow .closing .timeWait
  | ended {state} (open' : state ≠ .closed) : Arrow state .closed

namespace State

variable {before after : State}

/-- The states are listed in the order in which they come. -/
theorem Arrow.lt (arrow : Arrow before after) : before.ctorIdx < after.ctorIdx := by
  cases arrow with
  | ended open' => cases before <;> first | exact absurd rfl open' | decide
  | _ => decide

theorem eq_or_lt (arrows : ReflTransGen Arrow before after) :
    before = after ∨ before.ctorIdx < after.ctorIdx := by
  induction arrows with
  | refl => exact .inl rfl
  | tail _ arrow ih =>
    rcases ih with rfl | earlier
    · exact .inr arrow.lt
    · exact .inr (earlier.trans arrow.lt)

end State

variable {ctx : Context} {before after : Core} {labels : List Happening}

theorem Move.arrows (move : Move ctx before labels after) :
    ReflTransGen State.Arrow before.state after.state := by
  cases move with
  | offer =>
    unfold Core.offered
    dsimp only
    split <;> exact .refl
  | acked _ seg =>
    have same : (before.recordAck seg.ack).state = before.state := by
      unfold Core.recordAck Core.dropAcked
      dsimp only
      split <;> rfl
    rw [same]
  | data fits _ seg =>
    have same : (before.takeBytes fits seg).state = before.state := by
      unfold Core.takeBytes
      dsimp only
      split <;> rfl
    rw [same]
  | simultaneous _ _ opening => exact .single (opening ▸ .crossed)
  | connected _ _ opening => exact .single (opening ▸ .answered)
  | established _ _ _ _ opening => exact .single (opening ▸ .opened)
  | finAcked =>
    unfold Core.finAcked
    split
    · next state => exact .single (state ▸ .acked)
    · next state => exact .single (state ▸ .bothDone)
    · next state => exact .single (state ▸ .ended (by rintro ⟨⟩))
    · exact .refl
  | fin =>
    unfold Core.takeFin
    dsimp only
    split
    · next state => exact .single (state ▸ .left)
    · next state =>
      split
      · exact .single (state ▸ .bothAcked)
      · exact .single (state ▸ .both)
    · next state => exact .single (state ▸ .leftLast)
    · exact .refl
  | shutdown _ _ from' =>
    rcases from' with ⟨opening | opening, rfl⟩ | ⟨opening, rfl⟩
    · exact .single (opening ▸ .shutEarly)
    · exact .single (opening ▸ .shut)
    · exact .single (opening ▸ .shutLast)
  | close =>
    by_cases closed : before.state = .closed
    · exact closed ▸ .refl
    · exact .single (.ended closed)
  | _ => exact .refl

theorem Moves.arrows (moves : Moves ctx before labels after) :
    ReflTransGen State.Arrow before.state after.state := by
  induction moves with
  | refl => exact .refl
  | cons move _ ih => exact move.arrows.trans ih

namespace Conn

variable {allowed : Tcb → Instant → Input → Prop} {before between after : Conn}

theorem Step.arrows (step : Step allowed before after) :
    ReflTransGen State.Arrow before.tcb.state after.tcb.state := by
  obtain ⟨now, input, labels, core, -, -, -, moves, dropped⟩ := step.moves
  have same : after.tcb.state = core.state := by
    rcases dropped with same | ⟨-, -, same⟩ <;> exact congrArg (·.state) same
  rw [same]
  exact moves.arrows

theorem run_arrows (steps : ReflTransGen (Step allowed) before after) :
    ReflTransGen State.Arrow before.tcb.state after.tcb.state :=
  steps.lift' (·.tcb.state) fun _ _ => Step.arrows

/-- However a connection runs on, its state goes along the arrows, never back to one left. -/
theorem states_follow_arrows (first : ReflTransGen (Step allowed) before between)
    (later : ReflTransGen (Step allowed) between after) :
    ReflTransGen State.Arrow before.tcb.state between.tcb.state ∧
      (after.tcb.state = before.tcb.state → between.tcb.state = before.tcb.state) := by
  refine ⟨run_arrows first, fun same => ?_⟩
  have later := State.eq_or_lt (run_arrows later)
  rw [same] at later
  rcases State.eq_or_lt (run_arrows first) with eq | lt
  · exact eq.symm
  · exact later.resolve_right lt.asymm

theorem states_follow_arrows_opening :
    ReflTransGen State.Arrow toServer.tcb.state (toServer.after {} 0 0 serverSynAck).tcb.state ∧
      ((toServer.after {} 0 0 serverSynAck).tcb.state = toServer.tcb.state →
        (toServer.after {} 0 0 serverSynAck).tcb.state = toServer.tcb.state) :=
  @states_follow_arrows anyInput _ _ _
    (.single (.input {} rfl 0 0 serverSynAck rfl (by decide) trivial)) .refl

end Conn

end EspDevkit.Net
