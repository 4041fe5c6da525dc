import EspDevkit.Library.Transition
import EspDevkit.Host.RelayCompletions

/-!
# Runs of a worker of the relay

The answers of a run in which commands come back in order and unlinks come in
time, and a run in which they do not.
-/

namespace EspDevkit.Host

open Transition

namespace Worker

variable {ep : Ep} {worker before after : Worker} {action : Action}

/-- A calm step of a session that lives on keeps the invariant. -/
theorem Inv.step (inv : before.Inv) (running : before.stopped = false) (calm : before.Calm action)
    (stepTo : before.step ep action = some after) (live : after.stopped = false) : after.Inv := by
  cases action with
  | push cmd => exact inv.push calm stepTo
  | stop =>
    cases stepTo
    cases live
  | turn => exact inv.turn calm stepTo
  | handle cleared =>
    simp only [Worker.step] at stepTo
    split at stepTo
    · rename_i cmd rest phase batch
      cases stepTo
      have spares : before.Spares before.batch := calm
      rw [batch] at spares
      have here : before.queue = before.held ++ cmd :: rest ++ before.commands := by
        rw [Worker.queue, batch]
      cases cmd with
      | submit job =>
        simp only [Worker.handle] at live ⊢
        split
        · rename_i drains
          refine inv.handle_held phase batch ?_ ?_ ?_ fun quiet => ?_
          · rw [here]
            simp
          · rw [here]
            simp
          · simp [inv.heldUnlinks, Cmd.unlinks]
          · rw [quiet] at drains
            cases drains
        · rename_i calms
          exact inv.handle_submit phase batch (Bool.eq_false_iff.mpr calms)
      | clearHalt =>
        have heldUnlinks : unlinksOf (before.held ++ [.clearHalt]) = [] := by
          simp [inv.heldUnlinks, Cmd.unlinks]
        have held : before.draining = false → submits (before.held ++ [.clearHalt]) = [] := by
          intro quiet
          simp [inv.heldSubmits quiet (.inl phase), Cmd.submitted]
        simp only [Worker.handle] at live ⊢
        split
        · refine inv.handle_held phase batch ?_ ?_ heldUnlinks held
          · rw [here]
            simp
          · rw [here]
            simp
        · split
          · refine inv.handle_held phase batch ?_ ?_ heldUnlinks held
            · rw [here]
              simp
            · rw [here]
              simp
          · refine inv.handle_held phase batch ?_ ?_ inv.heldUnlinks
              fun quiet => inv.heldSubmits quiet (.inl phase)
            · rw [here]
              simp [Cmd.submitted]
            · rw [here]
              simp [Cmd.unlinks]
      | unlink seqnum target =>
        obtain ⟨begun, fresh, goes⟩ := spares
        simp only [Worker.handle] at live ⊢
        split
        · rename_i entries found
          exact inv.handle_found phase batch fresh found
        · rename_i missed
          rw [send, if_neg (by rw [running]; exact Bool.false_ne_true)]
          refine inv.handle_missed phase batch ?_
          exact (inv.found_or_done begun fresh goes).resolve_left (markUnlinked_none missed)
    · cases stepTo
  | poll => exact inv.poll stepTo
  | complete done gone =>
    simp only [Worker.step] at stepTo
    split at stepTo
    · rename_i phase
      split at stepTo
      · cases stepTo
      · rename_i pending
        cases stepTo
        exact inv.complete phase pending running live
    · cases stepTo
  | settle => exact inv.settle stepTo

theorem stopped_handle (worker : Worker) (cleared : Bool) (cmd : Cmd) :
    (worker.handle ep cleared cmd).stopped = worker.stopped := by
  cases cmd with
  | submit job =>
    simp only [handle]
    split <;> rfl
  | clearHalt =>
    simp only [handle]
    split
    · rfl
    · split <;> rfl
  | unlink seqnum target =>
    simp only [handle]
    split
    · rfl
    · simp only [send]
      split <;> rfl

theorem stopped_send (worker : Worker) (reply : Reply) :
    (worker.send reply).stopped = worker.stopped := by
  rw [send]
  split <;> rfl

theorem stopped_complete {done : Completion} {gone : Bool} (stopped : worker.stopped = true) :
    (worker.complete ep done gone).stopped = true := by
  have replies : ∀ (state : Worker) (entry : Entry) (cut : Bool), state.stopped = true →
      (state.reply ep entry done cut gone).stopped = true := by
    intro state entry cut stopped
    by_contra live
    rw [Bool.not_eq_true] at live
    obtain ⟨_, _, _, sent⟩ := reply_sends live
    rw [sent, stopped] at live
    cases live
  simp only [complete]
  split
  · exact stopped
  · split
    · exact stopped
    · split
      · split
        · rw [stopped_send]
          exact stopped
        · split
          · exact replies _ _ _ stopped
          · exact stopped
      · exact replies _ _ _ stopped

theorem stopped_step (stopped : before.stopped = true)
    (stepTo : before.step ep action = some after) : after.stopped = true := by
  cases action with
  | push cmd =>
    cases stepTo
    exact stopped
  | stop =>
    cases stepTo
    rfl
  | turn =>
    simp only [Worker.step] at stepTo
    split at stepTo
    · rw [if_pos stopped] at stepTo
      cases stepTo
    · rw [if_pos stopped] at stepTo
      cases stepTo
    · cases stepTo
  | handle cleared =>
    simp only [Worker.step] at stepTo
    split at stepTo
    · cases stepTo
      rw [stopped_handle]
      exact stopped
    · cases stepTo
  | poll =>
    simp only [Worker.step] at stepTo
    split at stepTo
    · cases stepTo
      exact stopped
    · cases stepTo
  | complete done gone =>
    simp only [Worker.step] at stepTo
    split at stepTo
    · split at stepTo
      · cases stepTo
      · cases stepTo
        exact stopped_complete stopped
    · cases stepTo
  | settle =>
    simp only [Worker.step] at stepTo
    split at stepTo
    · split at stepTo
      · cases stepTo
        have same : ∀ (again : List Entry) (state : Worker),
            (again.foldl (begin ep) state).stopped = state.stopped := by
          intro again
          induction again with
          | nil => exact fun _ => rfl
          | cons entry rest ih => exact fun state => ih _
        show (before.again.foldl (begin ep) _).stopped = true
        rw [same]
        exact stopped
      · cases stepTo
        exact stopped
    · cases stepTo

/-- In calm runs transfers are begun in order, each has one answer unless it is
still in its place, and so has each unlink; an unlink is refused only after its
transfer was answered, and nothing stays behind when the worker parks. -/
theorem requests_answered_once (reachable : Reachable (· = Worker.start)
      (fun before after => ∃ action, before.Calm action ∧ before.step ep action = some after) worker)
    (live : worker.stopped = false) :
    (∀ earlier transfer later, worker.begun = earlier ++ transfer :: later → ∀ other,
        worker.submitted.idxOf other < worker.submitted.idxOf transfer → other ∈ earlier) ∧
      worker.unanswered.Sublist worker.submitted ∧
      (∀ transfer ∈ worker.submitted, answerCount worker.sent transfer =
        if transfer ∈ worker.unanswered then 0 else 1) ∧
      worker.unlinks.Perm (worker.openUnlinks ++ retUnlinks worker.sent) ∧
      (∀ earlier unlink target later, worker.sent = earlier ++ .retUnlink unlink 0 target :: later →
        ∃ status actual data, .retSubmit target status actual data ∈ earlier) ∧
      (worker.phase = .parked → worker.commands = [] → worker.pending = [] →
        worker.unanswered = [] ∧ worker.openUnlinks = []) := by
  have start : ∀ state, state = Worker.start → state.stopped = false → state.Inv := by
    rintro state rfl _
    exact .start
  have kept : ∀ before after : Worker, (before.stopped = false → before.Inv) →
      (∃ action, before.Calm action ∧ before.step ep action = some after) →
        after.stopped = false → after.Inv := by
    rintro before after inv ⟨action, calm, stepTo⟩ live
    cases running : before.stopped with
    | false => exact (inv running).step running calm stepTo live
    | true =>
      rw [stopped_step running stepTo] at live
      cases live
  have inv : worker.Inv := reachable.invariant start kept live
  refine ⟨inv.order, ?_, fun transfer member => ?_, inv.unlinks, inv.refused,
    fun parks commands pending => ?_⟩
  · rw [inv.unanswered]
    exact List.filter_sublist
  · have place : transfer ∈ worker.unanswered ↔ answerCount worker.sent transfer = 0 := by
      rw [inv.unanswered, List.mem_filter, decide_eq_true_iff]
      exact ⟨And.right, fun zero => ⟨member, zero⟩⟩
    have once := inv.once transfer
    split
    · rename_i here
      exact place.mp here
    · rename_i gone
      rw [place] at gone
      omega
  · obtain ⟨drained, quiet⟩ := inv.parked parks
    have calm : worker.draining = false := by
      rw [Bool.eq_false_iff]
      exact fun drains => drained drains pending
    have held := quiet calm
    have batch := inv.batch (by rw [parks]; nofun)
    have entries : worker.entries = [] := by
      have length := inv.pending
      rw [pending] at length
      exact List.length_eq_zero_iff.mp length.symm
    have again := (inv.quiet calm).1
    rw [Worker.unanswered, Worker.openUnlinks, Worker.queue, commands, held, batch, entries, again]
    exact ⟨rfl, rfl⟩

/-- Actions one after the other, each of them `ok`. -/
def run (ep : Ep) (ok : Worker → Action → Bool) (worker : Worker) : List Action → Option Worker
  | [] => some worker
  | action :: rest =>
    if ok worker action then
      match worker.step ep action with
      | none => none
      | some worker => run ep ok worker rest
    else none

theorem reachable_of_run {ok : Worker → Action → Bool} {steps : Worker → Worker → Prop}
    {actions : List Action} (allows : ∀ (before : Worker) action after, ok before action = true →
      before.step ep action = some after → steps before after)
    (reachable : Reachable (· = Worker.start) steps before)
    (result : before.run ep ok actions = some after) :
    Reachable (· = Worker.start) steps after := by
  induction actions generalizing before with
  | nil =>
    cases result
    exact reachable
  | cons action rest ih =>
    rw [run] at result
    split at result
    · rename_i fine
      split at result
      · cases result
      · rename_i next stepTo
        exact ih (.next reachable (allows before action next fine stepTo)) result
    · cases result

instance (worker : Worker) : ∀ batch, Decidable (worker.Spares batch)
  | [] => isTrue trivial
  | .submit _ :: _ => isTrue trivial
  | .clearHalt :: _ => isTrue trivial
  | .unlink _ target :: _ => inferInstanceAs (Decidable (target ∈ worker.begun ∧
      target ∉ worker.unlinked ∧ ∀ entry ∈ worker.again, entry.seqnum ≠ target))

instance (worker : Worker) : ∀ action, Decidable (worker.Calm action)
  | .push (.submit submit) => inferInstanceAs (Decidable (submit.seqnum ∉ worker.submitted))
  | .push (.unlink _ _) => isTrue trivial
  | .push .clearHalt => isTrue trivial
  | .stop => isTrue trivial
  | .turn => inferInstanceAs
      (Decidable (worker.draining = false → (submits worker.held).length ≤ 1))
  | .handle _ => inferInstanceAs (Decidable (worker.Spares worker.batch))
  | .poll => isTrue trivial
  | .complete _ _ => isTrue trivial
  | .settle => isTrue trivial

def bulkOut : Ep := ⟨false, 64, by decide⟩

def writes (seqnum : ℕ) : Action := .push (.submit ⟨seqnum, 1, false, [0]⟩)

def turns (commands : ℕ) : List Action := .turn :: List.replicate commands (.handle true) ++ [.poll]

def cancelled : Action := .complete ⟨some .Cancelled, 0, []⟩ false

def holds : List Action :=
  [writes 1] ++ turns 1 ++ [.settle, .push (.unlink 2 1), writes 3, writes 4] ++ turns 3 ++
    [cancelled, .settle] ++ turns 2

/-- The transfers that were held are begun in reverse. -/
theorem held_reversed : ∃ worker, Reachable (· = Worker.start)
      (fun before after => ∃ action, before.step bulkOut action = some after) worker ∧
    worker.stopped = false ∧ worker.submitted = [1, 3, 4] ∧ worker.begun = [1, 4, 3] := by
  obtain ⟨worker, result⟩ : ∃ worker,
      Worker.start.run bulkOut (fun _ _ => true) holds = some worker :=
    Option.isSome_iff_exists.mp (by decide +kernel)
  have facts : (Worker.start.run bulkOut (fun _ _ => true) holds).map (fun worker =>
      (worker.stopped, worker.submitted, worker.begun)) = some (false, [1, 3, 4], [1, 4, 3]) := by
    decide +kernel
  rw [result] at facts
  simp only [Option.map_some, Option.some.injEq, Prod.mk.injEq] at facts
  exact ⟨worker, reachable_of_run (fun _ action _ _ stepTo => ⟨action, stepTo⟩) (.start rfl) result,
    facts⟩

def spares : List Action :=
  [writes 1] ++ turns 1 ++ [.settle, .push (.unlink 2 1), writes 3] ++ turns 2 ++
    [cancelled, .settle] ++ turns 1 ++ [.complete ⟨none, 1, []⟩ false, .settle] ++ turns 0 ++
    [.settle]

/-- Both transfers have one answer. -/
theorem both_answered : ∃ worker : Worker, worker.submitted = [1, 3] ∧
    answerCount worker.sent 1 = 1 ∧ answerCount worker.sent 3 = 1 ∧
      worker.unlinks.Perm (retUnlinks worker.sent) := by
  obtain ⟨worker, result⟩ : ∃ worker,
      Worker.start.run bulkOut (fun worker action => decide (worker.Calm action)) spares =
        some worker :=
    Option.isSome_iff_exists.mp (by decide +kernel)
  have facts : (Worker.start.run bulkOut (fun worker action => decide (worker.Calm action))
      spares).map (fun worker => (worker.stopped, worker.submitted, worker.unanswered,
        worker.openUnlinks)) = some (false, [1, 3], [], []) := by
    decide +kernel
  rw [result] at facts
  simp only [Option.map_some, Option.some.injEq, Prod.mk.injEq] at facts
  obtain ⟨live, submitted, unanswered, openUnlinks⟩ := facts
  have calm : ∀ (before : Worker) action after, decide (before.Calm action) = true →
      before.step bulkOut action = some after →
        ∃ action, before.Calm action ∧ before.step bulkOut action = some after :=
    fun _ action _ calm stepTo => ⟨action, of_decide_eq_true calm, stepTo⟩
  obtain ⟨_, _, once, unlinks, _⟩ :=
    requests_answered_once (reachable_of_run calm (.start rfl) result) live
  rw [openUnlinks] at unlinks
  have first := once 1 (by rw [submitted]; decide)
  have second := once 3 (by rw [submitted]; decide)
  rw [unanswered] at first second
  exact ⟨worker, submitted, first, second, unlinks⟩

end Worker

end EspDevkit.Host
