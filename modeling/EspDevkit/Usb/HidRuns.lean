import EspDevkit.Library.Transition
import EspDevkit.Usb.HidDevice

/-!
# Runs of the report queue

As long as the endpoint takes only what `submit_head` has just found in the
queue, the host gets every report once at most and as it was, in order, and in
the period in which it was accepted.
-/

namespace EspDevkit.Usb.Hid

open Transition

namespace State

variable {state after : State} {config : Config} {action : Action}

theorem fresh_inv : fresh.Inv where
  token := .free rfl (fun _ => rfl) rfl
  queue :=
    { head_lt := by decide
      count_le := Nat.zero_le _
      count_accepted := Nat.zero_le _
      off := fun _ => rfl
      old := fun _ mem => nomatch mem
      slots := fun i lt => absurd lt (Nat.not_lt_zero i) }
  moves :=
    { period_le := Nat.le_refl _
      taken := fun _ submits => nomatch submits
      unchanged := fun _ mem => nomatch mem
      atHead := fun _ mem => nomatch mem
      closed := fun _ => rfl }
  log :=
    { sorted := .nil
      sent_lt := fun _ mem => nomatch mem
      unsent := fun _ mem => nomatch mem
      sentBytes := fun _ mem => nomatch mem
      order := .nil
      submitted_le := fun _ mem => nomatch mem
      periods := fun _ mem => nomatch mem
      kept := fun number _ _ _ lt => absurd lt (Nat.not_lt_zero number) }
  plan := .idle (fun _ => rfl) ⟨fun _ => ⟨rfl, rfl⟩, fun _ => rfl⟩

theorem Inv.step (inv : state.Inv) (calm : state.Calm action)
    (goes : state.step config action = some after) : after.Inv := by
  cases action with
  | send thread data => exact inv.send goes
  | submitHead thread => exact inv.submitHead calm goes
  | finish status =>
    rw [State.step] at goes
    split at goes
    · cases goes
    · exact inv.finish goes
  | handle event =>
    rw [State.step] at goes
    split at goes
    · rename_i rests
      cases goes
      exact inv.handle rests.1
    · cases goes
  | work => exact inv.work goes

theorem Inv.slot (inv : state.Inv) (goes : state.step config action = some after)
    {transfer : Transfer} (flies : transfer ∈ state.flight) :
    after.slots transfer.slot = state.slots transfer.slot := by
  have mem : (transfer, none) ∈ state.transfers :=
    List.mem_append_left _ (List.mem_append_left _ (List.mem_map_of_mem flies))
  cases action with
  | send thread data =>
    rw [State.step] at goes
    split at goes
    swap
    · cases goes
    split at goes
    · cases goes
    rename_i next wasIdle accepts
    have slot := (enqueued accepts inv.queue).1.slot inv mem
    cases goes
    split
    · exact slot
    · exact slot
  | submitHead thread =>
    rw [State.step, State.submitHead] at goes
    split at goes
    · cases goes
    · cases goes
      rfl
    · split at goes <;> cases goes <;> rfl
    · cases goes
      rfl
  | finish status =>
    rw [State.step] at goes
    split at goes
    · cases goes
    rw [State.finish] at goes
    split at goes
    · cases goes
    · cases goes
      rfl
  | handle event =>
    rw [State.step] at goes
    split at goes
    · cases goes
      rfl
    · cases goes
  | work =>
    rw [State.step, State.work] at goes
    split at goes
    case h_10 =>
      split at goes <;> cases goes <;> rfl
    case h_12 => cases goes
    all_goals cases goes
    all_goals first | rfl | (split <;> rfl)

def Next (config : Config) (permits : State → Action → Prop) (before after : State) : Prop :=
  ∃ action, before.step config action = some after ∧ permits before action

instance (state : State) : ∀ action, Decidable (state.Calm action)
  | .submitHead thread => inferInstanceAs (Decidable (state.phase thread = .submit →
      state.isOpen = true → state.transfer.queued = true ∧ state.transfer.period = state.period))
  | .send .. | .finish _ | .handle _ | .work => .isTrue trivial

def run (config : Config) (permits : State → Action → Bool) : State → List Action → Option State
  | state, [] => some state
  | state, action :: actions =>
    if permits state action then (state.step config action).bind (run config permits · actions)
    else none

theorem reachable_of_run {permits : State → Action → Bool} {allows : State → Action → Prop}
    (sound : ∀ state action, permits state action = true → allows state action)
    {actions : List Action} (reachable : Reachable (· = fresh) (Next config allows) state)
    (runs : run config permits state actions = some after) :
    Reachable (· = fresh) (Next config allows) after := by
  induction actions generalizing state with
  | nil =>
    cases runs
    exact reachable
  | cons action actions ih =>
    rw [run] at runs
    split at runs
    · rename_i permitted
      obtain ⟨next, goes, runs⟩ := Option.bind_eq_some_iff.mp runs
      exact ih (reachable.next ⟨action, goes, sound _ _ permitted⟩) runs
    · cases runs

def keyboard : Config := ⟨false, 8, true⟩

def handles (event : Event) (jobs : ℕ) : List Action :=
  .handle event :: List.replicate jobs .work

def delivers : List Action :=
  handles (.setConfiguration true) 5 ++
    [.send (.task 0) [1], .submitHead (.task 0), .submitHead (.task 0), .finish .Completed] ++
    handles .other 3

def crosses : List Action :=
  handles (.setConfiguration true) 5 ++ [.send (.task 0) [1], .submitHead (.task 0)] ++
    handles .suspend 4 ++ [.submitHead (.task 0)] ++ handles .resume 3 ++
    [.send (.task 1) [2], .finish .Completed]

end State

end EspDevkit.Usb.Hid
