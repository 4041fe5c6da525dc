import EspDevkit.Library.Transition
import EspDevkit.Usb.Ep0Dwc2
import EspDevkit.Usb.Ep0Virtual

/-!
# Answers to the latest SETUP

In the calm runs of either driver every answer that it takes is one to the latest
SETUP, and OUT data is handed over for the request that it came in for.
-/

namespace EspDevkit.Usb.Ep0

open Transition Option

/-- Each data stage, acknowledgement and stall was computed from the SETUP that was
the latest then, the data IN stages sent the reply to it, and what was handed over
for a request was its data. -/
structure Current (armed : List (ℕ × ℕ)) (sent handed : List (ℕ × Contents)) : Prop where
  armed : ∀ entry ∈ armed, entry.2 = entry.1
  sent : ∀ entry ∈ sent, entry.2 = .reply entry.1
  handed : ∀ entry ∈ handed, entry.2 = .data entry.1

/-- What the drivers arm in a calm run is computed from the latest SETUP, and OUT
data is handed over for the request that it came in for. -/
theorem answers_latest_setup (config : Config) :
    (∀ state, Reachable (· = .init) (Allowed (Dwc2.State.step config) Dwc2.State.Calm) state →
      Current state.armed state.sent state.task.handed) ∧
      ∀ state, Reachable (· = .init) (Allowed (Virtual.State.step config) Virtual.State.Calm)
        state → Current state.armed state.sent state.task.handed := by
  constructor
  · intro state reachable
    have start : ∀ state : Dwc2.State, state = .init → state.Inv := by
      rintro state rfl
      exact Dwc2.State.init_inv
    have kept : ∀ before after : Dwc2.State, before.Inv →
        Allowed (Dwc2.State.step config) Dwc2.State.Calm before after → after.Inv :=
      fun before after inv ⟨action, goes, calm⟩ => Dwc2.State.step_inv inv calm goes
    have inv : state.Inv := reachable.invariant start kept
    exact ⟨inv.armed, inv.sent, inv.handed⟩
  · intro state reachable
    have start : ∀ state : Virtual.State, state = .init → state.Inv := by
      rintro state rfl
      exact Virtual.State.init_inv
    have kept : ∀ before after : Virtual.State, before.Inv →
        Allowed (Virtual.State.step config) Virtual.State.Calm before after → after.Inv :=
      fun before after inv ⟨action, goes, calm⟩ => Virtual.State.step_inv inv calm goes
    have inv : state.Inv := reachable.invariant start kept
    exact ⟨inv.armed, inv.sent, inv.handed⟩

instance (state : Dwc2.State) : ∀ action, Decidable (state.Calm action)
  | .setup _ queued => inferInstanceAs (Decidable (queued = false → state.outstanding = []))
  | .call => inferInstanceAs (Decidable (state.stage = .Reply ∨ state.stage = .ReplyOut →
      ∀ event ∈ state.events, event.isSetup = false))
  | .outComplete _ _ | .setupComplete | .statusPhase | .inComplete | .busReset _ | .enumerated _
  | .suspended _ | .resumed _ | .transfersDone _ | .take | .handle _ => .isTrue trivial

def plain : Config := ⟨256, 0, 0⟩

def getDescriptor : SetupPacket := ⟨0x80, kReqGetDescriptor, 0x100, 0, 18⟩

def getConfiguration : SetupPacket := ⟨0x80, kReqGetConfiguration, 0, 0, 1⟩

def setReport : SetupPacket := ⟨0x21, 0x09, 0, 0, 2⟩

def exchange : List Dwc2.Action :=
  [.busReset true, .enumerated true, .take, .take, .setup getDescriptor true, .take,
    .handle (some 18), .call, .inComplete, .outComplete 0 true, .setup setReport true, .take,
    .handle (some 0), .call, .outComplete 2 true, .take, .handle (some 0), .call, .statusPhase,
    .inComplete]

/-- Every stage of a calm exchange is one of the latest SETUP. -/
theorem exchange_answered : ∃ state : Dwc2.State, state.armed = [(1, 1), (2, 2), (2, 2)] ∧
    state.task.handed = [(2, .data 2)] ∧ Current state.armed state.sent state.task.handed := by
  obtain ⟨state, result⟩ : ∃ state, run (Dwc2.State.step plain)
      (fun state action => decide (state.Calm action)) .init exchange = some state :=
    isSome_iff_exists.mp (by decide +kernel)
  have facts : (run (Dwc2.State.step plain) (fun state action => decide (state.Calm action)) .init
      exchange).map (fun state => (state.armed, state.task.handed)) =
        some ([(1, 1), (2, 2), (2, 2)], [(2, .data 2)]) := by
    decide +kernel
  rw [result] at facts
  simp only [map_some, Option.some.injEq, Prod.mk.injEq] at facts
  have reachable : Reachable (· = .init) (Allowed (Dwc2.State.step plain) Dwc2.State.Calm) state :=
    reachable_of_run (fun _ _ => of_decide_eq_true) (.start rfl) result
  exact ⟨state, facts.1, facts.2, (answers_latest_setup plain).1 state reachable⟩

def abandons : List Dwc2.Action :=
  [.setup getDescriptor true, .setup getConfiguration true, .take, .handle (some 18), .call]

def unlinks : List Virtual.Action :=
  [.submit getDescriptor true 18 0, .unlink 1, .submit getConfiguration true 1 0, .flush,
    .enqueue 0 true, .enqueue 0 true, .take, .handle (some 18), .call]

/-- The data stage of the second SETUP is the answer to the first. -/
theorem first_answers_second :
    (∃ state, Reachable (· = .init) (Allowed (Dwc2.State.step plain) fun _ _ => True) state ∧
      state.armed = [(2, 1)] ∧ state.sent = [(2, .reply 1)]) ∧
      ∃ state, Reachable (· = .init) (Allowed (Virtual.State.step plain) fun _ _ => True) state ∧
        state.armed = [(2, 1)] ∧ state.sent = [(2, .reply 1)] := by
  constructor
  · obtain ⟨state, result⟩ : ∃ state, run (Dwc2.State.step plain) (fun _ _ => true) .init
        abandons = some state := isSome_iff_exists.mp (by decide +kernel)
    have facts : (run (Dwc2.State.step plain) (fun _ _ => true) .init abandons).map
        (fun state => (state.armed, state.sent)) = some ([(2, 1)], [(2, .reply 1)]) := by
      decide +kernel
    rw [result] at facts
    simp only [map_some, Option.some.injEq, Prod.mk.injEq] at facts
    exact ⟨state, reachable_of_run (fun _ _ _ => trivial) (.start rfl) result, facts⟩
  · obtain ⟨state, result⟩ : ∃ state, run (Virtual.State.step plain) (fun _ _ => true) .init
        unlinks = some state := isSome_iff_exists.mp (by decide +kernel)
    have facts : (run (Virtual.State.step plain) (fun _ _ => true) .init unlinks).map
        (fun state => (state.armed, state.sent)) = some ([(2, 1)], [(2, .reply 1)]) := by
      decide +kernel
    rw [result] at facts
    simp only [map_some, Option.some.injEq, Prod.mk.injEq] at facts
    exact ⟨state, reachable_of_run (fun _ _ _ => trivial) (.start rfl) result, facts⟩

end EspDevkit.Usb.Ep0
