import EspDevkit.Library.PendingWrites
import EspDevkit.Library.Transition
import EspDevkit.Net.StoredNetworks

/-!
# Saved networks in memory and in flash

What the flash will hold once the writes under way are made, in the order their
snapshots were taken, is what the memory holds.
-/

namespace EspDevkit.Net.WifiManager

open PendingWrites

namespace System

/-- The flash once the writes under way are made, the oldest snapshot first. -/
def eventual (s : System) : Nvs := flush s.nvs ((pending s.tasks).map Write.change)

/-- Systems that have just started; `readable` tells whether `load` could read
the flash. -/
def Starts (readable : Bool) (s : System) : Prop :=
  ∃ cipher nvs enabled, s = start cipher nvs readable enabled

def Step (allowed : System → Event → Prop) (before after : System) : Prop :=
  ∃ event, allowed before event ∧ before.step event = some after

def Reachable (readable : Bool) (allowed : System → Event → Prop) : System → Prop :=
  Transition.Reachable (Starts readable) (Step allowed)

/-- A write that no newer one to its slot will follow succeeds, and comes after
all older ones to its slot. -/
def WritesInOrder (s : System) : Event → Prop
  | .apply task outcome =>
    ∀ write ∈ (s.tasks[task]?).bind Task.write?,
      (∃ newer ∈ pending (s.tasks.drop (task + 1)), newer.slot = write.slot) ∨
        outcome = .ok ∧ ∀ older ∈ pending (s.tasks.take task), older.slot ≠ write.slot
  | _ => True

instance (s : System) : (event : Event) → Decidable (WritesInOrder s event)
  | .apply task outcome => by unfold WritesInOrder; infer_instance
  | .add _ _ _ _ | .forget _ | .join _ _ _ | .joinSaved _ | .attempt _ | .joined _ _ | .failed _ _
  | .left _ | .dropped _ | .setEnabled _ | .disconnect | .reconnect =>
    inferInstanceAs (Decidable True)

def Settles (s : System) : Prop := load s.cipher s.eventual = s.inner.slots

theorem pending_append (first second : List Task) :
    pending (first ++ second) = pending first ++ pending second :=
  List.filterMap_append ..

theorem pending_split {s : System} {task : ℕ} {running : Task}
    (there : s.tasks[task]? = some running) :
    pending s.tasks = pending (s.tasks.take task) ++
      (running.write?.toList ++ pending (s.tasks.drop (task + 1))) := by
  have length : task < s.tasks.length := (List.getElem?_eq_some_iff.mp there).1
  have split : s.tasks = s.tasks.take task ++ running :: s.tasks.drop (task + 1) := by
    rw [← (List.getElem?_eq_some_iff.mp there).2, List.getElem_cons_drop,
      List.take_append_drop]
  conv_lhs => rw [split, pending_append]
  congr 1
  cases running <;> rfl

theorem pending_without (s : System) (task : ℕ) :
    pending (s.without task) =
      pending (s.tasks.take task) ++ pending (s.tasks.drop (task + 1)) :=
  pending_append _ _

theorem pending_without_idle {s : System} {task : ℕ} {running : Task}
    (there : s.tasks[task]? = some running) (idle : running.write? = none) :
    pending (s.without task) = pending s.tasks := by
  rw [pending_without, pending_split there, idle]
  rfl

namespace Settles

variable {s : System}

theorem start (cipher : Cipher) (nvs : Nvs) (enabled : Bool) :
    (System.start cipher nvs true enabled).Settles := rfl

theorem keep (settles : s.Settles) {s' : System} (cipher : s'.cipher = s.cipher)
    (nvs : s'.nvs = s.nvs) (slots : s'.inner.slots = s.inner.slots)
    (writes : pending s'.tasks = pending s.tasks) : s'.Settles := by
  unfold Settles eventual
  rw [cipher, nvs, slots, writes]
  exact settles

theorem snapshot (settles : s.Settles) {s' : System} {write : Write} {saved : Option Saved}
    (reads : readSlot s.cipher write.blob = saved) (cipher : s'.cipher = s.cipher)
    (nvs : s'.nvs = s.nvs) (slots : s'.inner.slots = Function.update s.inner.slots write.slot saved)
    (writes : pending s'.tasks = pending s.tasks ++ [write]) : s'.Settles := by
  unfold Settles eventual at *
  rw [cipher, nvs, slots, writes, List.map_append, List.map_singleton, flush_concat, ← settles]
  funext slot
  by_cases here : slot = write.slot
  · subst here
    simp [load, Write.change, reads]
  · simp [load, Write.change, Function.update_of_ne here]

theorem apply (settles : s.Settles) {s' : System} {task : ℕ} {write : Write} {leaves : Bool}
    {outcome : Outcome} (there : s.tasks[task]? = some (.writing write leaves))
    (inOrder : s.WritesInOrder (.apply task outcome)) (cipher : s'.cipher = s.cipher)
    (nvs : s'.nvs = (write.apply outcome s.nvs).1) (slots : s'.inner = s.inner)
    (writes : pending s'.tasks = pending (s.without task)) : s'.Settles := by
  have same : s'.eventual = s.eventual := by
    unfold eventual
    rw [writes, nvs, pending_without, pending_split there, List.map_append, List.map_append]
    change _ = flush s.nvs
      (_ ++ write.change :: (pending (s.tasks.drop (task + 1))).map Write.change)
    rcases inOrder write (by rw [there]; rfl) with ⟨newer, member, goes⟩ | ⟨rfl, first⟩
    · refine flush_overwritten (fun slot other => Write.apply_other other) ?_
      exact ⟨newer.change, List.mem_map_of_mem member, goes⟩
    · refine @flush_early _ _ _ s.nvs _ _ write.change fun change member => ?_
      obtain ⟨older, waits, rfl⟩ := List.mem_map.mp member
      exact first older waits
  unfold Settles
  rw [same, cipher, slots]
  exact settles

theorem save (settles : s.Settles) (nonce : Vector UInt8 12) (saved : Saved) :
    (s.save nonce saved).Settles := by
  refine settles.snapshot (readSlot_put s.cipher nonce (s.inner.slotFor saved.ssid)
    { saved with seq := s.inner.nextSeq }) rfl rfl rfl ?_
  exact pending_append _ _

theorem joinWith (settles : s.Settles) (saved : Saved) : (s.joinWith saved).Settles := by
  unfold System.joinWith
  split
  · refine settles.keep rfl rfl rfl ?_
    rw [pending_append]
    exact List.append_nil _
  · exact settles

theorem step (settles : s.Settles) {s' : System} {event : Event}
    (inOrder : s.WritesInOrder event) (stepTo : s.step event = some s') : s'.Settles := by
  cases event with
  | add ssid password hidden nonce =>
    simp only [System.step] at stepTo
    split at stepTo <;> cases stepTo
    · exact settles.save nonce _
    · exact settles
  | forget ssid =>
    simp only [System.step] at stepTo
    split at stepTo <;> cases stepTo
    · exact settles
    · exact @snapshot _ settles _ (.erase _) none rfl rfl rfl rfl (pending_append _ _)
  | join ssid password hidden =>
    simp only [System.step] at stepTo
    split at stepTo <;> cases stepTo
    · exact settles.joinWith _
    · exact settles
  | joinSaved ssid =>
    simp only [System.step] at stepTo
    split at stepTo <;> cases stepTo
    · exact settles
    · exact settles.joinWith _
  | attempt slot =>
    simp only [System.step] at stepTo
    split at stepTo
    · obtain ⟨saved, _, rfl⟩ := Option.map_eq_some_iff.mp stepTo
      refine settles.keep rfl rfl rfl ?_
      rw [pending_append]
      exact List.append_nil _
    · cases stepTo
  | joined task nonce =>
    simp only [System.step] at stepTo
    split at stepTo <;> cases stepTo
    rename_i saved automatic there
    have waited : { s with tasks := s.without task }.Settles :=
      settles.keep rfl rfl rfl (pending_without_idle there rfl)
    exact (waited.save nonce saved).keep rfl rfl rfl rfl
  | failed task authFailed =>
    simp only [System.step] at stepTo
    split at stepTo <;> cases stepTo
    rename_i saved automatic there
    refine settles.keep rfl rfl ?_ (pending_without_idle there rfl)
    split <;> rfl
  | apply task outcome =>
    simp only [System.step] at stepTo
    split at stepTo <;> cases stepTo
    rename_i write leaves there
    refine settles.apply there inOrder rfl rfl rfl ?_
    rw [pending_append]
    split <;> exact List.append_nil _
  | left task =>
    simp only [System.step] at stepTo
    split at stepTo <;> cases stepTo
    rename_i there
    exact settles.keep rfl rfl rfl (pending_without_idle there rfl)
  | dropped task =>
    simp only [System.step] at stepTo
    split at stepTo <;> cases stepTo
    all_goals
      rename_i there
      exact settles.keep rfl rfl rfl (pending_without_idle there rfl)
  | setEnabled enabled =>
    cases stepTo
    exact settles.keep rfl rfl rfl rfl
  | disconnect =>
    cases stepTo
    exact settles.keep rfl rfl rfl rfl
  | reconnect =>
    cases stepTo
    exact settles.keep rfl rfl rfl rfl

theorem of_reachable (reachable : Reachable true WritesInOrder s) : s.Settles :=
  Transition.Reachable.invariant
    (fun _ ⟨cipher, nvs, enabled, same⟩ => same ▸ start cipher nvs enabled)
    (fun _ _ settles ⟨_, inOrder, stepTo⟩ => settles.step inOrder stepTo) reachable

end Settles

end System

/-- When the flash could be read at the start, and the newest write of each slot
succeeds and comes last, memory and flash agree whenever no call is under way,
and a restart finds the same networks. -/
theorem saved_networks_agree {s : System}
    (reachable : System.Reachable true System.WritesInOrder s) (idle : s.tasks = []) :
    (∀ slot, readSlot s.cipher (s.nvs slot) = s.inner.slots slot) ∧
      ∀ enabled, (System.start s.cipher s.nvs true enabled).inner.slots = s.inner.slots := by
  have settles := System.Settles.of_reachable reachable
  have agrees : load s.cipher s.nvs = s.inner.slots := by
    simpa [System.Settles, System.eventual, idle, System.pending] using settles
  exact ⟨fun slot => congrFun agrees slot, fun _ => agrees⟩

namespace System

def run (s : System) : List Event → System
  | [] => s
  | event :: events => ((s.step event).getD s).run events

def runs (allowed : System → Event → Prop) [∀ s event, Decidable (allowed s event)] (s : System) :
    List Event → Bool
  | [] => true
  | event :: events =>
    (s.step event).isSome && decide (allowed s event) && ((s.step event).getD s).runs allowed events

theorem Reachable.run {readable : Bool} {allowed : System → Event → Prop}
    [∀ s event, Decidable (allowed s event)] {s : System} (reachable : Reachable readable allowed s)
    {events : List Event} (possible : s.runs allowed events) :
    Reachable readable allowed (s.run events) := by
  induction events generalizing s with
  | nil => exact reachable
  | cons event events ih =>
    simp only [runs, Bool.and_eq_true, decide_eq_true_eq, Option.isSome_iff_exists] at possible
    obtain ⟨⟨⟨after, stepTo⟩, ok⟩, rest⟩ := possible
    simp only [System.run]
    rw [stepTo] at rest ⊢
    exact ih (.next reachable ⟨event, ok, stepTo⟩) rest

def anyEvent (_ : System) (_ : Event) : Prop := True

instance (s : System) (event : Event) : Decidable (anyEvent s event) := .isTrue trivial

def fresh (cipher : Cipher) : System :=
  start cipher (fun _ => none) true true

theorem fresh_reachable (allowed : System → Event → Prop) (cipher : Cipher) :
    Reachable true allowed (fresh cipher) :=
  .start ⟨_, _, _, rfl⟩

end System

open System.Event in
/-- Two networks are added at once, and their writes cross. -/
theorem saved_networks_agree_added :
    let s := (System.fresh (.new (.replicate 6 0))).run
      [add [97] "" false (.replicate 12 0), add [98] "" true (.replicate 12 1), .apply 1 .ok,
        .apply 0 .ok]
    (s.inner.slots 1).isSome ∧
      ∀ slot, readSlot s.cipher (s.nvs slot) = s.inner.slots slot :=
  ⟨by decide, (saved_networks_agree ((System.fresh_reachable _ _).run (by decide)) (by decide)).1⟩

open System.Event in
/-- A network is added and forgotten, and the two writes cross: it is back
after a restart. -/
theorem saved_networks_agree_fails :
    ∃ s, System.Reachable true System.anyEvent s ∧ s.tasks = [] ∧ s.inner.slots 0 = none ∧
      ((System.start s.cipher s.nvs true true).inner.slots 0).isSome := by
  have crossed : ∀ cipher nonce,
      let s := (System.fresh cipher).run [add [97] "" false nonce, forget [97], .apply 1 .ok, .apply 0 .ok]
      System.Reachable true System.anyEvent s ∧ s.tasks = [] ∧ s.inner.slots 0 = none ∧
        ((System.start s.cipher s.nvs true true).inner.slots 0).isSome := by
    intro cipher nonce
    refine ⟨(System.fresh_reachable _ _).run rfl, rfl, rfl, ?_⟩
    exact Option.isSome_of_eq_some (readSlot_put cipher nonce 0 _)
  exact ⟨_, crossed (.new (.replicate 6 0)) (.replicate 12 0)⟩

end EspDevkit.Net.WifiManager
