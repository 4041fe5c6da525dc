import EspDevkit.Library.Transition
import EspDevkit.Ui.Slots

/-!
# Messages reach the component they were made for

A slot is named wherever the tree keeps it together with a message: in the
queue, in a render request, in the event maps and by the components whose view
is being built.
-/

namespace EspDevkit.Ui

open Transition List

namespace Tree

def named (t : Tree) : List (ℕ × Erased) :=
  t.queue ++ t.renderRequest.toList ++
    ((t.slots.filterMap Slot.events).map fun map => (map.parent, map.message)) ++
      t.building.map fun b => (b.1, b.2.erase)

def Holds (t : Tree) (slot : ℕ) (h : Host) : Prop :=
  t.slots[slot]?.bind Slot.host = some h ∨ (slot, h) ∈ t.building

/-- Everything named is a message of the component in the slot. -/
def Addressed (t : Tree) : Prop :=
  ∀ slot msg, (slot, msg) ∈ t.named → ∀ h, t.Holds slot h → h.erase = msg

def Takes (t : Tree) : Edit → Prop
  | .place _ _ _ => ∀ name ∈ t.named, name.1 ≠ t.allocSlot
  | _ => True

instance (t : Tree) (e : Edit) : Decidable (t.Takes e) := by
  cases e <;> unfold Takes <;> infer_instance

variable {t : Tree} {h : Host}

theorem mem_named {name : ℕ × Erased} :
    name ∈ t.named ↔
      name ∈ t.queue ∨ t.renderRequest = some name ∨
        (∃ s ∈ t.slots, ∃ map, s.events = some map ∧ (map.parent, map.message) = name) ∨
          ∃ b ∈ t.building, (b.1, b.2.erase) = name := by
  simp only [named, mem_append, mem_map, mem_filterMap, Option.mem_toList, or_assoc]
  constructor
  · rintro (queued | asked | ⟨map, ⟨s, inTree, mapped⟩, same⟩ | built)
    · exact .inl queued
    · exact .inr (.inl asked)
    · exact .inr (.inr (.inl ⟨s, inTree, map, mapped, same⟩))
    · exact .inr (.inr (.inr built))
  · rintro (queued | asked | ⟨s, inTree, map, mapped, same⟩ | built)
    · exact .inl queued
    · exact .inr (.inl asked)
    · exact .inr (.inr (.inl ⟨map, ⟨s, inTree, mapped⟩, same⟩))
    · exact .inr (.inr (.inr built))

theorem named_of_built {slot : ℕ} (built : (slot, h) ∈ t.building) :
    (slot, h.erase) ∈ t.named :=
  mem_named.mpr (.inr (.inr (.inr ⟨_, built, rfl⟩)))

theorem named_of_eventMap {owner : ℕ} {map : EventMap}
    (mapped : t.eventMap owner = some map) : (map.parent, map.message) ∈ t.named := by
  simp only [eventMap, Option.map_eq_some_iff] at mapped
  obtain ⟨⟨slot, h⟩, found, rfl⟩ := mapped
  have own := List.find?_some found
  have built := mem_of_find?_eq_some found
  simp only [decide_eq_true_eq] at own
  subst own
  exact named_of_built built

theorem holds_of_component {slot : ℕ} (has : t.component slot = some h) :
    t.Holds slot h := by
  unfold component at has
  split at has
  · next found =>
      cases has
      exact .inl found
  · simp only [Option.map_eq_some_iff] at has
    obtain ⟨⟨slot', h'⟩, found, rfl⟩ := has
    have own := List.find?_some found
    simp only [decide_eq_true_eq] at own
    subst own
    exact .inr (mem_of_find?_eq_some found)

theorem Addressed.same (addressed : t.Addressed) {slot : ℕ} {other : Host}
    (holds : t.Holds slot h) (holdsOther : t.Holds slot other) : other.erase = h.erase := by
  rcases holds with inSlot | built
  · rcases holdsOther with inSlot' | built'
    · rw [inSlot] at inSlot'
      cases inSlot'
      rfl
    · exact (addressed slot other.erase (named_of_built built') h (.inl inSlot)).symm
  · exact addressed slot h.erase (named_of_built built) other holdsOther

theorem Addressed.fewer {t' : Tree} (addressed : t.Addressed)
    (named : ∀ name ∈ t'.named, name ∈ t.named)
    (holds : ∀ slot h, t'.Holds slot h → t.Holds slot h) : t'.Addressed := by
  intro slot msg inNamed h holdsIt
  exact addressed slot msg (named _ inNamed) h (holds slot h holdsIt)

theorem Addressed.more {t' : Tree} (addressed : t.Addressed) {slot : ℕ}
    (has : t.Holds slot h)
    (named : ∀ name ∈ t'.named, name ∈ t.named ∨ name = (slot, h.erase))
    (holds : ∀ slot h, t'.Holds slot h → t.Holds slot h) : t'.Addressed := by
  intro slot' msg inNamed other holdsIt
  rcases named _ inNamed with old | new
  · exact addressed slot' msg old other (holds slot' other holdsIt)
  · cases new
    exact addressed.same has (holds slot other holdsIt)

theorem slot_modify {slots : List Slot} {slot i : ℕ} {change : Slot → Slot} {s : Slot}
    (found : (slots.modify slot change)[i]? = some s) :
    slots[i]? = some s ∨ ∃ old, slots[slot]? = some old ∧ i = slot ∧ s = change old := by
  rw [List.getElem?_modify] at found
  obtain ⟨old, foundOld, same⟩ := Option.map_eq_some_iff.mp found
  split at same
  · next here =>
      subst here
      exact .inr ⟨old, foundOld, rfl, same.symm⟩
  · exact .inl (by rw [foundOld]; simpa using same)

theorem host_eq {slot : ℕ} :
    t.slots[slot]?.bind Slot.host = some h ↔ ∃ s, t.slots[slot]? = some s ∧ s.host = some h :=
  Option.bind_eq_some_iff

theorem Addressed.modify (addressed : t.Addressed) {slot : ℕ} {change : Slot → Slot}
    (events : ∀ s map, (change s).events = some map → s.events = some map ∨
      (map.parent, map.message) ∈ t.named)
    (host : ∀ s h, (change s).host = some h → s.host = some h ∨ (slot, h) ∈ t.building) :
    Addressed { t with slots := t.slots.modify slot change } := by
  apply addressed.fewer
  · intro name inNamed
    rw [mem_named] at inNamed
    rcases inNamed with queued | asked | ⟨s, inTree, map, mapped, same⟩ | built
    · exact mem_named.mpr (.inl queued)
    · exact mem_named.mpr (.inr (.inl asked))
    · obtain ⟨i, found⟩ := List.getElem?_of_mem inTree
      rcases slot_modify found with old | ⟨old, foundOld, -, rfl⟩
      · exact mem_named.mpr (.inr (.inr (.inl ⟨s, mem_of_getElem? old, map, mapped, same⟩)))
      · rcases events old map mapped with before | there
        · have inOld := mem_of_getElem? foundOld
          exact mem_named.mpr (.inr (.inr (.inl ⟨old, inOld, map, before, same⟩)))
        · exact same ▸ there
    · exact mem_named.mpr (.inr (.inr (.inr built)))
  · rintro i h (inSlot | built)
    · obtain ⟨s, found, hosted⟩ := host_eq.mp inSlot
      rcases slot_modify found with old | ⟨old, foundOld, rfl, rfl⟩
      · exact .inl (host_eq.mpr ⟨s, old, hosted⟩)
      · rcases host old h hosted with before | built
        · exact .inl (host_eq.mpr ⟨old, foundOld, before⟩)
        · exact .inr built
    · exact .inr built

theorem Addressed.place (addressed : t.Addressed) {host : Host} {node : ℕ}
    {owner : Option ℕ} (unnamed : ∀ name ∈ t.named, name.1 ≠ t.allocSlot) :
    (t.place host node owner).Addressed := by
  have named : ∀ name ∈ (t.place host node owner).named, name ∈ t.named := by
    intro name inNamed
    rw [mem_named] at inNamed
    rcases inNamed with queued | asked | ⟨s, inTree, map, mapped, same⟩ | built
    · exact mem_named.mpr (.inl queued)
    · exact mem_named.mpr (.inr (.inl asked))
    · rcases mem_or_eq_of_mem_set inTree with old | rfl
      · have kept : s ∈ t.slots := by
          split at old
          · exact old
          · rcases mem_append.mp old with inSlots | fresh
            · exact inSlots
            · simp only [mem_singleton] at fresh
              simp [fresh] at mapped
        exact mem_named.mpr (.inr (.inr (.inl ⟨s, kept, map, mapped, same⟩)))
      · obtain ⟨i, -, mappedBy⟩ := Option.bind_eq_some_iff.mp mapped
        exact same ▸ named_of_eventMap mappedBy
    · exact mem_named.mpr (.inr (.inr (.inr built)))
  intro slot msg inNamed h holds
  have old := named _ inNamed
  have other : slot ≠ t.allocSlot := unnamed _ old
  apply addressed slot msg old h
  rcases holds with inSlot | built
  · obtain ⟨s, found, hosted⟩ := host_eq.mp inSlot
    simp only [Tree.place] at found
    rw [List.getElem?_set_ne other.symm] at found
    split at found
    · exact .inl (host_eq.mpr ⟨s, found, hosted⟩)
    · rcases Nat.lt_or_ge slot t.slots.length with inside | outside
      · rw [List.getElem?_append_left inside] at found
        exact .inl (host_eq.mpr ⟨s, found, hosted⟩)
      · -- The slot that was just added has no component.
        have fresh := mem_of_getElem? ((List.getElem?_append_right outside) ▸ found)
        simp only [mem_singleton] at fresh
        simp [fresh] at hosted
  · exact .inr built

theorem Addressed.updateChild (addressed : t.Addressed) {slot owner : ℕ} :
    (t.updateChild slot owner).Addressed := by
  apply addressed.modify
  · intro s map mapped
    exact .inr (named_of_eventMap mapped)
  · intro s h hosted
    exact .inl hosted

theorem Addressed.freeSlot (addressed : t.Addressed) {slot : ℕ} :
    (t.freeSlot slot).Addressed := by
  apply addressed.modify
  · intro s map mapped
    simp at mapped
  · intro s h hosted
    simp at hosted

theorem Addressed.takeHost (addressed : t.Addressed) {slot : ℕ} :
    (t.takeHost slot).Addressed := by
  apply addressed.modify
  · intro s map mapped
    exact .inl mapped
  · intro s h hosted
    simp at hosted

theorem Addressed.buildBegin (addressed : t.Addressed) {slot : ℕ} :
    (t.buildBegin slot).Addressed := by
  unfold Tree.buildBegin
  split
  · exact addressed
  · next h inSlot =>
      apply addressed.more (.inl inSlot)
      · intro name inNamed
        rcases mem_named.mp inNamed with
          queued | asked | ⟨s, inTree, map, mapped, same⟩ | ⟨b, built, same⟩
        · exact .inl (mem_named.mpr (.inl queued))
        · exact .inl (mem_named.mpr (.inr (.inl asked)))
        · obtain ⟨i, found⟩ := List.getElem?_of_mem inTree
          rcases slot_modify found with old | ⟨old, foundOld, -, rfl⟩
          · have inOld := mem_of_getElem? old
            exact .inl (mem_named.mpr (.inr (.inr (.inl ⟨s, inOld, map, mapped, same⟩))))
          · have inOld := mem_of_getElem? foundOld
            exact .inl (mem_named.mpr (.inr (.inr (.inl ⟨old, inOld, map, mapped, same⟩))))
        · rcases mem_cons.mp built with rfl | old
          · exact .inr same.symm
          · exact .inl (same ▸ named_of_built old)
      · rintro i other (inSlot' | built)
        · obtain ⟨s, found, hosted⟩ := host_eq.mp inSlot'
          rcases slot_modify found with old | ⟨old, -, -, rfl⟩
          · exact .inl (host_eq.mpr ⟨s, old, hosted⟩)
          · simp at hosted
        · rcases mem_cons.mp built with new | old
          · cases new
            exact .inl inSlot
          · exact .inr old

theorem Addressed.buildEnd (addressed : t.Addressed) : t.buildEnd.Addressed := by
  unfold Tree.buildEnd
  split
  · exact addressed
  · next slot h building built =>
      have put : Addressed
          { t with slots := t.slots.modify slot fun s => { s with host := some h } } := by
        apply addressed.modify
        · intro s map mapped
          exact .inl mapped
        · intro s other hosted
          simp only [Option.some.injEq] at hosted
          subst hosted
          exact .inr (by simp [built])
      apply put.fewer
      · intro name inNamed
        rcases mem_named.mp inNamed with queued | asked | mapped | ⟨b, stillBuilt, same⟩
        · exact mem_named.mpr (.inl queued)
        · exact mem_named.mpr (.inr (.inl asked))
        · exact mem_named.mpr (.inr (.inr (.inl mapped)))
        · have before : b ∈ t.building := built ▸ mem_cons_of_mem _ stillBuilt
          exact mem_named.mpr (.inr (.inr (.inr ⟨b, before, same⟩)))
      · rintro i other (inSlot | stillBuilt)
        · exact .inl inSlot
        · exact .inr (built ▸ mem_cons_of_mem _ stillBuilt)

theorem Addressed.send (addressed : t.Addressed) {slot : ℕ} :
    (t.send slot).Addressed := by
  unfold Tree.send
  split
  · exact addressed
  · next h has =>
      apply addressed.more (holds_of_component has)
      · intro name inNamed
        rcases mem_named.mp inNamed with queued | other
        · rcases mem_append.mp queued with old | new
          · exact .inl (mem_named.mpr (.inl old))
          · exact .inr (mem_singleton.mp new)
        · exact .inl (mem_named.mpr (.inr other))
      · intro i other holds
        exact holds

theorem Addressed.emit (addressed : t.Addressed) {slot : ℕ} :
    (t.emit slot).Addressed := by
  unfold Tree.emit
  split
  · exact addressed
  · next map mapped =>
      apply addressed.fewer
      · intro name inNamed
        rcases mem_named.mp inNamed with queued | other
        · rcases mem_append.mp queued with old | new
          · exact mem_named.mpr (.inl old)
          · obtain ⟨s, found, events⟩ := Option.bind_eq_some_iff.mp mapped
            have inTree := mem_of_getElem? found
            have same := (mem_singleton.mp new).symm
            exact mem_named.mpr (.inr (.inr (.inl ⟨s, inTree, map, events, same⟩)))
        · exact mem_named.mpr (.inr other)
      · intro i other holds
        exact holds

theorem Addressed.setRenderMode (addressed : t.Addressed) {slot : ℕ} :
    (t.setRenderMode slot).Addressed := by
  unfold Tree.setRenderMode
  split
  · exact addressed
  · next h has =>
      apply addressed.more (holds_of_component has)
      · intro name inNamed
        rcases mem_named.mp inNamed with queued | asked | other
        · exact .inl (mem_named.mpr (.inl queued))
        · exact .inr (Option.some.inj asked).symm
        · exact .inl (mem_named.mpr (.inr (.inr other)))
      · intro i other holds
        exact holds

theorem Addressed.renderDone (addressed : t.Addressed) : t.renderDone.Addressed := by
  unfold Tree.renderDone
  split
  · exact addressed
  · next slot done asked =>
      apply addressed.fewer
      · intro name inNamed
        rcases mem_named.mp inNamed with queued | none | other
        · rcases mem_append.mp queued with old | new
          · exact mem_named.mpr (.inl old)
          · exact mem_named.mpr (.inr (.inl (mem_singleton.mp new ▸ asked)))
        · cases none
        · exact mem_named.mpr (.inr (.inr other))
      · intro i other holds
        exact holds

theorem Addressed.pop (addressed : t.Addressed) : t.pop.Addressed := by
  apply addressed.fewer
  · intro name inNamed
    rcases mem_named.mp inNamed with queued | other
    · exact mem_named.mpr (.inl (mem_of_mem_tail queued))
    · exact mem_named.mpr (.inr other)
  · intro i other holds
    exact holds

theorem Addressed.edit (addressed : t.Addressed) {e : Edit} (takes : t.Takes e) :
    (t.edit e).Addressed := by
  cases e with
  | place host node owner => exact addressed.place takes
  | updateChild slot owner => exact addressed.updateChild
  | freeSlot slot => exact addressed.freeSlot
  | takeHost slot => exact addressed.takeHost
  | buildBegin slot => exact addressed.buildBegin
  | buildEnd => exact addressed.buildEnd
  | send slot => exact addressed.send
  | emit slot => exact addressed.emit
  | setRenderMode slot => exact addressed.setRenderMode
  | renderDone => exact addressed.renderDone
  | pop => exact addressed.pop

def TakingRun (t : Tree) : List Edit → Prop
  | [] => True
  | e :: edits => t.Takes e ∧ (t.edit e).TakingRun edits

instance decidableTakingRun (t : Tree) : (edits : List Edit) → Decidable (t.TakingRun edits)
  | [] => .isTrue trivial
  | e :: edits =>
    have := decidableTakingRun (t.edit e) edits
    inferInstanceAs (Decidable (t.Takes e ∧ (t.edit e).TakingRun edits))

theorem Addressed.run (addressed : t.Addressed) {edits : List Edit}
    (taking : t.TakingRun edits) : (t.run edits).Addressed := by
  induction edits generalizing t with
  | nil => exact addressed
  | cons e edits ih => exact ih (addressed.edit taking.1) taking.2

theorem addressed_new : ({} : Tree).Addressed := by
  intro slot msg inNamed
  simp [named] at inNamed

end Tree

def reopening : List Edit :=
  [.place { id := 1, msg := 1 } 1 none, .place { id := 2, msg := 2 } 2 none, .send 1, .send 1, .pop,
    .takeHost 1, .freeSlot 1, .place { id := 3, msg := 3 } 2 none]

def emptied : List Edit :=
  [.place { id := 1, msg := 1 } 1 none, .place { id := 2, msg := 2 } 2 none, .send 1, .pop,
    .takeHost 1, .freeSlot 1, .place { id := 3, msg := 3 } 2 none, .send 1]

end EspDevkit.Ui
