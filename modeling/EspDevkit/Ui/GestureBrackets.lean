import EspDevkit.Ui.Gestures
import EspDevkit.Library.Transition
import Mathlib.Data.List.Nodup

/-!
# Gestures come in brackets

What a tracker says is open is what was begun and not ended in what its node was told.  A tracker
has as many fingers as there are contacts on its node.
-/

namespace EspDevkit.Ui

open List

inductive Bracket
  | press
  | pan
  | pinch
  | rotate
  deriving DecidableEq, Repr

namespace Bracket

def phase : Bracket → Gesture → Option Phase
  | press, .down => some .began
  | press, .up => some .ended
  | pan, .pan phase => some phase
  | pinch, .pinch phase => some phase
  | rotate, .rotate phase => some phase
  | _, _ => none

/-- Whether a bracket is open after what is reported; `none` where it may not come. -/
def follow (bracket : Bracket) (isOpen : Bool) (gesture : Gesture) : Option Bool :=
  match bracket.phase gesture with
  | none => some isOpen
  | some .began => if isOpen then none else some true
  | some .changed => if isOpen then some true else none
  | some .ended => if isOpen then some false else none

/-- Whether a bracket is open after all that was reported; `none` where something was begun twice,
changed or ended without being open. -/
def after (bracket : Bracket) (log : List Gesture) : Option Bool :=
  log.foldlM bracket.follow false

theorem after_append {bracket : Bracket} {log events : List Gesture} {isOpen : Bool}
    (before : bracket.after log = some isOpen) :
    bracket.after (log ++ events) = events.foldlM bracket.follow isOpen := by
  rw [after] at before
  rw [after, foldlM_append, before]
  rfl

end Bracket

variable {Node : Type}

def Tracker.opens (gestures : Gestures) (t : Tracker Node) : Bracket → Bool
  | .press => gestures.press && 0 < t.fingers
  | .pan => t.mode = .panning && 0 < t.fingers
  | .pinch => gestures.pinch && t.mode = .multi
  | .rotate => gestures.rotate && t.mode = .multi

def opensOf (gestures : Gestures) (tracker : Option (Tracker Node)) (bracket : Bracket) : Bool :=
  tracker.any fun t => t.opens gestures bracket

@[simp] theorem opensOf_some (gestures : Gestures) (t : Tracker Node) (bracket : Bracket) :
    opensOf gestures (some t) bracket = t.opens gestures bracket := rfl

@[simp] theorem opensOf_none (gestures : Gestures) (bracket : Bracket) :
    opensOf gestures (none : Option (Tracker Node)) bracket = false := rfl

def fingersOf (tracker : Option (Tracker Node)) : ℕ := (tracker.map Tracker.fingers).getD 0

structure Tracker.Shaped (gestures : Gestures) (t : Tracker Node) : Prop where
  few : t.mode = .multi ∧ t.fingers = 2 ∨ t.mode ≠ .multi ∧ t.fingers ≤ 1
  first : ∀ e, t.changed.1 = some e → e = .pan .changed ∧ t.mode = .panning ∧ 0 < t.fingers ∨
    e = .pinch .changed ∧ t.mode = .multi ∧ gestures.pinch
  second : ∀ e, t.changed.2 = some e → e = .rotate .changed ∧ t.mode = .multi ∧ gestures.rotate

structure NodeOk (gestures : Gestures) (tracker : Option (Tracker Node)) (held : ℕ)
    (log : List Gesture) (looked : Prop) : Prop where
  counted : fingersOf tracker = held
  shaped : ∀ t, tracker = some t → t.Shaped gestures
  brackets : looked → ∀ bracket : Bracket,
    bracket.after log = some (opensOf gestures tracker bracket)

variable [DecidableEq Node]

namespace Touch

def held (s : Touch Node) (node : Node) : ℕ := s.contacts.countP fun c => c.gesture = some node

def logOf (s : Touch Node) (node : Node) : List Gesture :=
  s.log.filterMap fun e => if e.1 = node then some e.2 else none

end Touch

section Lists

variable {α β : Type} {p q : α → Bool} {f : α → α}

theorem find?_modifyFirst_same (keeps : ∀ a, p a → p (f a)) (list : List α) :
    (modifyFirst p f list).find? p = (list.find? p).map f := by
  induction list with
  | nil => rfl
  | cons a list ih =>
    rw [modifyFirst]
    by_cases here : p a
    · rw [if_pos here, List.find?_cons_of_pos (keeps a here), List.find?_cons_of_pos here]
      rfl
    · rw [if_neg here, List.find?_cons_of_neg here, List.find?_cons_of_neg here, ih]

theorem find?_modifyFirst_other (keeps : ∀ a, p a → q a = false ∧ q (f a) = false)
    (list : List α) : (modifyFirst p f list).find? q = list.find? q := by
  induction list with
  | nil => rfl
  | cons a list ih =>
    rw [modifyFirst]
    by_cases here : p a
    · obtain ⟨before, after⟩ := keeps a here
      have before' : ¬q a := by rw [before]; exact Bool.false_ne_true
      have after' : ¬q (f a) := by rw [after]; exact Bool.false_ne_true
      rw [if_pos here, List.find?_cons_of_neg after', List.find?_cons_of_neg before']
    · rw [if_neg here, List.find?_cons, List.find?_cons, ih]

theorem map_modifyFirst {key : α → β} (keeps : ∀ a, key (f a) = key a) (list : List α) :
    (modifyFirst p f list).map key = list.map key := by
  induction list with
  | nil => rfl
  | cons a list ih =>
    rw [modifyFirst]
    by_cases here : p a
    · rw [if_pos here, map_cons, map_cons, keeps]
    · rw [if_neg here, map_cons, map_cons, ih]

theorem countP_modifyFirst (keeps : ∀ a, q (f a) = q a) (list : List α) :
    (modifyFirst p f list).countP q = list.countP q := by
  induction list with
  | nil => rfl
  | cons a list ih =>
    rw [modifyFirst]
    by_cases here : p a
    · rw [if_pos here, countP_cons, countP_cons, keeps]
    · rw [if_neg here, countP_cons, countP_cons, ih]

theorem countP_modifyFirst_of_find? {a b : α} {list : List α} (found : list.find? p = some a)
    (same : q b = q a) : (modifyFirst p (fun _ => b) list).countP q = list.countP q := by
  induction list with
  | nil => cases found
  | cons a' list ih =>
    rw [modifyFirst]
    by_cases here : p a'
    · rw [List.find?_cons_of_pos here] at found
      cases found
      rw [if_pos here, countP_cons, countP_cons, same]
    · rw [List.find?_cons_of_neg here] at found
      rw [if_neg here, countP_cons, countP_cons, ih found]

end Lists

namespace Touch

variable {s : Touch Node} {node : Node}

theorem trackerOf_node {t : Tracker Node} (found : s.trackerOf node = some t) : t.node = node := by
  have here := List.find?_some found
  exact of_decide_eq_true here

def Apart (s : Touch Node) : Prop := (s.trackers.map Tracker.node).Nodup

theorem trackerOf_iff (apart : s.Apart) {t : Tracker Node} :
    s.trackerOf node = some t ↔ t ∈ s.trackers ∧ t.node = node := by
  constructor
  · intro found
    exact ⟨mem_of_find?_eq_some found, trackerOf_node found⟩
  · rintro ⟨member, rfl⟩
    cases found : s.trackerOf t.node with
    | none =>
      have missing := List.find?_eq_none.mp found t member
      exact absurd (decide_eq_true rfl) missing
    | some t' =>
      have same := trackerOf_node found
      rw [inj_on_of_nodup_map apart (mem_of_find?_eq_some found) member same]

structure Becomes (node : Node) (s s' : Touch Node) (tracker : Option (Tracker Node))
    (events : List Gesture) : Prop where
  apart : s.Apart → s'.Apart
  panicked : s'.panicked = s.panicked
  held : ∀ n, s'.held n = s.held n
  others : ∀ n, n ≠ node → s'.trackerOf n = s.trackerOf n ∧ s'.logOf n = s.logOf n
  tracker : s'.trackerOf node = tracker
  log : s'.logOf node = s.logOf node ++ events

theorem becomes_self : Becomes node s s (s.trackerOf node) [] :=
  ⟨id, rfl, fun _ => rfl, fun _ _ => ⟨rfl, rfl⟩, rfl, (append_nil _).symm⟩

theorem becomes_start {t : Tracker Node} (found : s.trackerOf node = some t) :
    Becomes node s s (some t) [] := found ▸ becomes_self

section Becomes

variable {s' : Touch Node} {tracker : Option (Tracker Node)} {t : Tracker Node}
  {events : List Gesture}

theorem Becomes.emit (before : Becomes node s s' tracker events) (gesture : Gesture) :
    Becomes node s (s'.emit node gesture) tracker (events ++ [gesture]) where
  apart := before.apart
  panicked := before.panicked
  held := before.held
  others n away := by
    refine ⟨(before.others n away).1, Eq.trans ?_ (before.others n away).2⟩
    simp only [logOf, Touch.emit, filterMap_append, filterMap_cons, filterMap_nil,
      if_neg away.symm, append_nil]
  tracker := before.tracker
  log := by
    have log := before.log
    simp only [logOf, Touch.emit, filterMap_append, filterMap_cons, filterMap_nil,
      if_true] at log ⊢
    rw [log, append_assoc]

theorem Becomes.emitSome (before : Becomes node s s' tracker events) (gesture : Option Gesture) :
    Becomes node s (s'.emitSome node gesture) tracker (events ++ gesture.toList) := by
  cases gesture with
  | none =>
    rw [Option.toList_none, append_nil]
    exact before
  | some gesture => exact before.emit gesture

theorem Becomes.modify (before : Becomes node s s' (some t) events)
    (f : Tracker Node → Tracker Node) (keeps : ∀ t, (f t).node = t.node) :
    Becomes node s (s'.modifyTracker node f) (some (f t)) events where
  apart apart := by
    rw [Apart, modifyTracker, map_modifyFirst keeps]
    exact before.apart apart
  panicked := before.panicked
  held := before.held
  others n away := by
    refine ⟨Eq.trans ?_ (before.others n away).1, (before.others n away).2⟩
    apply find?_modifyFirst_other
    intro t here
    have same : t.node = node := of_decide_eq_true here
    rw [keeps, same]
    exact ⟨decide_eq_false away.symm, decide_eq_false away.symm⟩
  tracker := by
    have found := before.tracker
    rw [trackerOf] at found
    rw [trackerOf, modifyTracker, find?_modifyFirst_same, found]
    · rfl
    · intro t here
      rw [keeps]
      exact here
  log := before.log

theorem Becomes.contacts (before : Becomes node s s' tracker events)
    {contacts : List (Contact Node)}
    (same : ∀ n, contacts.countP (fun c => c.gesture = some n) = s'.held n) :
    Becomes node s { s' with contacts } tracker events :=
  ⟨before.apart, before.panicked, fun n => (same n).trans (before.held n), before.others,
    before.tracker, before.log⟩

theorem Becomes.modifyFirst (before : Becomes node s s' tracker events) (p : Contact Node → Bool)
    (f : Contact Node → Contact Node) (keeps : ∀ c, (f c).gesture = c.gesture) :
    Becomes node s { s' with contacts := modifyFirst p f s'.contacts } tracker events := by
  apply before.contacts
  intro n
  apply countP_modifyFirst
  intro c
  rw [keeps]

theorem Becomes.modifyContact (before : Becomes node s s' tracker events) (track : UInt8)
    (f : Contact Node → Contact Node) (keeps : ∀ c, (f c).gesture = c.gesture) :
    Becomes node s (s'.modifyContact track f) tracker events := before.modifyFirst _ f keeps

theorem Becomes.removeTracker (before : Becomes node s s' (some t) events) (apart : s.Apart) :
    Becomes node s (s'.removeTracker node) none events := by
  have apart := before.apart apart
  have member := (trackerOf_iff apart).mp before.tracker
  have place : s'.trackers.findIdx (fun t => t.node = node) < s'.trackers.length :=
    findIdx_lt_length_of_exists ⟨t, member.1, decide_eq_true member.2⟩
  have perm := swapRemove_perm place
  have found := @findIdx_getElem _ (fun t => decide (t.node = node)) s'.trackers place
  have here := of_decide_eq_true found
  have apart' := (perm.map Tracker.node).nodup_iff.mpr apart
  rw [map_cons, here, nodup_cons] at apart'
  obtain ⟨gone, apart'⟩ := apart'
  refine ⟨fun _ => apart', before.panicked, before.held, fun n away => ⟨?_, ?_⟩, ?_, before.log⟩
  · rw [← (before.others n away).1]
    apply Option.ext
    intro t'
    rw [trackerOf_iff apart, @trackerOf_iff _ _ (s'.removeTracker node) n apart']
    refine and_congr_left fun same => ?_
    rw [← perm.mem_iff, mem_cons]
    refine ⟨.inr, fun either => either.resolve_left ?_⟩
    rintro rfl
    exact away (same.symm.trans here)
  · exact (before.others n away).2
  · apply List.find?_eq_none.mpr
    intro t' member' same
    exact gone (mem_map.mpr ⟨t', member', of_decide_eq_true same⟩)

theorem Becomes.push (before : Becomes node s s' none events) (here : t.node = node) :
    Becomes node s { s' with trackers := s'.trackers ++ [t] } (some t) events where
  apart apart := by
    have fresh : node ∉ s'.trackers.map Tracker.node := by
      intro member
      obtain ⟨t', member, same⟩ := mem_map.mp member
      exact List.find?_eq_none.mp before.tracker t' member (decide_eq_true same)
    rw [Apart, map_append, map_singleton, here]
    exact nodup_append_comm.mp (nodup_cons.mpr ⟨fresh, before.apart apart⟩)
  panicked := before.panicked
  held := before.held
  others n away := by
    refine ⟨Eq.trans ?_ (before.others n away).1, (before.others n away).2⟩
    have other : [t].find? (fun t => t.node = n) = none := by
      rw [List.find?_cons_of_neg, List.find?_nil]
      rw [here, decide_eq_true_eq]
      exact away.symm
    rw [trackerOf, List.find?_append, other]
    exact Option.or_none
  tracker := by
    have none_ : s'.trackers.find? (fun t => t.node = node) = none := before.tracker
    rw [trackerOf, List.find?_append, none_, List.find?_cons_of_pos]
    · rfl
    · exact decide_eq_true here
  log := before.log

theorem Becomes.flush (before : Becomes node s s' (some t) events) :
    Becomes node s (s'.flush node) (some { t with changed := (none, none) })
      (events ++ t.changed.1.toList ++ t.changed.2.toList) := by
  rw [Touch.flush, before.tracker]
  have cleared := before.modify (fun t => { t with changed := (none, none) }) fun _ => rfl
  exact (cleared.emitSome t.changed.1).emitSome t.changed.2

theorem Becomes.emitIf (before : Becomes node s s' tracker events) (condition : Prop)
    [Decidable condition] (gesture : Gesture) :
    Becomes node s (if condition then s'.emit node gesture else s') tracker
      (events ++ if condition then [gesture] else []) := by
  split
  · exact before.emit gesture
  · rw [append_nil]
    exact before

theorem Becomes.takeFinger (before : Becomes node s s' (some t) events) {fingers : ℕ}
    (some_ : fingers ≠ 0) :
    Becomes node s (s'.takeFinger node fingers) (some { t with fingers := fingers - 1 })
      events := by
  have taken := before.modify (fun t => { t with fingers := fingers - 1 }) fun _ => rfl
  have calm : (decide (s'.panicked = true ∨ fingers = 0)) = s'.panicked := by
    simp only [some_, or_false, Bool.decide_eq_true]
  exact ⟨taken.apart, calm.trans taken.panicked, taken.held, taken.others, taken.tracker, taken.log⟩

end Becomes

end Touch

end EspDevkit.Ui
