import EspDevkit.Ui.GestureBrackets

/-!
# Fingers keep the brackets

A node's tracker ends what it opened, whatever its fingers do.
-/

namespace EspDevkit.Ui

open List

variable {Node : Type}

section NodeOk

variable {g : Gestures} {t t' : Tracker Node} {tracker : Option (Tracker Node)} {held : ℕ}
  {log : List Gesture} {looked : Prop}

theorem NodeOk.step {before : Option (Tracker Node)} (ok : NodeOk g before held log looked)
    {held' : ℕ}
    (counted : fingersOf tracker = held') (shaped : ∀ t, tracker = some t → t.Shaped g)
    {events : List Gesture}
    (folds : ∀ bracket : Bracket,
      events.foldlM bracket.follow (opensOf g before bracket) = some (opensOf g tracker bracket)) :
    NodeOk g tracker held' (log ++ events) looked where
  counted := counted
  shaped := shaped
  brackets looked bracket := by
    rw [Bracket.after_append (ok.brackets looked bracket)]
    exact folds bracket

theorem Tracker.Shaped.follow_changed (shaped : t.Shaped g) {e : Gesture}
    (one : t.changed.1 = some e ∨ t.changed.2 = some e) (bracket : Bracket) :
    bracket.follow (t.opens g bracket) e = some (t.opens g bracket) := by
  have either : e = .pan .changed ∧ t.mode = .panning ∧ 0 < t.fingers ∨
      e = .pinch .changed ∧ t.mode = .multi ∧ g.pinch ∨
        e = .rotate .changed ∧ t.mode = .multi ∧ g.rotate := by
    rcases one with first | second
    · exact (shaped.first e first).imp_right .inl
    · exact .inr (.inr (shaped.second e second))
  rcases either with ⟨rfl, mode, some_⟩ | ⟨rfl, mode, some_⟩ | ⟨rfl, mode, some_⟩
  · cases bracket with
    | pan => simp [Bracket.follow, Bracket.phase, Tracker.opens, mode, some_]
    | press => rfl
    | pinch => rfl
    | rotate => rfl
  · cases bracket with
    | pinch => simp [Bracket.follow, Bracket.phase, Tracker.opens, mode, some_]
    | press => rfl
    | pan => rfl
    | rotate => rfl
  · cases bracket with
    | rotate => simp [Bracket.follow, Bracket.phase, Tracker.opens, mode, some_]
    | press => rfl
    | pan => rfl
    | pinch => rfl

theorem Tracker.Shaped.folds_changed (shaped : t.Shaped g) (bracket : Bracket)
    (more : List Gesture) :
    (t.changed.1.toList ++ t.changed.2.toList ++ more).foldlM bracket.follow (t.opens g bracket) =
      more.foldlM bracket.follow (t.opens g bracket) := by
  have first : t.changed.1.toList.foldlM bracket.follow (t.opens g bracket) =
      some (t.opens g bracket) := by
    cases one : t.changed.1 with
    | none => rfl
    | some e =>
      rw [Option.toList_some, foldlM_cons, shaped.follow_changed (.inl one)]
      rfl
  have second : t.changed.2.toList.foldlM bracket.follow (t.opens g bracket) =
      some (t.opens g bracket) := by
    cases one : t.changed.2 with
    | none => rfl
    | some e =>
      rw [Option.toList_some, foldlM_cons, shaped.follow_changed (.inr one)]
      rfl
  rw [foldlM_append, foldlM_append, first]
  change (t.changed.2.toList.foldlM bracket.follow (t.opens g bracket) >>= _) = _
  rw [second]
  rfl

theorem Bracket.folds_plain {bracket : Bracket} {events : List Gesture}
    (plain : ∀ e ∈ events, bracket.phase e = none) (isOpen : Bool) :
    events.foldlM bracket.follow isOpen = some isOpen := by
  induction events with
  | nil => rfl
  | cons e events ih =>
    have one : bracket.follow isOpen e = some isOpen := by
      rw [Bracket.follow, plain e mem_cons_self]
    rw [foldlM_cons, one]
    exact ih fun e member => plain e (mem_cons_of_mem _ member)

theorem Tracker.Shaped.opens_none (shaped : t.Shaped g) (none_ : t.fingers = 0)
    (bracket : Bracket) : t.opens g bracket = false := by
  have mode : t.mode ≠ .multi := by
    rcases shaped.few with ⟨-, two⟩ | ⟨mode, -⟩
    · omega
    · exact mode
  cases bracket <;> simp [Tracker.opens, none_, mode]

theorem Tracker.Shaped.still (shaped : t.Shaped g)
    (mode : t.mode = .single ∨ t.mode = .done ∨ t.fingers = 0) : t.changed = (none, none) := by
  obtain ⟨few, first, second⟩ := shaped
  rcases one : t.changed with ⟨_ | e, _ | e'⟩
  · rfl
  · obtain ⟨-, multi, -⟩ := second e' (by rw [one])
    simp only [multi, reduceCtorEq, true_and, false_or, ne_eq, not_true_eq_false, false_and,
      or_false] at few mode
    omega
  all_goals
    rcases first e (by rw [one]) with ⟨-, panning, some_⟩ | ⟨-, multi, -⟩
    · simp only [panning, reduceCtorEq, false_or] at mode
      omega
    · simp only [multi, reduceCtorEq, true_and, false_or, ne_eq, not_true_eq_false, false_and,
        or_false] at few mode
      omega

def endings (g : Gestures) (t : Tracker Node) : List Gesture :=
  match t.mode with
  | .multi => (if g.pinch then [.pinch .ended] else []) ++
      if g.rotate then [.rotate .ended] else []
  | .panning => [.pan .ended]
  | _ => []

theorem folds_lift (shaped : t.Shaped g)
    (some_ : 0 < t.fingers) (fingers : t'.fingers = t.fingers - 1)
    (mode : t'.mode = if t.mode = .multi then .done else t.mode) (bracket : Bracket) :
    ((if t.fingers - 1 = 0 ∧ g.press then [Gesture.up] else []) ++ endings g t).foldlM
      bracket.follow (t.opens g bracket) = some (t'.opens g bracket) := by
  have few := shaped.few
  have behind (other : bracket ≠ .press) :
      ((if t.fingers - 1 = 0 ∧ g.press then [Gesture.up] else []) ++ endings g t).foldlM
        bracket.follow (t.opens g bracket) =
          (endings g t).foldlM bracket.follow (t.opens g bracket) := by
    have plain : ∀ e ∈ (if t.fingers - 1 = 0 ∧ g.press then [Gesture.up] else []),
        bracket.phase e = none := by
      intro e member
      split at member
      · rw [mem_singleton.mp member]
        cases bracket with
        | press => exact absurd rfl other
        | pan => rfl
        | pinch => rfl
        | rotate => rfl
      · cases member
    rw [foldlM_append, Bracket.folds_plain plain]
    rfl
  cases bracket with
  | press =>
    have plain : ∀ e ∈ endings g t, Bracket.press.phase e = none := by
      intro e member
      unfold endings at member
      cases was : t.mode with
      | multi =>
        rw [was] at member
        rcases mem_append.mp member with pinch | rotate
        · split at pinch
          · rw [mem_singleton.mp pinch]
            rfl
          · cases pinch
        · split at rotate
          · rw [mem_singleton.mp rotate]
            rfl
          · cases rotate
      | panning =>
        rw [was] at member
        rw [mem_singleton.mp member]
        rfl
      | single =>
        rw [was] at member
        cases member
      | done =>
        rw [was] at member
        cases member
    by_cases up : t.fingers - 1 = 0 ∧ g.press
    · rw [if_pos up, foldlM_append]
      change (Bracket.press.follow (t.opens g .press) .up >>= pure) >>= _ = _
      have opened : t.opens g .press = true := by simp [Tracker.opens, up.2, some_]
      have closed : t'.opens g .press = false := by simp [Tracker.opens, fingers, up.1]
      rw [opened, closed]
      exact Bracket.folds_plain plain false
    · rw [if_neg up, nil_append, Bracket.folds_plain plain]
      congr 1
      cases press : g.press with
      | false => simp [Tracker.opens, press]
      | true =>
        have more : t.fingers - 1 ≠ 0 := fun none_ => up ⟨none_, press⟩
        simp [Tracker.opens, press, fingers, some_]
        omega
  | pan =>
    rw [behind nofun]
    cases was : t.mode with
    | panning =>
      rw [was] at few
      simp only [reduceCtorEq, false_and, ne_eq, not_false_eq_true, true_and, false_or] at few
      have none_ : t'.fingers = 0 := by omega
      simp [endings, was, Bracket.follow, Bracket.phase, Tracker.opens, some_, none_]
    | multi =>
      cases pinch : g.pinch <;> cases rotate : g.rotate <;>
        simp [endings, was, mode, pinch, rotate, Bracket.follow, Bracket.phase, Tracker.opens]
    | single => simp [endings, was, mode, Tracker.opens]
    | done => simp [endings, was, mode, Tracker.opens]
  | pinch | rotate =>
    rw [behind nofun]
    cases was : t.mode with
    | multi =>
      cases pinch : g.pinch <;> cases rotate : g.rotate <;>
        simp [endings, was, mode, pinch, rotate, Bracket.follow, Bracket.phase, Tracker.opens]
    | panning => simp [endings, was, mode, Bracket.follow, Bracket.phase, Tracker.opens]
    | single => simp [endings, was, mode, Tracker.opens]
    | done => simp [endings, was, mode, Tracker.opens]

/-- A second finger ends what the first was doing and begins what takes two. -/
theorem folds_join (before : t.mode ≠ .multi)
    (some_ : 0 < t.fingers) (two : 0 < t'.fingers) (mode : t'.mode = .multi) (bracket : Bracket) :
    ((if t.mode = .panning then [Gesture.pan .ended] else []) ++
      ((if g.pinch then some (Gesture.pinch .began) else none).toList ++
        (if g.rotate then some (Gesture.rotate .began) else none).toList)).foldlM bracket.follow
          (t.opens g bracket) = some (t'.opens g bracket) := by
  cases was : t.mode with
  | multi => exact absurd was before
  | panning =>
    cases pinch : g.pinch <;> cases rotate : g.rotate <;> cases bracket <;>
      simp [Bracket.follow, Bracket.phase, Tracker.opens, was, mode, some_, two, pinch, rotate]
  | single =>
    cases pinch : g.pinch <;> cases rotate : g.rotate <;> cases bracket <;>
      simp [Bracket.follow, Bracket.phase, Tracker.opens, was, mode, some_, two, pinch, rotate]
  | done =>
    cases pinch : g.pinch <;> cases rotate : g.rotate <;> cases bracket <;>
      simp [Bracket.follow, Bracket.phase, Tracker.opens, was, mode, some_, two, pinch, rotate]

end NodeOk

variable [DecidableEq Node]

/-- Every node is as it should be; `extra` counts the contacts that are on their way. -/
structure Inv (gesturesOf : Node → Gestures) (looked : Node → Prop) (extra : Node → ℕ)
    (s : Touch Node) : Prop where
  apart : s.Apart
  panicked : s.panicked = false
  nodes : ∀ n, NodeOk (gesturesOf n) (s.trackerOf n) (s.held n + extra n) (s.logOf n) (looked n)

namespace Inv

variable {ui : Nodes Node} {gesturesOf : Node → Gestures} {looked : Node → Prop}
  {extra extra' : Node → ℕ} {s s' : Touch Node} {node : Node} {tracker : Option (Tracker Node)}
  {events : List Gesture}

theorem becomes (inv : Inv gesturesOf looked extra s)
    (change : Touch.Becomes node s s' tracker events)
    (same : ∀ n, n ≠ node → extra' n = extra n)
    (ok : NodeOk (gesturesOf node) (s.trackerOf node) (s.held node + extra node) (s.logOf node)
        (looked node) →
      NodeOk (gesturesOf node) tracker (s.held node + extra' node) (s.logOf node ++ events)
        (looked node)) : Inv gesturesOf looked extra' s' where
  apart := change.apart inv.apart
  panicked := change.panicked.trans inv.panicked
  nodes n := by
    by_cases here : n = node
    · subst here
      rw [change.tracker, change.held, change.log]
      exact ok (inv.nodes n)
    · rw [(change.others n here).1, (change.others n here).2, change.held, same n here]
      exact inv.nodes n

theorem flush (inv : Inv gesturesOf looked extra s) (node : Node) :
    Inv gesturesOf looked extra (s.flush node) := by
  cases found : s.trackerOf node with
  | none =>
    rw [Touch.flush, found]
    exact inv
  | some t =>
    apply inv.becomes (Touch.becomes_start found).flush fun _ _ => rfl
    intro ok
    rw [found] at ok
    have shaped := ok.shaped t rfl
    rw [nil_append]
    apply ok.step
    · exact ok.counted
    · rintro _ ⟨⟩
      exact ⟨shaped.few, (by rintro _ ⟨⟩), (by rintro _ ⟨⟩)⟩
    · intro bracket
      have folds := shaped.folds_changed bracket []
      rw [append_nil] at folds
      rw [opensOf_some, folds]
      cases bracket with
      | press => rfl
      | pan => rfl
      | pinch => rfl
      | rotate => rfl

theorem flushGestures (inv : Inv gesturesOf looked extra s) :
    Inv gesturesOf looked extra s.flushGestures := by
  unfold Touch.flushGestures
  generalize s.trackers.map Tracker.node = nodes
  induction nodes generalizing s with
  | nil => exact inv
  | cons node nodes ih => exact ih (inv.flush node)

theorem some_finger (inv : Inv gesturesOf looked (fun _ => 0) s) {t : Tracker Node}
    (found : s.trackerOf node = some t) (held : 0 < s.held node) : 0 < t.fingers := by
  have counted := (inv.nodes node).counted
  rw [found] at counted
  change t.fingers = s.held node + 0 at counted
  omega

theorem keep (inv : Inv gesturesOf looked extra s) {t t' : Tracker Node}
    (found : s.trackerOf node = some t) (change : Touch.Becomes node s s' (some t') events)
    (fingers : t'.fingers = t.fingers) (shaped : t'.Shaped (gesturesOf node))
    (folds : ∀ bracket : Bracket,
      events.foldlM bracket.follow (t.opens (gesturesOf node) bracket) =
        some (t'.opens (gesturesOf node) bracket)) : Inv gesturesOf looked extra s' := by
  apply inv.becomes change fun _ _ => rfl
  intro ok
  rw [found] at ok
  apply ok.step
  · exact fingers.trans ok.counted
  · rintro _ ⟨⟩
    exact shaped
  · exact folds

theorem gestureMoved (inv : Inv ui.gesturesOf looked (fun _ => 0) s) (contact : Contact Node)
    (member : ∀ node, contact.gesture = some node → 0 < s.held node) :
    Inv ui.gesturesOf looked (fun _ => 0) (s.gestureMoved ui contact) := by
  unfold Touch.gestureMoved
  cases gesture : contact.gesture with
  | none => exact inv
  | some node =>
    dsimp only
    cases found : s.trackerOf node with
    | none => exact inv
    | some t =>
      have some_ := inv.some_finger found (member node gesture)
      have start := Touch.becomes_start found
      have shaped := (inv.nodes node).shaped t found
      dsimp only
      cases mode : t.mode with
      | multi =>
        have change := start.modify
          (fun t => { t with changed := Touch.pinchEvents ui node .changed }) fun _ => rfl
        apply inv.keep found change rfl
        · refine ⟨shaped.few, fun e first => .inr ?_, fun e second => ?_⟩
          · simp only [Touch.pinchEvents] at first
            split at first
            · next pinch => exact ⟨(Option.some.inj first).symm, mode, pinch⟩
            · cases first
          · simp only [Touch.pinchEvents] at second
            split at second
            · next rotate => exact ⟨(Option.some.inj second).symm, mode, rotate⟩
            · cases second
        · intro bracket
          cases bracket <;> rfl
      | panning =>
        have change := start.modify
          (fun t => { t with changed := (some (.pan .changed), t.changed.2) })
            fun _ => rfl
        apply inv.keep found change rfl
        · refine ⟨shaped.few, fun e first => .inl ?_, shaped.second⟩
          exact ⟨(Option.some.inj first).symm, mode, some_⟩
        · intro bracket
          cases bracket <;> rfl
      | single =>
        have still := shaped.still (.inl mode)
        have few := shaped.few
        have pointed := start.modify (fun t => { t with point := contact.last })
          fun _ => rfl
        dsimp only
        split
        · apply inv.keep found pointed rfl ⟨few, shaped.first, shaped.second⟩
          intro bracket
          cases bracket <;> rfl
        · by_cases pans : (ui.gesturesOf node).pan ∧ contact.pan
          · have change := (((pointed.modify
              (fun t => { t with moved := true, mode := .panning }) fun _ => rfl
                ).modifyContact contact.track (fun c => { c with tap := none }) fun _ => rfl
                  ).modifyContact contact.track (fun c => { c with passive := true })
                    fun _ => rfl).emit (.pan .began)
            simp only [if_pos pans, if_pos (Or.inl pans)]
            apply inv.keep found change rfl
            · refine ⟨.inr ⟨nofun, ?_⟩, fun e first => ?_, fun e second => ?_⟩
              · rcases few with ⟨multi, -⟩ | ⟨-, few⟩
                · cases mode.symm.trans multi
                · exact few
              · cases (congrArg Prod.fst still).symm.trans first
              · cases (congrArg Prod.snd still).symm.trans second
            · intro bracket
              cases bracket with
              | pan => simp [Bracket.follow, Bracket.phase, Tracker.opens, mode, some_]
              | press => rfl
              | pinch => simp [Bracket.follow, Bracket.phase, Tracker.opens, mode]
              | rotate => simp [Bracket.follow, Bracket.phase, Tracker.opens, mode]
          · have moved := pointed.modify (fun t => { t with moved := true }) fun _ => rfl
            have done {s' : Touch Node}
                (change : Touch.Becomes node s s' (some
                  { t with point := contact.last, moved := true }) []) :
                Inv ui.gesturesOf looked (fun _ => 0) s' := by
              apply inv.keep found change rfl ⟨few, shaped.first, shaped.second⟩
              intro bracket
              cases bracket <;> rfl
            simp only [if_neg pans]
            split
            · exact done (moved.modifyContact contact.track _ fun _ => rfl)
            · exact done moved
      | done => exact inv

theorem removeTracker (inv : Inv gesturesOf looked extra s) {t : Tracker Node}
    (found : s.trackerOf node = some t) (none_ : t.fingers = 0) :
    Inv gesturesOf looked extra (s.removeTracker node) := by
  apply inv.becomes ((Touch.becomes_start found).removeTracker inv.apart) fun _ _ => rfl
  intro ok
  rw [found] at ok
  have counted : t.fingers = s.held node + extra node := ok.counted
  apply ok.step
  · exact none_.symm.trans counted
  · rintro _ ⟨⟩
  · intro bracket
    rw [opensOf_some, (ok.shaped t rfl).opens_none none_]
    rfl

theorem dropIdle (inv : Inv gesturesOf looked extra s) {t : Tracker Node}
    (found : s.trackerOf node = some t) {fingers : ℕ} (same : t.fingers = fingers) :
    Inv gesturesOf looked extra (s.dropIdle node fingers) := by
  unfold Touch.dropIdle
  dsimp only
  split
  · next idle => exact inv.removeTracker found (same.trans idle.1)
  · exact inv

theorem secondTap_becomes {before s : Touch Node} {t : Tracker Node}
    (change : Touch.Becomes node before s (some t) events)
    (taps : (ui.gesturesOf node).doubleTap) (contact : Contact Node) :
    ∃ waiting more, Touch.Becomes node before (s.secondTap ui node contact)
      (some { t with waiting }) (events ++ more) ∧ (more = [] ∨ more = [.doubleTap]) := by
  have nothing (s : Touch Node) : s.finishTap ui node = s := by
    rw [Touch.finishTap, ui.plain s node taps]
    rfl
  have cleared := change.modify (fun t => { t with waiting := none }) fun _ => rfl
  have waits := cleared.modify
    (fun t =>
      { t with
        waiting := some
          { point := contact.last, leftMs := doubleTapMs, tap := contact.tap = some node } })
    fun _ => rfl
  unfold Touch.secondTap
  rw [change.tracker]
  dsimp only
  cases t.waiting with
  | none =>
    refine ⟨some ⟨contact.last, doubleTapMs, contact.tap = some node⟩, [], ?_, .inl rfl⟩
    rw [append_nil]
    exact waits
  | some first =>
    dsimp only
    by_cases near : distance first.point contact.last ≤ doubleTapReach
    · rw [if_pos near]
      exact ⟨none, _, cleared.emit .doubleTap, .inr rfl⟩
    · rw [if_neg near, nothing, ite_self]
      refine ⟨some ⟨contact.last, doubleTapMs, contact.tap = some node⟩, [], ?_, .inl rfl⟩
      rw [append_nil]
      exact waits

def on (contact : Contact Node) : Node → ℕ := fun n => if contact.gesture = some n then 1 else 0

def Lifted (ui : Nodes Node) (node : Node) (s : Touch Node) (t : Tracker Node)
    (p : Bool × Touch Node) : Prop :=
  ∃ t' more, Touch.Becomes node s p.2 (some t')
    (t.changed.1.toList ++ t.changed.2.toList ++
      ((if t.fingers - 1 = 0 ∧ (ui.gesturesOf node).press then [Gesture.up] else []) ++
        endings (ui.gesturesOf node) t ++ more)) ∧
    (∀ e ∈ more, ∀ bracket : Bracket, bracket.phase e = none) ∧ t'.fingers = t.fingers - 1 ∧
      t'.mode = (if t.mode = .multi then .done else t.mode) ∧ t'.changed = (none, none)

theorem of_lifted {contact : Contact Node} (inv : Inv ui.gesturesOf looked (on contact) s)
    (gesture : contact.gesture = some node) {t : Tracker Node} (found : s.trackerOf node = some t)
    {p : Bool × Touch Node} (lifted : Lifted ui node s t p) :
    Inv ui.gesturesOf looked (fun _ => 0) p.2 ∧
      ∃ t', p.2.trackerOf node = some t' ∧ t'.fingers = t.fingers - 1 := by
  obtain ⟨t', more, change, plain, fingers, mode, changed⟩ := lifted
  refine ⟨?_, t', change.tracker, fingers⟩
  have here : on contact node = 1 := if_pos gesture
  have shaped := (inv.nodes node).shaped t found
  have some_ : 0 < t.fingers := by
    have counted := (inv.nodes node).counted
    rw [found, here] at counted
    change t.fingers = _ at counted
    omega
  apply inv.becomes change
  · intro n away
    refine (if_neg ?_).symm
    rw [gesture]
    exact fun same => away (Option.some.inj same).symm
  · intro ok
    rw [found, here] at ok
    have counted : t.fingers = s.held node + 1 := ok.counted
    apply ok.step
    · change t'.fingers = _
      omega
    · rintro _ ⟨⟩
      refine ⟨.inr ⟨?_, ?_⟩, ?_, ?_⟩
      · rw [mode]
        split
        · nofun
        · assumption
      · rcases shaped.few with ⟨-, two⟩ | ⟨-, one⟩
        · omega
        · omega
      · rw [changed]
        nofun
      · rw [changed]
        nofun
    · intro bracket
      rw [opensOf_some, shaped.folds_changed, foldlM_append,
        folds_lift shaped some_ fingers mode]
      exact Bracket.folds_plain (fun e member => plain e member bracket) _

theorem lifted_endMode {s' : Touch Node} {t : Tracker Node} {front : List Gesture}
    (change : Touch.Becomes node s s'
      (some { t with changed := (none, none), fingers := t.fingers - 1 }) front)
    (front_eq : front = t.changed.1.toList ++ t.changed.2.toList ++
      if t.fingers - 1 = 0 ∧ (ui.gesturesOf node).press then [Gesture.up] else [])
    (contact : Contact Node) : Lifted ui node s t (s'.endMode ui node t contact) := by
  have events (more : List Gesture) : t.changed.1.toList ++ t.changed.2.toList ++
      ((if t.fingers - 1 = 0 ∧ (ui.gesturesOf node).press then [Gesture.up] else []) ++
        endings (ui.gesturesOf node) t ++ more) =
      front ++ endings (ui.gesturesOf node) t ++ more := by
    rw [front_eq]
    simp only [append_assoc]
  unfold Lifted Touch.endMode
  simp only [events]
  unfold endings
  cases mode : t.mode with
  | multi =>
    have ended := (((change.modify (fun t => { t with point := contact.last }) fun _ => rfl
      ).emitSome (Touch.pinchEvents ui node .ended).1).emitSome
        (Touch.pinchEvents ui node .ended).2).modify (fun t => { t with mode := .done })
          fun _ => rfl
    have same : front ++ (Touch.pinchEvents ui node .ended).1.toList ++
        (Touch.pinchEvents ui node .ended).2.toList =
        front ++ ((if (ui.gesturesOf node).pinch then [Gesture.pinch .ended] else []) ++
          if (ui.gesturesOf node).rotate then [.rotate .ended] else []) ++ [] := by
      unfold Touch.pinchEvents
      cases (ui.gesturesOf node).pinch <;> cases (ui.gesturesOf node).rotate <;> simp
    rw [same] at ended
    exact ⟨_, [], ended, (by rintro _ ⟨⟩), rfl, rfl, rfl⟩
  | panning =>
    refine ⟨{ t with changed := (none, none), fingers := t.fingers - 1 }, [], ?_, (by rintro _ ⟨⟩), rfl,
      mode, rfl⟩
    rw [append_nil]
    exact change.emit (.pan .ended)
  | single =>
    dsimp only
    rw [append_nil]
    split
    · next taps =>
        obtain ⟨waiting, more, tapped, plain⟩ := secondTap_becomes change taps.2.1 contact
        refine ⟨{ t with changed := (none, none), fingers := t.fingers - 1, waiting }, more,
          tapped, ?_, rfl, mode, rfl⟩
        rintro e member bracket
        rcases plain with rfl | rfl
        · cases member
        · rw [mem_singleton.mp member]
          cases bracket <;> rfl
    · refine ⟨{ t with changed := (none, none), fingers := t.fingers - 1 }, [], ?_, (by rintro _ ⟨⟩), rfl,
        mode, rfl⟩
      rw [append_nil]
      exact change
  | done =>
    refine ⟨{ t with changed := (none, none), fingers := t.fingers - 1 }, [], ?_, (by rintro _ ⟨⟩), rfl,
      mode, rfl⟩
    rw [append_nil, append_nil]
    exact change

theorem lifted_endSwipe {t : Tracker Node} {p : Bool × Touch Node}
    (lifted : Lifted ui node s t p) (contact : Contact Node) (nowMs : UInt32) :
    Lifted ui node s t (Touch.endSwipe ui node t contact nowMs p) := by
  unfold Touch.endSwipe
  dsimp only
  split
  · obtain ⟨t', more, change, plain, rest⟩ := lifted
    have swiped := change.emit (.swipe (Touch.swipeOf t.start contact.last).1)
    rw [append_assoc, append_assoc _ more] at swiped
    refine ⟨t', _, swiped, ?_, rest⟩
    intro e member bracket
    rcases mem_append.mp member with before | here
    · exact plain e before bracket
    · rw [mem_singleton.mp here]
      cases bracket <;> rfl
  · exact lifted

theorem gestureReleased {contact : Contact Node} (inv : Inv ui.gesturesOf looked (on contact) s)
    (nowMs : UInt32) :
    Inv ui.gesturesOf looked (fun _ => 0) (s.gestureReleased ui contact nowMs).2 := by
  unfold Touch.gestureReleased
  cases gesture : contact.gesture with
  | none =>
    have nowhere : on contact = fun _ => 0 := by
      funext n
      rw [on, gesture]
      rfl
    exact nowhere ▸ inv
  | some node =>
    have here : on contact node = 1 := if_pos gesture
    have counted := (inv.nodes node).counted
    rw [here] at counted
    dsimp only
    cases found : s.trackerOf node with
    | none =>
      rw [found] at counted
      cases counted
    | some t =>
      rw [found] at counted
      have some_ : t.fingers ≠ 0 := fun none_ => Nat.succ_ne_zero _ (counted.symm.trans none_)
      have front := ((Touch.becomes_start found).flush.takeFinger some_).emitIf
        (t.fingers - 1 = 0 ∧ (ui.gesturesOf node).press) .up
      have lifted := lifted_endSwipe (lifted_endMode (t := t) front rfl contact) contact nowMs
      obtain ⟨kept, t', found', fingers⟩ := inv.of_lifted gesture found lifted
      exact kept.dropIdle found' fingers

end Inv

end EspDevkit.Ui
