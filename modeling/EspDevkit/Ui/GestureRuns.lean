import EspDevkit.Ui.GestureInvariant

/-!
# Gestures over whole runs

Every move of the tree keeps a node's brackets, but for a turn of the screen: it forgets what is
open without ending it.
-/

namespace EspDevkit.Ui

open List

variable {Node : Type} [DecidableEq Node]

namespace Touch

variable {ui : Nodes Node}

theorem trackerOf_forget (s : Touch Node) (freed : Node) :
    (s.forget freed).trackerOf freed = none := by
  apply List.find?_eq_none.mpr
  intro t member same
  have other := of_decide_eq_true (mem_filter.mp member).2
  exact other (of_decide_eq_true same)

theorem trackerOf_forget_other (s : Touch Node) {freed n : Node} (away : n ≠ freed) :
    (s.forget freed).trackerOf n = s.trackerOf n := by
  change (s.trackers.filter fun t => t.node ≠ freed).find? (fun t => t.node = n) = _
  rw [List.find?_filter]
  congr 1
  funext t
  by_cases same : t.node = n
  · simp [same, away]
  · simp [same]

theorem held_forget (s : Touch Node) (freed n : Node) :
    (s.forget freed).held n = if n = freed then 0 else s.held n := by
  change (s.contacts.map _).countP _ = _
  rw [countP_map]
  split
  · next here =>
      apply countP_eq_zero.mpr
      intro c _ same
      simp only [Function.comp_apply, here, decide_eq_true_eq] at same
      split at same
      · cases same
      · contradiction
  · next away =>
      change _ = s.contacts.countP _
      congr 1
      funext c
      simp only [Function.comp_apply]
      by_cases was : c.gesture = some freed
      · have other : some freed ≠ some n := fun same => away (Option.some.inj same).symm
        rw [if_pos was, was]
        simp [other]
      · rw [if_neg was]

theorem logOf_forget (s : Touch Node) (freed n : Node) :
    (s.forget freed).logOf n = if n = freed then [] else s.logOf n := by
  change (s.log.filter _).filterMap _ = _
  rw [filterMap_filter]
  split
  · next here =>
      apply filterMap_eq_nil_iff.mpr
      intro e _
      by_cases same : e.1 = freed
      · simp [same]
      · simp [same, here]
  · next away =>
      change _ = s.log.filterMap _
      congr 1
      funext e
      by_cases same : e.1 = freed
      · simp [same, Ne.symm away]
      · simp [same]

omit [DecidableEq Node] in
theorem emitPinch_contacts (s : Touch Node) (contacts : List (Contact Node)) (node : Node)
    (phase : Phase) :
    Touch.emitPinch ui node phase { s with contacts } =
      { s.emitPinch ui node phase with contacts } := by
  unfold Touch.emitPinch
  rcases Touch.pinchEvents ui node phase with ⟨_ | _, _ | _⟩ <;> rfl

omit [DecidableEq Node] in
theorem contacts_emitPinch (s : Touch Node) (node : Node) (phase : Phase) :
    (s.emitPinch ui node phase).contacts = s.contacts := by
  unfold Touch.emitPinch
  rcases Touch.pinchEvents ui node phase with ⟨_ | _, _ | _⟩ <;> rfl

end Touch

namespace Inv

variable {ui : Nodes Node} {gesturesOf : Node → Gestures} {looked : Node → Prop}
  {extra extra' : Node → ℕ} {s s' : Touch Node} {node : Node} {tracker : Option (Tracker Node)}
  {events : List Gesture}

theorem forget (inv : Inv gesturesOf looked (fun _ => 0) s) (freed : Node) :
    Inv gesturesOf looked (fun _ => 0) (s.forget freed) where
  apart := inv.apart.sublist (List.Sublist.map _ filter_sublist)
  panicked := inv.panicked
  nodes n := by
    rw [Touch.held_forget, Touch.logOf_forget]
    by_cases here : n = freed
    · subst here
      rw [Touch.trackerOf_forget, if_pos rfl, if_pos rfl]
      refine ⟨rfl, ?_, fun _ _ => rfl⟩
      rintro _ ⟨⟩
    · rw [Touch.trackerOf_forget_other s here, if_neg here, if_neg here]
      exact inv.nodes n

theorem finishTap (inv : Inv ui.gesturesOf looked (fun _ => 0) s) (node : Node) :
    Inv ui.gesturesOf looked (fun _ => 0) (s.finishTap ui node) := by
  unfold Touch.finishTap
  generalize ui.closes s node = freed
  induction freed generalizing s with
  | nil => exact inv
  | cons id freed ih => exact ih (inv.forget id)

theorem keep_plain (inv : Inv gesturesOf looked extra s) {t t' : Tracker Node}
    (found : s.trackerOf node = some t) (change : Touch.Becomes node s s' (some t') events)
    (fingers : t'.fingers = t.fingers) (mode : t'.mode = t.mode) (changed : t'.changed = t.changed)
    (plain : ∀ e ∈ events, ∀ bracket : Bracket, bracket.phase e = none) :
    Inv gesturesOf looked extra s' := by
  have shaped := (inv.nodes node).shaped t found
  apply inv.keep found change fingers
  · refine ⟨?_, ?_, ?_⟩
    · rw [fingers, mode]
      exact shaped.few
    · rw [fingers, mode, changed]
      exact shaped.first
    · rw [mode, changed]
      exact shaped.second
  · intro bracket
    have same : t'.opens (gesturesOf node) bracket = t.opens (gesturesOf node) bracket := by
      cases bracket <;> simp only [Tracker.opens, fingers, mode]
    rw [same]
    exact Bracket.folds_plain (fun e member => plain e member bracket) _

theorem tickHold (inv : Inv ui.gesturesOf looked (fun _ => 0) s) {t : Tracker Node}
    (found : s.trackerOf node = some t) (dtMs : ℕ) :
    Inv ui.gesturesOf looked (fun _ => 0) (s.tickHold ui node t dtMs) := by
  unfold Touch.tickHold
  dsimp only
  split
  · next holding =>
      obtain ⟨⟨-, mode, -⟩, -⟩ := holding
      have shaped := (inv.nodes node).shaped t found
      have changed := shaped.still (.inl mode)
      have held := (Touch.becomes_start found).modify
        (fun t => { t with heldMs := t.heldMs + dtMs }) fun _ => rfl
      split
      · have pressed := (held.modify (fun t => { t with mode := .done, waiting := none })
          fun _ => rfl).emit .longPress
        have change := pressed.modifyFirst (fun c => c.gesture = some node)
          (fun c => { c with tap := none, passive := true }) fun _ => rfl
        apply inv.keep found change rfl
        · refine ⟨.inr ⟨(by rintro ⟨⟩), ?_⟩, ?_, ?_⟩
          · rcases shaped.few with ⟨multi, -⟩ | ⟨-, few⟩
            · cases mode.symm.trans multi
            · exact few
          · intro e first
            cases (congrArg Prod.fst changed).symm.trans first
          · intro e second
            cases (congrArg Prod.snd changed).symm.trans second
        · intro bracket
          cases bracket <;> simp [Bracket.follow, Bracket.phase, Tracker.opens, mode]
      · exact inv.keep_plain found held rfl rfl rfl (by rintro _ ⟨⟩)
  · exact inv

theorem tickWaiting (inv : Inv ui.gesturesOf looked (fun _ => 0) s) (node : Node)
    (dtMs : ℕ) : Inv ui.gesturesOf looked (fun _ => 0) (s.tickWaiting ui node dtMs) := by
  unfold Touch.tickWaiting
  cases found : s.trackerOf node with
  | none => exact inv
  | some t =>
    have start := Touch.becomes_start found
    rw [Option.bind_some]
    cases t.waiting with
    | none => exact inv
    | some waiting =>
      dsimp only
      split
      · have cleared := inv.keep_plain found
          (start.modify (fun t => { t with waiting := none }) fun _ => rfl) rfl rfl rfl (by rintro _ ⟨⟩)
        split
        · exact cleared.finishTap node
        · exact cleared
      · exact inv.keep_plain found (start.modify _ fun _ => rfl) rfl rfl rfl (by rintro _ ⟨⟩)

theorem tickTracker (inv : Inv ui.gesturesOf looked (fun _ => 0) s) (node : Node)
    (dtMs : ℕ) : Inv ui.gesturesOf looked (fun _ => 0) (s.tickTracker ui node dtMs) := by
  unfold Touch.tickTracker
  cases found : s.trackerOf node with
  | none => exact inv
  | some t => exact (inv.tickHold found dtMs).tickWaiting node dtMs

theorem tickLoop (dtMs rounds index : ℕ)
    (inv : Inv ui.gesturesOf looked (fun _ => 0) s) :
    Inv ui.gesturesOf looked (fun _ => 0) (s.tickLoop ui dtMs rounds index) := by
  induction rounds generalizing s index with
  | zero => exact inv
  | succ rounds ih =>
    unfold Touch.tickLoop
    cases s.trackers[index]? with
    | none => exact inv
    | some tracker =>
      have ticked := inv.tickTracker tracker.node dtMs
      dsimp only
      split
      · next done =>
          obtain ⟨t, found, idle⟩ := (Option.any_eq_true _ _).mp done
          exact ih _ (ticked.removeTracker found (of_decide_eq_true idle).1)
      · exact ih _ ticked

theorem tickGestures (inv : Inv ui.gesturesOf looked (fun _ => 0) s) (dtMs : ℕ) :
    Inv ui.gesturesOf looked (fun _ => 0) (s.tickGestures ui dtMs) :=
  inv.tickLoop dtMs _ _

variable {contact : Contact Node}

theorem push (inv : Inv gesturesOf looked (on contact) s) :
    Inv gesturesOf looked (fun _ => 0) { s with contacts := s.contacts ++ [contact] } where
  apart := inv.apart
  panicked := inv.panicked
  nodes n := by
    have held : Touch.held { s with contacts := s.contacts ++ [contact] } n =
        s.held n + on contact n := by
      rw [Touch.held, countP_append, countP_singleton, on]
      simp only [decide_eq_true_eq]
      rfl
    rw [held]
    exact inv.nodes n

theorem take (inv : Inv gesturesOf looked (fun _ => 0) s) {i : ℕ}
    (found : s.contacts[i]? = some contact) :
    Inv gesturesOf looked (on contact) { s with contacts := swapRemove s.contacts i } where
  apart := inv.apart
  panicked := inv.panicked
  nodes n := by
    obtain ⟨place, rfl⟩ := List.getElem?_eq_some_iff.mp found
    have held : s.held n = Touch.held { s with contacts := swapRemove s.contacts i } n +
        on s.contacts[i] n := by
      rw [Touch.held, ← (swapRemove_perm place).countP_eq, countP_cons, on]
      simp only [decide_eq_true_eq]
      rfl
    rw [← held]
    exact inv.nodes n

theorem joinGesture (inv : Inv ui.gesturesOf looked (fun _ => 0) s) (node : Node) (track : UInt8)
    (point : Point) :
    ((s.joinGesture ui node track point).1 = false →
      Inv ui.gesturesOf looked (fun _ => 0) (s.joinGesture ui node track point).2) ∧
    ((s.joinGesture ui node track point).1 = true →
      ((s.joinGesture ui node track point).2.trackerOf node).isSome ∧
      ∀ contact : Contact Node, contact.gesture = some node →
        Inv ui.gesturesOf looked (on contact)
          ((s.joinGesture ui node track point).2.emitPinch ui node .began)) := by
  unfold Touch.joinGesture
  cases found : s.trackerOf node with
  | none => exact ⟨fun _ => inv, (by rintro ⟨⟩)⟩
  | some t =>
    dsimp only
    split
    · exact ⟨fun _ => inv, (by rintro ⟨⟩)⟩
    · next takes =>
        have one : t.fingers = 1 := not_not.mp fun other => takes (.inl other)
        have shaped := (inv.nodes node).shaped t found
        have before : t.mode ≠ .multi := by
          rcases shaped.few with ⟨-, two⟩ | ⟨before, -⟩
          · omega
          · exact before
        split
        · refine ⟨(by rintro ⟨⟩), fun _ => ?_⟩
          have joined := (((Touch.becomes_start found).flush.modifyContact t.tracks.1
            (fun c =>
              { c with tap := none, scroller := none, dragging := false, passive := true })
            fun _ => rfl).emitIf (t.mode = .panning) (.pan .ended)).modify
              (fun t =>
                { t with
                  fingers := 2
                  tracks := (t.tracks.1, track)
                  mode := .multi
                  waiting := none
                  point }) fun _ => rfl
          refine ⟨by rw [joined.tracker]; rfl, fun contact gesture => ?_⟩
          have change := (joined.emitSome (Touch.pinchEvents ui node .began).1).emitSome
            (Touch.pinchEvents ui node .began).2
          have here : on contact node = 1 := if_pos gesture
          apply inv.becomes change
          · intro n away
            apply if_neg
            rw [gesture]
            exact fun same => away (Option.some.inj same).symm
          · intro ok
            rw [found] at ok
            have counted : t.fingers = s.held node + 0 := ok.counted
            rw [here]
            apply ok.step
            · change 2 = _
              omega
            · rintro _ ⟨⟩
              exact ⟨.inl ⟨rfl, rfl⟩, (by rintro _ ⟨⟩), (by rintro _ ⟨⟩)⟩
            · intro bracket
              rw [opensOf_some, nil_append, append_assoc, append_assoc,
                shaped.folds_changed]
              exact folds_join before (by omega) Nat.two_pos rfl bracket
        · exact ⟨fun _ => inv.flush node, (by rintro ⟨⟩)⟩

theorem gesturePressed (inv : Inv ui.gesturesOf looked (fun _ => 0) s) (contact : Contact Node)
    (free : ∀ node, contact.gesture = some node → ¬s.nodeHoldsFingers node) (track : UInt8)
    (point : Point) (nowMs : UInt32) :
    Inv ui.gesturesOf looked (on contact)
      (s.gesturePressed ui contact.gesture track point nowMs) := by
  unfold Touch.gesturePressed
  cases gesture : contact.gesture with
  | none =>
    have nowhere : on contact = fun _ => 0 := by
      funext n
      rw [on, gesture]
      rfl
    exact nowhere ▸ inv
  | some node =>
    have here : on contact node = 1 := if_pos gesture
    have free := free node gesture
    have pressed {s' : Touch Node} {t : Tracker Node}
        (change : Touch.Becomes node s s' (some t) [])
        (idle : fingersOf (s.trackerOf node) = 0)
        (closed : ∀ bracket, opensOf (ui.gesturesOf node) (s.trackerOf node) bracket = false)
        (still : t.changed = (none, none)) :
        Inv ui.gesturesOf looked (on contact)
          (let s := s'.modifyTracker node fun t =>
            { t with
              fingers := 1
              tracks := (track, t.tracks.2)
              mode := .single
              start := point
              startMs := nowMs
              point
              heldMs := 0
              moved := false }
          if (ui.gesturesOf node).press then s.emit node .down else s) := by
      have down := (change.modify
        (fun t =>
          { t with
            fingers := 1
            tracks := (track, t.tracks.2)
            mode := .single
            start := point
            startMs := nowMs
            point
            heldMs := 0
            moved := false }) fun _ => rfl).emitIf ((ui.gesturesOf node).press) .down
      apply inv.becomes down
      · intro n away
        apply if_neg
        rw [gesture]
        exact fun same => away (Option.some.inj same).symm
      · intro ok
        have counted := ok.counted
        rw [idle] at counted
        rw [here]
        apply ok.step
        · change 1 = _
          omega
        · rintro _ ⟨⟩
          refine ⟨.inr ⟨(by rintro ⟨⟩), le_rfl⟩, ?_, ?_⟩
          · intro e first
            cases (congrArg Prod.fst still).symm.trans first
          · intro e second
            cases (congrArg Prod.snd still).symm.trans second
        · intro bracket
          rw [closed bracket]
          cases press : (ui.gesturesOf node).press <;> cases bracket <;>
            simp [Bracket.follow, Bracket.phase, Tracker.opens, press]
    dsimp only
    cases found : s.trackerOf node with
    | none =>
      have change := (found ▸ Touch.becomes_self : Touch.Becomes node s s none []).push
        (t := Touch.newTracker node point nowMs) rfl
      exact pressed change (by rw [found]; rfl) (fun _ => by rw [found]; rfl) rfl
    | some t =>
      have shaped := (inv.nodes node).shaped t found
      have idle : t.fingers = 0 := by
        rw [Touch.nodeHoldsFingers, found] at free
        simpa using free
      apply pressed (Touch.becomes_start found)
      · rw [found]
        exact idle
      · intro bracket
        rw [found]
        exact shaped.opens_none idle bracket
      · exact shaped.still (.inr (.inr idle))

theorem press (inv : Inv ui.gesturesOf looked (fun _ => 0) s) (track : UInt8) (p : Point)
    (hit : Hit Node) (nowMs : UInt32) :
    Inv ui.gesturesOf looked (fun _ => 0) (s.press ui track p hit nowMs) := by
  -- A finger that joins none is alone on its node, if it is on one.
  have alone (s : Touch Node) (gesture : Option Node) (passive : Bool) (node : Node)
      (here : (if passive then none else gesture.filter fun node => ¬s.nodeHoldsFingers node) =
        some node) : ¬s.nodeHoldsFingers node := by
    split at here
    · cases here
    · simpa using (Option.filter_eq_some_iff.mp here).2
  unfold Touch.press
  dsimp only
  cases gesture : hit.gesture with
  | none =>
    apply push
    apply inv.gesturePressed
    exact alone s none _
  | some node =>
    obtain ⟨apart, together⟩ := inv.joinGesture node track p
    dsimp only
    rcases joined : s.joinGesture ui node track p with ⟨_ | _, s'⟩
    · rw [joined] at apart
      apply push
      apply gesturePressed (apart rfl)
      exact alone s' (some node) _
    · rw [joined] at together
      obtain ⟨found, begun⟩ := together rfl
      obtain ⟨t, found⟩ := Option.isSome_iff_exists.mp found
      have both (contact : Contact Node) (here : contact.gesture = some node) :
          Inv ui.gesturesOf looked (fun _ => 0)
            (Touch.gestureJoined ui node { s' with contacts := s'.contacts ++ [contact] }) := by
        have pushed := (begun contact here).push
        have found : Touch.trackerOf { s' with contacts := s'.contacts ++ [contact] } node =
            some t := found
        rw [Touch.contacts_emitPinch] at pushed
        rw [Touch.gestureJoined, found]
        dsimp only
        rw [Touch.emitPinch_contacts]
        exact pushed
      exact both _ rfl

theorem contactMoved (inv : Inv ui.gesturesOf looked (fun _ => 0) s)
    {track : UInt8} (found : s.contacts.find? (fun c => c.track = track) = some contact)
    (p : Point) : Inv ui.gesturesOf looked (fun _ => 0) (s.contactMoved ui contact p) := by
  have here := List.find?_some found
  have here : contact.track = track := of_decide_eq_true here
  have moved (contact' : Contact Node) (same : contact'.gesture = contact.gesture)
      (track_eq : contact'.track = track) :
      Inv ui.gesturesOf looked (fun _ => 0)
        ((s.modifyContact contact'.track fun _ => contact').gestureMoved ui contact') := by
    have held (n : Node) :
        (s.modifyContact contact'.track fun _ => contact').held n = s.held n := by
      rw [track_eq]
      apply countP_modifyFirst_of_find? found
      rw [same]
    apply gestureMoved
    · refine ⟨inv.apart, inv.panicked, fun n => ?_⟩
      rw [held]
      exact inv.nodes n
    · intro node gesture
      rw [held]
      apply countP_pos_iff.mpr
      exact ⟨contact, mem_of_find?_eq_some found, decide_eq_true (same.symm.trans gesture)⟩
  exact moved _ rfl here

theorem release (inv : Inv ui.gesturesOf looked (on contact) s)
    (nowMs : UInt32) : Inv ui.gesturesOf looked (fun _ => 0) (s.release ui contact nowMs) := by
  have released := inv.gestureReleased nowMs
  unfold Touch.release
  dsimp only
  split
  · exact released
  · cases contact.tap with
    | none => exact released
    | some node => exact released.finishTap node

theorem releaseLoop (points : List (UInt8 × Point)) (nowMs : UInt32) (rounds i : ℕ)
    (inv : Inv ui.gesturesOf looked (fun _ => 0) s) :
    Inv ui.gesturesOf looked (fun _ => 0) (s.releaseLoop ui points nowMs rounds i) := by
  induction rounds generalizing s i with
  | zero => exact inv
  | succ rounds ih =>
    unfold Touch.releaseLoop
    cases found : s.contacts[i]? with
    | none => exact inv
    | some contact =>
      dsimp only
      split
      · exact ih _ inv
      · exact ih _ ((inv.take found).release nowMs)

theorem touch (inv : Inv ui.gesturesOf looked (fun _ => 0) s) (points : List (UInt8 × Point))
    (hits : UInt8 → Hit Node) (nowMs : UInt32) :
    Inv ui.gesturesOf looked (fun _ => 0) (s.touch ui points hits nowMs) := by
  have lifted := inv.releaseLoop points nowMs s.contacts.length 0
  unfold Touch.touch
  generalize s.releaseLoop ui points nowMs s.contacts.length 0 = s' at lifted
  clear inv
  -- Every point is a move or a press.
  generalize points = rest
  induction rest generalizing s' with
  | nil => exact lifted
  | cons p rest ih =>
    rw [foldl_cons]
    apply ih
    cases found : s'.contacts.find? fun c => c.track = p.1 with
    | none => exact lifted.press p.1 p.2 (hits p.1) nowMs
    | some contact => exact lifted.contactMoved found p.2

theorem setArea (inv : Inv gesturesOf looked (fun _ => 0) s)
    (closed : ∀ node, looked node → ∀ bracket,
      opensOf (gesturesOf node) (s.trackerOf node) bracket = false) :
    Inv gesturesOf looked (fun _ => 0) s.setArea where
  apart := nodup_nil
  panicked := inv.panicked
  nodes n := by
    have held : s.setArea.held n = 0 := by
      apply countP_eq_zero.mpr
      intro c member
      obtain ⟨c', -, rfl⟩ := mem_map.mp member
      exact Bool.false_ne_true
    rw [held]
    refine ⟨rfl, ?_, fun look bracket => ?_⟩
    · rintro _ ⟨⟩
    · have brackets := (inv.nodes n).brackets look bracket
      rw [closed n look bracket] at brackets
      exact brackets

end Inv

/-- What happens to the tree: a sample of the fingers, time that passes, a frame, a node that is
freed, or a turn of the screen while nothing is open at the nodes that are looked at.  What is under
a finger, and what a tap frees, may be different each time. -/
inductive Step (gesturesOf : Node → Gestures) (looked : Node → Prop) :
    Touch Node → Touch Node → Prop
  | touch {s : Touch Node} (ui : Nodes Node) (same : ui.gesturesOf = gesturesOf)
      (points : List (UInt8 × Point)) (hits : UInt8 → Hit Node) (nowMs : UInt32) :
      Step gesturesOf looked s (s.touch ui points hits nowMs)
  | tick {s : Touch Node} (ui : Nodes Node) (same : ui.gesturesOf = gesturesOf) (dtMs : ℕ) :
      Step gesturesOf looked s (s.tickGestures ui dtMs)
  | flush {s : Touch Node} : Step gesturesOf looked s s.flushGestures
  | free {s : Touch Node} (node : Node) : Step gesturesOf looked s (s.forget node)
  | turn {s : Touch Node}
      (closed : ∀ node, looked node → ∀ bracket,
        opensOf (gesturesOf node) (s.trackerOf node) bracket = false) :
      Step gesturesOf looked s s.setArea

section Runs

variable {gesturesOf : Node → Gestures} {looked : Node → Prop} {s s' : Touch Node}

theorem Inv.start : Inv gesturesOf looked (fun _ => 0) ({} : Touch Node) where
  apart := nodup_nil
  panicked := rfl
  nodes _ := ⟨rfl, by rintro _ ⟨⟩, fun _ _ => rfl⟩

theorem Inv.step (inv : Inv gesturesOf looked (fun _ => 0) s) (step : Step gesturesOf looked s s') :
    Inv gesturesOf looked (fun _ => 0) s' := by
  cases step with
  | touch ui same points hits nowMs =>
    subst same
    exact inv.touch points hits nowMs
  | tick ui same dtMs =>
    subst same
    exact inv.tickGestures dtMs
  | flush => exact inv.flushGestures
  | free node => exact inv.forget node
  | turn closed => exact inv.setArea closed

theorem Inv.idle (inv : Inv gesturesOf looked (fun _ => 0) s) {node : Node}
    (none_ : s.held node = 0) (bracket : Bracket) :
    opensOf (gesturesOf node) (s.trackerOf node) bracket = false := by
  have ok := inv.nodes node
  cases found : s.trackerOf node with
  | none => rfl
  | some t =>
    have counted := ok.counted
    rw [found, none_] at counted
    exact (ok.shaped t found).opens_none counted bracket

/-- In a run in which the screen turns only while nothing is open at a node, what begins there ends
once before it begins again, and has ended when its last finger is gone.  In every run a tracker has
as many fingers as there are contacts on its node, and no finger is taken where there is none. -/
theorem gestures_in_brackets (gesturesOf : Node → Gestures) (looked : Node → Prop) (s : Touch Node)
    (run : Transition.Reachable (fun s : Touch Node => s = {}) (Step gesturesOf looked) s) :
    (∀ node, looked node → ∀ bracket : Bracket, ∃ isOpen,
      bracket.after (s.logOf node) = some isOpen ∧ (s.held node = 0 → isOpen = false)) ∧
    (∀ node, fingersOf (s.trackerOf node) = s.held node) ∧ s.panicked = false := by
  have inv : Inv gesturesOf looked (fun _ => 0) s := by
    apply run.invariant
    · rintro s rfl
      exact .start
    · intro s s' before step
      exact before.step step
  refine ⟨fun node look bracket => ?_, fun node => (inv.nodes node).counted, inv.panicked⟩
  exact ⟨_, (inv.nodes node).brackets look bracket, fun none_ => inv.idle none_ bracket⟩

end Runs

section Turn

def lone : Nodes Unit where
  gesturesOf _ := { press := true, pan := true }
  closes _ _ := []
  plain _ _ _ := rfl

def onLone (_ : UInt8) : Hit Unit := { gesture := some () }

/-- The screen turns while nobody touches it. -/
theorem gestures_in_brackets_idle_turn :
    ∃ s : Touch Unit,
      Transition.Reachable (fun s : Touch Unit => s = {}) (Step lone.gesturesOf fun _ => True) s ∧
      s.log = [((), .down), ((), .pan .began), ((), .up), ((), .pan .ended), ((), .down)] ∧
      (∀ node, True → ∀ bracket : Bracket, ∃ isOpen,
        bracket.after (s.logOf node) = some isOpen ∧ (s.held node = 0 → isOpen = false)) ∧
      (∀ node, fingersOf (s.trackerOf node) = s.held node) ∧ s.panicked = false := by
  have start : Transition.Reachable (fun s : Touch Unit => s = {})
      (Step lone.gesturesOf fun _ => True) {} := .start rfl
  have pressed := start.next (Step.touch lone rfl [(1, (0, 0))] onLone 0)
  have moved := pressed.next (Step.touch lone rfl [(1, (100, 0))] onLone 10)
  have lifted := moved.next (Step.touch lone rfl [] onLone 20)
  have turned := lifted.next (Step.turn fun () _ bracket => by cases bracket <;> decide +kernel)
  have run := turned.next (Step.touch lone rfl [(1, (0, 0))] onLone 30)
  exact ⟨_, run, by decide +kernel, gestures_in_brackets _ _ _ run⟩

/-- The screen turns under a finger: what it began is begun again by the next. -/
theorem turn_forgets :
    ∃ s : Touch Unit,
      Transition.Reachable (fun s : Touch Unit => s = {}) (Step lone.gesturesOf fun _ => False) s ∧
      s.log = [((), .down), ((), .pan .began), ((), .down), ((), .pan .began)] ∧
      Bracket.press.after (s.logOf ()) = none ∧ Bracket.pan.after (s.logOf ()) = none := by
  have start : Transition.Reachable (fun s : Touch Unit => s = {})
      (Step lone.gesturesOf fun _ => False) {} := .start rfl
  have pressed := start.next (Step.touch lone rfl [(1, (0, 0))] onLone 0)
  have moved := pressed.next (Step.touch lone rfl [(1, (100, 0))] onLone 10)
  have turned := moved.next (Step.turn nofun)
  have lifted := turned.next (Step.touch lone rfl [] onLone 20)
  have again := lifted.next (Step.touch lone rfl [(1, (0, 0))] onLone 30)
  have run := again.next (Step.touch lone rfl [(1, (100, 0))] onLone 40)
  exact ⟨_, run, by decide +kernel, by decide +kernel, by decide +kernel⟩

end Turn

end EspDevkit.Ui
