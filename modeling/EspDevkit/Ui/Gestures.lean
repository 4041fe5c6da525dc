import EspDevkit.Library.SwapRemove
import Mathlib.Data.Nat.Sqrt

/-!
# Gestures

What the tree makes of fingers on the panel.  Contacts are fingers that are down, trackers are the
nodes that they do something to.  Which nodes a finger lands on, and which nodes are freed by a tap
on what lies around a popup, is up to the rest of the tree; coordinates, scales and angles of what
is reported are left out.
-/

namespace EspDevkit.Ui

structure Gestures where
  press : Bool := false
  pan : Bool := false
  pinch : Bool := false
  rotate : Bool := false
  doubleTap : Bool := false
  longPress : Bool := false
  swipe : Bool := false
  deriving DecidableEq, Repr

inductive Phase
  | began
  | changed
  | ended
  deriving DecidableEq, Repr

inductive Direction
  | right
  | left
  | up
  | down
  deriving DecidableEq, Repr

inductive Gesture
  | down
  | up
  | pan (phase : Phase)
  | pinch (phase : Phase)
  | rotate (phase : Phase)
  | doubleTap
  | longPress
  | swipe (direction : Direction)
  deriving DecidableEq, Repr

abbrev Point := ℤ × ℤ

def doubleTapMs : ℕ := 300
def doubleTapReach : ℕ := 40
def longPressMs : ℕ := 500
def swipeMs : UInt32 := 400
def swipeMin : ℕ := 64
def tapSlop : ℕ := 12

def distance (a b : Point) : ℕ :=
  Nat.sqrt ((a.1 - b.1) * (a.1 - b.1) + (a.2 - b.2) * (a.2 - b.2)).toNat

inductive Mode
  | single
  | panning
  | multi
  | done
  deriving DecidableEq, Repr

structure Waiting where
  point : Point
  leftMs : ℕ
  tap : Bool
  deriving DecidableEq, Repr

structure Tracker (Node : Type) where
  node : Node
  fingers : ℕ
  tracks : UInt8 × UInt8
  mode : Mode
  start : Point
  startMs : UInt32
  point : Point
  heldMs : ℕ
  moved : Bool
  changed : Option Gesture × Option Gesture
  waiting : Option Waiting

structure Contact (Node : Type) where
  track : UInt8
  passive : Bool
  start : Point
  last : Point
  tap : Option Node
  scroller : Option Node
  drag : Option Node
  gesture : Option Node
  pan : Bool
  dragging : Bool

structure Hit (Node : Type) where
  tap : Option Node := none
  scroller : Option Node := none
  drag : Option Node := none
  gesture : Option Node := none

/-- The part of `Tree` that is about fingers.  `log` is what was reported of the nodes there are,
`panicked` that a finger was taken from a tracker that had none. -/
structure Touch (Node : Type) where
  contacts : List (Contact Node) := []
  trackers : List (Tracker Node) := []
  log : List (Node × Gesture) := []
  panicked : Bool := false

/-- The rest of the tree: what its nodes recognize, and which are freed when a tap on one is
finished.  What lies around a popup recognizes nothing. -/
structure Nodes (Node : Type) where
  gesturesOf : Node → Gestures
  closes : Touch Node → Node → List Node
  plain : ∀ s node, (gesturesOf node).doubleTap → closes s node = []

def modifyFirst {α : Type} (p : α → Bool) (f : α → α) : List α → List α
  | [] => []
  | a :: list => if p a then f a :: list else a :: modifyFirst p f list

variable {Node : Type} [DecidableEq Node]

namespace Touch

/-- `tracker_of`. -/
def trackerOf (s : Touch Node) (node : Node) : Option (Tracker Node) :=
  s.trackers.find? fun t => t.node = node

def modifyTracker (node : Node) (f : Tracker Node → Tracker Node) (s : Touch Node) : Touch Node :=
  { s with trackers := modifyFirst (fun t => t.node = node) f s.trackers }

def modifyContact (track : UInt8) (f : Contact Node → Contact Node) (s : Touch Node) :
    Touch Node :=
  { s with contacts := modifyFirst (fun c => c.track = track) f s.contacts }

def removeTracker (node : Node) (s : Touch Node) : Touch Node :=
  { s with trackers := swapRemove s.trackers (s.trackers.findIdx fun t => t.node = node) }

def emit (node : Node) (gesture : Gesture) (s : Touch Node) : Touch Node :=
  { s with log := s.log ++ [(node, gesture)] }

def emitSome (node : Node) (gesture : Option Gesture) (s : Touch Node) : Touch Node :=
  match gesture with
  | some gesture => s.emit node gesture
  | none => s

def flush (node : Node) (s : Touch Node) : Touch Node :=
  match s.trackerOf node with
  | none => s
  | some tracker =>
    ((s.modifyTracker node fun t => { t with changed := (none, none) }).emitSome node
      tracker.changed.1).emitSome node tracker.changed.2

def flushGestures (s : Touch Node) : Touch Node :=
  (s.trackers.map Tracker.node).foldl (fun s node => s.flush node) s

def nodeHoldsFingers (node : Node) (s : Touch Node) : Bool :=
  (s.trackerOf node).any fun t => 0 < t.fingers

/-- `forget_gestures`, and what freeing a node does to the contacts.  Another node may come in its
place, of which nothing was reported. -/
def forget (node : Node) (s : Touch Node) : Touch Node :=
  let rest (id : Option Node) := if id = some node then none else id
  { s with
    trackers := s.trackers.filter fun t => t.node ≠ node
    contacts := s.contacts.map fun c =>
      { c with
        tap := rest c.tap
        scroller := rest c.scroller
        drag := rest c.drag
        gesture := rest c.gesture }
    log := s.log.filter fun e => e.1 ≠ node }

variable (ui : Nodes Node)

def finishTap (node : Node) (s : Touch Node) : Touch Node :=
  (ui.closes s node).foldl (fun s freed => s.forget freed) s

def pinchEvents (node : Node) (phase : Phase) : Option Gesture × Option Gesture :=
  (if (ui.gesturesOf node).pinch then some (.pinch phase) else none,
    if (ui.gesturesOf node).rotate then some (.rotate phase) else none)

def emitPinch (node : Node) (phase : Phase) (s : Touch Node) : Touch Node :=
  (s.emitSome node (pinchEvents ui node phase).1).emitSome node (pinchEvents ui node phase).2

/-- A second finger landing on a node that takes two.  It stops whatever the first finger was doing
there. -/
def joinGesture (node : Node) (track : UInt8) (point : Point) (s : Touch Node) :
    Bool × Touch Node :=
  match s.trackerOf node with
  | none => (false, s)
  | some tracker =>
    if tracker.fingers ≠ 1 ∨ ¬((ui.gesturesOf node).pinch ∨ (ui.gesturesOf node).rotate) then
      (false, s)
    else
      let first := tracker.tracks.1
      let s := s.flush node
      if s.contacts.any (fun c => c.track = first) then
        let s := s.modifyContact first fun c =>
          { c with tap := none, scroller := none, dragging := false, passive := true }
        let s := if tracker.mode = .panning then s.emit node (.pan .ended) else s
        (true, s.modifyTracker node fun t =>
          { t with
            fingers := 2
            tracks := (t.tracks.1, track)
            mode := .multi
            waiting := none
            point })
      else (false, s)

def gestureJoined (node : Node) (s : Touch Node) : Touch Node :=
  match s.trackerOf node with
  | none => s
  | some _ => s.emitPinch ui node .began

def newTracker (node : Node) (point : Point) (nowMs : UInt32) : Tracker Node :=
  { node, fingers := 0, tracks := (0, 0), mode := .single, start := point, startMs := nowMs, point
    heldMs := 0, moved := false, changed := (none, none), waiting := none }

def gesturePressed (node : Option Node) (track : UInt8) (point : Point) (nowMs : UInt32)
    (s : Touch Node) : Touch Node :=
  match node with
  | none => s
  | some node =>
    let s :=
      match s.trackerOf node with
      | some _ => s
      | none => { s with trackers := s.trackers ++ [newTracker node point nowMs] }
    let s := s.modifyTracker node fun t =>
      { t with
        fingers := 1
        tracks := (track, t.tracks.2)
        mode := .single
        start := point
        startMs := nowMs
        point
        heldMs := 0
        moved := false }
    if (ui.gesturesOf node).press then s.emit node .down else s

def gestureMoved (contact : Contact Node) (s : Touch Node) : Touch Node :=
  match contact.gesture with
  | none => s
  | some node =>
    match s.trackerOf node with
    | none => s
    | some tracker =>
      match tracker.mode with
      | .multi =>
        s.modifyTracker node fun t => { t with changed := pinchEvents ui node .changed }
      | .panning =>
        s.modifyTracker node fun t => { t with changed := (some (.pan .changed), t.changed.2) }
      | .single =>
        let s := s.modifyTracker node fun t => { t with point := contact.last }
        if tracker.moved ∨ distance tracker.start contact.last ≤ tapSlop then s
        else
          let pans := (ui.gesturesOf node).pan ∧ contact.pan
          let s := s.modifyTracker node fun t =>
            { t with moved := true, mode := if pans then .panning else t.mode }
          let s :=
            if pans ∨ (ui.gesturesOf node).swipe then
              s.modifyContact contact.track fun c => { c with tap := none }
            else s
          if pans then
            (s.modifyContact contact.track fun c => { c with passive := true }).emit node
              (.pan .began)
          else s
      | .done => s

def secondTap (node : Node) (contact : Contact Node) (s : Touch Node) : Touch Node :=
  match s.trackerOf node with
  | none => s
  | some tracker =>
    let s := s.modifyTracker node fun t => { t with waiting := none }
    let wait (s : Touch Node) := s.modifyTracker node fun t =>
      { t with
        waiting := some
          { point := contact.last, leftMs := doubleTapMs, tap := contact.tap = some node } }
    match tracker.waiting with
    | some first =>
      if distance first.point contact.last ≤ doubleTapReach then s.emit node .doubleTap
      else if first.tap then wait (s.finishTap ui node)
      else wait s
    | none => wait s

/-- `fingers -= 1`, which panics below zero. -/
def takeFinger (node : Node) (fingers : ℕ) (s : Touch Node) : Touch Node :=
  { s.modifyTracker node fun t => { t with fingers := fingers - 1 } with
    panicked := s.panicked ∨ fingers = 0 }

def swipeOf (start last : Point) : Direction × ℕ :=
  let (dx, dy) := (last.1 - start.1, last.2 - start.2)
  (if dy.natAbs < dx.natAbs then (if 0 < dx then .right else .left)
    else (if 0 < dy then .down else .up),
    max dx.natAbs dy.natAbs)

/-- What a lift ends of what its tracker was doing: the match of `gesture_released`. -/
def endMode (node : Node) (tracker : Tracker Node) (contact : Contact Node) (s : Touch Node) :
    Bool × Touch Node :=
  match tracker.mode with
  | .multi =>
    let s := s.modifyTracker node fun t => { t with point := contact.last }
    (true, (s.emitPinch ui node .ended).modifyTracker node fun t => { t with mode := .done })
  | .panning => (true, s.emit node (.pan .ended))
  | .single =>
    if ¬tracker.moved ∧ (ui.gesturesOf node).doubleTap ∧
        (contact.tap = none ∨ contact.tap = some node) then
      (true, s.secondTap ui node contact)
    else (false, s)
  | .done => (true, s)

def endSwipe (node : Node) (tracker : Tracker Node) (contact : Contact Node) (nowMs : UInt32)
    (p : Bool × Touch Node) : Bool × Touch Node :=
  let swipe := swipeOf tracker.start contact.last
  if tracker.moved ∧ ¬contact.dragging ∧ (ui.gesturesOf node).swipe ∧
      nowMs - tracker.startMs ≤ swipeMs ∧ swipeMin ≤ swipe.2 then
    (true, p.2.emit node (.swipe swipe.1))
  else p

def dropIdle (node : Node) (fingers : ℕ) (s : Touch Node) : Touch Node :=
  let waits := (s.trackerOf node).any fun t => t.waiting.isSome
  if fingers = 0 ∧ ¬waits then s.removeTracker node else s

/-- `true` when the lift meant something here and is not a tap. -/
def gestureReleased (contact : Contact Node) (nowMs : UInt32) (s : Touch Node) :
    Bool × Touch Node :=
  match contact.gesture with
  | none => (false, s)
  | some node =>
    match s.trackerOf node with
    | none => (false, s)
    | some tracker =>
      let fingers := tracker.fingers - 1
      let s := (s.flush node).takeFinger node tracker.fingers
      let s := if fingers = 0 ∧ (ui.gesturesOf node).press then s.emit node .up else s
      let p := endSwipe ui node tracker contact nowMs (s.endMode ui node tracker contact)
      (p.1, p.2.dropIdle node fingers)

/-- A long press stops whatever else the finger was doing. -/
def tickHold (node : Node) (tracker : Tracker Node) (dtMs : ℕ) (s : Touch Node) : Touch Node :=
  let holding := tracker.fingers = 1 ∧ tracker.mode = .single ∧ ¬tracker.moved
  if holding ∧ (ui.gesturesOf node).longPress then
    let s := s.modifyTracker node fun t => { t with heldMs := t.heldMs + dtMs }
    if longPressMs ≤ tracker.heldMs + dtMs then
      let s := s.modifyTracker node fun t => { t with mode := .done, waiting := none }
      let s := s.emit node .longPress
      { s with
        contacts := modifyFirst (fun c => c.gesture = some node)
          (fun c => { c with tap := none, passive := true }) s.contacts }
    else s
  else s

/-- A first tap that waited long enough is a tap. -/
def tickWaiting (node : Node) (dtMs : ℕ) (s : Touch Node) : Touch Node :=
  match (s.trackerOf node).bind Tracker.waiting with
  | none => s
  | some waiting =>
    if waiting.leftMs - dtMs = 0 then
      let s := s.modifyTracker node fun t => { t with waiting := none }
      if waiting.tap then s.finishTap ui node else s
    else
      s.modifyTracker node fun t =>
        { t with waiting := some { waiting with leftMs := waiting.leftMs - dtMs } }

/-- A tracker's share of `tick_gestures`. -/
def tickTracker (node : Node) (dtMs : ℕ) (s : Touch Node) : Touch Node :=
  match s.trackerOf node with
  | none => s
  | some tracker => (s.tickHold ui node tracker dtMs).tickWaiting ui node dtMs

/-- The loop of `tick_gestures`; each round leaves a tracker behind. -/
def tickLoop (dtMs : ℕ) : ℕ → ℕ → Touch Node → Touch Node
  | 0, _, s => s
  | rounds + 1, index, s =>
    match s.trackers[index]? with
    | none => s
    | some tracker =>
      let s := s.tickTracker ui tracker.node dtMs
      let done := (s.trackerOf tracker.node).any fun t => t.fingers = 0 ∧ t.waiting.isNone
      if done then tickLoop dtMs rounds index (s.removeTracker tracker.node)
      else tickLoop dtMs rounds (index + 1) s

def tickGestures (dtMs : ℕ) (s : Touch Node) : Touch Node :=
  s.tickLoop ui dtMs s.trackers.length 0

def press (track : UInt8) (p : Point) (hit : Hit Node) (nowMs : UInt32) (s : Touch Node) :
    Touch Node :=
  let contact : Contact Node :=
    { track, passive := false, start := p, last := p, tap := none, scroller := none, drag := none
      gesture := hit.gesture, pan := hit.scroller = none ∧ hit.drag = none, dragging := false }
  let joined :=
    match hit.gesture with
    | some node => s.joinGesture ui node track p
    | none => (false, s)
  match hit.gesture, joined with
  | some node, (true, s) =>
    gestureJoined ui node { s with contacts := s.contacts ++ [{ contact with passive := true }] }
  | gesture, (_, s) =>
    let gesture := gesture.filter fun node => ¬s.nodeHoldsFingers node
    let held (id : Option Node) (of : Contact Node → Option Node) : Bool :=
      id ≠ none ∧ s.contacts.any fun c => of c = id
    let passive := held hit.scroller Contact.scroller || held hit.tap Contact.tap ||
      held hit.drag Contact.drag
    let hit : Hit Node := if passive then {} else hit
    let gesture := if passive then none else gesture
    let s := s.gesturePressed ui gesture track p nowMs
    { s with contacts := s.contacts ++
      [{ contact with passive, tap := hit.tap, scroller := hit.scroller, drag := hit.drag
                      gesture }] }

def contactMoved (contact : Contact Node) (p : Point) (s : Touch Node) : Touch Node :=
  let starting := ¬contact.dragging ∧ tapSlop < (p.2 - contact.start.2).natAbs ∧
    contact.scroller ≠ none
  let contact :=
    { contact with
      dragging := contact.dragging ∨ starting
      tap := if starting then none else contact.tap
      last := p }
  (s.modifyContact contact.track fun _ => contact).gestureMoved ui contact

def release (contact : Contact Node) (nowMs : UInt32) (s : Touch Node) : Touch Node :=
  let (consumed, s) := s.gestureReleased ui contact nowMs
  if contact.dragging ∨ consumed then s
  else
    match contact.tap with
    | some node => s.finishTap ui node
    | none => s

/-- The loop of `touch` over the fingers that were down; each round leaves one behind. -/
def releaseLoop (points : List (UInt8 × Point)) (nowMs : UInt32) :
    ℕ → ℕ → Touch Node → Touch Node
  | 0, _, s => s
  | rounds + 1, i, s =>
    match s.contacts[i]? with
    | none => s
    | some contact =>
      if points.any fun p => p.1 = contact.track then releaseLoop points nowMs rounds (i + 1) s
      else
        releaseLoop points nowMs rounds i
          (release ui contact nowMs { s with contacts := swapRemove s.contacts i })

def touch (points : List (UInt8 × Point)) (hits : UInt8 → Hit Node) (nowMs : UInt32)
    (s : Touch Node) : Touch Node :=
  points.foldl
    (fun s p =>
      match s.contacts.find? fun c => c.track = p.1 with
      | some contact => s.contactMoved ui contact p.2
      | none => s.press ui p.1 p.2 (hits p.1) nowMs)
    (s.releaseLoop ui points nowMs s.contacts.length 0)

/-- The part of `set_area` that is about fingers.  The popups that it closes are freed after. -/
def setArea (s : Touch Node) : Touch Node :=
  { s with
    contacts := s.contacts.map fun c =>
      { c with
        tap := none, scroller := none, drag := none, gesture := none, passive := true
        dragging := false }
    trackers := [] }

end Touch

end EspDevkit.Ui
