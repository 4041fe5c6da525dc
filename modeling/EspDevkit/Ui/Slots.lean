import Mathlib.Data.Nat.Notation
import Mathlib.Data.List.Basic

/-!
# Slots and queued messages

What the tree writes to its slots and to its message queue.  Views, navigators
and hooks decide which of these it does and in what order; nothing here assumes
more about them than who is being built.  A message names the slot it is for,
and nothing in the queue says which component that was.
-/

namespace EspDevkit.Ui

structure Host where
  id : ℕ
  msg : ℕ
  deriving DecidableEq, Repr

/-- `Erased`: the type a message was created from.  The maker is not in the bytes;
it is the component that the message was made for. -/
structure Erased where
  maker : ℕ
  type : ℕ
  deriving DecidableEq, Repr

/-- `Erased::new`, with a message of the component. -/
def Host.erase (h : Host) : Erased := { maker := h.id, type := h.msg }

structure EventMap where
  parent : ℕ
  message : Erased
  deriving DecidableEq, Repr

structure Slot where
  host : Option Host := none
  node : Option ℕ := none
  events : Option EventMap := none
  deriving DecidableEq, Repr

structure Tree where
  slots : List Slot := []
  queue : List (ℕ × Erased) := []
  renderRequest : Option (ℕ × Erased) := none
  /-- Components whose view is being built, the innermost first. -/
  building : List (ℕ × Host) := []
  deriving DecidableEq, Repr

namespace Tree

/-- The slot that `alloc_slot` gives. -/
def allocSlot (t : Tree) : ℕ :=
  (t.slots.findIdx? fun s => s.node.isNone).getD t.slots.length

def component (t : Tree) (slot : ℕ) : Option Host :=
  match t.slots[slot]?.bind Slot.host with
  | some h => some h
  | none => (t.building.find? fun b => b.1 = slot).map Prod.snd

/-- `event_map` of a view that is being built. -/
def eventMap (t : Tree) (owner : ℕ) : Option EventMap :=
  (t.building.find? fun b => b.1 = owner).map fun b =>
    { parent := owner, message := b.2.erase }

/-- `alloc_slot` and what is put in it, for a screen or a popup (`mount_themed`), a
bar (`add_chrome`, `add_keyboard`) or the child of a view (`create_node`). -/
def place (t : Tree) (host : Host) (node : ℕ) (owner : Option ℕ) : Tree :=
  let slot := t.allocSlot
  let slots := if slot < t.slots.length then t.slots else t.slots ++ [({} : Slot)]
  let events := owner.bind t.eventMap
  { t with slots := slots.set slot { host := some host, node := some node, events } }

/-- `update_node` on a child that its parent's view gives again. -/
def updateChild (t : Tree) (slot owner : ℕ) : Tree :=
  { t with slots := t.slots.modify slot fun s => { s with events := t.eventMap owner } }

/-- `free_subtree` on the node of a component. -/
def freeSlot (t : Tree) (slot : ℕ) : Tree :=
  { t with slots := t.slots.modify slot fun _ => {} }

/-- `take_host`. -/
def takeHost (t : Tree) (slot : ℕ) : Tree :=
  { t with slots := t.slots.modify slot fun s => { s with host := none } }

/-- `build_component`, and the rows of a list, before the view is called. -/
def buildBegin (t : Tree) (slot : ℕ) : Tree :=
  match t.slots[slot]?.bind Slot.host with
  | none => t
  | some h => { t.takeHost slot with building := (slot, h) :: t.building }

def buildEnd (t : Tree) : Tree :=
  match t.building with
  | [] => t
  | (slot, h) :: building =>
    { t with slots := t.slots.modify slot fun s => { s with host := some h }, building }

/-- A message of a component to itself: what it sends, and what taps, drags and
typing find in its view. -/
def send (t : Tree) (slot : ℕ) : Tree :=
  match t.component slot with
  | none => t
  | some h => { t with queue := t.queue ++ [(slot, h.erase)] }

def emit (t : Tree) (slot : ℕ) : Tree :=
  match t.slots[slot]?.bind Slot.events with
  | none => t
  | some map => { t with queue := t.queue ++ [(map.parent, map.message)] }

/-- `set_render_mode`, with the reply it asks for. -/
def setRenderMode (t : Tree) (slot : ℕ) : Tree :=
  match t.component slot with
  | none => t
  | some h => { t with renderRequest := some (slot, h.erase) }

def renderDone (t : Tree) : Tree :=
  match t.renderRequest with
  | none => t
  | some (slot, done) => { t with queue := t.queue ++ [(slot, done)], renderRequest := none }

/-- The entry that `update` takes off the queue. -/
def pop (t : Tree) : Tree := { t with queue := t.queue.tail }

/-- The component that `dispatch` hands the next message to. -/
def receiver (t : Tree) : Option (Host × Erased) :=
  match t.queue with
  | [] => none
  | (slot, msg) :: _ => (t.slots[slot]?.bind Slot.host).map fun h => (h, msg)

end Tree

inductive Edit
  | place (host : Host) (node : ℕ) (owner : Option ℕ)
  | updateChild (slot owner : ℕ)
  | freeSlot (slot : ℕ)
  | takeHost (slot : ℕ)
  | buildBegin (slot : ℕ)
  | buildEnd
  | send (slot : ℕ)
  | emit (slot : ℕ)
  | setRenderMode (slot : ℕ)
  | renderDone
  | pop

def Tree.edit (t : Tree) : Edit → Tree
  | .place host node owner => t.place host node owner
  | .updateChild slot owner => t.updateChild slot owner
  | .freeSlot slot => t.freeSlot slot
  | .takeHost slot => t.takeHost slot
  | .buildBegin slot => t.buildBegin slot
  | .buildEnd => t.buildEnd
  | .send slot => t.send slot
  | .emit slot => t.emit slot
  | .setRenderMode slot => t.setRenderMode slot
  | .renderDone => t.renderDone
  | .pop => t.pop

def Tree.run (t : Tree) (edits : List Edit) : Tree := edits.foldl Tree.edit t

end EspDevkit.Ui
