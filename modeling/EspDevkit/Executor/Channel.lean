import EspDevkit.Library.Threaded

/-!
# The async channel

A bounded queue into async code.  Futures that wait for room are linked to each
other in the order they began to wait; each critical section is one step, and
the wakers it copies are woken right after it.
-/

namespace EspDevkit.Executor

open Threaded

variable {α Waker : Type}

structure SendNode (Waker : Type) where
  waker : Option Waker := none
  prev : Option ℕ := none
  next : Option ℕ := none

/-- `Queue`, with the nodes its pointers lead to. -/
structure Queue (α Waker : Type) where
  items : List α
  capacity : ℕ
  receiver : Option Waker
  senders : Option ℕ
  closed : Bool
  nodes : ℕ → SendNode Waker

namespace Queue

def setNext (queue : Queue α Waker) (node : ℕ) (next : Option ℕ) : Queue α Waker :=
  { queue with nodes := Function.update queue.nodes node { queue.nodes node with next } }

def setPrev (queue : Queue α Waker) (node : ℕ) (prev : Option ℕ) : Queue α Waker :=
  { queue with nodes := Function.update queue.nodes node { queue.nodes node with prev } }

def setWaker (queue : Queue α Waker) (node : ℕ) (waker : Option Waker) : Queue α Waker :=
  { queue with nodes := Function.update queue.nodes node { queue.nodes node with waker } }

/-- The link that leads to `next`: of the node before it, or of the list. -/
def linkNext (queue : Queue α Waker) (prev next : Option ℕ) : Queue α Waker :=
  match prev with
  | none => { queue with senders := next }
  | some prev => queue.setNext prev next

/-- The link back from `next`, when there is one. -/
def linkPrev (queue : Queue α Waker) (next prev : Option ℕ) : Queue α Waker :=
  match next with
  | none => queue
  | some next => queue.setPrev next prev

def unlink (queue : Queue α Waker) (node : ℕ) : Queue α Waker × Option Waker :=
  match (queue.nodes node).waker with
  | none => (queue, none)
  | some waker =>
    let queue := queue.setWaker node none
    let prev := (queue.nodes node).prev
    let next := (queue.nodes node).next
    ((queue.linkNext prev next).linkPrev next prev, some waker)

section

variable (queue : Queue α Waker) (node other : ℕ) (at' link : Option ℕ) (waker : Option Waker)

@[simp]
theorem linkNext_next : ((queue.linkNext at' link).nodes other).next =
    if at' = some other then link else (queue.nodes other).next := by
  cases at' with
  | none => rfl
  | some node => by_cases here : node = other <;> simp [linkNext, setNext, here, Ne.symm]

@[simp]
theorem linkNext_prev : ((queue.linkNext at' link).nodes other).prev = (queue.nodes other).prev := by
  cases at' with
  | none => rfl
  | some node => by_cases here : other = node <;> simp [linkNext, setNext, here]

@[simp]
theorem linkNext_waker :
    ((queue.linkNext at' link).nodes other).waker = (queue.nodes other).waker := by
  cases at' with
  | none => rfl
  | some node => by_cases here : other = node <;> simp [linkNext, setNext, here]

@[simp]
theorem linkNext_senders :
    (queue.linkNext at' link).senders = if at' = none then link else queue.senders := by
  cases at' <;> rfl

@[simp]
theorem linkPrev_next : ((queue.linkPrev at' link).nodes other).next = (queue.nodes other).next := by
  cases at' with
  | none => rfl
  | some node => by_cases here : other = node <;> simp [linkPrev, setPrev, here]

@[simp]
theorem linkPrev_prev : ((queue.linkPrev at' link).nodes other).prev =
    if at' = some other then link else (queue.nodes other).prev := by
  cases at' with
  | none => rfl
  | some node => by_cases here : node = other <;> simp [linkPrev, setPrev, here, Ne.symm]

@[simp]
theorem linkPrev_waker :
    ((queue.linkPrev at' link).nodes other).waker = (queue.nodes other).waker := by
  cases at' with
  | none => rfl
  | some node => by_cases here : other = node <;> simp [linkPrev, setPrev, here]

@[simp]
theorem linkPrev_senders : (queue.linkPrev at' link).senders = queue.senders := by
  cases at' <;> rfl

@[simp]
theorem setWaker_next :
    ((queue.setWaker node waker).nodes other).next = (queue.nodes other).next := by
  by_cases here : other = node <;> simp [setWaker, here]

@[simp]
theorem setWaker_prev :
    ((queue.setWaker node waker).nodes other).prev = (queue.nodes other).prev := by
  by_cases here : other = node <;> simp [setWaker, here]

@[simp]
theorem setWaker_waker : ((queue.setWaker node waker).nodes other).waker =
    if other = node then waker else (queue.nodes other).waker := by
  by_cases here : other = node <;> simp [setWaker, here]

@[simp]
theorem setWaker_senders : (queue.setWaker node waker).senders = queue.senders := rfl

end

def push (queue : Queue α Waker) (value : α) : Except α (Queue α Waker × Option Waker) :=
  if queue.closed ∨ queue.items.length = queue.capacity then .error value
  else .ok ({ queue with items := queue.items ++ [value] }, queue.receiver)

/-- Links a node in after the last that waits; `fuel` is for the walk there. -/
def linkLast (queue : Queue α Waker) (fuel node : ℕ) : Queue α Waker :=
  let queue := (queue.setPrev node none).setNext node none
  let tail := walk (fun node => (queue.nodes node).next)
    (fun node => (queue.nodes node).next.isSome) fuel queue.senders
  (queue.linkNext tail (some node)).setPrev node tail

def firstWaker (queue : Queue α Waker) : Option Waker :=
  queue.senders.bind fun head => (queue.nodes head).waker

def hasRoom (queue : Queue α Waker) : Bool := decide (queue.items.length < queue.capacity)

end Queue

/-- `channel`. -/
def channel (α Waker : Type) (capacity : ℕ) : Queue α Waker :=
  { items := [], capacity, receiver := none, senders := none, closed := false, nodes := fun _ => {} }

structure Outcome (α Waker : Type) where
  queue : Queue α Waker
  /-- The value taken into the queue. -/
  accepted : Option α := none
  /-- The value taken off it. -/
  received : Option α := none
  /-- Whether a send future is done. -/
  sent : Bool := false
  wakes : List Waker := []

def trySend (queue : Queue α Waker) (value : α) : Outcome α Waker :=
  match queue.push value with
  | .error _ => { queue }
  | .ok (queue, receiver) => { queue, accepted := some value, wakes := receiver.toList }

/-- `SendFuture::poll` with the value it holds. -/
def pollSend (queue : Queue α Waker) (fuel node : ℕ) (new : Waker) (value : α) :
    Outcome α Waker :=
  let waiting := (queue.nodes node).waker.isSome
  let first := !waiting || decide (queue.senders = some node)
  if queue.closed || (first && queue.hasRoom) then
    let (queue, _) := queue.unlink node
    let (queue, accepted, receiver) :=
      match queue.push value with
      | .ok (queue, receiver) => (queue, some value, receiver)
      | .error _ => (queue, none, none)
    let next := if queue.hasRoom then queue.firstWaker else none
    { queue, accepted, sent := true, wakes := receiver.toList ++ next.toList }
  else
    let queue := queue.setWaker node (some new)
    { queue := if waiting then queue else queue.linkLast fuel node }

/-- `SendFuture::drop`. -/
def dropSend (queue : Queue α Waker) (node : ℕ) : Outcome α Waker :=
  let wasFirst := decide (queue.senders = some node)
  let (queue, _) := queue.unlink node
  { queue, wakes := if wasFirst then queue.firstWaker.toList else [] }

/-- `Receiver::try_recv`. -/
def tryRecv (queue : Queue α Waker) : Outcome α Waker :=
  match queue.items with
  | [] => { queue }
  | value :: items =>
    { queue := { queue with items }, received := some value, wakes := queue.firstWaker.toList }

/-- The second critical section of a poll of `Receiver::recv`; the first is
`try_recv`. -/
def pollRecv (queue : Queue α Waker) (new : Waker) : Outcome α Waker :=
  match queue.items with
  | [] => { queue := { queue with receiver := some new } }
  | value :: items =>
    { queue := { queue with items }, received := some value, wakes := queue.firstWaker.toList }

/-- `Receiver::drop`. -/
def dropReceiver (queue : Queue α Waker) : Outcome α Waker :=
  { queue := { queue with closed := true, items := [], receiver := none }
    wakes := queue.firstWaker.toList }

/-- A channel with its futures and what came to pass so far. -/
structure World (α Waker : Type) where
  queue : Queue α Waker
  /-- The values of the send futures that are neither done nor dropped. -/
  values : ℕ → Option α := fun _ => none
  /-- How many send futures were made. -/
  made : ℕ := 0
  accepted : List α := []
  received : List α := []
  /-- What the receiver left behind. -/
  lost : List α := []
  /-- The futures that began to wait, in that order. -/
  arrivals : List ℕ := []
  /-- Whether a future was woken since it is the first that waits and need not
  wait any more, and not polled since. -/
  woken : ℕ → Bool := fun _ => false

namespace World

def waiting (world : World α Waker) : List ℕ :=
  world.arrivals.filter fun node => (world.queue.nodes node).waker.isSome

def ready (world : World α Waker) : Bool := world.queue.closed || world.queue.hasRoom

inductive Input (α Waker : Type)
  | trySend (value : α)
  /-- `Sender::send` makes a future. -/
  | send (value : α)
  | pollSend (node : ℕ) (new : Waker)
  | dropSend (node : ℕ)
  | tryRecv
  | pollRecv (new : Waker)
  | dropReceiver

/-- A future is not polled once it is done, and nothing is received once the
receiver was dropped. -/
def Input.possible (world : World α Waker) : Input α Waker → Bool
  | .trySend _ | .send _ => true
  | .pollSend node _ => (world.values node).isSome
  | .dropSend node => decide (node < world.made)
  | .tryRecv | .pollRecv _ | .dropReceiver => !world.queue.closed

variable [DecidableEq Waker]

def after (world : World α Waker) (polled : Option ℕ) (outcome : Outcome α Waker) :
    World α Waker :=
  let arrivals := polled.toList.filter fun node =>
    (world.queue.nodes node).waker.isNone && (outcome.queue.nodes node).waker.isSome
  let next : World α Waker :=
    { world with
      queue := outcome.queue
      accepted := world.accepted ++ outcome.accepted.toList
      received := world.received ++ outcome.received.toList
      arrivals := world.arrivals ++ arrivals }
  { next with
    woken := fun node =>
      decide (next.waiting.head? = some node) && next.ready &&
        ((outcome.queue.nodes node).waker.any (fun waker => decide (waker ∈ outcome.wakes)) ||
          world.woken node && decide (polled ≠ some node)) }

def step (world : World α Waker) : Input α Waker → World α Waker
  | .trySend value => world.after none (Executor.trySend world.queue value)
  | .send value =>
    { world with
      values := Function.update world.values world.made (some value), made := world.made + 1 }
  | .pollSend node new =>
    match world.values node with
    | none => world
    | some value =>
      let outcome := Executor.pollSend world.queue world.made node new value
      let next := world.after (some node) outcome
      { next with
        values := if outcome.sent then Function.update next.values node none else next.values }
  | .dropSend node =>
    let next := world.after none (Executor.dropSend world.queue node)
    { next with values := Function.update next.values node none }
  | .tryRecv => world.after none (Executor.tryRecv world.queue)
  | .pollRecv new => world.after none (Executor.pollRecv world.queue new)
  | .dropReceiver =>
    { world.after none (Executor.dropReceiver world.queue) with lost := world.queue.items }

end World

end EspDevkit.Executor
