import EspDevkit.Library.Threaded
import Mathlib.Data.List.Count

/-!
# The raw lock

The word of a lock, the queue of those that wait for it and everything that is
under way on it.  Threads block and futures are polled; an operation is taken
apart into its atomic steps, of which each read or change of the word, each
critical section and each look at a waiter's state is one.  What the platform
says (whether the writer runs on another core, the time, priorities) may be
anything.
-/

namespace EspDevkit.Sync

open Threaded

variable {Waker : Type}

/-- `RawLock::state`. -/
structure Word where
  writer : Bool := false
  parked : Bool := false
  writerParked : Bool := false
  readers : ℕ := 0
  deriving DecidableEq, Repr

namespace Word

def tryWrite (word : Word) : Option Word :=
  if word.writer || decide (word.readers ≠ 0) then none else some { word with writer := true }

def tryRead (word : Word) : Option Word :=
  if word.writer || word.writerParked then none
  else some { word with readers := word.readers + 1 }

def tryLock (word : Word) (shared : Bool) : Option Word :=
  if shared then word.tryRead else word.tryWrite

def free (word : Word) : Bool := !word.writer && decide (word.readers = 0)

def count (word : Word) (shared : Bool) : ℕ := if shared then word.readers else word.writer.toNat

end Word

def spinLimit : ℕ := 1000

def handoffUs : UInt32 := 1000

def batch : ℕ := 4

inductive WaitState
  | waiting
  | retry
  | granted
  deriving DecidableEq, Repr

inductive Wake (Waker : Type)
  | task (task : ℕ)
  | waker (waker : Option Waker)

def Wake.taken : Wake Waker → Wake Waker
  | .task thread => .task thread
  | .waker _ => .waker none

structure Waiter (Waker : Type) where
  next : Option ℕ := none
  prev : Option ℕ := none
  linked : Bool := false
  shared : Bool := false
  priority : UInt32 := 0
  since : UInt32 := 0
  wake : Wake Waker := .waker none
  state : WaitState := .waiting

/-- The word and the queue, with the waiters its pointers lead to. -/
structure RawLock (Waker : Type) where
  state : Word := {}
  head : Option ℕ := none
  tail : Option ℕ := none
  writers : ℕ := 0
  waiters : ℕ → Waiter Waker := fun _ => {}

namespace RawLock

def setWaiter (lock : RawLock Waker) (w : ℕ) (waiter : Waiter Waker) : RawLock Waker :=
  { lock with waiters := Function.update lock.waiters w waiter }

def setNext (lock : RawLock Waker) (w : ℕ) (next : Option ℕ) : RawLock Waker :=
  lock.setWaiter w { lock.waiters w with next }

def setPrev (lock : RawLock Waker) (w : ℕ) (prev : Option ℕ) : RawLock Waker :=
  lock.setWaiter w { lock.waiters w with prev }

def setLinked (lock : RawLock Waker) (w : ℕ) (linked : Bool) : RawLock Waker :=
  lock.setWaiter w { lock.waiters w with linked }

def setState (lock : RawLock Waker) (w : ℕ) (state : WaitState) : RawLock Waker :=
  lock.setWaiter w { lock.waiters w with state }

def setWake (lock : RawLock Waker) (w : ℕ) (wake : Wake Waker) : RawLock Waker :=
  lock.setWaiter w { lock.waiters w with wake }

/-- The link that leads to `next`: of the waiter before it, or of the queue. -/
def linkNext (lock : RawLock Waker) (prev next : Option ℕ) : RawLock Waker :=
  match prev with
  | none => { lock with head := next }
  | some prev => lock.setNext prev next

/-- The link back from `next`, or of the queue. -/
def linkPrev (lock : RawLock Waker) (next prev : Option ℕ) : RawLock Waker :=
  match next with
  | none => { lock with tail := prev }
  | some next => lock.setPrev next prev

/-- Where the queue has a place for a waiter of this priority: after whom, and
before whom; `fuel` is for the walk there. -/
def place (lock : RawLock Waker) (fuel : ℕ) (priority : UInt32) : Option ℕ × Option ℕ :=
  let after := walk (fun w => (lock.waiters w).prev)
    (fun w => decide ((lock.waiters w).priority < priority)) fuel lock.tail
  (after, match after with
    | none => lock.head
    | some after => (lock.waiters after).next)

/-- The part of `enqueue` that links the waiter in. -/
def link (lock : RawLock Waker) (fuel w : ℕ) : RawLock Waker :=
  let (after, before) := lock.place fuel (lock.waiters w).priority
  let lock := (lock.setPrev w after).setNext w before
  let lock := (lock.linkNext after (some w)).linkPrev before (some w)
  let lock := lock.setLinked w true
  if (lock.waiters w).shared then lock else { lock with writers := lock.writers + 1 }

/-- Takes the lock if it is free for `w`, else queues `w`. -/
def enqueue (lock : RawLock Waker) (fuel w : ℕ) : RawLock Waker × Bool :=
  let shared := (lock.waiters w).shared
  match lock.state.tryLock shared with
  | some state => ({ lock with state }, true)
  | none =>
    let state := { lock.state with
      parked := true, writerParked := lock.state.writerParked || !shared }
    (link { lock with state } fuel w, false)

def unlink (lock : RawLock Waker) (w : ℕ) : RawLock Waker :=
  let prev := (lock.waiters w).prev
  let next := (lock.waiters w).next
  let lock := (lock.linkNext prev next).linkPrev next prev
  let lock := lock.setLinked w false
  if (lock.waiters w).shared then lock else { lock with writers := lock.writers - 1 }

/-- The flags the queue calls for: `PARKED` and `WRITER_PARKED`. -/
def flags (lock : RawLock Waker) : Bool × Bool :=
  match lock.head, lock.writers with
  | none, _ => (false, false)
  | some _, 0 => (true, false)
  | some _, _ + 1 => (true, true)

def queue (lock : RawLock Waker) (fuel : ℕ) : List ℕ :=
  along (fun w => (lock.waiters w).next) fuel lock.head

/-- Whom `grant` picks, with `held` left of the word. -/
def picked (lock : RawLock Waker) (fuel : ℕ) (held : Word) : List ℕ :=
  if 0 < lock.writers then
    if held.free then
      (walk (fun w => (lock.waiters w).next) (fun w => (lock.waiters w).shared) fuel
        lock.head).toList
    else []
  else if held.writer then [] else lock.queue batch

/-- Whether a waiter has waited so long that the lock is handed to it. -/
def handoff (lock : RawLock Waker) (now : UInt32) (w : ℕ) : Bool :=
  decide (handoffUs ≤ now - (lock.waiters w).since)

def tell (lock : RawLock Waker) (w : ℕ) (state : WaitState) : RawLock Waker × Wake Waker :=
  let lock := lock.unlink w
  let wake := (lock.waiters w).wake
  ((lock.setWake w wake.taken).setState w state, wake)

def tellAll (lock : RawLock Waker) (now : UInt32) : List ℕ → RawLock Waker × List (Wake Waker)
  | [] => (lock, [])
  | w :: picked =>
    let (lock, wake) := lock.tell w (if lock.handoff now w then .granted else .retry)
    let (lock, wakes) := lock.tellAll now picked
    (lock, wake :: wakes)

structure Grant (Waker : Type) where
  lock : RawLock Waker
  wakes : List (Wake Waker)
  /-- Those told to try again. -/
  retries : List ℕ
  more : Bool

/-- A queued writer goes first; otherwise up to `batch` readers, and `more`
when more readers are left. -/
def grant (lock : RawLock Waker) (fuel : ℕ) (clear : Bool) (now : UInt32) : Grant Waker :=
  let held := if clear then { lock.state with writer := false } else lock.state
  let picked := lock.picked fuel held
  let granted := picked.countP (lock.handoff now)
  let left := decide (picked.length < (lock.queue fuel).length)
  let writing := decide (0 < lock.writers)
  let state : Word :=
    { writer := held.writer || writing && decide (0 < granted)
      readers := if writing then held.readers else held.readers + granted
      parked := left
      writerParked := left && decide (0 < lock.writers - picked.length) }
  let retries := picked.filter fun w => !lock.handoff now w
  let (lock, wakes) := tellAll { lock with state } now picked
  { lock, wakes, retries
    more := decide (picked.length = batch) && lock.head.isSome && decide (lock.writers = 0) }

end RawLock

inductive Op (Waker : Type)
  /-- `wait`, with so many rounds of spinning left. -/
  | spin (shared : Bool) (left : ℕ)
  /-- `wait`, at its critical section. -/
  | enqueue (w : ℕ)
  /-- `wait`, inside its inner loop. -/
  | blocked (w : ℕ)
  /-- `wait`, after its inner loop. -/
  | again (w : ℕ)
  /-- `poll_lock`, at its look at the waiter's state. -/
  | poll (w : ℕ) (waker : Waker)
  /-- `poll_lock` of a waiter that was waiting. -/
  | relink (w : ℕ) (waker : Waker)
  | tryLock (w : ℕ) (waker : Waker)
  /-- `poll_lock`, at its last critical section. -/
  | pollEnqueue (w : ℕ)
  /-- `drop` of a queued `LockWait`. -/
  | drop (w : ℕ)
  /-- `drop`, of a waiter that was not linked. -/
  | dropState (w : ℕ)
  | unlock (shared : Bool)
  | release (clear : Bool)
  /-- `release`, after its critical section. -/
  | waking (wakes : List (Wake Waker)) (more : Bool)

structure World (Waker : Type) where
  lock : RawLock Waker := {}
  /-- How many waiters were made. -/
  made : ℕ := 0
  /-- `LockWait::queued`; and whether a blocked thread looks at its state. -/
  queued : ℕ → Bool := fun _ => false
  started : ℕ → Bool := fun _ => false
  /-- Whether a `LockWait` is there with no call of it under way. -/
  idle : ℕ → Bool := fun _ => false
  /-- How many guards there are, by whether they share the lock. -/
  held : Bool → ℕ := fun _ => 0
  ops : List (Op Waker) := []
  woken : List (Wake Waker) := []
  /-- Whether a waiter was taken off the queue to try again and did not yet. -/
  owed : ℕ → Bool := fun _ => false

structure Platform where
  /-- Whether the owner runs on another core. -/
  elsewhere : Bool := false
  current : ℕ := 0
  priority : UInt32 := 0
  now : UInt32 := 0

namespace World

def setQueued (world : World Waker) (w : ℕ) (queued : Bool) : World Waker :=
  { world with queued := Function.update world.queued w queued }

def setIdle (world : World Waker) (w : ℕ) (idle : Bool) : World Waker :=
  { world with idle := Function.update world.idle w idle }

def setOwed (world : World Waker) (w : ℕ) (owed : Bool) : World Waker :=
  { world with owed := Function.update world.owed w owed }

def setHeld (world : World Waker) (shared : Bool) (held : ℕ) : World Waker :=
  { world with held := Function.update world.held shared held }

def hold (world : World Waker) (shared : Bool) : World Waker :=
  world.setHeld shared (world.held shared + 1)

def shared (world : World Waker) (w : ℕ) : Bool := (world.lock.waiters w).shared

def make (world : World Waker) (waiter : Waiter Waker) : World Waker :=
  { world with lock := world.lock.setWaiter world.made waiter, made := world.made + 1 }

/-- `try_lock`, with what is left to do when the lock is taken. -/
def take (world : World Waker) (shared : Bool) (otherwise : World Waker × List (Op Waker)) :
    World Waker × List (Op Waker) :=
  match world.lock.state.tryLock shared with
  | some state => (hold { world with lock := { world.lock with state } } shared, [])
  | none => otherwise

/-- `wait`, up to its first critical section. -/
def block (world : World Waker) (platform : Platform) (shared : Bool) :
    World Waker × List (Op Waker) :=
  (world.make
    { shared, wake := .task platform.current, priority := platform.priority
      since := platform.now }, [.enqueue world.made])

def spin (world : World Waker) (platform : Platform) (shared : Bool) :
    ℕ → World Waker × List (Op Waker)
  | 0 => world.block platform shared
  | left + 1 =>
    if platform.elsewhere then world.take shared (world, [.spin shared left])
    else world.block platform shared

def enqueue (world : World Waker) (w : ℕ) : World Waker × List (Op Waker) :=
  let (lock, free) := world.lock.enqueue world.made w
  let world := setOwed { world with lock } w false
  if free then (world.hold (world.shared w), []) else (world.setQueued w true, [.blocked w])

def blocked (world : World Waker) (w : ℕ) : World Waker × List (Op Waker) :=
  match (world.lock.waiters w).state with
  | .waiting => (world, [.blocked w])
  | .granted => ((world.setQueued w false).hold (world.shared w), [])
  | .retry => (world, [.again w])

def rearm (world : World Waker) (w : ℕ) : World Waker :=
  { world.setQueued w false with lock := world.lock.setState w .waiting }

def poll (world : World Waker) (w : ℕ) (waker : Waker) : World Waker × List (Op Waker) :=
  if world.queued w then
    match (world.lock.waiters w).state with
    | .granted => (((world.setQueued w false).setIdle w true).hold (world.shared w), [])
    | .retry => (world.rearm w, [.tryLock w waker])
    | .waiting => (world, [.relink w waker])
  else (world, [.tryLock w waker])

def relink (world : World Waker) (w : ℕ) (waker : Waker) : World Waker × List (Op Waker) :=
  if (world.lock.waiters w).linked then
    (setIdle { world with lock := world.lock.setWake w (.waker (some waker)) } w true, [])
  else (world, [.poll w waker])

/-- `poll_lock` before its last critical section: what it writes to the waiter. -/
def start (world : World Waker) (platform : Platform) (w : ℕ) (waker : Waker) : World Waker :=
  let waiter := world.lock.waiters w
  let waiter := if world.started w then waiter
    else { waiter with priority := platform.priority, since := platform.now }
  { world with
    lock := world.lock.setWaiter w { waiter with wake := .waker (some waker) }
    started := Function.update world.started w true }

def tryLock (world : World Waker) (platform : Platform) (w : ℕ) (waker : Waker) :
    World Waker × List (Op Waker) :=
  let world := world.setOwed w false
  match world.lock.state.tryLock (world.shared w) with
  | some state =>
    (hold (setIdle { world with lock := { world.lock with state } } w true) (world.shared w), [])
  | none => (world.start platform w waker, [.pollEnqueue w])

def pollEnqueue (world : World Waker) (w : ℕ) : World Waker × List (Op Waker) :=
  let (lock, free) := world.lock.enqueue world.made w
  let world := setIdle { world with lock } w true
  if free then
    (hold { world with lock := world.lock.setWake w (.waker none) } (world.shared w), [])
  else (world.setQueued w true, [])

def drop (world : World Waker) (w : ℕ) : World Waker × List (Op Waker) :=
  if (world.lock.waiters w).linked then
    let lock := world.lock.unlink w
    let (parked, writerParked) := lock.flags
    let state := { lock.state with
      parked := lock.state.parked && parked
      writerParked := lock.state.writerParked && writerParked }
    let lock := RawLock.setWake { lock with state } w (.waker none)
    ({ world.setQueued w false with lock }, if world.shared w then [] else [.release false])
  else (world, [.dropState w])

def forget (world : World Waker) (w : ℕ) : World Waker :=
  { world.setQueued w false with lock := world.lock.setWaiter w { shared := world.shared w } }

def dropState (world : World Waker) (w : ℕ) : World Waker × List (Op Waker) :=
  match (world.lock.waiters w).state with
  | .granted => (world.forget w, [.unlock (world.shared w)])
  | _ => ((world.forget w).setOwed w false, [.release false])

def setWord (world : World Waker) (state : Word) : World Waker :=
  { world with lock := { world.lock with state } }

/-- `unlock_write` and `unlock_read`, up to `release`. -/
def unlock (world : World Waker) (shared : Bool) : World Waker × List (Op Waker) :=
  let prev := world.lock.state
  if shared then
    (world.setWord { prev with readers := prev.readers - 1 },
      if prev.readers = 1 ∧ prev.parked then [.release false] else [])
  else if prev = { writer := true } then (world.setWord {}, [])
  else (world, [.release true])

def release (world : World Waker) (platform : Platform) (clear : Bool) :
    World Waker × List (Op Waker) :=
  let grant := world.lock.grant world.made clear platform.now
  ({ world with
      lock := grant.lock
      owed := fun w => world.owed w || decide (w ∈ grant.retries) },
    [.waking grant.wakes grant.more])

def waking (world : World Waker) (wakes : List (Wake Waker)) (more : Bool) :
    World Waker × List (Op Waker) :=
  ({ world with woken := world.woken ++ wakes }, if more then [.release false] else [])

def resume (world : World Waker) (platform : Platform) : Op Waker → World Waker × List (Op Waker)
  | .spin shared left => world.spin platform shared left
  | .enqueue w => world.enqueue w
  | .blocked w => world.blocked w
  | .again w => (world.rearm w, [.enqueue w])
  | .poll w waker => world.poll w waker
  | .relink w waker => world.relink w waker
  | .tryLock w waker => world.tryLock platform w waker
  | .pollEnqueue w => world.pollEnqueue w
  | .drop w => world.drop w
  | .dropState w => world.dropState w
  | .unlock shared => world.unlock shared
  | .release clear => world.release platform clear
  | .waking wakes more => world.waking wakes more

inductive Begin (Waker : Type)
  /-- `try_write` and `try_read`. -/
  | tryLock (shared : Bool)
  /-- `write` and `read`. -/
  | lock (shared : Bool)
  /-- A guard is dropped. -/
  | unlock (shared : Bool)
  /-- `LockWait::new`. -/
  | lockWait (shared : Bool)
  | pollLock (w : ℕ) (waker : Waker)
  | drop (w : ℕ)

/-- Only who has the lock unlocks it, and a `LockWait` has one owner. -/
def Begin.possible (world : World Waker) : Begin Waker → Bool
  | .tryLock _ | .lock _ | .lockWait _ => true
  | .unlock shared => decide (0 < world.held shared)
  | .pollLock w _ | .drop w => world.idle w

def begin' (world : World Waker) : Begin Waker → World Waker × List (Op Waker)
  | .tryLock shared => world.take shared (world, [])
  | .lock shared => world.take shared (world, [.spin shared spinLimit])
  | .unlock shared => (world.setHeld shared (world.held shared - 1), [.unlock shared])
  | .lockWait shared => ((world.make { shared }).setIdle world.made true, [])
  | .pollLock w waker => (world.setIdle w false, [.poll w waker])
  | .drop w => (world.setIdle w false, if world.queued w then [.drop w] else [])

/-- The atomic steps: an operation begins, or one under way goes on. -/
inductive Act (Waker : Type)
  | begin (begin : Begin Waker)
  | resume (op : ℕ) (platform : Platform)

def act (world : World Waker) : Act Waker → Option (World Waker)
  | .begin begin =>
    if begin.possible world then
      let (after, more) := world.begin' begin
      some { after with ops := world.ops ++ more }
    else none
  | .resume op platform =>
    match world.ops[op]? with
    | none => none
    | some under =>
      let (after, more) := world.resume platform under
      some { after with ops := world.ops.take op ++ more ++ world.ops.drop (op + 1) }

end World

end EspDevkit.Sync
