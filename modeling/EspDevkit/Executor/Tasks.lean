import Mathlib.Data.List.Count
import Mathlib.Logic.Function.Basic

/-!
# Executor tasks

Tasks, the ready queue and the registry of an executor, and everything that is
under way on its runners and elsewhere.  An operation is taken apart into its
atomic steps: each change of a task's flags and each critical section is one,
and between two of them any other operation may take steps.
-/

namespace EspDevkit.Executor

/-- The bits of `Header::state`. -/
structure Flags where
  scheduled : Bool := false
  running : Bool := false
  complete : Bool := false
  aborted : Bool := false
  handle : Bool := false
  deriving DecidableEq, Repr

def Flags.quiet (flags : Flags) : Bool := !(flags.scheduled || flags.running || flags.complete)

inductive Stage
  /-- The future. -/
  | running
  /-- Its output. -/
  | finished
  | consumed
  deriving DecidableEq, Repr

structure Task (Waker : Type) where
  flags : Flags := {}
  stage : Stage := .running
  joinWaker : Option Waker := none

inductive Op (Waker : Type)
  /-- `run_task`, from its start. -/
  | runTask (task : ℕ)
  /-- Inside the poll of the future. -/
  | polling (task : ℕ)
  /-- `run_task` of an aborted task. -/
  | dropping (task : ℕ)
  /-- `run_task` after the poll was pending. -/
  | suspending (task : ℕ)
  | finish (task : ℕ)
  /-- `finish` after its critical section: whether there is a handle to leave
  the output to, and who waits for it. -/
  | finished (task : ℕ) (handle : Bool) (waker : Option Waker)
  /-- `enqueue`; of `JoinHandle::abort`, which goes on, or not. -/
  | enqueue (task : ℕ) (abort : Bool)
  /-- `JoinHandle::poll` of a task that was not complete. -/
  | register (task : ℕ) (waker : Waker)
  | takeOutput (task : ℕ)
  | detach (task : ℕ)
  /-- `detach` after its critical section, of a task that was complete. -/
  | dropOutput (task : ℕ)

/-- An executor and the operations under way; what was polled, woken and
consumed so far is noted beside. -/
structure Inner (Waker : Type) where
  tasks : ℕ → Task Waker := fun _ => {}
  made : ℕ := 0
  queue : List ℕ := []
  /-- The registry. -/
  all : List ℕ := []
  ops : List (Op Waker) := []
  /-- Whether a task's `JoinHandle` is there with no operation under way. -/
  held : ℕ → Bool := fun _ => false
  /-- Whether a task was woken since it last began to run. -/
  woken : ℕ → Bool := fun _ => false
  /-- How often the future or the output was consumed. -/
  consumed : ℕ → ℕ := fun _ => 0
  joined : List Waker := []

namespace Inner

variable {Waker : Type}

def setTask (executor : Inner Waker) (task : ℕ) (value : Task Waker) : Inner Waker :=
  { executor with tasks := Function.update executor.tasks task value }

def flags (executor : Inner Waker) (task : ℕ) : Flags := (executor.tasks task).flags

def setFlags (executor : Inner Waker) (task : ℕ) (flags : Flags) : Inner Waker :=
  executor.setTask task { executor.tasks task with flags }

def setStage (executor : Inner Waker) (task : ℕ) (stage : Stage) : Inner Waker :=
  executor.setTask task { executor.tasks task with stage }

def setJoinWaker (executor : Inner Waker) (task : ℕ) (joinWaker : Option Waker) :
    Inner Waker :=
  executor.setTask task { executor.tasks task with joinWaker }

/-- `drop_stage`, which consumes what is left. -/
def dropStage (executor : Inner Waker) (task : ℕ) : Inner Waker :=
  let left := if (executor.tasks task).stage = .consumed then 0 else 1
  { executor.setStage task .consumed with
    consumed := Function.update executor.consumed task (executor.consumed task + left) }

/-- `spawn`: its critical section. -/
def spawn (executor : Inner Waker) : Inner Waker :=
  let task := executor.made
  { executor.setFlags task { scheduled := true, handle := true } with
    made := executor.made + 1
    queue := executor.queue ++ [task]
    all := task :: executor.all
    held := Function.update executor.held task true }

/-- `next`: a runner takes a task off the queue. -/
def next (executor : Inner Waker) : Inner Waker × List (Op Waker) :=
  match executor.queue with
  | [] => (executor, [])
  | task :: queue => ({ executor with queue }, [.runTask task])

/-- `wake`, up to the queue. -/
def wake (executor : Inner Waker) (task : ℕ) : Inner Waker × List (Op Waker) :=
  let prev := executor.flags task
  let executor := executor.setFlags task { prev with scheduled := true }
  ({ executor with woken := Function.update executor.woken task true },
    if prev.quiet then [.enqueue task false] else [])

/-- `JoinHandle::abort`, up to the queue; the handle is given up. -/
def abort (executor : Inner Waker) (task : ℕ) : Inner Waker × List (Op Waker) :=
  let prev := executor.flags task
  let executor := executor.setFlags task { prev with aborted := true, scheduled := true }
  ({ executor with held := Function.update executor.held task false },
    if prev.quiet then [.enqueue task true] else [.detach task])

/-- `JoinHandle::poll`, up to its first look at the flags. -/
def pollHandle (executor : Inner Waker) (task : ℕ) (waker : Waker) :
    Inner Waker × List (Op Waker) :=
  ({ executor with held := Function.update executor.held task false },
    if (executor.flags task).complete then [.takeOutput task] else [.register task waker])

/-- `JoinHandle::drop`. -/
def dropHandle (executor : Inner Waker) (task : ℕ) : Inner Waker × List (Op Waker) :=
  ({ executor with held := Function.update executor.held task false }, [.detach task])

def runTask (executor : Inner Waker) (task : ℕ) : Inner Waker × List (Op Waker) :=
  let prev := executor.flags task
  let executor := executor.setFlags task { prev with scheduled := false, running := true }
  let executor := { executor with woken := Function.update executor.woken task false }
  if prev.complete then (executor, [])
  else if prev.aborted then (executor, [.dropping task])
  else (executor, [.polling task])

def endPoll (executor : Inner Waker) (task : ℕ) (ready : Bool) :
    Inner Waker × List (Op Waker) :=
  if (executor.tasks task).stage ≠ .running then (executor, [.finish task])
  else if ready then (executor.setStage task .finished, [.finish task])
  else (executor, [.suspending task])

def suspend (executor : Inner Waker) (task : ℕ) : Inner Waker × List (Op Waker) :=
  let prev := executor.flags task
  (executor.setFlags task { prev with running := false },
    if prev.scheduled then [.enqueue task false] else [])

/-- `finish`: its critical section. -/
def finish (executor : Inner Waker) (task : ℕ) : Inner Waker × List (Op Waker) :=
  let prev := executor.flags task
  let waker := (executor.tasks task).joinWaker
  let executor := (executor.setFlags task
    { prev with running := false, scheduled := false, complete := true }).setJoinWaker task none
  ({ executor with all := executor.all.erase task }, [.finished task prev.handle waker])

/-- `finish`, after its critical section. -/
def afterFinish (executor : Inner Waker) (task : ℕ) (handle : Bool) (waker : Option Waker) :
    Inner Waker × List (Op Waker) :=
  let executor := if handle then executor else executor.dropStage task
  ({ executor with joined := executor.joined ++ waker.toList }, [])

def enqueue (executor : Inner Waker) (task : ℕ) (abort : Bool) :
    Inner Waker × List (Op Waker) :=
  ({ executor with queue := executor.queue ++ [task] }, if abort then [.detach task] else [])

/-- `JoinHandle::poll`: the critical section that leaves the waker. -/
def register (executor : Inner Waker) (task : ℕ) (waker : Waker) :
    Inner Waker × List (Op Waker) :=
  if (executor.flags task).complete then (executor, [.takeOutput task])
  else
    let executor := executor.setJoinWaker task (some waker)
    ({ executor with held := Function.update executor.held task true }, [])

/-- `take_output`; `none` when there is none, which panics. -/
def takeOutput (executor : Inner Waker) (task : ℕ) :
    Option (Inner Waker × List (Op Waker)) :=
  if (executor.tasks task).stage = .finished then some (executor.dropStage task, [.detach task])
  else none

/-- `detach`: its critical section. -/
def detach (executor : Inner Waker) (task : ℕ) : Inner Waker × List (Op Waker) :=
  let prev := executor.flags task
  ((executor.setFlags task { prev with handle := false }).setJoinWaker task none,
    if prev.complete then [.dropOutput task] else [])

/-- One more atomic step of an operation; `ready` is how a poll ends. -/
def resume (executor : Inner Waker) (ready : Bool) :
    Op Waker → Option (Inner Waker × List (Op Waker))
  | .runTask task => some (executor.runTask task)
  | .polling task => some (executor.endPoll task ready)
  | .dropping task => some (executor.dropStage task, [.finish task])
  | .suspending task => some (executor.suspend task)
  | .finish task => some (executor.finish task)
  | .finished task handle waker => some (executor.afterFinish task handle waker)
  | .enqueue task abort => some (executor.enqueue task abort)
  | .register task waker => some (executor.register task waker)
  | .takeOutput task => executor.takeOutput task
  | .detach task => some (executor.detach task)
  | .dropOutput task => some (executor.dropStage task, [])

inductive Begin (Waker : Type)
  | spawn
  | next
  | wake (task : ℕ)
  | abort (task : ℕ)
  | pollHandle (task : ℕ) (waker : Waker)
  | dropHandle (task : ℕ)

def Begin.possible (executor : Inner Waker) : Begin Waker → Bool
  | .spawn | .next => true
  | .wake task => decide (task < executor.made)
  | .abort task | .pollHandle task _ | .dropHandle task => executor.held task

def begin' (executor : Inner Waker) : Begin Waker → Inner Waker × List (Op Waker)
  | .spawn => (executor.spawn, [])
  | .next => executor.next
  | .wake task => executor.wake task
  | .abort task => executor.abort task
  | .pollHandle task waker => executor.pollHandle task waker
  | .dropHandle task => executor.dropHandle task

inductive Step : Inner Waker → Inner Waker → Prop
  | begin (executor : Inner Waker) (begin : Begin Waker) (possible : begin.possible executor)
      {after : Inner Waker} {more : List (Op Waker)} (eq : executor.begin' begin = (after, more)) :
      Step executor { after with ops := executor.ops ++ more }
  | resume (executor : Inner Waker) (first : List (Op Waker)) (op : Op Waker)
      (rest : List (Op Waker)) (ready : Bool) (ops : executor.ops = first ++ op :: rest)
      {after : Inner Waker} {more : List (Op Waker)}
      (eq : executor.resume ready op = some (after, more)) :
      Step executor { after with ops := first ++ more ++ rest }

end Inner

end EspDevkit.Executor
