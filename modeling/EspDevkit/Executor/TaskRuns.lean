import EspDevkit.Executor.TaskView
import EspDevkit.Library.Transition

/-!
# Runs of an executor

Each atomic step of a run keeps the numbers of every task in order.
-/

namespace EspDevkit.Executor

open List Function

variable {Waker : Type}

namespace Inner

variable (inner : Inner Waker) (ops : List (Op Waker)) (task other : ℕ)

theorem view_setTask (value : Task Waker) : (inner.setTask task value).view ops other =
    if other = task then
      { inner.view ops other with
        flags := value.flags, stage := value.stage, joining := value.joinWaker.isSome }
    else inner.view ops other := by
  by_cases here : other = task
  · subst here
    simp only [view, Inner.flags, setTask, update_self, if_true]
    rfl
  · simp only [view, Inner.flags, setTask, update_of_ne here, if_neg here]
    rfl

theorem view_setFlags (flags : Flags) : (inner.setFlags task flags).view ops other =
    if other = task then { inner.view ops other with flags } else inner.view ops other := by
  rw [setFlags, view_setTask]
  split
  · rename_i here
    rw [here]
    rfl
  · rfl

theorem view_setStage (stage : Stage) : (inner.setStage task stage).view ops other =
    if other = task then { inner.view ops other with stage } else inner.view ops other := by
  rw [setStage, view_setTask]
  split
  · rename_i here
    rw [here]
    rfl
  · rfl

theorem view_setJoinWaker (joinWaker : Option Waker) :
    (inner.setJoinWaker task joinWaker).view ops other =
      if other = task then { inner.view ops other with joining := joinWaker.isSome }
      else inner.view ops other := by
  rw [setJoinWaker, view_setTask]
  split
  · rename_i here
    rw [here]
    rfl
  · rfl

theorem view_setHeld (held : Bool) :
    ({ inner with held := Function.update inner.held task held } : Inner Waker).view ops other =
      if other = task then { inner.view ops other with held } else inner.view ops other := by
  by_cases here : other = task
  · subst here
    simp only [view, Inner.flags, update_self, if_true]
  · simp only [view, Inner.flags, update_of_ne here, if_neg here]

theorem view_setWoken (woken : Bool) :
    ({ inner with woken := Function.update inner.woken task woken } : Inner Waker).view ops other =
      if other = task then { inner.view ops other with woken } else inner.view ops other := by
  by_cases here : other = task
  · subst here
    simp only [view, Inner.flags, update_self, if_true]
  · simp only [view, Inner.flags, update_of_ne here, if_neg here]

theorem view_setConsumed (consumed : ℕ) :
    ({ inner with consumed := Function.update inner.consumed task consumed } :
      Inner Waker).view ops other =
      if other = task then { inner.view ops other with consumed } else inner.view ops other := by
  by_cases here : other = task
  · subst here
    simp only [view, Inner.flags, update_self, if_true]
  · simp only [view, Inner.flags, update_of_ne here, if_neg here]

theorem view_dropStage : (inner.dropStage task).view ops other =
    if other = task then
      { inner.view ops other with
        stage := .consumed
        consumed := (inner.view ops other).consumed + (1 - (inner.view ops other).stage.used) }
    else inner.view ops other := by
  have left : (if (inner.tasks task).stage = .consumed then 0 else 1) =
      1 - (inner.tasks task).stage.used := by
    cases (inner.tasks task).stage <;> rfl
  simp only [dropStage, left]
  have consumes := (inner.setStage task .consumed).view_setConsumed ops task other
    (inner.consumed task + (1 - (inner.tasks task).stage.used))
  refine consumes.trans ?_
  rw [view_setStage]
  split
  · rename_i here
    rw [here]
    rfl
  · rfl

theorem view_plus (more : List (Op Waker)) (first rest : List (Op Waker)) :
    inner.view (first ++ more ++ rest) task =
      (inner.view (first ++ rest) task).plus (census task more) := by
  simp only [view, View.plus, census_replace]

end Inner

def Inner.Inv (inner : Inner Waker) : Prop := ∀ task, (inner.view inner.ops task).Inv

/-- The equations hold when `more` goes on beside the other operations. -/
def Holds (inner : Inner Waker) (ops more : List (Op Waker)) : Prop :=
  ∀ task, ((inner.view ops task).plus (census task more)).Inv

namespace Holds

variable {inner : Inner Waker} {ops : List (Op Waker)}

theorem change {before after : Inner Waker} {now more : List (Op Waker)}
    (holds : Holds before ops now) (task : ℕ) (about : ∀ op ∈ now ++ more, op.task = task)
    (here : ((after.view ops task).plus (census task more)).Inv)
    (there : ∀ other, other ≠ task → after.view ops other = before.view ops other) :
    Holds after ops more := by
  intro other
  by_cases same : other = task
  · rw [same]
    exact here
  · have none : ∀ list : List (Op Waker), (∀ op ∈ list, op.task = task) → census other list = 0 := by
      intro list about
      induction list with
      | nil => rfl
      | cons op list ih =>
        have apart : op.task ≠ other := by
          rw [about op (by simp)]
          exact Ne.symm same
        rw [census, if_neg apart, Share.zero_add]
        exact ih fun op member => about op (mem_cons_of_mem _ member)
    have before := holds other
    rw [none now fun op member => about op (mem_append_left _ member)] at before
    rw [none more fun op member => about op (mem_append_right _ member), there other same]
    exact before

theorem step {before after : Inner Waker} {old new : Op Waker} (holds : Holds before ops [old])
    (task : ℕ) (same : old.task = task ∧ new.task = task)
    (here : ((after.view ops task).plus new.share).Inv)
    (there : ∀ other, other ≠ task → after.view ops other = before.view ops other) :
    Holds after ops [new] := by
  refine holds.change task (by simp [same]) ?_ there
  rw [census, if_pos same.2, census_nil, Share.add_zero]
  exact here

theorem done {before after : Inner Waker} {old : Op Waker} (holds : Holds before ops [old])
    (task : ℕ) (same : old.task = task) (here : (after.view ops task).Inv)
    (there : ∀ other, other ≠ task → after.view ops other = before.view ops other) :
    Holds after ops [] :=
  holds.change task (by simp [same]) here there

theorem start {before after : Inner Waker} {new : Op Waker} (holds : Holds before ops [])
    (task : ℕ) (same : new.task = task) (here : ((after.view ops task).plus new.share).Inv)
    (there : ∀ other, other ≠ task → after.view ops other = before.view ops other) :
    Holds after ops [new] := by
  refine holds.change task (by simp [same]) ?_ there
  rw [census, if_pos same, census_nil, Share.add_zero]
  exact here

theorem single {task : ℕ} {op : Op Waker} (holds : Holds inner ops [op]) (here : op.task = task) :
    ((inner.view ops task).plus op.share).Inv := by
  have := holds task
  rw [census, census_nil, if_pos here, Share.add_zero] at this
  exact this

theorem sound (inner : Inner Waker) (ops : List (Op Waker)) (task : ℕ) :
    (inner.view ops task).share.Sound :=
  census_sound task ops

theorem runTask {task : ℕ} (holds : Holds inner ops [.runTask task]) :
    Holds (inner.runTask task).1 ops (inner.runTask task).2 := by
  have before : ((inner.view ops task).plus { owns := 1 }).Inv := holds.single rfl
  have open' : ¬ (inner.flags task).complete = true := by
    rw [show (inner.flags task).complete = false from before.runTask_open]
    simp
  simp only [Inner.runTask, if_neg open']
  split
  · rename_i aborts
    refine holds.step task ⟨rfl, rfl⟩ ?_ fun other apart => ?_
    · rw [Inner.view_setWoken, Inner.view_setFlags, if_pos rfl, if_pos rfl]
      exact before.runTask (sound inner ops task) fun _ => aborts
    · rw [Inner.view_setWoken, Inner.view_setFlags, if_neg apart, if_neg apart]
  · refine holds.step task ⟨rfl, rfl⟩ ?_ fun other apart => ?_
    · rw [Inner.view_setWoken, Inner.view_setFlags, if_pos rfl, if_pos rfl]
      exact before.runTask (sound inner ops task) nofun
    · rw [Inner.view_setWoken, Inner.view_setFlags, if_neg apart, if_neg apart]

theorem endPoll {task : ℕ} (holds : Holds inner ops [.polling task]) (ready : Bool) :
    Holds (inner.endPoll task ready).1 ops (inner.endPoll task ready).2 := by
  have before : ((inner.view ops task).plus { owns := 1, runs := 1 }).Inv := holds.single rfl
  have whole : (inner.tasks task).stage = .running := (before.polling (sound inner ops task)).1
  simp only [Inner.endPoll, if_neg (not_not.mpr whole)]
  split
  · refine holds.step task ⟨rfl, rfl⟩ ?_ fun other apart => ?_
    · rw [Inner.view_setStage, if_pos rfl]
      exact before.ready (sound inner ops task)
    · rw [Inner.view_setStage, if_neg apart]
  · exact holds.step task ⟨rfl, rfl⟩ before fun _ _ => rfl

theorem dropAborted {task : ℕ} (holds : Holds inner ops [.dropping task]) :
    Holds (inner.dropStage task) ops [.finish task] := by
  have before : ((inner.view ops task).plus { owns := 1, runs := 1, dies := 1 }).Inv :=
    holds.single rfl
  obtain ⟨whole, after⟩ := before.dropAborted (sound inner ops task)
  refine holds.step task ⟨rfl, rfl⟩ ?_ fun other apart => ?_
  · rw [Inner.view_dropStage, if_pos rfl, whole]
    exact after
  · rw [Inner.view_dropStage, if_neg apart]

theorem suspend {task : ℕ} (holds : Holds inner ops [.suspending task]) :
    Holds (inner.suspend task).1 ops (inner.suspend task).2 := by
  have before : ((inner.view ops task).plus { owns := 1, runs := 1 }).Inv := holds.single rfl
  have after := before.suspend
  have there : ∀ other, other ≠ task →
      (inner.setFlags task { inner.flags task with running := false }).view ops other =
        inner.view ops other := by
    intro other apart
    rw [Inner.view_setFlags, if_neg apart]
  have here : (inner.setFlags task { inner.flags task with running := false }).view ops task =
      { inner.view ops task with flags := { inner.flags task with running := false } } := by
    rw [Inner.view_setFlags, if_pos rfl]
  simp only [Inner.suspend]
  split
  · rename_i again
    have again : (inner.view ops task).flags.scheduled = true := again
    rw [again] at after
    exact holds.step task ⟨rfl, rfl⟩ (by rw [here]; exact after) there
  · rename_i again
    have again : (inner.view ops task).flags.scheduled = false := eq_false_of_ne_true again
    rw [again] at after
    exact holds.done task rfl (by rw [here]; exact after) there

theorem finish {task : ℕ} (holds : Holds inner ops [.finish task]) :
    Holds (inner.finish task).1 ops (inner.finish task).2 := by
  have before : ((inner.view ops task).plus { owns := 1, runs := 1, ends := 1 }).Inv :=
    holds.single rfl
  have after := before.finish (sound inner ops task)
  have unlisted : ∀ (inner : Inner Waker) other, ({ inner with all := inner.all.erase task } :
      Inner Waker).view ops other =
        if other = task then
          { inner.view ops other with registered := (inner.view ops other).registered - 1 }
        else inner.view ops other := by
    intro inner other
    by_cases here : other = task
    · rw [if_pos here, here]
      simp only [Inner.view, count_erase_self]
      rfl
    · rw [if_neg here]
      simp only [Inner.view, count_erase_of_ne here]
      rfl
  simp only [Inner.finish]
  refine holds.step task ⟨rfl, rfl⟩ ?_ fun other apart => ?_
  · rw [unlisted, if_pos rfl, Inner.view_setJoinWaker, if_pos rfl, Inner.view_setFlags, if_pos rfl]
    exact after
  · rw [unlisted, if_neg apart, Inner.view_setJoinWaker, if_neg apart, Inner.view_setFlags,
      if_neg apart]

theorem dropLeft {task : ℕ} {op : Op Waker} (holds : Holds inner ops [op])
    (same : op.task = task ∧ op.share = { drops := 1 }) : Holds (inner.dropStage task) ops [] := by
  have before : ((inner.view ops task).plus { drops := 1 }).Inv := same.2 ▸ holds.single same.1
  refine holds.done task same.1 ?_ fun other apart => ?_
  · rw [Inner.view_dropStage, if_pos rfl]
    exact before.dropLeft (sound inner ops task)
  · rw [Inner.view_dropStage, if_neg apart]

theorem view_queue (inner : Inner Waker) (ops : List (Op Waker)) (task other : ℕ) :
    ({ inner with queue := inner.queue ++ [task] } : Inner Waker).view ops other =
      if other = task then { inner.view ops other with queued := (inner.view ops other).queued + 1 }
      else inner.view ops other := by
  by_cases here : other = task
  · rw [if_pos here, here]
    simp only [Inner.view, count_append, count_singleton_self]
    rfl
  · rw [if_neg here]
    simp only [Inner.view, count_append, count_singleton, beq_iff_eq, Ne.symm here,
      if_false, Nat.add_zero]
    rfl

theorem enqueue {task : ℕ} {abort : Bool} (holds : Holds inner ops [.enqueue task abort]) :
    Holds (inner.enqueue task abort).1 ops (inner.enqueue task abort).2 := by
  have before : ((inner.view ops task).plus
      { owns := 1, lets := if abort then 1 else 0 }).Inv := holds.single rfl
  have after := before.enqueue
  have there : ∀ other, other ≠ task →
      ({ inner with queue := inner.queue ++ [task] } : Inner Waker).view ops other =
        inner.view ops other := by
    intro other apart
    rw [view_queue, if_neg apart]
  simp only [Inner.enqueue]
  cases abort with
  | true => exact holds.step task ⟨rfl, rfl⟩ (by rw [view_queue, if_pos rfl]; exact after) there
  | false => exact holds.done task rfl (by rw [view_queue, if_pos rfl]; exact after) there

theorem register {task : ℕ} {waker : Waker} (holds : Holds inner ops [.register task waker]) :
    Holds (inner.register task waker).1 ops (inner.register task waker).2 := by
  have before : ((inner.view ops task).plus { asks := 1 }).Inv := holds.single rfl
  simp only [Inner.register]
  split
  · rename_i complete
    exact holds.step task ⟨rfl, rfl⟩ (before.registerLate complete)
      fun _ _ => rfl
  · rename_i waits
    have waits : (inner.flags task).complete = false := by simpa using waits
    refine holds.done task rfl ?_ fun other apart => ?_
    · rw [Inner.view_setHeld, if_pos rfl, Inner.view_setJoinWaker, if_pos rfl]
      exact before.register (sound inner ops task) waits
    · rw [Inner.view_setHeld, if_neg apart, Inner.view_setJoinWaker, if_neg apart]

theorem takeOutput {task : ℕ} (holds : Holds inner ops [.takeOutput task]) :
    inner.takeOutput task = some (inner.dropStage task, [.detach task]) ∧
      Holds (inner.dropStage task) ops [.detach task] := by
  have before : ((inner.view ops task).plus { asks := 1, takes := 1 }).Inv := holds.single rfl
  obtain ⟨output, after⟩ := before.takeOutput (sound inner ops task)
  have stored : (inner.tasks task).stage = .finished := output
  refine ⟨by rw [Inner.takeOutput, if_pos stored], ?_⟩
  refine holds.step task ⟨rfl, rfl⟩ ?_ fun other apart => ?_
  · rw [Inner.view_dropStage, if_pos rfl, output]
    exact after
  · rw [Inner.view_dropStage, if_neg apart]

theorem detach {task : ℕ} (holds : Holds inner ops [.detach task]) :
    Holds (inner.detach task).1 ops (inner.detach task).2 := by
  have before : ((inner.view ops task).plus { lets := 1 }).Inv := holds.single rfl
  have after := before.detach
  have view : ∀ other, ((inner.setFlags task { inner.flags task with handle := false }).setJoinWaker
      task none).view ops other = if other = task then
        { inner.view ops other with
          flags := { inner.flags task with handle := false }, joining := false }
      else inner.view ops other := by
    intro other
    rw [Inner.view_setJoinWaker, Inner.view_setFlags]
    split <;> rfl
  have there := fun other (apart : other ≠ task) => (view other).trans (if_neg apart)
  simp only [Inner.detach]
  split
  · rename_i complete
    have complete : (inner.view ops task).flags.complete = true := complete
    rw [complete] at after
    exact holds.step task ⟨rfl, rfl⟩ (by rw [view, if_pos rfl]; exact after) there
  · rename_i complete
    have complete : (inner.view ops task).flags.complete = false := eq_false_of_ne_true complete
    rw [complete] at after
    exact holds.done task rfl (by rw [view, if_pos rfl]; exact after) there

theorem spawn (holds : Holds inner ops []) : Holds inner.spawn ops [] := by
  have before : (inner.view ops inner.made).Inv := holds inner.made
  have after := before.spawn (sound inner ops inner.made) (by simp [Inner.view])
  have view : ∀ other, inner.spawn.view ops other =
      if other = inner.made then
        { inner.view ops other with
          flags := { scheduled := true, handle := true }
          queued := (inner.view ops other).queued + 1
          registered := (inner.view ops other).registered + 1, held := true, made := true }
      else inner.view ops other := by
    intro other
    by_cases here : other = inner.made
    · rw [if_pos here, here]
      simp [Inner.spawn, Inner.view, Inner.flags, Inner.setFlags, Inner.setTask]
    · have bound : other < inner.made + 1 ↔ other < inner.made := by omega
      rw [if_neg here]
      simp [Inner.spawn, Inner.view, Inner.flags, Inner.setFlags, Inner.setTask, here, bound,
        Ne.symm here]
  refine holds.change inner.made (by simp) ?_ fun other apart => ?_
  · rw [view, if_pos rfl]
    exact after
  · rw [view, if_neg apart]

theorem next (holds : Holds inner ops []) : Holds inner.next.1 ops inner.next.2 := by
  simp only [Inner.next]
  split
  · exact holds
  · rename_i task queue eq
    have before : (inner.view ops task).Inv := holds task
    have view : inner.view ops task =
        { ({ inner with queue } : Inner Waker).view ops task with queued := queue.count task + 1 } := by
      simp only [Inner.view, eq, count_cons_self]
      rfl
    refine holds.start task rfl ?_ fun other apart => ?_
    · rw [view] at before
      exact before.next
    · simp only [Inner.view, eq, count_cons_of_ne (Ne.symm apart)]
      rfl

theorem startIf {before after : Inner Waker} {new : Op Waker} {needed : Bool}
    (holds : Holds before ops []) (task : ℕ) (same : new.task = task)
    (here : ((after.view ops task).plus (if needed then new.share else 0)).Inv)
    (there : ∀ other, other ≠ task → after.view ops other = before.view ops other) :
    Holds after ops (if needed then [new] else []) := by
  cases needed with
  | true => exact holds.start task same here there
  | false => exact holds.change task (by simp) here there

theorem wake {task : ℕ} (holds : Holds inner ops []) (made : task < inner.made) :
    Holds (inner.wake task).1 ops (inner.wake task).2 := by
  have before : (inner.view ops task).Inv := holds task
  have after := before.wake (by simpa [Inner.view] using made)
  simp only [Inner.wake]
  refine holds.startIf task rfl ?_ fun other apart => ?_
  · rw [Inner.view_setWoken, if_pos rfl, Inner.view_setFlags, if_pos rfl]
    have quiet : (inner.view ops task).flags.quiet = (inner.flags task).quiet := rfl
    rw [quiet] at after
    generalize (inner.flags task).quiet = quiet at after ⊢
    cases quiet <;> exact after
  · rw [Inner.view_setWoken, if_neg apart, Inner.view_setFlags, if_neg apart]

theorem abort {task : ℕ} (holds : Holds inner ops []) (mine : inner.held task) :
    Holds (inner.abort task).1 ops (inner.abort task).2 := by
  have before : (inner.view ops task).Inv := holds task
  have after := before.abort mine (before.made_of_held mine)
  have view : ∀ other, ({ inner.setFlags task
      { inner.flags task with aborted := true, scheduled := true } with
        held := Function.update (inner.setFlags task
          { inner.flags task with aborted := true, scheduled := true }).held task false } :
      Inner Waker).view ops other = if other = task then
        { inner.view ops other with
          flags := { inner.flags task with aborted := true, scheduled := true }, held := false }
      else inner.view ops other := by
    intro other
    rw [Inner.view_setHeld, Inner.view_setFlags]
    split <;> rfl
  have there := fun other (apart : other ≠ task) => (view other).trans (if_neg apart)
  simp only [Inner.abort]
  cases quiet : (inner.flags task).quiet with
  | true =>
    have quiet : (inner.view ops task).flags.quiet = true := quiet
    rw [quiet] at after
    exact holds.start task rfl (by rw [view, if_pos rfl]; exact after) there
  | false =>
    have quiet : (inner.view ops task).flags.quiet = false := quiet
    rw [quiet] at after
    exact holds.start task rfl (by rw [view, if_pos rfl]; exact after) there

theorem pollHandle {task : ℕ} (holds : Holds inner ops []) (mine : inner.held task)
    (waker : Waker) :
    Holds (inner.pollHandle task waker).1 ops (inner.pollHandle task waker).2 := by
  have before : (inner.view ops task).Inv := holds task
  have after := before.pollHandle mine
  have there : ∀ other, other ≠ task →
      ({ inner with held := Function.update inner.held task false } : Inner Waker).view ops other =
        inner.view ops other := by
    intro other apart
    rw [Inner.view_setHeld, if_neg apart]
  simp only [Inner.pollHandle]
  split
  · rename_i complete
    have complete : (inner.view ops task).flags.complete = true := complete
    rw [complete] at after
    exact holds.start task rfl (by rw [Inner.view_setHeld, if_pos rfl]; exact after) there
  · rename_i complete
    have complete : (inner.view ops task).flags.complete = false := eq_false_of_ne_true complete
    rw [complete] at after
    exact holds.start task rfl (by rw [Inner.view_setHeld, if_pos rfl]; exact after) there

theorem dropHandle {task : ℕ} (holds : Holds inner ops []) (mine : inner.held task) :
    Holds (inner.dropHandle task).1 ops (inner.dropHandle task).2 := by
  have before : (inner.view ops task).Inv := holds task
  simp only [Inner.dropHandle]
  refine holds.start task rfl ?_ fun other apart => ?_
  · rw [Inner.view_setHeld, if_pos rfl]
    exact before.dropHandle mine
  · rw [Inner.view_setHeld, if_neg apart]

end Holds

/-- Every atomic step of an operation keeps the equations, and none fails. -/
theorem Holds.resume {inner : Inner Waker} {ops : List (Op Waker)} {op : Op Waker}
    (holds : Holds inner ops [op]) (ready : Bool) :
    ∃ after more, inner.resume ready op = some (after, more) ∧ Holds after ops more := by
  cases op with
  | runTask task => exact ⟨_, _, rfl, holds.runTask⟩
  | polling task => exact ⟨_, _, rfl, holds.endPoll ready⟩
  | dropping task => exact ⟨_, _, rfl, holds.dropAborted⟩
  | suspending task => exact ⟨_, _, rfl, holds.suspend⟩
  | finish task => exact ⟨_, _, rfl, holds.finish⟩
  | finished task handle waker =>
    refine ⟨_, _, rfl, ?_⟩
    cases handle with
    | true => exact holds.done task rfl (holds.single rfl) fun _ _ => rfl
    | false => exact holds.dropLeft ⟨rfl, rfl⟩
  | enqueue task abort => exact ⟨_, _, rfl, holds.enqueue⟩
  | register task waker => exact ⟨_, _, rfl, holds.register⟩
  | takeOutput task => exact ⟨_, _, holds.takeOutput.1, holds.takeOutput.2⟩
  | detach task => exact ⟨_, _, rfl, holds.detach⟩
  | dropOutput task => exact ⟨_, _, rfl, holds.dropLeft ⟨rfl, rfl⟩⟩

theorem Holds.begin' {inner : Inner Waker} {ops : List (Op Waker)} (holds : Holds inner ops [])
    {begin : Inner.Begin Waker} (possible : begin.possible inner) :
    Holds (inner.begin' begin).1 ops (inner.begin' begin).2 := by
  cases begin with
  | spawn => exact holds.spawn
  | next => exact holds.next
  | wake task => exact holds.wake (of_decide_eq_true possible)
  | abort task => exact holds.abort possible
  | pollHandle task waker => exact holds.pollHandle possible waker
  | dropHandle task => exact holds.dropHandle possible

namespace Inner

inductive Initial : Inner Waker → Prop
  | new : Initial {}

abbrev Reachable : Inner Waker → Prop := Transition.Reachable Initial Step

theorem Inv.initial {inner : Inner Waker} (initial : Initial inner) : inner.Inv := by
  cases initial
  intro task
  have nothing : View.Inv ⟨{}, .running, {}, 0, 0, false, false, false, 0, false⟩ := by
    constructor <;> simp [Stage.used]
  exact nothing

theorem Inv.holds {inner : Inner Waker} (inv : inner.Inv) {first rest more : List (Op Waker)}
    (ops : inner.ops = first ++ more ++ rest) : Holds inner (first ++ rest) more := by
  intro task
  have here := inv task
  rw [ops, view_plus] at here
  exact here

theorem Holds.inv {inner : Inner Waker} {first rest more : List (Op Waker)}
    (holds : Holds inner (first ++ rest) more) :
    Inv { inner with ops := first ++ more ++ rest } := by
  intro task
  rw [view_plus]
  exact holds task

theorem Inv.step {before after : Inner Waker} (inv : before.Inv) (step : Step before after) :
    after.Inv := by
  cases step with
  | begin begin possible eq =>
    have holds : Holds before (before.ops ++ []) [] := inv.holds (by simp)
    have later := holds.begin' possible
    rw [eq] at later
    simpa using Holds.inv later
  | resume first op rest ready ops eq =>
    have holds : Holds before (first ++ rest) [op] := inv.holds (by simp [ops])
    obtain ⟨after, more, same, later⟩ := holds.resume ready
    cases same.symm.trans eq
    exact Holds.inv later

theorem Inv.of_reachable {inner : Inner Waker} (reachable : Reachable inner) : inner.Inv :=
  reachable.invariant (fun _ => .initial) fun _ _ inv => inv.step

end Inner

namespace Op

def polls (task : ℕ) : Op Waker → Bool
  | polling other => decide (other = task)
  | _ => false

def brings (op : Op Waker) (task : ℕ) : Bool :=
  match op with
  | runTask other | polling other | dropping other | suspending other | finish other
  | enqueue other _ => decide (other = task)
  | _ => false

def dropsLeft (op : Op Waker) (task : ℕ) : Bool :=
  match op with
  | finished other handle _ => decide (other = task) && !handle
  | dropOutput other => decide (other = task)
  | _ => false

end Op

end EspDevkit.Executor
