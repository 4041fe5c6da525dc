import EspDevkit.Epd.PixelRuns
import Mathlib.Data.Finset.Card

/-!
# Who waits for a retire cycle

The waiters that the engine sees are the callers in `wait_retire`, and whoever
goes there leaves something in flight.
-/

namespace EspDevkit.Epd

open Function

variable {panel : Panel} {Task : Type} {rows : Rows}

/-- In `wait_retire`. -/
def Caller.waits : Caller → Bool
  | .waiting _ | .relocking _ => true
  | _ => false

def Outcome.isWaits : Outcome → Bool
  | .waits => true
  | .done _ => false

namespace Driver

variable {epd before after : Driver panel Task} {action : Action Task}

structure HeldBy (epd : Driver panel Task) (held : Section panel Task) : Prop where
  entered : epd.callers held.task = .entering held.op ∨
    epd.callers held.task = .relocking held.op
  waiters : held.result.waiters + (epd.callers held.task).waits.toNat =
    epd.data.waiters + held.outcome.isWaits.toNat
  busy : held.outcome = .waits → epd.data.activePx ≠ 0
  attempted : ∃ waiters, ({ epd.data with waiters } : Data panel).attempt held.op =
    (held.result, held.outcome)

structure Waiters (epd : Driver panel Task) : Prop where
  counted : ∃ tasks : Finset Task, (∀ task, task ∈ tasks ↔ (epd.callers task).waits = true) ∧
    tasks.card = epd.data.waiters
  held : ∀ held, epd.writing = some held → epd.HeldBy held

namespace Waiters

theorem keep (inv : before.Waiters) (callers : after.callers = before.callers)
    (waiters : after.data.waiters = before.data.waiters)
    (held : ∀ held, after.writing = some held → after.HeldBy held) : after.Waiters where
  counted := by
    rw [callers, waiters]
    exact inv.counted
  held := held

theorem same (inv : before.Waiters) (callers : after.callers = before.callers)
    (data : after.data = before.data) (writing : after.writing = before.writing) :
    after.Waiters := by
  refine inv.keep callers (by rw [data]) fun held writes => ?_
  rw [writing] at writes
  obtain ⟨entered, waiters, busy, attempted⟩ := inv.held held writes
  exact
    { entered := by rwa [callers]
      waiters := by rwa [callers, data]
      busy := by rwa [data]
      attempted := by rwa [data] }

theorem move [DecidableEq Task] (inv : before.Waiters) {task : Task} {caller : Caller}
    {changed : Driver panel Task}
    (changes : changed.data = before.data ∧ changed.writing = before.writing ∧
      changed.callers = before.callers)
    {here : Caller} (pc : before.callers task = here) (waits : caller.waits = here.waits)
    (outside : ∀ op, here ≠ .entering op ∧ here ≠ .relocking op) :
    (changed.move task caller).Waiters := by
  subst pc
  obtain ⟨data, writing, callers⟩ := changes
  have others : ∀ other, ((changed.move task caller).callers other).waits =
      (before.callers other).waits := by
    intro other
    simp only [Driver.move, callers]
    by_cases same : other = task
    · rw [same, update_self, waits]
    · rw [update_of_ne same]
  constructor
  · obtain ⟨tasks, mem, card⟩ := inv.counted
    refine ⟨tasks, fun other => ?_, ?_⟩
    · rw [others]
      exact mem other
    · simp only [Driver.move, data]
      exact card
  · intro held writes
    simp only [Driver.move, writing] at writes
    obtain ⟨entered, waiters, busy, attempted⟩ := inv.held held writes
    have different : held.task ≠ task := by
      rintro rfl
      rcases entered with pc | pc
      · exact (outside held.op).1 pc
      · exact (outside held.op).2 pc
    exact
      { entered := by
          simp only [Driver.move, callers, update_of_ne different]
          exact entered
        waiters := by
          rw [others]
          simp only [Driver.move, data]
          exact waiters
        busy := by
          simp only [Driver.move, data]
          exact busy
        attempted := by
          simp only [Driver.move, data]
          exact attempted }

theorem lockWith (inv : before.Waiters) (sound : before.data.Sound rows) {task : Task} {op : Op}
    (entered : before.callers task = .entering op ∨ before.callers task = .relocking op) :
    (before.lockWith task op { before.data with
      waiters := before.data.waiters - (before.callers task).waits.toNat }).Waiters := by
  refine inv.keep rfl rfl fun held writes => ?_
  cases writes
  have back := sound.back (before.data.waiters - (before.callers task).waits.toNat)
  obtain ⟨waits, done⟩ := back.attempt_waiters op
  have enough : (before.callers task).waits.toNat ≤ before.data.waiters := by
    obtain ⟨tasks, mem, card⟩ := inv.counted
    cases here : (before.callers task).waits with
    | false => exact Nat.zero_le _
    | true =>
      rw [← card]
      exact Finset.card_pos.mpr ⟨task, (mem task).mpr here⟩
  refine
    { entered := entered
      waiters := ?_
      busy := fun outcome => (waits outcome).1
      attempted := ⟨_, rfl⟩ }
  show (Data.attempt _ op).1.waiters + (before.callers task).waits.toNat =
    before.data.waiters + (Data.attempt _ op).2.isWaits.toNat
  cases outcome : (Data.attempt { before.data with
      waiters := before.data.waiters - (before.callers task).waits.toNat } op).2 with
  | waits =>
    rw [(waits outcome).2]
    simp only [Outcome.isWaits, Bool.toNat_true]
    omega
  | done wake =>
    rw [done (by rw [outcome]; nofun)]
    simp only [Outcome.isWaits, Bool.toNat_false]
    omega

theorem unlock [DecidableEq Task] (inv : before.Waiters) {held : Section panel Task}
    (writes : before.writing = some held) :
    ({ before with data := held.result, writing := none }.move held.task
        (Driver.after held.op held.outcome)).Waiters where
  counted := by
    obtain ⟨tasks, mem, card⟩ := inv.counted
    obtain ⟨entered, waiters, _, _⟩ := inv.held held writes
    have now : (Driver.after held.op held.outcome).waits = held.outcome.isWaits := by
      cases held.outcome with
      | waits => rfl
      | done wake =>
        cases wake with
        | true => rfl
        | false =>
          simp only [Driver.after]
          split <;> rfl
    have others : ∀ other, other ≠ held.task →
        ((Function.update before.callers held.task (Driver.after held.op held.outcome)) other).waits =
          (before.callers other).waits := by
      intro other different
      rw [update_of_ne different]
    have without : (tasks.erase held.task).card + (before.callers held.task).waits.toNat =
        before.data.waiters := by
      rw [← card]
      cases was : (before.callers held.task).waits with
      | true =>
        have here := (mem held.task).mpr was
        rw [Finset.card_erase_of_mem here]
        have pos := Finset.card_pos.mpr ⟨_, here⟩
        simp only [Bool.toNat_true]
        omega
      | false =>
        rw [Finset.erase_eq_of_notMem fun here => by
          rw [(mem held.task).mp here] at was
          cases was]
        rfl
    cases outcome : held.outcome.isWaits with
    | true =>
      refine ⟨insert held.task (tasks.erase held.task), fun other => ?_, ?_⟩
      · simp only [Driver.move, Finset.mem_insert, Finset.mem_erase]
        by_cases same : other = held.task
        · subst same
          simp [now, outcome]
        · simp only [same, others other same, mem other, false_or, ne_eq, not_false_eq_true,
            true_and]
      · rw [Finset.card_insert_of_notMem (Finset.notMem_erase _ _)]
        rw [outcome, Bool.toNat_true] at waiters
        show _ = held.result.waiters
        omega
    | false =>
      refine ⟨tasks.erase held.task, fun other => ?_, ?_⟩
      · simp only [Driver.move, Finset.mem_erase]
        by_cases same : other = held.task
        · subst same
          simp [now, outcome]
        · simp only [same, others other same, mem other, ne_eq, not_false_eq_true, true_and]
      · rw [outcome, Bool.toNat_false] at waiters
        show _ = held.result.waiters
        omega
  held _ writes := by cases writes

theorem of_free (inv : before.Waiters) (callers : after.callers = before.callers)
    (waiters : after.data.waiters = before.data.waiters) (free : after.writing = none) :
    after.Waiters :=
  inv.keep callers waiters fun held writes => by
    rw [free] at writes
    cases writes

theorem step [DecidableEq Task] (inv : before.Waiters) (sound : before.data.Sound rows)
    (stepTo : before.step rows action = some after) : after.Waiters := by
  cases moves stepTo with
  | setMode | woken | scans | sends | scanned | skipped | posts => exact inv.same rfl rfl rfl
  | returned => exact inv
  | called pc | tookEvent pc | notified pc | refreshes pc | refreshed pc =>
    exact inv.move ⟨rfl, rfl, rfl⟩ pc rfl fun _ => ⟨nofun, nofun⟩
  | locked pc =>
    have begun := inv.lockWith sound (.inl pc)
    rw [pc] at begun
    exact begun
  | relocked pc =>
    have begun := inv.lockWith sound (.inr pc)
    rw [pc] at begun
    exact begun
  | unlocked writes => exact inv.unlock writes
  | sleeps free | starts free | begins free | retires free => exact inv.of_free rfl rfl free

end Waiters

end Driver

end EspDevkit.Epd

/-!
## Every pixel replays its waveform

The counters and the lives of the pixels in every reachable state of the
engine and its callers.
-/

namespace EspDevkit.Epd

open Transition Option

variable {panel : Panel} {Task : Type} {rows : Rows}

namespace Driver

theorem fits_of_create {luts : Fin 4 → Option ℕ × ℕ} {initial : Driver panel Task}
    (made : create rows luts = some initial) : initial.Inv rows ∧ initial.Waiters := by
  obtain ⟨good, made⟩ := ite_none_left_eq_some.mp made
  cases made
  rw [Bool.or_eq_true, not_or, isNone_iff_eq_none] at good
  have valid : ∀ slot w, (bindWaveform rows (luts slot).1 (luts slot).2).join = some w →
      w.Valid rows := by
    intro slot w held
    unfold bindWaveform at held
    split at held
    · cases held
    · cases init : Waveform.init rows (luts slot).1 (luts slot).2 with
      | none =>
        rw [init] at held
        cases held
      | some v =>
        rw [init] at held
        cases held
        exact Waveform.valid_of_init init
  have none : ∀ {panel : Panel} (p : Px → Bool), p ⟨EPD_B1_IDLE, 15, 15⟩ = false →
      (∑ _y : Fin panel.height, ∑ _x : Fin panel.width,
        if p ⟨EPD_B1_IDLE, 15, 15⟩ then 1 else 0) = 0 := by
    intro panel p never
    simp [never]
  refine ⟨.of_free ?_ rfl, ⟨⟨∅, fun task => ?_, rfl⟩, fun _ writes => nomatch writes⟩⟩
  · exact
      { sound :=
          { counted :=
              { group := fun b1 tracked =>
                  (none (fun px => px.b1 = b1) (decide_eq_false tracked.symm)).symm
                active := (none Px.isActive rfl).symm
                rows := fun y => by simp [Data.rowCount] }
            untracked := rfl
            frame_lt := Nat.succ_pos 63
            valid := valid
            clear := good.2
            idle := fun _ _ _ => rfl }
        replay := fun _ _ flies => nomatch flies
        underway := fun _ held => nomatch held
        starting := by rintro ⟨⟩
        callers := fun _ _ held => nomatch held }
  · simp [Caller.waits]

variable [DecidableEq Task]

theorem inv_of_reachable {luts : Fin 4 → Option ℕ × ℕ} {initial epd : Driver panel Task}
    (made : create rows luts = some initial) (reachable : Reachable (· = initial) (Next rows) epd) :
    epd.Inv rows ∧ epd.Waiters := by
  have start : ∀ state, state = initial → state.Inv rows ∧ state.Waiters := by
    intro state begins
    rw [begins]
    exact fits_of_create made
  have kept : ∀ before after : Driver panel Task, before.Inv rows ∧ before.Waiters →
      Next rows before after → after.Inv rows ∧ after.Waiters := by
    rintro before after ⟨inv, waiters⟩ ⟨action, stepTo⟩
    exact ⟨(inv.step stepTo).1, waiters.step inv.now.sound stepTo⟩
  exact reachable.invariant start kept

end Driver

def Op.arms (d : Data panel) (y : Fin panel.height) (x : Fin panel.width) : Op → Bool
  | .refresh area _ all => d.armsPending area all y x || d.armsIdle area all y x
  | .clear => true
  | _ => false

namespace Driver

variable {epd : Driver panel Task}

theorem armed_of_held (inv : epd.Inv rows) (waiters : epd.Waiters) {held : Section panel Task}
    (writes : epd.writing = some held) (ends : held.outcome.isWaits = false)
    {y : Fin panel.height} {x : Fin panel.width} (arms : held.op.arms epd.data y x = true) :
    Data.IsArmed (held.result.state y x).b1 := by
  obtain ⟨back, attempted⟩ := (waiters.held held writes).attempted
  have ok := inv.op held writes
  obtain ⟨task, op, result, outcome⟩ := held
  dsimp only at attempted ok arms ends ⊢
  cases op with
  | refresh area slot all =>
    simp only [Data.attempt] at attempted
    split at attempted
    · cases attempted
      cases ends
    · have state := congrArg (fun attempt => attempt.1.state y x) attempted
      dsimp only at state
      rw [← state]
      have safe : Data.IsArmed (b1Armed slot epd.data.frame) :=
        Data.isArmed_b1Armed (.inl ok.1)
      have arms' : (({ epd.data with waiters := back } : Data panel).armsPending area all y x ||
          ({ epd.data with waiters := back } : Data panel).armsIdle area all y x) = true := arms
      rcases Data.refreshWalk_state ({ epd.data with waiters := back } : Data panel) area slot all
          y x with ⟨_, _, _, now⟩ | ⟨_, _, _, now⟩ | ⟨pending, idle, _⟩
      · rw [now]
        exact safe
      · rw [now]
        exact safe
      · rw [pending, idle] at arms'
        cases arms'
  | clear =>
    simp only [Data.attempt] at attempted
    split at attempted
    · cases attempted
      cases ends
    · have state := congrArg (fun attempt => attempt.1.state y x) attempted
      dsimp only at state
      rw [← state]
      exact Data.isArmed_clear inv.now.sound.frame_lt
  | draw image => cases arms
  | seed image => cases arms
  | waitDraw => cases arms
  | swap slot w => cases arms

variable [DecidableEq Task]

/-- The counters count; a pixel in flight has played the first steps of its
waveform, one in each frame, and is idle once it has played all of them or only
settling is left and somebody waits. -/
theorem every_pixel_replays {luts : Fin 4 → Option ℕ × ℕ} {initial : Driver panel Task}
    (made : create rows luts = some initial) (reachable : Reachable (· = initial) (Next rows) epd) :
    (epd.writing = none → epd.data.Counted) ∧
      (∀ y x, (epd.data.state y x).isActive = true →
        ∃ w, epd.data.wf (slotOf (epd.data.state y x).b1) = some w ∧
          epd.played y x = List.range (epd.played y x).length ∧
          (epd.played y x).length ≤ w.steps ∧
          (epd.engine.frame = none → (epd.played y x).length < w.steps)) ∧
      (∀ action after, epd.step rows action = some after →
        ∀ y x, PixelStep rows epd action after y x) ∧
      (∀ after, epd.step rows .begin = some after → ∃ frame, after.engine.frame = some frame ∧
        (0 < frame.start.waiters ↔ ∃ task, (epd.callers task).waits = true)) ∧
      (∀ held, epd.writing = some held → held.outcome.isWaits = false →
        ∀ y x, held.op.arms epd.data y x = true → Data.IsArmed (held.result.state y x).b1) := by
  obtain ⟨inv, waiters⟩ := inv_of_reachable made reachable
  refine ⟨fun _ => inv.now.sound.counted, fun y x flies => ?_,
    fun _ _ stepTo => (inv.step stepTo).2, fun after stepTo => ?_,
    fun held writes ends y x arms => armed_of_held inv waiters writes ends arms⟩
  · obtain ⟨w, bound, steps, le, lt⟩ := inv.now.replay y x flies
    refine ⟨w, bound, ?_, ?_, fun idle => ?_⟩
    · rw [steps, List.length_range]
    · rw [steps, List.length_range]
      exact le
    · rw [steps, List.length_range]
      exact lt idle
  · simp only [Driver.step] at stepTo
    split at stepTo
    · cases stepTo
      refine ⟨_, rfl, ?_⟩
      obtain ⟨tasks, mem, card⟩ := waiters.counted
      show 0 < epd.data.waiters ↔ _
      rw [← card, Finset.card_pos]
      constructor
      · rintro ⟨task, here⟩
        exact ⟨task, (mem task).mp here⟩
      · rintro ⟨task, waits⟩
        exact ⟨task, (mem task).mpr waits⟩
    · cases stepTo

/-- Actions one after the other, each taken in a state that is `ok`. -/
def run (rows : Rows) (ok : Driver panel Task → Bool) (epd : Driver panel Task) :
    List (Action Task) → Option (Driver panel Task)
  | [] => some epd
  | action :: rest =>
    if ok epd then
      match epd.step rows action with
      | none => none
      | some epd => run rows ok epd rest
    else none

theorem reachable_of_run {initial after : Driver panel Task} {ok : Driver panel Task → Bool}
    {steps : Driver panel Task → Driver panel Task → Prop} {actions : List (Action Task)}
    (allows : ∀ (before : Driver panel Task) action after, ok before = true →
      before.step rows action = some after → steps before after)
    (reachable : Reachable (· = initial) steps epd)
    (result : epd.run rows ok actions = some after) : Reachable (· = initial) steps after := by
  induction actions generalizing epd with
  | nil =>
    cases result
    exact reachable
  | cons action rest ih =>
    rw [run] at result
    split at result
    · rename_i fine
      split at result
      · cases result
      · rename_i next stepTo
        exact ih (.next reachable (allows epd action next fine stepTo)) result
    · cases result

theorem next_of_step {ok : Driver panel Task → Bool} (before : Driver panel Task)
    (action : Action Task) (after : Driver panel Task) (_ : ok before = true)
    (stepTo : before.step rows action = some after) : Next rows before after :=
  ⟨action, stepTo⟩

def strip : Panel := ⟨4, 1, by decide, by decide, by decide⟩

def top : Fin strip.height := ⟨0, by decide⟩

def left : Fin strip.width := ⟨0, by decide⟩

def darken : Rows := fun _ _ => 0x55555555

def stripLuts : Fin 4 → Option ℕ × ℕ := fun slot =>
  if slot = 0 ∨ slot = 3 then (some 0, 2) else (none, 0)

/-- A caller draws black on the pixels from `x0` to `x1`, and arms them. -/
def draws (task : Fin 3) (x0 x1 : ℤ) : List (Action (Fin 3)) :=
  [.call task (.drawBitmap ⟨⟨x0, 0, x1, 1⟩, .R0, []⟩), .lock task, .unlock, .refreshDrawn task,
    .lock task, .unlock]

def wakes : List (Action (Fin 3)) :=
  [.decide, .setMode ⟨.FAST, false⟩] ++ draws 0 0 2 ++ [.notify 0, .wake, .decide, .begin]

def scans : List (Action (Fin 3)) := List.replicate 8 (.scan false)

def replays : List (Action (Fin 3)) := wakes ++ scans ++ [.post false, .decide, .begin] ++ scans

/-- Both steps are played, and the pixel then shows what was drawn. -/
theorem strip_replays : ∃ epd after : Driver strip (Fin 3), epd.step darken .retire = some after ∧
    epd.played top left = [0, 1] ∧ after.data.state top left = ⟨EPD_B1_IDLE, 0, 0⟩ := by
  obtain ⟨initial, made⟩ : ∃ initial : Driver strip (Fin 3), create darken stripLuts = some initial :=
    isSome_iff_exists.mp (by decide +kernel)
  obtain ⟨epd, result⟩ : ∃ epd : Driver strip (Fin 3), initial.run darken (fun _ => true) replays = some epd := by
    cases made
    exact isSome_iff_exists.mp (by decide +kernel)
  have facts : (initial.run darken (fun _ => true) replays).map (fun epd =>
      (epd.played top left, epd.data.state top left,
        (epd.step darken .retire).map fun after => (after.data.state top left).b1)) =
      some ([0, 1], ⟨1, 15, 0⟩, some EPD_B1_IDLE) := by
    cases made
    decide +kernel
  rw [result] at facts
  simp only [map_some, Option.some.injEq, Prod.mk.injEq] at facts
  obtain ⟨played, state, ends⟩ := facts
  cases stepTo : epd.step darken .retire with
  | none =>
    rw [stepTo] at ends
    cases ends
  | some after =>
    rw [stepTo] at ends
    simp only [map_some, Option.some.injEq] at ends
    obtain ⟨_, _, lives, _⟩ := every_pixel_replays made 
      (reachable_of_run next_of_step (.start rfl) result)
    have flies : (epd.data.state top left).isActive = true := by
      rw [state]
      decide
    have rests : (after.data.state top left).isActive = false := by
      rw [Px.isActive, ends]
      decide
    obtain ⟨shows, _⟩ := (lives .retire after stepTo top left).retires flies rests
    rw [state] at shows
    exact ⟨epd, after, stepTo, played, shows⟩

end Driver

end EspDevkit.Epd
