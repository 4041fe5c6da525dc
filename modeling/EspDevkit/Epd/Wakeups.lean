import EspDevkit.Epd.RefreshWaiters

/-!
# Wake-ups of the callers

The event is binary, so one post frees one caller.
-/

namespace EspDevkit.Epd

open Relation Transition Option Function

variable {panel : Panel} {Task : Type} {rows : Rows}

def Caller.isBlocked : Caller → Bool
  | .waiting _ => true
  | _ => false

theorem Caller.isBlocked_iff {caller : Caller} :
    caller.isBlocked = true ↔ ∃ op, caller = .waiting op := by
  cases caller with
  | waiting op => exact ⟨fun _ => ⟨op, rfl⟩, fun _ => rfl⟩
  | idle | entering | relocking | notifying | drawn => simp [isBlocked]

def Engine.isAsleep : Engine panel → Bool
  | .sleeping => true
  | _ => false

def Engine.isPosting : Engine panel → Bool
  | .posting freed => freed ≠ 0
  | _ => false

namespace Driver

variable {epd before after : Driver panel Task} {action : Action Task}

/-- A caller is blocked for an event that nobody will post. -/
def Lost (epd : Driver panel Task) : Prop :=
  epd.engine.isAsleep = true ∧ epd.data.activePx = 0 ∧ epd.retireEvt = false ∧
    ∃ task, (epd.callers task).isBlocked = true

def RetiresAll (epd : Driver panel Task) : Prop :=
  ∃ frame, epd.engine = .retiring frame ∧
    ∀ y x, (epd.data.state y x).isActive = true →
      frame.retireTab (epd.data.state y x).b1 = true

/-- One caller at most is blocked when the last pixels in flight retire. -/
def Calm (epd : Driver panel Task) (action : Action Task) : Prop :=
  action = .retire → epd.RetiresAll → ∀ task other,
    (epd.callers task).isBlocked = true → (epd.callers other).isBlocked = true → task = other

/-- With nothing in flight, one caller at most is blocked, and the event is
there for it or about to be. -/
structure Served (epd : Driver panel Task) : Prop where
  single : epd.data.activePx = 0 → ∀ task other,
    (epd.callers task).isBlocked = true → (epd.callers other).isBlocked = true → task = other
  event : epd.data.activePx = 0 → ∀ task, (epd.callers task).isBlocked = true →
    epd.retireEvt = true ∨ epd.engine.isPosting = true

namespace Served

theorem not_lost (served : epd.Served) : ¬ epd.Lost := by
  rintro ⟨asleep, idle, empty, task, blocked⟩
  rcases served.event idle task blocked with posted | posting
  · rw [empty] at posted
    cases posted
  · cases pc : epd.engine with
    | sleeping =>
      rw [pc] at posting
      cases posting
    | _ =>
      rw [pc] at asleep
      cases asleep

theorem keep (served : before.Served) (active : after.data.activePx = 0 → before.data.activePx = 0)
    (callers : ∀ task, (after.callers task).isBlocked = true →
      (before.callers task).isBlocked = true)
    (event : ∀ task, (after.callers task).isBlocked = true →
      before.retireEvt = true ∨ before.engine.isPosting = true →
        after.retireEvt = true ∨ after.engine.isPosting = true) : after.Served where
  single idle task other first second :=
    served.single (active idle) task other (callers task first) (callers other second)
  event idle task blocked := event task blocked (served.event (active idle) task (callers task blocked))

theorem engine (served : before.Served)
    (active : after.data.activePx = 0 → before.data.activePx = 0)
    (callers : after.callers = before.callers) (event : after.retireEvt = before.retireEvt)
    (quiet : before.engine.isPosting = false) : after.Served := by
  refine served.keep active (fun task blocked => by rwa [callers] at blocked) fun _ _ posted => ?_
  rw [event]
  rcases posted with posted | posting
  · exact .inl posted
  · rw [quiet] at posting
    cases posting

variable [DecidableEq Task]

theorem move (served : before.Served) {task : Task} {caller : Caller}
    {changed : Driver panel Task}
    (changes : changed.callers = before.callers ∧ changed.engine = before.engine ∧
      changed.retireEvt = before.retireEvt)
    (active : changed.data.activePx = 0 → before.data.activePx = 0)
    (free : caller.isBlocked = true → before.data.activePx ≠ 0) :
    (changed.move task caller).Served := by
  obtain ⟨callers, engine, event⟩ := changes
  have others : changed.data.activePx = 0 → ∀ other,
      ((changed.move task caller).callers other).isBlocked = true →
        (before.callers other).isBlocked = true := by
    intro idle other blocked
    simp only [Driver.move, callers] at blocked
    by_cases same : other = task
    · rw [same, update_self] at blocked
      exact absurd (active idle) (free blocked)
    · rwa [update_of_ne same] at blocked
  constructor
  · intro idle first second blocked blocked'
    exact served.single (active idle) first second (others idle first blocked)
      (others idle second blocked')
  · intro idle other blocked
    simp only [Driver.move, engine, event]
    exact served.event (active idle) other (others idle other blocked)

theorem step (served : before.Served) (inv : before.Inv rows) (waiters : before.Waiters)
    (calm : before.Calm action) (stepTo : before.step rows action = some after) :
    after.Served := by
  have inv' := (inv.step stepTo).1
  cases moves stepTo with
  | setMode | locked | relocked => exact served.keep id (fun _ => id) fun _ _ => id
  | called | notified | refreshes | refreshed => exact served.move ⟨rfl, rfl, rfl⟩ id nofun
  | returned => exact served
  | @unlocked held writes =>
    refine served.move ⟨rfl, rfl, rfl⟩ (fun idle => ?_) fun blocked => ?_
    · -- a section takes nothing out of flight
      by_contra busy
      exact (inv.leads held writes).busy_after inv.now.sound.counted
        (inv.next held writes).sound.counted busy idle
    · apply (waiters.held held writes).busy
      cases outcome : held.outcome with
      | waits => rfl
      | done wake =>
        rw [outcome] at blocked
        cases wake with
        | true => cases blocked
        | false =>
          simp only [Driver.after] at blocked
          split at blocked <;> cases blocked
  | @tookEvent task op pc =>
    have here : (before.callers task).isBlocked = true := by
      rw [pc]
      rfl
    have others : ∀ other, ((Function.update before.callers task (.relocking op))
        other).isBlocked = true → other ≠ task ∧ (before.callers other).isBlocked = true := by
      intro other blocked
      by_cases same : other = task
      · rw [same, update_self] at blocked
        cases blocked
      · rw [update_of_ne same] at blocked
        exact ⟨same, blocked⟩
    constructor
    · intro idle first second blocked blocked'
      exact served.single idle first second (others first blocked).2 (others second blocked').2
    · intro idle other blocked
      obtain ⟨different, blocked⟩ := others other blocked
      exact absurd (served.single idle other task blocked here) different
  | sleeps _ rests | starts _ rests | woken rests | begins _ rests | scans _ rests | sends _ rests
  | scanned rests | skipped rests => exact served.engine id rfl rfl (by rw [rests]; rfl)
  | @retires frame free retiring =>
    have under := inv.now.underway frame (by rw [retiring]; rfl)
    have flying : ∀ b1, frame.retireTab b1 = true → Data.IsArmed b1 :=
      fun _ => under.flying_of_retires
    have state := (inv.now.sound.counted.retirePass_eq flying).1
    -- when nothing is left in flight, all of it has retired here
    have all : (before.data.retirePass frame.retireTab).1.activePx = 0 →
        before.RetiresAll := by
      intro idle
      refine ⟨frame, retiring, fun y x flies => ?_⟩
      have rests := inv'.now.sound.counted.none_active idle y x
      by_contra stays
      dsimp only at rests
      rw [state, retirePx, if_neg stays, flies] at rests
      cases rests
    refine ⟨fun idle => calm rfl (all idle), fun idle task _ => .inr ?_⟩
    have bound := Data.count_lt before.data Px.isActive
    rw [← inv.now.sound.counted.active] at bound
    have busy := under.busy
    have left : (before.data.activePx + 2 ^ 32 -
      (before.data.retirePass frame.retireTab).2) % 2 ^ 32 = 0 := idle
    refine decide_eq_true fun none => ?_
    rw [none] at left
    omega
  | @posts fresh freed posting =>
    refine served.keep id (fun _ => id) fun _ _ posted => .inl ?_
    rcases posted with posted | freeing
    · simp [posted]
    · rw [posting] at freeing
      simp only [Engine.isPosting] at freeing
      simp only [freeing, Bool.or_true, Bool.true_or]

end Served

variable [DecidableEq Task]

/-- Two blocked callers when the last pixels retire, and one of them is left. -/
theorem lost_of_not_calm (inv : before.Inv rows) (waiters : before.Waiters)
    (crowd : ¬ before.Calm .retire) (stepTo : before.step rows .retire = some after) :
    ∃ lost, ReflTransGen (Next rows) after lost ∧ lost.Lost := by
  have inv' := (inv.step stepTo).1
  unfold Calm at crowd
  push Not at crowd
  obtain ⟨_, ⟨frame, retiring, all⟩, task, other, blocked, blocked', different⟩ := crowd
  obtain ⟨op, pc⟩ := Caller.isBlocked_iff.mp blocked
  have under := inv.now.underway frame (by rw [retiring]; rfl)
  have state := (inv.now.sound.counted.retirePass_eq fun _ => under.flying_of_retires).1
  simp only [Driver.step] at stepTo
  split at stepTo
  · rename_i frame' free retiring'
    rw [retiring] at retiring'
    cases retiring'
    cases stepTo
    have idle : (before.data.retirePass frame.retireTab).1.activePx = 0 := by
      by_contra busy
      obtain ⟨y, x, flies⟩ := inv'.now.sound.counted.exists_active busy
      dsimp only at flies
      rw [state, retirePx] at flies
      split at flies
      · cases flies
      · rename_i stays
        exact stays (all y x flies)
    have counted : 0 < (before.data.retirePass frame.retireTab).1.waiters := by
      obtain ⟨tasks, mem, card⟩ := waiters.counted
      show 0 < before.data.waiters
      rw [← card]
      exact Finset.card_pos.mpr ⟨task, (mem task).mpr (by rw [pc]; rfl)⟩
    let posted : Driver panel Task :=
      { before with
        data := (before.data.retirePass frame.retireTab).1
        retireEvt := true
        engine := .deciding }
    let taken : Driver panel Task := { posted with retireEvt := false }.move task (.relocking op)
    let asleep : Driver panel Task :=
      { taken with data := { taken.data with running := false }, engine := .sleeping }
    refine ⟨asleep, ?_, rfl, idle, rfl, other, ?_⟩
    · refine .tail (b := taken) (.tail (b := posted) (.single ⟨.post false, ?_⟩)
        ⟨.takeEvent task, ?_⟩) ⟨.decide, ?_⟩
      · simp only [Driver.step, view, free, counted, decide_true, Bool.or_true, posted]
      · simp only [Driver.step, posted, pc, if_true, taken]
      · simp only [Driver.step, taken, posted, Driver.move, free, idle, if_true, asleep]
    · show ((Function.update before.callers task (.relocking op)) other).isBlocked = true
      rw [update_of_ne different.symm]
      exact blocked'
  · cases stepTo

/-- No wake-up is lost in a run in which one caller at most is blocked whenever
the last pixels in flight retire; and when two are, one can be lost. -/
theorem no_wakeup_lost {luts : Fin 4 → Option ℕ × ℕ} {initial : Driver panel Task}
    (made : create rows luts = some initial) :
    (∀ epd : Driver panel Task, Reachable (· = initial)
        (fun before after => ∃ action, before.step rows action = some after ∧ before.Calm action)
        epd → ¬ epd.Lost) ∧
      ∀ before after : Driver panel Task, Reachable (· = initial) (Next rows) before →
        before.step rows .retire = some after → ¬ before.Calm .retire →
          ∃ lost, ReflTransGen (Next rows) after lost ∧ lost.Lost := by
  constructor
  · intro epd reachable
    have start : ∀ state, state = initial →
        state.Inv rows ∧ state.Waiters ∧ state.Served := by
      rintro state rfl
      obtain ⟨inv, waiters⟩ := fits_of_create made
      obtain ⟨_, made⟩ := ite_none_left_eq_some.mp made
      cases made
      exact ⟨inv, waiters, ⟨(by intros; contradiction), (by rintro _ _ ⟨⟩)⟩⟩
    have kept : ∀ before after : Driver panel Task,
        before.Inv rows ∧ before.Waiters ∧ before.Served →
        (∃ action, before.step rows action = some after ∧ before.Calm action) →
          after.Inv rows ∧ after.Waiters ∧ after.Served := by
      rintro before after ⟨inv, waiters, served⟩ ⟨action, stepTo, calm⟩
      exact ⟨(inv.step stepTo).1, waiters.step inv.now.sound stepTo,
        served.step inv waiters calm stepTo⟩
    exact (reachable.invariant start kept).2.2.not_lost
  · intro before after reachable stepTo crowd
    obtain ⟨inv, waiters⟩ := inv_of_reachable made reachable
    exact lost_of_not_calm inv waiters crowd stepTo

def lastFrame : List (Action (Fin 3)) := wakes ++ scans ++ [.post false, .decide, .begin]

def waitsDraw (task : Fin 3) : List (Action (Fin 3)) := [.call task .waitDraw, .lock task, .unlock]

def sleeps : List (Action (Fin 3)) := scans ++ [.retire, .post false, .decide]

def crowded : List (Action (Fin 3)) :=
  lastFrame ++ waitsDraw 1 ++ waitsDraw 2 ++ sleeps ++ [.takeEvent 1, .lock 1, .unlock]

/-- The engine sleeps with nobody to wake it, and a caller is blocked. -/
theorem wakeup_lost : ∃ initial epd : Driver strip (Fin 3), create darken stripLuts = some initial ∧
    Reachable (· = initial) (Next darken) epd ∧ epd.Lost ∧ epd.notified = false := by
  obtain ⟨initial, made⟩ : ∃ initial : Driver strip (Fin 3), create darken stripLuts = some initial :=
    isSome_iff_exists.mp (by decide +kernel)
  obtain ⟨epd, result⟩ : ∃ epd : Driver strip (Fin 3),
      initial.run darken (fun _ => true) crowded = some epd := by
    cases made
    exact isSome_iff_exists.mp (by decide +kernel)
  have facts : (initial.run darken (fun _ => true) crowded).map (fun epd =>
      (epd.engine.isAsleep, epd.data.activePx, epd.retireEvt, (epd.callers 2).isBlocked,
        epd.notified)) = some (true, 0, false, true, false) := by
    cases made
    decide +kernel
  rw [result] at facts
  simp only [map_some, Option.some.injEq, Prod.mk.injEq] at facts
  obtain ⟨asleep, idle, empty, blocked, quiet⟩ := facts
  exact ⟨initial, epd, made, reachable_of_run next_of_step (.start rfl) result,
    ⟨asleep, idle, empty, 2, blocked⟩, quiet⟩

def single (epd : Driver strip (Fin 3)) : Bool :=
  decide (∀ task other, (epd.callers task).isBlocked = true →
    (epd.callers other).isBlocked = true → task = other)

/-- A single caller waits for the last frame, and the event is there for it. -/
theorem wakeup_kept : ∃ epd : Driver strip (Fin 3), epd.engine.isAsleep = true ∧
    epd.data.activePx = 0 ∧ (epd.callers 1).isBlocked = true ∧ epd.retireEvt = true := by
  obtain ⟨initial, made⟩ : ∃ initial : Driver strip (Fin 3), create darken stripLuts = some initial :=
    isSome_iff_exists.mp (by decide +kernel)
  obtain ⟨epd, result⟩ : ∃ epd : Driver strip (Fin 3),
      initial.run darken single (lastFrame ++ waitsDraw 1 ++ sleeps) = some epd := by
    cases made
    exact isSome_iff_exists.mp (by decide +kernel)
  have facts : (initial.run darken single (lastFrame ++ waitsDraw 1 ++ sleeps)).map (fun epd =>
      (epd.engine.isAsleep, epd.data.activePx, (epd.callers 1).isBlocked)) =
        some (true, 0, true) := by
    cases made
    decide +kernel
  rw [result] at facts
  simp only [map_some, Option.some.injEq, Prod.mk.injEq] at facts
  obtain ⟨asleep, idle, blocked⟩ := facts
  have calm : ∀ (before : Driver strip (Fin 3)) action after, single before = true →
      before.step darken action = some after →
        ∃ action, before.step darken action = some after ∧ before.Calm action :=
    fun _ action _ alone stepTo => ⟨action, stepTo, fun _ _ => of_decide_eq_true alone⟩
  have kept := (no_wakeup_lost made).1 epd (reachable_of_run calm (.start rfl) result)
  refine ⟨epd, asleep, idle, blocked, ?_⟩
  by_contra empty
  exact kept ⟨asleep, idle, Bool.eq_false_iff.mpr empty, 1, blocked⟩

end Driver

end EspDevkit.Epd
