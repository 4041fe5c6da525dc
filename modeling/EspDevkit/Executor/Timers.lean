import EspDevkit.Library.SerialNumber
import EspDevkit.Library.Transition
import Mathlib.Data.Rat.Floor
import Mathlib.Logic.Function.Basic

/-!
# Timers

A timer counts from its first poll, in the ticks of a counter that wraps.  While it waits it
is in the list of its executor, which wakes the tasks of the timers that are due.
-/

namespace EspDevkit.Executor

abbrev Tick := BitVec 32

def reached (now deadline : Tick) : Bool := SerialNumber.le deadline now

structure Duration where
  secs : ℕ
  nanos : ℕ
  secs_lt : secs < 2 ^ 64
  nanos_lt : nanos < 10 ^ 9

def Duration.isZero (d : Duration) : Bool := d.secs == 0 && d.nanos == 0

/-- How many seconds `d` has. -/
def Duration.seconds (d : Duration) : ℚ := d.secs + d.nanos / 10 ^ 9

/-- The rate of the tick counter, `CONFIG_FREERTOS_HZ`. -/
structure Clock where
  hz : ℕ
  pos : 0 < hz
  lt : hz < 2 ^ 32

def u64Max : ℕ := 2 ^ 64 - 1

def maxDelay : ℕ := 2 ^ 32 - 1

namespace Clock

/-- `ticks`: rounded up, and one more. -/
def ticks (clock : Clock) (d : Duration) : ℕ :=
  if d.isZero then 0
  else
    let whole := min (d.secs * clock.hz) u64Max
    let frac := (d.nanos * clock.hz + (10 ^ 9 - 1)) / 10 ^ 9
    let t := min (min (whole + frac) u64Max + 1) u64Max
    min t maxDelay

def count (clock : Clock) (time : ℚ) : ℕ := ⌊time * clock.hz⌋₊

end Clock

structure Node where
  timer : ℕ
  deadline : Tick
  /-- The task to wake. -/
  waker : ℕ

/-- `link_timer`. -/
def linkTimer (timers : List Node) (node : Node) : List Node :=
  if timers.any (·.timer == node.timer) then
    timers.map fun old => if old.timer = node.timer then node else old
  else node :: timers

/-- `unlink_timer`. -/
def unlinkTimer (timers : List Node) (timer : ℕ) : List Node := timers.eraseP (·.timer == timer)

/-- A turn of the loop of `fire_timers`: the task to wake, or the ticks to the next deadline. -/
def fireTurn (now : Tick) (timers : List Node) : (ℕ × List Node) ⊕ Option ℕ :=
  match timers.find? fun node => reached now node.deadline with
  | some due => .inl (due.waker, unlinkTimer timers due.timer)
  | none => .inr (timers.map fun node => SerialNumber.ahead now node.deadline).min?

inductive Deadline
  | after (ticks : Tick)
  | due (tick : Tick)

def Deadline.settle (now : Tick) : Deadline → Tick
  | .after ticks => now + ticks
  | .due tick => tick

structure Timer where
  deadline : Deadline
  /-- The timer has its executor. -/
  attached : Bool := false

def sleep (ticks : Tick) : Timer := { deadline := .after ticks }

/-- `poll`: whether the timer is ready. -/
def Timer.poll (timer : Timer) (id : ℕ) (now : Tick) (waker : ℕ) (timers : List Node) :
    Bool × Timer × List Node :=
  let deadline := timer.deadline.settle now
  let polled := { deadline := .due deadline, attached := true }
  if reached now deadline then (true, polled, unlinkTimer timers id)
  else (false, polled, linkTimer timers { timer := id, deadline, waker })

def Timer.drop (timer : Timer) (id : ℕ) (timers : List Node) : List Node :=
  if timer.attached then unlinkTimer timers id else timers

inductive Elapsed
  | elapsed

/-- `Timeout::poll`, where the poll of the future came to `future`. -/
def timeoutPoll {Output : Type} (future : Option Output) (timer : Timer) (id : ℕ) (now : Tick)
    (waker : ℕ) (timers : List Node) : Option (Except Elapsed Output) × Timer × List Node :=
  match future with
  | some output => (some (.ok output), timer, timers)
  | none =>
    let (ready, timer, timers) := timer.poll id now waker timers
    (if ready then some (.error .elapsed) else none, timer, timers)

/-- What is waited for: a timer, or a timeout whose future stays pending. -/
inductive Kind
  | sleep
  | timeout

def Kind.poll (kind : Kind) (timer : Timer) (id : ℕ) (now : Tick) (waker : ℕ)
    (timers : List Node) : Bool × Timer × List Node :=
  match kind with
  | .sleep => timer.poll id now waker timers
  | .timeout =>
    let (output, timer, timers) := timeoutPoll (none : Option Unit) timer id now waker timers
    (output.isSome, timer, timers)

theorem Kind.poll_eq (kind : Kind) (timer : Timer) (id : ℕ) (now : Tick) (waker : ℕ)
    (timers : List Node) : kind.poll timer id now waker timers = timer.poll id now waker timers := by
  cases kind with
  | sleep => rfl
  | timeout =>
    unfold poll timeoutPoll
    rcases timer.poll id now waker timers with ⟨ready, timer, timers⟩
    cases ready <;> rfl

structure Wait where
  kind : Kind
  duration : Duration
  timer : Timer
  first : Option ℚ := none

structure Ended where
  duration : Duration
  first : ℚ
  ready : ℚ

structure Timers where
  time : ℚ
  /-- The counter at time zero. -/
  start : Tick
  list : List Node := []
  waits : ℕ → Option Wait := fun _ => none
  ended : List Ended := []

inductive TimerAct
  | wait (id : ℕ) (kind : Kind) (d : Duration)
  | poll (id waker : ℕ)
  /-- A turn of the loop of `fire_timers`, whatever tick it was called with. -/
  | fire (now : Tick)
  | drop (id : ℕ)
  /-- Time passes. -/
  | pass (time : ℚ)

namespace Timers

variable (clock : Clock) (w : Timers)

def tickAt (time : ℚ) : Tick := SerialNumber.place w.start (clock.count time)

def set (id : ℕ) (wait : Option Wait) : Timers :=
  { w with waits := Function.update w.waits id wait }

def poll (id waker : ℕ) (wait : Wait) : Timers :=
  let (ready, timer, list) := wait.kind.poll wait.timer id (w.tickAt clock w.time) waker w.list
  let first := wait.first.getD w.time
  { w.set id (some { wait with timer, first := some first }) with
    list
    ended := if ready then ⟨wait.duration, first, w.time⟩ :: w.ended else w.ended }

def act : TimerAct → Option Timers
  | .wait id kind duration =>
    if (w.waits id).isNone then
      some (w.set id (some { kind, duration, timer := sleep (BitVec.ofNat 32 (clock.ticks duration)) }))
    else none
  | .poll id waker => (w.waits id).map (w.poll clock id waker)
  | .fire now =>
    match fireTurn now w.list with
    | .inl (_, list) => some { w with list }
    | .inr _ => some w
  | .drop id =>
    (w.waits id).map fun wait => { w.set id none with list := wait.timer.drop id w.list }
  | .pass time => if w.time ≤ time then some { w with time } else none

end Timers

end EspDevkit.Executor

/-!
## Timers are not early

As long as a duration is less than half of the range of the counter in ticks, a timer that
is ready has waited for it, whatever was polled, fired or dropped in which order.
-/

namespace EspDevkit.Executor

/-- The deadlines that a counter has reached, less than half of its range after they were set. -/
theorem reached_iff (origin : Tick) {count ticks passed : ℕ} (fits : ticks < 2 ^ 31)
    (due : reached (SerialNumber.place origin (count + passed))
      (SerialNumber.place origin count + BitVec.ofNat 32 ticks) = true) : ticks ≤ passed := by
  by_contra early
  have early : passed < ticks := Nat.lt_of_not_le early
  have deadline : SerialNumber.place origin count + BitVec.ofNat 32 ticks =
      SerialNumber.place (SerialNumber.place origin (count + passed)) (ticks - passed) := by
    rw [SerialNumber.place_place, show count + passed + (ticks - passed) = count + ticks by omega,
      ← SerialNumber.place_place]
    rfl
  unfold reached at due
  rw [SerialNumber.le_iff_ahead (by decide), deadline] at due
  have ahead : SerialNumber.ahead (SerialNumber.place origin (count + passed))
      (SerialNumber.place (SerialNumber.place origin (count + passed)) (ticks - passed)) =
      ticks - passed := SerialNumber.ahead_place _ (by omega)
  have apart : SerialNumber.place origin (count + passed) ≠
      SerialNumber.place (SerialNumber.place origin (count + passed)) (ticks - passed) := by
    intro same
    rw [← SerialNumber.ahead_eq_zero, ahead] at same
    omega
  rw [SerialNumber.ahead_reverse apart, ahead] at due
  omega

theorem reached_of_half_le (now : Tick) {ticks : ℕ} (half : 2 ^ 31 ≤ ticks) (lt : ticks < 2 ^ 32) :
    reached now (now + BitVec.ofNat 32 ticks) = true := by
  have ahead : SerialNumber.ahead now (SerialNumber.place now ticks) = ticks :=
    SerialNumber.ahead_place now lt
  have apart : now ≠ SerialNumber.place now ticks := by
    intro same
    rw [← SerialNumber.ahead_eq_zero, ahead] at same
    omega
  unfold reached
  rw [SerialNumber.le_iff_ahead (by decide)]
  change SerialNumber.ahead (SerialNumber.place now ticks) now ≤ _
  rw [SerialNumber.ahead_reverse apart, ahead]
  omega

namespace Clock

variable (clock : Clock) {d : Duration}

theorem ticks_le (d : Duration) : clock.ticks d ≤ maxDelay := by
  unfold ticks
  split
  · exact Nat.zero_le _
  · exact Nat.min_le_right _ _

theorem ticks_eq (fits : clock.ticks d < 2 ^ 31) (nonzero : d.isZero = false) :
    clock.ticks d =
      d.secs * clock.hz + (d.nanos * clock.hz + (10 ^ 9 - 1)) / 10 ^ 9 + 1 := by
  unfold ticks at *
  rw [if_neg (by simp [nonzero])] at *
  dsimp only [u64Max, maxDelay] at *
  omega

theorem seconds_le (fits : clock.ticks d < 2 ^ 31) (nonzero : d.isZero = false) :
    d.seconds * clock.hz + 1 ≤ clock.ticks d := by
  rw [clock.ticks_eq fits nonzero]
  have up : d.nanos * clock.hz ≤ (d.nanos * clock.hz + (10 ^ 9 - 1)) / 10 ^ 9 * 10 ^ 9 := by
    omega
  generalize (d.nanos * clock.hz + (10 ^ 9 - 1)) / 10 ^ 9 = frac at up
  have up : (d.nanos : ℚ) * clock.hz ≤ frac * 10 ^ 9 := by exact_mod_cast up
  have nanos : (d.nanos : ℚ) / 10 ^ 9 * clock.hz ≤ frac := by
    rw [div_mul_eq_mul_div, div_le_iff₀ (by norm_num)]
    exact up
  unfold Duration.seconds
  push_cast
  linarith

theorem seconds_pos (nonzero : d.isZero = false) : 0 < d.seconds := by
  have secs : (0 : ℚ) ≤ d.secs := Nat.cast_nonneg _
  have nanos : (0 : ℚ) ≤ d.nanos / 10 ^ 9 := by positivity
  rcases Nat.eq_zero_or_pos d.secs with zero | pos
  · have pos : 0 < d.nanos := by
      refine Nat.pos_of_ne_zero fun zero' => ?_
      simp [Duration.isZero, zero, zero'] at nonzero
    have : (0 : ℚ) < d.nanos / 10 ^ 9 := by positivity
    unfold Duration.seconds
    linarith
  · have : (0 : ℚ) < d.secs := by exact_mod_cast pos
    unfold Duration.seconds
    linarith

theorem zero_of_isZero (zero : d.isZero = true) : d.seconds = 0 ∧ clock.ticks d = 0 := by
  refine ⟨?_, if_pos zero⟩
  obtain ⟨secs, nanos⟩ : d.secs = 0 ∧ d.nanos = 0 := by
    simpa [Duration.isZero] using zero
  simp [Duration.seconds, secs, nanos]

theorem seconds_passed (fits : clock.ticks d < 2 ^ 31) {first now : ℚ} (nonneg : 0 ≤ first)
    (ordered : first ≤ now) (ticked : clock.count first + clock.ticks d ≤ clock.count now) :
    first + d.seconds ≤ now := by
  cases zero : d.isZero with
  | true =>
    rw [(clock.zero_of_isZero zero).1, add_zero]
    exact ordered
  | false =>
    have hz : (0 : ℚ) < clock.hz := by exact_mod_cast clock.pos
    have enough := clock.seconds_le fits zero
    have below := Nat.floor_le (mul_nonneg (nonneg.trans ordered) hz.le)
    have above := Nat.lt_floor_add_one (first * clock.hz)
    have ticked : (clock.count first : ℚ) + clock.ticks d ≤ clock.count now := by
      exact_mod_cast ticked
    unfold count at ticked
    have passed : (first + d.seconds) * clock.hz ≤ now * clock.hz := by
      rw [add_mul]
      linarith
    exact le_of_mul_le_mul_right passed hz

end Clock

namespace Timers

inductive Initial : Timers → Prop
  | booted (time : ℚ) (start : Tick) : 0 ≤ time → Initial { time, start }

abbrev Reachable (clock : Clock) : Timers → Prop :=
  Transition.Reachable Initial (Transition.Allowed (act clock) fun _ _ => True)

/-- No wait for `d` is ready before `d` has passed since its first poll. -/
def NeverEarly (clock : Clock) (d : Duration) : Prop :=
  ∀ w, Reachable clock w → ∀ ended ∈ w.ended, ended.duration = d →
    ended.first + d.seconds ≤ ended.ready

def Sound (clock : Clock) (w : Timers) (wait : Wait) : Prop :=
  match wait.first with
  | none => wait.timer.deadline = .after (BitVec.ofNat 32 (clock.ticks wait.duration))
  | some first =>
    0 ≤ first ∧ first ≤ w.time ∧ wait.timer.deadline =
      .due (w.tickAt clock first + BitVec.ofNat 32 (clock.ticks wait.duration))

structure Inv (clock : Clock) (w : Timers) : Prop where
  time : 0 ≤ w.time
  waits : ∀ id wait, w.waits id = some wait → w.Sound clock wait
  ended : ∀ ended ∈ w.ended, clock.ticks ended.duration < 2 ^ 31 →
    ended.first + ended.duration.seconds ≤ ended.ready

variable {clock : Clock} {w : Timers}

namespace Inv

theorem set (inv : w.Inv clock) (id : ℕ) (new : Option Wait)
    (sound : ∀ wait, new = some wait → w.Sound clock wait) : (w.set id new).Inv clock := by
  refine { inv with waits := fun other wait at_ => ?_ }
  by_cases same : other = id
  · subst same
    refine sound wait ?_
    simpa [Timers.set] using at_
  · refine inv.waits other wait ?_
    simpa [Timers.set, Function.update_of_ne same] using at_

/-- The deadline of a wait after a poll, from when it was first polled. -/
theorem settle (inv : w.Inv clock) {wait : Wait} (sound : w.Sound clock wait) :
    0 ≤ wait.first.getD w.time ∧ wait.first.getD w.time ≤ w.time ∧
      wait.timer.deadline.settle (w.tickAt clock w.time) =
        w.tickAt clock (wait.first.getD w.time) +
          BitVec.ofNat 32 (clock.ticks wait.duration) := by
  unfold Sound at sound
  cases first : wait.first with
  | none =>
    rw [first] at sound
    rw [sound]
    exact ⟨inv.time, le_rfl, rfl⟩
  | some first' =>
    rw [first] at sound
    obtain ⟨nonneg, ordered, deadline⟩ := sound
    rw [deadline]
    exact ⟨nonneg, ordered, rfl⟩

theorem poll (inv : w.Inv clock) {id waker : ℕ} {wait : Wait} (at_ : w.waits id = some wait) :
    (w.poll clock id waker wait).Inv clock := by
  obtain ⟨nonneg, ordered, deadline⟩ := inv.settle (inv.waits id wait at_)
  unfold Timers.poll
  rw [Kind.poll_eq]
  unfold Timer.poll
  rw [deadline]
  have moved := inv.set id (some { wait with
      timer := { deadline := .due (w.tickAt clock (wait.first.getD w.time) +
        BitVec.ofNat 32 (clock.ticks wait.duration)), attached := true }
      first := some (wait.first.getD w.time) }) (by
    rintro _ ⟨⟩
    exact ⟨nonneg, ordered, rfl⟩)
  dsimp only
  split
  · rename_i due
    refine { moved with ended := ?_ }
    intro ended member fits
    rcases List.mem_cons.mp member with rfl | old
    · refine clock.seconds_passed fits nonneg ordered ?_
      have later : clock.count (wait.first.getD w.time) ≤ clock.count w.time :=
        Nat.floor_mono (mul_le_mul_of_nonneg_right ordered (Nat.cast_nonneg _))
      obtain ⟨passed, eq⟩ := Nat.exists_eq_add_of_le later
      unfold tickAt at due
      rw [eq] at due ⊢
      exact Nat.add_le_add_left (reached_iff _ fits due) _
    · exact inv.ended ended old fits
  · exact { moved with }

theorem act (inv : w.Inv clock) {act : TimerAct} {after : Timers}
    (eq : w.act clock act = some after) : after.Inv clock := by
  cases act with
  | wait id kind d =>
    obtain ⟨-, ⟨⟩⟩ := Option.ite_none_right_eq_some.mp eq
    refine inv.set id _ ?_
    rintro _ ⟨⟩
    rfl
  | poll id waker =>
    obtain ⟨wait, at_, rfl⟩ := Option.map_eq_some_iff.mp eq
    exact inv.poll at_
  | fire now =>
    unfold Timers.act at eq
    dsimp only at eq
    split at eq
    · cases eq
      exact { inv with }
    · cases eq
      exact inv
  | drop id =>
    obtain ⟨wait, at_, rfl⟩ := Option.map_eq_some_iff.mp eq
    exact { inv.set id none nofun with }
  | pass time =>
    obtain ⟨later, ⟨⟩⟩ := Option.ite_none_right_eq_some.mp eq
    refine { inv with time := inv.time.trans later, waits := fun id wait at_ => ?_ }
    have sound := inv.waits id wait at_
    unfold Sound at *
    split at sound
    · exact sound
    · exact ⟨sound.1, sound.2.1.trans later, sound.2.2⟩

theorem of_reachable (reachable : Reachable clock w) : w.Inv clock := by
  refine reachable.invariant ?_ fun before after inv ⟨act, eq, _⟩ => inv.act eq
  rintro _ ⟨time, start, nonneg⟩
  exact ⟨nonneg, nofun, nofun⟩

end Inv

theorem mem_ended_poll {id waker : ℕ} {wait : Wait}
    (due : reached (w.tickAt clock w.time)
      (wait.timer.deadline.settle (w.tickAt clock w.time)) = true) :
    ⟨wait.duration, wait.first.getD w.time, w.time⟩ ∈ (w.poll clock id waker wait).ended := by
  unfold Timers.poll
  rw [Kind.poll_eq]
  unfold Timer.poll
  dsimp only
  rw [if_pos due]
  exact List.mem_cons_self

def unpolled (clock : Clock) (d : Duration) : Wait :=
  { kind := .sleep, duration := d, timer := sleep (BitVec.ofNat 32 (clock.ticks d)) }

def asleep (clock : Clock) (d : Duration) : Timers :=
  Timers.set { time := 0, start := 0 } 0 (some (unpolled clock d))

theorem early_of_half_le {d : Duration} (half : 2 ^ 31 ≤ clock.ticks d) :
    ¬ NeverEarly clock d := by
  intro never
  have fits : clock.ticks d < 2 ^ 32 := Nat.lt_of_le_of_lt (clock.ticks_le d) (by decide)
  have nonzero : d.isZero = false := by
    cases zero : d.isZero with
    | true =>
      rw [(clock.zero_of_isZero zero).2] at half
      omega
    | false => rfl
  have started : Reachable clock (asleep clock d) :=
    .next (.start (.booted 0 0 le_rfl)) ⟨.wait 0 .sleep d, by simp [Timers.act, asleep, unpolled],
      trivial⟩
  have polled : Reachable clock ((asleep clock d).poll clock 0 0 (unpolled clock d)) :=
    .next started ⟨.poll 0 0, by simp [Timers.act, asleep, Timers.set], trivial⟩
  have early := never _ polled _ (mem_ended_poll (reached_of_half_le _ half fits)) rfl
  have pos := Clock.seconds_pos nonzero
  change (0 : ℚ) + d.seconds ≤ 0 at early
  linarith

/-- The waits for a duration are never early if and only if it is less than half of the range
of the counter in ticks. -/
theorem never_early_iff (clock : Clock) (d : Duration) :
    NeverEarly clock d ↔ clock.ticks d < 2 ^ 31 := by
  constructor
  · intro never
    by_contra half
    exact early_of_half_le (Nat.le_of_not_lt half) never
  · intro fits w reachable ended member same
    subst same
    exact (Inv.of_reachable reachable).ended ended member fits

/-- With 1000 ticks a second, a wait for 25 days is over at its first poll. -/
theorem days_early : ¬ ∀ (clock : Clock) (d : Duration), NeverEarly clock d := by
  intro never
  let clock : Clock := { hz := 1000, pos := by decide, lt := by decide }
  let d : Duration := { secs := 2160000, nanos := 0, secs_lt := by decide, nanos_lt := by decide }
  exact early_of_half_le (by decide : 2 ^ 31 ≤ clock.ticks d) (never clock d)

end Timers

end EspDevkit.Executor
