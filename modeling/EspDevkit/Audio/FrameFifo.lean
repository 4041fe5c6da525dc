import EspDevkit.Library.QueueHistory
import EspDevkit.Net.Ring
import Mathlib.Data.List.Rotate
import Mathlib.Tactic.Ring

/-!
# The audio FIFO

A ring of frames between one writer and one reader, each of which may block on
a semaphore of one token.  The functions are the critical sections, from taking
the lock to letting go of it; besides what the source returns they report what
they did to the queue.
-/

namespace EspDevkit.Audio

open Net (overwrite)
open QueueHistory (Move)

variable {S : Type}

def MAX_CHANNELS : ℕ := 8

inductive Underrun where
  | Block
  | Silence
  deriving DecidableEq

inductive Overrun where
  | Block
  | DropOldest
  deriving DecidableEq

inductive Error where
  | InvalidArg
  | InvalidState
  deriving DecidableEq

/-- `FifoConfig`. -/
structure FifoConfig where
  channels : ℕ
  capacity : ℕ
  prefill : ℕ
  underrun : Underrun
  overrun : Overrun

/-- `State`. -/
structure State (S : Type) where
  buf : List S
  head : ℕ
  count : ℕ
  primed : Bool
  aborted : Bool
  generation : ℕ

/-- `Inner`, its configuration apart. -/
structure Inner (S : Type) where
  state : State S
  readable : Bool
  writable : Bool

/-- What happens: frames are given to `write`, frames move through the queue, so
many are queued after a write to it, the reader gets silence, the queue runs dry
under the reader, a flush. -/
inductive Event (S : Type) where
  | offered (frames : List (List S))
  | move (frame : Move (List S))
  | level (count : ℕ)
  | silence (frames : ℕ)
  | dry
  | flushed

inductive Exit (Rest : Type) where
  | returned (result : Except Error Unit)
  | waits (rest : Rest)

def framesOf (channels : ℕ) : ℕ → List S → List (List S)
  | 0, _ => []
  | frames + 1, samples => samples.take channels :: framesOf channels frames (samples.drop channels)

def new [Inhabited S] (config : FifoConfig) : Except Error (Inner S) :=
  if config.capacity = 0 ∨ config.capacity < config.prefill then .error .InvalidArg
  else if config.channels < 1 ∨ MAX_CHANNELS < config.channels then .error .InvalidArg
  else .ok
    { state :=
        { buf := List.replicate (config.capacity * config.channels) default
          head := 0
          count := 0
          primed := decide (config.prefill = 0)
          aborted := false
          generation := 0 }
      readable := false
      writable := false }

namespace State

def copyIn (state : State S) (src : List S) (frames capacity channels : ℕ) : State S :=
  let tail := (state.head + state.count) % capacity
  let first := min frames (capacity - tail)
  let buf := overwrite state.buf (tail * channels) (src.take (first * channels))
  let buf := overwrite buf 0 ((src.take (frames * channels)).drop (first * channels))
  { state with buf, count := state.count + frames }

/-- With the samples copied to `dst`. -/
def copyOut (state : State S) (frames capacity channels : ℕ) : State S × List S :=
  let first := min frames (capacity - state.head)
  let head := state.head
  let dst := (state.buf.drop (head * channels)).take (first * channels) ++
    state.buf.take ((frames - first) * channels)
  ({ state with head := (head + frames) % capacity, count := state.count - frames }, dst)

def queued (config : FifoConfig) (state : State S) : List (List S) :=
  framesOf config.channels state.count (state.buf.rotate (state.head * config.channels))

end State

namespace Inner

/-- The loop of `write`.  `passed` are the frames that the call left out at its
start, being more than the queue holds: they count as put and discarded behind
what is discarded here. -/
def writeLoop (config : FifoConfig) : ℕ → Inner S → List S → ℕ → List (List S) →
    Inner S × List (Event S) × Exit (List S × ℕ)
  | 0, inner, src, frames, _ => (inner, [], .waits (src, frames))
  | fuel + 1, inner, src, frames, passed =>
    if frames = 0 then (inner, [], .returned (.ok ()))
    else if inner.state.aborted then (inner, [], .returned (.error .InvalidState))
    else
      let state := inner.state
      let space := config.capacity - state.count
      let dropped := if config.overrun = .DropOldest ∧ space < frames then frames - space else 0
      let left := ((state.queued config).take dropped).map (Event.move ∘ Move.discarded) ++
        passed.map (Event.move ∘ Move.put) ++ passed.map (Event.move ∘ Move.discarded)
      let state :=
        if config.overrun = .DropOldest ∧ space < frames then
          { state with
            head := (state.head + dropped) % config.capacity
            count := state.count - dropped }
        else state
      let space := if config.overrun = .DropOldest ∧ space < frames then frames else space
      if space = 0 then ({ inner with state }, left, .waits (src, frames))
      else
        let n := min frames space
        let state := state.copyIn src n config.capacity config.channels
        let state := { state with primed := state.primed || decide (config.prefill ≤ state.count) }
        let (inner, events, exit) :=
          writeLoop config fuel { inner with state, readable := true } (src.drop (n * config.channels))
            (frames - n) []
        (inner, left ++ (framesOf config.channels n src).map (Event.move ∘ Move.put) ++
          .level state.count :: events, exit)

/-- `write`, up to the first wait. -/
def write (config : FifoConfig) (inner : Inner S) (data : List S) :
    Inner S × List (Event S) × Exit (List S × ℕ) :=
  let frames := data.length / config.channels
  if config.overrun = .DropOldest ∧ config.capacity < frames then
    let beyond := frames - config.capacity
    writeLoop config (config.capacity + 1) inner (data.drop (beyond * config.channels)) config.capacity
      (framesOf config.channels beyond data)
  else writeLoop config (frames + 1) inner data frames []

/-- The loop of `read` up to its wait.  `dst` is what the call has filled, of
which `frames` are left. -/
def readLoop [Inhabited S] (config : FifoConfig) (inner : Inner S) (dst : List S) (frames : ℕ) :
    Inner S × List (Event S) × List S × Exit ℕ :=
  if frames = 0 then (inner, [], dst, .returned (.ok ()))
  else if inner.state.aborted then (inner, [], dst, .returned (.error .InvalidState))
  else
    if inner.state.primed then
      let n := min frames inner.state.count
      let took := ((inner.state.queued config).take n).map (Event.move ∘ Move.taken)
      let (state, samples) := inner.state.copyOut n config.capacity config.channels
      let dst := dst ++ samples
      let writable := inner.writable || decide (n ≠ 0)
      if frames - n = 0 then ({ inner with state, writable }, took, dst, .returned (.ok ()))
      else
        let inner : Inner S :=
          { inner with state := { state with primed := decide (config.prefill = 0) }, writable }
        if config.underrun = .Silence then
          (inner, took ++ [.dry, .silence (frames - n)],
            dst ++ List.replicate ((frames - n) * config.channels) default, .returned (.ok ()))
        else (inner, took ++ [.dry], dst, .waits (frames - n))
    else if config.underrun = .Silence then
      (inner, [.silence frames], dst ++ List.replicate (frames * config.channels) default,
        .returned (.ok ()))
    else (inner, [], dst, .waits frames)

def flush (config : FifoConfig) (inner : Inner S) : Inner S × List (Event S) :=
  ({ inner with
      state := { inner.state with
        head := 0
        count := 0
        primed := decide (config.prefill = 0)
        generation := (inner.state.generation + 1) % 2 ^ 32 }
      writable := true },
    (inner.state.queued config).map (Event.move ∘ Move.discarded) ++ [.flushed])

end Inner

/-- Where the writer stands: `waiting` in `writable.take()`, `woken` on its way
to the lock. -/
inductive Writer (S : Type) where
  | idle
  | waiting (src : List S) (frames : ℕ)
  | woken (src : List S) (frames : ℕ)

inductive Reader (S : Type) where
  | idle (filled : List S)
  | waiting (filled : List S) (frames : ℕ)
  | woken (filled : List S) (frames : ℕ)

/-- `abort` gives the two tokens after it let go of the lock: how many calls of
it have yet to give both, how many the second one, and whether one has
returned. -/
structure Fifo (S : Type) where
  inner : Inner S
  writer : Writer S
  reader : Reader S
  toReader : ℕ
  toWriter : ℕ
  abortReturned : Bool

inductive Action (S : Type) where
  | write (data : List S)
  | writerTakes
  | writerLocks
  | read (frames : ℕ)
  | readerTakes
  | readerLocks
  | flush
  | abort
  | abortGivesReader
  | abortGivesWriter

namespace Fifo

def wrote (fifo : Fifo S) : Inner S × List (Event S) × Exit (List S × ℕ) → Fifo S × List (Event S)
  | (inner, events, .returned _) => ({ fifo with inner, writer := .idle }, events)
  | (inner, events, .waits (src, frames)) =>
    ({ fifo with inner, writer := .waiting src frames }, events)

def readOut (fifo : Fifo S) : Inner S × List (Event S) × List S × Exit ℕ → Fifo S × List (Event S)
  | (inner, events, filled, .returned _) => ({ fifo with inner, reader := .idle filled }, events)
  | (inner, events, filled, .waits frames) =>
    ({ fifo with inner, reader := .waiting filled frames }, events)

def step [Inhabited S] (config : FifoConfig) (fifo : Fifo S) :
    Action S → Option (Fifo S × List (Event S))
  | .write data =>
    match fifo.writer with
    | .idle =>
      let (fifo, events) := fifo.wrote (fifo.inner.write config data)
      some (fifo, .offered (framesOf config.channels (data.length / config.channels) data) :: events)
    | _ => none
  | .writerTakes =>
    match fifo.writer with
    | .waiting src frames =>
      if fifo.inner.writable then
        some ({ fifo with
          inner := { fifo.inner with writable := false }
          writer := .woken src frames }, [])
      else none
    | _ => none
  | .writerLocks =>
    match fifo.writer with
    | .woken src frames =>
      some (fifo.wrote (fifo.inner.writeLoop config (frames + 1) src frames []))
    | _ => none
  | .read frames =>
    match fifo.reader with
    | .idle _ => some (fifo.readOut (fifo.inner.readLoop config [] frames))
    | _ => none
  | .readerTakes =>
    match fifo.reader with
    | .waiting filled frames =>
      if fifo.inner.readable then
        some ({ fifo with
          inner := { fifo.inner with readable := false }
          reader := .woken filled frames }, [])
      else none
    | _ => none
  | .readerLocks =>
    match fifo.reader with
    | .woken filled frames => some (fifo.readOut (fifo.inner.readLoop config filled frames))
    | _ => none
  | .flush =>
    let (inner, events) := fifo.inner.flush config
    some ({ fifo with inner }, events)
  | .abort =>
    some ({ fifo with
      inner := { fifo.inner with state := { fifo.inner.state with aborted := true } }
      toReader := fifo.toReader + 1 }, [])
  | .abortGivesReader =>
    if fifo.toReader = 0 then none
    else
      some ({ fifo with
        inner := { fifo.inner with readable := true }
        toReader := fifo.toReader - 1
        toWriter := fifo.toWriter + 1 }, [])
  | .abortGivesWriter =>
    if fifo.toWriter = 0 then none
    else
      some ({ fifo with
        inner := { fifo.inner with writable := true }
        toWriter := fifo.toWriter - 1
        abortReturned := true }, [])

end Fifo

end EspDevkit.Audio

/-!
## The frames in the ring

What copying into the ring, copying out of it and leaving out its oldest frames
does to the frames that are queued.
-/

namespace EspDevkit.Audio

open List

open Net (overwrite length_overwrite getElem?_overwrite)

variable {S : Type} {channels : ℕ}

@[simp]
theorem length_framesOf (frames : ℕ) (samples : List S) :
    (framesOf channels frames samples).length = frames := by
  induction frames generalizing samples with
  | zero => rfl
  | succ frames ih => simp [framesOf, ih]

theorem framesOf_add (first second : ℕ) (samples : List S) :
    framesOf channels (first + second) samples =
      framesOf channels first samples ++
        framesOf channels second (samples.drop (first * channels)) := by
  induction first generalizing samples with
  | zero => simp [framesOf]
  | succ first ih =>
    have more : first + 1 + second = first + second + 1 := by omega
    have offset : channels + first * channels = (first + 1) * channels := by ring
    rw [more, framesOf, framesOf, ih, drop_drop, offset, cons_append]

theorem take_framesOf {taken frames : ℕ} (le : taken ≤ frames) (samples : List S) :
    (framesOf channels frames samples).take taken = framesOf channels taken samples := by
  obtain ⟨rest, rfl⟩ := Nat.exists_eq_add_of_le le
  rw [framesOf_add, take_left' (length_framesOf _ _)]

theorem drop_framesOf {dropped frames : ℕ} (le : dropped ≤ frames) (samples : List S) :
    (framesOf channels frames samples).drop dropped =
      framesOf channels (frames - dropped) (samples.drop (dropped * channels)) := by
  obtain ⟨rest, rfl⟩ := Nat.exists_eq_add_of_le le
  rw [framesOf_add, drop_left' (length_framesOf _ _), Nat.add_sub_cancel_left]

theorem framesOf_congr {frames : ℕ} {samples others : List S}
    (same : samples.take (frames * channels) = others.take (frames * channels)) :
    framesOf channels frames samples = framesOf channels frames others := by
  induction frames generalizing samples others with
  | zero => rfl
  | succ frames ih =>
    have total : (frames + 1) * channels = channels + frames * channels := by ring
    rw [total] at same
    have first : samples.take channels = others.take channels := by
      have shorter := congrArg (List.take channels) same
      simpa [take_take] using shorter
    have rest := congrArg (List.drop channels) same
    rw [drop_take, drop_take, Nat.add_sub_cancel_left] at rest
    rw [framesOf, framesOf, first, ih rest]

theorem flatten_framesOf (frames : ℕ) (samples : List S) :
    (framesOf channels frames samples).flatten = samples.take (frames * channels) := by
  induction frames generalizing samples with
  | zero => simp [framesOf]
  | succ frames ih =>
    have total : (frames + 1) * channels = channels + frames * channels := by ring
    rw [framesOf, flatten_cons, ih, total, take_add]

theorem take_rotate {list : List S} {head count : ℕ} (inside : head ≤ list.length)
    (fits : count ≤ list.length) :
    (list.rotate head).take count =
      (list.drop head).take (min count (list.length - head)) ++
        list.take (count - min count (list.length - head)) := by
  rw [rotate_eq_drop_append_take inside, take_append, length_drop]
  by_cases within : count ≤ list.length - head
  · have none : count - (list.length - head) = 0 := by omega
    rw [Nat.min_eq_left within, none, Nat.sub_self, take_zero, take_zero]
  · have long : min count (list.length - head) = list.length - head := Nat.min_eq_right (by omega)
    have whole : (list.drop head).take count = (list.drop head).take (list.length - head) := by
      rw [take_of_length_le (by rw [length_drop]; omega),
        take_of_length_le (by rw [length_drop])]
    rw [long, whole, take_take, Nat.min_eq_left (by omega)]

theorem rotate_overwrite {list src : List S} {head offset : ℕ} (inside : head < list.length)
    (fits : offset + src.length ≤ list.length) :
    (overwrite (overwrite list ((head + offset) % list.length)
        (src.take (min src.length (list.length - (head + offset) % list.length)))) 0
        (src.drop (min src.length (list.length - (head + offset) % list.length)))).rotate head =
      overwrite (list.rotate head) offset src := by
  have place := Splice.placeAt_eq_mod inside (Nat.le_of_add_right_le fits)
  obtain ⟨turned, length⟩ := Splice.turned_splice (Nat.le_of_lt inside) fits
  have whole := Nat.le_trans (Nat.le_of_lt inside) (Nat.le_of_eq length.symm)
  rw [← place, rotate_eq_drop_append_take (Nat.le_of_lt inside)]
  exact (rotate_eq_drop_append_take whole).trans turned

/-- What `new` checks of a configuration. -/
structure FifoConfig.Valid (config : FifoConfig) : Prop where
  capacity_pos : 0 < config.capacity
  prefill_le : config.prefill ≤ config.capacity
  channels_pos : 0 < config.channels

namespace State

structure Wf (config : FifoConfig) (state : State S) : Prop where
  size : state.buf.length = config.capacity * config.channels
  head_lt : state.head < config.capacity
  count_le : state.count ≤ config.capacity

variable {config : FifoConfig} {state : State S}

@[simp]
theorem length_queued : (state.queued config).length = state.count := length_framesOf _ _

namespace Wf

theorem of_eq (wf : state.Wf config) {other : State S} (buf : other.buf = state.buf)
    (head : other.head = state.head) (count : other.count = state.count) : other.Wf config where
  size := buf ▸ wf.size
  head_lt := head ▸ wf.head_lt
  count_le := count ▸ wf.count_le

theorem place (valid : config.Valid) (wf : state.Wf config) :
    state.head * config.channels < state.buf.length := by
  rw [wf.size]
  exact (Nat.mul_lt_mul_right valid.channels_pos).mpr wf.head_lt

theorem skip (valid : config.Valid) (wf : state.Wf config) {frames : ℕ}
    (le : frames ≤ state.count) (after : State S) (buf : after.buf = state.buf)
    (head : after.head = (state.head + frames) % config.capacity)
    (count : after.count = state.count - frames) :
    after.Wf config ∧ after.queued config = (state.queued config).drop frames := by
  constructor
  · exact
      { size := buf ▸ wf.size
        head_lt := head ▸ Nat.mod_lt _ valid.capacity_pos
        count_le := by rw [count]; exact (Nat.sub_le _ _).trans wf.count_le }
  · have turn : state.buf.rotate ((state.head + frames) % config.capacity * config.channels) =
        (state.buf.rotate (state.head * config.channels)).rotate (frames * config.channels) := by
      rw [← Nat.mul_mod_mul_right, ← wf.size, rotate_mod, rotate_rotate, Nat.add_mul]
    have inside : frames * config.channels ≤
        (state.buf.rotate (state.head * config.channels)).length := by
      rw [length_rotate, wf.size]
      exact Nat.mul_le_mul_right _ (le.trans wf.count_le)
    rw [queued, queued, buf, head, count, turn, drop_framesOf le,
      rotate_eq_drop_append_take inside]
    apply framesOf_congr
    apply take_append_of_le_length
    rw [length_drop, length_rotate, wf.size, ← Nat.sub_mul]
    exact Nat.mul_le_mul_right _ (Nat.sub_le_sub_right wf.count_le _)

theorem copyIn (wf : state.Wf config) {src : List S} {frames : ℕ}
    (valid : config.Valid) (room : state.count + frames ≤ config.capacity)
    (enough : frames * config.channels ≤ src.length) :
    (state.copyIn src frames config.capacity config.channels).Wf config ∧
      (state.copyIn src frames config.capacity config.channels).queued config =
        state.queued config ++ framesOf config.channels frames src := by
  have taken : (src.take (frames * config.channels)).length = frames * config.channels := by
    rw [length_take, Nat.min_eq_left enough]
  have total : state.count * config.channels + frames * config.channels ≤ state.buf.length := by
    rw [wf.size, ← Nat.add_mul]
    exact Nat.mul_le_mul_right _ room
  have tail : (state.head * config.channels + state.count * config.channels) % state.buf.length =
      (state.head + state.count) % config.capacity * config.channels := by
    rw [wf.size, ← Nat.add_mul, Nat.mul_mod_mul_right]
  have part : min (frames * config.channels)
      (state.buf.length - (state.head + state.count) % config.capacity * config.channels) =
      min frames (config.capacity - (state.head + state.count) % config.capacity) *
        config.channels := by
    rw [wf.size, ← Nat.sub_mul, Nat.mul_min_mul_right]
  have turned := @rotate_overwrite S state.buf (src.take (frames * config.channels))
    (state.head * config.channels) (state.count * config.channels)
    (wf.place valid) (by rw [taken]; exact total)
  rw [taken, tail, part, take_take, Nat.min_eq_left
    (Nat.mul_le_mul_right _ (Nat.min_le_left _ _))] at turned
  have rotated : ((state.copyIn src frames config.capacity config.channels).buf).rotate
      (state.head * config.channels) = overwrite (state.buf.rotate (state.head * config.channels))
        (state.count * config.channels) (src.take (frames * config.channels)) := turned
  constructor
  · exact
      { size := by
          have lengths := congrArg List.length rotated
          rw [length_overwrite (by rw [taken, length_rotate]; exact total),
            length_rotate, length_rotate, wf.size] at lengths
          exact lengths
        head_lt := wf.head_lt
        count_le := room }
  · have before : (state.buf.rotate (state.head * config.channels)).length = state.buf.length :=
      length_rotate _ _
    have oldLength : ((state.buf.rotate (state.head * config.channels)).take
        (state.count * config.channels)).length = state.count * config.channels := by
      rw [length_take, before]
      omega
    have whole : (state.copyIn src frames config.capacity config.channels).queued config =
        framesOf config.channels (state.count + frames)
          (overwrite (state.buf.rotate (state.head * config.channels))
            (state.count * config.channels) (src.take (frames * config.channels))) := by
      rw [← rotated]
      rfl
    rw [whole, framesOf_add, queued]
    congr 1
    · apply framesOf_congr
      rw [overwrite, append_assoc, take_append_of_le_length (by omega), take_take,
        Nat.min_self]
    · apply framesOf_congr
      rw [overwrite, append_assoc, drop_left' oldLength,
        take_append_of_le_length (by omega), take_take, Nat.min_self]

theorem copyOut (valid : config.Valid) (wf : state.Wf config) {frames : ℕ}
    (le : frames ≤ state.count) :
    (state.copyOut frames config.capacity config.channels).1.Wf config ∧
      (state.copyOut frames config.capacity config.channels).1.queued config =
        (state.queued config).drop frames ∧
      (state.copyOut frames config.capacity config.channels).2 =
        ((state.queued config).take frames).flatten := by
  obtain ⟨after, queue⟩ := wf.skip valid le
    (state.copyOut frames config.capacity config.channels).1 rfl rfl rfl
  refine ⟨after, queue, ?_⟩
  have inside : frames * config.channels ≤ state.buf.length := by
    rw [wf.size]
    exact Nat.mul_le_mul_right _ (le.trans wf.count_le)
  have part : min (frames * config.channels) (state.buf.length - state.head * config.channels) =
      min frames (config.capacity - state.head) * config.channels := by
    rw [wf.size, ← Nat.sub_mul, Nat.mul_min_mul_right]
  rw [queued, take_framesOf le, flatten_framesOf, take_rotate (wf.place valid).le inside, part,
    ← Nat.sub_mul]
  rfl

end Wf

end State

end EspDevkit.Audio
