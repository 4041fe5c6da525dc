import Mathlib.Data.List.Infix
import EspDevkit.Library.Transition
import EspDevkit.Audio.FrameFifo

/-!
# Runs of the audio FIFO

Every critical section moves frames through the queue in order, keeps the
prefill armed as its events say, and leaves the other side a token whenever it
gives it something to do.
-/

namespace EspDevkit.Audio

open QueueHistory Transition List

variable {S : Type} {config : FifoConfig}

def Event.moved : Event S → Option (Move (List S))
  | .move frame => some frame
  | _ => none

def moves (events : List (Event S)) : List (Move (List S)) := events.filterMap Event.moved

def puts (events : List (Event S)) : List (List S) := (moves events).filterMap Move.wasPut

def takens (events : List (Event S)) : List (List S) := (moves events).filterMap Move.wasTaken

def Event.offer : Event S → List (List S)
  | .offered frames => frames
  | _ => []

/-- The frames given to `write`. -/
def offers (events : List (Event S)) : List (List S) := events.flatMap Event.offer

def Event.given [Inhabited S] (config : FifoConfig) : Event S → List S
  | .move (.taken frame) => frame
  | .silence frames => List.replicate (frames * config.channels) default
  | _ => []

def givens [Inhabited S] (config : FifoConfig) (events : List (Event S)) : List S :=
  events.flatMap (Event.given config)

/-- Nothing for the reader, and nothing given to `write`. -/
def Event.quiet : Event S → Bool
  | .move (.taken _) | .silence _ | .offered _ => false
  | _ => true

/-- The prefill was reached since the queue last ran dry or was flushed. -/
def PrefillReached (config : FifoConfig) (events : List (Event S)) : Prop :=
  config.prefill = 0 ∨ ∃ before count after, events = before ++ .level count :: after ∧
    config.prefill ≤ count ∧ Event.dry ∉ after ∧ Event.flushed ∉ after

def primedAfter (config : FifoConfig) (primed : Bool) : Event S → Bool
  | .level count => primed || decide (config.prefill ≤ count)
  | .dry | .flushed => decide (config.prefill = 0)
  | _ => primed

def primedBy (config : FifoConfig) (events : List (Event S)) : Bool :=
  events.foldl (primedAfter config) (decide (config.prefill = 0))

variable {events : List (Event S)} {inner : Inner S}

theorem prefillReached_of_primedBy
    (primed : primedBy config events = true) : PrefillReached config events := by
  induction events using List.reverseRecOn with
  | nil => exact .inl (by simpa [primedBy] using primed)
  | append_singleton events event ih =>
    rw [primedBy, foldl_append] at primed
    have kept : primedBy config events = true → event ≠ .dry → event ≠ .flushed →
        PrefillReached config (events ++ [event]) := by
      intro old notDry notFlushed
      rcases ih old with none | ⟨before, count, after, rfl, reached, dry, flushed⟩
      · exact .inl none
      · refine .inr ⟨before, count, after ++ [event], by simp, reached, ?_, ?_⟩
        · simpa [dry] using notDry.symm
        · simpa [flushed] using notFlushed.symm
    cases event with
    | level count =>
      simp only [foldl_cons, foldl_nil, primedAfter, Bool.or_eq_true,
        decide_eq_true_eq] at primed
      rcases primed with old | reached
      · exact kept old (by simp) (by simp)
      · exact .inr ⟨events, count, [], rfl, reached, by simp, by simp⟩
    | dry => exact .inl (by simpa [primedAfter] using primed)
    | flushed => exact .inl (by simpa [primedAfter] using primed)
    | offered frames => exact kept primed (by simp) (by simp)
    | move frame => exact kept primed (by simp) (by simp)
    | silence frames => exact kept primed (by simp) (by simp)

section

variable (first second : List (Event S)) (move : List S → Move (List S)) (frames : List (List S))

@[simp]
theorem moves_append : moves (first ++ second) = moves first ++ moves second :=
  filterMap_append

@[simp]
theorem moves_map : moves (frames.map (Event.move ∘ move)) = frames.map move := by
  induction frames with
  | nil => rfl
  | cons frame rest ih =>
    rw [moves] at ih
    simp [moves, Event.moved, ih]

@[simp]
theorem moves_level (count : ℕ) : moves (.level count :: first) = moves first := rfl

@[simp]
theorem puts_append : puts (first ++ second) = puts first ++ puts second := by
  simp [puts]

@[simp]
theorem offers_append : offers (first ++ second) = offers first ++ offers second := by
  simp [offers]

@[simp]
theorem offers_map : offers (frames.map (Event.move ∘ move)) = [] := by
  simp [offers, Event.offer]

@[simp]
theorem givens_append [Inhabited S] :
    givens config (first ++ second) = givens config first ++ givens config second := by
  simp [givens]

@[simp]
theorem givens_map_taken [Inhabited S] :
    givens config (frames.map (Event.move ∘ Move.taken)) = frames.flatten := by
  induction frames with
  | nil => rfl
  | cons frame rest ih =>
    rw [givens] at ih
    simp only [givens, map_cons, flatMap_cons, flatten_cons, ih]
    rfl

@[simp]
theorem foldl_map_move (primed : Bool) :
    (frames.map (Event.move ∘ move)).foldl (primedAfter config) primed = primed := by
  induction frames with
  | nil => rfl
  | cons frame rest ih => simpa [primedAfter] using ih

@[simp]
theorem wasPut_map_put : (frames.map Move.put).filterMap Move.wasPut = frames := by
  induction frames with
  | nil => rfl
  | cons frame rest ih => simp [Move.wasPut, ih]

theorem kept_map_taken :
    ∀ frame, Event.move (.discarded frame) ∉ frames.map (Event.move ∘ Move.taken) := by
  intro frame member
  obtain ⟨_, _, same⟩ := mem_map.mp member
  cases same

theorem quiet_map_put : ∀ event ∈ frames.map (Event.move ∘ Move.put), event.quiet = true := by
  simp [Event.quiet]

theorem quiet_map_discarded :
    ∀ event ∈ frames.map (Event.move ∘ Move.discarded), event.quiet = true := by
  simp [Event.quiet]

variable {first} in
theorem offers_of_quiet (quiet : ∀ event ∈ first, event.quiet = true) : offers first = [] := by
  refine flatMap_eq_nil_iff.mpr fun event member => ?_
  have silent := quiet event member
  cases event <;> first | rfl | cases silent

variable {first} in
theorem givens_of_quiet [Inhabited S] (quiet : ∀ event ∈ first, event.quiet = true) :
    givens config first = [] := by
  refine flatMap_eq_nil_iff.mpr fun event member => ?_
  have silent := quiet event member
  cases event with
  | move frame => cases frame <;> first | rfl | cases silent
  | silence frames => cases silent
  | _ => rfl

@[simp]
theorem puts_map_put : puts (frames.map (Event.move ∘ Move.put)) = frames := by
  rw [puts, moves_map, wasPut_map_put]

@[simp]
theorem wasPut_map_discarded : (frames.map Move.discarded).filterMap Move.wasPut = [] := by
  induction frames with
  | nil => rfl
  | cons frame rest ih => simp [filterMap_cons, Move.wasPut, ih]

@[simp]
theorem puts_map_taken : puts (frames.map (Event.move ∘ Move.taken)) = [] := by
  rw [puts, moves_map]
  induction frames with
  | nil => rfl
  | cons frame rest ih => simp [filterMap_cons, Move.wasPut, ih]

end

/-- How a section of `write` ends, with the frames it did not put. -/
def WriteExit (config : FifoConfig) (after : State S) (rest : List (List S)) :
    Exit (List S × ℕ) → Prop
  | .returned (.ok _) => rest = []
  | .returned (.error _) => after.aborted = true
  | .waits (src, frames) => rest = framesOf config.channels frames src ∧
      frames * config.channels ≤ src.length ∧ after.count = config.capacity ∧
      after.aborted = false ∧ config.overrun ≠ .DropOldest

structure WriteSection (config : FifoConfig) (before : Inner S) (frames : List (List S))
    (after : Inner S) (events : List (Event S)) (exit : Exit (List S × ℕ)) : Prop where
  wf : after.state.Wf config
  aborted : after.state.aborted = before.state.aborted
  writable : after.writable = before.writable
  moves : Moves (before.state.queued config) (moves events) (after.state.queued config)
  quiet : ∀ event ∈ events, event.quiet = true
  refused : before.state.aborted = true → puts events = []
  keeps : config.overrun ≠ .DropOldest → ∀ frame, Event.move (.discarded frame) ∉ events
  primed : after.state.primed = events.foldl (primedAfter config) before.state.primed
  readable : after.readable = true ∨ after = before
  exits : ∃ rest, frames = puts events ++ rest ∧ WriteExit config after.state rest exit

theorem moves_left {queue passed : List (List S)} (dropped : ℕ)
    (alone : passed ≠ [] → queue.drop dropped = []) :
    Moves queue (moves ((queue.take dropped).map (Event.move ∘ Move.discarded) ++
      passed.map (Event.move ∘ Move.put) ++ passed.map (Event.move ∘ Move.discarded)))
      (queue.drop dropped) := by
  simp only [moves_append, moves_map]
  have gone := Moves.discards (queue.take dropped) (queue.drop dropped)
  rw [take_append_drop] at gone
  by_cases none : passed = []
  · simpa [none] using gone
  · rw [alone none] at gone ⊢
    have put := Moves.puts [] passed
    have discard := Moves.discards passed []
    rw [nil_append] at put
    rw [append_nil] at discard
    rw [append_assoc]
    exact gone.trans (put.trans discard)

section

variable (dropped passed : List (List S))

theorem quiet_left : ∀ event ∈ dropped.map (Event.move ∘ Move.discarded) ++
    passed.map (Event.move ∘ Move.put) ++ passed.map (Event.move ∘ Move.discarded),
      event.quiet = true := by
  intro event member
  rw [mem_append, mem_append] at member
  rcases member with (member | member) | member
  · exact quiet_map_discarded _ event member
  · exact quiet_map_put _ event member
  · exact quiet_map_discarded _ event member

theorem puts_left : puts (dropped.map (Event.move ∘ Move.discarded) ++
    passed.map (Event.move ∘ Move.put) ++ passed.map (Event.move ∘ Move.discarded)) = passed := by
  rw [puts_append, puts_append, puts_map_put]
  simp only [puts, moves_map, wasPut_map_discarded, nil_append, append_nil]

theorem primed_left (primed : Bool) : (dropped.map (Event.move ∘ Move.discarded) ++
    passed.map (Event.move ∘ Move.put) ++ passed.map (Event.move ∘ Move.discarded)).foldl
      (primedAfter config) primed = primed := by
  simp only [foldl_append, foldl_map_move]

end

theorem copy_section (valid : config.Valid) {mid : State S}
    {left : List (Event S)} {passed : List (List S)} {src : List S} {frames n : ℕ}
    (running : inner.state.aborted = false) (midWf : mid.Wf config)
    (midAborted : mid.aborted = inner.state.aborted)
    (midPrimed : mid.primed = inner.state.primed)
    (leftMoves : Moves (inner.state.queued config) (moves left) (mid.queued config))
    (leftQuiet : ∀ event ∈ left, event.quiet = true)
    (leftKeeps : config.overrun ≠ .DropOldest → left = [])
    (leftPuts : puts left = passed)
    (leftPrimed : ∀ primed, left.foldl (primedAfter config) primed = primed)
    (le : n ≤ frames) (room : mid.count + n ≤ config.capacity)
    (enough : n * config.channels ≤ src.length) {after : Inner S}
    {exit : Exit (List S × ℕ)}
    (others : WriteSection config
      ⟨{ mid.copyIn src n config.capacity config.channels with
          primed := mid.primed || decide (config.prefill ≤ mid.count + n) }, true, inner.writable⟩
      (framesOf config.channels (frames - n) (src.drop (n * config.channels))) after events exit) :
    WriteSection config inner (passed ++ framesOf config.channels frames src) after
      (left ++ (framesOf config.channels n src).map (Event.move ∘ Move.put) ++
        .level (mid.count + n) :: events) exit := by
  obtain ⟨copiedWf, copiedQueue⟩ := midWf.copyIn valid room enough
  obtain ⟨rest, all, exits⟩ := others.exits
  exact
    { wf := others.wf
      aborted := others.aborted.trans midAborted
      writable := others.writable
      moves := by
        have put := Moves.puts (mid.queued config) (framesOf config.channels n src)
        rw [← copiedQueue] at put
        simp only [moves_append, moves_map, moves_level]
        exact (leftMoves.trans put).trans others.moves
      quiet := fun event member => by
        rw [mem_append, mem_append, mem_cons] at member
        rcases member with (member | member) | rfl | member
        · exact leftQuiet event member
        · exact quiet_map_put _ event member
        · rfl
        · exact others.quiet event member
      refused := fun aborted => by
        rw [running] at aborted
        cases aborted
      keeps := fun block frame member => by
        rw [leftKeeps block, nil_append, mem_append, mem_cons] at member
        rcases member with member | same | member
        · simp at member
        · cases same
        · exact others.keeps block frame member
      primed := by
        rw [others.primed, foldl_append, foldl_append, leftPrimed, foldl_map_move,
          foldl_cons, midPrimed]
        rfl
      readable := .inl (by
        rcases others.readable with given | same
        · exact given
        · rw [same])
      exits := by
        refine ⟨rest, ?_, exits⟩
        have split : framesOf config.channels (n + (frames - n)) src = _ :=
          framesOf_add n (frames - n) src
        rw [Nat.add_sub_cancel' le] at split
        have level : puts (.level (mid.count + n) :: events) = puts events := rfl
        rw [split, all, puts_append, puts_append, leftPuts, puts_map_put, level]
        simp only [append_assoc] }

namespace Inner

theorem writeLoop_section (valid : config.Valid) (fuel : ℕ) {src : List S}
    {frames : ℕ} {passed : List (List S)} (wf : inner.state.Wf config)
    (enough : frames * config.channels ≤ src.length) (fuelled : frames < fuel)
    (fits : config.overrun = .DropOldest → frames ≤ config.capacity)
    (pass : passed ≠ [] → config.overrun = .DropOldest ∧ frames = config.capacity) :
    WriteSection config inner (passed ++ framesOf config.channels frames src)
      (inner.writeLoop config fuel src frames passed).1
      (inner.writeLoop config fuel src frames passed).2.1
      (inner.writeLoop config fuel src frames passed).2.2 := by
  induction fuel generalizing inner src frames passed with
  | zero => omega
  | succ fuel ih =>
    have idle : ∀ exit rest, passed ++ framesOf config.channels frames src = rest →
        WriteExit config inner.state rest exit →
        WriteSection config inner (passed ++ framesOf config.channels frames src) inner [] exit :=
      fun exit rest all exits =>
        { wf := wf
          aborted := rfl
          writable := rfl
          moves := .refl _
          quiet := fun _ member => by cases member
          refused := fun _ => rfl
          keeps := fun _ _ member => by cases member
          primed := rfl
          readable := .inr rfl
          exits := ⟨rest, all, exits⟩ }
    unfold writeLoop
    by_cases none : frames = 0
    · rw [if_pos none]
      have empty : passed = [] := by
        by_contra some
        have := (pass some).2
        have := valid.capacity_pos
        omega
      exact idle _ [] (by rw [none, empty]; rfl) rfl
    · rw [if_neg none]
      cases aborted : inner.state.aborted with
      | true => exact idle _ _ rfl aborted
      | false =>
        simp only [Bool.false_eq_true, if_false]
        have count := wf.count_le
        have length : (inner.state.queued config).length = inner.state.count := by simp
        have alone : ∀ dropped, inner.state.count ≤ dropped ∨ inner.state.count = 0 →
            (inner.state.queued config).drop dropped = [] := fun dropped all =>
          drop_eq_nil_of_le (by omega)
        have tail : ∀ n, n ≤ frames →
            (frames - n) * config.channels ≤ (src.drop (n * config.channels)).length :=
          fun n le => by
            rw [length_drop, Nat.sub_mul]
            omega
        have part : ∀ n, n ≤ frames → n * config.channels ≤ src.length := fun n le =>
          (Nat.mul_le_mul_right _ le).trans enough
        have later : ∀ {inner : Inner S} {src : List S} {frames : ℕ},
            inner.state.Wf config → frames * config.channels ≤ src.length → frames < fuel →
            (config.overrun = .DropOldest → frames ≤ config.capacity) →
            WriteSection config inner (framesOf config.channels frames src)
              (inner.writeLoop config fuel src frames []).1
              (inner.writeLoop config fuel src frames []).2.1
              (inner.writeLoop config fuel src frames []).2.2 :=
          fun wf enough fuelled fits => ih wf enough fuelled fits fun some => absurd rfl some
        by_cases drops : config.overrun = .DropOldest ∧ config.capacity - inner.state.count < frames
        · have small := fits drops.1
          have le : frames - (config.capacity - inner.state.count) ≤ inner.state.count := by omega
          obtain ⟨midWf, midQueue⟩ := wf.skip valid le
            ({ inner.state with
              head := (inner.state.head + (frames - (config.capacity - inner.state.count))) %
                config.capacity
              count := inner.state.count - (frames - (config.capacity - inner.state.count)) })
            rfl rfl rfl
          have room : inner.state.count - (frames - (config.capacity - inner.state.count)) + frames ≤
              config.capacity := by omega
          simp only [if_pos drops, if_neg none, Nat.min_self]
          apply copy_section valid aborted midWf rfl rfl
          · rw [midQueue]
            exact moves_left _ fun some => alone _ (.inl (by have := (pass some).2; omega))
          · exact quiet_left _ _
          · exact fun block => absurd drops.1 block
          · exact puts_left _ _
          · exact primed_left _ _
          · exact Nat.le_refl _
          · exact room
          · exact part _ (Nat.le_refl _)
          · have copied := (midWf.copyIn valid room (part _ (Nat.le_refl _))).1
            apply later
            · apply copied.of_eq <;> rfl
            · exact tail _ (Nat.le_refl _)
            · omega
            · omega
        · have idleQueue : passed ≠ [] → inner.state.count = 0 := fun some => by
            obtain ⟨dropOldest, all⟩ := pass some
            have : ¬ config.capacity - inner.state.count < frames := fun less =>
              drops ⟨dropOldest, less⟩
            omega
          simp only [if_neg drops]
          by_cases full : config.capacity - inner.state.count = 0
          · have block : config.overrun ≠ .DropOldest := fun dropOldest =>
              drops ⟨dropOldest, by omega⟩
            have empty : passed = [] := by
              by_contra some
              exact block (pass some).1
            rw [if_pos full]
            subst empty
            exact idle (.waits (src, frames)) _ rfl ⟨rfl, enough, by omega, aborted, block⟩
          · rw [if_neg full]
            have room : inner.state.count + min frames (config.capacity - inner.state.count) ≤
                config.capacity := by omega
            have le := Nat.min_le_left frames (config.capacity - inner.state.count)
            apply copy_section valid aborted wf rfl rfl
            · exact moves_left 0 fun some => alone 0 (.inr (idleQueue some))
            · exact quiet_left _ _
            · intro block
              have empty : passed = [] := by
                by_contra some
                exact block (pass some).1
              rw [empty]
              rfl
            · exact puts_left _ _
            · exact primed_left _ _
            · exact le
            · exact room
            · exact part _ le
            · have copied := (wf.copyIn valid room (part _ le)).1
              apply later
              · apply copied.of_eq <;> rfl
              · exact tail _ le
              · omega
              · exact fun dropOldest => (Nat.sub_le _ _).trans (fits dropOldest)

theorem write_section (valid : config.Valid) (wf : inner.state.Wf config)
    (data : List S) :
    WriteSection config inner (framesOf config.channels (data.length / config.channels) data)
      (inner.write config data).1 (inner.write config data).2.1 (inner.write config data).2.2 := by
  have whole : data.length / config.channels * config.channels ≤ data.length :=
    Nat.div_mul_le_self _ _
  unfold write
  by_cases beyond : config.overrun = .DropOldest ∧ config.capacity < data.length / config.channels
  · simp only [if_pos beyond]
    have split : framesOf config.channels
        (data.length / config.channels - config.capacity + config.capacity) data = _ :=
      framesOf_add (data.length / config.channels - config.capacity) config.capacity data
    rw [Nat.sub_add_cancel beyond.2.le] at split
    rw [split]
    apply writeLoop_section valid _ wf
    · rw [length_drop, Nat.sub_mul]
      have := Nat.mul_le_mul_right config.channels beyond.2.le
      omega
    · omega
    · exact fun _ => Nat.le_refl _
    · exact fun _ => ⟨beyond.1, rfl⟩
  · simp only [if_neg beyond]
    exact writeLoop_section valid _ wf whole (Nat.lt_succ_self _)
      (fun dropOldest => Nat.le_of_not_lt fun more => beyond ⟨dropOldest, more⟩)
      fun some => absurd rfl some

end Inner

structure ReadSection [Inhabited S] (config : FifoConfig) (before : Inner S) (dst : List S)
    (after : Inner S) (events : List (Event S)) (filled : List S) (exit : Exit ℕ) : Prop where
  wf : after.state.Wf config
  aborted : after.state.aborted = before.state.aborted
  readable : after.readable = before.readable
  moves : Moves (before.state.queued config) (moves events) (after.state.queued config)
  puts : puts events = []
  offers : offers events = []
  keeps : ∀ frame, Event.move (.discarded frame) ∉ events
  primed : after.state.primed = events.foldl (primedAfter config) before.state.primed
  takes : ∀ first frame second, events = first ++ .move (.taken frame) :: second →
    first.foldl (primedAfter config) before.state.primed = true
  writable : after.writable = true ∨
    after.writable = before.writable ∧ after.state.count = before.state.count
  fills : filled = dst ++ givens config events
  waits : ∀ frames, exit = .waits frames →
    after.state.aborted = false ∧ ¬ (after.state.primed = true ∧ 0 < after.state.count)

theorem primed_before_taken {took : List (List S)} {rest first second : List (Event S)}
    {frame : List S} {primed : Bool} (has : took ≠ [] → primed = true)
    (others : ∀ frame, Event.move (.taken frame) ∉ rest)
    (split : took.map (Event.move ∘ Move.taken) ++ rest = first ++ .move (.taken frame) :: second) :
    first.foldl (primedAfter config) primed = true := by
  induction took generalizing first with
  | nil =>
    rw [map_nil, nil_append] at split
    exact absurd (by rw [split]; simp) (others frame)
  | cons other took ih =>
    cases first with
    | nil => exact has (by simp)
    | cons event first =>
      obtain ⟨rfl, later⟩ := List.cons.inj split
      have tail : first.foldl (primedAfter config) primed = true :=
        ih (fun _ => has (by simp)) later
      exact tail

namespace Inner

variable [Inhabited S]

theorem readLoop_section (valid : config.Valid) (wf : inner.state.Wf config)
    (dst : List S) (frames : ℕ) :
    ReadSection config inner dst (inner.readLoop config dst frames).1
      (inner.readLoop config dst frames).2.1 (inner.readLoop config dst frames).2.2.1
      (inner.readLoop config dst frames).2.2.2 := by
  have idle : ∀ exit, (∀ frames, exit = .waits frames →
      inner.state.aborted = false ∧ ¬ (inner.state.primed = true ∧ 0 < inner.state.count)) →
      ReadSection config inner dst inner [] dst exit := fun exit waits =>
    { wf := wf
      aborted := rfl
      readable := rfl
      moves := .refl _
      puts := rfl
      offers := rfl
      keeps := fun _ member => by cases member
      primed := rfl
      takes := fun first _ _ split => by simp at split
      writable := .inr ⟨rfl, rfl⟩
      fills := by simp [givens]
      waits := waits }
  unfold readLoop
  split
  · exact idle _ fun _ waits => by cases waits
  · split
    · exact idle _ fun _ waits => by cases waits
    · rename_i notAborted
      rw [Bool.not_eq_true] at notAborted
      split
      · rename_i primed
        have le := Nat.min_le_right frames inner.state.count
        obtain ⟨takenWf, takenQueue, takenSamples⟩ := wf.copyOut valid le
        have gone := Moves.takes ((inner.state.queued config).take (min frames inner.state.count))
          ((inner.state.queued config).drop (min frames inner.state.count))
        rw [take_append_drop, ← takenQueue] at gone
        have wakes : (inner.writable || decide (min frames inner.state.count ≠ 0)) = true ∨
            (inner.writable || decide (min frames inner.state.count ≠ 0)) = inner.writable ∧
              inner.state.count - min frames inner.state.count = inner.state.count := by
          by_cases none : min frames inner.state.count = 0
          · exact .inr ⟨by simp [none], by omega⟩
          · exact .inl (by simp [none])
        have taken : ∀ rest : List (Event S), (∀ frame, Event.move (.taken frame) ∉ rest) →
            ∀ first frame second,
              ((inner.state.queued config).take (min frames inner.state.count)).map
                (Event.move ∘ Move.taken) ++ rest = first ++ .move (.taken frame) :: second →
              first.foldl (primedAfter config) inner.state.primed = true :=
          fun rest others _ _ _ => primed_before_taken (fun _ => primed) others
        simp only
        split
        · exact
            { wf := takenWf
              aborted := rfl
              readable := rfl
              moves := by
                rw [moves_map]
                exact gone
              puts := puts_map_taken _
              offers := offers_map _ _
              keeps := kept_map_taken _
              primed := by
                rw [foldl_map_move]
                rfl
              takes := by
                have only := taken [] fun _ member => by cases member
                rw [append_nil] at only
                exact only
              writable := wakes
              fills := by rw [takenSamples, givens_map_taken]
              waits := fun _ waits => by cases waits }
        · rename_i more
          have short : inner.state.count - min frames inner.state.count = 0 := by omega
          have dried : ({ (inner.state.copyOut (min frames inner.state.count) config.capacity
              config.channels).1 with primed := decide (config.prefill = 0) } : State S).Wf config :=
            takenWf.of_eq rfl rfl rfl
          split
          all_goals
            refine
              { wf := dried
                aborted := rfl
                readable := rfl
                moves := by
                  rw [moves_append, moves_map]
                  exact (append_nil _).symm ▸ gone
                puts := by
                  rw [puts_append, puts_map_taken]
                  rfl
                offers := by
                  rw [offers_append, offers_map]
                  rfl
                keeps := fun frame member => by
                  rcases mem_append.mp member with member | member
                  · exact kept_map_taken _ frame member
                  · simp at member
                primed := by
                  rw [foldl_append, foldl_map_move]
                  rfl
                takes := taken _ (by simp)
                writable := wakes
                fills := by
                  rw [takenSamples, givens_append, givens_map_taken]
                  simp [givens, Event.given]
                waits := ?_ }
          · exact fun _ waits => by cases waits
          · exact fun _ _ => ⟨notAborted, fun ready => by
              have left : 0 < inner.state.count - min frames inner.state.count := ready.2
              omega⟩
      · rename_i unprimed
        split
        · have silent := idle (.returned (.ok ())) fun _ waits => by cases waits
          exact
            { silent with
              moves := .refl _
              puts := rfl
              offers := rfl
              keeps := by simp
              primed := rfl
              takes := fun first _ second split => by
                cases first with
                | nil => simp at split
                | cons event first => simp at split
              fills := by simp [givens, Event.given] }
        · exact idle _ fun _ _ => ⟨notAborted, fun ready => unprimed ready.1⟩

end Inner

def Writer.rest (config : FifoConfig) : Writer S → List (List S)
  | .idle => []
  | .waiting src frames | .woken src frames => framesOf config.channels frames src

def Writer.isWaiting : Writer S → Bool
  | .waiting _ _ => true
  | _ => false

def Reader.isWaiting : Reader S → Bool
  | .waiting _ _ => true
  | _ => false

def Reader.filled : Reader S → List S
  | .idle filled | .waiting filled _ | .woken filled _ => filled

namespace Fifo

/-- What `new` returns, with nobody in a call. -/
def start (inner : Inner S) : Fifo S where
  inner
  writer := .idle
  reader := .idle []
  toReader := 0
  toWriter := 0
  abortReturned := false

def Steps [Inhabited S] (config : FifoConfig) (before : Fifo S) (events : List (Event S))
    (after : Fifo S) : Prop :=
  ∃ action, before.step config action = some (after, events)

structure Inv [Inhabited S] (config : FifoConfig) (fifo : Fifo S) (history : List (Event S)) :
    Prop where
  wf : fifo.inner.state.Wf config
  moves : Moves [] (moves history) (fifo.inner.state.queued config)
  primed : fifo.inner.state.primed = primedBy config history
  takes : ∀ first frame second, history = first ++ .move (.taken frame) :: second →
    primedBy config first = true
  offers : ∃ rest, offers history = puts history ++ rest ∧
    (fifo.inner.state.aborted = false → rest = fifo.writer.rest config)
  keeps : config.overrun ≠ .DropOldest → Event.flushed ∉ history →
    ∀ frame, Event.move (.discarded frame) ∉ history
  filled : fifo.reader.filled <:+ givens config history
  remains : ∀ src frames, fifo.writer = .waiting src frames ∨ fifo.writer = .woken src frames →
    frames * config.channels ≤ src.length ∧ config.overrun ≠ .DropOldest
  aborting : 0 < fifo.toReader ∨ 0 < fifo.toWriter ∨ fifo.abortReturned = true →
    fifo.inner.state.aborted = true
  writerToken : fifo.writer.isWaiting = true →
    fifo.inner.state.count < config.capacity ∨ fifo.abortReturned = true →
    fifo.inner.writable = true
  readerToken : fifo.reader.isWaiting = true →
    (fifo.inner.state.primed = true ∧ 0 < fifo.inner.state.count) ∨ 0 < fifo.toWriter ∨
      fifo.abortReturned = true →
    fifo.inner.readable = true

namespace Inv

variable {fifo : Fifo S} {history : List (Event S)}

theorem wrote_events (result : Inner S × List (Event S) × Exit (List S × ℕ)) :
    (fifo.wrote result).2 = result.2.1 := by
  obtain ⟨inner, events, exit⟩ := result
  cases exit <;> rfl

theorem readOut_events (result : Inner S × List (Event S) × List S × Exit ℕ) :
    (fifo.readOut result).2 = result.2.1 := by
  obtain ⟨inner, events, filled, exit⟩ := result
  cases exit <;> rfl

variable [Inhabited S]

theorem start (made : new config = .ok inner) :
    config.Valid ∧ Inv config (Fifo.start inner) [] := by
  unfold new at made
  split at made
  · cases made
  · split at made
    · cases made
    · rename_i sizes channels
      cases made
      refine ⟨⟨by omega, by omega, by omega⟩, ?_⟩
      exact
        { wf := ⟨by simp [Fifo.start], Nat.pos_of_ne_zero fun zero => sizes (.inl zero),
            Nat.zero_le _⟩
          moves := .refl _
          primed := rfl
          takes := fun first _ _ split => by simp at split
          offers := ⟨[], rfl, fun _ => rfl⟩
          keeps := fun _ _ _ member => by cases member
          filled := suffix_refl _
          remains := fun _ _ at' => by rcases at' with at' | at' <;> cases at'
          aborting := fun some => by simp [Fifo.start] at some
          writerToken := fun waiting => by cases waiting
          readerToken := fun waiting => by cases waiting }

theorem takes_append (inv : Inv config fifo history)
    (added : ∀ first frame second, events = first ++ .move (.taken frame) :: second →
      first.foldl (primedAfter config) fifo.inner.state.primed = true)
    (first : List (Event S)) (frame : List S) (second : List (Event S))
    (split : history ++ events = first ++ .move (.taken frame) :: second) :
    primedBy config first = true := by
  rcases append_eq_append_iff.mp split with ⟨more, rfl, later⟩ | ⟨more, earlier, later⟩
  · have taken := added more frame second later
    rw [inv.primed, primedBy] at taken
    rw [primedBy, foldl_append]
    exact taken
  · cases more with
    | nil =>
      have taken := added [] frame second later.symm
      rw [append_nil] at earlier
      rw [← earlier, ← inv.primed]
      exact taken
    | cons event more =>
      obtain ⟨rfl, _⟩ := List.cons.inj later
      exact inv.takes first frame more earlier

theorem wrote (inv : Inv config fifo history) {frames : List (List S)} {after : Inner S}
    {offered : List (Event S)} {exit : Exit (List S × ℕ)}
    (done : WriteSection config fifo.inner frames after events exit)
    (offer : offered = [] ∨ offered = [.offered frames])
    (from' : fifo.inner.state.aborted = false →
      fifo.writer.rest config ++ Audio.offers offered = frames) :
    Inv config (fifo.wrote (after, events, exit)).1 (history ++ (offered ++ events)) := by
  obtain ⟨rest, all, exits⟩ := done.exits
  obtain ⟨old, allOld, oldRest⟩ := inv.offers
  have plain : Audio.moves (offered ++ events) = Audio.moves events ∧
      (∀ primed, (offered ++ events).foldl (primedAfter config) primed =
        events.foldl (primedAfter config) primed) ∧
      givens config (offered ++ events) = [] := by
    rcases offer with rfl | rfl
    · exact ⟨rfl, fun _ => rfl, givens_of_quiet done.quiet⟩
    · exact ⟨rfl, fun _ => rfl, by rw [givens_append, givens_of_quiet done.quiet]; rfl⟩
  have next : ∀ writer : Writer S,
      (after.state.aborted = false → rest = writer.rest config) →
      (∀ src frames, writer = .waiting src frames ∨ writer = .woken src frames →
        frames * config.channels ≤ src.length ∧ config.overrun ≠ .DropOldest) →
      (writer.isWaiting = true → after.state.count = config.capacity ∧ after.state.aborted = false) →
      Inv config { fifo with inner := after, writer } (history ++ (offered ++ events)) :=
    fun writer restEq remains blocked =>
      { wf := done.wf
        moves := by
          rw [moves_append, plain.1]
          exact inv.moves.trans done.moves
        primed := by
          rw [primedBy, foldl_append, plain.2.1, done.primed, inv.primed]
          rfl
        takes := inv.takes_append fun first frame second split => by
          have member : Event.move (.taken frame) ∈ offered ++ events := by
            rw [split]
            simp
          rcases mem_append.mp member with member | member
          · rcases offer with rfl | rfl <;> simp at member
          · have quiet := done.quiet _ member
            cases quiet
        offers := by
          have none := offers_of_quiet done.quiet
          cases aborted : fifo.inner.state.aborted with
          | true =>
            have nothing : puts (offered ++ events) = [] := by
              rw [puts, plain.1]
              exact done.refused aborted
            refine ⟨old ++ Audio.offers offered, ?_, fun running => ?_⟩
            · rw [offers_append, offers_append, none, puts_append, nothing, allOld]
              simp
            · rw [done.aborted, aborted] at running
              cases running
          | false =>
            refine ⟨rest, ?_, fun _ => restEq (done.aborted.trans aborted)⟩
            have put : puts (offered ++ events) = puts events := by
              rw [puts, plain.1]
              rfl
            have given := from' aborted
            rw [← oldRest aborted, all] at given
            rw [offers_append, offers_append, none, puts_append, put, allOld, append_nil,
              append_assoc, given, append_assoc]
        keeps := fun block unflushed frame member => by
          rw [mem_append, not_or] at unflushed
          rcases mem_append.mp member with member | member
          · exact inv.keeps block unflushed.1 frame member
          · rcases mem_append.mp member with member | member
            · rcases offer with rfl | rfl <;> simp at member
            · exact done.keeps block frame member
        filled := by
          rw [givens_append, plain.2.2, append_nil]
          exact inv.filled
        remains := remains
        aborting := fun some => done.aborted.trans (inv.aborting some)
        writerToken := fun waiting ready => by
          obtain ⟨full, running⟩ := blocked waiting
          rcases ready with room | returned
          · exact absurd full room.ne
          · rw [done.aborted, inv.aborting (.inr (.inr returned))] at running
            cases running
        readerToken := fun waiting ready => by
          rcases done.readable with given | same
          · exact given
          · subst same
            exact inv.readerToken waiting ready }
  cases exit with
  | returned result =>
    refine next .idle (fun running => ?_) (fun _ _ at' => by rcases at' with at' | at' <;> cases at')
      fun waiting => by cases waiting
    cases result with
    | ok _ => exact exits
    | error error =>
      have aborted : after.state.aborted = true := exits
      rw [running] at aborted
      cases aborted
  | waits left =>
    obtain ⟨src, frames⟩ := left
    obtain ⟨restEq, enough, full, running, block⟩ := exits
    refine next (.waiting src frames) (fun _ => restEq) (fun _ _ at' => ?_) fun _ => ⟨full, running⟩
    rcases at' with at' | at' <;> cases at'
    exact ⟨enough, block⟩

theorem readOut (inv : Inv config fifo history) {dst filled : List S} {after : Inner S}
    {exit : Exit ℕ} (from' : dst <:+ givens config history)
    (done : ReadSection config fifo.inner dst after events filled exit) :
    Inv config (fifo.readOut (after, events, filled, exit)).1 (history ++ events) := by
  obtain ⟨old, allOld, oldRest⟩ := inv.offers
  have next : ∀ reader : Reader S, reader.filled = filled →
      (reader.isWaiting = true →
        after.state.aborted = false ∧ ¬ (after.state.primed = true ∧ 0 < after.state.count)) →
      Inv config { fifo with inner := after, reader } (history ++ events) :=
    fun reader fills blocked =>
      { wf := done.wf
        moves := by
          rw [moves_append]
          exact inv.moves.trans done.moves
        primed := by
          rw [primedBy, foldl_append, done.primed, inv.primed]
          rfl
        takes := inv.takes_append done.takes
        offers := ⟨old, by rw [offers_append, puts_append, done.offers, done.puts, allOld]; simp,
          fun running => oldRest (done.aborted ▸ running)⟩
        keeps := fun block unflushed frame member => by
          rw [mem_append, not_or] at unflushed
          rcases mem_append.mp member with member | member
          · exact inv.keeps block unflushed.1 frame member
          · exact done.keeps frame member
        filled := by
          obtain ⟨before, whole⟩ := from'
          exact ⟨before, by rw [fills, done.fills, givens_append, ← whole, append_assoc]⟩
        remains := inv.remains
        aborting := fun some => done.aborted.trans (inv.aborting some)
        writerToken := fun waiting ready => by
          rcases done.writable with given | ⟨sameToken, sameCount⟩
          · exact given
          · rw [sameToken]
            rw [sameCount] at ready
            exact inv.writerToken waiting ready
        readerToken := fun waiting ready => by
          obtain ⟨running, dry⟩ := blocked waiting
          rcases ready with ready | aborting
          · exact absurd ready dry
          · rw [done.aborted, inv.aborting (.inr aborting)] at running
            cases running }
  cases exit with
  | returned result => exact next (.idle filled) rfl fun waiting => by cases waiting
  | waits frames => exact next (.waiting filled frames) rfl fun _ => done.waits frames rfl

theorem step (valid : config.Valid) (inv : Inv config fifo history)
    {after : Fifo S} (step : Steps config fifo events after) :
    Inv config after (history ++ events) := by
  obtain ⟨action, step⟩ := step
  cases action with
  | write data =>
    simp only [Fifo.step] at step
    split at step
    · rename_i idle
      simp only [Option.some.injEq, Prod.mk.injEq] at step
      obtain ⟨rfl, rfl⟩ := step
      have done := fifo.inner.write_section valid inv.wf data
      have wrote := inv.wrote done (.inr rfl) fun _ => by
        rw [idle]
        simp [Writer.rest, Audio.offers, Event.offer]
      rw [wrote_events]
      exact wrote
    · cases step
  | writerTakes =>
    simp only [Fifo.step] at step
    split at step
    · rename_i src frames waiting
      split at step
      · simp only [Option.some.injEq, Prod.mk.injEq] at step
        obtain ⟨rfl, rfl⟩ := step
        rw [append_nil]
        have offers := inv.offers
        rw [waiting] at offers
        exact
          { inv with
            offers := offers
            remains := fun src frames at' => by
              rcases at' with at' | at' <;> cases at'
              exact inv.remains _ _ (.inl waiting)
            writerToken := fun waiting => by cases waiting }
      · cases step
    · cases step
  | writerLocks =>
    simp only [Fifo.step] at step
    split at step
    · rename_i src frames woken
      simp only [Option.some.injEq] at step
      obtain ⟨enough, block⟩ := inv.remains src frames (.inr woken)
      have done := fifo.inner.writeLoop_section valid (frames + 1) inv.wf enough
        (Nat.lt_succ_self _) (fun dropOldest => absurd dropOldest block)
        fun some => absurd (rfl : ([] : List (List S)) = []) some
      have wrote := inv.wrote done (.inl rfl) fun _ => by
        rw [woken]
        simp [Writer.rest, Audio.offers]
      obtain rfl : _ = after := congrArg Prod.fst step
      obtain rfl : _ = events := (wrote_events _).symm.trans (congrArg Prod.snd step)
      exact wrote
    · cases step
  | read frames =>
    simp only [Fifo.step] at step
    split at step
    · simp only [Option.some.injEq] at step
      have done := fifo.inner.readLoop_section valid inv.wf [] frames
      obtain rfl : _ = after := congrArg Prod.fst step
      obtain rfl : _ = events := (readOut_events _).symm.trans (congrArg Prod.snd step)
      exact inv.readOut nil_suffix done
    · cases step
  | readerTakes =>
    simp only [Fifo.step] at step
    split at step
    · rename_i filled frames waiting
      split at step
      · simp only [Option.some.injEq, Prod.mk.injEq] at step
        obtain ⟨rfl, rfl⟩ := step
        rw [append_nil]
        have suffix := inv.filled
        rw [waiting] at suffix
        exact { inv with
          filled := suffix
          readerToken := fun waiting => by cases waiting }
      · cases step
    · cases step
  | readerLocks =>
    simp only [Fifo.step] at step
    split at step
    · rename_i filled frames woken
      simp only [Option.some.injEq] at step
      have suffix := inv.filled
      rw [woken] at suffix
      have done := fifo.inner.readLoop_section valid inv.wf filled frames
      obtain rfl : _ = after := congrArg Prod.fst step
      obtain rfl : _ = events := (readOut_events _).symm.trans (congrArg Prod.snd step)
      exact inv.readOut suffix done
    · cases step
  | flush =>
    simp only [Fifo.step, Inner.flush, Option.some.injEq, Prod.mk.injEq] at step
    obtain ⟨rfl, rfl⟩ := step
    have gone := Moves.discards (fifo.inner.state.queued config) []
    rw [append_nil] at gone
    have flushed : ∀ primed, ((fifo.inner.state.queued config).map (Event.move ∘ Move.discarded) ++
        [Event.flushed]).foldl (primedAfter config) primed = decide (config.prefill = 0) := fun _ => by
      rw [foldl_append, foldl_map_move]
      rfl
    have quiet : ∀ event ∈ (fifo.inner.state.queued config).map (Event.move ∘ Move.discarded) ++
        [Event.flushed], event.quiet = true := fun event member => by
      rcases mem_append.mp member with member | member
      · exact quiet_map_discarded _ event member
      · rw [mem_singleton.mp member]
        rfl
    have putNone : puts ((fifo.inner.state.queued config).map (Event.move ∘ Move.discarded) ++
        [Event.flushed]) = [] := by
      rw [puts_append, puts, moves_map, wasPut_map_discarded]
      rfl
    exact
      { wf := ⟨inv.wf.size, valid.capacity_pos, Nat.zero_le _⟩
        moves := by
          rw [moves_append, moves_append, moves_map]
          exact inv.moves.trans ((append_nil _).symm ▸ gone)
        primed := by
          rw [primedBy, foldl_append, flushed]
        takes := inv.takes_append fun first frame second split => by
          have silent := quiet (.move (.taken frame)) (by rw [split]; simp)
          cases silent
        offers := by
          rw [offers_append, offers_of_quiet quiet, puts_append, putNone, append_nil,
            append_nil]
          exact inv.offers
        keeps := fun _ unflushed => absurd (by simp) unflushed
        filled := by
          rw [givens_append, givens_of_quiet quiet, append_nil]
          exact inv.filled
        remains := inv.remains
        aborting := inv.aborting
        writerToken := fun _ _ => rfl
        readerToken := fun waiting ready => by
          rcases ready with ready | aborting
          · exact absurd ready.2 (Nat.lt_irrefl 0)
          · exact inv.readerToken waiting (.inr aborting) }
  | abort =>
    simp only [Fifo.step, Option.some.injEq, Prod.mk.injEq] at step
    obtain ⟨rfl, rfl⟩ := step
    rw [append_nil]
    obtain ⟨rest, all, _⟩ := inv.offers
    exact
      { inv with
        wf := inv.wf.of_eq rfl rfl rfl
        offers := ⟨rest, all, fun running => by cases running⟩
        aborting := fun _ => rfl }
  | abortGivesReader =>
    simp only [Fifo.step] at step
    split at step
    · cases step
    · simp only [Option.some.injEq, Prod.mk.injEq] at step
      obtain ⟨rfl, rfl⟩ := step
      rw [append_nil]
      rename_i some
      have aborted := inv.aborting (.inl (Nat.pos_of_ne_zero some))
      exact
        { inv with
          aborting := fun _ => aborted
          readerToken := fun _ _ => rfl }
  | abortGivesWriter =>
    simp only [Fifo.step] at step
    split at step
    · cases step
    · simp only [Option.some.injEq, Prod.mk.injEq] at step
      obtain ⟨rfl, rfl⟩ := step
      rw [append_nil]
      rename_i some
      have pending := Nat.pos_of_ne_zero some
      have aborted := inv.aborting (.inr (.inl pending))
      exact
        { inv with
          aborting := fun _ => aborted
          writerToken := fun _ _ => rfl
          readerToken := fun waiting ready => by
            rcases ready with ready | _
            · exact inv.readerToken waiting (.inl ready)
            · exact inv.readerToken waiting (.inr (.inl pending)) }

end Inv

def runs [Inhabited S] (config : FifoConfig) (fifo : Fifo S) :
    List (Action S) → Option (Fifo S × List (Event S))
  | [] => some (fifo, [])
  | action :: rest =>
    match fifo.step config action with
    | none => none
    | some (fifo, events) => (runs config fifo rest).map fun (fifo, later) => (fifo, events ++ later)

theorem trace_of_runs [Inhabited S] {before after : Fifo S} {actions : List (Action S)}
    (result : before.runs config actions = some (after, events)) :
    Trace (Steps config) before events after := by
  induction actions generalizing before events with
  | nil =>
    cases result
    exact .refl _
  | cons action rest ih =>
    rw [runs] at result
    split at result
    · cases result
    · rename_i between emitted step
      cases later : between.runs config rest with
      | none =>
        rw [later] at result
        cases result
      | some last =>
        rw [later] at result
        cases result
        exact .cons ⟨action, step⟩ (ih later)

def short : FifoConfig := ⟨1, 4, 2, .Block, .Block⟩

end Fifo

end EspDevkit.Audio
