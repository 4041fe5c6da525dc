import EspDevkit.Audio.ResamplerClock

/-!
# Blocks of any size

Calls with room for what is due put out the frames of one call with all of their input, and the
frames that are asked for come out where their input was asked for.
-/

namespace EspDevkit.Audio

open List

namespace Plan

variable {plan : Plan} {core core' : Core} {format : Format} {hist more : List (List ℤ)}
  {time room : ℕ}

/-- A round of `process`: some input, what it makes due, and what is kept. -/
def round (plan : Plan) (format : Format) (room : ℕ) (core : Core) (input : List (List ℤ)) :
    Core × List (List (Sample format)) :=
  let (core, frames) := plan.generate format room { core with buf := core.buf ++ input }
  (plan.compact core, frames)

theorem processLoop_succ (fuel : ℕ) (input : List (List ℤ)) :
    plan.processLoop format (fuel + 1) core input room =
      let n := min input.length (plan.cap - core.buf.length)
      let (core, frames) := plan.round format room core (input.take n)
      if input.drop n = [] then (core, frames, true)
      else if core.buf.length = plan.cap then (core, frames, false)
      else
        let (core, more, ok) :=
          plan.processLoop format fuel core (input.drop n) (room - frames.length)
        (core, frames ++ more, ok) := rfl

theorem round_spec (format : Format) (room : ℕ) (sound : plan.Sound core)
    (follows : plan.Follows hist time core)
    (moves : 0 < plan.stride core) (input : List (List ℤ))
    (fits : core.buf.length + input.length ≤ plan.cap) {n : ℕ}
    (count : n = min room (plan.due (hist ++ input).length time (plan.stride core))) :
    (plan.round format room core input).2 =
        plan.framesFrom format (hist ++ input) time (plan.stride core) n ∧
      plan.Sound (plan.round format room core input).1 ∧
      plan.Follows (hist ++ input) (time + n * plan.stride core)
        (plan.round format room core input).1 ∧
      Kept core (plan.round format room core input).1 ∧
      (n = plan.due (hist ++ input).length time (plan.stride core) →
        (plan.round format room core input).1.buf.length ≤ plan.left + plan.right) := by
  have some_ : 0 < plan.unit := Nat.zero_lt_of_lt sound.small
  let filled : Core := { core with buf := core.buf ++ input }
  have there : plan.Follows (hist ++ input) time filled := follows.append input
  have filled_sound : plan.Sound filled := ⟨sound.behind, sound.small, by
    simp only [filled, length_append]
    exact fits⟩
  have same :
      n = min room (plan.due filled.buf.length (plan.clock filled) (plan.stride filled)) := by
    rw [there.due]
    exact count
  obtain ⟨frames, clock, small, further, buf, kept⟩ :=
    generate_spec format room filled_sound.small moves same
  have later : plan.Follows (hist ++ input) (time + n * plan.stride core)
      (plan.generate format room filled).1 := by
    obtain ⟨base, inside, is, rfl⟩ := there
    refine ⟨base, inside, buf.trans is, ?_⟩
    rw [clock]
    exact Nat.add_right_comm _ _ _
  have sound' : plan.Sound (plan.generate format room filled).1 :=
    ⟨filled_sound.behind.trans further, small, buf ▸ filled_sound.fits⟩
  obtain ⟨compact_sound, follows', kept', few⟩ := compact_spec sound' later
  refine ⟨?_, compact_sound, follows', (Kept.trans kept kept'), ?_⟩
  · exact frames.trans (there.framesFrom filled_sound _ _)
  · intro all
    apply few
    have done := lt_due some_ moves (hist ++ input).length (time + n * plan.stride core) 0
    have none_ := due_later some_ moves (hist ++ input).length time n
    rw [← all, Nat.sub_self] at none_
    rw [none_, Nat.zero_mul, Nat.add_zero] at done
    have behind : (plan.generate format room filled).1.buf.length =
        (plan.generate format room filled).1.buf.length := rfl
    have same := later.due (plan.stride core)
    rw [none_] at same
    have idle := lt_due some_ moves (plan.generate format room filled).1.buf.length
      (plan.clock (plan.generate format room filled).1) 0
    rw [same, Nat.zero_mul, Nat.add_zero, clock_div small] at idle
    omega

/-- Input that is taken round by round puts out what it does in one round, if there is room for all
that is due before its last frame. -/
theorem processLoop_spec (format : Format) (room : ℕ) {fuel : ℕ} {input : List (List ℤ)}
    (wide : plan.left + plan.right < plan.cap)
    (sound : plan.Sound core) (follows : plan.Follows hist time core)
    (moves : 0 < plan.stride core)
    (enough : input ≠ [] →
      plan.due (hist.length + input.length - 1) time (plan.stride core) ≤ room)
    (rounds : input.length < fuel ∨
      (input.length ≤ fuel ∧ 0 < fuel ∧ core.buf.length < plan.cap)) {n : ℕ}
    (count : n = min room (plan.due (hist ++ input).length time (plan.stride core))) :
    ∃ core', plan.processLoop format fuel core input room =
        (core', plan.framesFrom format (hist ++ input) time (plan.stride core) n, true) ∧
      plan.Sound core' ∧ plan.Follows (hist ++ input) (time + n * plan.stride core) core' ∧
      Kept core core' := by
  induction fuel generalizing core hist time room input n with
  | zero => omega
  | succ fuel ih =>
    have some_ : 0 < plan.unit := Nat.zero_lt_of_lt sound.small
    have full := sound.fits
    rw [processLoop_succ]
    dsimp only
    generalize taken : min input.length (plan.cap - core.buf.length) = m
    have part : (input.take m).length = m := by
      rw [length_take]
      omega
    obtain ⟨frames, sound', follows', kept, few⟩ := round_spec format room sound follows
      moves (input.take m) (by omega) rfl
    by_cases last : input.drop m = []
    · have whole : input.take m = input :=
        take_of_length_le (drop_eq_nil_iff.mp last)
      rw [if_pos last]
      rw [whole] at frames sound' follows' kept ⊢
      rw [← count] at frames follows'
      exact ⟨_, by rw [← frames], sound', follows', kept⟩
    · have short : m < input.length := by
        by_contra long
        exact last (drop_of_length_le (Nat.le_of_not_lt long))
      have before : plan.due (hist ++ input.take m).length time (plan.stride core) ≤ room := by
        refine (due_mono ?_).trans (enough (ne_nil_of_length_pos (by omega)))
        rw [length_append, part]
        omega
      rw [Nat.min_eq_right before] at frames follows' few
      have kept_few := few rfl
      rw [if_neg last, if_neg (by omega)]
      have stride := kept.stride plan
      have length : (hist ++ input.take m ++ input.drop m) = hist ++ input := by
        rw [append_assoc, take_append_drop]
      have total : (hist ++ input.take m).length + (input.drop m).length =
          hist.length + input.length := by
        rw [length_append, part, length_drop]
        omega
      generalize first : plan.due (hist ++ input.take m).length time (plan.stride core) = d at *
      have count' :
          (plan.framesFrom format (hist ++ input.take m) time (plan.stride core) d).length =
            d := by
        rw [framesFrom, length_map, length_range]
      obtain ⟨core', result, sound'', follows'', kept'⟩ :=
        ih (room - d) sound' follows' (moves.trans_eq stride.symm)
          (by
            intro _
            rw [total, stride, due_later some_ moves]
            exact Nat.sub_le_sub_right (enough (ne_nil_of_length_pos (by omega))) d)
          (by
            rw [length_drop]
            omega) rfl
      rw [length, stride, due_later some_ moves] at result follows''
      generalize all : plan.due (hist ++ input).length time (plan.stride core) = due at *
      have order : d ≤ due := by
        rw [← first, ← all]
        apply due_mono
        rw [length_append, length_append, part]
        omega
      have parts : n = d + min (room - d) (due - d) := by omega
      refine ⟨core', ?_, sound'', ?_, kept.trans kept'⟩
      · rw [frames, count', result, parts, framesFrom_add, ← length,
          framesFrom_append some_ moves (follows.behind sound) first.ge]
      · rw [parts, Nat.add_mul, ← Nat.add_assoc]
        exact follows''

/-- The core as `process` begins to fill its buffer. -/
def settle (plan : Plan) (core : Core) : Core := { plan.refreshStep core with latched := false }

theorem settle_same (plan : Plan) (core : Core) : (plan.settle core).buf = core.buf ∧
    plan.clock (plan.settle core) = plan.clock core ∧
    (plan.settle core).adjustPpb = core.adjustPpb ∧
    (plan.Sound (plan.settle core) ↔ plan.Sound core) := by
  unfold settle refreshStep
  split
  · exact ⟨rfl, rfl, rfl, ⟨fun sound => ⟨sound.behind, sound.small, sound.fits⟩,
      fun sound => ⟨sound.behind, sound.small, sound.fits⟩⟩⟩
  · exact ⟨rfl, rfl, rfl, ⟨fun sound => ⟨sound.behind, sound.small, sound.fits⟩,
      fun sound => ⟨sound.behind, sound.small, sound.fits⟩⟩⟩

theorem Follows.settle (follows : plan.Follows hist time core) :
    plan.Follows hist time (plan.settle core) := by
  obtain ⟨base, inside, buf, same⟩ := follows
  obtain ⟨buf', clock, -⟩ := settle_same plan core
  exact ⟨base, inside, buf'.trans buf, clock ▸ same⟩

def loads (input : List (List (Sample format))) : List (List ℤ) := input.map (·.map Sample.load)

/-- A call puts out the frames that are due, as far as there is room, if there is room for all that
is due before its last frame. -/
theorem process_spec (plan : Plan) (room : ℕ) {input : List (List (Sample format))}
    (wide : plan.left + plan.right < plan.cap) (sound : plan.Sound core)
    (follows : plan.Follows hist time core) {stride : ℕ}
    (same : plan.stride (plan.settle core) = stride) (moves : 0 < stride)
    (few : input.length ≤ plan.maxIn)
    (enough : input ≠ [] → plan.due (hist.length + input.length - 1) time stride ≤ room) {n : ℕ}
    (count : n = min room (plan.due (hist.length + input.length) time stride)) :
    ∃ core', plan.process format core input room =
        (core', plan.framesFrom format (hist ++ loads input) time stride n, true) ∧
      plan.Sound core' ∧ plan.Follows (hist ++ loads input) (time + n * stride) core' ∧
      Kept (plan.settle core) core' := by
  subst same
  have length : (loads input).length = input.length := length_map _
  have total : (hist ++ loads input).length = hist.length + input.length := by
    rw [length_append, length]
  rw [← total] at count
  unfold process
  rw [if_neg (Nat.not_lt.mpr few)]
  apply processLoop_spec format room wide ((settle_same plan core).2.2.2.mpr sound)
    follows.settle moves
  · intro some_
    rw [length_map]
    apply enough
    rintro rfl
    exact some_ rfl
  · rw [length_map]
    exact .inl (Nat.lt_succ_self _)
  · exact count

theorem process_once (plan : Plan) (room : ℕ) (input : List (List (Sample format)))
    (sound : plan.Sound core) (moves : 0 < plan.stride (plan.settle core))
    (few : input.length ≤ plan.maxIn) (fits : core.buf.length + input.length ≤ plan.cap) :
    (plan.process format core input room).2.1.length = min room
        (plan.due (core.buf.length + input.length) (plan.clock core)
          (plan.stride (plan.settle core))) ∧
      (plan.process format core input room).2.2 = true := by
  obtain ⟨buf, clock, -, settled⟩ := settle_same plan core
  have length : (loads input).length = input.length := length_map _
  have all : min (loads input).length (plan.cap - (plan.settle core).buf.length) =
      (loads input).length := by
    rw [length, buf]
    omega
  obtain ⟨frames, -⟩ := round_spec format room (settled.mpr sound) (Follows.self (plan.settle core))
    moves (loads input) (by rw [buf, length]; exact fits) rfl
  have step : plan.process format core input room =
      ((plan.round format room (plan.settle core) (loads input)).1,
        (plan.round format room (plan.settle core) (loads input)).2, true) := by
    have whole : plan.process format core input room =
        plan.processLoop format (input.length + 1) (plan.settle core) (loads input) room := by
      unfold process
      rw [if_neg (Nat.not_lt.mpr few)]
      rfl
    rw [whole, processLoop_succ, all]
    dsimp only
    rw [take_length, drop_length, if_pos rfl]
  rw [step]
  refine ⟨?_, rfl⟩
  rw [frames, framesFrom, length_map, length_range, clock, buf, length_append,
    length]

def Stepped (plan : Plan) (core : Core) : Prop := plan.Sound core ∧ core.stepFrac < 2 ^ 32

theorem generate_sound (format : Format) (room : ℕ) (sound : plan.Sound core) :
    plan.Sound (plan.generate format room core).1 ∧ Kept core (plan.generate format room core).1 ∧
      (plan.generate format room core).1.buf = core.buf := by
  induction room generalizing core with
  | zero => exact ⟨sound, rfl, rfl⟩
  | succ room ih =>
    unfold generate
    split
    · obtain ⟨-, small, further⟩ := advance_spec sound.small
      obtain ⟨buf, same⟩ : _ ∧ Kept core (plan.advance core) := advance_kept core
      obtain ⟨sound', kept, buf'⟩ :=
        ih ⟨sound.behind.trans further, small, (congrArg List.length buf).trans_le sound.fits⟩
      exact ⟨sound', Kept.trans same kept, buf'.trans buf⟩
    · exact ⟨sound, rfl, rfl⟩

theorem round_sound (format : Format) (room : ℕ) (input : List (List ℤ))
    (sound : plan.Sound core) (fits : core.buf.length + input.length ≤ plan.cap) :
    plan.Sound (plan.round format room core input).1 ∧
      Kept core (plan.round format room core input).1 := by
  have filled : plan.Sound { core with buf := core.buf ++ input } :=
    ⟨sound.behind, sound.small, length_append.trans_le fits⟩
  obtain ⟨sound', kept, -⟩ := generate_sound format room filled
  obtain ⟨sound'', -, kept', -⟩ := compact_spec sound' (Follows.self _)
  exact ⟨sound'', kept.trans kept'⟩

theorem processLoop_sound (format : Format) (fuel room : ℕ) (input : List (List ℤ))
    (sound : plan.Sound core) :
    plan.Sound (plan.processLoop format fuel core input room).1 ∧
      Kept core (plan.processLoop format fuel core input room).1 := by
  induction fuel generalizing core room input with
  | zero => exact ⟨sound, rfl⟩
  | succ fuel ih =>
    have full := sound.fits
    rw [processLoop_succ]
    dsimp only
    have inside : (input.take (min input.length (plan.cap - core.buf.length))).length ≤
        plan.cap - core.buf.length := by
      rw [length_take]
      omega
    obtain ⟨sound', kept⟩ := round_sound format room
      (input.take (min input.length (plan.cap - core.buf.length))) sound (by omega)
    split
    · exact ⟨sound', kept⟩
    · split
      · exact ⟨sound', kept⟩
      · obtain ⟨sound'', kept'⟩ := ih _ _ sound'
        exact ⟨sound'', kept.trans kept'⟩

end Plan

end EspDevkit.Audio
