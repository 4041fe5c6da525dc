import EspDevkit.Audio.Resampler
import EspDevkit.Library.Sampling

/-!
# When frames are due

The position and what is between two frames are one number, a clock that moves on by the same
stride with each frame.  A frame is due once the frames around its position are there.
-/

namespace EspDevkit.Audio

open List

namespace Plan

variable {plan : Plan} {core core' : Core} {format : Format} {hist more : List (List ℤ)}

def unit (plan : Plan) : ℕ :=
  match plan.kind with
  | .Integer => plan.upL
  | _ => 2 ^ 32

def stride (plan : Plan) (core : Core) : ℕ :=
  match plan.kind with
  | .Integer => plan.downM
  | _ => core.stepInt * 2 ^ 32 + core.stepFrac

def clock (plan : Plan) (core : Core) : ℕ := core.pos * plan.unit + plan.between core

structure Sound (plan : Plan) (core : Core) : Prop where
  behind : plan.left ≤ core.pos
  small : plan.between core < plan.unit
  fits : core.buf.length ≤ plan.cap

theorem clock_div (small : plan.between core < plan.unit) :
    plan.clock core / plan.unit = core.pos := by
  rw [clock, Nat.add_comm, Nat.add_mul_div_right _ _ (by omega), Nat.div_eq_of_lt small,
    Nat.zero_add]

theorem clock_mod (small : plan.between core < plan.unit) :
    plan.clock core % plan.unit = plan.between core := by
  rw [clock, Nat.add_comm, Nat.add_mul_mod_self_right, Nat.mod_eq_of_lt small]

def Kept (core core' : Core) : Prop :=
  core' = { core with buf := core'.buf, pos := core'.pos, frac := core'.frac, phase := core'.phase }

theorem Kept.trans {core'' : Core} (first : Kept core core') (second : Kept core' core'') :
    Kept core core'' := by
  unfold Kept at *
  rw [second, first]

theorem Kept.stride (plan : Plan) (kept : Kept core core') :
    plan.stride core' = plan.stride core := by
  rw [kept]
  rfl

theorem advance_kept (core : Core) :
    (plan.advance core).buf = core.buf ∧ Kept core (plan.advance core) := by
  unfold advance
  split <;> exact ⟨rfl, rfl⟩

theorem advance_spec (small : plan.between core < plan.unit) :
    plan.clock (plan.advance core) = plan.clock core + plan.stride core ∧
      plan.between (plan.advance core) < plan.unit ∧ core.pos ≤ (plan.advance core).pos := by
  unfold clock unit stride between advance at *
  cases kind : plan.kind with
  | Integer =>
    simp only [kind] at small ⊢
    have parts := Nat.div_add_mod (core.phase + plan.downM) plan.upL
    refine ⟨?_, Nat.mod_lt _ (by omega), Nat.le_add_right _ _⟩
    rw [Nat.add_mul, Nat.mul_comm (_ / _)]
    omega
  | Cubic =>
    simp only [kind] at small ⊢
    refine ⟨?_, Nat.mod_lt _ (by decide), Nat.le_add_right _ _⟩
    omega
  | Polyphase =>
    simp only [kind] at small ⊢
    refine ⟨?_, Nat.mod_lt _ (by decide), Nat.le_add_right _ _⟩
    omega

def frameAt (plan : Plan) (format : Format) (hist : List (List ℤ)) (time : ℕ) :
    List (Sample format) :=
  plan.frame format hist (time / plan.unit) (time % plan.unit)

def framesFrom (plan : Plan) (format : Format) (hist : List (List ℤ)) (time stride count : ℕ) :
    List (List (Sample format)) :=
  (List.range count).map fun k => plan.frameAt format hist (time + k * stride)

/-- How many frames are due from a time on, with so many frames in the buffer. -/
def due (plan : Plan) (length time stride : ℕ) : ℕ :=
  ((length - plan.right) * plan.unit - time + stride - 1) / stride

theorem lt_due (some_ : 0 < plan.unit) {stride : ℕ} (moves : 0 < stride) (length time k : ℕ) :
    k < plan.due length time stride ↔ (time + k * stride) / plan.unit + plan.right < length := by
  have inside : (time + k * stride) / plan.unit < length - plan.right ↔
      time + k * stride < (length - plan.right) * plan.unit := Nat.div_lt_iff_lt_mul some_
  rw [due, Sampling.lt_div_iff moves, ← Nat.lt_sub_iff_add_lt, inside]
  omega

theorem due_mono {length length' time stride : ℕ} (more : length ≤ length') :
    plan.due length time stride ≤ plan.due length' time stride := by
  apply Nat.div_le_div_right
  have longer := Nat.mul_le_mul_right plan.unit (Nat.sub_le_sub_right more plan.right)
  omega

theorem due_later (some_ : 0 < plan.unit) {stride : ℕ} (moves : 0 < stride)
    (length time count : ℕ) :
    plan.due length (time + count * stride) stride = plan.due length time stride - count := by
  have same (k : ℕ) : k < plan.due length (time + count * stride) stride ↔
      k < plan.due length time stride - count := by
    rw [lt_due some_ moves, Nat.lt_sub_iff_add_lt, lt_due some_ moves, Nat.add_mul, Nat.add_assoc,
      Nat.add_comm (k * stride)]
  exact Nat.le_antisymm (le_of_forall_lt fun k => (same k).mp)
    (le_of_forall_lt fun k => (same k).mpr)

theorem framesFrom_add {time stride count count' : ℕ} :
    plan.framesFrom format hist time stride (count + count') =
      plan.framesFrom format hist time stride count ++
        plan.framesFrom format hist (time + count * stride) stride count' := by
  unfold framesFrom
  rw [range_add, map_append, map_map]
  have later : (fun k => plan.frameAt format hist (time + k * stride)) ∘ (count + ·) =
      fun k => plan.frameAt format hist (time + count * stride + k * stride) := by
    funext k
    rw [Function.comp, Nat.add_mul, Nat.add_assoc]
  rw [later]

theorem frameAt_append {time : ℕ} (behind : plan.left ≤ time / plan.unit)
    (due : time / plan.unit + plan.right < hist.length) :
    plan.frameAt format (hist ++ more) time = plan.frameAt format hist time := by
  unfold frameAt frame
  rw [drop_append_of_le_length (by omega), take_append_of_le_length
    (by rw [length_drop]; omega)]

theorem framesFrom_append (some_ : 0 < plan.unit) {time stride count : ℕ} (moves : 0 < stride)
    (behind : plan.left ≤ time / plan.unit) (due : count ≤ plan.due hist.length time stride) :
    plan.framesFrom format (hist ++ more) time stride count =
      plan.framesFrom format hist time stride count := by
  apply map_congr_left
  intro k member
  exact frameAt_append (behind.trans (Nat.div_le_div_right (Nat.le_add_right _ _)))
    ((lt_due some_ moves _ _ _).mp ((mem_range.mp member).trans_le due))

theorem frameAt_drop {base time : ℕ} (some_ : 0 < plan.unit)
    (behind : plan.left ≤ time / plan.unit) :
    plan.frameAt format (hist.drop base) time =
      plan.frameAt format hist (time + base * plan.unit) := by
  unfold frameAt frame
  rw [Nat.add_mul_div_right _ _ some_, Nat.add_mul_mod_self_right, drop_drop,
    show base + (time / plan.unit - plan.left) = time / plan.unit + base - plan.left by omega]

variable {time room : ℕ}

/-- The frames that are due are put out in the order of their times. -/
theorem generate_spec (format : Format) (room : ℕ) (sound : plan.between core < plan.unit)
    (moves : 0 < plan.stride core) {n : ℕ}
    (count : n = min room (plan.due core.buf.length (plan.clock core) (plan.stride core))) :
    (plan.generate format room core).2 =
        plan.framesFrom format core.buf (plan.clock core) (plan.stride core) n ∧
      plan.clock (plan.generate format room core).1 = plan.clock core + n * plan.stride core ∧
      plan.between (plan.generate format room core).1 < plan.unit ∧
      core.pos ≤ (plan.generate format room core).1.pos ∧
      (plan.generate format room core).1.buf = core.buf ∧
      Kept core (plan.generate format room core).1 := by
  induction room generalizing core n with
  | zero =>
    rw [Nat.zero_min] at count
    subst count
    rw [Nat.zero_mul]
    exact ⟨rfl, rfl, sound, le_rfl, rfl, rfl⟩
  | succ room ih =>
    have some_ : 0 < plan.unit := by omega
    have here := lt_due some_ moves core.buf.length (plan.clock core) 0
    rw [Nat.zero_mul, Nat.add_zero, clock_div sound] at here
    unfold generate
    by_cases ready : core.pos + plan.right < core.buf.length
    · rw [if_pos ready]
      obtain ⟨clock, small, further⟩ := advance_spec sound
      obtain ⟨buf, same⟩ : _ ∧ Kept core (plan.advance core) := advance_kept core
      have stride : plan.stride (plan.advance core) = plan.stride core := Kept.stride plan same
      have rest := ih small (moves.trans_eq stride.symm) rfl
      rw [buf, clock, stride] at rest
      have later := due_later some_ moves core.buf.length (plan.clock core) 1
      rw [Nat.one_mul] at later
      rw [later] at rest
      obtain ⟨frames, time, small', further', buf', kept⟩ := rest
      have parts : n = 1 +
          min room (plan.due core.buf.length (plan.clock core) (plan.stride core) - 1) := by
        have := here.mpr ready
        omega
      rw [parts]
      refine ⟨?_, ?_, small', further.trans further', buf', Kept.trans same kept⟩
      · change _ :: (plan.generate format room (plan.advance core)).2 = _
        rw [frames, framesFrom_add, Nat.one_mul]
        have first : plan.framesFrom format core.buf (plan.clock core) (plan.stride core) 1 =
            [plan.frame format core.buf core.pos (plan.between core)] := by
          unfold framesFrom frameAt
          rw [range_one, map_singleton, Nat.zero_mul, Nat.add_zero, clock_div sound,
            clock_mod sound]
        rw [first]
        rfl
      · change plan.clock (plan.generate format room (plan.advance core)).1 = _
        rw [time, Nat.add_mul, Nat.one_mul, Nat.add_assoc]
    · rw [if_neg ready]
      have none_ : plan.due core.buf.length (plan.clock core) (plan.stride core) = 0 := by
        have := mt here.mp ready
        omega
      rw [none_, Nat.min_zero] at count
      subst count
      rw [Nat.zero_mul]
      exact ⟨rfl, rfl, sound, le_rfl, rfl, rfl⟩

def Follows (plan : Plan) (hist : List (List ℤ)) (time : ℕ) (core : Core) : Prop :=
  ∃ base ≤ hist.length, core.buf = hist.drop base ∧ plan.clock core + base * plan.unit = time

theorem Follows.self (core : Core) : plan.Follows core.buf (plan.clock core) core :=
  ⟨0, Nat.zero_le _, rfl, by rw [Nat.zero_mul, Nat.add_zero]⟩

theorem Follows.due (follows : plan.Follows hist time core) (stride : ℕ) :
    plan.due core.buf.length (plan.clock core) stride = plan.due hist.length time stride := by
  obtain ⟨base, inside, buf, rfl⟩ := follows
  unfold Plan.due
  have rest : (core.buf.length - plan.right) * plan.unit - plan.clock core =
      (hist.length - plan.right) * plan.unit - (plan.clock core + base * plan.unit) := by
    rw [buf, length_drop]
    have parts : hist.length - plan.right ≤ base ∨
        hist.length - plan.right = (hist.length - base - plan.right) + base := by omega
    rcases parts with little | whole
    · have none_ : hist.length - base - plan.right = 0 := by omega
      have small := Nat.mul_le_mul_right plan.unit little
      rw [none_]
      omega
    · rw [whole, Nat.add_mul]
      omega
  rw [rest]

theorem Follows.framesFrom (follows : plan.Follows hist time core) (sound : plan.Sound core)
    (stride count : ℕ) :
    plan.framesFrom format core.buf (plan.clock core) stride count =
      plan.framesFrom format hist time stride count := by
  obtain ⟨base, -, buf, rfl⟩ := follows
  have some_ : 0 < plan.unit := Nat.zero_lt_of_lt sound.small
  apply map_congr_left
  intro k _
  have behind : plan.left ≤ (plan.clock core + k * stride) / plan.unit := by
    refine sound.behind.trans ?_
    rw [← clock_div sound.small]
    exact Nat.div_le_div_right (Nat.le_add_right _ _)
  rw [buf, frameAt_drop some_ behind, Nat.add_right_comm]

theorem Follows.behind (follows : plan.Follows hist time core) (sound : plan.Sound core) :
    plan.left ≤ time / plan.unit := by
  obtain ⟨base, -, -, rfl⟩ := follows
  rw [Nat.add_mul_div_right _ _ (Nat.zero_lt_of_lt sound.small), clock_div sound.small]
  exact sound.behind.trans (Nat.le_add_right _ _)

theorem Follows.append (follows : plan.Follows hist time core) (more : List (List ℤ)) :
    plan.Follows (hist ++ more) time { core with buf := core.buf ++ more } := by
  obtain ⟨base, inside, buf, same⟩ := follows
  refine ⟨base, inside.trans ?_, ?_, same⟩
  · rw [length_append]
    exact Nat.le_add_right _ _
  · rw [drop_append_of_le_length inside, buf]

theorem compact_spec (sound : plan.Sound core) (follows : plan.Follows hist time core) :
    plan.Sound (plan.compact core) ∧ plan.Follows hist time (plan.compact core) ∧
      Kept core (plan.compact core) ∧
      (core.buf.length ≤ core.pos + plan.right →
        (plan.compact core).buf.length ≤ plan.left + plan.right) := by
  have behind := sound.behind
  have between : plan.between (plan.compact core) = plan.between core := rfl
  refine ⟨⟨?_, sound.small, ?_⟩, ?_, rfl, ?_⟩
  · simp only [compact]
    omega
  · simp only [compact, length_drop]
    have := sound.fits
    omega
  · obtain ⟨base, inside, buf, rfl⟩ := follows
    have length := congrArg List.length buf
    rw [length_drop] at length
    refine ⟨base + min (core.pos - plan.left) core.buf.length, by omega, ?_, ?_⟩
    · simp only [compact]
      rw [buf, drop_drop, length_drop]
    · have pos : (core.pos - min (core.pos - plan.left) core.buf.length) +
          (base + min (core.pos - plan.left) core.buf.length) = core.pos + base := by omega
      rw [clock, between, clock, Nat.add_right_comm, Nat.add_right_comm (core.pos * _)]
      simp only [compact]
      rw [← Nat.add_mul, pos, Nat.add_mul]
  · intro little
    simp only [compact, length_drop]
    omega

end Plan

end EspDevkit.Audio
