import Mathlib.Data.List.Basic
import Mathlib.Data.List.OfFn
import Mathlib.Order.Basic

/-!
# Every so many elements of a list

A list is thinned out by keeping the elements at the multiples of a step.  Thinning out what
was thinned out multiplies the steps, and a list that grows by one element keeps it if its
position is such a multiple.
-/

namespace Sampling

open List

variable {α : Type*} {step : ℕ}

theorem lt_div_iff {i n : ℕ} (pos : 0 < step) : i < (n + step - 1) / step ↔ i * step < n := by
  rw [Nat.lt_div_iff_mul_lt pos]
  omega

theorem mul_lt_of_lt_div {i n : ℕ} (lt : i < (n + step - 1) / step) : i * step < n := by
  rcases Nat.eq_zero_or_pos step with rfl | pos
  · rw [Nat.div_zero] at lt
    omega
  · exact (lt_div_iff pos).mp lt

/-- The elements at the multiples of `step`. -/
def every (step : ℕ) (l : List α) : List α :=
  List.ofFn fun i : Fin ((l.length + step - 1) / step) => l.get ⟨i * step, mul_lt_of_lt_div i.isLt⟩

@[simp]
theorem length_every (l : List α) : (every step l).length = (l.length + step - 1) / step := by
  simp [every]

theorem lt_length_every (pos : 0 < step) (l : List α) {i : ℕ} :
    i < (every step l).length ↔ i * step < l.length := by
  rw [length_every, lt_div_iff pos]

theorem length_every_of_dvd (pos : 0 < step) {l : List α} {count : ℕ}
    (length : l.length = count * step) : (every step l).length = count := by
  apply le_antisymm
  · by_contra more
    have := (lt_length_every pos l).mp (Nat.lt_of_not_le more)
    omega
  · by_contra fewer
    have := mt (lt_length_every pos l).mpr (Nat.lt_irrefl _)
    have := Nat.mul_lt_mul_of_pos_right (Nat.lt_of_not_le fewer) pos
    omega

theorem getElem?_every (pos : 0 < step) (l : List α) (i : ℕ) :
    (every step l)[i]? = l[i * step]? := by
  by_cases inside : i * step < l.length
  · rw [List.getElem?_eq_getElem ((lt_length_every pos l).mpr inside),
      List.getElem?_eq_getElem inside]
    simp [every]
  · rw [List.getElem?_eq_none (Nat.le_of_not_lt (mt (lt_length_every pos l).mp inside)),
      List.getElem?_eq_none (Nat.le_of_not_lt inside)]

@[simp]
theorem every_one (l : List α) : every 1 l = l := by
  apply ext_getElem?
  intro i
  rw [getElem?_every Nat.one_pos, Nat.mul_one]

theorem every_every {first second : ℕ} (pos : 0 < first) (pos' : 0 < second) (l : List α) :
    every second (every first l) = every (first * second) l := by
  apply ext_getElem?
  intro i
  rw [getElem?_every pos', getElem?_every pos, getElem?_every (Nat.mul_pos pos pos'),
    Nat.mul_assoc, Nat.mul_comm second]

/-- An element is kept if the ones before it come to a multiple of the step. -/
theorem every_concat (pos : 0 < step) (l : List α) (a : α) :
    every step (l ++ [a]) = if l.length % step = 0 then every step l ++ [a] else every step l := by
  apply ext_getElem?
  intro i
  rw [getElem?_every pos]
  split
  · rename_i multiple
    obtain ⟨count, length⟩ := Nat.dvd_of_mod_eq_zero multiple
    rw [Nat.mul_comm] at length
    have kept := length_every_of_dvd pos length
    rcases Nat.lt_trichotomy i count with lt | rfl | gt
    · have inside : i * step < l.length := by
        rw [length]
        exact Nat.mul_lt_mul_of_pos_right lt pos
      rw [List.getElem?_append_left inside, List.getElem?_append_left (by omega),
        getElem?_every pos]
    · rw [← length, List.getElem?_concat_length, ← kept, List.getElem?_concat_length]
    · have past := Nat.mul_lt_mul_of_pos_right gt pos
      have past' : (every step l ++ [a]).length ≤ i := by
        rw [length_append, kept]
        exact gt
      rw [List.getElem?_eq_none (by simp; omega), List.getElem?_eq_none past']
  · rename_i other
    rw [getElem?_every pos]
    rcases Nat.lt_trichotomy (i * step) l.length with lt | eq | gt
    · rw [List.getElem?_append_left lt]
    · exact absurd (eq ▸ Nat.mul_mod_left i step) other
    · rw [List.getElem?_eq_none (by simp; omega), List.getElem?_eq_none (by omega)]

theorem pairwise_every {r : α → α → Prop} (pos : 0 < step) {l : List α} (sorted : l.Pairwise r) :
    (every step l).Pairwise r := by
  rw [pairwise_iff_getElem] at *
  intro i j lt lt' ordered
  simpa [every] using sorted (i * step) (j * step) _ _ (Nat.mul_lt_mul_of_pos_right ordered pos)

/-- Moves the element at twice a position to it, for each of the positions. -/
def halve (kept : ℕ) (l : List α) : Option (List α) :=
  (List.range kept).foldlM (fun l k => l[k * 2]?.map fun a => l.set k a) l

theorem halve_spec (kept : ℕ) (l : List α) (half : kept * 2 ≤ l.length) :
    ∃ halved, halve kept l = some halved ∧ halved.length = l.length ∧
      ∀ i, halved[i]? = if i < kept then l[i * 2]? else l[i]? := by
  induction kept with
  | zero => exact ⟨l, rfl, rfl, fun i => by simp⟩
  | succ kept ih =>
    obtain ⟨halved, runs, length, elements⟩ := ih (by omega)
    have inside : kept * 2 < l.length := by omega
    have next : halved[kept * 2]? = some l[kept * 2] := by
      rw [elements, List.getElem?_eq_getElem inside]
      split
      · rename_i zero
        obtain rfl : kept = 0 := by omega
        simp at zero
      · rfl
    refine ⟨halved.set kept l[kept * 2], ?_, by rw [length_set, length], fun i => ?_⟩
    · unfold halve at *
      rw [range_succ, foldlM_append, runs]
      simp [next]
    · rw [List.getElem?_set, elements]
      rcases Nat.lt_trichotomy i kept with lt | rfl | gt
      · rw [if_neg (by omega), if_pos lt, if_pos (by omega)]
      · rw [if_pos rfl, if_pos (by omega), if_pos (by omega), List.getElem?_eq_getElem inside]
      · rw [if_neg (by omega), if_neg (by omega), if_neg (by omega)]

theorem take_halve {l : List α} (even : l.length % 2 = 0) :
    (halve (l.length / 2) l).map (·.take (l.length / 2)) = some (every 2 l) := by
  obtain ⟨halved, runs, length, elements⟩ := halve_spec (l.length / 2) l (by omega)
  rw [runs, Option.map_some, Option.some_inj]
  apply ext_getElem?
  intro i
  rw [List.getElem?_take, getElem?_every Nat.two_pos, elements]
  split
  · rfl
  · rw [List.getElem?_eq_none (by omega)]

end Sampling
