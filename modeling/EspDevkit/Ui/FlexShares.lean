import EspDevkit.Ui.FlexExact
import Mathlib.Algebra.BigOperators.Ring.Finset

/-!
# What rows and columns share

Growing children share what is free, and less than a pixel of each is lost.
-/

namespace EspDevkit.Ui.Flex

open Shares List

namespace Axis

variable (axis : Axis) (children : List Child) (child : Child)

def slack : ℕ :=
  if child.style.grow = 0 ∧ 0 < child.style.shrink then axis.wanted child - axis.minimum child
  else 0

/-- What a child gives up: its share, or less where it stops at its least size. -/
def givenUp : ℤ :=
  if axis.shrinks children child then
    axis.wanted child - max (axis.wanted child - axis.cut children child) (axis.minimum child)
  else 0

variable {axis children child}

theorem wanted_of_grow (some : 0 < child.style.grow) : axis.wanted child = 0 :=
  if_neg (by omega)

theorem grows_eq (bounded : axis.bounded = true) :
    axis.grows child = decide (0 < child.style.grow) := by
  rw [grows, bounded, Bool.and_true]

theorem flexSize_of_grow (bounded : axis.bounded = true) (some : 0 < child.style.grow) :
    axis.flexSize children child =
      share (growTotal children) (axis.free children) child.style.grow := by
  unfold flexSize
  rw [grows_eq bounded, if_pos (decide_eq_true some)]

theorem grown (bounded : axis.bounded = true) (member : child ∈ children)
    (some : 0 < child.style.grow) :
    axis.flexSize children child * growTotal children ≤ axis.free children * child.style.grow ∧
      axis.free children * child.style.grow <
        (axis.flexSize children child + 1) * growTotal children := by
  have total : 0 < growTotal children :=
    some.trans_le (le_totalWeight (·.style.grow) member)
  rw [flexSize_of_grow bounded some]
  exact ⟨share_mul_le _ _ _, lt_share_mul _ total _⟩

theorem sum_grown (bounded : axis.bounded = true) (others : List Child) :
    ((others.filter fun child => 0 < child.style.grow).map (axis.flexSize children)).sum =
      (others.map fun child =>
        share (growTotal children) (axis.free children) child.style.grow).sum := by
  induction others with
  | nil => rfl
  | cons child others ih =>
    rw [map_cons, sum_cons, ← ih, filter_cons]
    by_cases some : 0 < child.style.grow
    · rw [if_pos (decide_eq_true some), map_cons, sum_cons,
        flexSize_of_grow bounded some]
    · have none : child.style.grow = 0 := by omega
      rw [none]
      simp [share]

theorem flexSize_of_fit (bounded : axis.bounded = true) (fit : axis.overflow children = 0) :
    axis.flexSize children child = axis.wanted child +
      share (growTotal children) (axis.free children) child.style.grow := by
  by_cases some : 0 < child.style.grow
  · rw [flexSize_of_grow bounded some, wanted_of_grow some, Nat.zero_add]
  · have none : child.style.grow = 0 := by omega
    have wanted : axis.wanted child = axis.along (axis.offered child) := if_pos none
    unfold flexSize shrinks
    rw [grows_eq bounded, none, fit, wanted]
    simp [share]

theorem sizes_of_fit (bounded : axis.bounded = true) (fit : axis.overflow children = 0)
    (others : List Child) : (others.map (axis.flexSize children)).sum =
      axis.used others + (others.map fun child =>
        share (growTotal children) (axis.free children) child.style.grow).sum := by
  induction others with
  | nil => rfl
  | cons child others ih =>
    unfold used at ih ⊢
    rw [map_cons, sum_cons, ih, flexSize_of_fit bounded fit]
    simp only [map_cons, sum_cons]
    omega

theorem sum_le_of_fit (bounded : axis.bounded = true) (fit : axis.overflow children = 0) :
    (children.map (axis.flexSize children)).sum + axis.gaps children ≤ axis.main := by
  have shares := sum_share_le (fun child : Child => child.style.grow) children (axis.free children)
  have sizes := sizes_of_fit bounded fit children
  unfold overflow at fit
  unfold free at shares sizes
  rw [if_pos bounded] at fit shares
  rw [if_pos bounded] at sizes
  unfold growTotal at sizes
  omega

theorem flexSize_of_overflow (over_main : 0 < axis.overflow children) :
    (axis.flexSize children child : ℤ) = axis.wanted child - axis.givenUp children child := by
  have bounded : axis.bounded = true := by
    by_contra unbounded
    unfold overflow at over_main
    rw [if_neg unbounded] at over_main
    exact absurd over_main (Nat.lt_irrefl 0)
  by_cases some : 0 < child.style.grow
  · have not_shrinks : axis.shrinks children child = false := by
      rw [shrinks, grows_eq bounded, decide_eq_true some]
      rfl
    rw [flexSize_of_grow bounded some, wanted_of_grow some, free_eq_zero over_main, givenUp,
      not_shrinks]
    simp [share]
  · have none : child.style.grow = 0 := by omega
    have wanted : axis.wanted child = axis.along (axis.offered child) := if_pos none
    unfold flexSize givenUp
    rw [grows_eq bounded, decide_eq_false some, if_neg Bool.false_ne_true]
    split
    · omega
    · rw [wanted, Int.sub_zero]

theorem sizes_of_overflow (over_main : 0 < axis.overflow children) (others : List Child) :
    ((others.map (axis.flexSize children)).sum : ℤ) =
      axis.used others - (others.map (axis.givenUp children)).sum := by
  induction others with
  | nil => rfl
  | cons child others ih =>
    have size : (axis.flexSize children child : ℤ) = _ := flexSize_of_overflow over_main
    unfold used at ih ⊢
    simp only [map_cons, sum_cons, Nat.cast_add]
    omega

theorem sum_le_iff (bounded : axis.bounded = true) :
    (children.map (axis.flexSize children)).sum + axis.gaps children ≤ axis.main ↔
      (axis.overflow children : ℤ) ≤ (children.map (axis.givenUp children)).sum := by
  rcases Nat.eq_zero_or_pos (axis.overflow children) with fit | over_main
  · refine iff_of_true (sum_le_of_fit bounded fit) ?_
    have none : children.map (axis.givenUp children) = children.map fun _ => 0 := by
      refine map_congr_left fun child _ => if_neg ?_
      simp [shrinks, fit]
    rw [none, fit]
    simp
  · have sizes := sizes_of_overflow over_main children
    have over_eq : (axis.overflow children : ℤ) =
        axis.used children + axis.gaps children - axis.main := by
      unfold overflow at over_main ⊢
      rw [if_pos bounded] at over_main ⊢
      omega
    omega

end Axis

namespace FlexBox

variable (box : FlexBox)

/-- A row or column as it is meant: the children one behind the other, the growing ones with
their shares of what is free, and all within the main size if the shrinking ones can give up
what is too much. -/
structure Exact (solved : List Solved) (rects : List Rect) : Prop where
  children : solved.map Solved.child = box.children
  rects : rects = box.laidOut box.spacing solved box.lead
  grown : box.axis.bounded = true → ∀ s ∈ solved, 0 < s.child.style.grow →
    s.size * Axis.growTotal box.children ≤ box.axis.free box.children * s.child.style.grow ∧
      box.axis.free box.children * s.child.style.grow <
        (s.size + 1) * Axis.growTotal box.children
  shared : box.axis.bounded = true → (∃ child ∈ box.children, 0 < child.style.grow) →
    ((solved.filter fun s => 0 < s.child.style.grow).map Solved.size).sum ≤
        box.axis.free box.children ∧
      box.axis.free box.children <
        ((solved.filter fun s => 0 < s.child.style.grow).map Solved.size).sum +
          box.children.countP fun child => 0 < child.style.grow
  shrunk : box.axis.bounded = true →
    box.axis.overflow box.children ≤ (box.children.map box.axis.slack).sum →
    (solved.map Solved.size).sum + box.axis.gaps box.children ≤ box.axis.main

/-- The shares of the shrinking children cover what is too much, if they can give it up. -/
def SharesCover : Prop := box.axis.bounded = true →
  box.axis.overflow box.children ≤ (box.children.map box.axis.slack).sum →
  (box.axis.overflow box.children : ℤ) ≤
    (box.children.map (box.axis.givenUp box.children)).sum

variable {box}

theorem sizes_exactly :
    box.exactly.map Solved.size = box.children.map (box.axis.flexSize box.children) := by
  unfold exactly
  rw [map_map]
  rfl

theorem filter_exactly : (box.exactly.filter fun s => 0 < s.child.style.grow).map Solved.size =
    (box.children.filter fun child => 0 < child.style.grow).map
      (box.axis.flexSize box.children) := by
  unfold exactly
  rw [filter_map, map_map]
  rfl

/-- Beside what is too much, a layout that comes out is always exact. -/
theorem exact_iff : box.Exact box.exactly (box.laidOut box.spacing box.exactly box.lead) ↔
    box.SharesCover := by
  constructor
  · intro is bounded can
    rw [← Axis.sum_le_iff bounded, ← sizes_exactly]
    exact is.shrunk bounded can
  · intro covers
    refine ⟨?_, rfl, ?_, ?_, ?_⟩
    · unfold exactly
      rw [map_map]
      exact map_id _
    · intro bounded s member some
      obtain ⟨child, is_child, rfl⟩ := mem_map.mp member
      exact Axis.grown bounded is_child some
    · intro bounded some
      rw [filter_exactly, Axis.sum_grown bounded]
      exact ⟨sum_share_le _ _ _, lt_sum_share _ _ _ some⟩
    · intro bounded can
      rw [sizes_exactly, Axis.sum_le_iff bounded]
      exact covers bounded can

def longColumn : FlexBox where
  style := {}
  x := 0
  y := 0
  w := 100
  h := unbounded
  vertical := true
  children := List.replicate 2 ⟨{}, fun _ _ => (100, 20000)⟩
  x_le := by decide
  y_le := by decide
  w_le := by decide
  h_le := by decide
  gapX_le := by decide
  gapY_le := by decide
  minimum_le := by simp
  measure_le := by simp [i16Max]

end FlexBox

/-- A child that stops at its least size leaves its share to no one: the children of 10 and 100
pixels keep 91 in a main size of 90, though the second could give up the rest. -/
example : (Axis.solveAxis ⟨0, 90, 50, true⟩
    [⟨{ minHeight := 10, shrink := 1 }, fun _ _ => (50, 10)⟩,
      ⟨{ shrink := 1 }, fun _ _ => (50, 100)⟩]).map (fun solved => solved.1.map Solved.size) =
    some [10, 81] := by
  decide

end EspDevkit.Ui.Flex
