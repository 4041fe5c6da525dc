import EspDevkit.Ui.Flex
import Mathlib.Algebra.Order.BigOperators.Group.List

/-!
# Sizes along an axis

In numbers without bounds every child has its size.
-/

namespace EspDevkit.Ui.Flex

open Shares List Option

namespace Axis

variable (axis : Axis) (children : List Child) (child : Child)

def flexSize : ℕ :=
  if axis.grows child then share (growTotal children) (axis.free children) child.style.grow
  else if axis.shrinks children child then
    max (axis.wanted child - axis.cut children child) (axis.minimum child)
  else axis.along (axis.offered child)

def solvedAs : Solved :=
  ⟨child, axis.flexSize children child, axis.grows child || axis.shrinks children child⟩

variable {axis children child}

theorem free_le : axis.free children ≤ axis.main := by
  unfold free
  split
  · omega
  · exact Nat.zero_le _

theorem free_eq_zero (over_main : 0 < axis.overflow children) : axis.free children = 0 := by
  unfold overflow at over_main
  unfold free
  split
  · rename_i bounded
    rw [if_pos bounded] at over_main
    omega
  · rfl

theorem le_totalWeight (weight : Child → ℕ) (member : child ∈ children) :
    weight child ≤ totalWeight weight children :=
  single_le_sum (fun _ _ => Nat.zero_le _) _ (mem_map_of_mem member)

/-- The second pass gives the exact size, unless a cut does not fit. -/
theorem resize_eq (main : axis.main ≤ i16Max) (member : child ∈ children) :
    axis.resize children child =
      if axis.shrinks children child ∧ i16Max < axis.cut children child then none
      else some (axis.solvedAs children child) := by
  unfold resize solvedAs flexSize
  cases grows : axis.grows child with
  | true =>
    have not_shrinks : axis.shrinks children child = false := by
      rw [shrinks, grows]
      rfl
    have le := share_le (axis.free children) (le_totalWeight (·.style.grow) member)
    have fits : share (growTotal children) (axis.free children) child.style.grow ≤ i16Max :=
      le.trans (free_le.trans main)
    rw [if_pos rfl, if_pos rfl, checked16, if_pos fits, not_shrinks,
      if_neg fun wide => Bool.false_ne_true wide.1]
    rfl
  | false =>
    rw [if_neg Bool.false_ne_true, if_neg Bool.false_ne_true]
    cases shrinks : axis.shrinks children child with
    | true =>
      rw [if_pos rfl, if_pos rfl, checked16]
      by_cases fits : axis.cut children child ≤ i16Max
      · rw [if_pos fits, if_neg fun wide => by omega]
        rfl
      · rw [if_neg fits, if_pos ⟨rfl, by omega⟩]
        rfl
    | false =>
      have size : (if 0 < child.style.grow then axis.along (axis.offered child)
          else axis.wanted child) = axis.along (axis.offered child) := by
        split
        · rfl
        · rename_i none
          exact if_pos (by omega)
      rw [if_neg Bool.false_ne_true, if_neg Bool.false_ne_true, size,
        if_neg fun wide => Bool.false_ne_true wide.1]
      rfl

theorem mapM_eq_some {α β : Type} {f : α → Option β} {g : α → β} {members : List α}
    (eq : ∀ a ∈ members, f a = some (g a)) : members.mapM f = some (members.map g) := by
  induction members with
  | nil => rfl
  | cons a members ih =>
    rw [mapM_cons, eq a mem_cons_self,
      ih fun b member => eq b (mem_cons_of_mem _ member)]
    rfl

theorem some_of_mapM {α β : Type} {f : α → Option β} {members : List α} {results : List β}
    (is : members.mapM f = some results) : ∀ a ∈ members, ∃ b, f a = some b := by
  induction members generalizing results with
  | nil => exact nofun
  | cons a members ih =>
    rw [mapM_cons] at is
    obtain ⟨b, first, is⟩ := bind_eq_some_iff.mp is
    obtain ⟨bs, rest, -⟩ := bind_eq_some_iff.mp is
    intro c member
    rcases mem_cons.mp member with rfl | later
    · exact ⟨b, first⟩
    · exact ih rest c later

theorem sum_le {f : Child → ℕ} (le : ∀ child ∈ children, f child ≤ i16Max) :
    (children.map f).sum ≤ children.length * i16Max := by
  have := sum_le_card_nsmul (children.map f) i16Max (by simpa using le)
  simpa using this

theorem checked32_of_lt {n : ℕ} (small : n < 2 ^ 31) : checked32 n = some n := if_pos small

theorem sums_small (gap_le : axis.gap ≤ i16Max) (count : children.length ≤ i16Max) {sum : ℕ}
    (le : sum ≤ children.length * i16Max) : sum + axis.gaps children < 2 ^ 31 := by
  have sizes : children.length * i16Max ≤ i16Max * i16Max := Nat.mul_le_mul_right _ count
  have gaps : axis.gap * (children.length - 1) ≤ i16Max * (i16Max - 1) :=
    Nat.mul_le_mul gap_le (by omega)
  unfold Axis.gaps
  unfold i16Max at *
  omega

/-- What `solve_axis` gives for a box. -/
structure InRange (axis : Axis) (children : List Child) : Prop where
  gap : axis.gap ≤ i16Max
  main : axis.main ≤ i16Max
  wanted : ∀ child ∈ children, axis.along (axis.offered child) ≤ i16Max
  minimum : ∀ child ∈ children, axis.minimum child ≤ i16Max

theorem wanted_le (range : InRange axis children) (member : child ∈ children) :
    axis.wanted child ≤ i16Max := by
  unfold wanted
  split
  · exact range.wanted child member
  · exact Nat.zero_le _

theorem flexSize_le (range : InRange axis children) (member : child ∈ children) :
    axis.flexSize children child ≤ i16Max := by
  unfold flexSize
  split
  · have le := share_le (axis.free children) (le_totalWeight (·.style.grow) member)
    exact le.trans (free_le.trans range.main)
  · split
    · have wanted := wanted_le range member
      have minimum := range.minimum child member
      omega
    · exact range.wanted child member

def total (axis : Axis) (children : List Child) : ℕ :=
  min (axis.gaps children + (children.map (axis.flexSize children)).sum) i16Max

theorem solveAxis_eq (range : InRange axis children) (count : children.length ≤ i16Max)
    (cuts : ∀ child ∈ children, axis.shrinks children child = true →
      axis.cut children child ≤ i16Max) :
    ∃ across, axis.solveAxis children =
      some (children.map (axis.solvedAs children), axis.total children, across) := by
  have used : axis.used children + axis.gaps children < 2 ^ 31 :=
    sums_small range.gap count (sum_le fun child => wanted_le range)
  have sizes : (children.map (axis.flexSize children)).sum + axis.gaps children < 2 ^ 31 :=
    sums_small range.gap count (sum_le fun child => flexSize_le range)
  have resized : children.mapM (axis.resize children) =
      some (children.map (axis.solvedAs children)) := by
    refine mapM_eq_some fun child member => ?_
    rw [resize_eq range.main member, if_neg]
    rintro ⟨shrinks, wide⟩
    have := cuts child member shrinks
    omega
  obtain ⟨use, checked⟩ : ∃ use, axis.checkedUse (axis.used children + axis.gaps children) =
      some use := by
    unfold checkedUse
    split
    · exact ⟨_, checked32_of_lt used⟩
    · exact ⟨0, rfl⟩
  have same : ((children.map (axis.solvedAs children)).map Solved.size) =
      children.map (axis.flexSize children) := by
    rw [List.map_map]
    rfl
  have first := checked32_of_lt ((Nat.le_add_right _ _).trans_lt used)
  have second := checked32_of_lt ((Nat.le_add_left _ _).trans_lt used)
  have third : checked32 (axis.gaps children + (children.map (axis.flexSize children)).sum) =
      some (axis.gaps children + (children.map (axis.flexSize children)).sum) :=
    checked32_of_lt (by omega)
  refine ⟨((children.map (axis.solvedAs children)).map axis.taken).foldl max 0, ?_⟩
  unfold solveAxis
  simp only [first, second, checked, resized, same, third, bind_eq_bind, bind_some]
  rfl

theorem cuts_of_solveAxis (main : axis.main ≤ i16Max) {solved : List Solved × ℕ × ℕ}
    (is : axis.solveAxis children = some solved) : ∀ child ∈ children,
      axis.shrinks children child = true → axis.cut children child ≤ i16Max := by
  unfold solveAxis at is
  obtain ⟨_, -, is⟩ := bind_eq_some_iff.mp is
  obtain ⟨_, -, is⟩ := bind_eq_some_iff.mp is
  obtain ⟨_, -, is⟩ := bind_eq_some_iff.mp is
  obtain ⟨_, resized, -⟩ := bind_eq_some_iff.mp is
  intro child member shrinks
  obtain ⟨_, is⟩ := some_of_mapM resized child member
  rw [resize_eq main member] at is
  by_contra wide
  rw [if_pos ⟨shrinks, by omega⟩] at is
  cases is

end Axis

end EspDevkit.Ui.Flex

/-!
## Where rows and columns are exact

Every child stands behind the one before if the cuts, the last child and its end fit in 16
bits.
-/

namespace EspDevkit.Ui.Flex

open Shares List Option

variable {box : FlexBox} {children : List Child} {child : Child} {solved : Solved}
  {rest : List Solved} {position : ℤ}

namespace FlexBox

variable (box)

def stride (spacing : ℕ) (solved : Solved) : ℕ := solved.size + box.axis.gap + spacing

def strides (spacing : ℕ) (solved : List Solved) : ℕ := (solved.map (box.stride spacing)).sum

def laidOut (spacing : ℕ) : List Solved → ℤ → List Rect
  | [], _ => []
  | solved :: rest, position =>
    box.rectAt (box.startAlong + position) (box.startAcross + (box.aligned solved).1) solved.size
        (box.aligned solved).2 ::
      laidOut spacing rest (position + box.stride spacing solved)

def Placeable (spacing : ℕ) : List Solved → ℤ → Prop
  | [], _ => True
  | solved :: rest, position =>
    box.startAcross + (box.aligned solved).1 ≤ i16Max ∧ box.startAlong + position ≤ i16Max ∧
      box.stride spacing solved ≤ i16Max ∧ position + box.stride spacing solved ≤ i16Max ∧
      Placeable spacing rest (position + box.stride spacing solved)

variable {box}

theorem checked16_eq_some {n m : ℕ} : checked16 n = some m ↔ n ≤ i16Max ∧ n = m := by
  unfold checked16
  split <;> simp_all

theorem checkedCoord_eq_some {z c : ℤ} (low : -2 ^ 15 ≤ z) :
    checkedCoord z = some c ↔ z ≤ i16Max ∧ z = c := by
  unfold checkedCoord
  split
  · rename_i range
    simp [range.2]
  · rename_i range
    have past : ¬ z ≤ i16Max := fun le => range ⟨low, le⟩
    simp [past]

theorem place_eq_some_iff {spacing : ℕ} {children : List Solved} {position : ℤ}
    {rects : List Rect} (low : -2 ^ 15 ≤ position)
    (offsets : ∀ solved ∈ children, -2 ^ 15 ≤ (box.aligned solved).1) :
    box.place spacing children position = some rects ↔
      box.Placeable spacing children position ∧ box.laidOut spacing children position = rects := by
  induction children generalizing position rects with
  | nil =>
    change some [] = some rects ↔ True ∧ [] = rects
    rw [some_inj, true_and]
  | cons solved rest ih =>
    have offset := offsets solved mem_cons_self
    have across : -2 ^ 15 ≤ box.startAcross + (box.aligned solved).1 := by omega
    have along : -2 ^ 15 ≤ box.startAlong + position := by omega
    have next : -2 ^ 15 ≤ position + (box.stride spacing solved : ℕ) := by omega
    have ih {rects : List Rect} :
        box.place spacing rest (position + box.stride spacing solved) = some rects ↔ _ :=
      ih next fun other member => offsets other (mem_cons_of_mem _ member)
    unfold place Placeable laidOut
    simp only [bind_eq_bind, bind_eq_some_iff, checkedCoord_eq_some across,
      checkedCoord_eq_some along, checked16_eq_some]
    constructor
    · rintro ⟨_, ⟨fits, rfl⟩, _, ⟨fits', rfl⟩, _, ⟨-, rfl⟩, _, ⟨step, rfl⟩, _, moved, rects,
        placed, is⟩
      obtain ⟨fits'', rfl⟩ := (checkedCoord_eq_some next).mp moved
      obtain ⟨placeable, laid⟩ := ih.mp placed
      cases is
      exact ⟨⟨fits, fits', step, fits'', placeable⟩, by rw [laid]⟩
    · rintro ⟨⟨fits, fits', step, fits'', placeable⟩, is⟩
      refine ⟨_, ⟨fits, rfl⟩, _, ⟨fits', rfl⟩, _, ⟨?_, rfl⟩, _, ⟨step, rfl⟩, _,
        (checkedCoord_eq_some next).mpr ⟨fits'', rfl⟩, _, ih.mpr ⟨placeable, rfl⟩, ?_⟩
      · exact (Nat.le_add_right _ _).trans step
      · rw [← is]

/-- It is the last child, and where it ends, that decide. -/
theorem placeable_iff {spacing : ℕ} {children : List Solved} {position : ℤ}
    (fits : position ≤ i16Max) : box.Placeable spacing children position ↔
      (∀ solved ∈ children, box.startAcross + (box.aligned solved).1 ≤ i16Max) ∧
      (∀ solved ∈ children, box.stride spacing solved ≤ i16Max) ∧
      position + box.strides spacing children ≤ i16Max ∧
      ∀ before last, children = before ++ [last] →
        box.startAlong + position + box.strides spacing before ≤ i16Max := by
  induction children generalizing position with
  | nil =>
    refine iff_of_true trivial ⟨forall_mem_nil _, forall_mem_nil _, ?_, fun before last is => ?_⟩
    · change position + (0 : ℕ) ≤ i16Max
      omega
    · exact absurd is.symm (append_ne_nil_of_right_ne_nil before (cons_ne_nil last []))
  | cons solved rest ih =>
    have sum (others : List Solved) : box.strides spacing (solved :: others) =
        box.stride spacing solved + box.strides spacing others := by
      unfold strides
      rw [map_cons, sum_cons]
    rw [sum]
    constructor
    · rintro ⟨across, along, step, next, placeable⟩
      obtain ⟨acrosses, steps, finish, last⟩ := (ih next).mp placeable
      refine ⟨forall_mem_cons.mpr ⟨across, acrosses⟩,
        forall_mem_cons.mpr ⟨step, steps⟩, by omega, ?_⟩
      intro before last' is
      cases before with
      | nil =>
        change box.startAlong + position + (0 : ℕ) ≤ i16Max
        omega
      | cons first before =>
        rw [cons_append, List.cons.injEq] at is
        obtain ⟨rfl, is⟩ := is
        have := last before last' is
        rw [sum]
        omega
    · rintro ⟨acrosses, steps, finish, last⟩
      obtain ⟨across, acrosses⟩ := forall_mem_cons.mp acrosses
      obtain ⟨step, steps⟩ := forall_mem_cons.mp steps
      have next : position + box.stride spacing solved ≤ i16Max := by omega
      refine ⟨across, ?_, step, next, (ih next).mpr ⟨acrosses, steps, by omega, ?_⟩⟩
      · rcases eq_nil_or_concat rest with rfl | ⟨before, last', rfl⟩
        · have := last [] solved rfl
          omega
        · rw [concat_eq_append] at last
          have := last (solved :: before) last' rfl
          omega
      · intro before last' is
        have := last (solved :: before) last' (by rw [is]; rfl)
        rw [sum] at this
        omega

theorem inRange (box : FlexBox) : box.axis.InRange box.children := by
  obtain ⟨style, x, y, w, h, vertical, children, _, _, w_le, h_le, gapX, gapY, minimum, measure⟩ :=
    box
  cases vertical with
  | true => exact ⟨gapY, h_le, fun child member => (measure child member _ _).2,
      fun child member => (minimum child member).2⟩
  | false => exact ⟨gapX, w_le, fun child member => (measure child member _ _).1,
      fun child member => (minimum child member).1⟩

theorem cross_le (box : FlexBox) : box.axis.cross ≤ i16Max := by
  unfold axis
  split
  · exact box.w_le
  · exact box.h_le

theorem taken_le (box : FlexBox) (member : solved.child ∈ box.children) :
    box.axis.taken solved ≤ i16Max := by
  have sizes (size : ℕ × ℕ) (le : size.1 ≤ i16Max ∧ size.2 ≤ i16Max) :
      box.axis.across size ≤ i16Max := by
    unfold Axis.across
    split
    · exact le.1
    · exact le.2
  have measured (offer : ℕ) : (box.axis.measure solved.child offer).1 ≤ i16Max ∧
      (box.axis.measure solved.child offer).2 ≤ i16Max := by
    unfold Axis.measure
    split <;> exact box.measure_le solved.child member _ _
  unfold Axis.taken
  split
  · exact sizes _ (measured _)
  · exact sizes _ (measured _)

theorem tdiv_two_range (z : ℤ) : min z 0 ≤ z.tdiv 2 ∧ z.tdiv 2 ≤ max z 0 := by
  rcases Int.eq_nat_or_neg z with ⟨n, rfl | rfl⟩
  · have half : (n : ℤ).tdiv 2 = (n / 2 : ℕ) := rfl
    omega
  · have half : (-(n : ℤ)).tdiv 2 = -(n / 2 : ℕ) := Int.neg_tdiv n 2
    omega

theorem aligned_low (box : FlexBox) (member : solved.child ∈ box.children) :
    -2 ^ 15 ≤ (box.aligned solved).1 := by
  have taken := box.taken_le member
  have cross := box.cross_le
  unfold i16Max at taken cross
  have half := tdiv_two_range ((box.axis.cross : ℤ) - box.axis.taken solved)
  unfold aligned
  dsimp only
  split
  · split <;> split <;> omega
  · omega
  · dsimp only
    omega
  · dsimp only
    omega

theorem justified_range (box : FlexBox) {total : ℕ} (le : total ≤ i16Max) :
    -2 ^ 15 ≤ (box.justified total).1 ∧ (box.justified total).1 ≤ i16Max := by
  have main := box.inRange.main
  unfold i16Max at *
  have half := tdiv_two_range ((box.axis.main : ℤ) - total)
  unfold justified
  dsimp only
  split
  · omega
  · dsimp only
    omega
  · dsimp only
    omega
  · split <;> omega

variable (box)

def total : ℕ := box.axis.total box.children

def lead : ℤ := (box.justified box.total).1

def spacing : ℕ := (box.justified box.total).2

def exactly : List Solved := box.children.map (box.axis.solvedAs box.children)

/-- The cuts, the last child and the ends of all of them fit in 16 bits. -/
structure Fits : Prop where
  count : box.children.length ≤ i16Max
  cuts : ∀ child ∈ box.children, box.axis.shrinks box.children child = true →
    box.axis.cut box.children child ≤ i16Max
  across : ∀ solved ∈ box.exactly, box.startAcross + (box.aligned solved).1 ≤ i16Max
  strides : ∀ solved ∈ box.exactly, box.stride box.spacing solved ≤ i16Max
  finish : box.lead + box.strides box.spacing box.exactly ≤ i16Max
  last : ∀ before last, box.exactly = before ++ [last] →
    box.startAlong + box.lead + box.strides box.spacing before ≤ i16Max

variable {box}

/-- The layout comes out exactly where it fits. -/
theorem arrangeAxis_eq_some_iff {solved : List Solved} {rects : List Rect} :
    box.arrangeAxis = some (solved, rects) ↔
      box.Fits ∧ solved = box.exactly ∧ rects = box.laidOut box.spacing box.exactly box.lead := by
  have range := box.inRange
  have lead : -2 ^ 15 ≤ box.lead ∧ box.lead ≤ i16Max :=
    box.justified_range (Nat.min_le_right _ _)
  have offsets : ∀ solved ∈ box.exactly, -2 ^ 15 ≤ (box.aligned solved).1 := by
    intro solved member
    obtain ⟨child, is_child, rfl⟩ := mem_map.mp member
    exact box.aligned_low is_child
  have placed (rects : List Rect) :
      box.place box.spacing box.exactly box.lead = some rects ↔ _ :=
    place_eq_some_iff lead.1 offsets
  unfold arrangeAxis
  constructor
  · intro is
    obtain ⟨⟨solved', total, across⟩, solve, is⟩ := bind_eq_some_iff.mp is
    obtain ⟨_, count, is⟩ := bind_eq_some_iff.mp is
    obtain ⟨rects', place, is⟩ := bind_eq_some_iff.mp is
    have count := (checked16_eq_some.mp count).1
    have cuts := Axis.cuts_of_solveAxis range.main solve
    obtain ⟨across', solve'⟩ := Axis.solveAxis_eq range count cuts
    cases is
    cases solve.symm.trans solve'
    obtain ⟨placeable, rfl⟩ := (placed rects).mp place
    obtain ⟨acrosses, strides, finish, last⟩ := (placeable_iff lead.2).mp placeable
    exact ⟨⟨count, cuts, acrosses, strides, finish, last⟩, rfl, rfl⟩
  · rintro ⟨fits, rfl, rfl⟩
    obtain ⟨across, solve⟩ := Axis.solveAxis_eq range fits.count fits.cuts
    have placeable := (placeable_iff lead.2).mpr
      ⟨fits.across, fits.strides, fits.finish, fits.last⟩
    have place := (placed _).mpr ⟨placeable, rfl⟩
    refine bind_eq_some_iff.mpr ⟨_, solve, ?_⟩
    refine bind_eq_some_iff.mpr ⟨_, checked16_eq_some.mpr ⟨fits.count, rfl⟩, ?_⟩
    exact bind_eq_some_iff.mpr ⟨_, place, rfl⟩

end FlexBox

end EspDevkit.Ui.Flex
