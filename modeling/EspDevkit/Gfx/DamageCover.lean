import EspDevkit.Gfx.Damage
import EspDevkit.Library.Boxes

/-!
# Damage covers what was added

Inside `full` no coordinate wraps, so rects are boxes of cells there: a union is the box around
both, and a rect that has absorbed all regions it meets is disjoint from the rest, which is why
the cost of uniting it with one of them is not negative.
-/

namespace EspDevkit.Gfx

open Boxes

variable {n i : ℕ} {full r rect other region : Rect} {regions : List Rect} {cell : ℤ × ℤ}

namespace Rect

def box (r : Rect) : Box :=
  ⟨r.x.toInt, r.y.toInt, r.x.toInt + r.w.toInt, r.y.toInt + r.h.toInt⟩

def cells (r : Rect) : Set (ℤ × ℤ) := r.box.cells

/-- A number that an `i16` has room for. -/
def InRange (number : ℤ) : Prop := -2 ^ 15 ≤ number ∧ number < 2 ^ 15

instance (number : ℤ) : Decidable (InRange number) :=
  inferInstanceAs (Decidable (_ ∧ _))

structure Bounded (r : Rect) : Prop where
  right : InRange r.box.right
  bottom : InRange r.box.bottom

/-- The rect and what `intersect` makes of it and `full` are in range. -/
structure Clips (full rect : Rect) : Prop extends Bounded rect where
  wide : InRange ((rect.box.meet full.box).right - (rect.box.meet full.box).left)
  high : InRange ((rect.box.meet full.box).bottom - (rect.box.meet full.box).top)

end Rect

open Rect

theorem bmod_of_inRange {number : ℤ} (range : InRange number) :
    number.bmod (2 ^ 16) = number := by
  obtain ⟨low, high⟩ := range
  rw [Int.bmod_def]
  omega

theorem toInt_max (a b : Int16) : (max a b).toInt = max a.toInt b.toInt := by
  change (if a ≤ b then b else a).toInt = _
  split
  · rename_i le
    have := Int16.le_iff_toInt_le.mp le
    omega
  · rename_i lt
    have := mt Int16.le_iff_toInt_le.mpr lt
    omega

theorem toInt_min (a b : Int16) : (min a b).toInt = min a.toInt b.toInt := by
  change (if a ≤ b then a else b).toInt = _
  split
  · rename_i le
    have := Int16.le_iff_toInt_le.mp le
    omega
  · rename_i lt
    have := mt Int16.le_iff_toInt_le.mpr lt
    omega

theorem toInt_right (bounded : Bounded r) : r.right.toInt = r.box.right := by
  rw [right, Int16.toInt_add]
  exact bmod_of_inRange bounded.right

theorem toInt_bottom (bounded : Bounded r) : r.bottom.toInt = r.box.bottom := by
  rw [bottom, Int16.toInt_add]
  exact bmod_of_inRange bounded.bottom

theorem isEmpty_eq_false_iff :
    r.isEmpty = false ↔ r.box.left < r.box.right ∧ r.box.top < r.box.bottom := by
  have wide : (r.w ≤ 0) ↔ r.w.toInt ≤ 0 := Int16.le_iff_toInt_le
  have high : (r.h ≤ 0) ↔ r.h.toInt ≤ 0 := Int16.le_iff_toInt_le
  rw [isEmpty, Bool.or_eq_false_iff, decide_eq_false_iff_not, decide_eq_false_iff_not, wide, high]
  unfold box
  dsimp only
  omega

theorem area_eq (some : r.isEmpty = false) : r.area.toNat = r.box.area := by
  have wide := r.w.toInt_lt
  have high := r.h.toInt_lt
  have room : r.w.toInt.toNat * r.h.toInt.toNat ≤ 2 ^ 15 * 2 ^ 15 :=
    Nat.mul_le_mul (by omega) (by omega)
  rw [area, some, if_neg Bool.false_ne_true, UInt32.toNat_mul, UInt32.toNat_ofNat',
    UInt32.toNat_ofNat', Nat.mod_eq_of_lt (show r.w.toInt.toNat < 2 ^ 32 by omega),
    Nat.mod_eq_of_lt (show r.h.toInt.toNat < 2 ^ 32 by omega), Nat.mod_eq_of_lt (by omega)]
  unfold box Box.area
  dsimp only
  congr 2 <;> omega

theorem intersect_box (bounded : Bounded full) (clips : Clips full rect) :
    (rect.intersect full).box = rect.box.meet full.box := by
  have wide := clips.wide
  have high := clips.high
  have right := toInt_right clips.toBounded
  have bottom := toInt_bottom clips.toBounded
  have right' := toInt_right bounded
  have bottom' := toInt_bottom bounded
  unfold Box.meet at wide high ⊢
  unfold intersect
  conv_lhs => unfold box
  dsimp only at wide high ⊢
  rw [Int16.toInt_sub, Int16.toInt_sub, toInt_min, toInt_min, toInt_max, toInt_max, right, bottom,
    right', bottom']
  unfold box at wide high ⊢
  dsimp only at wide high ⊢
  rw [bmod_of_inRange wide, bmod_of_inRange high]
  congr 1 <;> omega

section Inside

variable (bounded : Bounded full)
include bounded

theorem bounded_of_inside (inside : full.box.Inside r.box) : Bounded r := by
  obtain ⟨wide, high, left, top, right, bottom⟩ := inside
  have low := r.x.le_toInt
  have low' := r.y.le_toInt
  have edge := bounded.right.2
  have edge' := bounded.bottom.2
  constructor
  · refine ⟨?_, right.trans_lt edge⟩
    exact le_trans low wide.le
  · refine ⟨?_, bottom.trans_lt edge'⟩
    exact le_trans low' high.le

theorem clips_of_inside (inside : full.box.Inside r.box) (inside' : full.box.Inside other.box) :
    Clips other r := by
  refine ⟨bounded_of_inside bounded inside, ?_, ?_⟩
  all_goals
    obtain ⟨wide, high, left, top, right, bottom⟩ := inside
    obtain ⟨wide', high', left', top', right', bottom'⟩ := inside'
    have width := full.w.toInt_lt
    have height := full.h.toInt_lt
    have width' := r.w.toInt_lt
    have height' := r.h.toInt_lt
    unfold Box.meet InRange
    unfold box at *
    dsimp only at *
    omega

theorem union_box (inside : full.box.Inside r.box) (inside' : full.box.Inside other.box) :
    (r.union other).box = r.box.hull other.box := by
  have some : r.isEmpty = false := isEmpty_eq_false_iff.mpr ⟨inside.wide, inside.high⟩
  have some' : other.isEmpty = false := isEmpty_eq_false_iff.mpr ⟨inside'.wide, inside'.high⟩
  have right := toInt_right (bounded_of_inside bounded inside)
  have bottom := toInt_bottom (bounded_of_inside bounded inside)
  have right' := toInt_right (bounded_of_inside bounded inside')
  have bottom' := toInt_bottom (bounded_of_inside bounded inside')
  have hull := inside.hull inside'
  have wide : InRange ((r.box.hull other.box).right - (r.box.hull other.box).left) := by
    obtain ⟨wide, -, left, -, right, -⟩ := hull
    have width := full.w.toInt_lt
    unfold box InRange at *
    dsimp only at *
    omega
  have high : InRange ((r.box.hull other.box).bottom - (r.box.hull other.box).top) := by
    obtain ⟨-, high, -, top, -, bottom⟩ := hull
    have height := full.h.toInt_lt
    unfold box InRange at *
    dsimp only at *
    omega
  clear hull
  unfold union
  rw [some, some', if_neg Bool.false_ne_true, if_neg Bool.false_ne_true]
  unfold Box.hull at wide high ⊢
  conv_lhs => unfold box
  dsimp only at wide high ⊢
  rw [Int16.toInt_sub, Int16.toInt_sub, toInt_max, toInt_max, toInt_min, toInt_min, right, bottom,
    right', bottom']
  unfold box at wide high ⊢
  dsimp only at wide high ⊢
  rw [bmod_of_inRange wide, bmod_of_inRange high]
  congr 1 <;> omega

theorem union_inside (inside : full.box.Inside r.box) (inside' : full.box.Inside other.box) :
    full.box.Inside (r.union other).box := by
  rw [union_box bounded inside inside']
  exact inside.hull inside'

theorem disjoint_of_intersects (inside : full.box.Inside r.box)
    (inside' : full.box.Inside other.box) (apart : r.intersects other = false) :
    ∀ cell ∈ r.cells, cell ∉ other.cells := by
  have clips := clips_of_inside bounded inside inside'
  rw [intersects, Bool.not_eq_false', ← Bool.not_eq_false, isEmpty_eq_false_iff,
    intersect_box (bounded_of_inside bounded inside') clips] at apart
  intro cell one another
  have member := Box.mem_meet.mpr ⟨one, another⟩
  rw [Box.mem_cells] at member
  exact apart ⟨by omega, by omega⟩

/-- Uniting a rect with a region it does not meet costs nothing below zero. -/
theorem area_add_le_union (inside : full.box.Inside r.box) (inside' : full.box.Inside other.box)
    (apart : r.intersects other = false) :
    r.area.toNat + other.area.toNat ≤ (r.union other).area.toNat := by
  have union := union_inside bounded inside inside'
  rw [area_eq (isEmpty_eq_false_iff.mpr ⟨inside.wide, inside.high⟩),
    area_eq (isEmpty_eq_false_iff.mpr ⟨inside'.wide, inside'.high⟩),
    area_eq (isEmpty_eq_false_iff.mpr ⟨union.wide, union.high⟩), union_box bounded inside inside']
  exact Box.area_add_le (disjoint_of_intersects bounded inside inside' apart)

end Inside

def Covered (regions : List Rect) (rect : Rect) (cell : ℤ × ℤ) : Prop :=
  cell ∈ rect.cells ∨ ∃ region ∈ regions, cell ∈ region.cells

/-- All of them lie inside `full`. -/
structure AllInside (full : Rect) (regions : List Rect) (rect : Rect) : Prop where
  rect : full.box.Inside rect.box
  regions : ∀ region ∈ regions, full.box.Inside region.box

/-- What regions and a rect become: no more, inside `full`, and with all their cells. -/
structure Keeps (full : Rect) (before after : List Rect × Rect) : Prop where
  inside : AllInside full after.1 after.2
  count : after.1.length ≤ before.1.length
  covers : ∀ cell, Covered before.1 before.2 cell → Covered after.1 after.2 cell

theorem Keeps.refl (inside : AllInside full regions rect) :
    Keeps full (regions, rect) (regions, rect) :=
  ⟨inside, Nat.le_refl _, fun _ => id⟩

theorem Keeps.trans {before between after : List Rect × Rect} (first : Keeps full before between)
    (second : Keeps full between after) : Keeps full before after :=
  ⟨second.inside, second.count.trans first.count,
    fun cell covered => second.covers cell (first.covers cell covered)⟩

theorem length_swapRemove (bound : i < regions.length) :
    (swapRemove regions i).length + 1 = regions.length := by
  rw [← List.length_cons (a := regions[i])]
  exact (swapRemove_perm bound).length_eq

theorem Keeps.unite (bounded : Bounded full) (inside : AllInside full regions rect)
    (bound : i < regions.length) :
    Keeps full (regions, rect) (swapRemove regions i, rect.union regions[i]) := by
  have members (region : Rect) :
      region ∈ regions ↔ region = regions[i] ∨ region ∈ swapRemove regions i := by
    rw [← List.mem_cons, (swapRemove_perm bound).mem_iff]
  have taken := inside.regions _ (List.getElem_mem bound)
  have union := union_box bounded inside.rect taken
  have length := length_swapRemove bound
  refine ⟨⟨union_inside bounded inside.rect taken, ?_⟩, ?_, ?_⟩
  · intro region member
    exact inside.regions region ((members region).mpr (.inr member))
  · dsimp only
    omega
  · rintro cell (own | ⟨region, member, covered⟩)
    · left
      change cell ∈ (rect.union regions[i]).box.cells
      rw [union]
      exact Box.mem_hull_left own
    · rcases (members region).mp member with rfl | stays
      · left
        change cell ∈ (rect.union regions[i]).box.cells
        rw [union]
        exact Box.mem_hull_right covered
      · exact .inr ⟨region, stays, covered⟩

theorem absorb_keeps (bounded : Bounded full) (inside : AllInside full regions rect) (i : ℕ) :
    Keeps full (regions, rect) (absorb regions rect i) := by
  fun_induction absorb regions rect i with
  | case1 regions rect i bound meets ih =>
    have unite := Keeps.unite bounded inside bound
    exact unite.trans (ih unite.inside)
  | case2 regions rect i bound apart ih => exact ih inside
  | case3 regions rect i past => exact Keeps.refl inside

theorem absorb_apart (regions : List Rect) (rect : Rect) (i : ℕ)
    (before : ∀ region ∈ regions.take i, region.intersects rect = false) :
    ∀ region ∈ (absorb regions rect i).1,
      region.intersects (absorb regions rect i).2 = false := by
  fun_induction absorb regions rect i with
  | case1 regions rect i bound meets ih => exact ih nofun
  | case2 regions rect i bound apart ih =>
    refine ih fun region member => ?_
    rw [List.take_succ_eq_append_getElem bound, List.mem_append, List.mem_singleton] at member
    rcases member with earlier | rfl
    · exact before region earlier
    · exact Bool.eq_false_iff.mpr apart
  | case3 regions rect i past =>
    rwa [List.take_of_length_le (Nat.not_lt.mp past)] at before

theorem absorbMerged_keeps (bounded : Bounded full) (merged : Rect)
    (inside : AllInside full regions rect) (i : ℕ) :
    Keeps full (regions, rect) (absorbMerged merged regions rect i) := by
  fun_induction absorbMerged merged regions rect i with
  | case1 regions rect i bound meets ih =>
    have unite := Keeps.unite bounded inside bound
    exact unite.trans (ih unite.inside)
  | case2 regions rect i bound apart ih => exact ih inside
  | case3 regions rect i past => exact Keeps.refl inside

theorem cheapest_lt (rect : Rect) (some : 0 < regions.length) :
    (cheapest regions rect).1 < regions.length := by
  refine List.foldlRecOn (motive := fun best : ℕ × UInt32 => best.1 < regions.length)
    regions.zipIdx _ some ?_
  rintro ⟨best, bestCost⟩ bound ⟨region, i⟩ member
  dsimp only
  split
  · have := List.snd_lt_of_mem_zipIdx member
    omega
  · exact bound

theorem mergeCheapest_keeps (bounded : Bounded full) (inside : AllInside full regions rect)
    (some : 0 < regions.length) : ∃ after, mergeCheapest regions rect = .some after ∧
      Keeps full (regions, rect) after ∧ after.1.length < regions.length := by
  have bound := cheapest_lt rect some
  have unite := Keeps.unite bounded inside bound
  have rest := absorbMerged_keeps bounded (rect.union regions[(cheapest regions rect).1])
    unite.inside 0
  refine ⟨_, ?_, unite.trans rest, ?_⟩
  · rw [mergeCheapest, List.getElem?_eq_getElem bound]
    rfl
  · have length := length_swapRemove bound
    exact rest.count.trans_lt (by dsimp only; omega)

theorem unite_keeps (bounded : Bounded full) (inside : AllInside full regions rect)
    (count : regions.length ≤ n) (room : 0 < n) : ∃ after, unite n regions rect = some after ∧
      Keeps full (regions, rect) after ∧ after.1.length < n := by
  have absorbed := absorb_keeps bounded inside 0
  have kept : (absorb regions rect 0).1.length ≤ regions.length := absorbed.count
  unfold unite
  dsimp only
  split
  · obtain ⟨after, merge, keeps, less⟩ := mergeCheapest_keeps bounded absorbed.inside (by omega)
    exact ⟨after, merge, absorbed.trans keeps, by omega⟩
  · exact ⟨_, rfl, absorbed, by omega⟩

/-- What a damage of at most `n` regions holds of `full`. -/
structure Holds (n : ℕ) (full : Rect) (s : Damage) : Prop where
  same : s.full = full
  count : s.regions.length ≤ n
  inside : ∀ region ∈ s.regions, full.box.Inside region.box

def Damage.Has (s : Damage) (cell : ℤ × ℤ) : Prop := ∃ region ∈ s.regions, cell ∈ region.cells

theorem promote_holds {s : Damage} (holds : Holds n full s) :
    Holds n full s.promote ∧ ∀ cell, s.Has cell → s.promote.Has cell := by
  unfold Damage.promote
  dsimp only
  split
  · rename_i most
    have some : 0 < s.regions.length := by omega
    have inside := holds.inside _ (List.getElem_mem some)
    obtain ⟨wide, high, left, top, right, bottom⟩ := inside
    refine ⟨⟨holds.same, ?_, ?_⟩, ?_⟩
    · have := holds.count
      change 1 ≤ n
      omega
    · intro region member
      rw [List.mem_singleton.mp member, holds.same]
      exact ⟨by omega, by omega, le_rfl, le_rfl, le_rfl, le_rfl⟩
    · rintro cell ⟨region, member, covered⟩
      refine ⟨s.full, List.mem_singleton_self _, ?_⟩
      rw [holds.same]
      exact (holds.inside region member).mem covered
  · exact ⟨holds, fun _ => id⟩

theorem clipped (bounded : Bounded full) (clips : Clips full rect) :
    cell ∈ (rect.intersect full).cells ↔ cell ∈ rect.cells ∧ cell ∈ full.cells := by
  rw [cells, intersect_box bounded clips, Box.mem_meet]
  rfl

theorem clipped_inside (bounded : Bounded full) (clips : Clips full rect)
    (some : (rect.intersect full).isEmpty = false) :
    full.box.Inside (rect.intersect full).box := by
  have is := isEmpty_eq_false_iff.mp some
  rw [intersect_box bounded clips] at is ⊢
  obtain ⟨wide, high⟩ := is
  unfold Box.meet at *
  dsimp only at *
  exact ⟨wide, high, le_max_right _ _, le_max_right _ _, min_le_right _ _, min_le_right _ _⟩

/-- A rect that `add` finds room for: one in range, and an array unless it lies outside. -/
structure Addable (n : ℕ) (full rect : Rect) : Prop extends Clips full rect where
  room : (rect.intersect full).isEmpty = false → 0 < n

theorem clipped_empty (bounded : Bounded full) (clips : Clips full rect)
    (empty : (rect.intersect full).isEmpty = true) (own : cell ∈ rect.cells) :
    cell ∉ full.cells := by
  intro of_full
  have member : cell ∈ (rect.intersect full).cells :=
    (clipped bounded clips).mpr ⟨own, of_full⟩
  rw [cells, Box.mem_cells] at member
  have some : (rect.intersect full).isEmpty = false :=
    isEmpty_eq_false_iff.mpr ⟨by omega, by omega⟩
  rw [empty] at some
  cases some

theorem add_holds {s : Damage} (bounded : Bounded full) (holds : Holds n full s)
    (addable : Addable n full rect) : ∃ s', s.add n rect = some s' ∧ Holds n full s' ∧
      (∀ cell, s.Has cell → s'.Has cell) ∧
      ∀ cell ∈ rect.cells, cell ∈ full.cells → s'.Has cell := by
  cases empty : (rect.intersect full).isEmpty with
  | true =>
    have add : s.add n rect = some s := by
      rw [Damage.add, holds.same]
      exact if_pos empty
    exact ⟨s, add, holds, fun _ => id,
      fun cell own of_full => absurd of_full (clipped_empty bounded addable.toClips empty own)⟩
  | false =>
    have inside : AllInside full s.regions (rect.intersect full) :=
      ⟨clipped_inside bounded addable.toClips empty, holds.inside⟩
    obtain ⟨after, unite, keeps, count⟩ :=
      unite_keeps bounded inside holds.count (addable.room empty)
    have pushed : Holds n full ⟨full, after.1 ++ [after.2]⟩ := by
      refine ⟨rfl, ?_, ?_⟩
      · rw [List.length_append]
        exact count
      · intro region member
        rcases List.mem_append.mp member with earlier | new
        · exact keeps.inside.regions region earlier
        · rw [List.mem_singleton.mp new]
          exact keeps.inside.rect
    have has (cell : ℤ × ℤ) (covered : Covered s.regions (rect.intersect full) cell) :
        Damage.Has ⟨full, after.1 ++ [after.2]⟩ cell := by
      rcases keeps.covers cell covered with own | ⟨region, member, of_region⟩
      · exact ⟨after.2, List.mem_append_right _ (List.mem_singleton_self _), own⟩
      · exact ⟨region, List.mem_append_left _ member, of_region⟩
    have add : s.add n rect = some (Damage.promote ⟨full, after.1 ++ [after.2]⟩) := by
      rw [Damage.add, holds.same]
      dsimp only
      rw [empty, if_neg Bool.false_ne_true, unite, Option.bind_some]
      exact if_pos count
    obtain ⟨holds', has'⟩ := promote_holds pushed
    refine ⟨_, add, holds', ?_, ?_⟩
    · rintro cell ⟨region, member, of_region⟩
      exact has' cell (has cell (.inr ⟨region, member, of_region⟩))
    · intro cell own of_full
      exact has' cell (has cell (.inl ((clipped bounded addable.toClips).mpr ⟨own, of_full⟩)))

/-- No cost that adding `rect` compares has gone below zero. -/
def Damage.CostsHold (s : Damage) (rect : Rect) : Prop :=
  ∀ regions united, absorb s.regions (rect.intersect s.full) 0 = (regions, united) →
    ∀ region ∈ regions, region.area.toNat + united.area.toNat ≤ (region.union united).area.toNat

theorem costs_hold {s : Damage} (bounded : Bounded full) (holds : Holds n full s)
    (clips : Clips full rect) (some : (rect.intersect full).isEmpty = false) :
    s.CostsHold rect := by
  have inside : AllInside full s.regions (rect.intersect full) :=
    ⟨clipped_inside bounded clips some, holds.inside⟩
  have absorbed := absorb_keeps bounded inside 0
  have apart := absorb_apart s.regions (rect.intersect full) 0 nofun
  intro regions united is region member
  rw [holds.same] at is
  rw [is] at absorbed apart
  exact area_add_le_union bounded (absorbed.inside.regions region member) absorbed.inside.rect
    (apart region member)

theorem run_holds {s : Damage} (bounded : Bounded full) (holds : Holds n full s)
    (rects : List Rect) (addable : ∀ rect ∈ rects, Addable n full rect) :
    ∃ s', rects.foldlM (Damage.add n) s = some s' ∧ Holds n full s' ∧
      (∀ cell, s.Has cell → s'.Has cell) ∧
      ∀ rect ∈ rects, ∀ cell ∈ rect.cells, cell ∈ full.cells → s'.Has cell := by
  induction rects generalizing s with
  | nil => exact ⟨s, rfl, holds, fun _ => id, nofun⟩
  | cons rect rects ih =>
    obtain ⟨between, add, holds, keeps, covers⟩ :=
      add_holds bounded holds (addable rect List.mem_cons_self)
    obtain ⟨after, added, holds, keeps', covers'⟩ :=
      ih holds fun other member => addable other (List.mem_cons_of_mem _ member)
    refine ⟨after, ?_, holds, fun cell => keeps' cell ∘ keeps cell, ?_⟩
    · rw [List.foldlM_cons, add]
      exact added
    · intro other member
      rcases List.mem_cons.mp member with rfl | later
      · exact fun cell own of_full => keeps' cell (covers cell own of_full)
      · exact covers' other later

end EspDevkit.Gfx
