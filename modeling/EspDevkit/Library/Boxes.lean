import Mathlib.Data.Int.Interval
import Mathlib.Data.Finset.Prod
import Mathlib.Order.Interval.Finset.Basic

/-!
# Boxes of cells

Half-open boxes in the plane of integers, as the cells they have.
-/

namespace EspDevkit.Boxes

structure Box where
  left : ℤ
  top : ℤ
  right : ℤ
  bottom : ℤ

namespace Box

variable {first second : Box} {cell : ℤ × ℤ}

def cells (box : Box) : Set (ℤ × ℤ) :=
  {cell | (box.left ≤ cell.1 ∧ cell.1 < box.right) ∧ box.top ≤ cell.2 ∧ cell.2 < box.bottom}

theorem mem_cells {box : Box} : cell ∈ box.cells ↔
    (box.left ≤ cell.1 ∧ cell.1 < box.right) ∧ box.top ≤ cell.2 ∧ cell.2 < box.bottom := Iff.rfl

def area (box : Box) : ℕ := (box.right - box.left).toNat * (box.bottom - box.top).toNat

theorem exists_finset (box : Box) : ∃ counted : Finset (ℤ × ℤ),
    (∀ cell, cell ∈ counted ↔ cell ∈ box.cells) ∧ counted.card = box.area := by
  refine ⟨Finset.Ico box.left box.right ×ˢ Finset.Ico box.top box.bottom, fun cell => ?_, ?_⟩
  · rw [Finset.mem_product, Finset.mem_Ico, Finset.mem_Ico, mem_cells]
  · rw [Finset.card_product, Int.card_Ico, Int.card_Ico, area]

def hull (first second : Box) : Box where
  left := min first.left second.left
  top := min first.top second.top
  right := max first.right second.right
  bottom := max first.bottom second.bottom

def meet (first second : Box) : Box where
  left := max first.left second.left
  top := max first.top second.top
  right := min first.right second.right
  bottom := min first.bottom second.bottom

theorem mem_meet : cell ∈ (first.meet second).cells ↔ cell ∈ first.cells ∧ cell ∈ second.cells := by
  simp only [mem_cells, meet, max_le_iff, lt_min_iff]
  constructor
  · rintro ⟨⟨⟨left, left'⟩, right, right'⟩, ⟨top, top'⟩, bottom, bottom'⟩
    exact ⟨⟨⟨left, right⟩, top, bottom⟩, ⟨left', right'⟩, top', bottom'⟩
  · rintro ⟨⟨⟨left, right⟩, top, bottom⟩, ⟨left', right'⟩, top', bottom'⟩
    exact ⟨⟨⟨left, left'⟩, right, right'⟩, ⟨top, top'⟩, bottom, bottom'⟩

theorem mem_hull_left (member : cell ∈ first.cells) : cell ∈ (first.hull second).cells := by
  rw [mem_cells] at member ⊢
  unfold hull
  dsimp only
  omega

theorem mem_hull_right (member : cell ∈ second.cells) : cell ∈ (first.hull second).cells := by
  rw [mem_cells] at member ⊢
  unfold hull
  dsimp only
  omega

theorem area_add_le (disjoint : ∀ cell ∈ first.cells, cell ∉ second.cells) :
    first.area + second.area ≤ (first.hull second).area := by
  obtain ⟨ones, mem_ones, card_ones⟩ := first.exists_finset
  obtain ⟨others, mem_others, card_others⟩ := second.exists_finset
  obtain ⟨all, mem_all, card_all⟩ := (first.hull second).exists_finset
  have apart : Disjoint ones others := by
    rw [Finset.disjoint_left]
    intro cell one other
    exact disjoint cell ((mem_ones cell).mp one) ((mem_others cell).mp other)
  rw [← card_ones, ← card_others, ← card_all, ← Finset.card_union_of_disjoint apart]
  refine Finset.card_le_card fun cell member => (mem_all cell).mpr ?_
  rcases Finset.mem_union.mp member with one | other
  · exact mem_hull_left ((mem_ones cell).mp one)
  · exact mem_hull_right ((mem_others cell).mp other)

structure Inside (outer inner : Box) : Prop where
  wide : inner.left < inner.right
  high : inner.top < inner.bottom
  left : outer.left ≤ inner.left
  top : outer.top ≤ inner.top
  right : inner.right ≤ outer.right
  bottom : inner.bottom ≤ outer.bottom

theorem Inside.mem {outer inner : Box} (inside : Inside outer inner)
    (member : cell ∈ inner.cells) : cell ∈ outer.cells := by
  obtain ⟨_, _, left, top, right, bottom⟩ := inside
  rw [mem_cells] at member ⊢
  omega

theorem Inside.hull {outer : Box} (inside : Inside outer first)
    (inside' : Inside outer second) : Inside outer (first.hull second) := by
  obtain ⟨wide, high, left, top, right, bottom⟩ := inside
  obtain ⟨wide', high', left', top', right', bottom'⟩ := inside'
  unfold Box.hull
  constructor <;> dsimp only <;> omega

end Box

end EspDevkit.Boxes
