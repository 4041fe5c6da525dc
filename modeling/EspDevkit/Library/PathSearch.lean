import Mathlib.Data.Nat.Notation
import Mathlib.Data.List.Nodup

/-!
# Searching for a simple path

A search goes from a node to the items it has an edge to, not to one it came
through, and back when none of them leads to a goal.  An edge may depend on how far
from the start it is.  It finds a goal exactly when a path of distinct items leads
to one.
-/

namespace PathSearch

open List

variable {α : Type*} (items : List α) (goal : α → Bool) (edge : ℕ → α → α → Bool)

def search : ℕ → List ℕ → α → Bool
  | 0, _, x => goal x
  | room + 1, used, x =>
    goal x || items.zipIdx.any fun item =>
      decide (item.2 ∉ used) && edge used.length x item.1 && search room (used ++ [item.2]) item.1

def Leads : ℕ → α → List ℕ → Prop
  | _, x, [] => goal x = true
  | depth, x, i :: path => ∃ y, items[i]? = some y ∧ edge depth x y = true ∧ Leads (depth + 1) y path

variable {items goal edge}

structure Fresh (room : ℕ) (used path : List ℕ) : Prop where
  short : path.length ≤ room
  nodup : path.Nodup
  unused : ∀ i ∈ path, i ∉ used

theorem fresh_cons {room i : ℕ} {used path : List ℕ} :
    Fresh (room + 1) used (i :: path) ↔ i ∉ used ∧ Fresh room (used ++ [i]) path := by
  constructor
  · rintro ⟨short, nodup, unused⟩
    obtain ⟨new, nodup⟩ := nodup_cons.mp nodup
    refine ⟨unused i mem_cons_self, by simpa using short, nodup, fun j member => ?_⟩
    simp only [mem_append, mem_singleton, not_or]
    refine ⟨unused j (mem_cons_of_mem _ member), ?_⟩
    rintro rfl
    exact new member
  · rintro ⟨unused, short, nodup, rest⟩
    have rest' : ∀ j ∈ path, j ∉ used ∧ j ≠ i := by simpa [not_or] using rest
    refine ⟨by simpa using short, nodup_cons.mpr ⟨fun member => (rest' i member).2 rfl, nodup⟩,
      fun j member => ?_⟩
    rcases mem_cons.mp member with rfl | member
    · exact unused
    · exact (rest' j member).1

theorem search_iff (room : ℕ) (used : List ℕ) (x : α) :
    search items goal edge room used x = true ↔
      ∃ path, Fresh room used path ∧ Leads items goal edge used.length x path := by
  induction room generalizing used x with
  | zero =>
    rw [search]
    constructor
    · exact fun found => ⟨[], ⟨Nat.le_refl _, nodup_nil, nofun⟩, found⟩
    · rintro ⟨path, fresh, leads⟩
      obtain rfl : path = [] := eq_nil_of_length_eq_zero (Nat.le_zero.mp fresh.short)
      exact leads
  | succ room ih =>
    rw [search, Bool.or_eq_true, any_eq_true]
    constructor
    · rintro (found | ⟨⟨y, i⟩, member, found⟩)
      · exact ⟨[], ⟨Nat.zero_le _, nodup_nil, nofun⟩, found⟩
      · simp only [Bool.and_eq_true, decide_eq_true_eq] at found
        obtain ⟨⟨unused, step⟩, rest⟩ := found
        obtain ⟨path, fresh, leads⟩ := (ih _ _).mp rest
        rw [length_append] at leads
        exact ⟨i :: path, fresh_cons.mpr ⟨unused, fresh⟩, y,
          mem_zipIdx_iff_getElem?.mp member, step, leads⟩
    · rintro ⟨path, fresh, leads⟩
      cases path with
      | nil => exact .inl leads
      | cons i path =>
        obtain ⟨y, item, step, leads⟩ := leads
        obtain ⟨unused, fresh⟩ := fresh_cons.mp fresh
        refine .inr ⟨(y, i), mem_zipIdx_iff_getElem?.mpr item, ?_⟩
        simp only [Bool.and_eq_true, decide_eq_true_eq]
        refine ⟨⟨unused, step⟩, (ih _ _).mpr ⟨path, fresh, ?_⟩⟩
        rw [length_append]
        exact leads

end PathSearch
