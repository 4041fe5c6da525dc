import Mathlib.Data.List.Basic
import Mathlib.Data.List.Perm.Basic
import Mathlib.Order.WellFounded
import Mathlib.Tactic.Common

/-!
# Removal from a vector that does not keep its order

The last element takes the place of the removed one, so that the others are the same up to
their order.
-/

variable {α : Type*}

/-- The last element takes the place of the one at `i`. -/
def swapRemove (list : List α) (i : ℕ) : List α :=
  match list.getLast? with
  | none => []
  | some last => (list.set i last).dropLast

theorem swapRemove_perm {list : List α} {i : ℕ} (lt : i < list.length) :
    (list[i] :: swapRemove list i).Perm list := by
  rcases List.eq_nil_or_concat list with rfl | ⟨init, last, parts⟩
  · exact absurd lt (Nat.not_lt_zero i)
  · rw [List.concat_eq_append] at parts
    subst parts
    have removed : swapRemove (init ++ [last]) i = ((init ++ [last]).set i last).dropLast := by
      simp only [swapRemove, List.getLast?_concat]
    rw [removed]
    rw [List.length_append, List.length_singleton] at lt
    by_cases inner : i < init.length
    · rw [List.set_append_left _ _ inner, List.dropLast_concat, List.getElem_append_left inner]
      refine ((List.set_perm_cons_eraseIdx inner last).cons _).trans ?_
      refine (List.Perm.swap _ _ _).trans ?_
      refine ((List.getElem_cons_eraseIdx_perm inner).cons last).trans ?_
      exact (List.perm_append_singleton last init).symm
    · have atLast : i = init.length := by omega
      subst atLast
      rw [List.set_append_right _ _ (Nat.le_refl _)]
      simpa using (List.perm_append_singleton last init).symm

def leastIdx (key : α → ℕ) (list : List α) : ℕ :=
  list.findIdx fun a => list.all fun b => key a ≤ key b

theorem leastIdx_lt {key : α → ℕ} {list : List α} (some : list ≠ []) :
    leastIdx key list < list.length := by
  obtain ⟨a, mem, least⟩ := (measure key).wf.has_min {a | a ∈ list}
    (List.exists_mem_of_ne_nil list some)
  refine List.findIdx_lt_length_of_exists ⟨a, mem, ?_⟩
  rw [List.all_eq_true]
  intro b other
  exact decide_eq_true (Nat.le_of_not_lt (least b other))

theorem swapRemove_least_subperm {key : α → ℕ} {list : List α} (some : list ≠ []) :
    (swapRemove list (leastIdx key list)).Subperm list :=
  (List.sublist_cons_self _ _).subperm.trans (swapRemove_perm (leastIdx_lt some)).subperm
