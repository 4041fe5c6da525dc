import Mathlib.Data.List.Basic
import Mathlib.Logic.Function.Basic

/-!
# Writes on their way to a store

A store keeps one value for each key, and writes wait in the order they were
decided in.  What the store holds once all of them were made, in their order,
does not change when one of them is made early, as long as no older one to its
key still waits; and a write that a newer one to its key follows may get lost.
-/

namespace PendingWrites

open Function

variable {Key Value : Type*} [DecidableEq Key]

def flush (store : Key → Value) : List (Key × Value) → Key → Value
  | [] => store
  | write :: writes => flush (Function.update store write.1 write.2) writes

@[simp]
theorem flush_nil (store : Key → Value) : flush store [] = store := rfl

theorem flush_append (store : Key → Value) (first second : List (Key × Value)) :
    flush store (first ++ second) = flush (flush store first) second := by
  induction first generalizing store with
  | nil => rfl
  | cons write first ih => exact ih _

theorem flush_concat (store : Key → Value) (writes : List (Key × Value)) (write : Key × Value) :
    flush store (writes ++ [write]) = Function.update (flush store writes) write.1 write.2 := by
  rw [flush_append]
  rfl

theorem flush_other {store : Key → Value} {writes : List (Key × Value)} {key : Key}
    (untouched : ∀ write ∈ writes, write.1 ≠ key) : flush store writes key = store key := by
  induction writes generalizing store with
  | nil => rfl
  | cons write writes ih =>
    have first := untouched write List.mem_cons_self
    rw [flush, ih fun later member => untouched later (List.mem_cons_of_mem _ member)]
    exact update_of_ne (Ne.symm first) _ _

theorem flush_congr {store store' : Key → Value} {writes : List (Key × Value)} {key : Key}
    (same : store key = store' key ∨ ∃ write ∈ writes, write.1 = key) :
    flush store writes key = flush store' writes key := by
  induction writes generalizing store store' with
  | nil => simpa using same
  | cons write writes ih =>
    apply ih
    by_cases here : write.1 = key
    · subst here
      simp
    · rcases same with same | ⟨later, member, goes⟩
      · exact Or.inl (by
          rw [update_of_ne (Ne.symm here), update_of_ne (Ne.symm here), same])
      · refine Or.inr ⟨later, ?_, goes⟩
        rcases List.mem_cons.mp member with rfl | member
        · exact absurd goes here
        · exact member

/-- A write may be made before older ones to other keys. -/
theorem flush_early {store : Key → Value} {before after : List (Key × Value)}
    {write : Key × Value} (first : ∀ older ∈ before, older.1 ≠ write.1) :
    flush (Function.update store write.1 write.2) (before ++ after) =
      flush store (before ++ write :: after) := by
  rw [flush_append, flush_append, flush]
  congr 1
  funext key
  by_cases here : key = write.1
  · subst here
    rw [flush_other first]
    simp
  · rw [update_of_ne here]
    exact flush_congr (Or.inl (update_of_ne here _ _))

/-- A write that a newer one to its key follows may leave anything behind. -/
theorem flush_overwritten {store store' : Key → Value} {before after : List (Key × Value)}
    {write : Key × Value} (same : ∀ key ≠ write.1, store' key = store key)
    (newer : ∃ later ∈ after, later.1 = write.1) :
    flush store' (before ++ after) = flush store (before ++ write :: after) := by
  rw [flush_append, flush_append, flush]
  funext key
  apply flush_congr
  by_cases here : key = write.1
  · subst here
    exact Or.inr newer
  · rw [update_of_ne here]
    exact Or.inl (flush_congr (Or.inl (same key here)))

end PendingWrites
