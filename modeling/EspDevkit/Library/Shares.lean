import Mathlib.Algebra.BigOperators.Group.List.Basic
import Mathlib.Data.Nat.Notation
import Mathlib.Tactic.Ring

/-!
# Shares of a pool

A pool divided among members by their weights, every share rounded to a whole: down, so that
no more is given than there is and less than one is lost for each member, or up, so that all of
it is taken.
-/

namespace EspDevkit.Shares

variable {α : Type*} (weight : α → ℕ) (members : List α) (pool : ℕ)

def totalWeight : ℕ := (members.map weight).sum

/-- The share of a weight of `total`, rounded down. -/
def share (total pool weight : ℕ) : ℕ := pool * weight / total

/-- The share of a weight of `total`, rounded up. -/
def shareUp (total pool weight : ℕ) : ℕ := (pool * weight + total - 1) / total

theorem share_mul_le (total weight : ℕ) : share total pool weight * total ≤ pool * weight :=
  Nat.div_mul_le_self _ _

theorem lt_share_mul {total : ℕ} (pos : 0 < total) (weight : ℕ) :
    pool * weight < (share total pool weight + 1) * total := by
  rw [Nat.mul_comm (_ + 1)]
  exact Nat.lt_mul_div_succ _ pos

theorem share_le {total weight : ℕ} (le : weight ≤ total) : share total pool weight ≤ pool := by
  rcases Nat.eq_zero_or_pos total with zero | pos
  · subst zero
    exact (Nat.div_zero _).trans_le (Nat.zero_le _)
  · exact Nat.div_le_of_le_mul (by rw [Nat.mul_comm total]; exact Nat.mul_le_mul_left pool le)

theorem sum_share_mul_le (total : ℕ) :
    (members.map fun member => share total pool (weight member)).sum * total ≤
      pool * totalWeight weight members := by
  induction members with
  | nil => exact Nat.zero_mul total |>.trans_le (Nat.zero_le _)
  | cons member members ih =>
    have one := share_mul_le pool total (weight member)
    simp only [totalWeight, List.map_cons, List.sum_cons, Nat.add_mul, Nat.mul_add] at ih ⊢
    omega

theorem pool_mul_lt_sum_share {total : ℕ} (pos : 0 < total) :
    pool * totalWeight weight members + members.countP (fun member => 0 < weight member) ≤
      ((members.map fun member => share total pool (weight member)).sum +
        members.countP fun member => 0 < weight member) * total := by
  induction members with
  | nil => simp [totalWeight]
  | cons member members ih =>
    have one := lt_share_mul pool pos (weight member)
    simp only [totalWeight, List.map_cons, List.sum_cons, Nat.add_mul, Nat.mul_add, Nat.one_mul,
      List.countP_cons, decide_eq_true_eq] at ih one ⊢
    by_cases some : 0 < weight member
    · rw [if_pos some, Nat.one_mul]
      omega
    · have none : weight member = 0 := by omega
      rw [if_neg some, none, Nat.mul_zero]
      omega

theorem sum_share_le :
    (members.map fun member => share (totalWeight weight members) pool (weight member)).sum ≤
      pool := by
  rcases Nat.eq_zero_or_pos (totalWeight weight members) with zero | pos
  · rw [zero]
    simp [share]
  · exact Nat.le_of_mul_le_mul_right (sum_share_mul_le weight members pool _) pos

theorem lt_sum_share (some : ∃ member ∈ members, 0 < weight member) :
    pool < (members.map fun member => share (totalWeight weight members) pool (weight member)).sum +
      members.countP fun member => 0 < weight member := by
  obtain ⟨member, is_member, pos⟩ := some
  have total : 0 < totalWeight weight members :=
    List.sum_pos_iff_exists_pos_nat.mpr ⟨_, List.mem_map_of_mem is_member, pos⟩
  have count : 0 < members.countP fun member => 0 < weight member :=
    List.countP_pos_iff.mpr ⟨member, is_member, decide_eq_true pos⟩
  have lost := pool_mul_lt_sum_share weight members pool total
  by_contra! more
  have := Nat.mul_le_mul_right (totalWeight weight members) more
  omega

end EspDevkit.Shares
