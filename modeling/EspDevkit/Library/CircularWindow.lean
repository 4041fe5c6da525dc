import Mathlib.Data.Nat.ModEq

/-!
# Windows on a circle

A window is a run of places around a circle of `n`, from its head on.
-/

namespace CircularWindow

/-- The place `i` after the head. -/
def place (n head i : ℕ) : ℕ := (head + i) % n

def Within (n head len p : ℕ) : Prop := ∃ i < len, place n head i = p

variable {n : ℕ}

theorem place_lt (pos : 0 < n) (head i : ℕ) : place n head i < n := Nat.mod_lt _ pos

@[simp]
theorem place_place (head k i : ℕ) : place n (place n head k) i = place n head (k + i) := by
  rw [place, place, place, Nat.mod_add_mod, Nat.add_assoc]

theorem place_inj {head i j : ℕ} (first : i < n) (second : j < n)
    (same : place n head i = place n head j) : i = j := by
  have modEq : head + i ≡ head + j [MOD n] := same
  exact Nat.ModEq.eq_of_lt_of_lt (Nat.ModEq.add_left_cancel' head modEq) first second

theorem next_out {head len : ℕ} (room : len < n) : ¬ Within n head len (place n head len) := by
  rintro ⟨i, lt, same⟩
  exact absurd (place_inj (lt.trans room) room same) lt.ne

end CircularWindow
