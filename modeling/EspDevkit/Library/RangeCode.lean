import Mathlib.Data.Nat.Notation
import Mathlib.Tactic.Ring

/-!
# Range coding

A coder narrows a span of numbers with each symbol and scales it up when it gets narrow.
-/

namespace RangeCode

section Digits

variable (base : ℕ) (digit : ℕ → ℕ)

/-- The number that the first digits of a stream make, the highest first. -/
def number : ℕ → ℕ
  | 0 => 0
  | count + 1 => number count * base + digit count

/-- The number that the first digits of a stream make, the lowest first. -/
def numberUp : ℕ → ℕ
  | 0 => 0
  | count + 1 => numberUp count + digit count * base ^ count

variable {base digit} (small : ∀ i, digit i < base)
include small

theorem number_add_div (count more : ℕ) :
    number base digit (count + more) / base ^ more = number base digit count := by
  induction more with
  | zero => simp
  | succ more ih =>
    rw [← Nat.add_assoc, number, pow_succ', ← Nat.div_div_eq_div_mul, Nat.mul_comm,
      Nat.mul_add_div (Nat.zero_lt_of_lt (small 0)), Nat.div_eq_of_lt (small _),
      Nat.add_zero, ih]

theorem numberUp_lt (count : ℕ) : numberUp base digit count < base ^ count := by
  induction count with
  | zero => simp [numberUp]
  | succ count ih =>
    have := Nat.mul_le_mul_right (base ^ count) (Nat.succ_le_of_lt (small count))
    rw [numberUp, pow_succ, Nat.mul_comm (base ^ count)]
    rw [Nat.succ_mul] at this
    omega

omit small in
/-- More digits change no number below the first ones. -/
theorem numberUp_mod {count more divisor : ℕ} (divides : divisor ∣ base ^ count) :
    numberUp base digit (count + more) % divisor = numberUp base digit count % divisor := by
  induction more with
  | zero => rfl
  | succ more ih =>
    obtain ⟨rest, eq⟩ := divides
    rw [← Nat.add_assoc, numberUp, pow_add, eq,
      show digit (count + more) * (divisor * rest * base ^ more) =
        divisor * (digit (count + more) * (rest * base ^ more)) by ring,
      Nat.add_mul_mod_self_left, ih]

end Digits

structure Span where
  low : ℕ
  rng : ℕ

namespace Span

variable (span : Span)

def Holds (x : ℕ) : Prop := span.low ≤ x ∧ x < span.low + span.rng

/-- The part between two places, which count from the top. -/
def cut (lo hi : ℕ) : Span := ⟨span.low + (span.rng - hi), hi - lo⟩

def scale (factor : ℕ) : Span := ⟨span.low * factor, span.rng * factor⟩

/-- Where a number lies, counted from the top. -/
def Above (x place : ℕ) : Prop := place + 1 + x = span.low + span.rng

variable {span} {x place lo hi factor : ℕ}

theorem holds_scale (positive : 0 < factor) :
    (span.scale factor).Holds x ↔ span.Holds (x / factor) := by
  simp only [Holds, scale, ← Nat.add_mul, Nat.le_div_iff_mul_le positive,
    Nat.div_lt_iff_lt_mul positive]

theorem Holds.of_cut (below : hi ≤ span.rng) (ordered : lo ≤ hi) (held : (span.cut lo hi).Holds x) :
    span.Holds x := by
  simp only [Holds, cut] at *
  omega

theorem Above.holds_cut (above : span.Above x place) (below : hi ≤ span.rng) (ordered : lo ≤ hi) :
    (span.cut lo hi).Holds x ↔ lo ≤ place ∧ place < hi := by
  unfold Holds cut Above at *
  dsimp only
  omega

theorem Above.cut (above : span.Above x place) (below : hi ≤ span.rng) (least : lo ≤ place)
    (less : place < hi) : (span.cut lo hi).Above x (place - lo) := by
  unfold Above Span.cut at *
  dsimp only
  omega

theorem Above.lt (above : span.Above x place) (held : span.Holds x) : place < span.rng := by
  unfold Above Holds at *
  omega

theorem Above.of_scale {more place' : ℕ} (above : span.Above x place)
    (eq : place' + 1 + more = (place + 1 + x) * factor) :
    (span.scale factor).Above more place' := by
  unfold Above scale at *
  rw [eq, above, Nat.add_mul]

end Span

end RangeCode
