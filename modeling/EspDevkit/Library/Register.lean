import Mathlib.Algebra.Order.Group.Unbundled.Abs
import Mathlib.Data.Int.Basic
import Mathlib.Tactic.Linarith

/-!
# Sums in a register

A signed register of so many bits takes the sum of a list term by term.
-/

namespace Register

def Fits (width : ℕ) (a : ℤ) : Prop := -2 ^ (width - 1) ≤ a ∧ a < 2 ^ (width - 1)

instance {width : ℕ} {a : ℤ} : Decidable (Fits width a) := inferInstanceAs (Decidable (_ ∧ _))

def wrap (width : ℕ) (a : ℤ) : ℤ := a.bmod (2 ^ width)

structure Sum where
  value : ℤ
  overflowed : Bool
  deriving DecidableEq, Repr

def Sum.zero : Sum := { value := 0, overflowed := false }

def Sum.add (width : ℕ) (sum : Sum) (term : ℤ) : Sum where
  value := wrap width (sum.value + term)
  overflowed := sum.overflowed || !decide (Fits width (sum.value + term))

def Sum.addAll (width : ℕ) (sum : Sum) (terms : List ℤ) : Sum := terms.foldl (Sum.add width) sum

/-- The sums of more and more of the terms fit. -/
def Runs (width : ℕ) : ℤ → List ℤ → Prop
  | _, [] => True
  | start, term :: terms => Fits width (start + term) ∧ Runs width (start + term) terms

instance {width : ℕ} : (start : ℤ) → (terms : List ℤ) → Decidable (Runs width start terms)
  | _, [] => .isTrue trivial
  | start, term :: terms =>
    have : Decidable (Runs width (start + term) terms) := instDecidableRuns (start + term) terms
    inferInstanceAs (Decidable (Fits width (start + term) ∧ Runs width (start + term) terms))

variable {width : ℕ} {sum : Sum} {start : ℤ} {terms : List ℤ}

theorem wrap_of_fits (pos : width ≠ 0) {a : ℤ} (fits : Fits width a) : wrap width a = a := by
  obtain ⟨width, rfl⟩ := Nat.exists_eq_succ_of_ne_zero pos
  obtain ⟨low, high⟩ := fits
  rw [Nat.succ_sub_one] at low high
  apply Int.bmod_eq_of_le_mul_two
  · push_cast [pow_succ]
    linarith
  · push_cast [pow_succ]
    linarith

theorem addAll_append (more : List ℤ) :
    sum.addAll width (terms ++ more) = (sum.addAll width terms).addAll width more :=
  List.foldl_append

theorem addAll_overflowed (noticed : sum.overflowed = true) :
    (sum.addAll width terms).overflowed = true := by
  induction terms generalizing sum with
  | nil => exact noticed
  | cons term terms ih =>
    apply ih
    rw [Sum.add, noticed, Bool.true_or]

theorem addAll_of_runs (pos : width ≠ 0) (runs : Runs width sum.value terms) :
    sum.addAll width terms = { sum with value := sum.value + terms.sum } := by
  induction terms generalizing sum with
  | nil => rw [List.sum_nil, add_zero]; rfl
  | cons term terms ih =>
    obtain ⟨fits, runs⟩ := runs
    have step : sum.add width term = { sum with value := sum.value + term } := by
      rw [Sum.add, wrap_of_fits pos fits, decide_eq_true fits, Bool.not_true, Bool.or_false]
    change (sum.add width term).addAll width terms = _
    rw [step, ih runs, List.sum_cons, add_assoc]

theorem runs_of_addAll (sum : Sum) (pos : width ≠ 0)
    (clean : (sum.addAll width terms).overflowed = false) :
    Runs width sum.value terms := by
  induction terms generalizing sum with
  | nil => trivial
  | cons term terms ih =>
    change ((sum.add width term).addAll width terms).overflowed = false at clean
    have fits : Fits width (sum.value + term) := by
      by_contra large
      have noticed : (sum.add width term).overflowed = true := by
        rw [Sum.add, decide_eq_false large, Bool.not_false, Bool.or_true]
      rw [addAll_overflowed noticed] at clean
      cases clean
    have rest := ih (sum.add width term) clean
    rw [Sum.add, wrap_of_fits pos fits] at rest
    exact ⟨fits, rest⟩

theorem runs_of_small (bound : ℤ) (small : ∀ term ∈ terms, |term| ≤ bound)
    (room : |start| + terms.length * bound < 2 ^ (width - 1)) : Runs width start terms := by
  induction terms generalizing start with
  | nil => trivial
  | cons term terms ih =>
    have head := small term List.mem_cons_self
    have positive : 0 ≤ bound := (abs_nonneg term).trans head
    have sum_small := (abs_add_le start term).trans (add_le_add_right head |start|)
    rw [List.length_cons, Nat.cast_succ, add_mul, one_mul] at room
    have rest : |start + term| + terms.length * bound < 2 ^ (width - 1) := by linarith
    have many : 0 ≤ (terms.length : ℤ) * bound := mul_nonneg (Int.natCast_nonneg _) positive
    have bounds := abs_lt.mp (lt_of_le_of_lt (le_add_of_nonneg_right many) rest)
    exact ⟨⟨bounds.1.le, bounds.2⟩,
      ih (fun term member => small term (List.mem_cons_of_mem _ member)) rest⟩

end Register
