import Mathlib.Data.Nat.Notation
import Mathlib.Tactic.Common

/-!
# Chains

A node leads on to another one or ends with a value.
-/

namespace Chain

variable {Node Value : Type*}

inductive Path (next : Node → Node ⊕ Value) : ℕ → Node → Node → Prop
  | refl (a : Node) : Path next 0 a a
  | snoc {n : ℕ} {a b c : Node} (path : Path next n a b) (link : next b = .inl c) :
      Path next (n + 1) a c

def Ends (next : Node → Node ⊕ Value) (n : ℕ) (a : Node) (value : Value) : Prop :=
  ∃ b, Path next n a b ∧ next b = .inr value

variable {next : Node → Node ⊕ Value} {n m : ℕ} {a b c : Node} {value value' : Value}

theorem Path.trans (first : Path next n a b) (second : Path next m b c) :
    Path next (n + m) a c := by
  induction second with
  | refl => exact first
  | snoc _ link ih => exact (ih first).snoc link

theorem Path.unique (first : Path next n a b) (second : Path next n a c) : b = c := by
  induction first generalizing c with
  | refl => cases second; rfl
  | snoc _ link ih =>
    cases second with
    | snoc path link' =>
      rw [ih path, link'] at link
      exact (Sum.inl.inj link).symm

theorem Path.split (path : Path next (n + m) a c) :
    ∃ b, Path next n a b ∧ Path next m b c := by
  induction m generalizing c with
  | zero => exact ⟨c, path, .refl c⟩
  | succ m ih =>
    cases path with
    | snoc path link =>
      obtain ⟨b, first, second⟩ := ih path
      exact ⟨b, first, second.snoc link⟩

theorem Path.link_of_succ (path : Path next (n + 1) a b) : ∃ c, next a = .inl c := by
  rw [Nat.add_comm] at path
  obtain ⟨c, first, -⟩ := path.split
  cases first with
  | snoc path link =>
    cases path
    exact ⟨c, link⟩

/-- How a chain ends is found from any node on it. -/
theorem Path.ends_iff (path : Path next n a b) :
    Ends next m a value ↔ ∃ k, m = n + k ∧ Ends next k b value := by
  constructor
  · rintro ⟨c, whole, stop⟩
    rcases Nat.lt_or_ge m n with short | long
    · obtain ⟨j, rfl⟩ := Nat.exists_eq_add_of_lt short
      rw [Nat.add_assoc] at path
      obtain ⟨d, first, second⟩ := path.split
      obtain rfl := whole.unique first
      obtain ⟨e, link⟩ := second.link_of_succ
      rw [stop] at link
      exact absurd link nofun
    · obtain ⟨k, rfl⟩ := Nat.exists_eq_add_of_le long
      obtain ⟨d, first, second⟩ := whole.split
      obtain rfl := path.unique first
      exact ⟨k, rfl, c, second, stop⟩
  · rintro ⟨k, rfl, c, second, stop⟩
    exact ⟨c, path.trans second, stop⟩

theorem Ends.unique (first : Ends next n a value) (second : Ends next m a value') :
    n = m ∧ value = value' := by
  obtain ⟨b, path, stop⟩ := first
  obtain ⟨k, rfl, c, rest, stop'⟩ := path.ends_iff.mp second
  cases k with
  | zero =>
    cases rest
    rw [stop] at stop'
    exact ⟨rfl, Sum.inr.inj stop'⟩
  | succ k =>
    obtain ⟨d, link⟩ := rest.link_of_succ
    rw [stop] at link
    exact absurd link nofun

end Chain
