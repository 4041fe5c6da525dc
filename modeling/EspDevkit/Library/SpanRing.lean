import Mathlib.Data.List.Basic
import Mathlib.Order.Nat

/-!
# Spans round a ring

Spans of bytes are given out at a write place that goes round a ring and taken back in the order
they were given.
-/

namespace EspDevkit.Library

namespace SpanRing

/-- Spans, each an offset and a length, lie one behind another from `low` to `high`. -/
def Rising : ℕ → List (ℕ × ℕ) → ℕ → Prop
  | low, [], high => low ≤ high
  | low, span :: rest, high => low ≤ span.1 ∧ Rising (span.1 + span.2) rest high

namespace Rising

variable {low high : ℕ} {spans : List (ℕ × ℕ)}

theorem le (rising : Rising low spans high) : low ≤ high := by
  induction spans generalizing low with
  | nil => exact rising
  | cons span rest ih =>
    have behind := ih rising.2
    have first := rising.1
    omega

theorem lower {low' : ℕ} (below : low' ≤ low) (rising : Rising low spans high) :
    Rising low' spans high := by
  cases spans with
  | nil => exact le_trans below rising
  | cons span rest => exact ⟨le_trans below rising.1, rising.2⟩

theorem higher {high' : ℕ} (above : high ≤ high') (rising : Rising low spans high) :
    Rising low spans high' := by
  induction spans generalizing low with
  | nil => exact le_trans rising above
  | cons span rest ih => exact ⟨rising.1, ih rising.2⟩

theorem inside (rising : Rising low spans high) {span : ℕ × ℕ} (member : span ∈ spans) :
    low ≤ span.1 ∧ span.1 + span.2 ≤ high := by
  induction spans generalizing low with
  | nil => exact absurd member (by simp)
  | cons first rest ih =>
    rcases List.mem_cons.mp member with rfl | later
    · exact ⟨rising.1, rising.2.le⟩
    · have bounds := ih rising.2 later
      have before := rising.1
      omega

theorem snoc (rising : Rising low spans high) (length : ℕ) :
    Rising low (spans ++ [(high, length)]) (high + length) := by
  induction spans generalizing low with
  | nil => exact ⟨rising, le_rfl⟩
  | cons span rest ih => exact ⟨rising.1, ih rising.2⟩

end Rising

/-- The spans in the order they were given out, the write place being `write`. -/
def Ring (write size : ℕ) (spans : List (ℕ × ℕ)) : Prop :=
  ∃ old new, spans = old ++ new ∧ Rising write old size ∧ Rising 0 new write

namespace Ring

variable {write size : ℕ} {spans : List (ℕ × ℕ)}

theorem nil : Ring 0 size [] := ⟨[], [], rfl, Nat.zero_le _, Nat.zero_le _⟩

theorem tail {span : ℕ × ℕ} (ring : Ring write size (span :: spans)) : Ring write size spans := by
  obtain ⟨old, new, shape, above, below⟩ := ring
  cases old with
  | nil =>
    rw [List.nil_append] at shape
    subst shape
    exact ⟨[], spans, rfl, above, below.2.lower (Nat.zero_le _)⟩
  | cons first rest =>
    obtain ⟨rfl, rfl⟩ := List.cons.inj shape
    have before := above.1
    exact ⟨rest, new, rfl, above.2.lower (by omega), below⟩

theorem suffix {gone : List (ℕ × ℕ)} (ring : Ring write size (gone ++ spans)) :
    Ring write size spans := by
  induction gone with
  | nil => exact ring
  | cons span rest ih => exact ih ring.tail

/-- The old spans taken back, the write place returns to the beginning. -/
theorem wrap (ring : Ring write size spans) (past : ∀ span ∈ spans.head?, span.1 < write) :
    Ring 0 size spans := by
  obtain ⟨old, new, rfl, above, below⟩ := ring
  cases old with
  | nil => exact ⟨new, [], by simp, below.higher above.le, le_rfl⟩
  | cons span rest =>
    have first := past span rfl
    have place := above.1
    omega

/-- A span at the write place that ends before the oldest one begins: nothing overlaps it. -/
theorem push {length : ℕ} (ring : Ring write size spans) (fits : write + length ≤ size)
    (clear : ∀ span ∈ spans.head?, span.1 < write ∨ write + length ≤ span.1) :
    Ring (write + length) size (spans ++ [(write, length)]) ∧
      ∀ span ∈ spans, span.1 + span.2 ≤ write ∨ write + length ≤ span.1 := by
  obtain ⟨old, new, rfl, above, below⟩ := ring
  have rest : Rising (write + length) old size := by
    cases old with
    | nil => exact fits
    | cons span rest =>
      have place := above.1
      rcases clear span rfl with early | late
      · omega
      · exact ⟨late, above.2⟩
  refine ⟨⟨old, new ++ [(write, length)], by simp, rest, below.snoc length⟩, fun span member => ?_⟩
  rcases List.mem_append.mp member with first | last
  · exact .inr (rest.inside first).1
  · exact .inl (below.inside last).2

end Ring

end SpanRing

end EspDevkit.Library
