import Mathlib.Data.List.Basic

/-!
# Slot tables

Values are kept in slots and known by the number of their slot.
-/

namespace SlotTable

open List

variable {α : Type*}

def lookup (slots : List (Option α)) (id : ℕ) : Option α := slots[id]?.join

def place (slots : List (Option α)) (value : α) : List (Option α) × ℕ :=
  match slots.findIdx? Option.isNone with
  | some id => (slots.set id (some value), id)
  | none => (slots ++ [some value], slots.length)

def count (kind : α → Bool) (slots : List (Option α)) : ℕ := slots.countP (Option.any kind)

variable {slots : List (Option α)} {id other : ℕ} {value : α} {kind : α → Bool}

theorem lt_of_lookup (known : lookup slots id = some value) : id < slots.length := by
  unfold lookup at known
  by_contra outside
  rw [getElem?_eq_none (by omega)] at known
  cases known

theorem getElem_of_lookup (known : lookup slots id = some value) :
    slots[id]? = some (some value) := by
  unfold lookup at known
  cases held : slots[id]? with
  | none => simp [held] at known
  | some slot => simpa [held] using known

theorem lookup_set_self (inside : id < slots.length) (slot : Option α) :
    lookup (slots.set id slot) id = slot := by
  simp [lookup, inside]

theorem lookup_set_ne (apart : id ≠ other) (slot : Option α) :
    lookup (slots.set id slot) other = lookup slots other := by
  simp [lookup, getElem?_set_ne apart]

theorem set_lookup (known : lookup slots id = some value) : slots.set id (some value) = slots := by
  have inside := lt_of_lookup known
  have held := getElem_of_lookup known
  rw [getElem?_eq_getElem inside] at held
  rw [← Option.some.inj held, set_getElem_self]

theorem place_spec (slots : List (Option α)) (value : α) :
    lookup slots (place slots value).2 = none ∧
      lookup (place slots value).1 (place slots value).2 = some value ∧
      ∀ other, other ≠ (place slots value).2 →
        lookup (place slots value).1 other = lookup slots other := by
  unfold place
  cases found : slots.findIdx? Option.isNone with
  | some id =>
    obtain ⟨inside, empty, -⟩ := findIdx?_eq_some_iff_getElem.mp found
    refine ⟨?_, lookup_set_self inside _, fun other apart => lookup_set_ne apart.symm _⟩
    rw [lookup, getElem?_eq_getElem inside, Option.isNone_iff_eq_none.mp empty]
    rfl
  | none =>
    refine ⟨by simp [lookup], by simp [lookup], fun other apart => ?_⟩
    dsimp only at apart ⊢
    rcases Nat.lt_or_ge other slots.length with inside | outside
    · rw [lookup, getElem?_append_left inside]
      rfl
    · rw [lookup, lookup, getElem?_eq_none (by simp; omega), getElem?_eq_none outside]

theorem lookup_of_findIdx (found : slots.findIdx? (Option.any kind) = some id) :
    ∃ value, lookup slots id = some value := by
  obtain ⟨inside, holds, -⟩ := findIdx?_eq_some_iff_getElem.mp found
  cases held : slots[id] with
  | none =>
    rw [held] at holds
    cases holds
  | some value => exact ⟨value, by rw [lookup, getElem?_eq_getElem inside, held]; rfl⟩

theorem count_set (inside : id < slots.length) (slot : Option α) :
    count kind (slots.set id slot) + ((lookup slots id).any kind).toNat =
      count kind slots + (slot.any kind).toNat := by
  have here : lookup slots id = slots[id] := by simp [lookup, inside]
  have counted : (slots[id].any kind).toNat ≤ count kind slots := by
    cases held : slots[id].any kind with
    | false => exact Nat.zero_le _
    | true => exact countP_pos_iff.mpr ⟨_, getElem_mem inside, held⟩
  unfold count at counted ⊢
  rw [countP_set inside, here]
  generalize slots[id].any kind = held at counted ⊢
  cases held <;> cases slot.any kind <;> simp only [Bool.toNat_false, Bool.toNat_true,
    Bool.false_eq_true, if_false, if_true] at counted ⊢ <;> omega

theorem count_place (slots : List (Option α)) (value : α) :
    count kind (place slots value).1 = count kind slots + (kind value).toNat := by
  unfold place
  cases found : slots.findIdx? Option.isNone with
  | some id =>
    obtain ⟨inside, empty, -⟩ := findIdx?_eq_some_iff_getElem.mp found
    have counted := @count_set _ slots id kind inside (some value)
    have here : lookup slots id = none := by
      rw [lookup, getElem?_eq_getElem inside, Option.isNone_iff_eq_none.mp empty]
      rfl
    rw [here] at counted
    simpa using counted
  | none => cases held : kind value <;> simp [count, held]

theorem count_eq_zero (none : ∀ id value, lookup slots id = some value → kind value = false) :
    count kind slots = 0 := by
  refine countP_eq_zero.mpr fun slot mem => ?_
  obtain ⟨id, inside, rfl⟩ := getElem_of_mem mem
  cases held : slots[id] with
  | none => simp
  | some value => simp [none id value (by simp [lookup, inside, held])]

end SlotTable
