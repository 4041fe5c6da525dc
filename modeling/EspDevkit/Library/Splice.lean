import Mathlib.Data.List.Basic
import Mathlib.Tactic.Common

/-!
# Parts of a buffer

A part of a buffer is read by its place and its length, and written over at its place. In a
buffer that wraps, a part past the end goes on at the start.
-/

namespace Splice

open List

variable {α : Type}

def slice (start len : ℕ) (list : List α) : List α := (list.drop start).take len

def splice (start : ℕ) (data list : List α) : List α :=
  list.take start ++ data ++ list.drop (start + data.length)

variable {start len : ℕ} {data list : List α}

theorem length_splice (room : start + data.length ≤ list.length) :
    (splice start data list).length = list.length := by
  rw [splice, length_append, length_append, length_take, length_drop]
  omega

theorem getElem?_splice (room : start + data.length ≤ list.length) (i : ℕ) :
    (splice start data list)[i]? =
      if start ≤ i ∧ i < start + data.length then data[i - start]? else list[i]? := by
  have front : (list.take start).length = start := by
    rw [length_take]
    omega
  rw [splice, append_assoc]
  by_cases before : i < start
  · rw [getElem?_append_left (by omega), getElem?_take_of_lt before, if_neg (by omega)]
  · rw [getElem?_append_right (by omega), front]
    by_cases within : i < start + data.length
    · rw [getElem?_append_left (by omega), if_pos (by omega)]
    · rw [getElem?_append_right (by omega), getElem?_drop, if_neg (by omega)]
      congr 1
      omega

theorem getElem?_slice {i : ℕ} (lt : i < len) : (slice start len list)[i]? = list[start + i]? := by
  rw [slice, getElem?_take_of_lt lt, getElem?_drop]

theorem slice_splice (room : start + data.length ≤ list.length) :
    slice start data.length (splice start data list) = data := by
  have front : (list.take start).length = start := by
    rw [length_take]
    omega
  rw [slice, splice, append_assoc, drop_left' front, take_left]

def Apart (start len start' len' : ℕ) : Prop := start + len ≤ start' ∨ start' + len' ≤ start

theorem slice_splice_apart (room : start + data.length ≤ list.length) {start' len' : ℕ}
    (apart : Apart start data.length start' len') :
    slice start' len' (splice start data list) = slice start' len' list := by
  apply ext_getElem?
  intro i
  by_cases small : i < len'
  · rw [getElem?_slice small, getElem?_slice small, getElem?_splice room]
    unfold Apart at apart
    rw [if_neg (by omega)]
  · unfold slice
    rw [getElem?_take, getElem?_take, if_neg small, if_neg small]

theorem splice_nil (start : ℕ) (list : List α) : splice start [] list = list := by
  rw [splice, append_nil, length_nil, Nat.add_zero, take_append_drop]

section Turned

variable {front back : List α} {head offset : ℕ}

theorem splice_left (room : start + data.length ≤ front.length) :
    splice start data (front ++ back) = splice start data front ++ back := by
  rw [splice, splice, take_append_of_le_length (by omega), drop_append_of_le_length room,
    append_assoc _ _ back]

theorem splice_right (front back : List α) (start : ℕ) (data : List α) :
    splice (front.length + start) data (front ++ back) = front ++ splice start data back := by
  rw [splice, splice, take_length_add_append, Nat.add_assoc, drop_length_add_append,
    append_assoc, append_assoc, append_assoc]

theorem splice_across {more : List α} (meets : start + data.length = front.length) :
    splice start (data ++ more) (front ++ back) =
      splice start data front ++ splice 0 more back := by
  rw [splice, splice, splice, take_append_of_le_length (by omega), length_append,
    ← Nat.add_assoc, meets, drop_length_add_append, drop_length]
  simp

/-- A buffer read from `head` on, and from its start after its end. -/
def turned (head : ℕ) (list : List α) : List α := list.drop head ++ list.take head

/-- Where the byte at `offset` of the turned buffer is. -/
def placeAt (head size offset : ℕ) : ℕ :=
  if size ≤ head + offset then head + offset - size else head + offset

theorem turned_append (front back : List α) :
    turned front.length (front ++ back) = back ++ front := by
  rw [turned, drop_left, take_left]

theorem parts (inside : head ≤ list.length) :
    ∃ front back, front.length = head ∧ list = front ++ back :=
  ⟨list.take head, list.drop head, length_take_of_le inside, (take_append_drop _ _).symm⟩

theorem placeAt_before (front back : List α) (offset : ℕ) :
    placeAt front.length (front ++ back).length (back.length + offset) = offset := by
  rw [placeAt, length_append, if_pos (by omega)]
  omega

theorem placeAt_after {front back : List α} {offset : ℕ} (within : ¬back.length ≤ offset) :
    placeAt front.length (front ++ back).length offset = front.length + offset := by
  rw [placeAt, length_append, if_neg (by omega)]

theorem placeAt_eq_mod {size : ℕ} (inside : head < size) (le : offset ≤ size) :
    placeAt head size offset = (head + offset) % size := by
  rw [placeAt]
  split
  · rw [Nat.mod_eq_sub_mod (by omega), Nat.mod_eq_of_lt (by omega)]
  · rw [Nat.mod_eq_of_lt (by omega)]

theorem getElem?_turned {i : ℕ} (inside : head < list.length) (lt : i < list.length) :
    (turned head list)[i]? = list[(head + i) % list.length]? := by
  rw [← placeAt_eq_mod inside (Nat.le_of_lt lt), turned, placeAt]
  by_cases before : i < (list.drop head).length
  · rw [getElem?_append_left before, getElem?_drop, if_neg]
    rw [length_drop] at before
    omega
  · rw [getElem?_append_right (Nat.le_of_not_lt before)]
    rw [length_drop] at *
    rw [getElem?_take_of_lt (by omega), if_pos (by omega)]
    congr 1
    omega

/-- A write of at most two runs is one write to the turned buffer. -/
theorem turned_splice (inside : head ≤ list.length) (room : offset + data.length ≤ list.length) :
    let start := placeAt head list.length offset
    let first := min data.length (list.length - start)
    let written := splice 0 (data.drop first) (splice start (data.take first) list)
    turned head written = splice offset data (turned head list) ∧ written.length = list.length := by
  obtain ⟨front, back, rfl, rfl⟩ := parts inside
  rw [turned_append]
  rw [length_append] at room
  by_cases behind : back.length ≤ offset
  · obtain ⟨start, rfl⟩ := Nat.exists_eq_add_of_le behind
    have fits : start + data.length ≤ front.length := by omega
    have whole : min data.length ((front ++ back).length - start) = data.length := by
      rw [length_append]
      omega
    rw [placeAt_before]
    simp only [whole, drop_length, take_length, splice_nil]
    rw [splice_left fits, splice_right, length_append, length_append, length_splice fits]
    nth_rewrite 1 [← length_splice fits]
    exact ⟨turned_append _ _, rfl⟩
  · rw [placeAt_after behind]
    simp only [splice_right]
    by_cases short : offset + data.length ≤ back.length
    · have whole : min data.length ((front ++ back).length - (front.length + offset)) =
          data.length := by
        rw [length_append]
        omega
      rw [whole, drop_length, take_length, splice_nil, splice_left short, turned_append,
        length_append, length_append, length_splice short]
      exact ⟨rfl, rfl⟩
    · have part : min data.length ((front ++ back).length - (front.length + offset)) =
          back.length - offset := by
        rw [length_append]
        omega
      rw [part]
      have meets : offset + (data.take (back.length - offset)).length = back.length := by
        rw [length_take]
        omega
      have rest : 0 + (data.drop (back.length - offset)).length ≤ front.length := by
        rw [length_drop]
        omega
      have frontLen := length_splice rest
      rw [splice_left rest]
      constructor
      · nth_rewrite 1 [← frontLen]
        rw [turned_append, ← splice_across meets, take_append_drop]
      · rw [length_append, length_append, frontLen, length_splice (by omega)]

/-- A read of at most two runs is one read of the turned buffer. -/
theorem slice_turned (inside : head ≤ list.length) (room : offset + len ≤ list.length) :
    let start := placeAt head list.length offset
    let first := min len (list.length - start)
    slice start first list ++ list.take (len - first) = slice offset len (turned head list) := by
  obtain ⟨front, back, rfl, rfl⟩ := parts inside
  rw [turned_append]
  rw [length_append] at room
  by_cases behind : back.length ≤ offset
  · obtain ⟨start, rfl⟩ := Nat.exists_eq_add_of_le behind
    have whole : min len ((front ++ back).length - start) = len := by
      rw [length_append]
      omega
    rw [placeAt_before]
    simp only [whole, Nat.sub_self, take_zero, append_nil, slice]
    rw [drop_length_add_append, drop_append_of_le_length (by omega),
      take_append_of_le_length (by rw [length_drop]; omega)]
  · have remains : (front ++ back).length - (front.length + offset) =
        (back.drop offset).length := by
      rw [length_append, length_drop]
      omega
    have behindLen : (back.drop offset).length = back.length - offset := length_drop
    rw [placeAt_after behind]
    simp only [slice, remains]
    rw [drop_length_add_append, drop_append_of_le_length (by omega)]
    by_cases short : len ≤ (back.drop offset).length
    · rw [Nat.min_eq_left short, Nat.sub_self, take_zero, append_nil,
        take_append_of_le_length short]
    · have long : (back.drop offset).length ≤ len := Nat.le_of_not_le short
      rw [Nat.min_eq_right long, take_length, take_append_of_le_length (by omega),
        take_append, take_of_length_le long]

theorem turned_placeAt (inside : head ≤ list.length) (within : offset < list.length) :
    turned (placeAt head list.length offset) list = turned offset (turned head list) := by
  obtain ⟨front, back, rfl, rfl⟩ := parts inside
  rw [turned_append]
  rw [length_append] at within
  by_cases behind : back.length ≤ offset
  · obtain ⟨start, rfl⟩ := Nat.exists_eq_add_of_le behind
    rw [placeAt_before, turned, turned, drop_length_add_append, take_length_add_append,
      drop_append_of_le_length (by omega), take_append_of_le_length (by omega),
      append_assoc]
  · rw [placeAt_after behind, turned, turned, drop_length_add_append,
      take_length_add_append, drop_append_of_le_length (by omega),
      take_append_of_le_length (by omega), append_assoc]

end Turned
end Splice
