import Mathlib.Data.Nat.Notation
import Mathlib.Data.List.Basic
import Mathlib.Data.UInt

/-!
# Flash memory

Erasing sets bits and writing only clears them, so that what is written over
erased bytes is read back.
-/

namespace Flash

open List

abbrev Memory := ℕ → UInt8

def read (m : Memory) (offset len : ℕ) : List UInt8 :=
  (List.range len).map fun i => m (offset + i)

def erase (m : Memory) (offset len : ℕ) : Memory := fun at' =>
  if offset ≤ at' ∧ at' < offset + len then 0xff else m at'

def write (m : Memory) (offset : ℕ) (data : List UInt8) : Memory := fun at' =>
  if offset ≤ at' then m at' &&& (data[at' - offset]?.getD 0xff) else m at'

def Erased (m : Memory) (offset len : ℕ) : Prop :=
  ∀ at', offset ≤ at' → at' < offset + len → m at' = 0xff

def Same (m m' : Memory) (offset len : ℕ) : Prop :=
  ∀ at', offset ≤ at' → at' < offset + len → m at' = m' at'

section

variable {m m' m'' : Memory} {offset len : ℕ} {data : List UInt8}

@[simp]
theorem length_read (m : Memory) (offset len : ℕ) : (read m offset len).length = len := by
  simp [read]

@[simp]
theorem getElem_read (m : Memory) (offset len : ℕ) {i : ℕ}
    (small : i < (read m offset len).length) :
    (read m offset len)[i] = m (offset + i) := by
  simp [read]

theorem Same.trans (first : Same m m' offset len) (second : Same m' m'' offset len) :
    Same m m'' offset len :=
  fun at' low high => (first at' low high).trans (second at' low high)

theorem Same.part (same : Same m m' offset len) {offset' len' : ℕ} (low : offset ≤ offset')
    (high : offset' + len' ≤ offset + len) : Same m m' offset' len' :=
  fun at' low' high' => same at' (by omega) (by omega)

theorem read_congr (same : Same m m' offset len) : read m offset len = read m' offset len := by
  refine map_congr_left fun i member => ?_
  have small := mem_range.mp member
  exact same _ (by omega) (by omega)

theorem and_ones (b : UInt8) : 0xff &&& b = b := by
  apply UInt8.toNat_inj.mp
  have small := b.toNat_lt
  rw [UInt8.toNat_and]
  exact (Nat.and_comm _ _).trans (Nat.and_two_pow_sub_one_of_lt_two_pow small)

theorem erased_erase (m : Memory) (offset len : ℕ) : Erased (erase m offset len) offset len :=
  fun _ low high => if_pos ⟨low, high⟩

theorem same_erase {offset' len' : ℕ} (apart : offset' + len' ≤ offset ∨ offset + len ≤ offset') :
    Same (erase m offset len) m offset' len' := by
  intro at' low high
  exact if_neg (by omega)

theorem same_write {offset' len' : ℕ}
    (apart : offset' + len' ≤ offset ∨ offset + data.length ≤ offset') :
    Same (write m offset data) m offset' len' := by
  intro at' low high
  unfold write
  split
  · rename_i above
    have none : data[at' - offset]? = none := List.getElem?_eq_none (by omega)
    rw [none, Option.getD_none, UInt8.and_comm, and_ones]
  · rfl

theorem Erased.same (erased : Erased m offset len) (same : Same m' m offset len) :
    Erased m' offset len :=
  fun at' low high => (same at' low high).trans (erased at' low high)

theorem read_write_take (erased : Erased m offset data.length) (count : ℕ) :
    read (write m offset (data.take count)) offset data.length =
      data.take count ++ List.replicate (data.length - count) 0xff := by
  apply ext_getElem
  · simp
    omega
  · intro i small _
    rw [length_read] at small
    have ones := erased (offset + i) (by omega) (by omega)
    simp only [getElem_read, write, if_pos (Nat.le_add_right offset i), Nat.add_sub_cancel_left, ones,
      and_ones]
    by_cases came : i < count
    · rw [getElem_append_left (by simp; omega)]
      simp [came, small]
    · rw [getElem_append_right (by simp; omega), getElem_replicate]
      rw [List.getElem?_eq_none (by simp; omega), Option.getD_none]

theorem read_write (erased : Erased m offset data.length) :
    read (write m offset data) offset data.length = data := by
  have whole := read_write_take erased data.length
  rwa [take_length, Nat.sub_self, replicate_zero, append_nil] at whole

end

end Flash
