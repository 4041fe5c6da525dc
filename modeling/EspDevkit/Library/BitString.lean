import Mathlib.Data.List.Basic
import Mathlib.Data.Nat.Bitwise
import Mathlib.Tactic.Ring

/-!
# Bit strings

Numbers as strings of bits, the lowest bit first, and their place in a stream
that is packed from the lowest or from the highest bit on.
-/

namespace BitString

open List

/-- The low `width` bits of a number. -/
def ofNat : ℕ → ℕ → List Bool
  | 0, _ => []
  | width + 1, number => decide (number % 2 = 1) :: ofNat width (number / 2)

def value : List Bool → ℕ
  | [] => 0
  | bit :: bits => bit.toNat + 2 * value bits

theorem ofNat_succ (width number : ℕ) :
    ofNat (width + 1) number = decide (number % 2 = 1) :: ofNat width (number / 2) := rfl

theorem value_cons (bit : Bool) (bits : List Bool) :
    value (bit :: bits) = bit.toNat + 2 * value bits := rfl

@[simp]
theorem length_ofNat (width number : ℕ) : (ofNat width number).length = width := by
  induction width generalizing number with
  | zero => rfl
  | succ width ih => rw [ofNat_succ, length_cons, ih]

theorem value_ofNat {width number : ℕ} (fits : number < 2 ^ width) :
    value (ofNat width number) = number := by
  induction width generalizing number with
  | zero =>
    rw [pow_zero, Nat.lt_one_iff] at fits
    rw [fits]
    rfl
  | succ width ih =>
    rw [ofNat_succ, value_cons, ih (by rw [pow_succ] at fits; omega)]
    rcases Nat.mod_two_eq_zero_or_one number with even | odd
    · simp [even]
      omega
    · simp [odd]
      omega

theorem value_lt (bits : List Bool) : value bits < 2 ^ bits.length := by
  induction bits with
  | nil => exact Nat.one_pos
  | cons bit bits ih =>
    rw [value_cons, length_cons, pow_succ]
    have := Bool.toNat_le bit
    omega

theorem ofNat_value (bits : List Bool) : ofNat bits.length (value bits) = bits := by
  induction bits with
  | nil => rfl
  | cons bit bits ih =>
    have half : (bit.toNat + 2 * value bits) / 2 = value bits := by
      cases bit with
      | false => simp
      | true =>
        simp
        omega
    rw [length_cons, ofNat_succ, value_cons, half, ih]
    cases bit <;> simp

theorem value_append (first rest : List Bool) :
    value (first ++ rest) = value first + 2 ^ first.length * value rest := by
  induction first with
  | nil =>
    rw [nil_append, length_nil, pow_zero, Nat.one_mul]
    exact (Nat.zero_add _).symm
  | cons bit bits ih =>
    rw [cons_append, value_cons, value_cons, ih, length_cons, pow_succ]
    ring

def arrange (msbFirst : Bool) (bits : List Bool) : List Bool :=
  if msbFirst then bits.reverse else bits

@[simp]
theorem length_arrange (msbFirst : Bool) (bits : List Bool) :
    (arrange msbFirst bits).length = bits.length := by
  cases msbFirst with
  | false => rfl
  | true => exact length_reverse

@[simp]
theorem arrange_arrange (msbFirst : Bool) (bits : List Bool) :
    arrange msbFirst (arrange msbFirst bits) = bits := by
  cases msbFirst with
  | false => rfl
  | true => exact reverse_reverse bits

def word (msbFirst : Bool) (width number : ℕ) : List Bool := arrange msbFirst (ofNat width number)

def read (msbFirst : Bool) (bits : List Bool) : ℕ := value (arrange msbFirst bits)

section

variable {msbFirst : Bool}

@[simp]
theorem length_word (msbFirst : Bool) (width number : ℕ) :
    (word msbFirst width number).length = width :=
  (length_arrange _ _).trans (length_ofNat _ _)

theorem read_word {width number : ℕ} (fits : number < 2 ^ width) :
    read msbFirst (word msbFirst width number) = number :=
  (congrArg value (arrange_arrange _ _)).trans (value_ofNat fits)

theorem word_read (bits : List Bool) : word msbFirst bits.length (read msbFirst bits) = bits := by
  have := ofNat_value (arrange msbFirst bits)
  rw [length_arrange] at this
  exact (congrArg (arrange msbFirst) this).trans (arrange_arrange _ _)

theorem read_lt (bits : List Bool) : read msbFirst bits < 2 ^ bits.length := by
  have := value_lt (arrange msbFirst bits)
  rwa [length_arrange] at this

theorem read_append (first rest : List Bool) : read msbFirst (first ++ rest) =
    if msbFirst then 2 ^ rest.length * read msbFirst first + read msbFirst rest
    else read msbFirst first + 2 ^ first.length * read msbFirst rest := by
  cases msbFirst with
  | false => exact value_append first rest
  | true =>
    have all : read true (first ++ rest) = value (rest.reverse ++ first.reverse) :=
      congrArg value reverse_append
    rw [all, value_append, length_reverse, if_pos rfl, Nat.add_comm]
    rfl

end

/-!
## Bits packed into bytes

A stream of bits in bytes, the highest bit of each byte first: what a stretch of it stands for, and
how numbers are shifted in at one end and cut out at the other.
-/

def unpack (bytes : List UInt8) : List Bool := bytes.flatMap fun byte => word true 8 byte.toNat

theorem unpack_nil : unpack [] = [] := rfl

theorem unpack_cons (byte : UInt8) (bytes : List UInt8) :
    unpack (byte :: bytes) = word true 8 byte.toNat ++ unpack bytes := flatMap_cons

theorem unpack_append (first rest : List UInt8) :
    unpack (first ++ rest) = unpack first ++ unpack rest := flatMap_append

theorem length_unpack (bytes : List UInt8) : (unpack bytes).length = 8 * bytes.length := by
  induction bytes with
  | nil => rfl
  | cons byte bytes ih =>
    rw [unpack_cons, length_append, length_word, ih, length_cons]
    omega

theorem drop_unpack (count : ℕ) (bytes : List UInt8) :
    (unpack bytes).drop (8 * count) = unpack (bytes.drop count) := by
  by_cases inside : count ≤ bytes.length
  · have whole : (unpack (bytes.take count)).length = 8 * count := by
      rw [length_unpack, length_take_of_le inside]
    conv_lhs => rw [← take_append_drop count bytes, unpack_append, ← whole]
    exact drop_left
  · have past : (unpack bytes).length ≤ 8 * count := by
      rw [length_unpack]
      omega
    rw [drop_of_length_le past, drop_of_length_le (by omega), unpack_nil]

section Cut

theorem read_div (first rest : List Bool) :
    read true (first ++ rest) / 2 ^ rest.length = read true first := by
  have small := @read_lt true rest
  rw [read_append, if_pos rfl, Nat.mul_add_div (Nat.two_pow_pos _), Nat.div_eq_of_lt small,
    Nat.add_zero]

theorem read_mod (first rest : List Bool) :
    read true (first ++ rest) % 2 ^ rest.length = read true rest := by
  have small := @read_lt true rest
  rw [read_append, if_pos rfl, Nat.mul_add_mod, Nat.mod_eq_of_lt small]

theorem read_middle (first middle rest : List Bool) :
    read true (first ++ (middle ++ rest)) / 2 ^ rest.length % 2 ^ middle.length =
      read true middle := by
  rw [← append_assoc, read_div, read_mod]

end Cut

theorem word_add (high low : ℕ) {number : ℕ} (fits : number < 2 ^ (high + low)) :
    word true (high + low) number =
      word true high (number / 2 ^ low) ++ word true low (number % 2 ^ low) := by
  have upper : number / 2 ^ low < 2 ^ high := by
    rw [pow_add] at fits
    exact Nat.div_lt_of_lt_mul (by rwa [Nat.mul_comm] at fits)
  have lower : number % 2 ^ low < 2 ^ low := Nat.mod_lt _ (Nat.two_pow_pos low)
  have back := @word_read true
    (word true high (number / 2 ^ low) ++ word true low (number % 2 ^ low))
  rw [read_append, if_pos rfl, length_word, read_word upper, read_word lower, Nat.div_add_mod,
    length_append, length_word, length_word] at back
  exact back

theorem read_shift (bits : List Bool) {count number : ℕ} (fits : number < 2 ^ count) :
    read true (bits ++ word true count number) = read true bits * 2 ^ count + number := by
  rw [read_append, if_pos rfl, length_word, read_word fits, Nat.mul_comm]

end BitString
