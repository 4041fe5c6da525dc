import Mathlib.Data.List.Induction
import Mathlib.Data.Nat.Bitwise
import Mathlib.Data.Nat.ModEq
import Mathlib.Tactic.Ring

/-!
# Numbers as bytes

In `LittleEndian` the lowest byte comes first; in `BigEndian` the highest, and a number is built up
by shifts.
-/

namespace LittleEndian

def toBytes : ℕ → ℕ → List UInt8
  | 0, _ => []
  | count + 1, value => UInt8.ofNat value :: toBytes count (value / 256)

def ofBytes : List UInt8 → ℕ
  | [] => 0
  | byte :: rest => byte.toNat + 256 * ofBytes rest

@[simp]
theorem length_toBytes (count value : ℕ) : (toBytes count value).length = count := by
  induction count generalizing value with
  | zero => rfl
  | succ count ih => simp [toBytes, ih]

theorem ofBytes_toBytes (count value : ℕ) :
    ofBytes (toBytes count value) = value % 256 ^ count := by
  induction count generalizing value with
  | zero => simp [toBytes, ofBytes, Nat.mod_one]
  | succ count ih =>
    have low : (UInt8.ofNat value).toNat = value % 256 := by simp
    rw [toBytes, ofBytes, ih, low, pow_succ', Nat.mod_mul]

theorem ofBytes_toBytes_of_lt {count value : ℕ} (fits : value < 256 ^ count) :
    ofBytes (toBytes count value) = value := by
  rw [ofBytes_toBytes, Nat.mod_eq_of_lt fits]

theorem toBytes_ofBytes (bytes : List UInt8) : toBytes bytes.length (ofBytes bytes) = bytes := by
  induction bytes with
  | nil => rfl
  | cons byte rest ih =>
    have small := byte.toNat_lt
    have low : UInt8.ofNat (byte.toNat + 256 * ofBytes rest) = byte := by
      apply UInt8.toNat_inj.mp
      rw [UInt8.toNat_ofNat']
      omega
    have high : (byte.toNat + 256 * ofBytes rest) / 256 = ofBytes rest := by omega
    rw [ofBytes, List.length_cons, toBytes, low, high, ih]

end LittleEndian

namespace BigEndian

open List

/-- The number that `value` becomes with the bytes behind it. -/
def extend (value : ℕ) (bytes : List UInt8) : ℕ :=
  bytes.foldl (fun value byte => value <<< 8 ||| byte.toNat) value

theorem shift_or (value : ℕ) (byte : UInt8) :
    value <<< 8 ||| byte.toNat = value * 256 + byte.toNat := by
  rw [← Nat.shiftLeft_add_eq_or_of_lt (by simpa using byte.toNat_lt), Nat.shiftLeft_eq]

@[simp]
theorem extend_nil (value : ℕ) : extend value [] = value := rfl

@[simp]
theorem extend_cons (value : ℕ) (byte : UInt8) (bytes : List UInt8) :
    extend value (byte :: bytes) = extend (value * 256 + byte.toNat) bytes := by
  unfold extend
  rw [foldl_cons, shift_or]

theorem extend_eq (value : ℕ) (bytes : List UInt8) :
    extend value bytes = value * 256 ^ bytes.length + extend 0 bytes := by
  induction bytes generalizing value with
  | nil => simp
  | cons byte bytes ih =>
    rw [extend_cons, extend_cons, ih, ih (0 * 256 + byte.toNat), length_cons]
    ring

theorem extend_zero_lt (bytes : List UInt8) : extend 0 bytes < 256 ^ bytes.length := by
  induction bytes with
  | nil => simp
  | cons byte bytes ih =>
    have small : byte.toNat < 256 := byte.toNat_lt
    have := Nat.mul_le_mul_right (256 ^ bytes.length) (Nat.le_of_lt_succ small)
    rw [extend_cons, extend_eq, length_cons, pow_succ, Nat.zero_mul, Nat.zero_add]
    omega

theorem extend_append (value : ℕ) (first rest : List UInt8) :
    extend value (first ++ rest) = extend (extend value first) rest := foldl_append

section Shortest

def bytes (number : ℕ) : List UInt8 :=
  if number = 0 then [] else bytes (number / 256) ++ [UInt8.ofNat (number % 256)]
decreasing_by exact Nat.div_lt_self (Nat.pos_of_ne_zero ‹_›) (by decide)

theorem bytes_zero : bytes 0 = [] := by rw [bytes, if_pos rfl]

theorem bytes_pos {number : ℕ} (some_ : number ≠ 0) :
    bytes number = bytes (number / 256) ++ [UInt8.ofNat (number % 256)] := by
  rw [bytes, if_neg some_]

theorem extend_bytes (number : ℕ) : extend 0 (bytes number) = number := by
  induction number using bytes.induct with
  | case1 => rw [bytes_zero, extend_nil]
  | case2 number some_ ih =>
    rw [bytes_pos some_, extend_append, ih, extend_cons, extend_nil,
      UInt8.toNat_ofNat']
    omega

theorem bytes_ne_nil {number : ℕ} (some_ : number ≠ 0) : bytes number ≠ [] := by
  rw [bytes_pos some_]
  exact append_ne_nil_of_right_ne_nil _ (cons_ne_nil _ _)

theorem head_append {first : List UInt8} (some_ : first ≠ []) (rest : List UInt8) :
    (first ++ rest).head? = first.head? := by
  cases first with
  | nil => exact absurd rfl some_
  | cons byte first => rfl

theorem head_bytes (number : ℕ) : (bytes number).head? ≠ some 0 := by
  induction number using bytes.induct with
  | case1 =>
    rw [bytes_zero]
    nofun
  | case2 number some_ ih =>
    rw [bytes_pos some_]
    by_cases high : number / 256 = 0
    · have low : (UInt8.ofNat (number % 256)).toNat = number := by
        rw [UInt8.toNat_ofNat']
        omega
      rw [high, bytes_zero, nil_append, List.head?_cons, Ne, Option.some.injEq,
        ← UInt8.toNat_inj, low]
      exact some_
    · rw [head_append (bytes_ne_nil high)]
      exact ih

theorem bytes_extend {digits : List UInt8} (lead : digits.head? ≠ some 0) :
    bytes (extend 0 digits) = digits := by
  induction digits using List.reverseRecOn with
  | nil => exact bytes_zero
  | append_singleton digits byte ih =>
    have lead' : digits.head? ≠ some 0 := by
      cases digits with
      | nil => nofun
      | cons first rest => exact lead
    have shorter := ih lead'
    have value : extend 0 (digits ++ [byte]) = extend 0 digits * 256 + byte.toNat := by
      rw [extend_append, extend_cons, extend_nil]
    have some_ : extend 0 digits * 256 + byte.toNat ≠ 0 := by
      intro zero
      have both : extend 0 digits = 0 ∧ byte.toNat = 0 := by omega
      rw [both.1, bytes_zero] at shorter
      subst shorter
      exact lead (congrArg some (UInt8.toNat_inj.mp both.2))
    have small : byte.toNat < 256 := byte.toNat_lt
    rw [value, bytes_pos some_, show (extend 0 digits * 256 + byte.toNat) / 256 =
      extend 0 digits by omega, show (extend 0 digits * 256 + byte.toNat) % 256 =
      byte.toNat by omega, shorter, UInt8.ofNat_toNat]

theorem drop_findIdx {digits : List UInt8} {skip : ℕ}
    (found : digits.findIdx? (· ≠ 0) = some skip) :
    digits.drop skip = bytes (extend 0 digits) := by
  induction digits generalizing skip with
  | nil => cases found
  | cons byte rest ih =>
    rw [List.findIdx?_cons] at found
    by_cases zero : byte = 0
    · subst zero
      rw [if_neg (by decide)] at found
      obtain ⟨before, inside, rfl⟩ := Option.map_eq_some_iff.mp found
      rw [drop_succ_cons, ih inside, extend_cons]
      rfl
    · rw [if_pos (by simpa using zero)] at found
      cases found
      rw [drop_zero, bytes_extend]
      simpa using zero

theorem extend_of_findIdx {digits : List UInt8} (none_ : digits.findIdx? (· ≠ 0) = none) :
    digits = List.replicate digits.length 0 ∧ extend 0 digits = 0 := by
  have zeros : digits = List.replicate digits.length 0 :=
    eq_replicate_iff.mpr ⟨rfl, by simpa [List.findIdx?_eq_none_iff] using none_⟩
  refine ⟨zeros, ?_⟩
  rw [zeros]
  induction digits.length with
  | zero => rfl
  | succ count ih =>
    rw [replicate_succ, extend_cons]
    exact ih

end Shortest

end BigEndian
