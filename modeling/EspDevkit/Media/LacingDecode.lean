import EspDevkit.Media.Lacing
import Mathlib.Algebra.Order.BigOperators.Group.List
import Mathlib.Tactic.IntervalCases
import Mathlib.Tactic.Linarith

/-!
# Laces are read as they were written

Each reading function takes just the codes of what it gives.
-/

namespace EspDevkit.Media.Mkv

open BigEndian List Option

variable {bytes code rest : List UInt8}

theorem vintLength_eq (first : UInt8) {length : ℕ} (le : length ≤ 8) :
    vintLength first = length ↔
      0 < length ∧ 2 ^ (8 - length) ≤ first.toNat ∧ first.toNat < 2 ^ (9 - length) := by
  have small : first.toNat.size ≤ 8 := Nat.size_le.mpr first.toNat_lt
  rw [← Nat.size_le, ← Nat.lt_size]
  unfold vintLength
  omega

theorem mask_eq {length : ℕ} (le : length ≤ 8) : 0xFF >>> length = 2 ^ (8 - length) - 1 := by
  interval_cases length <;> rfl

theorem double_eq {length : ℕ} (le : length ≤ 8) : 2 ^ (9 - length) = 2 * 2 ^ (8 - length) := by
  rw [← pow_succ', show 8 - length + 1 = 9 - length by omega]

theorem first_eq {first : UInt8} {length : ℕ} (le : length ≤ 8) (is : vintLength first = length) :
    first.toNat = 2 ^ (8 - length) + (first.toNat &&& (0xFF >>> length)) := by
  obtain ⟨pos, low, high⟩ := (vintLength_eq first le).mp is
  have mask := mask_eq le
  have double := double_eq le
  rw [mask, Nat.and_two_pow_sub_one_eq_mod, Nat.mod_eq_sub_mod low, Nat.mod_eq_of_lt (by omega)]
  omega

theorem pow_eq {length : ℕ} (pos : 0 < length) (le : length ≤ 8) :
    2 ^ (8 - length) * 256 ^ (length - 1) = 2 ^ (7 * length) := by
  rw [show 256 = 2 ^ 8 from rfl, ← pow_mul, ← pow_add]
  congr 1
  omega

theorem readRest_append (value : ℕ) (allOnes : Bool) (code rest : List UInt8) :
    readRest code.length value allOnes (code ++ rest) =
      some (extend value code, allOnes && code.all (· == 0xFF), rest) := by
  induction code generalizing value allOnes with
  | nil => simp [readRest]
  | cons byte code ih =>
    rw [length_cons, cons_append, readRest, readByte, bind_some]
    dsimp only
    rw [ih, shift_or, extend_cons, all_cons, Bool.and_assoc]

theorem readRest_some {count value value' : ℕ} {allOnes allOnes' : Bool}
    (read : readRest count value allOnes bytes = some (value', allOnes', rest)) :
    ∃ code, code.length = count ∧ bytes = code ++ rest := by
  induction count generalizing value allOnes bytes with
  | zero =>
    cases read
    exact ⟨[], rfl, rfl⟩
  | succ count ih =>
    cases bytes with
    | nil => cases read
    | cons byte bytes =>
      obtain ⟨code, rfl, rfl⟩ := ih read
      exact ⟨byte :: code, rfl, rfl⟩

theorem all_ones_iff (bytes : List UInt8) :
    bytes.all (· == 0xFF) = true ↔ extend 0 bytes + 1 = 256 ^ bytes.length := by
  induction bytes with
  | nil => simp
  | cons byte bytes ih =>
    have small := byte.toNat_lt
    have below := extend_zero_lt bytes
    rw [all_cons, Bool.and_eq_true, ih, extend_cons, extend_eq (0 * 256 + byte.toNat),
      length_cons, pow_succ, beq_iff_eq, ← UInt8.toNat_inj, Nat.zero_mul, Nat.zero_add]
    change byte.toNat = 255 ∧ _ ↔ _
    constructor
    · rintro ⟨ones, more⟩
      rw [ones]
      omega
    · intro most
      have ones : byte.toNat = 255 := by
        by_contra less
        have := Nat.mul_le_mul_right (256 ^ bytes.length) (show byte.toNat + 1 ≤ 255 by omega)
        rw [Nat.add_mul] at this
        omega
      rw [ones] at most
      exact ⟨ones, by omega⟩

theorem number_of_first {first : UInt8} {length : ℕ} (tail : List UInt8)
    (le : length ≤ 8) (is : vintLength first = length) (tail_length : tail.length = length - 1) :
    IsNumber (first :: tail) length
        (extend (first.toNat &&& (0xFF >>> length)) tail) ∧
      ((((first.toNat &&& (0xFF >>> length)) == (0xFF >>> length)) && tail.all (· == 0xFF)) = true ↔
        extend (first.toNat &&& (0xFF >>> length)) tail = 2 ^ (7 * length) - 1) := by
  obtain ⟨pos, low, high⟩ := (vintLength_eq first le).mp is
  have split := first_eq le is
  have below := extend_zero_lt tail
  have pow := pow_eq pos le
  have mask := mask_eq le
  have double := double_eq le
  generalize first.toNat &&& (0xFF >>> length) = value at *
  have value_lt : value < 2 ^ (8 - length) := by omega
  have total := extend_eq value tail
  rw [tail_length] at below total
  have whole : extend 0 (first :: tail) = 2 ^ (7 * length) + extend value tail := by
    rw [extend_cons, extend_eq, tail_length, total, Nat.zero_mul, Nat.zero_add, split, ← pow]
    ring
  have bound : extend value tail < 2 ^ (7 * length) := by
    rw [total, ← pow]
    nlinarith
  refine ⟨⟨by rw [length_cons, tail_length]; omega, pos, le, bound, whole⟩, ?_⟩
  rw [Bool.and_eq_true, beq_iff_eq, all_ones_iff, tail_length, mask, total]
  have unit : 0 < 256 ^ (length - 1) := by positivity
  constructor
  · rintro ⟨rfl, more⟩
    have one : 0 < 2 ^ (8 - length) := by positivity
    rw [← pow, Nat.sub_mul]
    have : 1 * 256 ^ (length - 1) ≤ 2 ^ (8 - length) * 256 ^ (length - 1) :=
      Nat.mul_le_mul_right _ one
    omega
  · intro most
    have top : value = 2 ^ (8 - length) - 1 := by
      by_contra less
      have : value + 2 ≤ 2 ^ (8 - length) := by omega
      have := Nat.mul_le_mul_right (256 ^ (length - 1)) this
      rw [pow, Nat.add_mul] at this
      omega
    refine ⟨top, ?_⟩
    have : value + 1 = 2 ^ (8 - length) := by omega
    rw [← pow, ← this, Nat.add_mul] at most
    omega

theorem readNumber_append {length value : ℕ} (number : IsNumber code length value)
    (rest : List UInt8) :
    readNumber (code ++ rest) = some (length, value, decide (value = 2 ^ (7 * length) - 1), rest) := by
  obtain ⟨length_eq, pos, le, lt, eq⟩ := number
  cases code with
  | nil => simp at length_eq; omega
  | cons first tail =>
    have tail_length : tail.length = length - 1 := by
      rw [length_cons] at length_eq
      omega
    have pow := pow_eq pos le
    have is : vintLength first = length := by
      rw [vintLength_eq first le]
      have below := extend_zero_lt tail
      rw [extend_cons, extend_eq, tail_length, Nat.zero_mul, Nat.zero_add, ← pow] at eq
      rw [tail_length] at below
      rw [← pow] at lt
      have double := double_eq le
      refine ⟨pos, ?_, ?_⟩
      · by_contra less
        have : first.toNat + 1 ≤ 2 ^ (8 - length) := by omega
        have := Nat.mul_le_mul_right (256 ^ (length - 1)) this
        rw [Nat.add_mul] at this
        omega
      · by_contra more
        have : 2 * 2 ^ (8 - length) ≤ first.toNat := by omega
        have := Nat.mul_le_mul_right (256 ^ (length - 1)) this
        rw [Nat.mul_assoc] at this
        omega
    obtain ⟨number, ones⟩ := number_of_first tail le is tail_length
    have same : extend (first.toNat &&& (0xFF >>> length)) tail = value := by
      have := number.eq
      omega
    unfold readNumber
    rw [cons_append, readByte, bind_some]
    dsimp only
    rw [is, if_neg (by omega), ← tail_length, readRest_append, map_some, same]
    rw [same] at ones
    congr 4
    rw [Bool.eq_iff_iff, ones, decide_eq_true_eq]

theorem readNumber_some {length value : ℕ} {allOnes : Bool}
    (read : readNumber bytes = some (length, value, allOnes, rest)) :
    ∃ code, bytes = code ++ rest ∧ IsNumber code length value ∧
      allOnes = decide (value = 2 ^ (7 * length) - 1) := by
  cases bytes with
  | nil => cases read
  | cons first bytes =>
    unfold readNumber at read
    rw [readByte, bind_some] at read
    dsimp only at read
    split at read
    · cases read
    · rename_i le
      have le := Nat.le_of_not_lt le
      obtain ⟨⟨value', ones', rest'⟩, rests, eq⟩ := map_eq_some_iff.mp read
      cases eq
      obtain ⟨tail, tail_length, rfl⟩ := readRest_some rests
      rw [← tail_length, readRest_append] at rests
      cases rests
      obtain ⟨number, ones⟩ := number_of_first tail le rfl tail_length
      exact ⟨first :: tail, rfl, number, by rw [Bool.eq_iff_iff, ones, decide_eq_true_eq]⟩

theorem xiphSize_append (size runs : ℕ) {byte : UInt8} (last : byte ≠ 0xFF) (rest : List UInt8) :
    xiphSize size (List.replicate runs 0xFF ++ byte :: rest) =
      some (size + (runs * 255 + byte.toNat), rest) := by
  induction runs generalizing size with
  | zero =>
    rw [replicate_zero, nil_append, xiphSize, if_pos last]
    simp
  | succ runs ih =>
    rw [replicate_succ, cons_append, xiphSize, if_neg (by simp), ih]
    congr 2
    change size + 255 + _ = _
    ring

theorem xiphSize_some {size value : ℕ} (read : xiphSize size bytes = some (value, rest)) :
    ∃ runs byte, byte ≠ 0xFF ∧ bytes = List.replicate runs 0xFF ++ byte :: rest ∧
      value = size + (runs * 255 + byte.toNat) := by
  induction bytes generalizing size with
  | nil => cases read
  | cons byte bytes ih =>
    rw [xiphSize] at read
    split at read
    · rename_i last
      cases read
      exact ⟨0, byte, last, rfl, by omega⟩
    · rename_i ones
      obtain rfl : byte = 0xFF := not_not.mp ones
      obtain ⟨runs, byte, last, rfl, rfl⟩ := ih read
      refine ⟨runs + 1, byte, last, rfl, ?_⟩
      change size + 255 + _ = _
      ring

theorem xiphSlots_append {sizes : List ℕ} (codes : XiphCode sizes code) (rest : List UInt8) :
    xiphSlots sizes.length (code ++ rest) =
      some ⟨sizes.map (· % 2 ^ 32), sizes.sum, true, rest⟩ := by
  induction codes with
  | nil => rfl
  | cons runs byte last codes ih =>
    rw [length_cons, xiphSlots, append_assoc, cons_append, xiphSize_append _ _ last]
    dsimp only [bind, Option.bind]
    rw [ih, Nat.zero_add]
    rfl

theorem xiphSlots_some {count : ℕ} {slots : Slots} (read : xiphSlots count bytes = some slots) :
    ∃ sizes code, XiphCode sizes code ∧ sizes.length = count ∧ bytes = code ++ slots.rest ∧
      slots.known = sizes.sum := by
  induction count generalizing bytes slots with
  | zero =>
    cases read
    exact ⟨[], [], .nil, rfl, rfl, rfl⟩
  | succ count ih =>
    obtain ⟨⟨size, after⟩, first, read⟩ := bind_eq_some_iff.mp read
    obtain ⟨more, others, eq⟩ := bind_eq_some_iff.mp read
    cases eq
    obtain ⟨runs, byte, last, rfl, rfl⟩ := xiphSize_some first
    obtain ⟨sizes, code, codes, rfl, rfl, known⟩ := ih others
    refine ⟨_, _, .cons runs byte last codes, rfl, by simp, ?_⟩
    dsimp only
    rw [sum_cons, known, Nat.zero_add]

theorem bmod_add {before length value : ℕ} (small : before < 2 ^ 32) (pos : 0 < length)
    (le : length ≤ 8) (lt : value < 2 ^ (7 * length)) :
    Int.bmod (Int.bmod before (2 ^ 64) + (value - (2 ^ (7 * length - 1) - 1))) (2 ^ 64) =
      before + (value - (2 ^ (7 * length - 1) - 1)) := by
  have most : 2 ^ (7 * length) ≤ 2 ^ 56 := Nat.pow_le_pow_right (by decide) (by omega)
  have bias : (2 : ℤ) ^ (7 * length - 1) ≤ 2 ^ 55 :=
    pow_le_pow_right₀ (by decide) (by omega)
  have bias_pos : (0 : ℤ) < 2 ^ (7 * length - 1) := by positivity
  rw [Int.bmod_eq_of_le (n := before) (by omega) (by omega), Int.bmod_eq_of_le (by omega) (by omega)]

theorem record_valid {size : ℕ} {slots : Slots} :
    (slots.record size).valid = true ↔ size < 2 ^ 32 ∧ slots.valid = true := by
  unfold Slots.record u32Max
  rw [Bool.and_eq_true, decide_eq_true_eq, Nat.lt_iff_le_pred (Nat.two_pow_pos 32)]

theorem record_of_lt {size : ℕ} (fit : size < 2 ^ 32) (slots : Slots) :
    slots.record size =
      { slots with sizes := size :: slots.sizes, known := (size + slots.known) % 2 ^ 64 } := by
  unfold Slots.record u32Max
  rw [Nat.mod_eq_of_lt fit, decide_eq_true (by omega), Bool.true_and]

theorem ebmlSlots_append {before : ℕ} {sizes : List ℕ} (codes : DeltaCode before sizes code)
    (small : before < 2 ^ 32) (fits : ∀ size ∈ sizes, size < 2 ^ 32) (rest : List UInt8) :
    ebmlSlots sizes.length before (code ++ rest) =
      some ⟨sizes, sizes.sum % 2 ^ 64, true, rest⟩ := by
  induction codes with
  | nil => rfl
  | cons number next codes ih =>
    rename_i before size length value sizes first code
    have fit := fits size mem_cons_self
    rw [length_cons, ebmlSlots, append_assoc]
    unfold readLaceDelta
    rw [readNumber_append number]
    dsimp only [bind, Option.bind, Option.map]
    rw [bmod_add small number.pos number.le number.lt, ← next]
    rw [show (max (size : ℤ) 0).toNat = size by omega,
      ih fit fun size member => fits size (mem_cons_of_mem _ member)]
    dsimp only
    rw [record_of_lt fit]
    simp

theorem ebmlSlots_some {count before : ℕ} {slots : Slots} (small : before < 2 ^ 32)
    (read : ebmlSlots count before bytes = some slots) (valid : slots.valid = true) :
    ∃ sizes code, DeltaCode before sizes code ∧ sizes.length = count ∧
      bytes = code ++ slots.rest ∧ (∀ size ∈ sizes, size < 2 ^ 32) ∧
      slots.known = sizes.sum % 2 ^ 64 := by
  induction count generalizing bytes slots before with
  | zero =>
    cases read
    exact ⟨[], [], .nil _, rfl, rfl, nofun, rfl⟩
  | succ count ih =>
    obtain ⟨⟨delta, after⟩, first, read⟩ := bind_eq_some_iff.mp read
    obtain ⟨more, others, eq⟩ := bind_eq_some_iff.mp read
    cases eq
    obtain ⟨⟨length, value, ones, after'⟩, reads, eq⟩ := map_eq_some_iff.mp first
    cases eq
    obtain ⟨code, rfl, number, -⟩ := readNumber_some reads
    rw [bmod_add small number.pos number.le number.lt] at others valid ⊢
    rw [Bool.and_eq_true, decide_eq_true_eq, record_valid] at valid
    obtain ⟨nonneg, fit, valid⟩ := valid
    obtain ⟨sizes, codes, deltas, rfl, rfl, fits, known⟩ := ih fit others valid
    refine ⟨_, _, .cons number ?_ deltas, rfl, by simp [Slots.record], ?_, ?_⟩
    · omega
    · intro size member
      rcases mem_cons.mp member with rfl | member
      · exact fit
      · exact fits size member
    · unfold Slots.record
      dsimp only
      rw [known, sum_cons, Nat.add_mod_mod]

theorem sum_lt {sizes : List ℕ} (fits : ∀ size ∈ sizes, size < 2 ^ 32)
    (few : sizes.length ≤ 256) : sizes.sum < 2 ^ 40 := by
  have most := sizes.sum_le_card_nsmul (2 ^ 32 - 1) fun size member => by
    have := fits size member
    omega
  change sizes.sum ≤ sizes.length * (2 ^ 32 - 1) at most
  omega

theorem map_mod {sizes : List ℕ} (fits : ∀ size ∈ sizes, size < 2 ^ 32) :
    sizes.map (· % 2 ^ 32) = sizes := by
  refine (map_congr_left fun size member => ?_).trans sizes.map_id
  exact Nat.mod_eq_of_lt (fits size member)

variable {lacing : Lacing} {position finish : ℤ} {sizes : List ℕ}

theorem toNat_count (few : sizes.length ≤ 256) :
    (UInt8.ofNat (sizes.length - 1)).toNat = sizes.length - 1 := by
  rw [UInt8.toNat_ofNat']
  omega

theorem readLacing_of_slots {last : UInt8} {after : List UInt8} {size : ℕ}
    (other : lacing ≠ .fixed)
    (slots : readSlots lacing last.toNat after = some ⟨sizes, sizes.sum, true, rest⟩)
    (payload : position + ((last :: after).length - rest.length : ℕ) + (sizes ++ [size]).sum = finish)
    (fit : size < 2 ^ 32) :
    readLacing lacing (last :: after) position finish =
      some (last.toNat + 1, sizes ++ [size], rest) := by
  rw [sum_append, sum_singleton] at payload
  unfold readLacing
  rw [readByte]
  dsimp only [bind, Option.bind]
  rw [slots]
  dsimp only
  rw [if_neg (by omega)]
  have total : (finish - (position + ((last :: after).length - rest.length : ℕ))).toNat =
      sizes.sum + size := by omega
  cases lacing with
  | fixed => contradiction
  | xiph | ebml =>
    dsimp only
    rw [total, if_neg (by omega), if_pos rfl, Nat.add_sub_cancel_left, Nat.mod_eq_of_lt fit]

theorem readLacing_laced (laced : Laced lacing bytes position finish sizes rest)
    (fits : ∀ size ∈ sizes, size < 2 ^ 32) :
    readLacing lacing bytes position finish = some (sizes.length, sizes, rest) := by
  obtain ⟨few, ⟨code, codes, rfl⟩, payload⟩ := laced
  have count := toNat_count few
  have split {init : List ℕ} {last : ℕ} : (init ++ [last]).length - 1 = init.length := by simp
  cases codes with
  | xiph last codes =>
    rename_i init
    have slots : readSlots .xiph (UInt8.ofNat ((init ++ [last]).length - 1)).toNat (code ++ rest) =
        some ⟨init, init.sum, true, rest⟩ := by
      rw [count, split]
      refine (xiphSlots_append codes rest).trans ?_
      rw [map_mod fun size member => fits size (mem_append_left _ member)]
    rw [cons_append, readLacing_of_slots (by nofun) slots payload (fits last (by simp)), count]
    simp
  | ebmlOne last =>
    have slots : readSlots .ebml (UInt8.ofNat ([last].length - 1)).toNat ([] ++ rest) =
        some ⟨[], 0, true, rest⟩ := rfl
    exact readLacing_of_slots (by nofun) slots payload (fits last (by simp))
  | ebml last number most codes =>
    rename_i size length init first more
    have fit := fits size (by simp)
    have slots : readSlots .ebml (UInt8.ofNat ((size :: init ++ [last]).length - 1)).toNat
        (first ++ more ++ rest) = some ⟨size :: init, (size :: init).sum, true, rest⟩ := by
      have sum : (size :: init).sum < 2 ^ 40 := sum_lt
        (fun size member => fits size (mem_append_left _ member))
        (by simp at few ⊢; omega)
      rw [sum_cons] at sum
      rw [count, split, append_assoc]
      unfold readSlots readVint
      dsimp only [length_cons]
      rw [readNumber_append number]
      dsimp only [bind, Option.bind, Option.map]
      rw [decide_eq_false most, if_neg Bool.false_ne_true,
        ebmlSlots_append codes fit fun size member => fits size (by simp [member])]
      dsimp only
      rw [record_of_lt fit, sum_cons]
      dsimp only
      rw [Nat.add_mod_mod, Nat.mod_eq_of_lt (Nat.lt_trans sum (by decide))]
    rw [cons_append, readLacing_of_slots (by nofun) slots payload (fits last (by simp)), count]
    simp
  | fixed more size =>
    rw [length_replicate] at few
    rw [length_replicate, Nat.add_sub_cancel] at count
    have total : (List.replicate (more + 1) size).sum = size * (more + 1) := by
      rw [sum_replicate]
      exact Nat.mul_comm _ _
    rw [total] at payload
    have fit := fits size (by simp)
    rw [length_replicate, Nat.add_sub_cancel]
    unfold readLacing readSlots
    rw [cons_append, readByte, nil_append]
    dsimp only [bind, Option.bind]
    rw [singleton_append, length_replicate, Nat.add_sub_cancel] at payload
    have left : (finish -
        (position + ((UInt8.ofNat more :: rest).length - rest.length : ℕ))).toNat =
          size * (more + 1) := by omega
    rw [if_neg (by omega), left, count, Nat.mul_mod_left, Nat.mul_div_cancel _ (Nat.succ_pos _),
      Nat.mod_eq_of_lt fit]
    rfl

/-- What an accepted header encodes, from what its slots do. -/
theorem laced_of_slots {last : UInt8} {after : List UInt8} {slots : Slots} {count : ℕ}
    {table : List ℕ} (other : lacing ≠ .fixed)
    (reads : readSlots lacing last.toNat after = some slots)
    (codes : slots.valid = true → ∃ init code, (∀ size, SizeCode lacing (init ++ [size]) code) ∧
      init.length = last.toNat ∧ after = code ++ slots.rest ∧ slots.known = init.sum)
    (read : readLacing lacing (last :: after) position finish = some (count, table, rest))
    (accepted : count ≠ 0) :
    ∃ sizes, Laced lacing (last :: after) position finish sizes rest := by
  unfold readLacing at read
  rw [readByte] at read
  dsimp only [bind, Option.bind] at read
  rw [reads] at read
  dsimp only at read
  split at read
  · cases read
  rename_i inside
  cases lacing with
  | fixed => contradiction
  | xiph | ebml =>
    dsimp only at read
    split at read
    · cases read
      contradiction
    rename_i known
    cases read
    have valid : slots.valid = true := by
      by_contra refused
      rw [if_neg refused] at accepted
      contradiction
    obtain ⟨init, code, sized, length, rfl, sum⟩ := codes valid
    refine ⟨_, ?_, ⟨code, sized ((finish - (position + ((last :: (code ++ slots.rest)).length -
      slots.rest.length : ℕ))).toNat - slots.known), ?_⟩, ?_⟩
    · have := last.toNat_lt
      rw [length_append, length, length_singleton]
      omega
    · rw [length_append, length_singleton, Nat.add_sub_cancel, length,
        UInt8.ofNat_toNat, cons_append]
    · rw [sum_append, sum_singleton, ← sum]
      omega

theorem readEbml_some {last : ℕ} {slots : Slots} (few : last < 2 ^ 8)
    (reads : readSlots .ebml last bytes = some slots) (valid : slots.valid = true) :
    ∃ init code, (∀ size, SizeCode .ebml (init ++ [size]) code) ∧ init.length = last ∧
      bytes = code ++ slots.rest ∧ slots.known = init.sum := by
  cases last with
  | zero =>
    cases reads
    exact ⟨[], [], .ebmlOne, rfl, rfl, rfl⟩
  | succ more =>
    obtain ⟨⟨size, after⟩, first, reads⟩ := bind_eq_some_iff.mp reads
    obtain ⟨slots, others, eq⟩ := bind_eq_some_iff.mp reads
    cases eq
    obtain ⟨⟨length, value, ones, after'⟩, code_read, eq⟩ := map_eq_some_iff.mp first
    cases eq
    obtain ⟨fit, valid⟩ := record_valid.mp valid
    obtain ⟨code, rfl, number, ones_eq⟩ := readNumber_some code_read
    have most : value ≠ 2 ^ (7 * length) - 1 := by
      intro most
      rw [ones_eq, decide_eq_true most, if_pos rfl] at fit
      exact absurd fit (by decide)
    rw [ones_eq, decide_eq_false most, if_neg Bool.false_ne_true] at others fit ⊢
    obtain ⟨sizes, codes, deltas, rfl, rfl, fits, known⟩ := ebmlSlots_some fit others valid
    have sum := sum_lt fits (by omega)
    refine ⟨value :: sizes, _, fun last => .ebml last number most deltas, rfl,
      (append_assoc _ _ _).symm, ?_⟩
    rw [record_of_lt fit, known, sum_cons]
    dsimp only
    omega

theorem readLacing_some {count : ℕ} {table : List ℕ}
    (read : readLacing lacing bytes position finish = some (count, table, rest))
    (accepted : count ≠ 0) : ∃ sizes, Laced lacing bytes position finish sizes rest := by
  cases bytes with
  | nil => cases read
  | cons last after =>
    obtain ⟨slots, reads, given⟩ := bind_eq_some_iff.mp read
    cases lacing with
    | xiph =>
      refine laced_of_slots nofun reads (fun _ => ?_) read accepted
      obtain ⟨sizes, code, codes, length, eq, known⟩ := xiphSlots_some reads
      exact ⟨sizes, code, fun size => .xiph size codes, length, eq, known⟩
    | ebml =>
      refine laced_of_slots nofun reads (fun valid => ?_) read accepted
      exact readEbml_some last.toNat_lt reads valid
    | fixed =>
      obtain rfl : (⟨[], 0, true, after⟩ : Slots) = slots := Option.some.inj reads
      dsimp only at given
      split at given
      · cases given
      rename_i inside
      cases given
      have whole : (finish - (position + ((last :: rest).length - rest.length : ℕ))).toNat %
          (last.toNat + 1) = 0 := by
        by_contra part
        rw [if_pos part] at accepted
        contradiction
      obtain ⟨size, total⟩ := Nat.dvd_of_mod_eq_zero whole
      refine ⟨_, ?_, ⟨[], .fixed last.toNat size, ?_⟩, ?_⟩
      · have := last.toNat_lt
        rw [length_replicate]
        omega
      · rw [length_replicate, Nat.add_sub_cancel, UInt8.ofNat_toNat]
        rfl
      · rw [sum_replicate]
        change _ + (((last.toNat + 1) * size : ℕ) : ℤ) = finish
        omega

theorem xiphSlots_fits {count : ℕ} {slots : Slots} (read : xiphSlots count bytes = some slots) :
    ∀ size ∈ slots.sizes, size < 2 ^ 32 := by
  induction count generalizing bytes slots with
  | zero =>
    cases read
    nofun
  | succ count ih =>
    obtain ⟨⟨size, after⟩, -, read⟩ := bind_eq_some_iff.mp read
    obtain ⟨more, others, eq⟩ := bind_eq_some_iff.mp read
    cases eq
    exact forall_mem_cons.mpr ⟨Nat.mod_lt _ (by decide), ih others⟩

theorem ebmlSlots_fits {count before : ℕ} {slots : Slots}
    (read : ebmlSlots count before bytes = some slots) :
    ∀ size ∈ slots.sizes, size < 2 ^ 32 := by
  induction count generalizing bytes slots before with
  | zero =>
    cases read
    nofun
  | succ count ih =>
    obtain ⟨⟨delta, after⟩, -, read⟩ := bind_eq_some_iff.mp read
    obtain ⟨more, others, eq⟩ := bind_eq_some_iff.mp read
    cases eq
    exact forall_mem_cons.mpr ⟨Nat.mod_lt _ (by decide), ih others⟩

theorem readSlots_fits {last : ℕ} {slots : Slots}
    (reads : readSlots lacing last bytes = some slots) :
    ∀ size ∈ slots.sizes, size < 2 ^ 32 := by
  cases lacing with
  | xiph => exact xiphSlots_fits reads
  | ebml =>
    cases last with
    | zero =>
      cases reads
      nofun
    | succ more =>
      obtain ⟨⟨size, after⟩, -, reads⟩ := bind_eq_some_iff.mp reads
      obtain ⟨slots, others, eq⟩ := bind_eq_some_iff.mp reads
      cases eq
      exact forall_mem_cons.mpr ⟨Nat.mod_lt _ (by decide), ebmlSlots_fits others⟩
  | fixed =>
    cases reads
    nofun

theorem readLacing_fits {count : ℕ} {table : List ℕ}
    (read : readLacing lacing bytes position finish = some (count, table, rest)) :
    ∀ size ∈ table, size < 2 ^ 32 := by
  cases bytes with
  | nil => cases read
  | cons last after =>
    obtain ⟨slots, reads, given⟩ := bind_eq_some_iff.mp read
    have fits := readSlots_fits reads
    dsimp only at given
    split at given
    · cases given
    cases lacing with
    | fixed =>
      cases given
      intro size member
      rw [eq_of_mem_replicate member]
      exact Nat.mod_lt _ (by decide)
    | xiph | ebml =>
      dsimp only at given
      split at given
      · cases given
        exact fits
      · cases given
        refine forall_mem_append.mpr ⟨fits, ?_⟩
        rw [forall_mem_singleton]
        exact Nat.mod_lt _ (by decide)

/-- The block is read as it was laced: the sizes that its header encodes are given, and no
frame is given outside of it. -/
structure Decodes (lacing : Lacing) (bytes : List UInt8) (position finish : ℤ) : Prop where
  encoded : ∀ sizes rest, Laced lacing bytes position finish sizes rest →
    readLacing lacing bytes position finish = some (sizes.length, sizes, rest)
  refused : ∀ count sizes rest,
    readLacing lacing bytes position finish = some (count, sizes, rest) → count ≠ 0 →
      sizes.length = count ∧ Laced lacing bytes position finish sizes rest

/-- A block is read as it was laced if and only if each of its sizes fits in 32 bits. -/
theorem decodes_iff (lacing : Lacing) (bytes : List UInt8) (position finish : ℤ) :
    Decodes lacing bytes position finish ↔
      ∀ sizes rest, Laced lacing bytes position finish sizes rest →
        ∀ size ∈ sizes, size < 2 ^ 32 := by
  constructor
  · intro decodes sizes rest laced
    exact readLacing_fits (decodes.encoded sizes rest laced)
  · intro fits
    refine ⟨fun sizes rest laced => readLacing_laced laced (fits sizes rest laced),
      fun count table rest read accepted => ?_⟩
    obtain ⟨sizes, laced⟩ := readLacing_some read accepted
    rw [readLacing_laced laced (fits sizes rest laced)] at read
    cases read
    exact ⟨rfl, laced⟩

/-- The only frame of a block with a payload of 4 GiB is given no bytes. -/
theorem payload_truncated : ¬ ∀ lacing bytes position finish,
    Decodes lacing bytes position finish := by
  intro decodes
  have laced : Laced .xiph (0 :: List.replicate (2 ^ 32) 0) 0 (1 + 2 ^ 32) [2 ^ 32]
      (List.replicate (2 ^ 32) 0) := by
    refine ⟨by decide, ⟨[], .xiph (2 ^ 32) .nil, rfl⟩, ?_⟩
    rw [length_cons, Nat.add_sub_cancel_left]
    rfl
  have read := (decodes _ _ _ _).encoded _ _ laced
  exact absurd (readLacing_fits read (2 ^ 32) mem_cons_self) (Nat.lt_irrefl _)

end EspDevkit.Media.Mkv
