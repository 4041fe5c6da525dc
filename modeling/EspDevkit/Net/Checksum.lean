import Mathlib.Algebra.BigOperators.Group.List.Basic
import Mathlib.Data.Nat.ModEq
import Mathlib.Data.Nat.Notation
import Mathlib.Tactic.Ring

/-!
# The internet checksum

The ones' complement sum of 16-bit words, taken a native word of 32 bits at a time where
the bytes are aligned.
-/

namespace EspDevkit.Net

open List Option

structure Quad where
  a : UInt8
  b : UInt8
  c : UInt8
  d : UInt8

def Quad.bytes (q : Quad) : List UInt8 := [q.a, q.b, q.c, q.d]

def Quad.word (little : Bool) (q : Quad) : ℕ :=
  if little then q.a.toNat + q.b.toNat * 2 ^ 8 + q.c.toNat * 2 ^ 16 + q.d.toNat * 2 ^ 24
  else q.a.toNat * 2 ^ 24 + q.b.toNat * 2 ^ 16 + q.c.toNat * 2 ^ 8 + q.d.toNat

/-- What `align_to` makes of a slice. -/
structure Split where
  head : List UInt8
  words : List Quad
  tail : List UInt8

def Split.bytes (split : Split) : List UInt8 :=
  split.head ++ split.words.flatMap Quad.bytes ++ split.tail

/-- An addition of `u32`, which may overflow. -/
def add32 (a b : ℕ) : Option ℕ := if a + b < 2 ^ 32 then some (a + b) else none

theorem fold16_lt {acc : ℕ} (large : 0xffff < acc) : (acc &&& 0xffff) + (acc >>> 16) < acc := by
  have low : acc &&& 0xffff = acc % 2 ^ 16 := Nat.and_two_pow_sub_one_eq_mod acc 16
  rw [low, Nat.shiftRight_eq_div_pow]
  omega

theorem fold_lt {acc : ℕ} (large : 0xffffffff < acc) :
    (acc &&& 0xffffffff) + (acc >>> 32) < acc := by
  have low : acc &&& 0xffffffff = acc % 2 ^ 32 := Nat.and_two_pow_sub_one_eq_mod acc 32
  rw [low, Nat.shiftRight_eq_div_pow]
  omega

/-- `fold`, of a `u64`. -/
def fold (acc : ℕ) : ℕ :=
  if _large : 0xffffffff < acc then fold ((acc &&& 0xffffffff) + (acc >>> 32)) else acc
termination_by acc
decreasing_by exact fold_lt _large

def fold16 (acc : ℕ) : Option ℕ :=
  if _large : 0xffff < acc then
    if (acc &&& 0xffff) + (acc >>> 16) < 2 ^ 32 then fold16 ((acc &&& 0xffff) + (acc >>> 16))
    else none
  else some acc
termination_by acc
decreasing_by exact fold16_lt _large

/-- `u16::swap_bytes`. -/
def swapBytes (v : ℕ) : ℕ := v % 2 ^ 8 * 2 ^ 8 + v / 2 ^ 8

def chunkWords : ℕ := 16384

def sumChunk (little : Bool) (part : ℕ) : List Quad → Option ℕ
  | [] => some part
  | q :: chunk => do
    let w := q.word little
    let halves ← add32 (w &&& 0xffff) (w >>> 16)
    let part ← add32 part halves
    sumChunk little part chunk

def sumWords (little : Bool) (native : ℕ) (words : List Quad) : Option ℕ :=
  if words.isEmpty then some native
  else do
    let part ← sumChunk little 0 (words.take chunkWords)
    let native ← fold16 native
    let part ← fold16 part
    let native ← add32 native part
    sumWords little native (words.drop chunkWords)
termination_by words.length
decreasing_by
  rename_i some
  cases words with
  | nil => exact absurd rfl some
  | cons q words =>
    simp only [length_drop, length_cons, chunkWords]
    omega

/-- The closure `add_bytes`: bytes at even places count 256 times. -/
def addBytes (place : ℕ) : List UInt8 → ℕ
  | [] => 0
  | b :: bytes => (if place % 2 = 0 then b.toNat <<< 8 else b.toNat) + addBytes (place + 1) bytes

/-- The total of `sum` before it is folded, a `u64`. -/
def total (little : Bool) (split : Split) (acc : ℕ) : Option ℕ := do
  let native ← sumWords little 0 split.words
  let native ← fold16 native
  let swapped := if little then swapBytes native else native
  let bulk := if split.head.length % 2 = 0 then swapped else swapBytes swapped
  return acc + bulk + addBytes 0 split.head +
    addBytes (split.head.length + split.words.length * 4) split.tail

def sum (little : Bool) (split : Split) (acc : ℕ) : Option ℕ := do
  let total ← total little split acc
  return fold total

def checksum (acc : ℕ) : Option ℕ := do
  let acc ← fold16 acc
  return 0xffff - acc

/-- The ones' complement sum of 16 bits: a carry is added at the other end. -/
def onesAdd (a b : ℕ) : ℕ := if a + b < 2 ^ 16 then a + b else a + b - 2 ^ 16 + 1

/-- Bytes as big-endian words; an odd one is padded. -/
def words16 : List UInt8 → List ℕ
  | a :: b :: bytes => (a.toNat * 2 ^ 8 + b.toNat) :: words16 bytes
  | [a] => [a.toNat * 2 ^ 8]
  | [] => []

def plainChecksum (bytes : List UInt8) (acc : ℕ) : ℕ :=
  0xffff - (words16 bytes).foldl onesAdd (onesAdd (acc / 2 ^ 16) (acc % 2 ^ 16))

/-- What is left of a number after all carries are added at the other end. -/
def folded (n : ℕ) : ℕ := if n = 0 then 0 else (n - 1) % 0xffff + 1

theorem folded_of_le {n : ℕ} (small : n ≤ 0xffff) : folded n = n := by
  unfold folded
  split
  · next zero => exact zero.symm
  · omega

theorem folded_eq_iff {a b : ℕ} :
    folded a = folded b ↔ (a = 0 ↔ b = 0) ∧ a % 0xffff = b % 0xffff := by
  cases a with
  | zero => cases b <;> simp [folded]
  | succ a =>
    cases b with
    | zero => simp [folded]
    | succ b =>
      rw [folded, folded, if_neg (Nat.succ_ne_zero a), if_neg (Nat.succ_ne_zero b),
        Nat.add_sub_cancel, Nat.add_sub_cancel, Nat.add_right_cancel_iff]
      constructor
      · intro same
        exact ⟨iff_of_false (Nat.succ_ne_zero a) (Nat.succ_ne_zero b), Nat.ModEq.add_right 1 same⟩
      · rintro ⟨-, same⟩
        exact Nat.ModEq.add_right_cancel' 1 same

theorem folded_folded (n : ℕ) : folded (folded n) = folded n := by
  apply folded_of_le
  unfold folded
  split <;> omega

theorem folded_add {a b a' b' : ℕ} (first : folded a = folded a') (second : folded b = folded b') :
    folded (a + b) = folded (a' + b') := by
  rw [folded_eq_iff] at *
  refine ⟨?_, Nat.ModEq.add first.2 second.2⟩
  rw [Nat.add_eq_zero_iff, Nat.add_eq_zero_iff, first.1, second.1]

theorem folded_mul {a a' : ℕ} (same : folded a = folded a') (factor : ℕ) :
    folded (factor * a) = folded (factor * a') := by
  rw [folded_eq_iff] at *
  refine ⟨?_, Nat.ModEq.mul_left factor same.2⟩
  rw [Nat.mul_eq_zero, Nat.mul_eq_zero, same.1]

theorem folded_carry (carry rest : ℕ) : folded (carry * 2 ^ 16 + rest) = folded (carry + rest) := by
  rw [folded_eq_iff]
  omega

theorem fold16_eq {acc : ℕ} (fits : acc < 2 ^ 32) : fold16 acc = some (folded acc) := by
  induction acc using Nat.strong_induction_on with
  | _ acc ih =>
    unfold fold16
    split
    · next large =>
        have less := fold16_lt large
        have low : acc &&& 0xffff = acc % 2 ^ 16 := Nat.and_two_pow_sub_one_eq_mod acc 16
        rw [if_pos (by omega), ih _ less (by omega), low, Nat.shiftRight_eq_div_pow]
        have parts : acc = acc / 2 ^ 16 * 2 ^ 16 + acc % 2 ^ 16 := by omega
        conv_rhs => rw [parts, folded_carry]
        rw [Nat.add_comm]
    · next small => rw [folded_of_le (by omega)]

theorem folded_fold (acc : ℕ) : folded (fold acc) = folded acc ∧ fold acc < 2 ^ 32 := by
  induction acc using Nat.strong_induction_on with
  | _ acc ih =>
    unfold fold
    split
    · next large =>
        have less := fold_lt large
        obtain ⟨same, fits⟩ := ih _ less
        refine ⟨?_, fits⟩
        have low : acc &&& 0xffffffff = acc % 2 ^ 32 := Nat.and_two_pow_sub_one_eq_mod acc 32
        rw [same, low, Nat.shiftRight_eq_div_pow, folded_eq_iff]
        omega
    · next small => exact ⟨rfl, by omega⟩

theorem folded_swapBytes {v : ℕ} (fits : v < 2 ^ 16) :
    folded (swapBytes v) = folded (2 ^ 8 * v) ∧ swapBytes v < 2 ^ 16 := by
  unfold swapBytes
  rw [folded_eq_iff]
  omega

theorem onesAdd_eq {a b : ℕ} (first : a < 2 ^ 16) (second : b < 2 ^ 16) :
    onesAdd a b = folded (a + b) := by
  unfold onesAdd folded
  split <;> split <;> omega

theorem folded_lt (n : ℕ) : folded n < 2 ^ 16 := by
  unfold folded
  split <;> omega

theorem addBytes_append (place : ℕ) (first rest : List UInt8) :
    addBytes place (first ++ rest) =
      addBytes place first + addBytes (place + first.length) rest := by
  induction first generalizing place with
  | nil => simp [addBytes]
  | cons b first ih =>
    rw [cons_append, addBytes, addBytes, ih, length_cons]
    rw [show place + (first.length + 1) = place + 1 + first.length by omega]
    ring

theorem addBytes_mod (place : ℕ) (bytes : List UInt8) :
    addBytes place bytes = addBytes (place % 2) bytes := by
  induction bytes generalizing place with
  | nil => rfl
  | cons b bytes ih =>
    rw [addBytes, addBytes, ih (place + 1), ih (place % 2 + 1), Nat.mod_mod, Nat.mod_add_mod]

theorem folded_addBytes_succ (place : ℕ) (bytes : List UInt8) :
    folded (addBytes (place + 1) bytes) = folded (2 ^ 8 * addBytes place bytes) := by
  induction bytes generalizing place with
  | nil => rfl
  | cons b bytes ih =>
    rw [addBytes, addBytes, Nat.mul_add]
    refine folded_add ?_ (ih (place + 1))
    rw [Nat.shiftLeft_eq, folded_eq_iff]
    rcases Nat.mod_two_eq_zero_or_one place with even | odd
    · rw [if_neg (by omega), if_pos even]
      omega
    · rw [if_pos (by omega), if_neg (by omega)]
      omega

theorem folded_addBytes (place : ℕ) (bytes : List UInt8) :
    folded (addBytes place bytes) =
      folded (if place % 2 = 0 then addBytes 0 bytes else 2 ^ 8 * addBytes 0 bytes) := by
  rw [addBytes_mod]
  split
  · next even => rw [even]
  · next odd =>
      rw [show place % 2 = 0 + 1 by omega]
      exact folded_addBytes_succ 0 bytes

variable (little : Bool)

def Quad.halves (little : Bool) (q : Quad) : ℕ :=
  (q.word little &&& 0xffff) + (q.word little >>> 16)

theorem Quad.halves_eq (q : Quad) : q.halves little =
    if little then q.a.toNat + q.b.toNat * 2 ^ 8 + (q.c.toNat + q.d.toNat * 2 ^ 8)
    else q.c.toNat * 2 ^ 8 + q.d.toNat + (q.a.toNat * 2 ^ 8 + q.b.toNat) := by
  have low : q.word little &&& 0xffff = q.word little % 2 ^ 16 :=
    Nat.and_two_pow_sub_one_eq_mod _ 16
  have a := q.a.toNat_lt
  have b := q.b.toNat_lt
  have c := q.c.toNat_lt
  have d := q.d.toNat_lt
  unfold halves
  rw [low, Nat.shiftRight_eq_div_pow]
  unfold word
  split <;> omega

theorem Quad.halves_le (q : Quad) : q.halves little ≤ 2 * 0xffff := by
  have a := q.a.toNat_lt
  have b := q.b.toNat_lt
  have c := q.c.toNat_lt
  have d := q.d.toNat_lt
  rw [halves_eq little]
  split <;> omega

def halvesSum (little : Bool) (words : List Quad) : ℕ := (words.map (Quad.halves little)).sum

theorem halvesSum_cons (q : Quad) (words : List Quad) :
    halvesSum little (q :: words) = q.halves little + halvesSum little words := by
  simp [halvesSum]

theorem halvesSum_append (first rest : List Quad) :
    halvesSum little (first ++ rest) = halvesSum little first + halvesSum little rest := by
  simp [halvesSum]

theorem halvesSum_le (words : List Quad) :
    halvesSum little words ≤ words.length * (2 * 0xffff) := by
  induction words with
  | nil => simp [halvesSum]
  | cons q words ih =>
    have := q.halves_le little
    rw [halvesSum_cons little, length_cons]
    omega

theorem sumChunk_eq {part : ℕ} {chunk : List Quad}
    (fits : part + chunk.length * (2 * 0xffff) < 2 ^ 32) :
    sumChunk little part chunk = some (part + halvesSum little chunk) := by
  induction chunk generalizing part with
  | nil => rfl
  | cons q chunk ih =>
    have small := q.halves_le little
    rw [length_cons] at fits
    have halves : add32 (q.word little &&& 0xffff) (q.word little >>> 16) =
        some (q.halves little) := if_pos (by unfold Quad.halves at small; omega)
    have added : add32 part (q.halves little) = some (part + q.halves little) :=
      if_pos (by omega)
    rw [sumChunk, halvesSum_cons little, ← Nat.add_assoc]
    simp only [halves, added, bind_eq_bind, bind_some]
    exact ih (by omega)

theorem sumWords_eq {native : ℕ} {words : List Quad} (small : native ≤ 2 * 0xffff) :
    ∃ n, sumWords little native words = some n ∧ n ≤ 2 * 0xffff ∧
      folded n = folded (native + halvesSum little words) := by
  induction length : words.length using Nat.strong_induction_on generalizing native words with
  | _ length' ih =>
    unfold sumWords
    split
    · next none =>
        rw [isEmpty_iff.mp none]
        exact ⟨native, rfl, small, rfl⟩
    · next some_ =>
        have chunk : (words.take chunkWords).length ≤ 16384 := length_take_le _ _
        have bound := halvesSum_le little (words.take chunkWords)
        have part : sumChunk little 0 (words.take chunkWords) =
            some (0 + halvesSum little (words.take chunkWords)) := sumChunk_eq little (by omega)
        have nativeFolded : fold16 native = some (folded native) := fold16_eq (by omega)
        have partFolded : fold16 (0 + halvesSum little (words.take chunkWords)) =
            some (folded (0 + halvesSum little (words.take chunkWords))) := fold16_eq (by omega)
        have nativeLt := folded_lt native
        have partLt := folded_lt (0 + halvesSum little (words.take chunkWords))
        have added : add32 (folded native)
            (folded (0 + halvesSum little (words.take chunkWords))) = some (folded native +
              folded (0 + halvesSum little (words.take chunkWords))) := if_pos (by omega)
        simp only [part, nativeFolded, partFolded, added, bind_eq_bind, bind_some]
        have shorter : (words.drop chunkWords).length < length' := by
          cases words with
          | nil => exact absurd rfl some_
          | cons q words =>
            rw [← length]
            simp only [length_drop, length_cons, chunkWords]
            omega
        obtain ⟨n, result, le, same⟩ := @ih _ shorter (folded native +
          folded (0 + halvesSum little (words.take chunkWords))) _ (by omega) rfl
        refine ⟨n, result, le, same.trans ?_⟩
        conv_rhs => rw [← take_append_drop chunkWords words, halvesSum_append little,
          ← Nat.add_assoc]
        refine folded_add (folded_add (folded_folded native) ?_) rfl
        rw [folded_folded, Nat.zero_add]

theorem folded_halvesSum (words : List Quad) :
    folded (if little then 2 ^ 8 * halvesSum little words else halvesSum little words) =
      folded (addBytes 0 (words.flatMap Quad.bytes)) := by
  induction words with
  | nil => cases little <;> rfl
  | cons q words ih =>
    have a := q.a.toNat_lt
    have b := q.b.toNat_lt
    have c := q.c.toNat_lt
    have d := q.d.toNat_lt
    have here : folded (if little then 2 ^ 8 * q.halves little else q.halves little) =
        folded (addBytes 0 q.bytes) := by
      rw [q.halves_eq little, folded_eq_iff]
      simp only [Quad.bytes, addBytes, Nat.shiftLeft_eq]
      cases little
      · simp
        omega
      · simp
        omega
    have rest : addBytes (0 + q.bytes.length) (words.flatMap Quad.bytes) =
        addBytes 0 (words.flatMap Quad.bytes) := addBytes_mod 4 _
    rw [flatMap_cons, addBytes_append, rest, halvesSum_cons little]
    rw [← folded_add here ih]
    cases little
    · rfl
    · simp only [if_true, Nat.mul_add]

theorem foldl_onesAdd {start : ℕ} {words : List ℕ} (first : start < 2 ^ 16)
    (small : ∀ w ∈ words, w < 2 ^ 16) : words.foldl onesAdd start = folded (start + words.sum) := by
  induction words generalizing start with
  | nil => exact (folded_of_le (by simp; omega)).symm
  | cons w words ih =>
    have added := onesAdd_eq first (small w mem_cons_self)
    rw [foldl_cons, added,
      ih (folded_lt _) (fun v mem => small v (mem_cons_of_mem _ mem)),
      sum_cons, ← Nat.add_assoc]
    exact folded_add (folded_folded _) rfl

theorem words16_lt (bytes : List UInt8) : ∀ w ∈ words16 bytes, w < 2 ^ 16 := by
  fun_induction words16 bytes with
  | case1 a b bytes ih =>
    intro w mem
    have high := a.toNat_lt
    have low := b.toNat_lt
    rcases mem_cons.mp mem with rfl | mem
    · omega
    · exact ih w mem
  | case2 a =>
    intro w mem
    have high := a.toNat_lt
    rw [mem_singleton.mp mem]
    omega
  | case3 => nofun

theorem words16_sum (bytes : List UInt8) : (words16 bytes).sum = addBytes 0 bytes := by
  fun_induction words16 bytes with
  | case1 a b bytes ih =>
    rw [sum_cons, ih, addBytes, addBytes, addBytes_mod (0 + 1 + 1)]
    simp [Nat.shiftLeft_eq]
    ring
  | case2 a => simp [addBytes, Nat.shiftLeft_eq]
  | case3 => rfl

theorem plainChecksum_eq (bytes : List UInt8) {acc : ℕ} (fits : acc < 2 ^ 31) :
    plainChecksum bytes acc = 0xffff - folded (acc + addBytes 0 bytes) := by
  unfold plainChecksum
  have high : acc / 2 ^ 16 < 2 ^ 16 := by omega
  have low : acc % 2 ^ 16 < 2 ^ 16 := by omega
  rw [onesAdd_eq high low, foldl_onesAdd (folded_lt _) (words16_lt bytes), words16_sum]
  congr 1
  refine folded_add ?_ rfl
  rw [folded_folded, ← folded_carry]
  congr 1
  omega

theorem addBytes_le (place : ℕ) (bytes : List UInt8) :
    addBytes place bytes ≤ bytes.length * 0xff00 := by
  induction bytes generalizing place with
  | nil => exact Nat.le_refl _
  | cons b bytes ih =>
    have small := b.toNat_lt
    have rest := ih (place + 1)
    rw [addBytes, length_cons, Nat.shiftLeft_eq]
    split <;> omega

theorem folded_bulk {native : ℕ} (fits : native < 2 ^ 16) (split : Split)
    (same : folded native = folded (halvesSum little split.words)) :
    folded (if split.head.length % 2 = 0 then (if little then swapBytes native else native)
        else swapBytes (if little then swapBytes native else native)) =
      folded (addBytes split.head.length (split.words.flatMap Quad.bytes)) ∧
    (if split.head.length % 2 = 0 then (if little then swapBytes native else native)
        else swapBytes (if little then swapBytes native else native)) < 2 ^ 16 := by
  have swapped : folded (if little then swapBytes native else native) =
      folded (addBytes 0 (split.words.flatMap Quad.bytes)) ∧
        (if little then swapBytes native else native) < 2 ^ 16 := by
    rw [← folded_halvesSum little]
    cases little
    · exact ⟨same, fits⟩
    · obtain ⟨times, lt⟩ := folded_swapBytes fits
      exact ⟨times.trans (folded_mul same _), lt⟩
  generalize (if little then swapBytes native else native) = swapped' at *
  rw [folded_addBytes]
  split
  · exact swapped
  · obtain ⟨times, lt⟩ := folded_swapBytes swapped.2
    exact ⟨times.trans (folded_mul swapped.1 _), lt⟩

theorem total_eq (split : Split) (acc : ℕ) :
    ∃ n, total little split acc = some n ∧ folded n = folded (acc + addBytes 0 split.bytes) ∧
      n ≤ acc + 0xffff + (split.head.length + split.tail.length) * 0xff00 := by
  obtain ⟨native, words, small, same⟩ := @sumWords_eq little 0 split.words (by omega)
  have again : fold16 native = some (folded native) := fold16_eq (by omega)
  obtain ⟨bulk, fits⟩ := folded_bulk little (folded_lt native) split
    ((folded_folded native).trans (same.trans (by rw [Nat.zero_add])))
  have head := addBytes_le 0 split.head
  have tail := addBytes_le (split.head.length + split.words.length * 4) split.tail
  refine ⟨_, by simp only [total, words, again, bind_eq_bind, bind_some]; rfl, ?_, ?_⟩
  · have length : (split.words.flatMap Quad.bytes).length = split.words.length * 4 := by
      rw [length_flatMap]
      simp [Quad.bytes]
    unfold Split.bytes
    rw [addBytes_append, addBytes_append, length_append, length, Nat.zero_add, Nat.zero_add]
    have parts := folded_add (a := acc) rfl bulk
    have counted := folded_add (folded_add parts (b := addBytes 0 split.head) rfl)
      (b := addBytes (split.head.length + split.words.length * 4) split.tail) rfl
    refine counted.trans (congrArg folded ?_)
    omega
  · rw [Nat.add_mul]
    omega

/-- The checksum by words is that of RFC 1071, one big-endian word at a time: no addition of
`u32` overflows, and that of `u64` has room for all that fits into memory. -/
theorem checksum_eq_plain (split : Split) {acc : ℕ} (fits : acc < 2 ^ 31) :
    (do checksum (← sum little split acc)) = some (plainChecksum split.bytes acc) ∧
      ∃ n, total little split acc = some n ∧
        (split.head.length + split.tail.length < 2 ^ 47 → n < 2 ^ 64) := by
  obtain ⟨n, result, same, le⟩ := total_eq little split acc
  constructor
  · obtain ⟨again, narrow⟩ := folded_fold n
    have last : fold16 (fold n) = some (folded (fold n)) := fold16_eq narrow
    simp only [sum, result, checksum, last, Option.bind_eq_bind, Option.bind_some, Option.pure_def]
    rw [plainChecksum_eq split.bytes fits, again, same]
  · refine ⟨n, result, fun short => ?_⟩
    omega

theorem checksum_eq_plain_odd :
    (do checksum (← sum true ⟨[0x45], [⟨0x00, 0x00, 0x73, 0x00⟩], [0x00, 0x40]⟩ 7)) =
        some (plainChecksum [0x45, 0x00, 0x00, 0x73, 0x00, 0x00, 0x40] 7) ∧
      ∃ n, total true ⟨[0x45], [⟨0x00, 0x00, 0x73, 0x00⟩], [0x00, 0x40]⟩ 7 = some n ∧
        (1 + 2 < 2 ^ 47 → n < 2 ^ 64) :=
  checksum_eq_plain true ⟨[0x45], [⟨0x00, 0x00, 0x73, 0x00⟩], [0x00, 0x40]⟩ (by decide)

end EspDevkit.Net
