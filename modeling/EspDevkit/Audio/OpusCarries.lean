import EspDevkit.Audio.OpusEncoder
import Mathlib.Algebra.Order.Group.Nat

/-!
# Carries of the range encoder

The bytes written, the ones held back and `val` are the whole lower end of the exact coder's span.
-/

namespace EspDevkit.Audio.Opus

open RangeCode BigEndian List

namespace Ec

variable {ec next : Ec} {val rng low : ℕ}

/-- All bytes so far, as they are when no carry comes. -/
def digits (ec : Ec) : List UInt8 := ec.front ++ ec.rem.toList ++ List.replicate ec.ext 255

def written (ec : Ec) : ℕ := extend 0 ec.digits

def ceiling (ec : Ec) : ℕ :=
  match ec.rem with
  | none => 256 ^ ec.ext
  | some _ => (extend 0 ec.front + 1) * 256 ^ (ec.ext + 1)

/-- The encoder, with this `val` and `rng`, is at this lower end. -/
structure Carries (ec : Ec) (val rng low : ℕ) : Prop where
  eq : low = ec.written * 2 ^ 31 + val
  room : low + rng ≤ ec.ceiling * 2 ^ 31
  started : ec.rem = none → ec.front = []
  inside : ec.front.length + ec.back.length ≤ ec.storage

theorem writeBytes_eq {list : List UInt8} (wrote : writeBytes list ec = some next)
    (inside : ec.front.length + ec.back.length ≤ ec.storage) :
    next = { ec with front := ec.front ++ list } ∧
      next.front.length + next.back.length ≤ next.storage := by
  induction list generalizing ec with
  | nil =>
    cases wrote
    exact ⟨by rw [append_nil], inside⟩
  | cons b rest ih =>
    rw [writeBytes, writeByte] at wrote
    split at wrote
    next => cases wrote
    next room =>
      obtain ⟨eq, inside⟩ := @ih { ec with front := ec.front ++ [b] } wrote
        (by dsimp only; rw [length_append, length_singleton]; omega)
      exact ⟨by rw [eq, append_assoc, singleton_append], inside⟩

theorem extend_replicate_zero (value count : ℕ) :
    extend value (List.replicate count 0) = value * 256 ^ count := by
  induction count generalizing value with
  | zero => simp
  | succ count ih =>
    rw [replicate_succ, extend_cons, ih, pow_succ']
    simp [Nat.mul_assoc]

theorem extend_replicate_max (value count : ℕ) :
    extend value (List.replicate count 255) + 1 = (value + 1) * 256 ^ count := by
  induction count generalizing value with
  | zero => simp
  | succ count ih =>
    have last : (255 : UInt8).toNat = 255 := rfl
    rw [replicate_succ, extend_cons, ih, pow_succ', last]
    ring

theorem written_succ (ec : Ec) :
    ec.written + 1 = (extend 0 (ec.front ++ ec.rem.toList) + 1) * 256 ^ ec.ext := by
  rw [written, digits, extend_append, extend_replicate_max]

theorem length_heldBack (ec : Ec) (carry : ℕ) :
    (ec.front ++ ec.heldBack carry).length = ec.digits.length := by
  simp [heldBack, digits]

theorem heldBack_zero (ec : Ec) : ec.front ++ ec.heldBack 0 = ec.digits := by
  have same : (fun rem : UInt8 => UInt8.ofNat (rem.toNat + 0)) = id := funext fun rem => by simp
  rw [heldBack, same, map_id, digits, append_assoc]
  rfl

theorem extend_heldBack_one {rem : UInt8} (held : ec.rem = some rem) (small : rem.toNat < 255) :
    extend 0 (ec.front ++ ec.heldBack 1) = ec.written + 1 := by
  have more : (UInt8.ofNat (rem.toNat + 1)).toNat = rem.toNat + 1 := by
    rw [UInt8.toNat_ofNat']
    omega
  rw [written_succ, heldBack, held, extend_append, extend_append, extend_append]
  simp only [Option.toList_some, map_cons, map_nil, extend_cons, extend_nil, more]
  rw [show UInt8.ofNat (255 + 1) = 0 from rfl, extend_replicate_zero, Nat.add_assoc]

theorem Carries.small (carries : ec.Carries val rng low) (carry : 2 ^ 31 ≤ val)
    (some_ : 0 < rng) : ∃ rem, ec.rem = some rem ∧ rem.toNat < 255 := by
  have room := carries.room
  have succ := ec.written_succ
  rw [carries.eq] at room
  have less : ec.written + 1 < ec.ceiling := by omega
  rw [succ] at less
  unfold ceiling at less
  cases held : ec.rem with
  | none =>
    rw [held, carries.started held] at less
    simp at less
  | some rem =>
    rw [held, pow_succ', ← Nat.mul_assoc, Option.toList_some, extend_append, extend_cons,
      extend_nil] at less
    have less := Nat.lt_of_mul_lt_mul_right less
    exact ⟨rem, rfl, by omega⟩

structure SameEnd (ec next : Ec) : Prop where
  storage : next.storage = ec.storage
  back : next.back = ec.back
  endWindow : next.endWindow = ec.endWindow
  nendBits : next.nendBits = ec.nendBits

theorem Carries.carryOut (carries : ec.Carries val rng low) (some_ : 0 < rng)
    (bounded : val + rng ≤ 2 ^ 32)
    (below : val >>> 23 ≠ 255 → val + rng ≤ (val / 2 ^ 31 + 1) * 2 ^ 31)
    (out : ec.carryOut (val >>> 23) = some next) :
    next.Carries (val <<< 8 % Opus.top) (rng <<< 8) (low * 256) ∧
      next.digits.length = ec.digits.length + 1 ∧ ec.SameEnd next := by
  have low_ := carries.eq
  have room := carries.room
  have carry : val >>> 23 >>> 8 = val / 2 ^ 31 := by
    rw [← Nat.shiftRight_add, Nat.shiftRight_eq_div_pow]
  have c : val >>> 23 = val / 2 ^ 23 := Nat.shiftRight_eq_div_pow ..
  unfold Ec.carryOut at out
  split at out
  next full =>
    cases out
    have more : ({ ec with ext := ec.ext + 1 } : Ec).digits = ec.digits ++ [255] := by
      simp only [digits, replicate_succ', append_assoc]
    have written_ : ({ ec with ext := ec.ext + 1 } : Ec).written = ec.written * 256 + 255 := by
      rw [written, more, extend_append]
      simp [written]
    have ceiling_ : ({ ec with ext := ec.ext + 1 } : Ec).ceiling = ec.ceiling * 256 := by
      unfold ceiling
      cases ec.rem with
      | none => exact pow_succ 256 ec.ext
      | some rem => rw [pow_succ 256 (ec.ext + 1), Nat.mul_assoc]
    refine ⟨⟨?_, ?_, carries.started, carries.inside⟩, by rw [more, length_append]; rfl,
      rfl, rfl, rfl, rfl⟩
    · rw [written_, Opus.top, Nat.shiftLeft_eq, Nat.shiftLeft_eq]
      omega
    · rw [ceiling_, Nat.shiftLeft_eq]
      omega
  next other =>
    rw [carry] at out
    obtain ⟨wrote, wroteEq, rfl⟩ := Option.map_eq_some_iff.mp out
    obtain ⟨rfl, inside⟩ := writeBytes_eq wroteEq carries.inside
    have least : extend 0 (ec.front ++ ec.heldBack (val / 2 ^ 31)) = ec.written + val / 2 ^ 31 := by
      rcases Nat.lt_or_ge val (2 ^ 31) with less | more
      · rw [Nat.div_eq_of_lt less, heldBack_zero, written, Nat.add_zero]
      · obtain ⟨rem, held, small⟩ := carries.small more some_
        rw [show val / 2 ^ 31 = 1 by omega]
        exact extend_heldBack_one held small
    have last : (UInt8.ofNat (val >>> 23)).toNat = val / 2 ^ 23 % 256 := by
      rw [UInt8.toNat_ofNat', c]
    refine ⟨⟨?_, ?_, (by rintro ⟨⟩), inside⟩, ?_, rfl, rfl, rfl, rfl⟩
    · rw [written, digits]
      simp only [Option.toList_some, replicate_zero, append_nil]
      rw [extend_append, least, extend_cons, extend_nil, last, Opus.top, Nat.shiftLeft_eq,
        Nat.shiftLeft_eq]
      omega
    · simp only [ceiling, Nat.zero_add, pow_one, least]
      have fits := below other
      rw [Nat.shiftLeft_eq]
      omega
    · rw [digits, length_append, length_append, length_heldBack]
      rfl

theorem SameEnd.trans {last : Ec} (one : ec.SameEnd next) (two : next.SameEnd last) :
    ec.SameEnd last :=
  ⟨two.storage.trans one.storage, two.back.trans one.back, two.endWindow.trans one.endWindow,
    two.nendBits.trans one.nendBits⟩

/-- The encoder between two symbols. -/
structure Steady (ec : Ec) (low : ℕ) : Prop where
  carries : ec.Carries ec.val ec.rng low
  wide : bot < ec.rng
  narrow : ec.rng ≤ Opus.top
  bounded : ec.val + ec.rng < 2 ^ 32

theorem shift_carries (carries : ec.Carries ec.val ec.rng low) (some_ : 0 < ec.rng)
    (small : ec.rng ≤ bot) (bounded : ec.val + ec.rng ≤ 2 ^ 32) (out : ec.shift = some next) :
    next.Carries next.val next.rng (low * 256) ∧ next.digits.length = ec.digits.length + 1 ∧
      next.rng = ec.rng * 256 ∧ next.val < Opus.top ∧ ec.SameEnd next := by
  obtain ⟨wrote, wroteEq, rfl⟩ := Option.map_eq_some_iff.mp out
  have c : ec.val >>> 23 = ec.val / 2 ^ 23 := Nat.shiftRight_eq_div_pow ..
  obtain ⟨there, more, same⟩ := carries.carryOut some_ bounded
    (fun other => by rw [c] at other; simp only [bot] at small; omega) wroteEq
  exact ⟨⟨there.eq, there.room, there.started, there.inside⟩, more, Nat.shiftLeft_eq ..,
    Nat.mod_lt _ (by decide), same.storage, same.back, same.endWindow, same.nendBits⟩

theorem normalizeLoop_steady (fuel : ℕ) (carries : ec.Carries ec.val ec.rng low)
    (some_ : 0 < ec.rng) (narrow : ec.rng ≤ Opus.top) (bounded : ec.val + ec.rng < 2 ^ 32)
    (out : normalizeLoop fuel ec = some next) :
    ∃ k, next.Steady (low * 256 ^ k) ∧ next.digits.length = ec.digits.length + k ∧
      next.rng = ec.rng * 256 ^ k ∧ ec.SameEnd next := by
  induction fuel generalizing ec low with
  | zero =>
    rw [normalizeLoop] at out
    split at out
    next => cases out
    next wide =>
      cases out
      exact ⟨0, ⟨by simpa using carries, Nat.lt_of_not_le wide, narrow, bounded⟩, rfl, by simp,
        rfl, rfl, rfl, rfl⟩
  | succ fuel ih =>
    rw [normalizeLoop] at out
    split at out
    next small =>
      obtain ⟨mid, shifted, rest⟩ := Option.bind_eq_some_iff.mp out
      obtain ⟨there, more, rng, less, same⟩ := shift_carries carries some_ small bounded.le shifted
      simp only [bot, Opus.top] at small less
      obtain ⟨k, steady, more', rng', same'⟩ := ih there (by omega)
        (by simp only [Opus.top]; omega) (by omega) rest
      refine ⟨k + 1, ?_, by rw [more', more]; omega, ?_, same.trans same'⟩
      · rw [pow_succ', ← Nat.mul_assoc]
        exact steady
      · rw [rng', rng, pow_succ', Nat.mul_assoc]
    next wide =>
      cases out
      exact ⟨0, ⟨by simpa using carries, Nat.lt_of_not_le wide, narrow, bounded⟩, rfl, by simp,
        rfl, rfl, rfl, rfl⟩

def byteAt (list : List UInt8) (i : ℕ) : ℕ := (list[i]?.getD 0).toNat

/-- The raw bits that were written. -/
structure Raws (ec : Ec) (raw rawBits : ℕ) : Prop where
  raw : raw = numberUp 256 (byteAt ec.back) ec.back.length + 256 ^ ec.back.length * ec.endWindow
  rawBits : rawBits = 8 * ec.back.length + ec.nendBits
  window : ec.endWindow < 2 ^ ec.nendBits

theorem numberUp_congr {digit other : ℕ → ℕ} {count : ℕ} (same : ∀ i < count, digit i = other i) :
    numberUp 256 digit count = numberUp 256 other count := by
  induction count with
  | zero => rfl
  | succ count ih =>
    rw [numberUp, numberUp, ih fun i less => same i (less.trans (Nat.lt_succ_self count)),
      same count (Nat.lt_succ_self count)]

theorem numberUp_append (list : List UInt8) (b : UInt8) :
    numberUp 256 (byteAt (list ++ [b])) (list ++ [b]).length =
      numberUp 256 (byteAt list) list.length + b.toNat * 256 ^ list.length := by
  rw [length_append, length_singleton, numberUp]
  congr 1
  · apply numberUp_congr
    intro i less
    rw [byteAt, byteAt, List.getElem?_append_left less]
  · simp [byteAt]

structure SameFront (ec next : Ec) : Prop where
  storage : next.storage = ec.storage
  front : next.front = ec.front
  rem : next.rem = ec.rem
  ext : next.ext = ec.ext
  rng : next.rng = ec.rng
  val : next.val = ec.val

theorem Raws.flush {raw rawBits : ℕ} (raws : ec.Raws raw rawBits) (more : 8 ≤ ec.nendBits) :
    Raws { ec with
      back := ec.back ++ [UInt8.ofNat ec.endWindow], endWindow := ec.endWindow >>> 8
      nendBits := ec.nendBits - 8 } raw rawBits := by
  have low : (UInt8.ofNat ec.endWindow).toNat = ec.endWindow % 256 := UInt8.toNat_ofNat' ..
  refine ⟨?_, ?_, ?_⟩
  · rw [raws.raw, numberUp_append, low, length_append, length_singleton, pow_succ,
      Nat.shiftRight_eq_div_pow, Nat.mul_comm (ec.endWindow % 256), Nat.add_assoc, Nat.mul_assoc,
      ← Nat.mul_add, Nat.mod_add_div]
  · rw [raws.rawBits, length_append, length_singleton]
    dsimp only
    omega
  · have window := raws.window
    rw [Nat.shiftRight_eq_div_pow, Nat.div_lt_iff_lt_mul (Nat.two_pow_pos 8), ← pow_add,
      Nat.sub_add_cancel more]
    exact window

theorem flushWindow_raws (fuel : ℕ) {raw rawBits : ℕ} (raws : ec.Raws raw rawBits)
    (inside : ec.front.length + ec.back.length ≤ ec.storage)
    (out : flushWindow fuel ec = some next) :
    next.Raws raw rawBits ∧ ec.SameFront next ∧
      next.front.length + next.back.length ≤ next.storage ∧
      (ec.nendBits < 8 * fuel + 8 → next.nendBits < 8) := by
  induction fuel generalizing ec with
  | zero =>
    cases out
    exact ⟨raws, ⟨rfl, rfl, rfl, rfl, rfl, rfl⟩, inside, id⟩
  | succ fuel ih =>
    rw [flushWindow] at out
    split at out
    next more =>
      obtain ⟨wrote, wroteEq, rest⟩ := Option.bind_eq_some_iff.mp out
      rw [writeByteAtEnd] at wroteEq
      split at wroteEq
      next => cases wroteEq
      next room =>
        cases wroteEq
        obtain ⟨there, same, inside, few⟩ := ih (raws.flush more)
          (by dsimp only; rw [length_append, length_singleton]; omega) rest
        exact ⟨there, ⟨same.storage, same.front, same.rem, same.ext, same.rng, same.val⟩, inside,
          fun less => few (by dsimp only; omega)⟩
    next few =>
      cases out
      exact ⟨raws, ⟨rfl, rfl, rfl, rfl, rfl, rfl⟩, inside, fun _ => Nat.lt_of_not_le few⟩

end Ec

end EspDevkit.Audio.Opus
