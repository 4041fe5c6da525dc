import EspDevkit.Library.BitString

/-!
# The levels of a glyph

What the resource generator writes of a glyph's levels, filtered by rows and run-length coded, and
the reader and the loop of the renderer that take them back.  An index past the data gives `none`.
-/

namespace EspDevkit.Gfx.Levels

/-- `FONT_DATA_SLACK`. -/
def fontDataSlack : ℕ := 2

def repeatsBeforeCount : ℕ := 11

structure BitWriter where
  out : List UInt8 := []
  acc : UInt32 := 0
  bits : ℕ := 0

namespace BitWriter

/-- The loop of `put`. -/
def flush (w : BitWriter) : BitWriter :=
  if 8 ≤ w.bits then
    flush { w with
      bits := w.bits - 8
      out := w.out ++ [(w.acc >>> .ofNat (w.bits - 8)).toUInt8] }
  else w
termination_by w.bits

def put (w : BitWriter) (value count : ℕ) : BitWriter :=
  flush { w with acc := w.acc <<< .ofNat count ||| .ofNat value, bits := w.bits + count }

def finish (w : BitWriter) : List UInt8 :=
  if 0 < w.bits then w.out ++ [(w.acc <<< .ofNat (8 - w.bits)).toUInt8] else w.out

end BitWriter

def prefilterRows (levels : List UInt8) (width : ℕ) : List UInt8 :=
  levels.mapIdx fun i level =>
    if width ≤ i then level ^^^ levels.getD (i - width) 0 else level

/-- The variables of the loop of `rle_encode`. -/
structure Encoder where
  previous : Option UInt8 := none
  repeats : ℕ := 0
  repeating : Bool := false
  bits : BitWriter := {}

/-- The loop of `rle_encode` over the levels from `index` on. -/
def encodeFrom (bpp : ℕ) (levels : List UInt8) (e : Encoder) : BitWriter :=
  match levels with
  | [] => e.bits
  | value :: rest =>
    if e.repeating = false then
      encodeFrom bpp rest
        { previous := some value
          repeats := 0
          repeating := e.previous == some value
          bits := e.bits.put value.toNat bpp }
    else if some value = e.previous then
      let bits := e.bits.put 1 1
      if e.repeats + 1 = repeatsBeforeCount then
        let run := (rest.takeWhile fun v => some v == e.previous).length
        let length := min (run + 1) 63
        let bits := bits.put length 6
        match _ : rest.drop (length - 1) with
        | [] => bits
        | next :: rest =>
          encodeFrom bpp rest
            { previous := some next
              repeats := e.repeats + 1
              repeating := false
              bits := bits.put next.toNat bpp }
      else encodeFrom bpp rest { e with repeats := e.repeats + 1, bits := bits }
    else encodeFrom bpp (value :: rest) { e with repeating := false, bits := e.bits.put 0 1 }
termination_by (levels.length, e.repeating.toNat)
decreasing_by
  · exact Prod.Lex.left _ _ (Nat.lt_succ_self _)
  · rename_i after
    have shorter := congrArg List.length after
    rw [List.length_drop, List.length_cons] at shorter
    exact Prod.Lex.left _ _ (by rw [List.length_cons]; omega)
  · exact Prod.Lex.left _ _ (Nat.lt_succ_self _)
  · rename_i repeating _
    rw [Bool.not_eq_false] at repeating
    rw [repeating]
    exact Prod.Lex.right _ Nat.one_pos

def rleEncode (levels : List UInt8) (bpp : ℕ) : List UInt8 := (encodeFrom bpp levels {}).finish

inductive RleState where
  | single
  | repeat_
  | count
  deriving DecidableEq

structure LevelReader where
  data : List UInt8
  position : ℕ := 0
  bpp : ℕ
  compressed : Bool
  started : Bool := false
  previous : UInt8 := 0
  repeats : ℕ := 0
  state : RleState := .single

namespace LevelReader

/-- `count` bits out of a window of three bytes. -/
def bits (r : LevelReader) (count : ℕ) : Option (ℕ × LevelReader) := do
  let byte := r.position >>> 3
  let offset := r.position &&& 7
  let high ← r.data[byte]?
  let middle ← r.data[byte + 1]?
  let low ← r.data[byte + 2]?
  let window := high.toNat <<< 16 ||| middle.toNat <<< 8 ||| low.toNat
  return ((window >>> (24 - offset - count)) &&& (1 <<< count - 1),
    { r with position := r.position + count })

def readSingle (r : LevelReader) : Option (UInt8 × LevelReader) := do
  let (value, r) ← r.bits r.bpp
  return (UInt8.ofNat value, { r with previous := UInt8.ofNat value, state := .single })

def next (r : LevelReader) : Option (UInt8 × LevelReader) :=
  if r.compressed = false then do
    let (value, r) ← r.bits r.bpp
    return (UInt8.ofNat value, r)
  else
    match r.state with
    | .single => do
        let (number, after) ← r.bits r.bpp
        let value := UInt8.ofNat number
        let after :=
          if r.started && value == r.previous then { after with state := .repeat_, repeats := 0 }
          else after
        return (value, { after with started := true, previous := value })
    | .repeat_ => do
        let r := { r with repeats := r.repeats + 1 }
        let (again, r) ← r.bits 1
        if again = 1 then
          if r.repeats ≠ repeatsBeforeCount then return (r.previous, r)
          let (repeats, r) ← r.bits 6
          let r := { r with repeats := repeats }
          if repeats ≠ 0 then return (r.previous, { r with state := .count })
          r.readSingle
        else r.readSingle
    | .count => do
        let r := { r with repeats := r.repeats - 1 }
        if r.repeats ≠ 0 then return (r.previous, r)
        r.readSingle

end LevelReader

/-- A level as an opacity, `max` being the highest level. -/
def opa (max : ℕ) (level : UInt8) : UInt8 := UInt8.ofNat ((level.toNat * 255 + max / 2) / max)

def opaLevel (max : ℕ) (opa : UInt8) : UInt8 := UInt8.ofNat ((opa.toNat * max + 127) / 255)

/-- The loop of `Font::decode`, with the pixels already written in `dst`. -/
def decodeLoop (max width : ℕ) (prefilter : Bool) :
    ℕ → LevelReader → List UInt8 → Option (List UInt8)
  | 0, _, dst => some dst
  | left + 1, r, dst => do
      let (level, r) ← r.next
      let level ←
        (if prefilter && width ≤ dst.length then
          (dst[dst.length - width]?).map fun above => level ^^^ opaLevel max above
        else some level)
      decodeLoop max width prefilter left r (dst ++ [opa max level])

/-- `Font::decode` of a glyph whose data begins `data`. -/
def decode (data : List UInt8) (bpp width height : ℕ) (compressed prefilter : Bool) :
    Option (List UInt8) :=
  decodeLoop (2 ^ bpp - 1) width (compressed && prefilter) (width * height)
    { data := data, bpp := bpp, compressed := compressed } []

end EspDevkit.Gfx.Levels

/-!
## The bits that are written and read

The writer puts each number behind the bits it has, and the reader cuts it out of its window as
long as the slack follows.
-/

namespace EspDevkit.Gfx.Levels

open BitString

namespace BitWriter

def stream (w : BitWriter) : List Bool :=
  unpack w.out ++ word true w.bits (w.acc.toNat % 2 ^ w.bits)

theorem pending_byte (acc : UInt32) {bits : ℕ} (few : bits < 32) :
    word true (8 + bits) (acc.toNat % 2 ^ (8 + bits)) =
      unpack [(acc >>> UInt32.ofNat bits).toUInt8] ++ word true bits (acc.toNat % 2 ^ bits) := by
  have fits : acc.toNat % 2 ^ (8 + bits) < 2 ^ (8 + bits) := Nat.mod_lt _ (Nat.two_pow_pos _)
  have number : (UInt32.ofNat bits).toNat = bits :=
    UInt32.toNat_ofNat_of_lt' (by show bits < 2 ^ 32; omega)
  have high : acc.toNat % 2 ^ (8 + bits) / 2 ^ bits = acc.toNat / 2 ^ bits % 2 ^ 8 := by
    rw [pow_add, Nat.mul_comm, Nat.mod_mul_right_div_self]
  have low : acc.toNat % 2 ^ (8 + bits) % 2 ^ bits = acc.toNat % 2 ^ bits :=
    Nat.mod_mod_of_dvd _ (Nat.pow_dvd_pow 2 (Nat.le_add_left bits 8))
  rw [word_add 8 bits fits, high, low, unpack_cons, unpack_nil, List.append_nil,
    UInt32.toNat_toUInt8, UInt32.toNat_shiftRight, number, Nat.mod_eq_of_lt few,
    Nat.shiftRight_eq_div_pow]

theorem flush_stream (w : BitWriter) (few : w.bits < 32) :
    w.flush.bits < 8 ∧ w.flush.stream = w.stream := by
  induction w using flush.induct with
  | case1 w whole ih =>
    rw [flush, if_pos whole]
    obtain ⟨less, same⟩ := ih (by show w.bits - 8 < 32; omega)
    refine ⟨less, same.trans ?_⟩
    obtain ⟨bits, count⟩ := Nat.exists_eq_add_of_le whole
    unfold stream
    rw [unpack_append, count, pending_byte w.acc (by omega), Nat.add_sub_cancel_left,
      List.append_assoc]
  | case2 w short =>
    rw [flush, if_neg short]
    exact ⟨by omega, rfl⟩

theorem shifted_mod (acc : UInt32) {value count bits : ℕ} (fits : value < 2 ^ count)
    (few : bits + count < 32) :
    (acc <<< UInt32.ofNat count ||| UInt32.ofNat value).toNat % 2 ^ (bits + count) =
      acc.toNat % 2 ^ bits * 2 ^ count + value := by
  have power : 2 ^ count ≤ 2 ^ 32 := Nat.pow_le_pow_right (by decide) (by omega)
  have number : (UInt32.ofNat count).toNat = count :=
    UInt32.toNat_ofNat_of_lt' (by show count < 2 ^ 32; omega)
  have entered : (UInt32.ofNat value).toNat = value :=
    UInt32.toNat_ofNat_of_lt' (by show value < 2 ^ 32; omega)
  have split : 2 ^ 32 = 2 ^ (32 - count) * 2 ^ count := by
    rw [← pow_add]
    congr 1
    omega
  have high : (acc <<< UInt32.ofNat count).toNat = acc.toNat % 2 ^ (32 - count) * 2 ^ count := by
    rw [UInt32.toNat_shiftLeft, number, Nat.mod_eq_of_lt (by omega : count < 32),
      Nat.shiftLeft_eq, split, Nat.mul_mod_mul_right]
  have inside : acc.toNat % 2 ^ (32 - count) % 2 ^ bits = acc.toNat % 2 ^ bits :=
    Nat.mod_mod_of_dvd _ (Nat.pow_dvd_pow 2 (by omega))
  rw [UInt32.toNat_or, high, entered, ← Nat.shiftLeft_eq, ← Nat.shiftLeft_add_eq_or_of_lt fits,
    Nat.shiftLeft_eq, pow_add, Nat.mul_comm (2 ^ bits), Nat.mod_mul, Nat.mul_comm _ (2 ^ count),
    Nat.mul_add_mod, Nat.mod_eq_of_lt fits, Nat.mul_add_div (Nat.two_pow_pos count),
    Nat.div_eq_of_lt fits, Nat.add_zero, inside, Nat.add_comm, Nat.mul_comm]

def Ready (w : BitWriter) : Prop := w.bits < 8

theorem put_stream {w : BitWriter} (ready : w.Ready) {value count : ℕ} (fits : value < 2 ^ count)
    (few : count ≤ 8) :
    (w.put value count).Ready ∧ (w.put value count).stream = w.stream ++ word true count value := by
  unfold Ready at ready
  obtain ⟨less, same⟩ := flush_stream
    { w with acc := w.acc <<< .ofNat count ||| .ofNat value, bits := w.bits + count }
    (by show w.bits + count < 32; omega)
  refine ⟨less, same.trans ?_⟩
  have below : w.acc.toNat % 2 ^ w.bits < 2 ^ w.bits := Nat.mod_lt _ (Nat.two_pow_pos _)
  have shifted := shifted_mod w.acc fits (by omega : w.bits + count < 32)
  have all : w.acc.toNat % 2 ^ w.bits * 2 ^ count + value < 2 ^ (w.bits + count) := by
    rw [← shifted]
    exact Nat.mod_lt _ (Nat.two_pow_pos _)
  have upper : (w.acc.toNat % 2 ^ w.bits * 2 ^ count + value) / 2 ^ count =
      w.acc.toNat % 2 ^ w.bits := by
    rw [Nat.mul_comm, Nat.mul_add_div (Nat.two_pow_pos count), Nat.div_eq_of_lt fits, Nat.add_zero]
  have lower : (w.acc.toNat % 2 ^ w.bits * 2 ^ count + value) % 2 ^ count = value := by
    rw [Nat.mul_comm, Nat.mul_add_mod, Nat.mod_eq_of_lt fits]
  unfold stream
  rw [shifted, word_add w.bits count all, upper, lower, List.append_assoc]

theorem finish_stream {w : BitWriter} (ready : w.Ready) :
    ∃ pad, unpack w.finish = w.stream ++ pad := by
  unfold Ready at ready
  unfold finish stream
  by_cases some_ : 0 < w.bits
  · rw [if_pos some_]
    refine ⟨word true (8 - w.bits) 0, ?_⟩
    have shifted := shifted_mod w.acc (Nat.two_pow_pos (8 - w.bits))
      (by omega : w.bits + (8 - w.bits) < 32)
    have eight : w.bits + (8 - w.bits) = 8 := by omega
    have nothing : ∀ x : UInt32, x ||| UInt32.ofNat 0 = x := fun x => by simp
    have all : w.acc.toNat % 2 ^ w.bits * 2 ^ (8 - w.bits) < 2 ^ (w.bits + (8 - w.bits)) := by
      rw [pow_add]
      exact Nat.mul_lt_mul_of_pos_right (Nat.mod_lt _ (Nat.two_pow_pos _)) (Nat.two_pow_pos _)
    have byte := word_add w.bits (8 - w.bits) all
    rw [Nat.mul_div_cancel _ (Nat.two_pow_pos _), Nat.mul_mod_left, eight] at byte
    rw [nothing, Nat.add_zero, eight] at shifted
    rw [unpack_append, unpack_cons, unpack_nil, List.append_nil, UInt32.toNat_toUInt8, shifted,
      byte, List.append_assoc]
  · rw [if_neg some_]
    have zero : w.bits = 0 := by omega
    refine ⟨[], ?_⟩
    rw [zero]
    simp [word, BitString.ofNat, arrange]

end BitWriter

end EspDevkit.Gfx.Levels
