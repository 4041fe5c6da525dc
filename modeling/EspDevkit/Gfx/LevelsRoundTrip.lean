import EspDevkit.Gfx.Levels
import Mathlib.Data.List.TakeWhile

/-!
# Levels are read back

The reader goes through the states the encoder went through, and the renderer takes the row filter
off what is read.
-/

namespace EspDevkit.Gfx.Levels

open BitString List Option

namespace LevelReader

/-- The bits ahead begin with `bits`, with the slack somewhere behind them. -/
def Reads (r : LevelReader) (bits : List Bool) : Prop :=
  ∃ tail, (unpack r.data).drop r.position = bits ++ tail ∧ 8 * fontDataSlack ≤ tail.length

theorem window_eq (high middle low : UInt8) :
    high.toNat <<< 16 ||| middle.toNat <<< 8 ||| low.toNat =
      read true (unpack [high, middle, low]) := by
  have first := high.toNat_lt
  have second : middle.toNat < 2 ^ 8 := middle.toNat_lt
  have third : low.toNat < 2 ^ 8 := low.toNat_lt
  have both : middle.toNat <<< 8 < 2 ^ 16 := by
    rw [Nat.shiftLeft_eq]
    omega
  rw [← Nat.shiftLeft_add_eq_or_of_lt both,
    show high.toNat <<< 16 + middle.toNat <<< 8 = (high.toNat <<< 8 + middle.toNat) <<< 8 by
      simp only [Nat.shiftLeft_eq]; omega,
    ← Nat.shiftLeft_add_eq_or_of_lt third, unpack_cons, unpack_cons, unpack_cons, unpack_nil,
    append_nil, ← append_assoc, read_shift _ third, read_shift _ second,
    read_word (show high.toNat < 2 ^ 8 from first)]
  simp only [Nat.shiftLeft_eq]

theorem bits_eq {r : LevelReader} {count value : ℕ} {rest : List Bool} (some_ : 0 < count)
    (few : count ≤ 8) (fits : value < 2 ^ count) (reads : r.Reads (word true count value ++ rest)) :
    r.bits count = some (value, { r with position := r.position + count }) ∧
      LevelReader.Reads { r with position := r.position + count } rest := by
  obtain ⟨tail, ahead, slack⟩ := reads
  have after : (unpack r.data).drop (r.position + count) = rest ++ tail := by
    rw [← drop_drop, ahead, append_assoc]
    exact drop_left' (length_word _ _ _)
  refine ⟨?_, tail, after, slack⟩
  have byte : r.position >>> 3 = r.position / 8 := Nat.shiftRight_eq_div_pow _ 3
  have offset : r.position &&& 7 = r.position % 8 := Nat.and_two_pow_sub_one_eq_mod _ 3
  have whole := Nat.div_add_mod r.position 8
  have size := congrArg List.length ahead
  rw [length_drop, length_unpack, length_append, length_append, length_word] at size
  unfold fontDataSlack at slack
  -- three bytes are there
  have long : r.position / 8 + 2 < r.data.length := by omega
  have bytes : r.data.drop (r.position / 8) = [r.data[r.position / 8],
      r.data[r.position / 8 + 1], r.data[r.position / 8 + 2]] ++
        r.data.drop (r.position / 8 + 3) := by
    rw [drop_eq_getElem_cons (by omega), drop_eq_getElem_cons (by omega),
      drop_eq_getElem_cons (by omega)]
    rfl
  generalize shape : unpack [r.data[r.position / 8], r.data[r.position / 8 + 1],
    r.data[r.position / 8 + 2]] = window at *
  have width : window.length = 24 := by rw [← shape, length_unpack]; rfl
  have start : (unpack r.data).drop r.position =
      window.drop (r.position % 8) ++ unpack (r.data.drop (r.position / 8 + 3)) := by
    conv_lhs => rw [← whole, ← drop_drop, drop_unpack, bytes, unpack_append, shape]
    exact drop_append_of_le_length (by omega)
  have inside : (window.drop (r.position % 8)).take count = word true count value := by
    have both := congrArg (List.take count) (start.symm.trans ahead)
    rw [append_assoc, take_append_of_le_length (by rw [length_drop]; omega)] at both
    rw [both]
    exact take_left' (length_word _ _ _)
  have parts : window = window.take (r.position % 8) ++ (word true count value ++
      window.drop (r.position % 8 + count)) := by
    rw [← inside, ← drop_drop, take_append_drop, take_append_drop]
  have left : (window.drop (r.position % 8 + count)).length = 24 - r.position % 8 - count := by
    rw [length_drop, width]
    omega
  have value_eq := read_middle (window.take (r.position % 8)) (word true count value)
    (window.drop (r.position % 8 + count))
  rw [← parts, left, length_word, read_word fits] at value_eq
  rw [bits, byte, offset, List.getElem?_eq_getElem (by omega), List.getElem?_eq_getElem (by omega),
    List.getElem?_eq_getElem long]
  simp only [bind_eq_bind, bind_some]
  rw [window_eq, shape, Nat.shiftRight_eq_div_pow, Nat.one_shiftLeft,
    Nat.and_two_pow_sub_one_eq_mod, value_eq]
  rfl

/-- The next `count` levels. -/
def take : ℕ → LevelReader → Option (List UInt8)
  | 0, _ => some []
  | count + 1, r => r.next.bind fun read => (read.2.take count).map (read.1 :: ·)

theorem take_succ {r r' : LevelReader} {value : UInt8} (next : r.next = some (value, r'))
    (count : ℕ) : r.take (count + 1) = (r'.take count).map (value :: ·) := by
  rw [take, next, bind_some]

structure Matches (bpp : ℕ) (r : LevelReader) (e : Encoder) : Prop where
  compressed : r.compressed = true
  bpp : r.bpp = bpp
  state : r.state = if e.repeating then .repeat_ else .single
  started : r.started = e.previous.isSome
  previous : ∀ value, e.previous = some value → r.previous = value
  repeats : e.repeating = true → r.repeats = e.repeats

section Next

variable {bpp : ℕ} {r : LevelReader} {e : Encoder} {rest : List Bool} {value : UInt8}

theorem Reads.position {r' : LevelReader} {bits : List Bool} (reads : r.Reads bits)
    (data : r'.data = r.data) (position : r'.position = r.position) : r'.Reads bits := by
  unfold Reads at *
  rw [data, position]
  exact reads

theorem readSingle_eq (low : 1 ≤ r.bpp) (high : r.bpp ≤ 8) (fits : value.toNat < 2 ^ r.bpp)
    (reads : r.Reads (word true r.bpp value.toNat ++ rest)) :
    r.readSingle =
        some (value, { r with
          position := r.position + r.bpp
          previous := value
          state := .single }) ∧
      LevelReader.Reads { r with position := r.position + r.bpp } rest := by
  obtain ⟨cut, after⟩ := bits_eq low high fits reads
  refine ⟨?_, after⟩
  simp [readSingle, cut]

/-- A value by itself; a second one in a row turns to repeats. -/
theorem Matches.next_single (here : Matches bpp r e) (low : 1 ≤ bpp) (high : bpp ≤ 8)
    (fits : value.toNat < 2 ^ bpp) (single : e.repeating = false)
    (reads : r.Reads (word true bpp value.toNat ++ rest)) (bits : BitWriter) :
    ∃ r', r.next = some (value, r') ∧ r'.Reads rest ∧
      Matches bpp r'
        { previous := some value
          repeats := 0
          repeating := e.previous == some value
          bits := bits } := by
  have depth := here.bpp
  subst depth
  obtain ⟨cut, after⟩ := bits_eq low high fits reads
  have state := here.state
  rw [single, if_neg Bool.false_ne_true] at state
  have again : (r.started && value == r.previous) = (e.previous == some value) := by
    rw [here.started]
    cases known : e.previous with
    | none => rfl
    | some before =>
      rw [here.previous before known, isSome_some, Bool.true_and, some_beq_some]
      exact BEq.comm
  refine ⟨{ r with
    position := r.position + r.bpp
    started := true
    previous := value
    state := if r.started && value == r.previous then .repeat_ else .single
    repeats := if r.started && value == r.previous then 0 else r.repeats }, ?_,
    after.position rfl rfl, ?_⟩
  · simp only [next, here.compressed, state, cut, bind_eq_bind, bind_some,
      UInt8.ofNat_toNat, Bool.true_eq_false, if_false]
    cases r.started && value == r.previous with
    | true => rfl
    | false =>
      simp
  · rw [again]
    refine ⟨here.compressed, rfl, rfl, rfl, fun v known => (Option.some.inj known), ?_⟩
    intro repeats
    exact if_pos repeats

theorem next_in_run (compressed : r.compressed = true) (state : r.state = .repeat_) {again : ℕ}
    {after : LevelReader}
    (cut : LevelReader.bits { r with repeats := r.repeats + 1 } 1 = some (again, after)) :
    r.next =
      if again = 1 then
        if after.repeats ≠ repeatsBeforeCount then some (after.previous, after)
        else (after.bits 6).bind fun count =>
          if count.1 ≠ 0 then
            some (count.2.previous, { count.2 with repeats := count.1, state := .count })
          else LevelReader.readSingle { count.2 with repeats := count.1 }
      else after.readSingle := by
  obtain ⟨data, position, bpp, compressed, started, previous, repeats, state⟩ := r
  subst compressed state
  simp only [next, Bool.true_eq_false, if_false, bind_eq_bind]
  rw [cut]
  rfl

theorem Matches.next_repeat (here : Matches bpp r e) (repeating : e.repeating = true)
    (fewer : e.repeats + 1 ≠ repeatsBeforeCount) (known : e.previous = some value)
    (reads : r.Reads (word true 1 1 ++ rest)) (bits : BitWriter) :
    ∃ r', r.next = some (value, r') ∧ r'.Reads rest ∧
      Matches bpp r' { e with repeats := e.repeats + 1, bits := bits } := by
  obtain ⟨cut, after⟩ := bits_eq (r := { r with repeats := r.repeats + 1 })
    Nat.one_pos (by decide) (by decide) (reads.position rfl rfl)
  have state := here.state
  rw [repeating, if_pos rfl] at state
  have count := here.repeats repeating
  refine ⟨{ r with position := r.position + 1, repeats := r.repeats + 1 }, ?_,
    after.position rfl rfl, ?_⟩
  · rw [next_in_run here.compressed state cut, if_pos rfl, if_pos (by rw [count]; exact fewer),
      ← here.previous value known]
  · exact ⟨here.compressed, here.bpp, here.state, here.started, here.previous,
      fun _ => congrArg (· + 1) count⟩

/-- The last repeat that has a bit of its own is followed by the count. -/
theorem Matches.next_count (here : Matches bpp r e) (repeating : e.repeating = true)
    (last : e.repeats + 1 = repeatsBeforeCount) (known : e.previous = some value) {length : ℕ}
    (some_ : 0 < length) (fits : length < 2 ^ 6)
    (reads : r.Reads (word true 1 1 ++ (word true 6 length ++ rest))) :
    ∃ r', r.next = some (value, r') ∧ r'.Reads rest ∧ r'.compressed = true ∧ r'.bpp = bpp ∧
      r'.started = true ∧ r'.previous = value ∧ r'.repeats = length ∧ r'.state = .count := by
  obtain ⟨cut, after⟩ := bits_eq (r := { r with repeats := r.repeats + 1 })
    Nat.one_pos (by decide) (by decide) (reads.position rfl rfl)
  obtain ⟨cut', after'⟩ := bits_eq (by decide) (by decide) fits after
  have state := here.state
  rw [repeating, if_pos rfl] at state
  have count := here.repeats repeating
  have begun := here.started
  rw [known, isSome_some] at begun
  refine ⟨{ r with position := r.position + 1 + 6, repeats := length, state := .count }, ?_,
    after'.position rfl rfl, here.compressed, here.bpp, begun, here.previous value known, rfl, rfl⟩
  rw [next_in_run here.compressed state cut, if_pos rfl,
    if_neg (not_not_intro (by rw [count]; exact last)), cut', bind_some, if_pos some_.ne',
    ← here.previous value known]

theorem Matches.next_broken (here : Matches bpp r e) (low : 1 ≤ bpp) (high : bpp ≤ 8)
    (fits : value.toNat < 2 ^ bpp) (repeating : e.repeating = true) (known : e.previous.isSome)
    (reads : r.Reads (word true 1 0 ++ (word true bpp value.toNat ++ rest))) (bits : BitWriter) :
    ∃ r', r.next = some (value, r') ∧ r'.Reads rest ∧
      Matches bpp r'
        { previous := some value, repeats := 0, repeating := false, bits := bits } := by
  have depth := here.bpp
  subst depth
  obtain ⟨cut, after⟩ := bits_eq (r := { r with repeats := r.repeats + 1 })
    Nat.one_pos (by decide) (by decide) (reads.position rfl rfl)
  obtain ⟨single, after'⟩ := readSingle_eq
    (r := { r with position := r.position + 1, repeats := r.repeats + 1 }) low high fits after
  have state := here.state
  rw [repeating, if_pos rfl] at state
  refine ⟨{ r with
    position := r.position + 1 + r.bpp
    repeats := r.repeats + 1
    previous := value
    state := .single }, (next_in_run here.compressed state cut).trans ?_,
    after'.position rfl rfl, ?_⟩
  · rw [if_neg (by decide)]
    exact single
  · exact ⟨here.compressed, rfl, rfl, here.started.trans known, fun v same => Option.some.inj same,
      nofun⟩

theorem next_counted (compressed : r.compressed = true) (state : r.state = .count)
    (more : 1 < r.repeats) :
    r.next = some (r.previous, { r with repeats := r.repeats - 1 }) := by
  obtain ⟨data, position, bpp, compressed, started, previous, repeats, state⟩ := r
  subst compressed state
  have some_ : repeats - 1 ≠ 0 := by
    change 1 < repeats at more
    omega
  exact if_pos some_

theorem next_last (compressed : r.compressed = true) (state : r.state = .count)
    (last : r.repeats = 1) : r.next = LevelReader.readSingle { r with repeats := 0 } := by
  obtain ⟨data, position, bpp, compressed, started, previous, repeats, state⟩ := r
  subst compressed state last
  rfl

theorem take_counted (compressed : r.compressed = true) (state : r.state = .count) {more : ℕ}
    (counted : r.repeats = more + 1) (count : ℕ) :
    r.take (more + count) =
      (LevelReader.take count { r with repeats := 1 }).map (List.replicate more r.previous ++ ·) := by
  induction more generalizing r with
  | zero =>
    have same : ({ r with repeats := 1 } : LevelReader) = r := by
      cases r
      cases counted
      rfl
    rw [same, Nat.zero_add]
    simp
  | succ more ih =>
    have next := next_counted compressed state (by omega)
    rw [Nat.add_right_comm, take_succ next,
      ih (r := { r with repeats := r.repeats - 1 }) compressed state
        (by show r.repeats - 1 = more + 1; omega), Option.map_map]
    rfl

end Next

end LevelReader

section Coding

variable {bpp : ℕ}

theorem encodeFrom_single {value : UInt8} {rest : List UInt8} {e : Encoder}
    (single : e.repeating = false) :
    encodeFrom bpp (value :: rest) e = encodeFrom bpp rest
      { previous := some value
        repeats := 0
        repeating := e.previous == some value
        bits := e.bits.put value.toNat bpp } := by
  rw [encodeFrom, if_pos single]

theorem encodeFrom_broken {value before : UInt8} {rest : List UInt8} {e : Encoder}
    (repeating : e.repeating = true) (known : e.previous = some before) (other : value ≠ before) :
    encodeFrom bpp (value :: rest) e = encodeFrom bpp rest
      { previous := some value
        repeats := 0
        repeating := false
        bits := (e.bits.put 0 1).put value.toNat bpp } := by
  have unlike : ¬some value = e.previous := by
    rw [known, Option.some.injEq]
    exact other
  have fresh : (e.previous == some value) = false := by
    rw [known, beq_eq_false_iff_ne, Ne, Option.some.injEq]
    exact other.symm
  rw [encodeFrom, if_neg (by simp [repeating]), if_neg unlike, encodeFrom_single rfl, fresh]

theorem encodeFrom_repeat {value : UInt8} {rest : List UInt8} {e : Encoder}
    (repeating : e.repeating = true) (known : e.previous = some value)
    (fewer : e.repeats + 1 ≠ repeatsBeforeCount) :
    encodeFrom bpp (value :: rest) e =
      encodeFrom bpp rest { e with repeats := e.repeats + 1, bits := e.bits.put 1 1 } := by
  rw [encodeFrom, if_neg (by simp [repeating]), if_pos known.symm, if_neg fewer]

/-- How far a count of the values in front of `rest` reaches, and the value it runs out on. -/
def countOf (value : UInt8) (rest : List UInt8) : ℕ :=
  min ((rest.takeWhile fun v => some v == some value).length + 1) 63

theorem countOf_pos (value : UInt8) (rest : List UInt8) : 0 < countOf value rest := by
  unfold countOf
  omega

theorem countOf_lt (value : UInt8) (rest : List UInt8) : countOf value rest < 2 ^ 6 := by
  unfold countOf
  omega

theorem replicate_countOf (value : UInt8) (rest : List UInt8) :
    List.replicate (countOf value rest - 1) value ++ rest.drop (countOf value rest - 1) = rest := by
  have within : countOf value rest - 1 ≤
      (rest.takeWhile fun v => some v == some value).length := by
    unfold countOf
    omega
  have before : rest.take (countOf value rest - 1) =
      (rest.takeWhile fun v => some v == some value).take (countOf value rest - 1) :=
    (prefix_iff_eq_take.mp ((List.take_prefix _ _).trans (List.takeWhile_prefix _))).symm ▸
      by rw [length_take_of_le within]
  have same : rest.take (countOf value rest - 1) =
      List.replicate (countOf value rest - 1) value := by
    rw [before, eq_replicate_iff, length_take_of_le within]
    refine ⟨rfl, fun v member => ?_⟩
    have equal := mem_takeWhile_imp (mem_of_mem_take member)
    simpa using equal
  conv_rhs => rw [← take_append_drop (countOf value rest - 1) rest, same]

/-- The last repeat and the count, where the levels end. -/
theorem encodeFrom_count_end {value : UInt8} {rest : List UInt8} {e : Encoder}
    (repeating : e.repeating = true) (known : e.previous = some value)
    (last : e.repeats + 1 = repeatsBeforeCount)
    (behind : rest.drop (countOf value rest - 1) = []) :
    encodeFrom bpp (value :: rest) e = (e.bits.put 1 1).put (countOf value rest) 6 := by
  unfold countOf at *
  rw [encodeFrom, if_neg (by simp [repeating]), if_pos known.symm, if_pos last]
  simp only [known]
  split
  · rfl
  · rename_i after
    rw [known, behind] at after
    cases after

/-- The last repeat and the count, which runs out on a value. -/
theorem encodeFrom_count {value next : UInt8} {rest more : List UInt8} {e : Encoder}
    (repeating : e.repeating = true) (known : e.previous = some value)
    (last : e.repeats + 1 = repeatsBeforeCount)
    (behind : rest.drop (countOf value rest - 1) = next :: more) :
    encodeFrom bpp (value :: rest) e = encodeFrom bpp more
      { previous := some next
        repeats := e.repeats + 1
        repeating := false
        bits := ((e.bits.put 1 1).put (countOf value rest) 6).put next.toNat bpp } := by
  unfold countOf at *
  rw [encodeFrom, if_neg (by simp [repeating]), if_pos known.symm, if_pos last]
  simp only [known]
  split
  · rename_i after
    rw [known, behind] at after
    cases after
  · rename_i after
    rw [known, behind] at after
    cases after
    rfl

/-- What is written of the levels behind the state of the encoder, and that a reader in the same
state takes the levels from it. -/
def Codes (bpp : ℕ) (levels : List UInt8) (e : Encoder) : Prop :=
  (encodeFrom bpp levels e).Ready ∧ ∃ codes,
    (encodeFrom bpp levels e).stream = e.bits.stream ++ codes ∧
      ∀ r : LevelReader, r.Matches bpp e → r.Reads codes → r.take levels.length = some levels

section Steps

variable {levels rest more : List UInt8} {value before : UInt8} {e : Encoder}

theorem Codes.nil (ready : e.bits.Ready) : Codes bpp [] e := by
  unfold Codes
  rw [encodeFrom]
  exact ⟨ready, [], (append_nil _).symm, fun _ _ _ => rfl⟩

theorem Codes.single (low : 1 ≤ bpp) (high : bpp ≤ 8) (fits : value.toNat < 2 ^ bpp)
    (ready : e.bits.Ready) (alone : e.repeating = false)
    (after : Codes bpp rest
      { previous := some value
        repeats := 0
        repeating := e.previous == some value
        bits := e.bits.put value.toNat bpp }) :
    Codes bpp (value :: rest) e := by
  obtain ⟨done, codes, written, taken⟩ := after
  obtain ⟨-, stream⟩ := BitWriter.put_stream ready fits high
  unfold Codes
  rw [encodeFrom_single alone]
  refine ⟨done, _, written.trans (by rw [stream, append_assoc]), ?_⟩
  intro r same reads
  obtain ⟨r', next, reads', same'⟩ := same.next_single low high fits alone reads _
  rw [length_cons, LevelReader.take_succ next, taken r' same' reads']
  rfl

theorem Codes.repeated (ready : e.bits.Ready) (repeating : e.repeating = true)
    (known : e.previous = some value) (fewer : e.repeats + 1 ≠ repeatsBeforeCount)
    (after : Codes bpp rest { e with repeats := e.repeats + 1, bits := e.bits.put 1 1 }) :
    Codes bpp (value :: rest) e := by
  obtain ⟨done, codes, written, taken⟩ := after
  obtain ⟨-, stream⟩ := BitWriter.put_stream ready (by decide : 1 < 2 ^ 1) (by decide)
  unfold Codes
  rw [encodeFrom_repeat repeating known fewer]
  refine ⟨done, _, written.trans (by rw [stream, append_assoc]), ?_⟩
  intro r same reads
  obtain ⟨r', next, reads', same'⟩ := same.next_repeat repeating fewer known reads _
  rw [length_cons, LevelReader.take_succ next, taken r' same' reads']
  rfl

theorem Codes.broken (low : 1 ≤ bpp) (high : bpp ≤ 8) (fits : value.toNat < 2 ^ bpp)
    (ready : e.bits.Ready) (repeating : e.repeating = true) (known : e.previous = some before)
    (other : value ≠ before)
    (after : Codes bpp rest
      { previous := some value
        repeats := 0
        repeating := false
        bits := (e.bits.put 0 1).put value.toNat bpp }) :
    Codes bpp (value :: rest) e := by
  obtain ⟨done, codes, written, taken⟩ := after
  obtain ⟨put, stream⟩ := BitWriter.put_stream ready (by decide : 0 < 2 ^ 1) (by decide)
  obtain ⟨-, stream'⟩ := BitWriter.put_stream put fits high
  unfold Codes
  rw [encodeFrom_broken repeating known other]
  refine ⟨done, _,
    written.trans (by rw [stream', stream, append_assoc, append_assoc]), ?_⟩
  intro r same reads
  obtain ⟨r', next, reads', same'⟩ :=
    same.next_broken low high fits repeating (by rw [known]; rfl) reads _
  rw [length_cons, LevelReader.take_succ next, taken r' same' reads']
  rfl

theorem Matches.take_count {r : LevelReader} (here : r.Matches bpp e)
    (repeating : e.repeating = true) (known : e.previous = some value)
    (last : e.repeats + 1 = repeatsBeforeCount) {length : ℕ} (some_ : 0 < length)
    (fits : length < 2 ^ 6) {codes : List Bool}
    (reads : r.Reads (word true 1 1 ++ (word true 6 length ++ codes))) :
    ∃ r' : LevelReader, r'.Reads codes ∧ r'.compressed = true ∧ r'.bpp = bpp ∧
      r'.started = true ∧ r'.state = .count ∧ r'.repeats = 1 ∧
      ∀ count, r.take (length + count) =
        (r'.take count).map (List.replicate length value ++ ·) := by
  obtain ⟨r', next, ahead, compressed, depth, started, previous, repeats, state⟩ :=
    here.next_count repeating last known some_ fits reads
  obtain ⟨fewer, rfl⟩ := Nat.exists_eq_succ_of_ne_zero some_.ne'
  refine ⟨{ r' with repeats := 1 }, ahead.position rfl rfl, compressed, depth, started, state, rfl,
    fun count => ?_⟩
  rw [Nat.succ_add, LevelReader.take_succ next,
    LevelReader.take_counted compressed state repeats count, Option.map_map, previous]
  rfl

theorem Codes.count_end (ready : e.bits.Ready) (repeating : e.repeating = true)
    (known : e.previous = some value) (last : e.repeats + 1 = repeatsBeforeCount)
    (behind : rest.drop (countOf value rest - 1) = []) : Codes bpp (value :: rest) e := by
  obtain ⟨put, stream⟩ := BitWriter.put_stream ready (by decide : 1 < 2 ^ 1) (by decide)
  obtain ⟨put', stream'⟩ := BitWriter.put_stream put (countOf_lt value rest) (by decide)
  unfold Codes
  rw [encodeFrom_count_end repeating known last behind]
  refine ⟨put', word true 1 1 ++ (word true 6 (countOf value rest) ++ []), ?_, ?_⟩
  · rw [stream', stream, append_assoc, append_nil]
  · intro r same reads
    obtain ⟨r', -, -, -, -, -, -, taken⟩ := Matches.take_count same repeating known last
      (countOf_pos value rest) (countOf_lt value rest) reads
    have all := replicate_countOf value rest
    rw [behind, append_nil] at all
    have size : (value :: rest).length = countOf value rest + 0 := by
      have some_ := countOf_pos value rest
      rw [← all, length_cons, length_replicate, all]
      omega
    have whole : List.replicate (countOf value rest) value = value :: rest := by
      have some_ := countOf_pos value rest
      conv_rhs => rw [← all]
      rw [← replicate_succ, Nat.sub_add_cancel some_]
    rw [size, taken, ← whole]
    simp [LevelReader.take]

theorem Codes.count {next : UInt8} (low : 1 ≤ bpp) (high : bpp ≤ 8)
    (fits : next.toNat < 2 ^ bpp) (ready : e.bits.Ready) (repeating : e.repeating = true)
    (known : e.previous = some value) (last : e.repeats + 1 = repeatsBeforeCount)
    (behind : rest.drop (countOf value rest - 1) = next :: more)
    (after : Codes bpp more
      { previous := some next
        repeats := e.repeats + 1
        repeating := false
        bits := ((e.bits.put 1 1).put (countOf value rest) 6).put next.toNat bpp }) :
    Codes bpp (value :: rest) e := by
  obtain ⟨done, codes, written, taken⟩ := after
  obtain ⟨put, stream⟩ := BitWriter.put_stream ready (by decide : 1 < 2 ^ 1) (by decide)
  obtain ⟨put', stream'⟩ := BitWriter.put_stream put (countOf_lt value rest) (by decide)
  obtain ⟨-, stream''⟩ := BitWriter.put_stream put' fits high
  unfold Codes
  rw [encodeFrom_count repeating known last behind]
  refine ⟨done, word true 1 1 ++ (word true 6 (countOf value rest) ++
    (word true bpp next.toNat ++ codes)), ?_, ?_⟩
  · rw [written, stream'', stream', stream]
    simp only [append_assoc]
  · intro r same reads
    obtain ⟨r', ahead, compressed, rfl, started, state, repeats, counted⟩ :=
      Matches.take_count same repeating known last (countOf_pos value rest)
        (countOf_lt value rest) reads
    obtain ⟨single, ahead'⟩ := LevelReader.readSingle_eq
      (r := { r' with repeats := 0 }) low high fits (ahead.position rfl rfl)
    have all := replicate_countOf value rest
    rw [behind] at all
    have some_ := countOf_pos value rest
    have whole : value :: rest =
        List.replicate (countOf value rest) value ++ next :: more := by
      conv_lhs => rw [← all]
      rw [← cons_append, ← replicate_succ, Nat.sub_add_cancel some_]
    have size : (value :: rest).length = countOf value rest + (more.length + 1) := by
      rw [whole, length_append, length_replicate, length_cons]
    have last_ := (LevelReader.next_last compressed state repeats).trans single
    have behind_ := taken
      { r' with position := r'.position + r'.bpp, previous := next, state := .single, repeats := 0 }
      ⟨compressed, rfl, rfl, started, fun v same => Option.some.inj same, nofun⟩
      (ahead'.position rfl rfl)
    rw [size, counted, LevelReader.take_succ last_, whole]
    exact congrArg (fun levels => (levels.map (next :: ·)).map
      (List.replicate (countOf value rest) value ++ ·)) behind_

theorem encodeFrom_codes (low : 1 ≤ bpp) (high : bpp ≤ 8) (total : ℕ) :
    ∀ (levels : List UInt8) (e : Encoder), levels.length = total → e.bits.Ready →
      (e.repeating = true → e.previous.isSome) → (∀ level ∈ levels, level.toNat < 2 ^ bpp) →
      Codes bpp levels e := by
  induction total using Nat.strong_induction_on with
  | _ total ih =>
    intro levels e size ready known fits
    cases levels with
    | nil => exact .nil ready
    | cons value rest =>
      subst size
      have here := fits value mem_cons_self
      have there : ∀ level ∈ rest, level.toNat < 2 ^ bpp := fun level member =>
        fits level (mem_cons_of_mem _ member)
      cases repeating : e.repeating with
      | false =>
        obtain ⟨put, -⟩ := BitWriter.put_stream ready here high
        exact .single low high here ready repeating
          (ih rest.length (Nat.lt_succ_self _) rest _ rfl put (fun _ => rfl) there)
      | true =>
        obtain ⟨before, previous⟩ := isSome_iff_exists.mp (known repeating)
        by_cases again : value = before
        · subst again
          obtain ⟨put, -⟩ := BitWriter.put_stream ready (by decide : 1 < 2 ^ 1) (by decide)
          by_cases last : e.repeats + 1 = repeatsBeforeCount
          · cases behind : rest.drop (countOf value rest - 1) with
            | nil => exact .count_end ready repeating previous last behind
            | cons next more =>
              have inside : ∀ level ∈ next :: more, level ∈ rest := fun level member =>
                mem_of_mem_drop (behind ▸ member)
              have shorter : more.length < (value :: rest).length := by
                have size := congrArg List.length behind
                rw [length_drop, length_cons] at size
                rw [length_cons]
                omega
              obtain ⟨put', -⟩ :=
                BitWriter.put_stream put (countOf_lt value rest) (by decide)
              have fits' := there next (inside next mem_cons_self)
              obtain ⟨put'', -⟩ := BitWriter.put_stream put' fits' high
              exact .count low high fits' ready repeating previous last behind
                (ih more.length shorter more _ rfl put'' nofun fun level member =>
                  there level (inside level (mem_cons_of_mem _ member)))
          · exact .repeated ready repeating previous last
              (ih rest.length (Nat.lt_succ_self _) rest _ rfl put known there)
        · obtain ⟨put, -⟩ := BitWriter.put_stream ready (by decide : 0 < 2 ^ 1) (by decide)
          obtain ⟨put', -⟩ := BitWriter.put_stream put here high
          exact .broken low high here ready repeating previous again
            (ih rest.length (Nat.lt_succ_self _) rest _ rfl put' nofun there)

end Steps

/-- The reader takes from what `rle_encode` wrote the levels that it was given, and needs no more
than the slack behind it. -/
theorem take_rleEncode (low : 1 ≤ bpp) (high : bpp ≤ 8) {levels : List UInt8}
    (fits : ∀ level ∈ levels, level.toNat < 2 ^ bpp) {more : List UInt8}
    (slack : fontDataSlack ≤ more.length) :
    LevelReader.take levels.length
      { data := rleEncode levels bpp ++ more, bpp := bpp, compressed := true } = some levels := by
  obtain ⟨done, codes, written, taken⟩ :=
    encodeFrom_codes low high levels.length levels {} rfl (Nat.zero_lt_succ 7) nofun fits
  obtain ⟨pad, finished⟩ := BitWriter.finish_stream done
  have nothing : BitWriter.stream {} = [] := rfl
  rw [nothing, nil_append] at written
  refine taken _ ⟨rfl, rfl, rfl, rfl, nofun, nofun⟩ ⟨pad ++ unpack more, ?_, ?_⟩
  · show (unpack (rleEncode levels bpp ++ more)).drop 0 = _
    rw [drop_zero, unpack_append, rleEncode, finished, written, append_assoc]
  · rw [length_append, length_unpack]
    omega

end Coding

end EspDevkit.Gfx.Levels

/-!
## Glyphs are drawn as they were

The renderer keeps only opacities, from which the levels of the row above are taken back; so the row
filter comes off exactly.
-/

namespace EspDevkit.Gfx.Levels

open List Option

theorem opaLevel_opa {bpp : ℕ} (low : 1 ≤ bpp) (high : bpp ≤ 8) {level : UInt8}
    (fits : level.toNat < 2 ^ bpp) : opaLevel (2 ^ bpp - 1) (opa (2 ^ bpp - 1) level) = level := by
  have all : ∀ depth : Fin 8, ∀ number : Fin (2 ^ (depth.val + 1)),
      opaLevel (2 ^ (depth.val + 1) - 1) (opa (2 ^ (depth.val + 1) - 1) (.ofNat number)) =
        .ofNat number := by
    decide +kernel
  have here := all ⟨bpp - 1, by omega⟩
  rw [show bpp - 1 + 1 = bpp by omega] at here
  simpa using here ⟨level.toNat, fits⟩

theorem prefilterRows_fits {bpp : ℕ} (width : ℕ) {levels : List UInt8}
    (fits : ∀ level ∈ levels, level.toNat < 2 ^ bpp) :
    ∀ level ∈ prefilterRows levels width, level.toNat < 2 ^ bpp := by
  intro level member
  obtain ⟨i, within, rfl⟩ := mem_mapIdx.mp member
  split
  · rename_i below
    have above : i - width < levels.length := by omega
    rw [getD_eq_getElem _ _ above, UInt8.toNat_xor]
    exact Nat.xor_lt_two_pow (fits _ (getElem_mem _)) (fits _ (getElem_mem _))
  · exact fits _ (getElem_mem _)

theorem length_prefilterRows (levels : List UInt8) (width : ℕ) :
    (prefilterRows levels width).length = levels.length := length_mapIdx

theorem unfilter {bpp width : ℕ} (low : 1 ≤ bpp) (high : bpp ≤ 8) {levels : List UInt8}
    (fits : ∀ level ∈ levels, level.toNat < 2 ^ bpp) (wide : 0 < width) {written : ℕ}
    (within : written < levels.length) {filtered : UInt8}
    (here : (prefilterRows levels width)[written]? = some filtered) :
    (if true && width ≤ written then
      (((levels.take written).map (opa (2 ^ bpp - 1)))[written - width]?).map fun above =>
        filtered ^^^ opaLevel (2 ^ bpp - 1) above
    else some filtered) = some levels[written] := by
  rw [prefilterRows, List.getElem?_mapIdx, List.getElem?_eq_getElem within, map_some,
    Option.some.injEq] at here
  rw [← here]
  by_cases below : width ≤ written
  · have above : written - width < written := by omega
    have known : ((levels.take written).map (opa (2 ^ bpp - 1)))[written - width]? =
        some (opa (2 ^ bpp - 1) levels[written - width]) := by
      rw [List.getElem?_map, List.getElem?_take_of_lt above, List.getElem?_eq_getElem (by omega)]
      rfl
    rw [if_pos (by simpa using below), if_pos below, known, map_some,
      opaLevel_opa low high (fits _ (getElem_mem _)), getD_eq_getElem _ _ (by omega),
      UInt8.xor_assoc, UInt8.xor_self, UInt8.xor_zero]
  · rw [if_neg (by simpa using below), if_neg below]

theorem decodeLoop_take {bpp width : ℕ} (low : 1 ≤ bpp) (high : bpp ≤ 8) {levels : List UInt8}
    (fits : ∀ level ∈ levels, level.toNat < 2 ^ bpp) (wide : levels ≠ [] → 0 < width) (left : ℕ) :
    ∀ (r : LevelReader) (written : ℕ), written + left = levels.length →
      r.take left = some ((prefilterRows levels width).drop written) →
      decodeLoop (2 ^ bpp - 1) width true left r
          ((levels.take written).map (opa (2 ^ bpp - 1))) =
        some (levels.map (opa (2 ^ bpp - 1))) := by
  induction left with
  | zero =>
    intro r written size _
    rw [decodeLoop, take_of_length_le (by omega)]
  | succ left ih =>
    intro r written size taken
    have within : written < levels.length := by omega
    have within' : written < (prefilterRows levels width).length := by
      rw [length_prefilterRows]
      exact within
    rw [LevelReader.take, drop_eq_getElem_cons within'] at taken
    obtain ⟨⟨level, r'⟩, next, rest⟩ := bind_eq_some_iff.mp taken
    obtain ⟨behind, rest, together⟩ := map_eq_some_iff.mp rest
    obtain ⟨here, rfl⟩ := List.cons.inj together
    have size_ : ((levels.take written).map (opa (2 ^ bpp - 1))).length = written := by
      rw [length_map, length_take_of_le within.le]
    have grown : (levels.take written).map (opa (2 ^ bpp - 1)) ++
        [opa (2 ^ bpp - 1) levels[written]] =
          (levels.take (written + 1)).map (opa (2 ^ bpp - 1)) := by
      rw [take_succ_eq_append_getElem within, map_append]
      rfl
    have above := unfilter low high fits (wide (ne_nil_of_length_pos (by omega))) within
      ((List.getElem?_eq_getElem within').trans (congrArg some here.symm))
    rw [decodeLoop, next]
    simp only [bind_eq_bind, bind_some, size_]
    rw [above, bind_some, grown]
    exact ih r' (written + 1) (by omega) rest

/-- A glyph that was filtered and coded is drawn from the data it begins, up to the slack behind the
last of it, with the opacities of its levels; and the levels come back from these. -/
theorem decode_rleEncode {bpp width height : ℕ} (low : 1 ≤ bpp) (high : bpp ≤ 8)
    {levels : List UInt8} (size : levels.length = width * height)
    (fits : ∀ level ∈ levels, level.toNat < 2 ^ bpp) {more : List UInt8}
    (slack : fontDataSlack ≤ more.length) :
    LevelReader.take levels.length
        { data := rleEncode (prefilterRows levels width) bpp ++ more
          bpp := bpp
          compressed := true } = some (prefilterRows levels width) ∧
      ∃ dst, decode (rleEncode (prefilterRows levels width) bpp ++ more) bpp width height true true =
          some dst ∧ dst = levels.map (opa (2 ^ bpp - 1)) ∧
        dst.map (opaLevel (2 ^ bpp - 1)) = levels := by
  have read := take_rleEncode low high (prefilterRows_fits width fits) slack
  rw [length_prefilterRows] at read
  have wide : levels ≠ [] → 0 < width := by
    intro some_
    have long := length_pos_of_ne_nil some_
    rw [size] at long
    exact Nat.pos_of_mul_pos_right long
  refine ⟨read, _, ?_, rfl, ?_⟩
  · have loop := decodeLoop_take low high fits wide levels.length _ 0 (Nat.zero_add _) read
    rw [decode, ← size]
    exact loop
  · rw [List.map_map]
    exact (List.map_congr_left fun level member => opaLevel_opa low high (fits level member)).trans
      (List.map_id levels)

/-- Two rows of one value and a third with a run in it. -/
theorem decode_rleEncode_rows :
    LevelReader.take 6
        { data := rleEncode (prefilterRows [1, 1, 1, 1, 2, 3] 2) 2 ++ [0, 0]
          bpp := 2
          compressed := true } = some (prefilterRows [1, 1, 1, 1, 2, 3] 2) ∧
      ∃ dst, decode (rleEncode (prefilterRows [1, 1, 1, 1, 2, 3] 2) 2 ++ [0, 0]) 2 2 3 true true =
          some dst ∧ dst = [1, 1, 1, 1, 2, 3].map (opa (2 ^ 2 - 1)) ∧
        dst.map (opaLevel (2 ^ 2 - 1)) = [1, 1, 1, 1, 2, 3] :=
  decode_rleEncode (by decide) (by decide)
    (by decide : ([1, 1, 1, 1, 2, 3] : List UInt8).length = 2 * 3) (by simp) (by decide)

end EspDevkit.Gfx.Levels
