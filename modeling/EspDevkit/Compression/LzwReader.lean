import EspDevkit.Compression.LzwEncoding

/-!
# Reading codes

However the input is cut into blocks, the decoder reads the codes from the bits
of the whole stream.
-/

namespace EspDevkit.Compression

open List

theorem Source.consume_data (source : Source) {n : ℕ} {block : List UInt8}
    {blocks : List (List UInt8)}
    (eq : source.blocks = block :: blocks) (within : n ≤ block.length) :
    (source.consume n).data = source.data.drop n := by
  have here : (source.consume n).blocks =
      if (block.drop n).isEmpty then blocks else block.drop n :: blocks := by
    simp only [consume, eq]
  rw [data, data, here, eq, flatten_cons, drop_append_of_le_length within]
  split
  · rename_i done
    rw [isEmpty_iff.mp done, nil_append]
  · rw [flatten_cons]

namespace Input

def data (input : Input) : List UInt8 := input.source.data.drop input.used

def Ok (input : Input) : Prop :=
  (input.used = 0 ∧ input.rest = []) ∨
    ∃ past blocks, past.length = input.used ∧ input.source.blocks = (past ++ input.rest) :: blocks

variable {input : Input}

theorem Ok.fresh (source : Source) : Ok { source } := Or.inl ⟨rfl, rfl⟩

theorem release_data (ok : input.Ok) : input.release.data = input.data ∧
    input.release.source.data = input.data ∧ input.release.source.broken = input.source.broken := by
  rw [data, data]
  simp only [release]
  split
  · rename_i none
    simp [none]
  · rename_i some
    obtain ⟨none, _⟩ | ⟨past, blocks, length, eq⟩ := ok
    · exact absurd none some
    · have within : input.used ≤ (past ++ input.rest).length := by
        rw [length_append]
        omega
      rw [Source.consume_data _ eq within]
      exact ⟨rfl, rfl, rfl⟩

theorem byte_spec (ok : input.Ok) : ∃ input', input'.Ok ∧
    input'.source.broken = input.source.broken ∧
      ((∃ b, input.data = b :: input'.data ∧ input.byte = (.ok (some b), input')) ∨
        (input.data = [] ∧ input'.data = [] ∧
          input.byte = (if input.source.broken then .error .source else .ok none, input'))) := by
  unfold byte
  split
  · rename_i rest
    obtain ⟨released, released', broken⟩ := release_data ok
    have unused : input.release.used = 0 := rfl
    simp only [refill, Source.fillBuf]
    cases blocks : input.release.source.blocks with
    | nil =>
      have none : input.data = [] := by
        rw [← released', Source.data, blocks, flatten_nil]
      refine ⟨input.release, Or.inl ⟨rfl, rest⟩, broken, Or.inr ⟨none, released.trans none, ?_⟩⟩
      rw [broken]
      cases input.source.broken <;> rfl
    | cons block blocks' =>
      have filled := input.release.source.filled block (by rw [blocks]; simp)
      obtain ⟨first, rest', rfl⟩ := exists_cons_of_ne_nil filled
      refine ⟨{ input.release with rest := rest', used := 1 },
        Or.inr ⟨[first], blocks', rfl, blocks⟩, broken, Or.inl ⟨first, ?_, rfl⟩⟩
      rw [← released', data, Source.data, blocks]
      simp
  · rename_i b rest eq
    obtain ⟨_, none⟩ | ⟨past, blocks, length, shape⟩ := ok
    · rw [none] at eq
      cases eq
    · rw [eq] at shape
      refine ⟨{ input with rest, used := input.used + 1 }, Or.inr ⟨past ++ [b], blocks, ?_, ?_⟩, rfl,
        Or.inl ⟨b, ?_, rfl⟩⟩
      · simp [length]
      · simp [shape]
      · have whole : input.source.data = past ++ b :: (rest ++ blocks.flatten) := by
          rw [Source.data, shape]
          simp
        rw [data, data, whole, ← length]
        simp

end Input

namespace Lzw

/-- The bits not decoded yet: those held and those of the input. -/
structure Reads (lzw : Lzw) (input : Input) (bits : List Bool) : Prop where
  ok : input.Ok
  bits : ∃ pending, lzw.bitcnt = pending.length ∧
    lzw.bitbuf = BitString.read lzw.msbFirst pending ∧
      bits = pending ++ bitsOf lzw.msbFirst input.data

variable {lzw : Lzw} {input : Input} {bits : List Bool}

theorem length_bitsOf (msbFirst : Bool) (bytes : List UInt8) :
    (bitsOf msbFirst bytes).length = 8 * bytes.length := by
  induction bytes with
  | nil => rfl
  | cons byte bytes ih =>
    rw [bitsOf, flatMap_cons, length_append, BitString.length_word, length_cons]
    rw [bitsOf] at ih
    omega

theorem Reads.push (reads : Reads lzw input bits) {byte : UInt8} {input' : Input} (ok : input'.Ok)
    (eq : input.data = byte :: input'.data) :
    Reads
      { lzw with
        bitbuf := if lzw.msbFirst then lzw.bitbuf <<< 8 ||| byte.toNat
          else lzw.bitbuf ||| byte.toNat <<< lzw.bitcnt
        bitcnt := lzw.bitcnt + 8 } input' bits := by
  obtain ⟨pending, count, buffer, bits⟩ := reads.bits
  have small : byte.toNat < 2 ^ 8 := byte.toNat_lt
  refine ⟨ok, pending ++ BitString.word lzw.msbFirst 8 byte.toNat, ?_, ?_, ?_⟩
  · simp [count]
  · change (if lzw.msbFirst then _ else _) = _
    rw [BitString.read_append, BitString.length_word, BitString.read_word small, buffer, count]
    split
    · rw [← Nat.shiftLeft_add_eq_or_of_lt small, Nat.shiftLeft_eq, Nat.mul_comm]
    · rw [Nat.lor_comm, ← Nat.shiftLeft_add_eq_or_of_lt (BitString.read_lt pending),
        Nat.shiftLeft_eq, Nat.mul_comm, Nat.add_comm]
  · rw [bits, eq, bitsOf, bitsOf, flatMap_cons, append_assoc]

theorem fill_spec (reads : Reads lzw input bits) (fuel : ℕ) :
    ∃ result bitbuf bitcnt input', lzw.fill input fuel = (result, { lzw with bitbuf, bitcnt }, input') ∧
      Reads { lzw with bitbuf, bitcnt } input' bits ∧
        input'.source.broken = input.source.broken ∧
          ((result = .ok true ∧ (lzw.width ≤ bitcnt ∨ lzw.bitcnt + 8 * fuel ≤ bitcnt)) ∨
            (result = (if input.source.broken then .error .source else .ok false) ∧
              bits.length < lzw.width)) := by
  induction fuel generalizing lzw input with
  | zero => exact ⟨_, _, _, _, rfl, reads, rfl, Or.inl ⟨rfl, Or.inr (Nat.le_refl _)⟩⟩
  | succ fuel ih =>
    rw [fill]
    split
    · rename_i short
      obtain ⟨input', ok, broken, ⟨byte, data, eq⟩ | ⟨none, none', eq⟩⟩ := Input.byte_spec reads.ok
      · obtain ⟨result, bitbuf, bitcnt, last, eq', reads', broken', outcome⟩ :=
          ih (reads.push ok data)
        rw [eq]
        refine ⟨result, bitbuf, bitcnt, last, eq', reads', broken'.trans broken, ?_⟩
        rw [broken] at outcome
        refine outcome.imp ?_ id
        rintro ⟨done, enough⟩
        refine ⟨done, enough.imp id fun enough => ?_⟩
        change lzw.bitcnt + 8 + 8 * fuel ≤ bitcnt at enough
        omega
      · obtain ⟨pending, count, buffer, bits'⟩ := reads.bits
        have few : bits.length < lzw.width := by
          rw [bits', none]
          simpa [bitsOf, ← count] using short
        have reads' : Reads lzw input' bits :=
          ⟨ok, pending, count, buffer, by rw [bits', none, none']⟩
        rw [eq]
        refine ⟨if input.source.broken then .error .source else .ok false, lzw.bitbuf, lzw.bitcnt,
          input', ?_, reads', broken, Or.inr ⟨rfl, few⟩⟩
        cases input.source.broken <;> rfl
    · rename_i enough
      exact ⟨_, _, _, _, rfl, reads, rfl, Or.inl ⟨rfl, Or.inl (Nat.le_of_not_lt enough)⟩⟩

theorem nextCode_spec (reads : Reads lzw input bits) :
    ∃ result bitbuf bitcnt input', lzw.nextCode input =
        (result, { lzw with bitbuf, bitcnt }, input') ∧
      input'.source.broken = input.source.broken ∧
        ((lzw.width ≤ bits.length ∧
            result = .ok (some (BitString.read lzw.msbFirst (bits.take lzw.width))) ∧
            Reads { lzw with bitbuf, bitcnt } input' (bits.drop lzw.width)) ∨
          (bits.length < lzw.width ∧
            result = (if input.source.broken then .error .source else .ok none) ∧
            Reads { lzw with bitbuf, bitcnt } input' bits)) := by
  obtain ⟨result, bitbuf, bitcnt, input', eq, reads', broken, ⟨rfl, enough⟩ | ⟨rfl, few⟩⟩ :=
    fill_spec reads lzw.width
  · obtain ⟨pending, count, buffer, bits'⟩ := reads'.bits
    change bitcnt = pending.length at count
    change bitbuf = BitString.read lzw.msbFirst pending at buffer
    have held : lzw.width ≤ pending.length := by omega
    have length : (pending.take lzw.width).length = lzw.width := length_take_of_le held
    have left : (pending.drop lzw.width).length = bitcnt - lzw.width := by
      rw [length_drop, count]
    have code : BitString.read lzw.msbFirst (pending.take lzw.width) < 2 ^ lzw.width := by
      have := @BitString.read_lt lzw.msbFirst (pending.take lzw.width)
      rwa [length] at this
    have low : BitString.read lzw.msbFirst (pending.drop lzw.width) < 2 ^ (bitcnt - lzw.width) := by
      have := @BitString.read_lt lzw.msbFirst (pending.drop lzw.width)
      rwa [left] at this
    have whole := @BitString.read_append lzw.msbFirst (pending.take lzw.width)
      (pending.drop lzw.width)
    rw [take_append_drop, ← buffer, left, length] at whole
    have taken : bits.take lzw.width = pending.take lzw.width := by
      rw [bits', take_append_of_le_length held]
    have dropped : bits.drop lzw.width =
        pending.drop lzw.width ++ bitsOf lzw.msbFirst input'.data := by
      rw [bits', drop_append_of_le_length held]
    have few : lzw.width ≤ bits.length := by
      rw [bits', length_append]
      omega
    rw [taken, dropped]
    simp only [nextCode, eq, Nat.one_shiftLeft, Nat.and_two_pow_sub_one_eq_mod,
      Nat.shiftRight_eq_div_pow]
    cases order : lzw.msbFirst with
    | true =>
      rw [order] at whole code low
      simp only [if_true] at whole ⊢
      refine ⟨_, _, _, _, rfl, broken, Or.inl ⟨few, ?_, reads'.ok, pending.drop lzw.width, left.symm,
        ?_, rfl⟩⟩
      · rw [whole, Nat.mul_add_div (Nat.two_pow_pos _), Nat.div_eq_of_lt low, Nat.add_zero,
          Nat.mod_eq_of_lt code]
      · change bitbuf % 2 ^ (bitcnt - lzw.width) = _
        rw [whole, Nat.mul_add_mod, Nat.mod_eq_of_lt low]
    | false =>
      rw [order] at whole code low
      simp only [Bool.false_eq_true, if_false] at whole ⊢
      refine ⟨_, _, _, _, rfl, broken, Or.inl ⟨few, ?_, reads'.ok, pending.drop lzw.width, left.symm,
        ?_, rfl⟩⟩
      · rw [whole, Nat.add_mul_mod_self_left, Nat.mod_eq_of_lt code]
      · change bitbuf / 2 ^ lzw.width = _
        rw [whole, Nat.add_mul_div_left _ _ (Nat.two_pow_pos _), Nat.div_eq_of_lt code, Nat.zero_add]
  · refine ⟨if input.source.broken then .error .source else .ok none, bitbuf, bitcnt, input', ?_,
      broken, Or.inr ⟨few, rfl, reads'⟩⟩
    simp only [nextCode, eq]
    cases input.source.broken <;> rfl

end Lzw

end EspDevkit.Compression

/-!
## Decoding undoes encoding

However its input is cut into blocks and however much is asked for at a time, a
decoder gives the string a conforming encoder packed; and whatever the bits,
it stays within its stack and reads no entry that was not written.
-/

namespace EspDevkit.Compression

open List

namespace Lzw

variable {lzw : Lzw} {work : LzwWork} {input : Input} {bits : List Bool}

structure Sound (lzw : Lzw) (work : LzwWork) (input : Input) (bits : List Bool) : Prop where
  table : Table lzw work
  reads : lzw.Reads input bits

theorem Sound.end' (sound : Sound lzw work input bits) :
    Sound { lzw with ended := true } work input bits :=
  ⟨⟨sound.table.literal, sound.table.clear, sound.table.width, sound.table.next,
    sound.table.wide, sound.table.prev, sound.table.entries⟩, sound.reads.ok, sound.reads.bits⟩

theorem run_total {fuel : ℕ} (sound : Sound lzw work input bits) (enough : bits.length < fuel)
    (out : ℕ) : ∃ outcome, run fuel lzw work input out = some outcome ∧
      (∃ bits', Sound outcome.lzw outcome.work outcome.input bits') ∧
        outcome.lzw.started = lzw.started ∧ outcome.lzw.failed = lzw.failed := by
  induction fuel generalizing lzw work input bits out with
  | zero => omega
  | succ fuel ih =>
    have table := sound.table.of_stack (work.stack.drop out)
    simp only [run]
    split
    · exact ⟨_, rfl, ⟨bits, table, sound.reads⟩, rfl, rfl⟩
    · obtain ⟨result, bitbuf, bitcnt, input', eq, broken, ⟨some, rfl, reads⟩ | ⟨few, rfl, reads⟩⟩ :=
        nextCode_spec sound.reads
      · rw [eq]
        dsimp only
        have after : Sound { lzw with bitbuf, bitcnt } { work with stack := work.stack.drop out }
            input' (bits.drop lzw.width) := ⟨table.of_bits bitbuf bitcnt, reads⟩
        split
        · exact ⟨_, rfl, ⟨_, after.end'⟩, rfl, rfl⟩
        · rename_i notEnd
          rcases after.table.decode notEnd with refused | ⟨lzw', work', eq, table', frame⟩
          · rw [refused]
            exact ⟨_, rfl, ⟨_, after⟩, rfl, rfl⟩
          · rw [eq]
            obtain ⟨next, width, prev, prevFirst, rfl⟩ := frame
            have less : (bits.drop lzw.width).length < fuel := by
              have := sound.table.width
              rw [length_drop]
              omega
            obtain ⟨outcome, eq, sound', started, failed⟩ :=
              ih ⟨table', after.reads.ok, after.reads.bits⟩ less (out - (work.stack.take out).length)
            dsimp only
            rw [eq]
            exact ⟨_, rfl, sound', started, failed⟩
      · rw [eq]
        have after : Sound { lzw with bitbuf, bitcnt } { work with stack := work.stack.drop out }
            input' bits := ⟨table.of_bits bitbuf bitcnt, reads⟩
        cases input.source.broken with
        | true => exact ⟨_, rfl, ⟨_, after⟩, rfl, rfl⟩
        | false => exact ⟨_, rfl, ⟨_, after.end'⟩, rfl, rfl⟩

inductive Ahead (options : LzwOptions) (lzw : Lzw) (work : LzwWork) (bits : List Bool) :
    List UInt8 → Prop
  | ended (ended : lzw.ended) : Ahead options lzw work bits work.stack
  | coding (coder : Coder) (string : List UInt8) (codes : List (ℕ × ℕ)) (padding : List Bool)
      (goes : lzw.ended = false) (inStep : InStep options lzw work coder string)
      (encodes : Encodes options coder string codes)
      (packed : bits = pack options.msbFirst codes ++ padding) :
      Ahead options lzw work bits (work.stack ++ string)

theorem take_pack {msbFirst : Bool} {code width : ℕ} (fits : code < 2 ^ width)
    (codes : List (ℕ × ℕ)) (padding : List Bool) :
    BitString.read msbFirst ((pack msbFirst ((code, width) :: codes) ++ padding).take width) = code ∧
      (pack msbFirst ((code, width) :: codes) ++ padding).drop width =
        pack msbFirst codes ++ padding ∧
      width ≤ (pack msbFirst ((code, width) :: codes) ++ padding).length := by
  have length := BitString.length_word msbFirst width code
  have split : pack msbFirst ((code, width) :: codes) ++ padding =
      BitString.word msbFirst width code ++ (pack msbFirst codes ++ padding) := by
    rw [pack, flatMap_cons, append_assoc]
    rfl
  rw [split]
  refine ⟨?_, ?_, ?_⟩
  · rw [take_left' length, BitString.read_word fits]
  · rw [drop_left' length]
  · rw [length_append, length]
    exact Nat.le_add_right _ _

theorem run_ahead {fuel : ℕ} {options : LzwOptions} {string : List UInt8}
    (sound : Sound lzw work input bits) (ahead : Ahead options lzw work bits string)
    (enough : bits.length < fuel) (out : ℕ) :
    ∃ outcome bits', run fuel lzw work input out = some outcome ∧
      outcome.result = .ok (string.take out) ∧
        Sound outcome.lzw outcome.work outcome.input bits' ∧
          Ahead options outcome.lzw outcome.work bits' (string.drop out) ∧
            outcome.lzw.started = lzw.started ∧ outcome.lzw.failed = lzw.failed := by
  induction fuel generalizing lzw work input bits string out with
  | zero => omega
  | succ fuel ih =>
    have table := sound.table.of_stack (work.stack.drop out)
    simp only [run]
    cases ahead with
    | ended ended =>
      rw [if_pos (Or.inr ended)]
      exact ⟨_, bits, rfl, rfl, ⟨table, sound.reads⟩, .ended ended, rfl, rfl⟩
    | coding coder string codes padding goes inStep encodes packed =>
      have length := length_take (i := out) (l := work.stack)
      by_cases full : out - (work.stack.take out).length = 0
      · rw [if_pos (Or.inl full)]
        have within : out ≤ work.stack.length := by omega
        refine ⟨_, bits, rfl, ?_, ⟨table, sound.reads⟩, ?_, rfl, rfl⟩
        · rw [take_append_of_le_length within]
        · rw [drop_append_of_le_length within]
          exact .coding coder string codes padding goes (inStep.of_stack _) encodes packed
      · have beyond : work.stack.length ≤ out := by omega
        have taken : work.stack.take out = work.stack := take_of_length_le beyond
        have dropped : work.stack.drop out = [] := drop_of_length_le beyond
        have moves : ¬ (out - (work.stack.take out).length = 0 ∨ lzw.ended = true) := by
          rw [goes]
          exact fun stop => full (stop.resolve_right (by simp))
        rw [if_neg moves]
        obtain ⟨code, later, rfl, fits⟩ := inStep.head encodes
        rw [← inStep.msbFirst] at packed
        obtain ⟨here, rest, enough'⟩ := @take_pack lzw.msbFirst _ _ fits later padding
        obtain ⟨result, bitbuf, bitcnt, input', eq, _, ⟨_, rfl, reads⟩ | ⟨few, _⟩⟩ :=
          nextCode_spec sound.reads
        · rw [packed, here] at eq
          rw [packed, rest] at reads
          rw [eq]
          dsimp only
          have after := (inStep.of_stack (work.stack.drop out)).of_bits bitbuf bitcnt
          rcases after.next encodes dropped with ⟨rfl, rfl⟩ |
            ⟨notEnd, lzw', work', coder', following, eq', rfl, after, encodes', frame⟩
          · rw [if_pos rfl, append_nil]
            refine ⟨_, _, rfl, rfl, Sound.end' ⟨table.of_bits bitbuf bitcnt, reads⟩, .ended rfl,
              rfl, rfl⟩
          · rw [if_neg notEnd, eq']
            obtain ⟨next, width, prev, prevFirst, rfl⟩ := frame
            have less : (pack lzw.msbFirst later ++ padding).length < fuel := by
              have := sound.table.width
              rw [← rest, ← packed, length_drop]
              rw [← packed] at enough'
              omega
            obtain ⟨outcome, bits', eq, result, sound', ahead', started, failed⟩ :=
              ih ⟨after.table, reads.ok, reads.bits⟩
                (.coding coder' following later padding goes after encodes'
                  (by rw [inStep.msbFirst])) less (out - (work.stack.take out).length)
            dsimp only
            rw [eq]
            refine ⟨_, bits', rfl, ?_, sound', ?_, started, failed⟩
            · change outcome.result.map _ = _
              rw [result, taken]
              refine congrArg Except.ok (take_append.trans ?_).symm
              rw [take_of_length_le beyond]
            · have dropped : (work.stack ++ (work'.stack ++ following)).drop out =
                  (work'.stack ++ following).drop (out - work.stack.length) :=
                drop_append.trans (by rw [drop_of_length_le beyond, nil_append])
              rw [taken] at ahead'
              rw [dropped]
              exact ahead'
        · rw [packed] at few
          omega

def Between (lzw : Lzw) (work : LzwWork) (source : Source) : Prop :=
  lzw.started = false ∨ lzw.failed ≠ none ∨ ∃ bits, Sound lzw work { source } bits

theorem Reads.few {source : Source} (reads : Reads lzw { source } bits) :
    bits.length < lzw.turns source := by
  obtain ⟨pending, count, _, rfl⟩ := reads.bits
  have data : Input.data { source } = source.data := drop_zero
  rw [length_append, length_bitsOf, turns, data]
  omega

theorem Reads.release (reads : Reads lzw input bits) :
    Reads lzw { source := input.release.source } bits := by
  obtain ⟨pending, count, buffer, eq⟩ := reads.bits
  obtain ⟨_, data, _⟩ := Input.release_data reads.ok
  refine ⟨.fresh _, pending, count, buffer, ?_⟩
  have same : Input.data { source := input.release.source } = input.data :=
    drop_zero.trans data
  rw [eq, same]

theorem read_total {source : Source} (between : Between lzw work source) (out : ℕ) :
    ∃ outcome, lzw.read work source out = some outcome ∧
      Between outcome.lzw outcome.work outcome.input.source := by
  unfold read
  split
  · rename_i unstarted
    exact ⟨_, rfl, Or.inl (by simpa using unstarted)⟩
  · rename_i started
    split
    · rename_i error failed
      exact ⟨_, rfl, Or.inr (Or.inl (by simp [failed]))⟩
    · rename_i fine
      obtain ⟨bits, sound⟩ := (between.resolve_left (by simpa using started)).resolve_left
        (by simp [fine])
      obtain ⟨outcome, eq, ⟨bits', sound'⟩, _⟩ := run_total sound sound.reads.few out
      rw [eq]
      refine ⟨_, rfl, Or.inr ?_⟩
      cases result : outcome.result with
      | error error => exact Or.inl (by simp [result])
      | ok bytes =>
        refine Or.inr ⟨bits', ?_, ?_⟩
        · simpa [result] using sound'.table
        · simpa [result] using sound'.reads.release

theorem reads_total {source : Source} (between : Between lzw work source) (sizes : List ℕ) :
    (lzw.reads work source sizes).isSome := by
  induction sizes generalizing lzw work source with
  | nil => rfl
  | cons out sizes ih =>
    obtain ⟨outcome, eq, between⟩ := read_total between out
    obtain ⟨later, eq'⟩ := Option.isSome_iff_exists.mp (ih between)
    simp [reads, eq, eq']

/-- What reads of these sizes give of a string. -/
def portions : List ℕ → List UInt8 → List (List UInt8)
  | [], _ => []
  | out :: sizes, string => string.take out :: portions sizes (string.drop out)

theorem reads_ahead {options : LzwOptions} {source : Source} {string : List UInt8}
    (started : lzw.started) (failed : lzw.failed = none) (sound : Sound lzw work { source } bits)
    (ahead : Ahead options lzw work bits string) (sizes : List ℕ) :
    lzw.reads work source sizes = some ((portions sizes string).map Except.ok) := by
  induction sizes generalizing lzw work source bits string with
  | nil => rfl
  | cons out sizes ih =>
    obtain ⟨outcome, bits', eq, result, sound', ahead', started', failed'⟩ :=
      run_ahead sound ahead sound.reads.few out
    have read : lzw.read work source out = some { outcome with input := outcome.input.release } := by
      rw [Lzw.read, started, failed, eq]
      simp [result]
    have rest := ih (started'.trans started) (failed'.trans failed)
      ⟨sound'.table, sound'.reads.release⟩ ahead'
    simp [reads, read, rest, result, portions]

theorem start_spec {options : LzwOptions}
    (literal : 2 ≤ options.literalBits ∧ options.literalBits ≤ 8)
    (work : LzwWork) : ∃ lzw work', start options work = .ok (lzw, work') ∧ lzw.started ∧
      lzw.failed = none ∧ lzw.ended = false ∧ work'.stack = [] ∧ lzw.bitcnt = 0 ∧ lzw.bitbuf = 0 ∧
        ∀ string, InStep options lzw work' (Coder.start options) string := by
  have clear : 1 <<< options.literalBits = 2 ^ options.literalBits := Nat.one_shiftLeft _
  have big : 4 ≤ 2 ^ options.literalBits := by
    calc 4 = 2 ^ 2 := rfl
      _ ≤ 2 ^ options.literalBits := Nat.pow_le_pow_right (by decide) literal.1
  have small : 2 ^ options.literalBits ≤ 256 := by
    calc 2 ^ options.literalBits ≤ 2 ^ 8 := Nat.pow_le_pow_right (by decide) literal.2
      _ = 256 := rfl
  have none : ∀ c next : ℕ, next = 1 <<< options.literalBits + 2 →
      1 <<< options.literalBits + 2 ≤ c → c < next → False := by
    intro c next
    omega
  refine ⟨_, _, by rw [start, if_pos literal], rfl, rfl, rfl, rfl, rfl, rfl, fun string =>
    ⟨⟨literal, clear, ⟨Nat.le_refl _, ?_⟩, ⟨Nat.le_refl _, ?_⟩, Or.inr ?_, Or.inl rfl,
      fun c above below => (none c _ rfl above below).elim⟩, rfl, rfl, rfl, rfl,
      fun c above below => (none c _ rfl above below).elim, Or.inl ⟨rfl, rfl, rfl⟩⟩⟩
  · change options.literalBits + 1 ≤ 12
    omega
  · change 1 <<< options.literalBits + 2 ≤ maxCodes
    unfold maxCodes
    omega
  · have early := Bool.toNat_le options.earlyChange
    change 1 <<< options.literalBits + 2 + options.earlyChange.toNat < 2 ^ (options.literalBits + 1)
    rw [Nat.pow_succ]
    omega

end Lzw

/-- For all options, and whatever a work area held before: every string over the
literals has an encoding; of every encoding of a string, cut into blocks in any
way and followed by anything, reads of any sizes give exactly the string; and
no input makes the decoder leave its stack or read an entry that was not
written. -/
theorem lzw_round_trip (options : LzwOptions)
    (literal : 2 ≤ options.literalBits ∧ options.literalBits ≤ 8) (work : LzwWork) :
    ∃ lzw work', Lzw.start options work = .ok (lzw, work') ∧
      (∀ string : List UInt8, (∀ byte ∈ string, byte.toNat < options.clear) →
        ∃ codes, Encodes options (Coder.start options) string codes) ∧
      (∀ string codes padding (source : Source), Encodes options (Coder.start options) string codes →
        bitsOf options.msbFirst source.data = pack options.msbFirst codes ++ padding →
          ∀ sizes, lzw.reads work' source sizes = some ((Lzw.portions sizes string).map Except.ok)) ∧
      ∀ source sizes, (lzw.reads work' source sizes).isSome := by
  obtain ⟨lzw, work', eq, started, failed, goes, empty, count, buffer, inStep⟩ :=
    Lzw.start_spec literal work
  have sound : ∀ source : Source,
      lzw.Sound work' { source } (bitsOf options.msbFirst source.data) := by
    intro source
    have := inStep []
    refine ⟨this.table, .fresh source, [], count, ?_, ?_⟩
    · rw [buffer]
      cases lzw.msbFirst <;> rfl
    · rw [nil_append, this.msbFirst, Input.data, drop_zero]
  refine ⟨lzw, work', eq, fun string literals => Encodes.of_literals _ literals, ?_, ?_⟩
  · intro string codes padding source encodes packed sizes
    have ahead := Lzw.Ahead.coding (Coder.start options) string codes padding goes (inStep string)
      encodes packed
    rw [empty, nil_append] at ahead
    exact Lzw.reads_ahead started failed (sound source) ahead sizes
  · exact fun source sizes => Lzw.reads_total (Or.inr (Or.inr ⟨_, sound source⟩)) sizes

/-- Three equal bytes in two blocks: a clear code, a literal, and the entry that
is being made. -/
theorem lzw_round_trip_runs : ∃ lzw work', Lzw.start ⟨2, false, false⟩ {} = .ok (lzw, work') ∧
    lzw.reads work' ⟨[[0x8C], [0x0B]], false, by decide⟩ [2, 5] = some [.ok [1, 1], .ok [1]] := by
  obtain ⟨lzw, work', eq, _, decodes, _⟩ := lzw_round_trip ⟨2, false, false⟩ (by decide) {}
  refine ⟨lzw, work', eq, decodes [1, 1, 1] [(4, 3), (1, 3), (6, 3), (5, 3)]
    [false, false, false, false] ⟨[[0x8C], [0x0B]], false, by decide⟩ ?_ (by decide) [2, 5]⟩
  exact .clear _ (.phrase _ 1 [1] [1, 1] rfl (.phrase _ 6 [1, 1] [] rfl (.done _)))

end EspDevkit.Compression
