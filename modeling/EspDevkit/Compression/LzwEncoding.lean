import EspDevkit.Compression.LzwDecoder
import EspDevkit.Library.BitString

/-!
# LZW encodings

What a conforming encoder may write for a string: the codes of phrases of its
table, and clear codes wherever it likes, each in the width the codes before
call for.  The decoder's table is that of the encoder, but for the encoder's
last entry.
-/

namespace EspDevkit.Compression

open List

/-- The strings of the encoder's entries and the width of its next code. -/
structure Coder where
  entries : List (List UInt8)
  width : ℕ

namespace LzwOptions

variable (options : LzwOptions)

def clear : ℕ := 2 ^ options.literalBits

end LzwOptions

namespace Coder

variable (options : LzwOptions)

def start : Coder := { entries := [], width := options.literalBits + 1 }

def next (coder : Coder) : ℕ := options.clear + 2 + coder.entries.length

def lookup (coder : Coder) (code : ℕ) : Option (List UInt8) :=
  if code < options.clear then some [UInt8.ofNat code]
  else if options.clear + 2 ≤ code then coder.entries[code - (options.clear + 2)]?
  else none

/-- After a phrase: an entry for it and the byte that follows it.  A code is
widened once an entry needs it, or one entry early. -/
def emit (coder : Coder) (phrase following : List UInt8) : Coder :=
  if coder.next options < maxCodes then
    { entries := coder.entries ++ [phrase ++ following.take 1]
      width := if coder.width < 12 ∧
          2 ^ coder.width < coder.next options + 1 + options.earlyChange.toNat
        then coder.width + 1 else coder.width }
  else coder

end Coder

inductive Encodes (options : LzwOptions) : Coder → List UInt8 → List (ℕ × ℕ) → Prop
  | done (coder : Coder) : Encodes options coder [] [(options.clear + 1, coder.width)]
  | clear (coder : Coder) {string : List UInt8} {codes : List (ℕ × ℕ)}
      (later : Encodes options (Coder.start options) string codes) :
      Encodes options coder string ((options.clear, coder.width) :: codes)
  | phrase (coder : Coder) (code : ℕ) (phrase following : List UInt8) {codes : List (ℕ × ℕ)}
      (found : coder.lookup options code = some phrase)
      (later : Encodes options (coder.emit options phrase following) following codes) :
      Encodes options coder (phrase ++ following) ((code, coder.width) :: codes)

def pack (msbFirst : Bool) (codes : List (ℕ × ℕ)) : List Bool :=
  codes.flatMap fun code => BitString.word msbFirst code.2 code.1

def bitsOf (msbFirst : Bool) (bytes : List UInt8) : List Bool :=
  bytes.flatMap fun byte => BitString.word msbFirst 8 byte.toNat

/-- The decoder and an encoder that has `string` left to write. -/
structure InStep (options : LzwOptions) (lzw : Lzw) (work : LzwWork) (coder : Coder)
    (string : List UInt8) : Prop where
  table : Table lzw work
  literalBits : lzw.literalBits = options.literalBits
  msbFirst : lzw.msbFirst = options.msbFirst
  earlyChange : lzw.earlyChange = options.earlyChange
  width : lzw.width = coder.width
  known : ∀ c, lzw.clear + 2 ≤ c → c < lzw.next → ∃ entry,
    coder.entries[c - (lzw.clear + 2)]? = some entry ∧ Spells lzw.clear work c entry
  lag : (lzw.prev = noCode ∧ coder.entries = [] ∧ lzw.next = lzw.clear + 2) ∨
    ∃ last, lzw.prev ≠ noCode ∧ Spells lzw.clear work lzw.prev last ∧
      last.head? = some lzw.prevFirst ∧
        ((lzw.next < maxCodes ∧ lzw.clear + 2 + coder.entries.length = lzw.next + 1 ∧
            coder.entries[lzw.next - (lzw.clear + 2)]? = some (last ++ string.take 1)) ∨
          (lzw.next = maxCodes ∧ lzw.clear + 2 + coder.entries.length = maxCodes))

namespace InStep

variable {options : LzwOptions} {lzw : Lzw} {work : LzwWork} {coder : Coder}
  {string : List UInt8}

theorem clear (inStep : InStep options lzw work coder string) : lzw.clear = options.clear := by
  rw [inStep.table.clear, inStep.literalBits, LzwOptions.clear]

theorem of_bits (inStep : InStep options lzw work coder string) (bitbuf bitcnt : ℕ) :
    InStep options { lzw with bitbuf, bitcnt } work coder string :=
  ⟨inStep.table.of_bits _ _, inStep.literalBits, inStep.msbFirst, inStep.earlyChange,
    inStep.width, inStep.known, inStep.lag⟩

theorem of_stack (inStep : InStep options lzw work coder string) (stack : List UInt8) :
    InStep options lzw { work with stack } coder string := by
  refine ⟨inStep.table.of_stack _, inStep.literalBits, inStep.msbFirst, inStep.earlyChange,
    inStep.width, fun c above below => ?_, ?_⟩
  · obtain ⟨entry, found, spells⟩ := inStep.known c above below
    exact ⟨entry, found, spells.of_same rfl rfl⟩
  · rcases inStep.lag with fresh | ⟨last, later, spells, rest⟩
    · exact Or.inl fresh
    · exact Or.inr ⟨last, later, spells.of_same rfl rfl, rest⟩

theorem restart (inStep : InStep options lzw work coder string) (following : List UInt8) :
    InStep options lzw.restartTable work.forget (Coder.start options) following where
  table := inStep.table.restart
  literalBits := inStep.literalBits
  msbFirst := inStep.msbFirst
  earlyChange := inStep.earlyChange
  width := congrArg (· + 1) inStep.literalBits
  known := by
    intro c above below
    change lzw.clear + 2 ≤ c at above
    change c < lzw.clear + 2 at below
    omega
  lag := Or.inl ⟨rfl, rfl, rfl⟩

variable {code : ℕ} {following : List UInt8}

theorem fits (inStep : InStep options lzw work coder string) {phrase : List UInt8}
    (found : coder.lookup options code = some phrase) : code < 2 ^ lzw.width := by
  have table := inStep.table
  have full : maxCodes = 2 ^ 12 := rfl
  have top : lzw.clear + 2 + coder.entries.length ≤ lzw.next + 1 ∧ lzw.next ≤ maxCodes ∧
      lzw.clear + 2 + coder.entries.length ≤ maxCodes := by
    have := table.next
    rcases inStep.lag with ⟨_, none, next⟩ | ⟨_, _, _, _, ⟨_, lag, _⟩ | ⟨_, lag⟩⟩
    · rw [none, length_nil]
      omega
    · omega
    · omega
  have below : code < lzw.clear + 2 + coder.entries.length := by
    rw [Coder.lookup, ← inStep.clear] at found
    split at found
    · omega
    · split at found
      · obtain ⟨below, _⟩ := List.getElem?_eq_some_iff.mp found
        omega
      · simp at found
  rcases table.wide with wide | narrow
  · rw [wide, ← full]
    omega
  · omega

theorem follows {phrase : List UInt8}
    (inStep : InStep options lzw work coder (phrase ++ following))
    (found : coder.lookup options code = some phrase) (later : lzw.prev ≠ noCode) :
    Table.Follows lzw work code phrase := by
  rw [Coder.lookup, ← inStep.clear] at found
  split at found
  · rename_i low
    cases found
    have := inStep.table.next
    exact ⟨later, by omega, Or.inl ⟨by omega, ⟨by omega, by omega⟩, .literal code low⟩⟩
  · split at found
    · rename_i high
      refine ⟨later, by omega, ?_⟩
      by_cases known : code < lzw.next
      · obtain ⟨entry, found', spells⟩ := inStep.known code high known
        obtain rfl : phrase = entry := Option.some.inj (found.symm.trans found')
        exact Or.inl ⟨known, ⟨by omega, by omega⟩, spells⟩
      · obtain ⟨below, _⟩ := List.getElem?_eq_some_iff.mp found
        rcases inStep.lag with ⟨fresh, _⟩ | ⟨last, _, spells, head, ⟨room, lag, entry⟩ | ⟨full, lag⟩⟩
        · exact absurd fresh later
        · obtain rfl : code = lzw.next := by omega
          have eq : phrase = last ++ (phrase ++ following).take 1 :=
            Option.some.inj (found.symm.trans entry)
          refine Or.inr ⟨rfl, room, last, spells, ?_⟩
          obtain ⟨first, rest, rfl⟩ := exists_cons_of_ne_nil spells.ne_nil
          have first' : first = lzw.prevFirst := by simpa using head
          rw [eq]
          rw [cons_append] at eq
          rw [eq, first']
          simp
        · omega
    · simp at found

theorem firstPhrase {phrase : List UInt8}
    (inStep : InStep options lzw work coder (phrase ++ following))
    (found : coder.lookup options code = some phrase) (fresh : lzw.prev = noCode)
    (none : coder.entries = []) (next : lzw.next = lzw.clear + 2) :
    ∃ byte, phrase = [byte] ∧
      lzw.decode work code = some (.ok ({ lzw with prev := code, prevFirst := byte },
        { work with stack := phrase })) ∧
      InStep options { lzw with prev := code, prevFirst := byte } { work with stack := phrase }
        (coder.emit options phrase following) following := by
  have big := inStep.table.clear_bounds
  rw [Coder.lookup, ← inStep.clear] at found
  split at found
  · rename_i low
    cases found
    have emit : coder.emit options [UInt8.ofNat code] following =
        { entries := [[UInt8.ofNat code] ++ following.take 1], width := coder.width } := by
      have room : lzw.clear + 2 < maxCodes := by
        unfold maxCodes
        omega
      have narrow : ¬ 2 ^ coder.width < lzw.clear + 2 + 1 + options.earlyChange.toNat := by
        have early := Bool.toNat_le options.earlyChange
        have wide : lzw.clear * 2 ≤ 2 ^ coder.width := by
          rw [inStep.table.clear, ← Nat.pow_succ]
          exact Nat.pow_le_pow_right (by decide) (inStep.width ▸ inStep.table.width.1)
        omega
      rw [Coder.emit, Coder.next, none, length_nil, Nat.add_zero, ← inStep.clear, if_pos room,
        if_neg (by simp [narrow])]
      rfl
    refine ⟨UInt8.ofNat code, rfl, ?_, ?_⟩
    · rw [Lzw.decode, if_neg (by omega), if_pos fresh, if_neg (by omega)]
    · rw [emit]
      refine ⟨inStep.table.first low _ _, inStep.literalBits, inStep.msbFirst, inStep.earlyChange,
        inStep.width, fun c above below => ?_, Or.inr ⟨[UInt8.ofNat code], ?_, ?_, rfl, ?_⟩⟩
      · change lzw.clear + 2 ≤ c at above
        change c < lzw.next at below
        omega
      · change code ≠ 0xFFFF
        omega
      · exact .literal code low
      · refine Or.inl ⟨?_, ?_, ?_⟩
        · change lzw.next < maxCodes
          unfold maxCodes
          omega
        · change lzw.clear + 2 + 1 = lzw.next + 1
          omega
        · change [[UInt8.ofNat code] ++ following.take 1][lzw.next - (lzw.clear + 2)]? = _
          rw [next, Nat.sub_self]
          rfl
  · rw [none] at found
    split at found <;> simp at found

theorem nextPhrase {phrase last : List UInt8}
    (inStep : InStep options lzw work coder (phrase ++ following))
    (found : coder.lookup options code = some phrase) (later : lzw.prev ≠ noCode)
    (spells : Spells lzw.clear work lzw.prev last) (room : lzw.next < maxCodes)
    (lag : lzw.clear + 2 + coder.entries.length = lzw.next + 1)
    (entry : coder.entries[lzw.next - (lzw.clear + 2)]? = some (last ++ (phrase ++ following).take 1))
    {first : UInt8} {rest : List UInt8} (shape : phrase = first :: rest) :
    InStep options
      { (lzw.addEntry { work with stack := phrase } first).1 with prev := code, prevFirst := first }
      (lzw.addEntry { work with stack := phrase } first).2
      (coder.emit options phrase following) following := by
  have follows := inStep.follows found later
  have table := inStep.table.follows follows first
  have bounds := inStep.table.next
  obtain ⟨known, isPhrase⟩ := inStep.table.prev_known later
  have coderNext : coder.next options = lzw.next + 1 := by
    rw [Coder.next, ← inStep.clear, lag]
  have one : 1 <<< lzw.width = 2 ^ lzw.width := Nat.one_shiftLeft _
  simp only [Lzw.addEntry, if_pos room, one] at table ⊢
  -- the entries that were known, and the one that was not
  have entries : ∀ c, lzw.clear + 2 ≤ c → c < lzw.next + 1 → ∃ string,
      coder.entries[c - (lzw.clear + 2)]? = some string ∧
        Spells lzw.clear
          { prefixOf := Function.update work.prefixOf lzw.next (some lzw.prev)
            suffixOf := Function.update work.suffixOf lzw.next (some first), stack := phrase }
          c string := by
    intro c above below
    by_cases here : c = lzw.next
    · subst here
      refine ⟨last ++ [first], ?_, ?_⟩
      · rw [entry, shape]
        rfl
      · exact .entry lzw.next lzw.prev first last (by omega) (by simp) (by simp)
          (inStep.table.spells_update known isPhrase spells)
    · obtain ⟨string, found, spells⟩ := inStep.known c above (by omega)
      exact ⟨string, found, inStep.table.spells_update (by omega) ⟨by omega, by omega⟩ spells⟩
  have spelt : Spells lzw.clear
      { prefixOf := Function.update work.prefixOf lzw.next (some lzw.prev)
        suffixOf := Function.update work.suffixOf lzw.next (some first), stack := phrase }
      code phrase := by
    have found' := found
    rw [Coder.lookup, ← inStep.clear] at found'
    split at found'
    · rename_i low
      cases found'
      exact .literal code low
    · split at found'
      · rename_i high
        obtain ⟨below, _⟩ := List.getElem?_eq_some_iff.mp found'
        obtain ⟨string, found, spells⟩ := entries code high (by omega)
        obtain rfl : phrase = string := Option.some.inj (found'.symm.trans found)
        exact spells
      · simp at found'
  have code' : code ≠ noCode := by
    have fits := inStep.fits found
    have : 2 ^ lzw.width ≤ 2 ^ 12 := Nat.pow_le_pow_right (by decide) inStep.table.width.2
    unfold noCode
    omega
  by_cases space : coder.next options < maxCodes
  · have emit : coder.emit options phrase following =
        { entries := coder.entries ++ [phrase ++ following.take 1]
          width := if lzw.width < 12 ∧ 2 ^ lzw.width ≤ lzw.next + 1 + lzw.earlyChange.toNat
            then lzw.width + 1 else lzw.width } := by
      rw [Coder.emit, if_pos space, coderNext, ← inStep.width, ← inStep.earlyChange]
      congr 1
      have same : 2 ^ lzw.width < lzw.next + 1 + 1 + lzw.earlyChange.toNat ↔
          2 ^ lzw.width ≤ lzw.next + 1 + lzw.earlyChange.toNat := by
        omega
      simp only [same]
    rw [emit]
    refine ⟨table, inStep.literalBits, inStep.msbFirst, inStep.earlyChange, rfl,
      fun c above below => ?_, Or.inr ⟨phrase, code', spelt, by rw [shape]; rfl, Or.inl ⟨?_, ?_, ?_⟩⟩⟩
    · obtain ⟨string, found, spells⟩ := entries c above below
      refine ⟨string, ?_, spells⟩
      obtain ⟨below, _⟩ := List.getElem?_eq_some_iff.mp found
      change (coder.entries ++ _)[c - (lzw.clear + 2)]? = _
      rw [List.getElem?_append_left below, found]
    · exact coderNext ▸ space
    · change lzw.clear + 2 + (coder.entries ++ [_]).length = lzw.next + 1 + 1
      rw [length_append, length_singleton]
      omega
    · change (coder.entries ++ [phrase ++ following.take 1])[lzw.next + 1 - (lzw.clear + 2)]? = _
      rw [show lzw.next + 1 - (lzw.clear + 2) = coder.entries.length by omega,
        List.getElem?_append_right (Nat.le_refl _), Nat.sub_self]
      rfl
  · have full : lzw.next + 1 = maxCodes := by omega
    have wide : lzw.width = 12 := by
      by_contra narrow
      have top := inStep.table.width.2
      have small : 2 ^ lzw.width ≤ 2 ^ 11 := Nat.pow_le_pow_right (by decide) (by omega)
      have := inStep.table.wide.resolve_left narrow
      unfold maxCodes at full
      omega
    have emit : coder.emit options phrase following = coder := by
      rw [Coder.emit, if_neg space]
    rw [emit]
    refine ⟨table, inStep.literalBits, inStep.msbFirst, inStep.earlyChange, ?_, entries,
      Or.inr ⟨phrase, code', spelt, by rw [shape]; rfl, Or.inr ⟨full, by rw [lag]; exact full⟩⟩⟩
    simp [wide, ← inStep.width]

theorem lastPhrase {phrase : List UInt8}
    (inStep : InStep options lzw work coder (phrase ++ following))
    (found : coder.lookup options code = some phrase) (later : lzw.prev ≠ noCode)
    (full : lzw.next = maxCodes) (lag : lzw.clear + 2 + coder.entries.length = maxCodes)
    {first : UInt8} {rest : List UInt8} (shape : phrase = first :: rest) :
    InStep options
      { (lzw.addEntry { work with stack := phrase } first).1 with prev := code, prevFirst := first }
      (lzw.addEntry { work with stack := phrase } first).2
      (coder.emit options phrase following) following := by
  have follows := inStep.follows found later
  have table := inStep.table.follows follows first
  have stays : ¬ lzw.next < maxCodes := by omega
  have space : ¬ coder.next options < maxCodes := by
    rw [Coder.next, ← inStep.clear]
    omega
  simp only [Lzw.addEntry, if_neg stays] at table ⊢
  rw [Coder.emit, if_neg space]
  have code' : code ≠ noCode := by
    have fits := inStep.fits found
    have : 2 ^ lzw.width ≤ 2 ^ 12 := Nat.pow_le_pow_right (by decide) inStep.table.width.2
    unfold noCode
    omega
  refine ⟨table, inStep.literalBits, inStep.msbFirst, inStep.earlyChange, inStep.width,
    fun c above below => ?_, Or.inr ⟨phrase, code', ?_, by rw [shape]; rfl, Or.inr ⟨full, lag⟩⟩⟩
  · obtain ⟨entry, found, spells⟩ := inStep.known c above below
    exact ⟨entry, found, spells.of_same rfl rfl⟩
  · rcases follows.spells with ⟨_, _, spells⟩ | ⟨_, room, _⟩
    · exact spells.of_same rfl rfl
    · exact absurd room stays

theorem phrase {phrase : List UInt8}
    (inStep : InStep options lzw work coder (phrase ++ following))
    (found : coder.lookup options code = some phrase) :
    ∃ lzw' work', lzw.decode work code = some (.ok (lzw', work')) ∧ work'.stack = phrase ∧
      InStep options lzw' work' (coder.emit options phrase following) following ∧
        ∃ next width prev prevFirst, lzw' = { lzw with next, width, prev, prevFirst } := by
  rcases inStep.lag with ⟨fresh, none, next⟩ | ⟨last, later, spells, _, lag⟩
  · obtain ⟨byte, _, eq, inStep'⟩ := inStep.firstPhrase found fresh none next
    exact ⟨_, _, eq, rfl, inStep', _, _, _, _, rfl⟩
  · obtain ⟨first, rest, shape, eq⟩ := inStep.table.decode_follows (inStep.follows found later)
    obtain ⟨next, width, frame⟩ := Table.addEntry_frame lzw { work with stack := phrase } first
    refine ⟨_, _, eq, Table.addEntry_stack _ _ _, ?_, next, width, code, first, by rw [frame]⟩
    rcases lag with ⟨room, lag, entry⟩ | ⟨full, lag⟩
    · exact inStep.nextPhrase found later spells room lag entry shape
    · exact inStep.lastPhrase found later full lag shape

theorem clear_fits (inStep : InStep options lzw work coder string) :
    lzw.clear + 1 < 2 ^ lzw.width := by
  have big := inStep.table.clear_bounds
  have double : lzw.clear * 2 ≤ 2 ^ lzw.width := by
    rw [inStep.table.clear, ← Nat.pow_succ]
    exact Nat.pow_le_pow_right (by decide) inStep.table.width.1
  omega

theorem head {codes : List (ℕ × ℕ)} (inStep : InStep options lzw work coder string)
    (encodes : Encodes options coder string codes) :
    ∃ code later, codes = (code, lzw.width) :: later ∧ code < 2 ^ lzw.width := by
  have fits := inStep.clear_fits
  cases encodes with
  | done => exact ⟨_, _, by rw [inStep.width], by rwa [← inStep.clear]⟩
  | clear _ later =>
    rw [inStep.clear] at fits
    exact ⟨_, _, by rw [inStep.width], by omega⟩
  | phrase _ code phrase following found later => exact ⟨_, _, by rw [inStep.width], inStep.fits found⟩

theorem next {width : ℕ} {later : List (ℕ × ℕ)} (inStep : InStep options lzw work coder string)
    (encodes : Encodes options coder string ((code, width) :: later)) (empty : work.stack = []) :
    (code = lzw.clear + 1 ∧ string = []) ∨
      code ≠ lzw.clear + 1 ∧ ∃ lzw' work' coder' following,
        lzw.decode work code = some (.ok (lzw', work')) ∧ string = work'.stack ++ following ∧
          InStep options lzw' work' coder' following ∧ Encodes options coder' following later ∧
            ∃ next width prev prevFirst, lzw' = { lzw with next, width, prev, prevFirst } := by
  have big := inStep.table.clear_bounds
  cases encodes with
  | done => exact Or.inl ⟨by rw [inStep.clear], rfl⟩
  | clear _ encodes =>
    refine Or.inr ⟨by rw [← inStep.clear]; omega, lzw.restartTable, work.forget, _, string, ?_, ?_,
      inStep.restart string, encodes, _, _, _, _, rfl⟩
    · rw [Lzw.decode, if_pos inStep.clear.symm]
    · rw [show work.forget.stack = [] from empty, nil_append]
  | phrase _ _ phrase following found encodes =>
    obtain ⟨lzw', work', eq, rfl, inStep', frame⟩ := inStep.phrase found
    refine Or.inr ⟨?_, lzw', work', _, following, eq, rfl, inStep', encodes, frame⟩
    rw [Coder.lookup, ← inStep.clear] at found
    rintro rfl
    rw [if_neg (by omega), if_neg (by omega)] at found
    cases found

end InStep

/-- Every string over the literals has an encoding: at least the one that
writes every byte as its literal. -/
theorem Encodes.of_literals {options : LzwOptions} (coder : Coder) {string : List UInt8}
    (literals : ∀ byte ∈ string, byte.toNat < options.clear) :
    ∃ codes, Encodes options coder string codes := by
  induction string generalizing coder with
  | nil => exact ⟨_, .done coder⟩
  | cons byte string ih =>
    obtain ⟨codes, encodes⟩ := ih (coder.emit options [byte] string)
      fun other member => literals other (mem_cons_of_mem _ member)
    refine ⟨_, .phrase coder byte.toNat [byte] string ?_ encodes⟩
    rw [Coder.lookup, if_pos (literals byte (by simp)), UInt8.ofNat_toNat]

end EspDevkit.Compression
