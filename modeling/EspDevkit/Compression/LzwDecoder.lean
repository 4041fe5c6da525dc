import Mathlib.Algebra.Group.Nat.Defs
import Mathlib.Data.Nat.Notation
import Mathlib.Data.List.Basic
import Mathlib.Logic.Function.Basic

/-!
# The LZW decoder

A streaming decoder of variable-width LZW, with the input it reads block by
block.  An access outside the stack, or to a table entry that was not written
since the table was last restarted, ends a run of the model with `none`.
-/

namespace EspDevkit.Compression

inductive Error
  | corrupt
  | truncated
  | source
  | notStarted
  deriving DecidableEq, Repr

structure Source where
  blocks : List (List UInt8)
  broken : Bool := false
  filled : ∀ block ∈ blocks, block ≠ []

namespace Source

def data (source : Source) : List UInt8 := source.blocks.flatten

def fillBuf (source : Source) : Except Error (List UInt8) :=
  match source.blocks with
  | [] => if source.broken then .error .source else .ok []
  | block :: _ => .ok block

def consume (source : Source) (n : ℕ) : Source where
  blocks := match source.blocks with
    | [] => []
    | block :: blocks => if (block.drop n).isEmpty then blocks else block.drop n :: blocks
  broken := source.broken
  filled := by
    intro block member
    have filled := source.filled
    split at member
    · simp at member
    · rename_i first blocks eq
      rw [eq] at filled
      split at member
      · exact filled block (List.mem_cons_of_mem _ member)
      · rename_i left
        rcases List.mem_cons.mp member with rfl | member
        · simpa using left
        · exact filled block (List.mem_cons_of_mem _ member)

end Source

/-- The input of one `read` call: what is left of the current block, and how
much of it was used. -/
structure Input where
  source : Source
  rest : List UInt8 := []
  used : ℕ := 0

namespace Input

def release (input : Input) : Input :=
  { input with
    source := if input.used = 0 then input.source else input.source.consume input.used
    used := 0 }

def refill (input : Input) : Except Error (Option UInt8) × Input :=
  let input := input.release
  match input.source.fillBuf with
  | .error error => (.error error, input)
  | .ok [] => (.ok none, input)
  | .ok (first :: rest) => (.ok (some first), { input with rest, used := 1 })

def byte (input : Input) : Except Error (Option UInt8) × Input :=
  match input.rest with
  | [] => input.refill
  | b :: rest => (.ok (some b), { input with rest, used := input.used + 1 })

end Input

def maxCodes : ℕ := 4096

def noCode : ℕ := 0xFFFF

structure LzwOptions where
  literalBits : ℕ
  msbFirst : Bool
  earlyChange : Bool

structure LzwWork where
  prefixOf : ℕ → Option ℕ := fun _ => none
  suffixOf : ℕ → Option UInt8 := fun _ => none
  stack : List UInt8 := []

def LzwWork.forget (work : LzwWork) : LzwWork :=
  { work with prefixOf := fun _ => none, suffixOf := fun _ => none }

structure Lzw where
  bitbuf : ℕ := 0
  bitcnt : ℕ := 0
  clear : ℕ := 0
  next : ℕ := 0
  prev : ℕ := 0
  prevFirst : UInt8 := 0
  width : ℕ := 0
  literalBits : ℕ := 0
  msbFirst : Bool := false
  earlyChange : Bool := false
  started : Bool := false
  ended : Bool := false
  failed : Option Error := none

namespace Lzw

def restartTable (lzw : Lzw) : Lzw :=
  { lzw with width := lzw.literalBits + 1, next := lzw.clear + 2, prev := noCode }

def start (options : LzwOptions) (work : LzwWork) : Except Error (Lzw × LzwWork) :=
  if 2 ≤ options.literalBits ∧ options.literalBits ≤ 8 then
    let lzw : Lzw :=
      { literalBits := options.literalBits
        msbFirst := options.msbFirst
        earlyChange := options.earlyChange
        clear := 1 <<< options.literalBits }
    .ok ({ lzw.restartTable with started := true },
      { work.forget with
        suffixOf := fun i => if i < lzw.clear then some (UInt8.ofNat i) else none
        stack := [] })
  else .error .corrupt

/-- The loop of `next_code`: whether there are bits for a code. -/
def fill (lzw : Lzw) (input : Input) : ℕ → Except Error Bool × Lzw × Input
  | 0 => (.ok true, lzw, input)
  | fuel + 1 =>
    if lzw.bitcnt < lzw.width then
      match input.byte with
      | (.error error, input) => (.error error, lzw, input)
      | (.ok none, input) => (.ok false, lzw, input)
      | (.ok (some c), input) =>
        let bitbuf := if lzw.msbFirst then lzw.bitbuf <<< 8 ||| c.toNat
          else lzw.bitbuf ||| c.toNat <<< lzw.bitcnt
        fill { lzw with bitbuf, bitcnt := lzw.bitcnt + 8 } input fuel
    else (.ok true, lzw, input)

def nextCode (lzw : Lzw) (input : Input) : Except Error (Option ℕ) × Lzw × Input :=
  match lzw.fill input lzw.width with
  | (.error error, lzw, input) => (.error error, lzw, input)
  | (.ok false, lzw, input) => (.ok none, lzw, input)
  | (.ok true, lzw, input) =>
    let mask := 1 <<< lzw.width - 1
    let bitcnt := lzw.bitcnt - lzw.width
    if lzw.msbFirst then
      (.ok (some ((lzw.bitbuf >>> bitcnt) &&& mask)),
        { lzw with bitcnt, bitbuf := lzw.bitbuf &&& (1 <<< bitcnt - 1) }, input)
    else
      (.ok (some (lzw.bitbuf &&& mask)),
        { lzw with bitcnt, bitbuf := lzw.bitbuf >>> lzw.width }, input)

/-- Follows the chain of a code down to a literal and leaves the bytes on the
way on the stack. -/
def unwind (clear : ℕ) (work : LzwWork) : ℕ → ℕ → List UInt8 → Option (ℕ × List UInt8)
  | 0, _, _ => none
  | fuel + 1, c, stack =>
    if clear < c then
      if stack.length < maxCodes then
        match work.suffixOf c, work.prefixOf c with
        | some suffix, some c => unwind clear work fuel c (suffix :: stack)
        | _, _ => none
      else none
    else some (c, stack)

def addEntry (lzw : Lzw) (work : LzwWork) (first : UInt8) : Lzw × LzwWork :=
  if lzw.next < maxCodes then
    let next := lzw.next + 1
    ({ lzw with
        next
        width := if lzw.width < 12 ∧ 1 <<< lzw.width ≤ next + lzw.earlyChange.toNat
          then lzw.width + 1 else lzw.width },
      { work with
        prefixOf := Function.update work.prefixOf lzw.next (some lzw.prev)
        suffixOf := Function.update work.suffixOf lzw.next (some first) })
  else (lzw, work)

def decode (lzw : Lzw) (work : LzwWork) (code : ℕ) : Option (Except Error (Lzw × LzwWork)) :=
  if code = lzw.clear then some (.ok (lzw.restartTable, work.forget))
  else if lzw.prev = noCode then
    if lzw.clear < code then some (.error .corrupt)
    else
      let first := UInt8.ofNat code
      some (.ok ({ lzw with prev := code, prevFirst := first }, { work with stack := [first] }))
  else
    let from' : Option (ℕ × List UInt8) :=
      if code < lzw.next then some (code, [])
      else if code = lzw.next ∧ lzw.next < maxCodes then some (lzw.prev, [lzw.prevFirst])
      else none
    match from' with
    | none => some (.error .corrupt)
    | some (c, stack) =>
      match unwind lzw.clear work (maxCodes + 1) c stack with
      | none => none
      | some (c, stack) =>
        if stack.length < maxCodes then
          let first := UInt8.ofNat c
          let (lzw, work) := lzw.addEntry { work with stack := first :: stack } first
          some (.ok ({ lzw with prev := code, prevFirst := first }, work))
        else none

/-- What a `read` gives: the bytes or an error, and the state after it. -/
structure Outcome where
  result : Except Error (List UInt8)
  lzw : Lzw
  work : LzwWork
  input : Input

def Outcome.after (outcome : Outcome) (bytes : List UInt8) : Outcome :=
  { outcome with result := outcome.result.map fun more => bytes ++ more }

/-- The loop of `run`, for `out` of so many bytes. -/
def run : ℕ → Lzw → LzwWork → Input → ℕ → Option Outcome
  | 0, _, _, _, _ => none
  | fuel + 1, lzw, work, input, out =>
    let taken := work.stack.take out
    let work := { work with stack := work.stack.drop out }
    let out := out - taken.length
    if out = 0 ∨ lzw.ended then some ⟨.ok taken, lzw, work, input⟩
    else
      match lzw.nextCode input with
      | (.error error, lzw, input) => some ⟨.error error, lzw, work, input⟩
      | (.ok none, lzw, input) => some ⟨.ok taken, { lzw with ended := true }, work, input⟩
      | (.ok (some code), lzw, input) =>
        if code = lzw.clear + 1 then some ⟨.ok taken, { lzw with ended := true }, work, input⟩
        else
          match lzw.decode work code with
          | none => none
          | some (.error error) => some ⟨.error error, lzw, work, input⟩
          | some (.ok (lzw, work)) =>
            (run fuel lzw work input out).map fun outcome => outcome.after taken

/-- More turns than `run` can take. -/
def turns (lzw : Lzw) (source : Source) : ℕ := 8 * source.data.length + lzw.bitcnt + 1

def read (lzw : Lzw) (work : LzwWork) (source : Source) (out : ℕ) : Option Outcome :=
  if !lzw.started then some ⟨.error .notStarted, lzw, work, { source }⟩
  else
    match lzw.failed with
    | some error => some ⟨.error error, lzw, work, { source }⟩
    | none =>
      (lzw.run (lzw.turns source) work { source } out).map fun outcome =>
        { outcome with
          input := outcome.input.release
          lzw := match outcome.result with
            | .ok _ => outcome.lzw
            | .error error => { outcome.lzw with failed := some error } }

/-- One `read` after another, with `out` of these sizes: what each gives. -/
def reads (lzw : Lzw) (work : LzwWork) (source : Source) :
    List ℕ → Option (List (Except Error (List UInt8)))
  | [] => some []
  | out :: sizes => do
    let outcome ← lzw.read work source out
    let later ← reads outcome.lzw outcome.work outcome.input.source sizes
    pure (outcome.result :: later)

end Lzw

end EspDevkit.Compression

/-!
## The table of the LZW decoder

What the entries of the table spell, and that a code's string fits the stack:
the entry of a code leads to an older one, so its string is no longer than the
codes are many.
-/

namespace EspDevkit.Compression

open Lzw List

inductive Spells (clear : ℕ) (work : LzwWork) : ℕ → List UInt8 → Prop
  | literal (c : ℕ) (low : c < clear) : Spells clear work c [UInt8.ofNat c]
  | entry (c p : ℕ) (suffix : UInt8) (string : List UInt8) (high : clear < c)
      (prefixOf : work.prefixOf c = some p) (suffixOf : work.suffixOf c = some suffix)
      (older : Spells clear work p string) : Spells clear work c (string ++ [suffix])

namespace Spells

variable {clear c : ℕ} {work : LzwWork} {string : List UInt8}

theorem ne_nil (spells : Spells clear work c string) : string ≠ [] := by
  cases spells <;> simp

theorem length_pos (spells : Spells clear work c string) : 0 < string.length :=
  length_pos_iff.mpr spells.ne_nil

theorem unique (spells : Spells clear work c string) {other : List UInt8}
    (again : Spells clear work c other) : string = other := by
  induction spells generalizing other with
  | literal c low =>
    cases again with
    | literal => rfl
    | entry _ p suffix string high => omega
  | entry c p suffix string high prefixOf suffixOf older ih =>
    cases again with
    | literal _ low => omega
    | entry _ p' suffix' string' high' prefixOf' suffixOf' older' =>
      obtain rfl : p = p' := Option.some.inj (prefixOf.symm.trans prefixOf')
      obtain rfl : suffix = suffix' := Option.some.inj (suffixOf.symm.trans suffixOf')
      rw [ih older']

theorem of_same (spells : Spells clear work c string) {work' : LzwWork}
    (prefixOf : work'.prefixOf = work.prefixOf) (suffixOf : work'.suffixOf = work.suffixOf) :
    Spells clear work' c string := by
  induction spells with
  | literal c low => exact .literal c low
  | entry c p suffix string high prefixEq suffixEq _ ih =>
    exact .entry c p suffix string high (by rw [prefixOf, prefixEq]) (by rw [suffixOf, suffixEq]) ih

theorem unwind (spells : Spells clear work c string) {fuel : ℕ} {stack : List UInt8}
    (enough : string.length ≤ fuel) (room : string.length + stack.length ≤ maxCodes) :
    ∃ literal rest, Lzw.unwind clear work fuel c stack = some (literal, rest ++ stack) ∧
      string = UInt8.ofNat literal :: rest ∧ literal < clear := by
  induction spells generalizing fuel stack with
  | literal c low =>
    obtain ⟨fuel, rfl⟩ : ∃ more, fuel = more + 1 :=
      ⟨fuel - 1, by rw [length_singleton] at enough; omega⟩
    exact ⟨c, [], by simp [Lzw.unwind, Nat.not_lt.mpr (Nat.le_of_lt low)], rfl, low⟩
  | entry c p suffix string high prefixOf suffixOf older ih =>
    rw [length_append, length_singleton] at enough room
    have some := older.length_pos
    obtain ⟨fuel, rfl⟩ : ∃ more, fuel = more + 1 := ⟨fuel - 1, by omega⟩
    obtain ⟨literal, rest, eq, spelt, low⟩ := @ih fuel (suffix :: stack) (by omega)
      (by rw [length_cons]; omega)
    refine ⟨literal, rest ++ [suffix], ?_, by rw [spelt]; rfl, low⟩
    have space : stack.length < maxCodes := by omega
    simp only [Lzw.unwind, if_pos high, if_pos space, suffixOf, prefixOf, eq, append_assoc,
      singleton_append]

end Spells

def IsPhrase (clear code : ℕ) : Prop := code ≠ clear ∧ code ≠ clear + 1

structure Table (lzw : Lzw) (work : LzwWork) : Prop where
  literal : 2 ≤ lzw.literalBits ∧ lzw.literalBits ≤ 8
  clear : lzw.clear = 2 ^ lzw.literalBits
  width : lzw.literalBits + 1 ≤ lzw.width ∧ lzw.width ≤ 12
  next : lzw.clear + 2 ≤ lzw.next ∧ lzw.next ≤ maxCodes
  wide : lzw.width = 12 ∨ lzw.next + lzw.earlyChange.toNat < 2 ^ lzw.width
  prev : lzw.prev = noCode ∨ lzw.prev < lzw.next ∧ IsPhrase lzw.clear lzw.prev
  entries : ∀ c, lzw.clear + 2 ≤ c → c < lzw.next → ∃ p suffix,
    work.prefixOf c = some p ∧ work.suffixOf c = some suffix ∧ p < c ∧ IsPhrase lzw.clear p

namespace Table

variable {lzw : Lzw} {work : LzwWork}

theorem clear_bounds (table : Table lzw work) : 4 ≤ lzw.clear ∧ lzw.clear ≤ 256 := by
  rw [table.clear]
  constructor
  · calc 4 = 2 ^ 2 := rfl
      _ ≤ 2 ^ lzw.literalBits := Nat.pow_le_pow_right (by decide) table.literal.1
  · calc 2 ^ lzw.literalBits ≤ 2 ^ 8 := Nat.pow_le_pow_right (by decide) table.literal.2
      _ = 256 := rfl

theorem spells (table : Table lzw work) {c : ℕ} (known : c < lzw.next)
    (phrase : IsPhrase lzw.clear c) :
    ∃ string, Spells lzw.clear work c string ∧ string.length ≤ 1 + (c - lzw.clear) := by
  induction c using Nat.strongRecOn with
  | _ c ih =>
    by_cases low : c < lzw.clear
    · exact ⟨_, .literal c low, by simp⟩
    · obtain ⟨notClear, notEnd⟩ := phrase
      obtain ⟨p, suffix, prefixOf, suffixOf, older, phrase⟩ :=
        table.entries c (by omega) known
      obtain ⟨string, spelt, short⟩ := ih p older (by omega) phrase
      refine ⟨_, .entry c p suffix string (by omega) prefixOf suffixOf spelt, ?_⟩
      rw [length_append, length_singleton]
      omega

theorem spells_update (table : Table lzw work) {c p : ℕ} {first : UInt8} {string stack : List UInt8}
    (known : c < lzw.next) (phrase : IsPhrase lzw.clear c)
    (spells : Spells lzw.clear work c string) :
    Spells lzw.clear
      { prefixOf := Function.update work.prefixOf lzw.next (some p)
        suffixOf := Function.update work.suffixOf lzw.next (some first), stack } c string := by
  induction spells with
  | literal c low => exact .literal c low
  | entry c q suffix string high prefixOf suffixOf older ih =>
    have away : c ≠ lzw.next := Nat.ne_of_lt known
    have notEnd := phrase.2
    obtain ⟨q', _, prefixOf', _, below, phrase⟩ := table.entries c (by omega) known
    obtain rfl : q = q' := Option.some.inj (prefixOf.symm.trans prefixOf')
    exact .entry c q suffix string high (by simpa [away] using prefixOf)
      (by simpa [away] using suffixOf) (ih (by omega) phrase)

theorem of_bits (table : Table lzw work) (bitbuf bitcnt : ℕ) :
    Table { lzw with bitbuf, bitcnt } work :=
  ⟨table.literal, table.clear, table.width, table.next, table.wide, table.prev, table.entries⟩

theorem of_stack (table : Table lzw work) (stack : List UInt8) : Table lzw { work with stack } :=
  ⟨table.literal, table.clear, table.width, table.next, table.wide, table.prev, table.entries⟩

theorem restart (table : Table lzw work) : Table lzw.restartTable work.forget where
  literal := table.literal
  clear := table.clear
  width := ⟨Nat.le_refl _, by have := table.literal; change lzw.literalBits + 1 ≤ 12; omega⟩
  next := ⟨Nat.le_refl _, by have := table.clear_bounds; change lzw.clear + 2 ≤ maxCodes; unfold maxCodes; omega⟩
  wide := by
    refine Or.inr ?_
    have big := table.clear_bounds
    have early := Bool.toNat_le lzw.earlyChange
    change lzw.clear + 2 + lzw.earlyChange.toNat < 2 ^ (lzw.literalBits + 1)
    rw [Nat.pow_succ, ← table.clear]
    omega
  prev := Or.inl rfl
  entries := by
    intro c above below
    change lzw.clear + 2 ≤ c at above
    change c < lzw.clear + 2 at below
    omega

theorem addEntry (table : Table lzw work) (first : UInt8) (known : lzw.prev < lzw.next)
    (phrase : IsPhrase lzw.clear lzw.prev) :
    Table (lzw.addEntry work first).1 (lzw.addEntry work first).2 := by
  unfold Lzw.addEntry
  split
  · rename_i room
    have one : 1 <<< lzw.width = 2 ^ lzw.width := Nat.one_shiftLeft _
    refine ⟨table.literal, table.clear, ?_, ?_, ?_, Or.inr ⟨Nat.lt_succ_of_lt known, phrase⟩, ?_⟩
    · obtain ⟨low, high⟩ := table.width
      dsimp only
      split <;> omega
    · exact ⟨Nat.le_succ_of_le table.next.1, room⟩
    · dsimp only
      rw [one]
      split
      · rename_i widens
        refine (Nat.lt_or_ge (lzw.width + 1) 12).elim (fun _ => Or.inr ?_) fun _ => Or.inl (by omega)
        rcases table.wide with full | narrow
        · omega
        · rw [Nat.pow_succ]
          have : 2 ^ lzw.width ≥ 8 := by
            calc 8 = 2 ^ 3 := rfl
              _ ≤ 2 ^ lzw.width := Nat.pow_le_pow_right (by decide) (by
                have := table.literal
                have := table.width
                omega)
          omega
      · rename_i stays
        rcases table.wide with full | narrow
        · exact Or.inl full
        · by_cases full : lzw.width = 12
          · exact Or.inl full
          · have := table.width
            refine Or.inr ?_
            by_contra wide
            exact stays ⟨by omega, by omega⟩
    · intro c above below
      by_cases here : c = lzw.next
      · subst here
        exact ⟨lzw.prev, first, by simp, by simp, known, phrase⟩
      · have older : c < lzw.next := by
          change c < lzw.next + 1 at below
          omega
        obtain ⟨p, suffix, prefixOf, suffixOf, rest⟩ := table.entries c above older
        exact ⟨p, suffix, by simpa [here] using prefixOf, by simpa [here] using suffixOf, rest⟩
  · exact table

theorem addEntry_next (lzw : Lzw) (work : LzwWork) (first : UInt8) :
    (lzw.addEntry work first).1.next = if lzw.next < maxCodes then lzw.next + 1 else lzw.next := by
  unfold Lzw.addEntry
  split <;> rfl

theorem addEntry_frame (lzw : Lzw) (work : LzwWork) (first : UInt8) :
    ∃ next width, (lzw.addEntry work first).1 = { lzw with next, width } := by
  unfold Lzw.addEntry
  split <;> exact ⟨_, _, rfl⟩

theorem addEntry_stack (lzw : Lzw) (work : LzwWork) (first : UInt8) :
    (lzw.addEntry work first).2.stack = work.stack := by
  unfold Lzw.addEntry
  split <;> rfl

/-- A code after the first of a table, that spells `string`. -/
structure Follows (lzw : Lzw) (work : LzwWork) (code : ℕ) (string : List UInt8) : Prop where
  later : lzw.prev ≠ noCode
  notClear : code ≠ lzw.clear
  spells : (code < lzw.next ∧ IsPhrase lzw.clear code ∧ Spells lzw.clear work code string) ∨
    (code = lzw.next ∧ lzw.next < maxCodes ∧ ∃ older, Spells lzw.clear work lzw.prev older ∧
      string = older ++ [lzw.prevFirst])

theorem prev_known (table : Table lzw work) (later : lzw.prev ≠ noCode) :
    lzw.prev < lzw.next ∧ IsPhrase lzw.clear lzw.prev :=
  table.prev.resolve_left later

theorem short (table : Table lzw work) {c : ℕ} {string : List UInt8} (known : c < lzw.next)
    (phrase : IsPhrase lzw.clear c) (spells : Spells lzw.clear work c string) :
    string.length + 1 < maxCodes := by
  obtain ⟨other, spells', short⟩ := table.spells known phrase
  rw [spells.unique spells']
  have := table.clear_bounds
  have := table.next
  unfold maxCodes at this ⊢
  omega

theorem decode_follows (table : Table lzw work) {code : ℕ} {string : List UInt8}
    (follows : Follows lzw work code string) : ∃ first rest, string = first :: rest ∧
      lzw.decode work code =
        some (.ok
          ({ (lzw.addEntry { work with stack := string } first).1 with
              prev := code, prevFirst := first },
            (lzw.addEntry { work with stack := string } first).2)) := by
  obtain ⟨later, notClear, spells⟩ := follows
  have finish : ∀ {c : ℕ} {stack older : List UInt8}, Spells lzw.clear work c older →
      older.length + stack.length < maxCodes →
        ∃ literal rest, Lzw.unwind lzw.clear work (maxCodes + 1) c stack =
          some (literal, rest ++ stack) ∧ older = UInt8.ofNat literal :: rest ∧
            (rest ++ stack).length < maxCodes := by
    intro c stack older spells room
    obtain ⟨literal, rest, eq, spelt, _⟩ :=
      @Spells.unwind _ _ _ _ spells (maxCodes + 1) stack (by omega) (by omega)
    refine ⟨literal, rest, eq, spelt, ?_⟩
    rw [spelt, length_cons] at room
    rw [length_append]
    omega
  rcases spells with ⟨known, phrase, spells⟩ | ⟨rfl, room, older, spells, rfl⟩
  · have short := table.short known phrase spells
    obtain ⟨literal, rest, eq, spelt, space⟩ := @finish code [] string spells (by
      rw [length_nil]
      omega)
    rw [append_nil] at eq space
    refine ⟨UInt8.ofNat literal, rest, spelt, ?_⟩
    simp only [Lzw.decode, if_neg notClear, if_neg later, if_pos known, eq, if_pos space, spelt]
  · obtain ⟨known, phrase⟩ := table.prev_known later
    have short := table.short known phrase spells
    obtain ⟨literal, rest, eq, spelt, space⟩ := @finish lzw.prev [lzw.prevFirst] older spells short
    refine ⟨UInt8.ofNat literal, rest ++ [lzw.prevFirst], by rw [spelt]; rfl, ?_⟩
    simp only [Lzw.decode, if_neg notClear, if_neg later, Nat.lt_irrefl, if_false, room, and_self,
      if_true, eq, if_pos space, spelt, cons_append]

theorem follows (table : Table lzw work) {code : ℕ} {string : List UInt8}
    (follows : Follows lzw work code string) (first : UInt8) : Table
      { (lzw.addEntry { work with stack := string } first).1 with prev := code, prevFirst := first }
      (lzw.addEntry { work with stack := string } first).2 := by
  obtain ⟨known, phrase⟩ := table.prev_known follows.later
  have added := (table.of_stack string).addEntry first known phrase
  have clear : (lzw.addEntry { work with stack := string } first).1.clear = lzw.clear := by
    obtain ⟨next, width, eq⟩ := addEntry_frame lzw { work with stack := string } first
    rw [eq]
  refine ⟨added.literal, added.clear, added.width, added.next, added.wide, Or.inr ?_, added.entries⟩
  change code < (lzw.addEntry { work with stack := string } first).1.next ∧
    IsPhrase (lzw.addEntry { work with stack := string } first).1.clear code
  rw [addEntry_next, clear]
  rcases follows.spells with ⟨known, phrase, _⟩ | ⟨rfl, room, _⟩
  · exact ⟨by split <;> omega, phrase⟩
  · refine ⟨by rw [if_pos room]; omega, ?_⟩
    have := table.next
    exact ⟨by omega, by omega⟩

theorem first (table : Table lzw work) {code : ℕ} (low : code < lzw.clear) (byte : UInt8)
    (stack : List UInt8) :
    Table { lzw with prev := code, prevFirst := byte } { work with stack } := by
  refine ⟨table.literal, table.clear, table.width, table.next, table.wide, Or.inr ?_, table.entries⟩
  have := table.next
  change code < lzw.next ∧ code ≠ lzw.clear ∧ code ≠ lzw.clear + 1
  omega

theorem decode (table : Table lzw work) {code : ℕ} (notEnd : code ≠ lzw.clear + 1) :
    lzw.decode work code = some (.error .corrupt) ∨
      ∃ lzw' work', lzw.decode work code = some (.ok (lzw', work')) ∧ Table lzw' work' ∧
        ∃ next width prev prevFirst, lzw' = { lzw with next, width, prev, prevFirst } := by
  by_cases clears : code = lzw.clear
  · refine Or.inr ⟨_, _, by rw [Lzw.decode, if_pos clears], table.restart, _, _, _, _, rfl⟩
  · by_cases later : lzw.prev = noCode
    · by_cases high : lzw.clear < code
      · exact Or.inl (by rw [Lzw.decode, if_neg clears, if_pos later, if_pos high])
      · refine Or.inr ⟨_, _, by rw [Lzw.decode, if_neg clears, if_pos later, if_neg high],
          table.first (by omega) _ _, _, _, _, _, rfl⟩
    · have go : ∀ {string : List UInt8}, Follows lzw work code string →
          ∃ lzw' work', lzw.decode work code = some (.ok (lzw', work')) ∧ Table lzw' work' ∧
            ∃ next width prev prevFirst, lzw' = { lzw with next, width, prev, prevFirst } := by
        intro string follows
        obtain ⟨first, rest, _, eq⟩ := table.decode_follows follows
        obtain ⟨next, width, frame⟩ := addEntry_frame lzw { work with stack := string } first
        exact ⟨_, _, eq, table.follows follows first, next, width, code, first, by rw [frame]⟩
      by_cases known : code < lzw.next
      · have phrase : IsPhrase lzw.clear code := ⟨clears, notEnd⟩
        obtain ⟨string, spells, _⟩ := table.spells known phrase
        exact Or.inr (go ⟨later, clears, Or.inl ⟨known, phrase, spells⟩⟩)
      · by_cases here : code = lzw.next ∧ lzw.next < maxCodes
        · obtain ⟨known, phrase⟩ := table.prev_known later
          obtain ⟨older, spells, _⟩ := table.spells known phrase
          exact Or.inr (go ⟨later, clears, Or.inr ⟨here.1, here.2, older, spells, rfl⟩⟩)
        · refine Or.inl ?_
          simp only [Lzw.decode, if_neg clears, if_neg later, if_neg known, if_neg here]

end Table

end EspDevkit.Compression
