import EspDevkit.Nvs.LineStore
import Mathlib.Data.List.TakeWhile
import Mathlib.Tactic.IntervalCases

/-!
# A line that was written is read back

Each writer has its reader for an inverse, whatever follows, as long as what
follows does not go on with what was written.
-/

namespace EspDevkit.Nvs

open List

def Stops (go : UInt8 → Bool) (rest : Bytes) : Prop := ∀ c ∈ rest.head?, go c = false

section

variable {go : UInt8 → Bool} {run rest : Bytes}

theorem takeWhile_run (all : ∀ c ∈ run, go c = true) (stops : Stops go rest) :
    (run ++ rest).takeWhile go = run := by
  rw [takeWhile_append_of_pos all]
  cases rest with
  | nil => simp
  | cons c rest => rw [takeWhile_cons_of_neg (by simpa using stops c rfl), append_nil]

theorem dropWhile_run (all : ∀ c ∈ run, go c = true) (stops : Stops go rest) :
    (run ++ rest).dropWhile go = rest := by
  rw [dropWhile_append_of_pos all]
  cases rest with
  | nil => rfl
  | cons c rest => exact dropWhile_cons_of_neg (by simpa using stops c rfl)

end

theorem prepend_ok {out : Except String Bytes} {more : Except String (Bytes × Bytes)}
    {data rest : Bytes} (ok : prepend out more = .ok (data, rest)) :
    ∃ first second, out = .ok first ∧ more = .ok (second, rest) ∧ data = first ++ second := by
  unfold prepend at ok
  split at ok
  · cases ok
  · cases ok
  · cases ok
    exact ⟨_, _, rfl, rfl, rfl⟩

theorem parseString_quote (p : Bytes) : parseString (byte '"' :: p) = .ok ([], p) := by
  rw [parseString.eq_def]
  exact if_pos rfl

theorem parseString_plain {c : UInt8} (p : Bytes) (quote : c ≠ byte '"') (escape : c ≠ byte '\\') :
    parseString (c :: p) = prepend (.ok [c]) (parseString p) := by
  rw [parseString.eq_def]
  dsimp only
  rw [if_neg quote, if_pos escape]

theorem parseString_letter {e c : UInt8} (p : Bytes) (letter : letterEscape e = some c) :
    parseString (byte '\\' :: e :: p) = prepend (.ok [c]) (parseString p) := by
  rw [parseString.eq_def]
  dsimp only
  rw [if_neg (by decide), if_neg (by simp)]
  simp only [letter]

theorem parseString_short (a b c d : UInt8) (p : Bytes) :
    parseString (byte '\\' :: byte 'u' :: a :: b :: c :: d :: p) =
      prepend (unescape [a, b, c, d]) (parseString p) := by
  rw [parseString.eq_def]
  dsimp only
  rw [if_neg (by decide), if_neg (by simp)]
  have letter : letterEscape (byte 'u') = none := by decide
  simp only [letter, if_true]

theorem parseString_long (a b c d a' b' c' d' : UInt8) (p : Bytes) :
    parseString (byte '\\' :: byte 'U' :: a :: b :: c :: d :: a' :: b' :: c' :: d' :: p) =
      prepend (unescape [a, b, c, d, a', b', c', d']) (parseString p) := by
  rw [parseString.eq_def]
  dsimp only
  rw [if_neg (by decide), if_neg (by simp)]
  have letter : letterEscape (byte 'U') = none := by decide
  have other : byte 'U' ≠ byte 'u' := by decide
  simp only [letter, if_neg other, if_true]

theorem unescape_hexByte : ∀ n < 128, n ≠ 0 →
    unescape (byte '0' :: byte '0' :: hexByte (UInt8.ofNat n)) = .ok [UInt8.ofNat n] := by
  decide +kernel

theorem parseString_quotedByte {c : UInt8} (some : c ≠ 0) (p : Bytes) :
    parseString (quotedByte c ++ p) = prepend (.ok [c]) (parseString p) := by
  unfold quotedByte
  split
  · rename_i is
    subst is
    exact parseString_letter p (by decide)
  · rename_i quote
    split
    · rename_i is
      subst is
      exact parseString_letter p (by decide)
    · rename_i escape
      split
      · rename_i is
        subst is
        exact parseString_letter p (by decide)
      · split
        · rename_i is
          subst is
          exact parseString_letter p (by decide)
        · split
          · rename_i control
            have low : c.toNat < 128 := by
              rcases control with less | rfl
              · have : c.toNat < 32 := UInt8.lt_iff_toNat_lt.mp less
                omega
              · decide
            have nonzero : c.toNat ≠ 0 := fun zero => some (UInt8.toNat_inj.mp zero)
            have escaped := unescape_hexByte c.toNat low nonzero
            rw [UInt8.ofNat_toNat] at escaped
            refine (parseString_short _ _ _ _ p).trans ?_
            exact congrArg (prepend · (parseString p)) escaped
          · exact parseString_plain p quote escape

theorem parseString_putQuoted {data : Bytes} (noNul : (0 : UInt8) ∉ data) (rest : Bytes) :
    parseString (data.flatMap quotedByte ++ byte '"' :: rest) = .ok (data, rest) := by
  induction data with
  | nil =>
    exact parseString_quote rest
  | cons c data ih =>
    rw [mem_cons, not_or] at noNul
    rw [flatMap_cons, append_assoc, parseString_quotedByte (Ne.symm noNul.1),
      ih noNul.2]
    rfl

/-- A string is read up to `rest`, and the same way whatever follows there. -/
def Again (p data rest : Bytes) : Prop :=
  ∃ read, p = read ++ rest ∧ ∀ other, parseString (read ++ other) = .ok (data, other)

theorem Again.of_front (front : Bytes) {out : Except String Bytes} {p data rest : Bytes}
    (head : ∀ p, parseString (front ++ p) = prepend out (parseString p))
    (ih : ∀ {data rest}, parseString p = .ok (data, rest) → Again p data rest)
    (ok : parseString (front ++ p) = .ok (data, rest)) : Again (front ++ p) data rest := by
  rw [head] at ok
  obtain ⟨first, second, rfl, more, rfl⟩ := prepend_ok ok
  obtain ⟨read, rfl, again⟩ := ih more
  refine ⟨front ++ read, by rw [append_assoc], fun other => ?_⟩
  rw [append_assoc, head, again]
  rfl

theorem parseString_again {p data rest : Bytes} (ok : parseString p = .ok (data, rest)) :
    Again p data rest := by
  induction p using parseString.induct generalizing data rest with
  | case1 => simp [parseString] at ok
  | case2 p =>
    rw [parseString_quote] at ok
    cases ok
    exact ⟨[byte '"'], rfl, parseString_quote⟩
  | case3 c p quote escape ih =>
    exact Again.of_front [c] (fun p => parseString_plain p quote escape) ih ok
  | case4 c quote escape =>
    rw [parseString.eq_def] at ok
    dsimp only at ok
    rw [if_neg quote, if_neg escape] at ok
    cases ok
  | case5 c quote escape e p out letter ih =>
    obtain rfl : c = byte '\\' := not_not.mp escape
    exact Again.of_front [byte '\\', e] (fun p => parseString_letter p letter) ih ok
  | case6 c quote escape a b c' d p letter ih =>
    obtain rfl : c = byte '\\' := not_not.mp escape
    exact Again.of_front [byte '\\', byte 'u', a, b, c', d] (parseString_short a b c' d) ih ok
  | case7 c quote escape p short letter =>
    rw [parseString.eq_def] at ok
    dsimp only at ok
    rw [if_neg quote, if_neg escape] at ok
    simp only [letter, if_true] at ok
    cases ok
  | case8 c quote escape a b c' d a' b' c'' d' p letter other ih =>
    obtain rfl : c = byte '\\' := not_not.mp escape
    exact Again.of_front [byte '\\', byte 'U', a, b, c', d, a', b', c'', d']
      (parseString_long a b c' d a' b' c'' d') ih ok
  | case9 c quote escape p short letter other =>
    rw [parseString.eq_def] at ok
    dsimp only at ok
    rw [if_neg quote, if_neg escape] at ok
    simp only [letter, if_neg other, if_true] at ok
    cases ok
  | case10 c quote escape e p letter one two =>
    rw [parseString.eq_def] at ok
    dsimp only at ok
    rw [if_neg quote, if_neg escape] at ok
    simp only [letter, if_neg one, if_neg two] at ok
    cases ok

theorem bare_ne_quote {c : UInt8} (bare : isBare c = true) : c ≠ byte '"' := by
  rintro rfl
  exact absurd bare (by decide)

theorem parseName_cons (c : UInt8) (p : Bytes) :
    parseName (c :: p) =
      if c = byte '"' then parseString p
      else
        let name := (c :: p).takeWhile isBare
        if name = [] then .error "missing name" else .ok (name, (c :: p).dropWhile isBare) := rfl

theorem parseName_bare {name rest : Bytes} (some : name ≠ []) (all : ∀ c ∈ name, isBare c = true)
    (stops : Stops isBare rest) : parseName (name ++ rest) = .ok (name, rest) := by
  cases name with
  | nil => exact absurd rfl some
  | cons c name =>
    have quote := bare_ne_quote (all c mem_cons_self)
    rw [cons_append, parseName_cons, if_neg quote, ← cons_append, takeWhile_run all stops,
      dropWhile_run all stops]
    exact if_neg some

theorem parseName_putName {name : Bytes} (noNul : (0 : UInt8) ∉ name) {rest : Bytes}
    (stops : Stops isBare rest) : parseName (putName name ++ rest) = .ok (name, rest) := by
  unfold putName
  split
  · rename_i bare
    simp only [isBareKey, Bool.and_eq_true, Bool.not_eq_true', isEmpty_eq_false_iff,
      all_eq_true] at bare
    exact parseName_bare bare.1 bare.2 stops
  · have read := parseString_putQuoted noNul rest
    rw [putQuoted, cons_append, append_assoc, parseName_cons, if_pos rfl]
    exact read

theorem parseName_again {p name rest : Bytes} (ok : parseName p = .ok (name, rest)) :
    ∃ read, p = read ++ rest ∧ read ≠ [] ∧
      ∀ other, Stops isBare other → parseName (read ++ other) = .ok (name, other) := by
  cases p with
  | nil => cases ok
  | cons c p =>
    rw [parseName_cons] at ok
    split at ok
    · rename_i quote
      obtain ⟨read, rfl, again⟩ := parseString_again ok
      refine ⟨c :: read, rfl, cons_ne_nil _ _, fun other _ => ?_⟩
      rw [cons_append, parseName_cons, if_pos quote, again]
    · dsimp only at ok
      split at ok
      · cases ok
      · rename_i some
        cases ok
        refine ⟨_, takeWhile_append_dropWhile.symm, some, fun other stops => ?_⟩
        exact parseName_bare some (fun c member => mem_takeWhile_imp member) stops

theorem digit_spec : ∀ n < 10, isDigit (digit n) = true ∧ (digit n).toNat - 48 = n := by decide

theorem hexval_hexDigit : ∀ n < 16, hexval (hexDigit n) = some n := by decide

theorem parseDigits_cons (mag : ℕ) (c : UInt8) (p : Bytes) :
    parseDigits mag (c :: p) =
      if isDigit c then
        let d := c.toNat - 48
        if (uint64Max - d) / 10 < mag then .error "integer out of range"
        else parseDigits (mag * 10 + d) p
      else .ok (mag, c :: p) := rfl

theorem parseDigits_stop {mag : ℕ} {rest : Bytes} (stops : Stops isDigit rest) :
    parseDigits mag rest = .ok (mag, rest) := by
  cases rest with
  | nil => rfl
  | cons c rest =>
    rw [parseDigits_cons, if_neg]
    simp [stops c rfl]

theorem parseDigits_digit (mag : ℕ) {d : ℕ} (small : d < 10) (fits : mag * 10 + d ≤ uint64Max)
    (rest : Bytes) : parseDigits mag (digit d :: rest) = parseDigits (mag * 10 + d) rest := by
  obtain ⟨isDigit, value⟩ := digit_spec d small
  rw [parseDigits_cons, if_pos isDigit]
  dsimp only
  rw [value, if_neg]
  omega

theorem decimalDigits_succ (k n : ℕ) :
    decimalDigits (k + 1) n =
      if n < 10 then [digit n] else decimalDigits k (n / 10) ++ [digit (n % 10)] := rfl

theorem parseDigits_decimal {k n : ℕ} (some : 0 < k) (few : n < 10 ^ k) (fits : n ≤ uint64Max)
    (rest : Bytes) : parseDigits 0 (decimalDigits k n ++ rest) = parseDigits n rest := by
  induction k generalizing n rest with
  | zero => omega
  | succ k ih =>
    rw [decimalDigits_succ]
    split
    · rename_i small
      have := parseDigits_digit 0 small (by omega) rest
      rwa [Nat.zero_mul, Nat.zero_add] at this
    · rename_i large
      have more : 0 < k := by
        rcases Nat.eq_zero_or_pos k with rfl | pos
        · omega
        · exact pos
      have few' : n / 10 < 10 ^ k := by
        rw [Nat.pow_succ] at few
        omega
      rw [append_assoc, ih more few' (by omega)]
      have := parseDigits_digit (n / 10) (Nat.mod_lt n (by decide : 0 < 10)) (by omega) rest
      rwa [Nat.div_add_mod' n 10] at this

theorem decimalDigits_ne_nil {k : ℕ} (n : ℕ) (some : 0 < k) : decimalDigits k n ≠ [] := by
  cases k with
  | zero => omega
  | succ k =>
    rw [decimalDigits_succ]
    split
    · exact cons_ne_nil _ _
    · exact append_ne_nil_of_right_ne_nil _ (cons_ne_nil _ _)

theorem decimalDigits_all (k n : ℕ) : ∀ c ∈ decimalDigits k n, isDigit c = true := by
  induction k generalizing n with
  | zero => exact nofun
  | succ k ih =>
    intro c member
    rw [decimalDigits_succ] at member
    split at member
    · rename_i small
      rw [mem_singleton.mp member]
      exact (digit_spec n small).1
    · rcases mem_append.mp member with front | last
      · exact ih _ c front
      · rw [mem_singleton.mp last]
        exact (digit_spec _ (Nat.mod_lt n (by decide))).1

theorem decimal_cons (n : ℕ) : ∃ c p, decimal n = c :: p ∧ ∀ d ∈ c :: p, isDigit d = true := by
  obtain ⟨c, p, eq⟩ := exists_cons_of_ne_nil (decimalDigits_ne_nil n (by decide : 0 < 20))
  exact ⟨c, p, eq, eq ▸ decimalDigits_all 20 n⟩

theorem parseInt_decimal {neg : Bool} {mag : ℕ} (fits : mag ≤ uint64Max)
    (negative : neg = true → 0 < mag ∧ mag ≤ 2 ^ 63) {rest : Bytes} (stops : Stops isDigit rest) :
    parseInt neg (decimal mag ++ rest) = .ok (.int neg mag, rest) := by
  have few : mag < 10 ^ 20 := by
    unfold uint64Max at fits
    omega
  have read := parseDigits_decimal (by decide : 0 < 20) few fits rest
  rw [parseDigits_stop stops] at read
  obtain ⟨c, p, eq, digits⟩ := decimal_cons mag
  change parseDigits 0 (decimal mag ++ rest) = _ at read
  unfold parseInt
  rw [eq, cons_append] at read ⊢
  simp only [digits c mem_cons_self, read, Bool.not_true, Bool.false_eq_true, if_false]
  cases neg with
  | false => simp
  | true =>
    obtain ⟨pos, most⟩ := negative rfl
    rw [if_neg (by omega)]
    simp [Nat.pos_iff_ne_zero.mp pos]

theorem hexval_hexByte (c : UInt8) : ∀ d ∈ hexByte c, (hexval d).isSome = true := by
  have high : c.toNat / 16 < 16 := by
    have := c.toNat_lt
    omega
  intro d member
  rcases mem_pair.mp member with rfl | rfl
  · rw [hexval_hexDigit _ high]
    rfl
  · rw [hexval_hexDigit _ (Nat.mod_lt _ (by decide))]
    rfl

theorem hexPairs_hexBytes (data : Bytes) : hexPairs (data.flatMap hexByte) = data := by
  induction data with
  | nil => rfl
  | cons c data ih =>
    have high : c.toNat / 16 < 16 := by
      have := c.toNat_lt
      omega
    rw [flatMap_cons, hexByte, cons_append, cons_append, nil_append, hexPairs,
      ih, hexval_hexDigit _ high, hexval_hexDigit _ (Nat.mod_lt _ (by decide)),
      Option.getD_some, Option.getD_some, Nat.div_add_mod', UInt8.ofNat_toNat]

theorem length_hexBytes (data : Bytes) : (data.flatMap hexByte).length = 2 * data.length := by
  induction data with
  | nil => rfl
  | cons c data ih =>
    rw [flatMap_cons, length_append, ih, length_cons]
    simp only [hexByte, length_cons, length_nil]
    omega

theorem parseBlob_hexBytes (data : Bytes) {rest : Bytes}
    (stops : Stops (fun c => (hexval c).isSome) rest) :
    parseBlob (data.flatMap hexByte ++ rest) = .ok (.blob data, rest) := by
  have all : ∀ d ∈ data.flatMap hexByte, (hexval d).isSome = true := by
    intro d member
    obtain ⟨c, -, member⟩ := mem_flatMap.mp member
    exact hexval_hexByte c d member
  unfold parseBlob
  rw [takeWhile_run all stops, dropWhile_run all stops]
  dsimp only
  rw [hexPairs_hexBytes, length_hexBytes, if_neg (by omega)]

def Written : Value → Prop
  | .int neg mag => mag ≤ uint64Max ∧ (neg = true → 0 < mag ∧ mag ≤ 2 ^ 63)
  | .str data => (0 : UInt8) ∉ data
  | .blob _ => True

structure Closes (rest : Bytes) : Prop where
  digit : Stops isDigit rest
  hex : Stops (fun c => (hexval c).isSome) rest
  last : Stops (fun c => c == byte 'x' || c == byte 'X') rest

theorem closes_of_blank {rest : Bytes} (blank : restIsBlank rest = true) : Closes rest := by
  have head : ∀ c ∈ rest.head?, c = byte ' ' ∨ c = byte '\t' ∨ c = byte '#' := by
    intro c is
    cases rest with
    | nil => cases is
    | cons d rest =>
      obtain rfl : d = c := by simpa using is
      unfold restIsBlank skipWs at blank
      by_cases white : isBlank d = true
      · rcases Bool.or_eq_true _ _ ▸ white with space | tab
        · exact .inl (beq_iff_eq.mp space)
        · exact .inr (.inl (beq_iff_eq.mp tab))
      · rw [dropWhile_cons_of_neg white] at blank
        exact .inr (.inr (by simpa using blank))
  refine ⟨fun c is => ?_, fun c is => ?_, fun c is => ?_⟩ <;>
    rcases head c is with rfl | rfl | rfl <;> decide

theorem parseValue_cons (c : UInt8) (rest : Bytes) :
    parseValue (c :: rest) =
      if c = byte '"' then
        match parseString rest with
        | .error err => .error err
        | .ok (data, p) => .ok (.str data, p)
      else
        match rest with
        | x :: more =>
          if c = byte '0' ∧ (x = byte 'x' ∨ x = byte 'X') then parseBlob more
          else if c = byte '-' then parseInt true rest
          else parseInt false (c :: rest)
        | [] => if c = byte '-' then parseInt true rest else parseInt false (c :: rest) := rfl

theorem parseValue_int {neg : Bool} {mag : ℕ} {rest : Bytes} (closes : Closes rest)
    (read : parseInt neg (decimal mag ++ rest) = .ok (.int neg mag, rest)) :
    parseValue (putValue (.int neg mag) ++ rest) = .ok (.int neg mag, rest) := by
  obtain ⟨c, p, eq, digits⟩ := decimal_cons mag
  rw [putValue]
  cases neg with
  | true =>
    have quote : byte '-' ≠ byte '"' := by decide
    have zero : byte '-' ≠ byte '0' := by decide
    rw [if_pos rfl, singleton_append, cons_append, parseValue_cons]
    rw [eq] at read ⊢
    simp only [cons_append, if_neg quote, zero, false_and, if_false, if_true]
    exact read
  | false =>
    have first := digits c mem_cons_self
    have quote : c ≠ byte '"' := fun is => absurd (is ▸ first) (by decide)
    have minus : c ≠ byte '-' := fun is => absurd (is ▸ first) (by decide)
    have second : ∀ x ∈ (p ++ rest).head?, (x == byte 'x' || x == byte 'X') = false := by
      intro x is
      cases p with
      | nil => exact closes.last x is
      | cons d p =>
        obtain rfl : d = x := by simpa using is
        have isDigit := digits d (by simp)
        cases large : d == byte 'x' || d == byte 'X' with
        | false => rfl
        | true =>
          simp only [Bool.or_eq_true, beq_iff_eq] at large
          rcases large with rfl | rfl <;> exact absurd isDigit (by decide)
    rw [if_neg Bool.false_ne_true, nil_append]
    rw [eq, cons_append] at read ⊢
    rw [parseValue_cons]
    simp only [if_neg quote]
    cases tail : p ++ rest with
    | nil =>
      rw [tail] at read
      simp only [if_neg minus]
      exact read
    | cons x more =>
      have other := second x (by rw [tail]; rfl)
      simp only [Bool.or_eq_false_iff, beq_eq_false_iff_ne] at other
      rw [tail] at read
      simp only [other.1, other.2, or_self, and_false, if_false, if_neg minus]
      exact read

theorem parseValue_putValue {value : Value} (written : Written value) {rest : Bytes}
    (closes : Closes rest) : parseValue (putValue value ++ rest) = .ok (value, rest) := by
  cases value with
  | str data =>
    have read := parseString_putQuoted written rest
    rw [putValue, putQuoted, cons_append, append_assoc, parseValue_cons]
    simp only [singleton_append, if_true, read]
  | blob data =>
    have other : byte '0' ≠ byte '"' := by decide
    rw [putValue, cons_append, cons_append, parseValue_cons]
    simp only [if_neg other, true_or, and_self, if_true]
    exact parseBlob_hexBytes data closes.hex
  | int neg mag =>
    exact parseValue_int closes (parseInt_decimal written.1 written.2 closes.digit)

end EspDevkit.Nvs
