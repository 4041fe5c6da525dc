import EspDevkit.Nvs.LineRoundTrip

/-!
# Entry lines

An entry keeps what is in front of its type and what is behind its value.
-/

namespace EspDevkit.Nvs

open List

variable {p text : Bytes} {type : VType} {l : Line}

theorem parseString_suffix {data rest : Bytes} (ok : parseString p = .ok (data, rest)) :
    rest <:+ p := by
  obtain ⟨read, rfl, -⟩ := parseString_again ok
  exact suffix_append _ _

theorem parseDigits_suffix {mag mag' : ℕ} {rest : Bytes}
    (ok : parseDigits mag p = .ok (mag', rest)) : rest <:+ p := by
  induction p generalizing mag with
  | nil =>
    cases ok
    exact suffix_refl _
  | cons c p ih =>
    rw [parseDigits] at ok
    split at ok
    · dsimp only at ok
      split at ok
      · cases ok
      · exact (ih ok).trans (suffix_cons _ _)
    · cases ok
      exact suffix_refl _

theorem parseInt_suffix {neg : Bool} {rest : Bytes} {value : Value}
    (ok : parseInt neg p = .ok (value, rest)) : rest <:+ p := by
  unfold parseInt at ok
  split at ok
  · cases ok
  · split at ok
    · cases ok
    · split at ok
      · cases ok
      · rename_i digits
        split at ok
        · cases ok
        · cases ok
          exact parseDigits_suffix digits

theorem parseBlob_suffix {rest : Bytes} {value : Value}
    (ok : parseBlob p = .ok (value, rest)) : rest <:+ p := by
  unfold parseBlob at ok
  dsimp only at ok
  split at ok
  · cases ok
  · cases ok
    exact dropWhile_suffix _

theorem parseValue_suffix {rest : Bytes} {value : Value}
    (ok : parseValue p = .ok (value, rest)) : rest <:+ p := by
  unfold parseValue at ok
  split at ok
  · exact parseInt_suffix ok
  · split at ok
    · split at ok
      · cases ok
      · rename_i read
        cases ok
        exact (parseString_suffix read).trans (suffix_cons _ _)
    · split at ok
      · split at ok
        · exact (parseBlob_suffix ok).trans ((suffix_cons _ _).trans (suffix_cons _ _))
        · split at ok
          · exact (parseInt_suffix ok).trans (suffix_cons _ _)
          · exact parseInt_suffix ok
      · split at ok
        · exact (parseInt_suffix ok).trans (suffix_cons _ _)
        · exact parseInt_suffix ok

theorem skipWs_suffix (p : Bytes) : skipWs p <:+ p := dropWhile_suffix _

theorem parseType_suffix {rest : Bytes}
    (ok : parseType p = .ok (type, rest)) : rest <:+ p := by
  unfold parseType at ok
  split at ok
  · cases ok
    exact suffix_refl _
  · split at ok
    · dsimp only at ok
      split at ok
      · cases ok
      · cases ok
        exact (skipWs_suffix _).trans ((dropWhile_suffix _).trans
          ((skipWs_suffix _).trans (suffix_cons _ _)))
    · cases ok
      exact suffix_refl _

theorem skipWs_head {c : UInt8} (p : Bytes) (head : isBlank c = false) :
    skipWs (c :: p) = c :: p :=
  dropWhile_cons_of_neg (by simp [head])

theorem skipWs_space (p : Bytes) : skipWs (byte ' ' :: p) = skipWs p :=
  dropWhile_cons_of_pos (by decide)

theorem type_name (typed : type ≠ .none) :
    VType.ofName type.name = type ∧ (∀ c ∈ type.name, isTypeChar c = true) ∧
      ∃ c p, type.name = c :: p ∧ isBlank c = false := by
  cases type with
  | none => exact absurd rfl typed
  | _ => exact ⟨by decide, all_eq_true.mp (by decide), _, _, rfl, by decide⟩

theorem parseType_putType (typed : type ≠ .none) (rest : Bytes) :
    parseType (byte ':' :: byte ' ' :: (type.name ++ byte ' ' :: rest)) =
      .ok (type, skipWs rest) := by
  obtain ⟨named, all, c, p, eq, head⟩ := type_name typed
  have stops : Stops isTypeChar (byte ' ' :: rest) := by
    rintro _ ⟨⟩
    decide
  have start : skipWs (byte ' ' :: (type.name ++ byte ' ' :: rest)) =
      type.name ++ byte ' ' :: rest := by
    rw [skipWs_space, eq, cons_append, skipWs_head _ head]
  rw [parseType, if_pos rfl]
  dsimp only
  rw [start, takeWhile_run all stops, dropWhile_run all stops, named, if_neg typed, skipWs_space]

theorem putValue_head (value : Value) :
    ∃ c p, putValue value = c :: p ∧ isBlank c = false := by
  cases value with
  | str data => exact ⟨_, _, rfl, by decide⟩
  | blob data => exact ⟨_, _, rfl, by decide⟩
  | int neg mag =>
    cases neg with
    | true => exact ⟨_, _, rfl, by decide⟩
    | false =>
      obtain ⟨c, p, eq, digits⟩ := decimal_cons mag
      refine ⟨c, p, eq, ?_⟩
      have first := digits c mem_cons_self
      cases blank : isBlank c with
      | false => rfl
      | true =>
        rcases Bool.or_eq_true _ _ ▸ blank with space | tab
        · exact absurd (beq_iff_eq.mp space ▸ first) (by decide)
        · exact absurd (beq_iff_eq.mp tab ▸ first) (by decide)

structure EntryTail (type : VType) (value : Value) (rest : Bytes) : Prop where
  typed : type ≠ .none
  fits : checkType type value = .ok ()
  written : Written value
  blank : restIsBlank rest = true

theorem parseEntry_putTyped {name rest : Bytes} {value : Value}
    (setting : EntryTail type value rest)
    (named : parseName p = .ok (name, putTyped type value ++ rest)) :
    parseEntry text p = .ok
      { kind := .entry, text, name, type, value
        keyEnd := text.length - (putTyped type value ++ rest).length
        valueEnd := text.length - rest.length } := by
  obtain ⟨typed, fits, written, blank⟩ := setting
  obtain ⟨c, q, eq, head⟩ := putValue_head value
  have tail : putTyped type value ++ rest = byte ':' :: byte ' ' :: (type.name ++
      byte ' ' :: (byte '=' :: byte ' ' :: (putValue value ++ rest))) := by
    simp [putTyped, typed]
  have colon : skipWs (putTyped type value ++ rest) = putTyped type value ++ rest := by
    rw [tail]
    exact skipWs_head _ (by decide)
  have read : parseType (skipWs (putTyped type value ++ rest)) =
      .ok (type, byte '=' :: byte ' ' :: (putValue value ++ rest)) := by
    rw [colon, tail, parseType_putType typed]
    exact congrArg (fun p => Except.ok (type, p)) (skipWs_head _ (by decide))
  have value' : parseValue (skipWs (byte ' ' :: (putValue value ++ rest))) =
      .ok (value, rest) := by
    have skip : skipWs (putValue value ++ rest) = putValue value ++ rest := by
      rw [eq, cons_append]
      exact skipWs_head _ head
    rw [skipWs_space, skip]
    exact parseValue_putValue written (closes_of_blank blank)
  simp only [parseEntry, named, read, value', blank, fits, ne_eq, not_true_eq_false, if_false,
    Bool.not_true, Bool.false_eq_true]

def Keyed (front name : Bytes) : Prop :=
  ∀ rest, Stops isBare rest → ∃ c p, skipWs (front ++ rest) = c :: p ∧ c ≠ byte '#' ∧
    c ≠ byte '[' ∧ parseName (c :: p) = .ok (name, rest)

theorem putTyped_stops (typed : type ≠ .none) (value : Value) (rest : Bytes) :
    Stops isBare (putTyped type value ++ rest) := by
  rintro c is
  rw [putTyped, if_neg typed] at is
  obtain rfl : byte ':' = c := by simpa using is
  decide

theorem parseLine_entry {front name rest : Bytes} {value : Value}
    (keyed : Keyed front name) (setting : EntryTail type value rest) :
    parseLine (front ++ putTyped type value ++ rest) = .ok
      { kind := .entry, text := front ++ putTyped type value ++ rest, name, type, value
        keyEnd := front.length, valueEnd := (front ++ putTyped type value).length } := by
  obtain ⟨c, p, start, comment, bracket, named⟩ :=
    keyed _ (putTyped_stops setting.typed value rest)
  rw [← append_assoc] at start
  unfold parseLine
  rw [start]
  dsimp only
  rw [if_neg comment, if_neg bracket, parseEntry_putTyped setting named]
  have key : (front ++ putTyped type value ++ rest).length -
      (putTyped type value ++ rest).length = front.length := by
    simp only [length_append]
    omega
  have value' : (front ++ putTyped type value ++ rest).length - rest.length =
      (front ++ putTyped type value).length := by
    simp only [length_append]
    omega
  rw [key, value']

theorem isBare_plain : ∀ n < 256, isBare (UInt8.ofNat n) = true →
    isBlank (UInt8.ofNat n) = false ∧ UInt8.ofNat n ≠ byte '#' ∧ UInt8.ofNat n ≠ byte '[' := by
  decide +kernel

theorem bare_plain {c : UInt8} (bare : isBare c = true) :
    isBlank c = false ∧ c ≠ byte '#' ∧ c ≠ byte '[' := by
  have plain := isBare_plain c.toNat c.toNat_lt
  rw [UInt8.ofNat_toNat] at plain
  exact plain bare

theorem putName_head (name : Bytes) : ∃ c p, putName name = c :: p ∧ isBlank c = false ∧
    c ≠ byte '#' ∧ c ≠ byte '[' := by
  unfold putName
  split
  · rename_i bare
    cases name with
    | nil => cases bare
    | cons c p =>
      simp only [isBareKey, isEmpty_cons, Bool.not_false, Bool.true_and, all_cons,
        Bool.and_eq_true] at bare
      exact ⟨c, p, rfl, bare_plain bare.1⟩
  · exact ⟨_, _, rfl, by decide, by decide, by decide⟩

theorem keyed_putName {name : Bytes} (noNul : (0 : UInt8) ∉ name) : Keyed (putName name) name := by
  intro rest stops
  obtain ⟨c, p, eq, blank, comment, bracket⟩ := putName_head name
  have named := parseName_putName noNul stops
  rw [eq, cons_append] at named ⊢
  exact ⟨c, p ++ rest, skipWs_head _ blank, comment, bracket, named⟩

theorem parseEntry_ok (ok : parseEntry text p = .ok l) :
    ∃ name afterName type q value rest, parseName p = .ok (name, afterName) ∧
      parseType (skipWs afterName) = .ok (type, byte '=' :: q) ∧
      parseValue (skipWs q) = .ok (value, rest) ∧ restIsBlank rest = true ∧
      l =
        { kind := .entry, text, name, type, value
          keyEnd := text.length - afterName.length, valueEnd := text.length - rest.length } := by
  unfold parseEntry at ok
  split at ok
  · cases ok
  · rename_i name afterName named
    split at ok
    · cases ok
    · rename_i type q typed
      split at ok
      · cases ok
      · rename_i c q
        split at ok
        · cases ok
        · rename_i equals
          obtain rfl : c = byte '=' := not_not.mp equals
          split at ok
          · cases ok
          · rename_i value rest read
            split at ok
            · cases ok
            · rename_i blank
              split at ok
              · cases ok
              · cases ok
                exact ⟨name, afterName, type, q, value, rest, named, typed, read,
                  by simpa using blank, rfl⟩

theorem parseSection_ok (ok : parseSection text p = .ok l) :
    l.kind = .sect ∧ l.text = text := by
  unfold parseSection at ok
  split at ok
  · cases ok
  · split at ok
    · cases ok
    · split at ok
      · cases ok
      · split at ok
        · cases ok
        · cases ok
          exact ⟨rfl, rfl⟩

theorem parseLine_text (ok : parseLine text = .ok l) : l.text = text := by
  unfold parseLine at ok
  split at ok
  · cases ok
    rfl
  · split at ok
    · cases ok
      rfl
    · split at ok
      · exact (parseSection_ok ok).2
      · obtain ⟨name, afterName, type, q, value, rest, -, -, -, -, rfl⟩ := parseEntry_ok ok
        rfl

theorem entry_parts (ok : parseLine text = .ok l)
    (entry : l.kind = .entry) :
    l.keyEnd ≤ text.length ∧ Keyed (text.take l.keyEnd) l.name ∧
      restIsBlank (text.drop l.valueEnd) = true := by
  have whole : text.takeWhile isBlank ++ skipWs text = text := takeWhile_append_dropWhile
  have indent : ∀ c ∈ text.takeWhile isBlank, isBlank c = true :=
    fun c member => mem_takeWhile_imp member
  have ends : skipWs text <:+ text := skipWs_suffix text
  have start : ∀ c p, skipWs text = c :: p → isBlank c = false := by
    intro c p eq
    have head := List.head?_dropWhile_not isBlank text
    rw [show text.dropWhile isBlank = c :: p from eq] at head
    exact head
  unfold parseLine at ok
  split at ok
  · cases ok
    cases entry
  · rename_i c p eq
    have blank := start c p eq
    split at ok
    · cases ok
      cases entry
    · rename_i comment
      split at ok
      · rw [(parseSection_ok ok).1] at entry
        cases entry
      · rename_i bracket
        obtain ⟨name, afterName, type, q, value, rest, named, typed, read, closes, rfl⟩ :=
          parseEntry_ok ok
        obtain ⟨key, split, some, again⟩ := parseName_again named
        rw [eq, split] at whole ends
        have front : text.take (text.length - afterName.length) =
            text.takeWhile isBlank ++ key := by
          rw [← append_assoc] at whole
          conv_lhs => rw [← whole]
          rw [length_append, Nat.add_sub_cancel, take_left]
        refine ⟨Nat.sub_le _ _, fun other stops => ?_, ?_⟩
        · rw [front]
          cases key with
          | nil => exact absurd rfl some
          | cons d key =>
            obtain ⟨rfl, -⟩ := List.cons.inj split
            refine ⟨c, key ++ other, ?_, comment, bracket, again other stops⟩
            rw [append_assoc]
            refine dropWhile_run indent ?_
            rintro _ ⟨⟩
            exact blank
        · have suffix : rest <:+ text := by
            have value' := (parseValue_suffix read).trans (skipWs_suffix q)
            have type' := (value'.trans (suffix_cons _ _)).trans (parseType_suffix typed)
            have name' := type'.trans (skipWs_suffix afterName)
            exact name'.trans ((suffix_append key afterName).trans ends)
          dsimp only
          rw [← suffix_iff_eq_drop.mp suffix]
          exact closes

end EspDevkit.Nvs
