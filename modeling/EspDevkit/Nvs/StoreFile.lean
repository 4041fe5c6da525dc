import EspDevkit.Nvs.StoreLines

/-!
# The file is read back

A line is settled when reading its text gives the line again.
-/

namespace EspDevkit.Nvs

open List

def isClean (c : UInt8) : Bool := c != 0 && c != byte '\n' && c != byte '\r'

structure Plain (text : Bytes) : Prop where
  inside : ∀ c ∈ text, c ≠ 0 ∧ c ≠ byte '\n'
  ending : text.getLast? ≠ some (byte '\r')

variable {c : UInt8} {text : Bytes} {l : Line}

theorem clean_parts (clean : isClean c = true) :
    c ≠ 0 ∧ c ≠ byte '\n' ∧ c ≠ byte '\r' := by
  simpa [isClean, and_assoc] using clean

theorem plain_of_clean (clean : ∀ c ∈ text, isClean c = true) : Plain text where
  inside c member := ⟨(clean_parts (clean c member)).1, (clean_parts (clean c member)).2.1⟩
  ending last := (clean_parts (clean _ (mem_of_getLast? last))).2.2 rfl

theorem byte_clean_nat : ∀ n < 256,
    (n ≠ 0 → (quotedByte (UInt8.ofNat n)).all isClean = true) ∧
      (hexByte (UInt8.ofNat n)).all isClean = true ∧
      (isBare (UInt8.ofNat n) = true → isClean (UInt8.ofNat n) = true) := by
  decide +kernel

theorem digit_bare (digit : isDigit c = true) : isBare c = true := by
  simp [isBare, digit]

theorem bare_clean (bare : isBare c = true) : isClean c = true := by
  have clean := (byte_clean_nat c.toNat c.toNat_lt).2.2
  rw [UInt8.ofNat_toNat] at clean
  exact clean bare

theorem putQuoted_clean {data : Bytes} (noNul : (0 : UInt8) ∉ data) :
    ∀ d ∈ putQuoted data, isClean d = true := by
  intro d member
  rcases mem_cons.mp member with rfl | member
  · decide
  rcases mem_append.mp member with inside | last
  · obtain ⟨c, member, quoted⟩ := mem_flatMap.mp inside
    have nonzero : c.toNat ≠ 0 := by
      intro zero
      obtain rfl : c = 0 := UInt8.toNat_inj.mp zero
      exact noNul member
    have clean := (byte_clean_nat c.toNat c.toNat_lt).1 nonzero
    rw [UInt8.ofNat_toNat] at clean
    exact all_eq_true.mp clean d quoted
  · rw [mem_singleton.mp last]
    decide

theorem putName_clean {name : Bytes} (noNul : (0 : UInt8) ∉ name) :
    ∀ d ∈ putName name, isClean d = true := by
  unfold putName
  split
  · rename_i bare
    simp only [isBareKey, Bool.and_eq_true, all_eq_true] at bare
    exact fun d member => bare_clean (bare.2 d member)
  · exact putQuoted_clean noNul

theorem putValue_clean {value : Value} (written : Written value) :
    ∀ d ∈ putValue value, isClean d = true := by
  intro d member
  cases value with
  | str data => exact putQuoted_clean written d member
  | blob data =>
    rcases mem_cons.mp member with rfl | member
    · decide
    rcases mem_cons.mp member with rfl | member
    · decide
    obtain ⟨c, -, hex⟩ := mem_flatMap.mp member
    have clean := (byte_clean_nat c.toNat c.toNat_lt).2.1
    rw [UInt8.ofNat_toNat] at clean
    exact all_eq_true.mp clean d hex
  | int neg mag =>
    rcases mem_append.mp member with sign | digits
    · cases neg with
      | false => cases sign
      | true =>
        rw [mem_singleton.mp sign]
        decide
    · exact bare_clean (digit_bare (decimalDigits_all 20 mag d digits))

theorem putTyped_clean (type : VType) {value : Value} (written : Written value) :
    ∀ d ∈ putTyped type value, isClean d = true := by
  intro d member
  rcases mem_append.mp member with named | valued
  · cases type with
    | none => cases named
    | _ => exact all_eq_true.mp (by decide : List.all _ isClean = true) d named
  · simp only [mem_cons] at valued
    rcases valued with rfl | rfl | rfl | valued
    · decide
    · decide
    · decide
    · exact putValue_clean written d valued

structure Settled (p : Option Bytes × Line) : Prop where
  plain : Plain p.2.text
  again : loadLine p.1.isSome p.2.text = p.2

theorem loadLine_error {e} (read : parseLine text = .error e) (below : Bool) :
    loadLine below text = .asRaw text := by
  rw [loadLine, read]

theorem loadLine_ok (read : parseLine text = .ok l) (below : Bool) :
    loadLine below text = if l.kind = .entry ∧ !below then .asRaw text else l := by
  rw [loadLine, read]

theorem loadLine_text (below : Bool) (text : Bytes) : (loadLine below text).text = text := by
  cases read : parseLine text with
  | error e =>
    rw [loadLine_error read]
    rfl
  | ok l =>
    rw [loadLine_ok read]
    by_cases refused : l.kind = .entry ∧ !below
    · rw [if_pos refused]
      rfl
    · rw [if_neg refused]
      exact parseLine_text read

theorem loadLine_raw {below : Bool} (entry : (loadLine below text).kind = .entry) :
    parseLine text = .ok (loadLine below text) := by
  cases read : parseLine text with
  | error e =>
    rw [loadLine_error read] at entry
    cases entry
  | ok l =>
    rw [loadLine_ok read] at entry ⊢
    by_cases refused : l.kind = .entry ∧ !below
    · rw [if_pos refused] at entry
      cases entry
    · rw [if_neg refused]

theorem loadLine_sect {below : Bool} (sect : (loadLine below text).kind = .sect)
    (below' : Bool) : loadLine below' text = loadLine below text := by
  cases read : parseLine text with
  | error e =>
    rw [loadLine_error read] at sect
    cases sect
  | ok l =>
    rw [loadLine_ok read] at sect
    rw [loadLine_ok read, loadLine_ok read]
    by_cases refused : l.kind = .entry ∧ !below
    · rw [if_pos refused] at sect
      cases sect
    · rw [if_neg refused] at sect
      rw [if_neg refused, if_neg]
      rw [sect]
      simp

theorem isSome_under (tag : Option Bytes) (l : Line) :
    (l.under tag).isSome = (tag.isSome || decide (l.kind = .sect)) := by
  unfold Line.under
  split
  · rename_i sect
    simp [sect]
  · rename_i other
    simp [other]

/-- What stands above a line matters to it only where it is in force there. -/
theorem loadLine_under (tag : Option Bytes) (text : Bytes) :
    loadLine ((loadLine tag.isSome text).under tag).isSome text = loadLine tag.isSome text := by
  unfold Line.under
  split
  · rename_i sect
    exact loadLine_sect sect _
  · rfl

theorem settled_section {ns : Bytes} (noNul : (0 : UInt8) ∉ ns) :
    Settled (some ns, sectionLine ns) where
  plain := by
    refine plain_of_clean fun d member => ?_
    rcases mem_cons.mp member with rfl | member
    · decide
    rcases mem_append.mp member with name | last
    · exact putName_clean noNul d name
    · rw [mem_singleton.mp last]
      decide
  again := by
    obtain ⟨c, p, eq, blank, -, -⟩ := putName_head ns
    have start : skipWs (putName ns ++ [byte ']']) = putName ns ++ [byte ']'] := by
      rw [eq, cons_append, skipWs_head _ blank]
    have stops : Stops isBare [byte ']'] := by
      rintro _ ⟨⟩
      decide
    have named := parseName_putName noNul stops
    have bracket : skipWs (sectionLine ns).text = (sectionLine ns).text :=
      skipWs_head _ (by decide)
    have closing : skipWs [byte ']'] = [byte ']'] := skipWs_head _ (by decide)
    have nothing : restIsBlank [] = true := rfl
    have comment : byte '[' ≠ byte '#' := by decide
    have read : parseLine (sectionLine ns).text = .ok (sectionLine ns) := by
      rw [parseLine, bracket]
      simp [sectionLine, comment, parseSection, start, named, closing, nothing]
    rw [loadLine_ok read]
    simp [sectionLine]

theorem settled_blank (tag : Option Bytes) : Settled (tag, .asRaw []) where
  plain := plain_of_clean nofun
  again := by
    simp [loadLine, parseLine, skipWs, Line.asRaw]

structure Ready (l : Line) : Prop where
  entry : l.kind = .entry
  key : l.keyEnd ≤ l.text.length
  keyed : Keyed (l.text.take l.keyEnd) l.name
  blank : restIsBlank (l.text.drop l.valueEnd) = true
  plain : Plain l.text

theorem ready_of_settled {tag : Option Bytes} (settled : Settled (tag, l))
    (entry : l.kind = .entry) : Ready l := by
  have again := settled.again
  have read : parseLine l.text = .ok l := by
    have raw : (loadLine tag.isSome l.text).kind = .entry → _ := loadLine_raw
    rw [again] at raw
    exact raw entry
  obtain ⟨key, keyed, blank⟩ := entry_parts read entry
  exact ⟨entry, key, keyed, blank, settled.plain⟩

theorem ready_newEntry {key : Bytes} (noNul : (0 : UInt8) ∉ key) : Ready (newEntry key) where
  entry := rfl
  key := Nat.le_refl _
  keyed := by
    have whole : (newEntry key).text.take (newEntry key).keyEnd = putName key := take_length
    rw [whole]
    exact keyed_putName noNul
  blank := by
    have none : (newEntry key).text.drop (newEntry key).valueEnd = [] := drop_length
    rw [none]
    rfl
  plain := plain_of_clean (putName_clean noNul)

theorem Plain.put {front put rest : Bytes} (nonempty : put ≠ [])
    (clean : ∀ c ∈ put, isClean c = true) (inside : ∀ c ∈ front ++ rest, c ≠ 0 ∧ c ≠ byte '\n')
    (ending : rest.getLast? ≠ some (byte '\r')) : Plain (front ++ put ++ rest) where
  inside c member := by
    simp only [mem_append] at member
    rcases member with (first | middle) | last
    · exact inside c (mem_append_left _ first)
    · exact ⟨(clean_parts (clean c middle)).1, (clean_parts (clean c middle)).2.1⟩
    · exact inside c (mem_append_right _ last)
  ending last := by
    rw [List.getLast?_append] at last
    cases behind : rest.getLast? with
    | some c =>
      rw [behind] at last ending
      exact ending last
    | none =>
      rw [behind, Option.none_or, List.getLast?_append_of_ne_nil _ nonempty] at last
      exact (plain_of_clean clean).ending last

theorem putTyped_ne_nil (type : VType) (value : Value) : putTyped type value ≠ [] :=
  append_ne_nil_of_right_ne_nil _ (cons_ne_nil _ _)

theorem Ready.settled_change (ready : Ready l) {setting : Setting}
    (written : Written setting.value) (ns : Bytes) :
    Settled (some ns, l.change setting.type setting.value) where
  plain := by
    refine Plain.put (putTyped_ne_nil _ _) (putTyped_clean _ written) (fun c member => ?_) ?_
    · rcases mem_append.mp member with front | back
      · exact ready.plain.inside c (mem_of_mem_take front)
      · exact ready.plain.inside c (mem_of_mem_drop back)
    · rw [List.getLast?_drop]
      split
      · exact nofun
      · exact ready.plain.ending
  again := by
    have tail : EntryTail setting.type setting.value (l.text.drop l.valueEnd) :=
      ⟨setting.typed, setting.fits, written, ready.blank⟩
    have read := parseLine_entry ready.keyed tail
    have key : (l.text.take l.keyEnd).length = l.keyEnd := length_take_of_le ready.key
    rw [key] at read
    have text : (l.change setting.type setting.value).text =
        l.text.take l.keyEnd ++ putTyped setting.type setting.value ++ l.text.drop l.valueEnd := rfl
    rw [text, loadLine_ok read]
    simp [Line.change, Line.render, ready.entry]

theorem intFits_of_check {type : VType} {neg : Bool} {mag : ℕ} (typed : type ≠ .none)
    (fits : checkType type (.int neg mag) = .ok ()) : intFits neg mag type = true := by
  cases type with
  | none => exact absurd rfl typed
  | str => cases fits
  | blob => cases fits
  | _ =>
    unfold checkType at fits
    dsimp only at fits
    split at fits
    · assumption
    · cases fits

theorem negative_small {type : VType} {mag : ℕ} (fits : intFits true mag type = true) :
    mag ≤ 2 ^ 63 := by
  unfold intFits at fits
  split at fits
  · have power : 2 ^ (type.bits - 1) ≤ 2 ^ 63 := by
      cases type <;> decide
    simp only [if_true, decide_eq_true_eq] at fits
    exact fits.trans power
  · cases fits

theorem Setting.written (setting : Setting) : Written setting.value := by
  obtain ⟨type, value, typed, fits, noNul, positive, small⟩ := setting
  dsimp only
  cases value with
  | str data => exact noNul data rfl
  | blob data => trivial
  | int neg mag =>
    refine ⟨small neg mag rfl, ?_⟩
    rintro rfl
    have pos : 0 < mag := by
      refine Nat.pos_of_ne_zero ?_
      rintro rfl
      exact positive rfl
    exact ⟨pos, negative_small (intFits_of_check typed fits)⟩

theorem splitFrom_line (oneLine : byte '\n' ∉ text) (line rest : Bytes) :
    splitFrom line (text ++ byte '\n' :: rest) = (line.reverse ++ text) :: splitFrom [] rest := by
  induction text generalizing line with
  | nil => simp [splitFrom]
  | cons c text ih =>
    rw [mem_cons, not_or] at oneLine
    rw [cons_append, splitFrom, if_neg (Ne.symm oneLine.1), ih oneLine.2]
    simp

theorem splitLines_save {lines : List Line} (plain : ∀ l ∈ lines, Plain l.text) :
    splitLines (save lines) = lines.map Line.text := by
  have noNul : (save lines).takeWhile (· ≠ 0) = save lines := by
    refine takeWhile_eq_self_iff.mpr fun c member => ?_
    obtain ⟨l, member, inside⟩ := mem_flatMap.mp member
    rcases mem_append.mp inside with text | ends
    · exact decide_eq_true ((plain l member).inside c text).1
    · rw [mem_singleton.mp ends]
      decide
  rw [splitLines, noNul]
  clear noNul
  induction lines with
  | nil => rfl
  | cons l lines ih =>
    have oneLine : byte '\n' ∉ l.text := fun member =>
      ((plain l mem_cons_self).inside _ member).2 rfl
    have rest := ih fun l member => plain l (mem_cons_of_mem _ member)
    rw [save] at rest
    rw [save, flatMap_cons, append_assoc, singleton_append,
      splitFrom_line oneLine, rest]
    rfl

theorem stripCr_plain (plain : Plain text) : stripCr text = text :=
  if_neg plain.ending

theorem loadLines_settled {tag : Option Bytes} {lines : List Line}
    (settled : ∀ p ∈ tagged tag lines, Settled p) :
    loadLines tag.isSome (lines.map Line.text) = lines := by
  induction lines generalizing tag with
  | nil => rfl
  | cons l lines ih =>
    have first := settled (l.under tag, l) mem_cons_self
    have rest : loadLines (l.under tag).isSome _ = lines :=
      ih fun p member => settled p (mem_cons_of_mem _ member)
    have here : loadLine tag.isSome l.text = l := by
      by_cases sect : l.kind = .sect
      · have kind : (loadLine (l.under tag).isSome l.text).kind = .sect := by
          rw [first.again]
          exact sect
        exact (loadLine_sect kind _).trans first.again
      · have under : l.under tag = tag := if_neg sect
        rw [under] at first
        exact first.again
    rw [map_cons, loadLines, stripCr_plain first.plain, here, ← isSome_under, rest]

theorem load_save {lines : List Line} (settled : ∀ p ∈ tagged none lines, Settled p) :
    load (save lines) = lines := by
  have plain : ∀ l ∈ lines, Plain l.text := by
    intro l member
    rw [← tagged_map none lines] at member
    obtain ⟨p, inside, rfl⟩ := mem_map.mp member
    exact (settled p inside).plain
  rw [load, splitLines_save plain]
  exact loadLines_settled settled

theorem splitFrom_inside {line p : Bytes} (oneLine : byte '\n' ∉ line) :
    ∀ text ∈ splitFrom line p, ∀ c ∈ text, (c ∈ line ∨ c ∈ p) ∧ c ≠ byte '\n' := by
  induction p generalizing line with
  | nil =>
    intro text member c inside
    rw [splitFrom] at member
    split at member
    · cases member
    · rw [mem_singleton.mp member, mem_reverse] at inside
      exact ⟨.inl inside, fun is => oneLine (is ▸ inside)⟩
  | cons d p ih =>
    intro text member c inside
    rw [splitFrom] at member
    split at member
    · rcases mem_cons.mp member with rfl | member
      · rw [mem_reverse] at inside
        exact ⟨.inl inside, fun is => oneLine (is ▸ inside)⟩
      · obtain ⟨here, other⟩ := ih not_mem_nil text member c inside
        exact ⟨.inr (mem_cons_of_mem _ (here.resolve_left not_mem_nil)), other⟩
    · rename_i other
      have oneLine' : byte '\n' ∉ d :: line := by
        rw [mem_cons, not_or]
        exact ⟨Ne.symm other, oneLine⟩
      obtain ⟨here, plain⟩ := ih oneLine' text member c inside
      refine ⟨?_, plain⟩
      rcases here with here | later
      · rcases mem_cons.mp here with rfl | here
        · exact .inr mem_cons_self
        · exact .inl here
      · exact .inr (mem_cons_of_mem _ later)

theorem mem_of_mem_stripCr {line : Bytes} (member : c ∈ stripCr line) : c ∈ line := by
  unfold stripCr at member
  split at member
  · exact (dropLast_sublist line).subset member
  · exact member

/-- The lines that are read are plain, unless they end with two CRs. -/
theorem plain_of_file {file : Bytes}
    (endings : ∀ line ∈ splitLines file, (stripCr line).getLast? ≠ some (byte '\r')) :
    ∀ line ∈ splitLines file, Plain (stripCr line) := by
  refine fun line member => ⟨fun c inside => ?_, endings line member⟩
  obtain ⟨here, other⟩ :=
    splitFrom_inside not_mem_nil line member c (mem_of_mem_stripCr inside)
  have some := mem_takeWhile_imp (here.resolve_left not_mem_nil)
  exact ⟨by simpa using some, other⟩

theorem settled_loadLines {tag : Option Bytes} {texts : List Bytes}
    (plain : ∀ line ∈ texts, Plain (stripCr line)) :
    ∀ p ∈ tagged tag (loadLines tag.isSome texts), Settled p := by
  induction texts generalizing tag with
  | nil => exact forall_mem_nil Settled
  | cons line texts ih =>
    intro p member
    rw [loadLines, ← isSome_under, tagged] at member
    rcases mem_cons.mp member with rfl | member
    · refine ⟨?_, ?_⟩
      · rw [loadLine_text]
        exact plain line mem_cons_self
      · rw [loadLine_text]
        exact loadLine_under tag (stripCr line)
    · exact ih (fun line member => plain line (mem_cons_of_mem _ member)) p member

theorem loadLines_text (below : Bool) (texts : List Bytes) :
    (loadLines below texts).map Line.text = texts.map stripCr := by
  induction texts generalizing below with
  | nil => rfl
  | cons line texts ih =>
    rw [loadLines, map_cons, map_cons, loadLine_text, ih]

end EspDevkit.Nvs
