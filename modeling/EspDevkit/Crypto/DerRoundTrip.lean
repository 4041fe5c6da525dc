import EspDevkit.Crypto.Der

/-!
# DER is canonical

What a writer makes of a tree of items is read back as that tree, and whatever the reader takes as
a length, a value or an unsigned number is what the writer would have written.
-/

namespace EspDevkit.Crypto.X509.Der

open List Option

section Checked

def slice (bytes : Bytes) (first past : ℕ) : Option Bytes :=
  if first ≤ past ∧ past ≤ bytes.length then some ((bytes.take past).drop first) else none

/-- `readLength` where an index or slice out of range is `none`. -/
def checkedReadLength (rest : Bytes) : Option (Except Error (ℕ × Bytes)) :=
  match rest with
  | [] => some (.error .decode)
  | first :: rest =>
    if first < 0x80 then some (.ok (first.toNat, rest))
    else
      let n := (first &&& 0x7f).toNat
      if n = 0 ∨ 4 < n ∨ rest.length < n then some (.error .decode)
      else
        rest[0]?.bind fun lead =>
          if lead = 0 then some (.error .decode)
          else
            (slice rest 0 n).bind fun digits =>
              let len := digits.foldl (fun acc b => acc * 256 + b.toNat) 0
              if len < 0x80 then some (.error .decode)
              else (slice rest n rest.length).map fun rest => .ok (len, rest)

/-- `readAny` where an index or slice out of range is `none`. -/
def checkedReadAny (data : Bytes) : Option (Except Error (Value × Bytes)) :=
  match data with
  | [] => some (.error .decode)
  | tag :: rest =>
    if tag &&& 0x1f = 0x1f then some (.error .decode)
    else
      (checkedReadLength rest).bind fun length =>
        match length with
        | .error e => some (.error e)
        | .ok (len, rest) =>
          if rest.length < len then some (.error .decode)
          else if data.length < rest.length then none
          else
            let header := data.length - rest.length
            (slice rest len rest.length).bind fun left =>
              (slice rest 0 len).bind fun content =>
                (slice data 0 (header + len)).map fun whole =>
                  .ok ({ tag, content, whole }, left)

theorem slice_front {bytes : Bytes} {count : ℕ} (enough : count ≤ bytes.length) :
    slice bytes 0 count = some (bytes.take count) := by
  rw [slice, if_pos ⟨Nat.zero_le _, enough⟩, drop_zero]

theorem slice_back {bytes : Bytes} {count : ℕ} (enough : count ≤ bytes.length) :
    slice bytes count bytes.length = some (bytes.drop count) := by
  rw [slice, if_pos ⟨enough, le_refl _⟩, take_length]

theorem checkedReadLength_eq (rest : Bytes) :
    checkedReadLength rest = some (readLength rest) := by
  cases rest with
  | nil => rfl
  | cons first rest =>
    rw [checkedReadLength, readLength]
    by_cases short : first < 0x80
    · rw [if_pos short, if_pos short]
    · rw [if_neg short, if_neg short]
      by_cases outside : (first &&& 0x7f).toNat = 0 ∨ 4 < (first &&& 0x7f).toNat ∨
          rest.length < (first &&& 0x7f).toNat
      · rw [if_pos outside, if_pos (by tauto)]
      · rw [if_neg outside]
        push Not at outside
        obtain ⟨some_, few, enough⟩ := outside
        cases rest with
        | nil => exact absurd (Nat.le_zero.mp enough) some_
        | cons lead rest =>
          by_cases zero : lead = 0
          · rw [if_pos (.inr (.inr (.inr (congrArg some zero))))]
            exact if_pos zero
          · rw [if_neg (by
              rintro (none_ | many | less | same)
              · exact some_ none_
              · omega
              · omega
              · exact zero (Option.some.inj same))]
            simp only [List.getElem?_cons_zero, bind_some, if_neg zero,
              slice_front enough, slice_back enough, map_some]
            split <;> rfl

/-- No index and no slice of the reader is out of range. -/
theorem checkedReadAny_eq (data : Bytes) : checkedReadAny data = some (readAny data) := by
  cases data with
  | nil => rfl
  | cons tag after =>
    rw [checkedReadAny, readAny, checkedReadLength_eq, bind_some]
    by_cases long : tag &&& 0x1f = 0x1f
    · rw [if_pos long, if_pos long]
    · rw [if_neg long, if_neg long]
      cases length : readLength after with
      | error e => rfl
      | ok found =>
        obtain ⟨len, rest⟩ := found
        have behind := (lengthCode.suffix_of_read length).length_le
        simp only
        by_cases enough : rest.length < len
        · rw [if_pos enough, if_pos enough]
        · have inside : ¬(tag :: after).length < rest.length := by
            rw [length_cons]
            omega
          rw [if_neg enough, if_neg enough, if_neg inside, slice_back (by omega),
            slice_front (by omega), slice_front (by rw [length_cons] at *; omega)]
          rfl

end Checked

section Items

mutual

def Item.encoding : Item → Bytes
  | .tlv tag content => encode tag content
  | .nested tag items => encode tag (encodingAll items)
  | .unsignedInteger bytes => encode integer (integerContent (BigEndian.extend 0 bytes))
  | .smallInteger value => encode integer (integerContent value.toNat)
  | .boolean value => encode boolean [if value then 0xff else 0]
  | .null => encode null []
  | .oid encoded => encode oid encoded
  | .bitString bytes => encode bitString (0 :: bytes)
  | .raw items => encodingAll items

def encodingAll : List Item → Bytes
  | [] => []
  | item :: items => item.encoding ++ encodingAll items

end

mutual

/-- No tag of several bytes, and no content of `2 ^ 32` bytes or more. -/
def Item.Fits : Item → Prop
  | .tlv tag content => tag &&& 0x1f ≠ 0x1f ∧ content.length < 2 ^ 32
  | .nested tag items =>
    tag &&& 0x1f ≠ 0x1f ∧ (encodingAll items).length < 2 ^ 32 ∧ FitsAll items
  | .unsignedInteger bytes => (integerContent (BigEndian.extend 0 bytes)).length < 2 ^ 32
  | .smallInteger _ => True
  | .boolean _ => True
  | .null => True
  | .oid encoded => encoded.length < 2 ^ 32
  | .bitString bytes => bytes.length + 1 < 2 ^ 32
  | .raw items => FitsAll items

def FitsAll : List Item → Prop
  | [] => True
  | item :: items => item.Fits ∧ FitsAll items

end

mutual

/-- The reader takes the item off the front of `data` and leaves `rest`. -/
def Item.ReadsBack : Item → Bytes → Bytes → Prop
  | .tlv tag content, data, rest => read tag data = .ok (content, rest)
  | .nested tag items, data, rest =>
    ∃ content, read tag data = .ok (content, rest) ∧ ReadsBackAll items content []
  | .unsignedInteger bytes, data, rest =>
    ∃ content magnitude, read integer data = .ok (content, rest) ∧
      unsigned content = .ok magnitude ∧
        BigEndian.extend 0 magnitude = BigEndian.extend 0 bytes
  | .smallInteger value, data, rest => smallUnsigned data = .ok (value.toNat, rest)
  | .boolean value, data, rest => readBoolean data = .ok (value, rest)
  | .null, data, rest => read null data = .ok ([], rest)
  | .oid encoded, data, rest => read oid data = .ok (encoded, rest)
  | .bitString bytes, data, rest => bitStringBytes data = .ok (bytes, rest)
  | .raw items, data, rest => ReadsBackAll items data rest

def ReadsBackAll : List Item → Bytes → Bytes → Prop
  | [], data, rest => data = rest
  | item :: items, data, rest =>
    ∃ behind, item.ReadsBack data behind ∧ ReadsBackAll items behind rest

end

theorem length_magnitude_toNat (value : UInt32) : (magnitude value.toNat).length ≤ 4 := by
  unfold magnitude
  split
  · decide
  · exact length_bytes_le value.toNat_lt

theorem length_integerContent_le (number : ℕ) :
    (integerContent number).length ≤ (magnitude number).length + 1 := by
  unfold integerContent
  split
  · exact le_refl _
  · exact Nat.le_succ _

mutual

theorem Item.write_eq : ∀ (item : Item) (w : Writer), item.Fits →
    item.write w = some { buf := w.buf ++ item.encoding }
  | .tlv tag content, w, fits => w.tlv_eq tag fits.2
  | .nested tag items, w, fits => by
      rw [Item.write, Writer.nested, writeAll_eq items {} fits.2.2, bind_some,
        nil_append]
      exact w.tlv_eq tag fits.2.1
  | .unsignedInteger bytes, w, fits => by
      rw [Item.write, w.unsignedInteger_eq]
      exact w.tlv_eq integer fits
  | .smallInteger value, w, _ => by
      rw [Item.write, Writer.smallInteger, w.unsignedInteger_eq, extend_toBytes value.toNat_lt]
      have few := length_magnitude_toNat value
      have more := length_integerContent_le value.toNat
      exact w.tlv_eq integer (by omega)
  | .boolean value, w, _ => by
      have short : [if value then (0xff : UInt8) else 0].length < 2 ^ 32 := by
        rw [length_singleton]
        decide
      exact w.tlv_eq Der.boolean short
  | .null, w, _ => by
      have short : ([] : Bytes).length < 2 ^ 32 := by decide
      exact w.tlv_eq Der.null short
  | .oid encoded, w, fits => w.tlv_eq Der.oid fits
  | .bitString bytes, w, fits => by
      rw [Item.write, Writer.bitString, pushLen_eq _ fits, map_some, Item.encoding, encode]
      simp only [append_assoc, cons_append, nil_append, length_cons]
  | .raw items, w, fits => by
      rw [Item.write, writeAll_eq items {} fits, map_some, nil_append]
      rfl

theorem writeAll_eq : ∀ (items : List Item) (w : Writer), FitsAll items →
    writeAll items w = some { buf := w.buf ++ encodingAll items }
  | [], w, _ => by rw [writeAll, encodingAll, append_nil]
  | item :: items, w, fits => by
      rw [writeAll, item.write_eq w fits.1, bind_some, writeAll_eq items _ fits.2,
        encodingAll, append_assoc]

end

mutual

theorem Item.encoding_reads : ∀ (item : Item) (rest : Bytes), item.Fits →
    item.ReadsBack (item.encoding ++ rest) rest
  | .tlv tag content, rest, fits => read_encode tag content fits.1 fits.2 rest
  | .nested tag items, rest, fits =>
    ⟨_, read_encode tag _ fits.1 fits.2.1 rest, by
      have inside := encodingAll_reads items [] fits.2.2
      rwa [append_nil] at inside⟩
  | .unsignedInteger bytes, rest, fits =>
    ⟨_, _, read_encode integer _ (by decide) fits rest, unsigned_integerContent _,
      extend_magnitude _⟩
  | .smallInteger value, rest, _ => by
      have few := length_magnitude_toNat value
      have more := length_integerContent_le value.toNat
      have content := read_encode integer (integerContent value.toNat) (by decide) (by omega)
        rest
      simp only [Item.ReadsBack, Item.encoding, smallUnsigned, content, unsigned_integerContent,
        bind, Except.bind, foldl_eq_extend, extend_magnitude, if_neg (Nat.not_lt.mpr few)]
  | .boolean value, rest, _ => by
      have content := read_encode boolean [if value then 0xff else 0] (by decide)
        (by rw [length_singleton]; decide) rest
      rw [Item.ReadsBack, Item.encoding, readBoolean, content]
      cases value with
      | false => rfl
      | true => rfl
  | .null, rest, _ => read_encode null [] (by decide) (by decide) rest
  | .oid encoded, rest, fits => read_encode oid encoded (by decide) fits rest
  | .bitString bytes, rest, fits => by
      have content := read_encode bitString (0 :: bytes) (by decide) fits rest
      simp only [Item.ReadsBack, Item.encoding, bitStringBytes, content]
  | .raw items, rest, fits => encodingAll_reads items rest fits

theorem encodingAll_reads : ∀ (items : List Item) (rest : Bytes), FitsAll items →
    ReadsBackAll items (encodingAll items ++ rest) rest
  | [], rest, _ => rfl
  | item :: items, rest, fits => by
      rw [encodingAll, append_assoc]
      exact ⟨_, item.encoding_reads _ fits.1, encodingAll_reads items rest fits.2⟩

end

end Items

section Accepted

theorem value_of_read {tag : UInt8} {data content rest : Bytes}
    (taken : read tag data = .ok (content, rest)) :
    ∃ whole, Writer.tlv {} tag content = some { buf := whole } ∧ data = whole ++ rest := by
  unfold read readValue at taken
  cases any : readAny data with
  | error e =>
    rw [any] at taken
    cases taken
  | ok found =>
    obtain ⟨value, behind⟩ := found
    obtain ⟨⟨-, fits, whole⟩, all⟩ := valueCode.of_read any
    rw [any] at taken
    simp only at taken
    split at taken
    · rename_i same
      cases taken
      subst same
      exact ⟨_, Writer.tlv_eq {} value.tag fits, all.trans (by rw [← whole]; rfl)⟩
    · cases taken

theorem smallInteger_of_smallUnsigned {data rest : Bytes} {value : ℕ}
    (taken : smallUnsigned data = .ok (value, rest)) :
    value < 2 ^ 32 ∧ ∃ whole, Writer.smallInteger {} (UInt32.ofNat value) =
      some { buf := whole } ∧ data = whole ++ rest := by
  unfold smallUnsigned at taken
  cases first : read integer data with
  | error e =>
    rw [first] at taken
    cases taken
  | ok found =>
    obtain ⟨content, rest⟩ := found
    rw [first] at taken
    simp only [bind, Except.bind, foldl_eq_extend] at taken
    cases number : unsigned content with
    | error e =>
      rw [number] at taken
      cases taken
    | ok bytes =>
      rw [number] at taken
      simp only at taken
      split at taken
      · cases taken
      · rename_i few
        cases taken
        have bound := BigEndian.extend_zero_lt bytes
        have four := Nat.pow_le_pow_right (by decide : 0 < 256) (Nat.not_lt.mp few)
        have small : BigEndian.extend 0 bytes < 2 ^ 32 := by omega
        have same : (UInt32.ofNat (BigEndian.extend 0 bytes)).toNat =
            BigEndian.extend 0 bytes := UInt32.toNat_ofNat_of_lt' small
        refine ⟨small, ?_⟩
        rw [Writer.smallInteger, Writer.unsignedInteger_eq, same, extend_toBytes small,
          ← integerContent_of_unsigned number]
        exact value_of_read first

end Accepted

/-- Items are written, read back one after another and leave nothing; the reader stays within its
bytes; and each length, value and unsigned number it accepts is what the writer makes of it. -/
theorem canonical :
    (∀ items : List Item, FitsAll items →
      ∃ w, writeAll items {} = some w ∧ ReadsBackAll items w.buf [] ∧ finish [] = .ok ()) ∧
    (∀ data : Bytes, checkedReadAny data = some (readAny data)) ∧
    (∀ (input rest : Bytes) (len : ℕ), readLength input = .ok (len, rest) →
      ∃ length, pushLen [] len = some length ∧ input = length ++ rest) ∧
    (∀ (data rest : Bytes) (value : Value), readAny data = .ok (value, rest) →
      Writer.tlv {} value.tag value.content = some { buf := value.whole } ∧
        data = value.whole ++ rest) ∧
    (∀ content bytes : Bytes, unsigned content = .ok bytes →
      Writer.unsignedInteger {} bytes = Writer.tlv {} integer content) ∧
    ∀ (data rest : Bytes) (value : ℕ), smallUnsigned data = .ok (value, rest) →
      ∃ whole, Writer.smallInteger {} (UInt32.ofNat value) = some { buf := whole } ∧
        data = whole ++ rest := by
  refine ⟨fun items fits => ?_, checkedReadAny_eq, fun input rest len taken => ?_,
    fun data rest value taken => ?_, fun content bytes taken => ?_,
    fun data rest value taken => (smallInteger_of_smallUnsigned taken).2⟩
  · have reads := encodingAll_reads items [] fits
    rw [append_nil] at reads
    exact ⟨_, writeAll_eq items {} fits, reads, rfl⟩
  · obtain ⟨fits, all⟩ := lengthCode.of_read taken
    exact ⟨_, pushLen_eq [] fits, all⟩
  · obtain ⟨⟨-, fits, whole⟩, all⟩ := valueCode.of_read taken
    exact ⟨by rw [Writer.tlv_eq {} value.tag fits, ← whole]; rfl, all⟩
  · rw [Writer.unsignedInteger_eq, ← integerContent_of_unsigned taken]

/-- A sequence of a number with a high bit, a name and an empty sequence. -/
theorem canonical_sequence :
    let items : List Item :=
      [.nested sequence [.unsignedInteger [0, 0x80], .oid [0x2a], .nested sequence []]]
    ∃ w, writeAll items {} = some w ∧ ReadsBackAll items w.buf [] ∧ finish [] = .ok () :=
  canonical.1 _ ⟨⟨by decide, by decide +kernel, by show _ < _; decide +kernel,
    by show _ < _; decide, ⟨by decide, by decide, trivial⟩, trivial⟩, trivial⟩

/-- A tag with all of its low bits is written but not read, and a length of `2 ^ 32` has no first
byte in 32 bits. -/
theorem long_tag_unread :
    (¬∀ items : List Item,
      ∃ w, writeAll items {} = some w ∧ ReadsBackAll items w.buf [] ∧ finish [] = .ok ()) ∧
    Writer.tlv {} octetString (List.replicate (2 ^ 32) 0) = none := by
  constructor
  · intro all
    obtain ⟨w, written, ⟨behind, reads, -⟩, -⟩ := all [.tlv 0x1f []]
    cases written
    cases reads
  · rw [Writer.tlv, length_replicate]
    rfl

end EspDevkit.Crypto.X509.Der
