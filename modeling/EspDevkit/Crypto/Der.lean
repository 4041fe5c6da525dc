import EspDevkit.Crypto.Certificate
import EspDevkit.Library.ByteOrder
import EspDevkit.Library.PrefixCode

/-!
# Writing DER

The writer keeps the bytes written so far and gives `none` where a length finds no first byte.
-/

namespace EspDevkit.Crypto.X509.Der

/-- `push_len`.  A length is cut to 32 bits. -/
def pushLen (buf : Bytes) (len : ℕ) : Option Bytes :=
  if len < 0x80 then some (buf ++ [UInt8.ofNat len])
  else
    let bytes := (LittleEndian.toBytes 4 (len % 2 ^ 32)).reverse
    (bytes.findIdx? (· ≠ 0)).map fun skip =>
      buf ++ [0x80 ||| UInt8.ofNat (4 - skip)] ++ bytes.drop skip

structure Writer where
  buf : Bytes := []

namespace Writer

def tlv (w : Writer) (tag : UInt8) (content : Bytes) : Option Writer :=
  (pushLen (w.buf ++ [tag]) content.length).map fun buf => { buf := buf ++ content }

def raw (w : Writer) (encoded : Bytes) : Writer := { buf := w.buf ++ encoded }

def nested (w : Writer) (tag : UInt8) (f : Writer → Option Writer) : Option Writer :=
  (f {}).bind fun inner => w.tlv tag inner.buf

def sequence (w : Writer) (f : Writer → Option Writer) : Option Writer := w.nested Der.sequence f

/-- `unsigned_integer`. -/
def unsignedInteger (w : Writer) (magnitude : Bytes) : Option Writer :=
  let start := (magnitude.findIdx? (· ≠ 0)).getD (magnitude.length - 1)
  let magnitude := if magnitude.isEmpty then [0] else magnitude.drop start
  let buf := w.buf ++ [integer]
  match magnitude with
  | [] => none
  | first :: _ =>
    let buf :=
      if first &&& 0x80 ≠ 0 then
        (pushLen buf (magnitude.length + 1)).map fun buf => buf ++ [0]
      else pushLen buf magnitude.length
    buf.map fun buf => { buf := buf ++ magnitude }

def smallInteger (w : Writer) (value : UInt32) : Option Writer :=
  w.unsignedInteger (LittleEndian.toBytes 4 value.toNat).reverse

def boolean (w : Writer) (value : Bool) : Option Writer :=
  w.tlv Der.boolean [if value then 0xff else 0]

def null (w : Writer) : Option Writer := w.tlv Der.null []

def oid (w : Writer) (encoded : Bytes) : Option Writer := w.tlv Der.oid encoded

def bitString (w : Writer) (bytes : Bytes) : Option Writer :=
  (pushLen (w.buf ++ [Der.bitString]) (bytes.length + 1)).map fun buf =>
    { buf := buf ++ [0] ++ bytes }

end Writer

inductive Item where
  | tlv (tag : UInt8) (content : Bytes)
  | nested (tag : UInt8) (items : List Item)
  | unsignedInteger (magnitude : Bytes)
  | smallInteger (value : UInt32)
  | boolean (value : Bool)
  | null
  | oid (encoded : Bytes)
  | bitString (bytes : Bytes)
  /-- What another writer has finished. -/
  | raw (items : List Item)

mutual

def Item.write : Item → Writer → Option Writer
  | .tlv tag content, w => w.tlv tag content
  | .nested tag items, w => w.nested tag (writeAll items)
  | .unsignedInteger magnitude, w => w.unsignedInteger magnitude
  | .smallInteger value, w => w.smallInteger value
  | .boolean value, w => w.boolean value
  | .null, w => w.null
  | .oid encoded, w => w.oid encoded
  | .bitString bytes, w => w.bitString bytes
  | .raw items, w => (writeAll items {}).map fun inner => w.raw inner.buf

def writeAll : List Item → Writer → Option Writer
  | [], w => some w
  | item :: items, w => (item.write w).bind (writeAll items)

end

end EspDevkit.Crypto.X509.Der

/-!
## Reading DER

The encoding that every length and every value has.  The writer puts it down and the reader takes
it off again, so both are one code; and the reader stays within what it is given.
-/

namespace EspDevkit.Crypto.X509.Der

open List Option

section Length

/-- The bytes of a length: below `0x80` itself, else how many bytes it has and these. -/
def lengthBytes (len : ℕ) : Bytes :=
  if len < 0x80 then [UInt8.ofNat len]
  else (0x80 ||| UInt8.ofNat (BigEndian.bytes len).length) :: BigEndian.bytes len

theorem extend_toBytes {value : ℕ} (fits : value < 2 ^ 32) :
    BigEndian.extend 0 (LittleEndian.toBytes 4 value).reverse = value := by
  simp only [LittleEndian.toBytes, reverse_cons, reverse_nil, nil_append,
    cons_append, BigEndian.extend_cons, BigEndian.extend_nil, UInt8.toNat_ofNat']
  omega

theorem pushLen_eq (buf : Bytes) {len : ℕ} (fits : len < 2 ^ 32) :
    pushLen buf len = some (buf ++ lengthBytes len) := by
  unfold pushLen lengthBytes
  by_cases short : len < 0x80
  · rw [if_pos short, if_pos short]
  · rw [if_neg short, if_neg short, Nat.mod_eq_of_lt fits]
    have value := extend_toBytes fits
    cases found : (LittleEndian.toBytes 4 len).reverse.findIdx? (· ≠ 0) with
    | none =>
      have zero := (BigEndian.extend_of_findIdx found).2
      omega
    | some skip =>
      have rest := BigEndian.drop_findIdx found
      have size := congrArg List.length rest
      rw [value] at rest size
      rw [length_drop, length_reverse, LittleEndian.length_toBytes] at size
      simp only [found, map_some, rest, size, append_assoc, cons_append,
        nil_append]

theorem length_bytes_le {number : ℕ} (fits : number < 2 ^ 32) :
    (BigEndian.bytes number).length ≤ 4 := by
  have value := extend_toBytes fits
  cases found : (LittleEndian.toBytes 4 number).reverse.findIdx? (· ≠ 0) with
  | none =>
    have zero := (BigEndian.extend_of_findIdx found).2
    rw [value] at zero
    rw [zero, BigEndian.bytes_zero]
    exact Nat.zero_le 4
  | some skip =>
    have size := congrArg List.length (BigEndian.drop_findIdx found)
    rw [value, length_drop, length_reverse, LittleEndian.length_toBytes] at size
    omega

theorem longForm {count : ℕ} (few : count ≤ 4) :
    ¬ 0x80 ||| UInt8.ofNat count < 0x80 ∧
      ((0x80 ||| UInt8.ofNat count) &&& 0x7f).toNat = count := by
  have all : ∀ count : Fin 5, ¬ 0x80 ||| UInt8.ofNat count < 0x80 ∧
      ((0x80 ||| UInt8.ofNat count) &&& 0x7f).toNat = count := by decide
  exact all ⟨count, by omega⟩

theorem longForm_of {first : UInt8} (long : ¬ first < 0x80) :
    first = 0x80 ||| UInt8.ofNat (first &&& 0x7f).toNat := by
  have all : ∀ first : Fin 256, ¬ UInt8.ofNat first < 0x80 →
      UInt8.ofNat first = 0x80 ||| UInt8.ofNat (UInt8.ofNat first &&& 0x7f).toNat := by
    decide +kernel
  have here := all ⟨first.toNat, first.toNat_lt⟩
  rw [UInt8.ofNat_toNat] at here
  exact here long

theorem foldl_eq_extend (digits : Bytes) :
    digits.foldl (fun acc b => acc * 256 + b.toNat) 0 = BigEndian.extend 0 digits := by
  unfold BigEndian.extend
  congr 1
  funext acc b
  exact (BigEndian.shift_or acc b).symm

theorem readLength_lengthBytes {len : ℕ} (fits : len < 2 ^ 32) (rest : Bytes) :
    readLength (lengthBytes len ++ rest) = .ok (len, rest) := by
  unfold lengthBytes
  by_cases short : len < 0x80
  · have small : (UInt8.ofNat len).toNat = len := UInt8.toNat_ofNat_of_lt' (by
      show len < 256
      omega)
    have below : UInt8.ofNat len < 0x80 := by
      rw [UInt8.lt_iff_toNat_lt, small]
      exact short
    rw [if_pos short, cons_append, nil_append, readLength, if_pos below, small]
  · have some_ := length_pos_of_ne_nil (BigEndian.bytes_ne_nil (by omega : len ≠ 0))
    have few := length_bytes_le fits
    obtain ⟨long, count⟩ := longForm few
    rw [if_neg short, cons_append, readLength, if_neg long, count]
    have lead : (BigEndian.bytes len ++ rest).head? ≠ some 0 := by
      rw [BigEndian.head_append (BigEndian.bytes_ne_nil (by omega))]
      exact BigEndian.head_bytes len
    have fits_ : ¬ ((BigEndian.bytes len).length = 0 ∨ 4 < (BigEndian.bytes len).length ∨
        (BigEndian.bytes len ++ rest).length < (BigEndian.bytes len).length ∨
        (BigEndian.bytes len ++ rest).head? = some 0) := by
      rintro (none_ | many | short_ | zero)
      · omega
      · omega
      · rw [length_append] at short_
        omega
      · exact lead zero
    simp only [if_neg fits_, take_left, drop_left, foldl_eq_extend,
      BigEndian.extend_bytes, if_neg short]

theorem lengthBytes_of_readLength {input rest : Bytes} {len : ℕ}
    (read : readLength input = .ok (len, rest)) :
    len < 2 ^ 32 ∧ input = lengthBytes len ++ rest := by
  cases input with
  | nil => cases read
  | cons first after =>
    rw [readLength] at read
    unfold lengthBytes
    by_cases short : first < 0x80
    · rw [if_pos short] at read
      cases read
      have small : first.toNat < 0x80 := UInt8.lt_iff_toNat_lt.mp short
      rw [if_pos small, UInt8.ofNat_toNat]
      exact ⟨by omega, rfl⟩
    · rw [if_neg short] at read
      simp only [foldl_eq_extend] at read
      split at read
      · cases read
      · rename_i fits
        split at read
        · cases read
        · rename_i long
          cases read
          generalize size : (first &&& 0x7f).toNat = count at *
          push Not at fits
          obtain ⟨some_, few, enough, lead⟩ := fits
          have whole : (after.take count).length = count := length_take_of_le enough
          have lead' : (after.take count).head? ≠ some 0 := by
            rw [List.head?_take, if_neg some_]
            exact lead
          have shortest := BigEndian.bytes_extend lead'
          have bound := BigEndian.extend_zero_lt (after.take count)
          rw [whole] at bound
          have four := Nat.pow_le_pow_right (by decide : 0 < 256) few
          have head := longForm_of short
          rw [size] at head
          rw [if_neg long, shortest, whole, ← head, cons_append, take_append_drop]
          exact ⟨by omega, rfl⟩

def lengthCode : PrefixCode ℕ UInt8 Error where
  Writable len := len < 2 ^ 32
  write := lengthBytes
  read := readLength
  read_write := readLength_lengthBytes
  of_read := lengthBytes_of_readLength

end Length

section Value

def encode (tag : UInt8) (content : Bytes) : Bytes :=
  tag :: lengthBytes content.length ++ content

theorem Writer.tlv_eq (w : Writer) (tag : UInt8) {content : Bytes}
    (fits : content.length < 2 ^ 32) :
    w.tlv tag content = some { buf := w.buf ++ encode tag content } := by
  rw [Writer.tlv, pushLen_eq _ fits, map_some, encode]
  simp only [append_assoc, cons_append, nil_append]

structure Value.Encoded (value : Value) : Prop where
  /-- No tag of several bytes. -/
  tag : value.tag &&& 0x1f ≠ 0x1f
  content : value.content.length < 2 ^ 32
  whole : value.whole = encode value.tag value.content

theorem readAny_whole {value : Value} (encoded : value.Encoded) (rest : Bytes) :
    readAny (value.whole ++ rest) = .ok (value, rest) := by
  obtain ⟨tag, content, whole⟩ := value
  obtain ⟨short, fits, all_⟩ := encoded
  change whole = encode tag content at all_
  subst all_
  have length := lengthCode.read_write fits (content ++ rest)
  change readLength (lengthBytes content.length ++ (content ++ rest)) = _ at length
  have header : (tag :: (lengthBytes content.length ++ (content ++ rest))).length -
      (content ++ rest).length + content.length = (encode tag content).length := by
    unfold encode
    simp only [length_cons, length_append]
    omega
  have all : encode tag content ++ rest =
      tag :: (lengthBytes content.length ++ (content ++ rest)) := by
    simp only [encode, cons_append, append_assoc]
  have enough : ¬(content ++ rest).length < content.length := by
    rw [length_append]
    omega
  have front : (tag :: (lengthBytes content.length ++ (content ++ rest))).take
      (encode tag content).length = encode tag content := by
    rw [← all, take_left]
  simp only [all, readAny, if_neg short, length, if_neg enough, header, front, take_left,
    drop_left]

theorem encoded_of_readAny {data rest : Bytes} {value : Value}
    (read : readAny data = .ok (value, rest)) : value.Encoded ∧ data = value.whole ++ rest := by
  cases data with
  | nil => cases read
  | cons tag after =>
    rw [readAny] at read
    split at read
    · cases read
    · rename_i short
      cases length : readLength after with
      | error e =>
        rw [length] at read
        cases read
      | ok found =>
        obtain ⟨len, behind⟩ := found
        obtain ⟨fits, rfl⟩ := lengthCode.of_read length
        rw [length] at read
        simp only at read
        split at read
        · cases read
        · rename_i enough
          cases read
          have size : (behind.take len).length = len := length_take_of_le (by omega)
          have header : (tag :: (lengthCode.write len ++ behind)).length - behind.length + len =
              (encode tag (behind.take len)).length := by
            unfold encode
            rw [length_cons, length_append, length_append, length_cons,
              size]
            change (lengthBytes len).length + behind.length + 1 - behind.length + len = _
            omega
          have all : tag :: (lengthCode.write len ++ behind) =
              encode tag (behind.take len) ++ behind.drop len := by
            rw [encode, size, append_assoc, take_append_drop]
            rfl
          refine ⟨⟨short, size.trans_lt fits, ?_⟩, ?_⟩
          · rw [header, all, take_left]
          · rw [header, all, take_left]

def valueCode : PrefixCode Value UInt8 Error where
  Writable := Value.Encoded
  write := Value.whole
  read := readAny
  read_write := readAny_whole
  of_read := encoded_of_readAny

theorem read_encode (tag : UInt8) (content : Bytes) (short : tag &&& 0x1f ≠ 0x1f)
    (fits : content.length < 2 ^ 32) (rest : Bytes) :
    read tag (encode tag content ++ rest) = .ok (content, rest) := by
  have value := @readAny_whole { tag, content, whole := encode tag content } ⟨short, fits, rfl⟩ rest
  simp only [read, readValue, value, if_true]
  rfl

end Value

section Integer

def magnitude (number : ℕ) : Bytes := if number = 0 then [0] else BigEndian.bytes number

def integerContent (number : ℕ) : Bytes :=
  if 0x80 ≤ (magnitude number).headD 0 then 0 :: magnitude number else magnitude number

theorem magnitude_ne_nil (number : ℕ) : magnitude number ≠ [] := by
  unfold magnitude
  split
  · nofun
  · exact BigEndian.bytes_ne_nil ‹_›

theorem extend_magnitude (number : ℕ) : BigEndian.extend 0 (magnitude number) = number := by
  unfold magnitude
  split
  · rename_i zero
    exact zero.symm
  · exact BigEndian.extend_bytes number

theorem magnitude_extend {bytes : Bytes} (lead : bytes.head? ≠ some 0) (some_ : bytes ≠ []) :
    magnitude (BigEndian.extend 0 bytes) = bytes := by
  have kept := BigEndian.bytes_extend lead
  have number : BigEndian.extend 0 bytes ≠ 0 := by
    intro zero
    rw [zero, BigEndian.bytes_zero] at kept
    exact some_ kept.symm
  rw [magnitude, if_neg number, kept]

theorem high_bit (byte : UInt8) : byte &&& 0x80 ≠ 0 ↔ 0x80 ≤ byte := by
  have all : ∀ byte : Fin 256, UInt8.ofNat byte &&& 0x80 ≠ 0 ↔ 0x80 ≤ UInt8.ofNat byte := by
    decide +kernel
  have here := all ⟨byte.toNat, byte.toNat_lt⟩
  rwa [UInt8.ofNat_toNat] at here

theorem trimmed_eq (bytes : Bytes) :
    (if bytes.isEmpty then [0]
      else bytes.drop ((bytes.findIdx? (· ≠ 0)).getD (bytes.length - 1))) =
      magnitude (BigEndian.extend 0 bytes) := by
  cases found : bytes.findIdx? (· ≠ 0) with
  | none =>
    obtain ⟨zeros, zero⟩ := BigEndian.extend_of_findIdx found
    rw [zero, magnitude, if_pos rfl, getD_none]
    cases bytes with
    | nil => rfl
    | cons first rest =>
      rw [isEmpty_cons, if_neg Bool.false_ne_true, zeros, drop_replicate,
        length_replicate, length_cons, Nat.add_sub_cancel, Nat.add_sub_cancel_left]
      rfl
  | some skip =>
    have kept := BigEndian.drop_findIdx found
    have inside : skip < bytes.length := (List.findIdx?_eq_some_iff_getElem.mp found).1
    have some_ : BigEndian.extend 0 bytes ≠ 0 := by
      intro zero
      rw [zero, BigEndian.bytes_zero] at kept
      have none_ := congrArg List.length kept
      rw [length_drop, length_nil] at none_
      omega
    rw [if_neg (by rintro empty; rw [isEmpty_iff.mp empty] at inside; cases inside),
      getD_some, kept, magnitude, if_neg some_]

theorem Writer.unsignedInteger_eq (w : Writer) (bytes : Bytes) :
    w.unsignedInteger bytes = w.tlv integer (integerContent (BigEndian.extend 0 bytes)) := by
  unfold Writer.unsignedInteger Writer.tlv integerContent
  simp only [trimmed_eq]
  cases shape : magnitude (BigEndian.extend 0 bytes) with
  | nil => exact absurd shape (magnitude_ne_nil _)
  | cons first rest =>
    simp only [high_bit]
    by_cases high : 0x80 ≤ (first :: rest).headD 0
    · rw [if_pos high, if_pos (show 0x80 ≤ first from high), Option.map_map]
      simp only [List.length_cons, Function.comp_def, List.append_assoc, List.cons_append,
        List.nil_append]
    · rw [if_neg high, if_neg (show ¬0x80 ≤ first from high)]

theorem unsigned_integerContent (number : ℕ) :
    unsigned (integerContent number) = .ok (magnitude number) := by
  unfold integerContent
  by_cases zero : number = 0
  · subst zero
    decide
  · have lead := BigEndian.head_bytes number
    rw [magnitude, if_neg zero]
    cases shape : BigEndian.bytes number with
    | nil => exact absurd shape (BigEndian.bytes_ne_nil zero)
    | cons first rest =>
      rw [shape] at lead
      have first_ : first ≠ 0 := fun same => lead (congrArg some same)
      rw [headD_cons]
      by_cases high : 0x80 ≤ first
      · have below : ¬first < 0x80 := UInt8.not_lt.mpr high
        rw [if_pos high, unsigned, if_neg (by decide), if_pos rfl]
        simp only [if_neg below]
      · simp only [if_neg high, unsigned, if_neg first_]

theorem integerContent_of_unsigned {content bytes : Bytes} (read : unsigned content = .ok bytes) :
    content = integerContent (BigEndian.extend 0 bytes) := by
  unfold unsigned at read
  cases content with
  | nil => cases read
  | cons first rest =>
    by_cases high : 0x80 ≤ first
    · change (if 0x80 ≤ first then _ else _) = _ at read
      rw [if_pos high] at read
      cases read
    · simp only [if_neg high] at read
      by_cases zero : first = 0
      · subst zero
        rw [if_pos rfl] at read
        cases rest with
        | nil =>
          cases read
          decide
        | cons next rest =>
          simp only at read
          by_cases below : next < 0x80
          · rw [if_pos below] at read
            cases read
          · rw [if_neg below] at read
            cases read
            have lead : (next :: rest).head? ≠ some 0 := by
              rintro same
              cases same
              exact below (by decide)
            have kept := magnitude_extend lead (cons_ne_nil _ _)
            unfold integerContent
            rw [kept, headD_cons, if_pos (UInt8.not_lt.mp below)]
      · rw [if_neg zero] at read
        cases read
        have lead : (first :: rest).head? ≠ some 0 := fun same => zero (Option.some.inj same)
        have kept := magnitude_extend lead (cons_ne_nil _ _)
        unfold integerContent
        rw [kept, headD_cons, if_neg high]

end Integer

end EspDevkit.Crypto.X509.Der
