import Mathlib.Algebra.Group.Int.Defs
import Mathlib.Algebra.Group.Nat.Defs
import Mathlib.Data.Nat.Notation
import Mathlib.Data.List.Basic
import Mathlib.Data.Int.Notation

/-!
# The lines of the settings file

How a value is written to a line, and how a line is read.  A string of the
source that ends with its NUL is the list of its bytes, and a pointer into it is
the list of the bytes from there on.
-/

namespace EspDevkit.Nvs

abbrev Bytes := List UInt8

def byte (c : Char) : UInt8 := UInt8.ofNat c.toNat

/-- `vtype_t`. -/
inductive VType
  | none
  | u8 | i8 | u16 | i16 | u32 | i32 | u64 | i64
  | str | blob
  deriving DecidableEq, Repr

namespace VType

/-- `k_types`. -/
def name : VType → Bytes
  | none => []
  | u8 => ['u', '8'].map byte
  | i8 => ['i', '8'].map byte
  | u16 => ['u', '1', '6'].map byte
  | i16 => ['i', '1', '6'].map byte
  | u32 => ['u', '3', '2'].map byte
  | i32 => ['i', '3', '2'].map byte
  | u64 => ['u', '6', '4'].map byte
  | i64 => ['i', '6', '4'].map byte
  | str => ['s', 't', 'r'].map byte
  | blob => ['b', 'l', 'o', 'b'].map byte

def isSigned : VType → Bool
  | i8 | i16 | i32 | i64 => true
  | _ => false

def bits : VType → ℕ
  | u8 | i8 => 8
  | u16 | i16 => 16
  | u32 | i32 => 32
  | u64 | i64 => 64
  | none | str | blob => 0

/-- The types a line can name, in the order they are tried. -/
def named : List VType := [u8, i8, u16, i16, u32, i32, u64, i64, str, blob]

def ofName (start : Bytes) : VType :=
  named.foldl (fun found type => if type.name = start then type else found) none

end VType

/-- `lit_t`, with what it is a literal of: `neg` and `mag`, or `data`. -/
inductive Value
  | int (neg : Bool) (mag : ℕ)
  | str (data : Bytes)
  | blob (data : Bytes)
  deriving DecidableEq, Repr

inductive Kind
  | raw
  | sect
  | entry
  deriving DecidableEq, Repr

/-- `line_t`. -/
structure Line where
  kind : Kind := .raw
  text : Bytes
  name : Bytes := []
  keyEnd : ℕ := 0
  valueEnd : ℕ := 0
  type : VType := .none
  value : Value := .int false 0
  deriving DecidableEq, Repr

def isUpper (c : UInt8) : Bool := byte 'A' ≤ c && c ≤ byte 'Z'

def isLower (c : UInt8) : Bool := byte 'a' ≤ c && c ≤ byte 'z'

def isDigit (c : UInt8) : Bool := byte '0' ≤ c && c ≤ byte '9'

def isBare (c : UInt8) : Bool :=
  isUpper c || isLower c || isDigit c || c == byte '_' || c == byte '-'

def isBareKey (s : Bytes) : Bool := !s.isEmpty && s.all isBare

def hexDigit (n : ℕ) : UInt8 := if n < 10 then UInt8.ofNat (48 + n) else UInt8.ofNat (87 + n)

/-- `%02x`. -/
def hexByte (c : UInt8) : Bytes := [hexDigit (c.toNat / 16), hexDigit (c.toNat % 16)]

def quotedByte (c : UInt8) : Bytes :=
  if c = byte '"' then [byte '\\', byte '"']
  else if c = byte '\\' then [byte '\\', byte '\\']
  else if c = byte '\n' then [byte '\\', byte 'n']
  else if c = byte '\t' then [byte '\\', byte 't']
  else if c < 0x20 ∨ c = 0x7f then byte '\\' :: byte 'u' :: byte '0' :: byte '0' :: hexByte c
  else [c]

def putQuoted (s : Bytes) : Bytes := byte '"' :: (s.flatMap quotedByte ++ [byte '"'])

def putName (name : Bytes) : Bytes := if isBareKey name then name else putQuoted name

def digit (n : ℕ) : UInt8 := UInt8.ofNat (48 + n)

def decimalDigits : ℕ → ℕ → Bytes
  | 0, _ => []
  | k + 1, n => if n < 10 then [digit n] else decimalDigits k (n / 10) ++ [digit (n % 10)]

/-- `PRIu64`. -/
def decimal (n : ℕ) : Bytes := decimalDigits 20 n

def putValue : Value → Bytes
  | .int neg mag => (if neg then [byte '-'] else []) ++ decimal mag
  | .str data => putQuoted data
  | .blob data => byte '0' :: byte 'x' :: data.flatMap hexByte

def putTyped (type : VType) (value : Value) : Bytes :=
  (if type = .none then [] else byte ':' :: byte ' ' :: type.name) ++
    (byte ' ' :: byte '=' :: byte ' ' :: putValue value)

def Line.render (l : Line) : Line :=
  let head := l.text.take l.keyEnd ++ putTyped l.type l.value
  { l with text := head ++ l.text.drop l.valueEnd, valueEnd := head.length }

def hexval (c : UInt8) : Option ℕ :=
  if isDigit c then some (c.toNat - 48)
  else if byte 'a' ≤ c ∧ c ≤ byte 'f' then some (c.toNat - 97 + 10)
  else if byte 'A' ≤ c ∧ c ≤ byte 'F' then some (c.toNat - 65 + 10)
  else none

def isBlank (c : UInt8) : Bool := c == byte ' ' || c == byte '\t'

def skipWs (p : Bytes) : Bytes := p.dropWhile isBlank

def restIsBlank (p : Bytes) : Bool :=
  match skipWs p with
  | [] => true
  | c :: _ => c == byte '#'

def utf8 (cp : ℕ) : Bytes :=
  if cp < 0x80 then [UInt8.ofNat cp]
  else if cp < 0x800 then [UInt8.ofNat (0xc0 + cp / 64), UInt8.ofNat (0x80 + cp % 64)]
  else if cp < 0x10000 then
    [UInt8.ofNat (0xe0 + cp / 4096), UInt8.ofNat (0x80 + cp / 64 % 64), UInt8.ofNat (0x80 + cp % 64)]
  else
    [UInt8.ofNat (0xf0 + cp / 262144), UInt8.ofNat (0x80 + cp / 4096 % 64),
      UInt8.ofNat (0x80 + cp / 64 % 64), UInt8.ofNat (0x80 + cp % 64)]

/-- The bytes of a `\u` escape with the given digits. -/
def unescape (digits : Bytes) : Except String Bytes :=
  match digits.mapM hexval with
  | none => .error "bad \\u escape"
  | some values =>
    let cp := values.foldl (fun cp v => cp * 16 + v) 0
    if cp = 0 ∨ 0x10ffff < cp ∨ (0xd800 ≤ cp ∧ cp ≤ 0xdfff) then .error "bad \\u escape"
    else .ok (utf8 cp)

def letterEscape (c : UInt8) : Option UInt8 :=
  if c = byte '"' then some (byte '"')
  else if c = byte '\\' then some (byte '\\')
  else if c = byte 'n' then some (byte '\n')
  else if c = byte 't' then some (byte '\t')
  else if c = byte 'r' then some (byte '\r')
  else if c = byte 'b' then some 8
  else if c = byte 'f' then some 12
  else none

def prepend (out : Except String Bytes) (more : Except String (Bytes × Bytes)) :
    Except String (Bytes × Bytes) :=
  match out, more with
  | .error err, _ => .error err
  | _, .error err => .error err
  | .ok out, .ok (data, p) => .ok (out ++ data, p)

/-- `parse_string`, after the quote. -/
def parseString : Bytes → Except String (Bytes × Bytes)
  | [] => .error "unterminated string"
  | c :: p =>
    if c = byte '"' then .ok ([], p)
    else if c ≠ byte '\\' then prepend (.ok [c]) (parseString p)
    else
      match p with
      | [] => .error "bad escape"
      | e :: p =>
        match letterEscape e with
        | some c => prepend (.ok [c]) (parseString p)
        | none =>
          if e = byte 'u' then
            match p with
            | a :: b :: c :: d :: p => prepend (unescape [a, b, c, d]) (parseString p)
            | _ => .error "bad \\u escape"
          else if e = byte 'U' then
            match p with
            | a :: b :: c :: d :: a' :: b' :: c' :: d' :: p =>
              prepend (unescape [a, b, c, d, a', b', c', d']) (parseString p)
            | _ => .error "bad \\u escape"
          else .error "bad escape"

def parseName (p : Bytes) : Except String (Bytes × Bytes) :=
  match p with
  | [] => .error "missing name"
  | c :: rest =>
    if c = byte '"' then parseString rest
    else
      let name := p.takeWhile isBare
      if name = [] then .error "missing name" else .ok (name, p.dropWhile isBare)

def uint64Max : ℕ := 2 ^ 64 - 1

def parseDigits (mag : ℕ) : Bytes → Except String (ℕ × Bytes)
  | [] => .ok (mag, [])
  | c :: p =>
    if isDigit c then
      let d := c.toNat - 48
      if (uint64Max - d) / 10 < mag then .error "integer out of range"
      else parseDigits (mag * 10 + d) p
    else .ok (mag, c :: p)

def hexPairs : Bytes → Bytes
  | hi :: lo :: p => UInt8.ofNat ((hexval hi).getD 0 * 16 + (hexval lo).getD 0) :: hexPairs p
  | _ => []

def parseInt (neg : Bool) (p : Bytes) : Except String (Value × Bytes) :=
  match p with
  | [] => .error "bad value"
  | c :: _ =>
    if !isDigit c then .error "bad value"
    else
      match parseDigits 0 p with
      | .error err => .error err
      | .ok (mag, p) =>
        if neg ∧ 2 ^ 63 < mag then .error "integer out of range"
        else .ok (.int (neg && mag ≠ 0) mag, p)

def parseBlob (p : Bytes) : Except String (Value × Bytes) :=
  let digits := p.takeWhile fun c => (hexval c).isSome
  if digits.length % 2 = 1 then .error "odd number of hex digits"
  else .ok (.blob (hexPairs digits), p.dropWhile fun c => (hexval c).isSome)

def parseValue (p : Bytes) : Except String (Value × Bytes) :=
  match p with
  | [] => parseInt false p
  | c :: rest =>
    if c = byte '"' then
      match parseString rest with
      | .error err => .error err
      | .ok (data, p) => .ok (.str data, p)
    else
      match rest with
      | x :: more =>
        if c = byte '0' ∧ (x = byte 'x' ∨ x = byte 'X') then parseBlob more
        else if c = byte '-' then parseInt true rest
        else parseInt false p
      | [] => if c = byte '-' then parseInt true rest else parseInt false p

def intFits (neg : Bool) (mag : ℕ) (type : VType) : Bool :=
  if type.isSigned then
    if neg then decide (mag ≤ 2 ^ (type.bits - 1)) else decide (mag < 2 ^ (type.bits - 1))
  else !neg && (decide (type.bits = 64) || decide (mag < 2 ^ type.bits))

def checkType (type : VType) (value : Value) : Except String Unit :=
  match type, value with
  | .none, _ => .ok ()
  | .str, .str _ => .ok ()
  | .str, _ => .error "str needs a \"...\" value"
  | .blob, .blob _ => .ok ()
  | .blob, _ => .error "blob needs a 0x... value"
  | type, .int neg mag =>
    if intFits neg mag type then .ok () else .error "integer out of range for its type"
  | _, _ => .error "integer type needs a decimal value"

def isTypeChar (c : UInt8) : Bool := isLower c || isDigit c

def parseType (p : Bytes) : Except String (VType × Bytes) :=
  match p with
  | [] => .ok (.none, p)
  | c :: rest =>
    if c = byte ':' then
      let start := skipWs rest
      let type := VType.ofName (start.takeWhile isTypeChar)
      if type = .none then .error "unknown type"
      else .ok (type, skipWs (start.dropWhile isTypeChar))
    else .ok (.none, p)

def parseSection (text p : Bytes) : Except String Line :=
  match parseName (skipWs p) with
  | .error err => .error err
  | .ok (name, p) =>
    match skipWs p with
    | [] => .error "expected ']'"
    | c :: p =>
      if c ≠ byte ']' then .error "expected ']'"
      else if !restIsBlank p then .error "trailing characters"
      else .ok { kind := .sect, text, name }

def parseEntry (text p : Bytes) : Except String Line :=
  match parseName p with
  | .error err => .error err
  | .ok (name, afterName) =>
    match parseType (skipWs afterName) with
    | .error err => .error err
    | .ok (type, p) =>
      match p with
      | [] => .error "expected '='"
      | c :: p =>
        if c ≠ byte '=' then .error "expected '='"
        else
          match parseValue (skipWs p) with
          | .error err => .error err
          | .ok (value, rest) =>
            if !restIsBlank rest then .error "trailing characters"
            else
              match checkType type value with
              | .error err => .error err
              | .ok _ =>
                .ok
                  { kind := .entry, text, name, type, value
                    keyEnd := text.length - afterName.length
                    valueEnd := text.length - rest.length }

def parseLine (text : Bytes) : Except String Line :=
  match skipWs text with
  | [] => .ok { text }
  | c :: p =>
    if c = byte '#' then .ok { text }
    else if c = byte '[' then parseSection text p
    else parseEntry text (c :: p)

end EspDevkit.Nvs

/-!
## The settings store

The file as a list of lines, which calls change in place.  Every call that
changes it writes the file again, which is what the lines render to.
-/

namespace EspDevkit.Nvs

/-- `line_reset_to_raw`. -/
def Line.asRaw (text : Bytes) : Line := { text }

/-- `strndup` of a line up to its end, without a CR before it. -/
def stripCr (line : Bytes) : Bytes :=
  if line.getLast? = some (byte '\r') then line.dropLast else line

/-- The lines of what is left of the file, the first of which began with `line`
read backwards. -/
def splitFrom (line : Bytes) : Bytes → List Bytes
  | [] => if line = [] then [] else [line.reverse]
  | c :: p =>
    if c = byte '\n' then line.reverse :: splitFrom [] p else splitFrom (c :: line) p

def splitLines (file : Bytes) : List Bytes := splitFrom [] (file.takeWhile (· ≠ 0))

def loadLine (below : Bool) (text : Bytes) : Line :=
  match parseLine text with
  | .error _ => .asRaw text
  | .ok l => if l.kind = .entry ∧ !below then .asRaw text else l

/-- The loop of `ensure_loaded`. -/
def loadLines (below : Bool) : List Bytes → List Line
  | [] => []
  | line :: rest =>
    let l := loadLine below (stripCr line)
    l :: loadLines (below || l.kind = .sect) rest

def load (file : Bytes) : List Line := loadLines false (splitLines file)

/-- `save_unlocked`. -/
def save (lines : List Line) : Bytes := lines.flatMap fun l => l.text ++ [byte '\n']

def Line.enters (ns : Bytes) (inside : Bool) (l : Line) : Bool :=
  if l.kind = .sect then decide (l.name = ns) else inside

/-- `find_ns`. -/
def findNs (ns : Bytes) (lines : List Line) : Bool :=
  lines.any fun l => decide (l.kind = .sect ∧ l.name = ns)

/-- The loop of `find_entry`: where the last such entry is. -/
def findFrom (ns key : Bytes) (inside : Bool) : List Line → Option ℕ
  | [] => none
  | l :: lines =>
    let inside := l.enters ns inside
    match findFrom ns key inside lines with
    | some i => some (i + 1)
    | none => if inside ∧ l.kind = .entry ∧ l.name = key then some 0 else none

def findEntry (ns key : Bytes) (lines : List Line) : Option ℕ := findFrom ns key false lines

/-- The loop of `insert_entry`: below the last section or entry line of the
namespace. -/
def insertPlace (ns : Bytes) (inside : Bool) : List Line → Option ℕ
  | [] => none
  | l :: lines =>
    let inside := l.enters ns inside
    match insertPlace ns inside lines with
    | some i => some (i + 1)
    | none => if inside ∧ l.kind ≠ .raw then some 1 else none

def insertEntry (ns : Bytes) (entry : Line) (lines : List Line) : List Line :=
  match insertPlace ns false lines with
  | some i => lines.take i ++ entry :: lines.drop i
  | none =>
    let lines := match lines.getLast? with
      | none => lines
      | some last => if last.text = [] then lines else lines ++ [.asRaw []]
    lines ++
      [{ kind := .sect, text := byte '[' :: (putName ns ++ [byte ']']), name := ns }, entry]

/-- `remove_entries`, with the count of what it removed. -/
def removeEntries (ns : Bytes) (key : Option Bytes) (inside : Bool) : List Line → List Line × ℕ
  | [] => ([], 0)
  | l :: lines =>
    let inside := l.enters ns inside
    let (kept, removed) := removeEntries ns key inside lines
    if inside ∧ l.kind = .entry ∧ (∀ k ∈ key, l.name = k) then (kept, removed + 1)
    else (l :: kept, removed)

structure CString where
  bytes : Bytes
  noNul : (0 : UInt8) ∉ bytes

structure Setting where
  type : VType
  value : Value
  typed : type ≠ .none
  fits : checkType type value = .ok ()
  noNul : ∀ data, value = .str data → (0 : UInt8) ∉ data
  positive : value ≠ .int true 0
  small : ∀ neg mag, value = .int neg mag → mag ≤ uint64Max

/-- `set_signed`. -/
def setSigned (type : VType) (v : ℤ) (isSigned : type.isSigned) (low : -2 ^ (type.bits - 1) ≤ v)
    (high : v < 2 ^ (type.bits - 1)) : Setting where
  type
  value := .int (decide (v < 0)) v.natAbs
  typed := by rintro rfl; simp [VType.isSigned] at isSigned
  fits := by
    have fits : intFits (decide (v < 0)) v.natAbs type = true := by
      unfold intFits
      rw [if_pos isSigned]
      have power : (2 : ℤ) ^ (type.bits - 1) = ((2 ^ (type.bits - 1) : ℕ) : ℤ) := by simp
      rw [power] at low high
      split
      · rename_i negative
        have := of_decide_eq_true negative
        exact decide_eq_true (by omega)
      · rename_i negative
        have := of_decide_eq_false (eq_false_of_ne_true negative)
        exact decide_eq_true (by omega)
    cases type <;> simp [VType.isSigned] at isSigned <;> simp [checkType, fits]
  noNul := nofun
  positive := by
    simp only [ne_eq, Value.int.injEq, decide_eq_true_eq, Int.natAbs_eq_zero, not_and]
    omega
  small := by
    rintro _ _ ⟨⟩
    have power : (2 : ℤ) ^ (type.bits - 1) ≤ 2 ^ 63 := by
      cases type <;> decide
    unfold uint64Max
    omega

/-- `set_unsigned`. -/
def setUnsigned (type : VType) (v : ℕ) (isUnsigned : !type.isSigned) (some : 0 < type.bits)
    (high : v < 2 ^ type.bits) : Setting where
  type
  value := .int false v
  typed := by rintro rfl; simp [VType.bits] at some
  fits := by
    have fits : intFits false v type = true := by
      unfold intFits
      rw [if_neg (by simpa using isUnsigned)]
      simp [high]
    cases type <;> simp [VType.isSigned, VType.bits] at isUnsigned some <;> simp [checkType, fits]
  noNul := nofun
  positive := nofun
  small := by
    rintro _ _ ⟨⟩
    have power : 2 ^ type.bits ≤ 2 ^ 64 := by
      cases type <;> decide
    unfold uint64Max
    omega

def nvsSetI8 (v : Int8) : Setting := setSigned .i8 v.toInt rfl v.le_toInt v.toInt_lt
def nvsSetU8 (v : UInt8) : Setting := setUnsigned .u8 v.toNat rfl (by decide) v.toNat_lt
def nvsSetI16 (v : Int16) : Setting := setSigned .i16 v.toInt rfl v.le_toInt v.toInt_lt
def nvsSetU16 (v : UInt16) : Setting := setUnsigned .u16 v.toNat rfl (by decide) v.toNat_lt
def nvsSetI32 (v : Int32) : Setting := setSigned .i32 v.toInt rfl v.le_toInt v.toInt_lt
def nvsSetU32 (v : UInt32) : Setting := setUnsigned .u32 v.toNat rfl (by decide) v.toNat_lt
def nvsSetI64 (v : Int64) : Setting := setSigned .i64 v.toInt rfl v.le_toInt v.toInt_lt
def nvsSetU64 (v : UInt64) : Setting := setUnsigned .u64 v.toNat rfl (by decide) v.toNat_lt

def nvsSetStr (v : CString) : Setting where
  type := .str
  value := .str v.bytes
  typed := nofun
  fits := rfl
  noNul := by
    rintro _ ⟨⟩
    exact v.noNul
  positive := nofun
  small := nofun

def nvsSetBlob (v : Bytes) : Setting where
  type := .blob
  value := .blob v
  typed := nofun
  fits := rfl
  noNul := nofun
  positive := nofun
  small := nofun

structure OpenHandle where
  handle : ℕ
  ns : CString
  readonly : Bool
  inUse : Bool

structure Store where
  lines : List Line
  handles : List OpenHandle := []
  nextHandle : ℕ := 1

inductive Err
  | invalidHandle
  | readOnly
  | notFound
  deriving DecidableEq

/-- What `set_value` does to a line. -/
def Line.change (type : VType) (value : Value) (l : Line) : Line := { l with type, value }.render

/-- What `set_value` does to the lines. -/
def setEntry (ns key : Bytes) (type : VType) (value : Value) (lines : List Line) : List Line :=
  match findEntry ns key lines with
  | some i => lines.modify i (Line.change type value)
  | none =>
    let text := putName key
    let entry : Line :=
      { kind := .entry, text, name := key, keyEnd := text.length, valueEnd := text.length }
    let lines := insertEntry ns entry lines
    match findEntry ns key lines with
    | some i => lines.modify i (Line.change type value)
    | none => lines

namespace Store

def findHandle (s : Store) (handle : ℕ) : Option OpenHandle :=
  s.handles.find? fun h => h.inUse && h.handle == handle

def writable (s : Store) (handle : ℕ) : Except Err CString :=
  match s.findHandle handle with
  | none => .error .invalidHandle
  | some h => if h.readonly then .error .readOnly else .ok h.ns

def nvsOpen (s : Store) (name : CString) (readonly : Bool) : Store × Except Err ℕ :=
  if readonly ∧ !findNs name.bytes s.lines then (s, .error .notFound)
  else
    let h : OpenHandle := { handle := s.nextHandle, ns := name, readonly, inUse := true }
    let handles := match s.handles.findIdx? fun h => !h.inUse with
      | some i => s.handles.set i h
      | none => s.handles ++ [h]
    ({ s with handles, nextHandle := s.nextHandle + 1 }, .ok s.nextHandle)

def nvsClose (s : Store) (handle : ℕ) : Store :=
  match s.handles.findIdx? fun h => h.inUse && h.handle == handle with
  | some i => { s with handles := s.handles.modify i fun h => { h with inUse := false } }
  | none => s

/-- `set_value`. -/
def setValue (s : Store) (handle : ℕ) (key : CString) (setting : Setting) :
    Store × Except Err Unit :=
  match s.writable handle with
  | .error err => (s, .error err)
  | .ok ns =>
    ({ s with lines := setEntry ns.bytes key.bytes setting.type setting.value s.lines }, .ok ())

def nvsEraseKey (s : Store) (handle : ℕ) (key : CString) : Store × Except Err Unit :=
  match s.writable handle with
  | .error err => (s, .error err)
  | .ok ns =>
    let (lines, removed) := removeEntries ns.bytes (some key.bytes) false s.lines
    ({ s with lines }, if removed = 0 then .error .notFound else .ok ())

def nvsEraseAll (s : Store) (handle : ℕ) : Store × Except Err Unit :=
  match s.writable handle with
  | .error err => (s, .error err)
  | .ok ns => ({ s with lines := (removeEntries ns.bytes none false s.lines).1 }, .ok ())

def nvsCommit (s : Store) (handle : ℕ) : Store × Except Err Unit :=
  match s.findHandle handle with
  | none => (s, .error .invalidHandle)
  | some _ => (s, .ok ())

end Store

inductive Call
  | open' (name : CString) (readonly : Bool)
  | close (handle : ℕ)
  | set (handle : ℕ) (key : CString) (setting : Setting)
  | eraseKey (handle : ℕ) (key : CString)
  | eraseAll (handle : ℕ)
  | commit (handle : ℕ)

def Store.call (s : Store) : Call → Store
  | .open' name readonly => (s.nvsOpen name readonly).1
  | .close handle => s.nvsClose handle
  | .set handle key setting => (s.setValue handle key setting).1
  | .eraseKey handle key => (s.nvsEraseKey handle key).1
  | .eraseAll handle => (s.nvsEraseAll handle).1
  | .commit handle => (s.nvsCommit handle).1

end EspDevkit.Nvs
