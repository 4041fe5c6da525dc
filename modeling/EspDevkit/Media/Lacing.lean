import EspDevkit.Library.ByteOrder
import Mathlib.Data.Nat.Size

/-!
# Laced blocks of Matroska

A block with lacing starts with the sizes of its frames.  `read_lacing` reads them and checks
them against the end of the block.  It gives `none` or a count of zero for what it refuses.
-/

namespace EspDevkit.Media.Mkv

open BigEndian

def u32Max : ℕ := 2 ^ 32 - 1

/-- `UNKNOWN_SIZE`. -/
def unknownSize : ℕ := 2 ^ 64 - 1

def readByte : List UInt8 → Option (UInt8 × List UInt8)
  | [] => none
  | byte :: rest => some (byte, rest)

def vintLength (first : UInt8) : ℕ := 9 - first.toNat.size

/-- The bytes of a number after the first, and whether all of them are ones. -/
def readRest : ℕ → ℕ → Bool → List UInt8 → Option (ℕ × Bool × List UInt8)
  | 0, value, allOnes, bytes => some (value, allOnes, bytes)
  | count + 1, value, allOnes, bytes =>
    (readByte bytes).bind fun (byte, bytes) =>
      readRest count (value <<< 8 ||| byte.toNat) (allOnes && byte == 0xFF) bytes

/-- What `read_vint` and `read_lace_delta` read: the length, the number, and whether all of its
bits are ones. -/
def readNumber (bytes : List UInt8) : Option (ℕ × ℕ × Bool × List UInt8) :=
  (readByte bytes).bind fun (byte, bytes) =>
    let length := vintLength byte
    if 8 < length then none
    else
      let mask := 0xFF >>> length
      let value := byte.toNat &&& mask
      (readRest (length - 1) value (value == mask) bytes).map fun read => (length, read)

def readVint (bytes : List UInt8) : Option (ℕ × List UInt8) :=
  (readNumber bytes).map fun (_, value, allOnes, bytes) =>
    (if allOnes then unknownSize else value, bytes)

def readLaceDelta (bytes : List UInt8) : Option (ℤ × List UInt8) :=
  (readNumber bytes).map fun (length, value, _, bytes) =>
    (value - (2 ^ (7 * length - 1) - 1), bytes)

inductive Lacing
  | xiph
  | ebml
  | fixed

structure Slots where
  sizes : List ℕ
  known : ℕ
  valid : Bool
  rest : List UInt8

def xiphSize (size : ℕ) : List UInt8 → Option (ℕ × List UInt8)
  | [] => none
  | byte :: bytes =>
    if byte ≠ 0xFF then some (size + byte.toNat, bytes) else xiphSize (size + byte.toNat) bytes

def xiphSlots : ℕ → List UInt8 → Option Slots
  | 0, bytes => some ⟨[], 0, true, bytes⟩
  | count + 1, bytes => do
    let (size, bytes) ← xiphSize 0 bytes
    let slots ← xiphSlots count bytes
    some { slots with sizes := size % 2 ^ 32 :: slots.sizes, known := size + slots.known }

def Slots.record (size : ℕ) (slots : Slots) : Slots :=
  { slots with
    sizes := size % 2 ^ 32 :: slots.sizes
    valid := decide (size ≤ u32Max) && slots.valid
    known := (size + slots.known) % 2 ^ 64 }

def ebmlSlots : ℕ → ℕ → List UInt8 → Option Slots
  | 0, _, bytes => some ⟨[], 0, true, bytes⟩
  | count + 1, size, bytes => do
    let (delta, bytes) ← readLaceDelta bytes
    let next := Int.bmod (Int.bmod size (2 ^ 64) + delta) (2 ^ 64)
    let size := (max next 0).toNat
    let slots ← ebmlSlots count size bytes
    let slots := slots.record size
    some { slots with valid := decide (0 ≤ next) && slots.valid }

def readSlots (lacing : Lacing) (last : ℕ) (bytes : List UInt8) : Option Slots :=
  match lacing with
  | .xiph => xiphSlots last bytes
  | .ebml =>
    match last with
    | 0 => some ⟨[], 0, true, bytes⟩
    | more + 1 => do
      let (size, bytes) ← readVint bytes
      let slots ← ebmlSlots more size bytes
      some (slots.record size)
  | .fixed => some ⟨[], 0, true, bytes⟩

/-- `read_lacing` at `position` of the file, in a block that ends at `finish`: how many frames
there are, their sizes, and the bytes that follow. -/
def readLacing (lacing : Lacing) (bytes : List UInt8) (position finish : ℤ) :
    Option (ℕ × List ℕ × List UInt8) := do
  let (last, after) ← readByte bytes
  let count := last.toNat + 1
  let slots ← readSlots lacing last.toNat after
  let payload := position + (bytes.length - slots.rest.length : ℕ)
  if finish < payload then none
  else
    let total := (finish - payload).toNat
    match lacing with
    | .fixed =>
      let sizes := List.replicate count (total / count % 2 ^ 32)
      some (if total % count ≠ 0 then 0 else count, sizes, slots.rest)
    | .xiph | .ebml =>
      if total < slots.known then some (0, slots.sizes, slots.rest)
      else
        some (if slots.valid then count else 0, slots.sizes ++ [(total - slots.known) % 2 ^ 32],
          slots.rest)

/-- A number of seven bits for each byte, behind as many zeros as there are bytes after the
first, and a one. -/
structure IsNumber (code : List UInt8) (length value : ℕ) : Prop where
  length_eq : code.length = length
  pos : 0 < length
  le : length ≤ 8
  lt : value < 2 ^ (7 * length)
  eq : extend 0 code = 2 ^ (7 * length) + value

/-- Sizes as sums of bytes that end with one that is not 0xFF. -/
inductive XiphCode : List ℕ → List UInt8 → Prop
  | nil : XiphCode [] []
  | cons {sizes : List ℕ} {code : List UInt8} (runs : ℕ) (byte : UInt8) :
      byte ≠ 0xFF → XiphCode sizes code →
        XiphCode ((runs * 255 + byte.toNat) :: sizes)
          (List.replicate runs 0xFF ++ byte :: code)

inductive DeltaCode : ℕ → List ℕ → List UInt8 → Prop
  | nil (before : ℕ) : DeltaCode before [] []
  | cons {before size length value : ℕ} {sizes : List ℕ} {first code : List UInt8} :
      IsNumber first length value → (size : ℤ) = before + (value - (2 ^ (7 * length - 1) - 1)) →
        DeltaCode size sizes code → DeltaCode before (size :: sizes) (first ++ code)

/-- The sizes that a header gives, but for the last one, which the end of the block does. -/
inductive SizeCode : Lacing → List ℕ → List UInt8 → Prop
  | xiph {sizes : List ℕ} {code : List UInt8} (last : ℕ) :
      XiphCode sizes code → SizeCode .xiph (sizes ++ [last]) code
  | ebmlOne (last : ℕ) : SizeCode .ebml [last] []
  | ebml {size length : ℕ} {sizes : List ℕ} {first code : List UInt8} (last : ℕ) :
      IsNumber first length size → size ≠ 2 ^ (7 * length) - 1 → DeltaCode size sizes code →
        SizeCode .ebml (size :: sizes ++ [last]) (first ++ code)
  | fixed (count size : ℕ) : SizeCode .fixed (List.replicate (count + 1) size) []

/-- The block from `position` to `finish` has frames of these sizes, after its lacing header
and before the rest of the bytes. -/
structure Laced (lacing : Lacing) (bytes : List UInt8) (position finish : ℤ) (sizes : List ℕ)
    (rest : List UInt8) : Prop where
  count : sizes.length ≤ 256
  header : ∃ code, SizeCode lacing sizes code ∧
    bytes = UInt8.ofNat (sizes.length - 1) :: code ++ rest
  payload : position + (bytes.length - rest.length : ℕ) + sizes.sum = finish

end EspDevkit.Media.Mkv
