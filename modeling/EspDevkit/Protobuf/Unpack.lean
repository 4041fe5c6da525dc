import EspDevkit.Library.Fallible
import Mathlib.Algebra.Group.Nat.Defs
import Mathlib.Data.List.Basic

/-!
# Unpacking messages

The decoder of generated messages walks the bytes twice: once to measure the block that it takes,
and once to fill it.  Places in the bytes are numbers; a read outside of them and a store behind an
array's elements are faults.  A place in the block counts from its first byte.
-/

namespace EspDevkit.Protobuf

open Fallible

inductive FieldType
  | int32
  | int64
  | uint32
  | uint64
  | bool
  | bytes
  | message
  deriving DecidableEq, Repr

/-- `pb_field_t`.  Each field of a message has a place of its own, so the two offsets are left
out. -/
structure Field (Id : Type) where
  number : ℕ
  type : FieldType
  repeated : Bool
  oneof : Bool
  msg : Id

/-- `pb_msgdesc_t`; the fields are in the order of their numbers. -/
structure MsgDesc (Id : Type) where
  size : UInt16
  fields : List (Field Id)
  sorted : fields.Pairwise fun f g => f.number < g.number

/-- The machine: how many bytes a pointer and a `size_t` have. -/
structure Target where
  pointer : ℕ

def Target.modulus (t : Target) : ℕ := 256 ^ t.pointer

/-- A `size_t`. -/
def Target.wrap (t : Target) (value : ℕ) : ℕ := value % t.modulus

def align (size : ℕ) : ℕ := (size + 7) / 8 * 8

def maxDepth : ℕ := 16

namespace FieldType

def elemSize (t : Target) : FieldType → ℕ
  | int32 | uint32 => 4
  | int64 | uint64 => 8
  | bool => 1
  | bytes => 2 * t.pointer
  | message => t.pointer

def isScalar (type : FieldType) : Bool := type ≠ bytes ∧ type ≠ message

/-- `set_scalar`: what is stored of a value. -/
def setScalar (type : FieldType) (value : UInt64) : UInt64 :=
  match type with
  | int32 | uint32 => value &&& 0xffffffff
  | bool => if value = 0 then 0 else 1
  | _ => value

end FieldType

abbrev Reading (α : Type) : Type := Except (Stop Unit) α

def malformed {α : Type} : Reading α := .error (.error ())

section Wire

variable (data : List UInt8)

def byteAt (p : ℕ) : Reading UInt8 :=
  match data[p]? with
  | some byte => .ok byte
  | none => .error .fault

/-- The loop of `get_varint`, with as many rounds left. -/
def varintLoop (stop : ℕ) : ℕ → ℕ → UInt64 → Reading (UInt64 × ℕ)
  | 0, _, _ => malformed
  | rounds + 1, p, r =>
    if p < stop then do
      let b ← byteAt data p
      let r := r ||| (b &&& 0x7f).toUInt64 <<< UInt64.ofNat (7 * (9 - rounds))
      if b &&& 0x80 = 0 then .ok (r, p + 1) else varintLoop stop rounds (p + 1) r
    else malformed

def getVarint (p stop : ℕ) : Reading (UInt64 × ℕ) := varintLoop data stop 10 p 0

/-- `wire_field_t`. -/
structure WireField where
  number : ℕ
  wt : ℕ
  val : ℕ
  len : ℕ

/-- The end of `next_field`. -/
def WireField.advance (w : WireField) (stop : ℕ) : Reading (WireField × ℕ) :=
  if stop - w.val < w.len then malformed else .ok (w, w.val + w.len)

def nextField (p stop : ℕ) : Reading (WireField × ℕ) := do
  let (tag, p) ← getVarint data p stop
  let number := (tag >>> 3).toNat
  let wt := (tag &&& 7).toNat
  if number = 0 ∨ 2 ^ 32 - 1 < number then malformed
  else if wt = 0 then do
    let (_, past) ← getVarint data p stop
    return ({ number, wt, val := p, len := past - p }, past)
  else if wt = 1 then WireField.advance { number, wt, val := p, len := 8 } stop
  else if wt = 5 then WireField.advance { number, wt, val := p, len := 4 } stop
  else if wt = 2 then do
    let (v, p) ← getVarint data p stop
    if stop - p < v.toNat then malformed
    else WireField.advance { number, wt, val := p, len := v.toNat } stop
  else malformed

/-- `count_varints`. -/
def countVarints : ℕ → ℕ → Reading ℕ
  | _, 0 => .ok 0
  | p, len + 1 => do
    let b ← byteAt data p
    let rest ← countVarints (p + 1) len
    return (if b &&& 0x80 = 0 then 1 else 0) + rest

end Wire

variable {Id : Type}

/-- The loop of `find_field`. -/
def findIn (fields : List (Field Id)) (number lo hi : ℕ) : Option (Field Id) :=
  if lo < hi then
    match fields[(lo + hi) / 2]? with
    | none => none
    | some f =>
      if f.number = number then some f
      else if f.number < number then findIn fields number ((lo + hi) / 2 + 1) hi
      else findIn fields number lo ((lo + hi) / 2)
  else none
termination_by hi - lo

def MsgDesc.find (desc : MsgDesc Id) (number : ℕ) : Option (Field Id) :=
  findIn desc.fields number 0 desc.fields.length

/-- `is_packed`. -/
def Field.isPacked (f : Field Id) (w : WireField) : Bool := f.type.isScalar ∧ w.wt = 2

def Field.elements (data : List UInt8) (f : Field Id) (w : WireField) : Reading ℕ :=
  if f.isPacked w then countVarints data w.val w.len else .ok 1

section Passes

variable (t : Target) (descs : Id → MsgDesc Id) (data : List UInt8)

/-- The loop of `measure`, in the numbers of `wrap`. -/
def measureLoop (wrap : ℕ → ℕ) (nested : Id → ℕ → ℕ → ℕ → Reading ℕ) (desc : MsgDesc Id)
    (stop : ℕ) : ℕ → ℕ → ℕ → Reading ℕ
  | 0, _, _ => .error .fault
  | fuel + 1, p, need =>
    if p < stop then do
      let (w, p) ← nextField data p stop
      match desc.find w.number with
      | none => measureLoop wrap nested desc stop fuel p need
      | some f => do
        let need ←
          (if f.repeated then do
            let count ← f.elements data w
            return wrap (need + count * f.type.elemSize t + 7)
          else .ok need)
        let need ←
          (if f.type = .message ∧ w.wt = 2 then
            nested f.msg w.val (w.val + w.len) (wrap (need + align (descs f.msg).size.toNat))
          else .ok need)
        measureLoop wrap nested desc stop fuel p need
    else .ok need

/-- `measure`, with as many levels left. -/
def measure (wrap : ℕ → ℕ) : ℕ → Id → ℕ → ℕ → ℕ → Reading ℕ
  | 0, _, _, _, _ => malformed
  | levels + 1, id, p, stop, need =>
    measureLoop t descs data wrap (measure wrap levels) (descs id) stop (stop - p + 1) p need

structure Arena where
  cur : ℕ
  stop : ℕ

/-- What takes from the arena: it may fail on malformed bytes or where the arena is used up. -/
abbrev Decoding (α : Type) : Type := Fallible Arena Unit α

/-- `end - cur` as a `size_t`. -/
def Arena.left (a : Arena) : ℕ := t.wrap (a.stop + (t.modulus - a.cur % t.modulus))

def arenaAlloc (size : ℕ) : Decoding ℕ := do
  let a ← get
  let size := t.wrap (t.wrap size + 7) / 8 * 8
  require (size ≤ a.left t) ()
  modify fun a => { a with cur := a.cur + size }
  return a.cur

/-- What is stored in a field; a message with its place and all that is stored in it, in order.
The last store in a field that is not repeated stands, and the last in a oneof is its case. -/
inductive Value
  | scalar (value : UInt64)
  | bytes (start len : ℕ)
  | message (place : ℕ) (stores : List (ℕ × Value))

structure Level where
  counts : ℕ → ℕ
  room : ℕ → ℕ
  stores : List (ℕ × Value)

def reads {α : Type} (x : Reading α) : Decoding α := fun a => (x, a)

def unchecked {α : Type} (x : Reading α) : Decoding α :=
  match x with
  | .ok value => pure value
  | .error _ => fault

/-- The first loop of `decode`. -/
def countLoop (desc : MsgDesc Id) (stop : ℕ) : ℕ → ℕ → (ℕ → ℕ) → Decoding (ℕ → ℕ)
  | 0, _, _ => fault
  | fuel + 1, p, counts =>
    if p < stop then do
      let (w, p) ← reads (nextField data p stop)
      match desc.find w.number with
      | none => countLoop desc stop fuel p counts
      | some f =>
        if f.repeated then do
          let count ← reads (f.elements data w)
          countLoop desc stop fuel p
            (Function.update counts f.number (counts f.number + count))
        else countLoop desc stop fuel p counts
    else pure counts

def Level.reserve (level : Level) (number : ℕ) : Level :=
  { level with
    counts := Function.update level.counts number 0
    room := Function.update level.room number (level.counts number) }

/-- The loop of `decode` that takes the arrays. -/
def takeArrays : List (Field Id) → Level → Decoding Level
  | [], level => pure level
  | f :: fields, level =>
    if f.repeated ∧ level.counts f.number ≠ 0 then do
      let _ ← arenaAlloc t (t.wrap (level.counts f.number * f.type.elemSize t))
      takeArrays fields (level.reserve f.number)
    else takeArrays fields level

def Level.another (level : Level) (number : ℕ) : Level :=
  { level with counts := Function.update level.counts number (level.counts number + 1) }

def Level.element (level : Level) (number : ℕ) : Decoding Level :=
  if level.counts number < level.room number then pure (level.another number) else fault

def Level.store (level : Level) (number : ℕ) (value : Value) : Level :=
  { level with stores := level.stores ++ [(number, value)] }

/-- `decode_value`. -/
def decodeValue (nested : Id → ℕ → ℕ → Decoding (List (ℕ × Value))) (f : Field Id)
    (w : WireField) : Decoding Value :=
  match f.type with
  | .bytes => do
    require (w.wt = 2) ()
    return .bytes (if w.len = 0 then 0 else w.val) w.len
  | .message => do
    require (w.wt = 2) ()
    let place ← arenaAlloc t (descs f.msg).size.toNat
    let stores ← nested f.msg w.val (w.val + w.len)
    return .message place stores
  | type => do
    require (w.wt = 0) ()
    let (v, _) ← reads (getVarint data w.val (w.val + w.len))
    return .scalar (type.setScalar v)

/-- The loop of `decode` over a packed field. -/
def packedLoop (f : Field Id) (stop : ℕ) : ℕ → ℕ → Level → Decoding Level
  | 0, _, _ => fault
  | fuel + 1, q, level =>
    if q < stop then do
      let (v, q) ← reads (getVarint data q stop)
      let level ← level.element f.number
      packedLoop f stop fuel q (level.store f.number (.scalar (f.type.setScalar v)))
    else pure level

/-- The last loop of `decode`. -/
def storeLoop (nested : Id → ℕ → ℕ → Decoding (List (ℕ × Value))) (desc : MsgDesc Id)
    (stop : ℕ) : ℕ → ℕ → Level → Decoding Level
  | 0, _, _ => fault
  | fuel + 1, p, level =>
    if p < stop then do
      let (w, p) ← unchecked (nextField data p stop)
      match desc.find w.number with
      | none => storeLoop nested desc stop fuel p level
      | some f =>
        if f.repeated = false then do
          let value ← decodeValue t descs data nested f w
          storeLoop nested desc stop fuel p (level.store f.number value)
        else if f.isPacked w = false then do
          let level ← level.element f.number
          let value ← decodeValue t descs data nested f w
          storeLoop nested desc stop fuel p (level.store f.number value)
        else do
          let level ← packedLoop data f (w.val + w.len) (w.len + 1) w.val level
          storeLoop nested desc stop fuel p level
    else pure level

/-- `decode`.  It has no limit of its own to how deep messages are nested; the levels are those that
`measure` let through. -/
def decode : ℕ → Id → ℕ → ℕ → Decoding (List (ℕ × Value))
  | 0, _, _, _ => fault
  | levels + 1, id, p, stop => do
    let counts ← countLoop data (descs id) stop (stop - p + 1) p fun _ => 0
    let level ← takeArrays t (descs id).fields { counts, room := fun _ => 0, stores := [] }
    let level ← storeLoop t descs data (decode levels) (descs id) stop (stop - p + 1) p level
    return level.stores

def headSize (id : Id) : ℕ := align t.pointer + align (descs id).size.toNat

/-- What `pb_unpack` asks `calloc` for, in the numbers of `wrap`. -/
def needed (wrap : ℕ → ℕ) (id : Id) : Reading ℕ :=
  measure t descs data wrap (maxDepth + 1) id 0 data.length (wrap (headSize t descs id))

/-- The last pass of `pb_unpack`, over a block of so many bytes. -/
def fill (id : Id) : Decoding (List (ℕ × Value)) :=
  decode t descs data (maxDepth + 1) id 0 data.length

/-- `pb_unpack`; `calloc` has the sizes that it grants. -/
def pbUnpack (calloc : ℕ → Bool) (id : Id) : Option (List (ℕ × Value)) :=
  match needed t descs data t.wrap id with
  | .error _ => none
  | .ok need =>
    if calloc need then
      (fill t descs data id { cur := headSize t descs id, stop := need }).1.toOption
    else none

end Passes

end EspDevkit.Protobuf
