import EspDevkit.Library.LinearProbing
import Mathlib.Algebra.GroupWithZero.Nat
import Mathlib.Data.Nat.Log
import Mathlib.Data.List.Dedup

/-!
# The glyph cache

Decoded masks in a ring of `bytes`, found through an index of open addressing.  The device's
`usize` has 32 bits, so a pointer and an offset fit the `u32` they are cast to.  A loop without an
end and an index past its array give `none`.
-/

namespace EspDevkit.Gfx.Glyph

open Library.LinearProbing

/-- `font` is the font's address. -/
structure Slot where
  font : UInt32
  glyph : UInt32
  offset : ℕ
  frame : UInt32
  deriving DecidableEq

abbrev Key := UInt32 × UInt32

def Slot.key (slot : Slot) : Key := (slot.font, slot.glyph)

def hash (key : Key) : UInt32 :=
  let mixed := key.1 * 0x9E3779B1 ^^^ key.2 * 0x85EBCA77
  mixed ^^^ (mixed >>> 15)

/-- A cache of `m` slots and `2 ^ k` places in its index; `none` in the index is `EMPTY`. -/
structure GlyphCache (bytes m k : ℕ) where
  data : ℕ → UInt8
  slots : Fin m → Slot
  index : Fin (2 ^ k) → Option (Fin m)
  head : Fin m
  count : ℕ
  write : ℕ
  frame : UInt32
  decoded : UInt32

def empty : ℕ := 65535

def bytesPerSlot : ℕ := 128

def slotCount (bytes : ℕ) : ℕ := min (max (bytes / bytesPerSlot) 16) (empty / 2)

/-- `(slot_count * 2).next_power_of_two()` is 2 to this. -/
def indexBits (bytes : ℕ) : ℕ := (slotCount bytes * 2 - 1).log2 + 1

theorem slotCount_pos (bytes : ℕ) : 0 < slotCount bytes := by
  unfold slotCount empty
  omega

def new (bytes : ℕ) : GlyphCache bytes (slotCount bytes) (indexBits bytes) where
  data _ := 0
  slots _ := { font := 0, glyph := 0, offset := 0, frame := 0 }
  index _ := none
  head := ⟨0, slotCount_pos bytes⟩
  count := 0
  write := 0
  frame := 0
  decoded := 0

/-- `i & mask`. -/
def masked {k : ℕ} (i : ℕ) : Fin (2 ^ k) :=
  ⟨i &&& (2 ^ k - 1), lt_of_le_of_lt Nat.and_le_right (Nat.sub_one_lt (Nat.two_pow_pos k).ne')⟩

/-- `while !stop(i) { i = (i + 1) & mask }`. -/
def walk {k : ℕ} (stop : Fin (2 ^ k) → Bool) : ℕ → Fin (2 ^ k) → Option (Fin (2 ^ k))
  | 0, _ => none
  | fuel + 1, i => if stop i then some i else walk stop fuel (masked (i + 1))

/-- `next.wrapping_sub(i) & mask`. -/
def behind {k : ℕ} (i next : Fin (2 ^ k)) : Fin (2 ^ k) :=
  masked ((next + 2 ^ 32 - i) % 2 ^ 32)

namespace GlyphCache

variable {bytes m k : ℕ}

def beginFrame (s : GlyphCache bytes m k) : GlyphCache bytes m k :=
  { s with frame := s.frame + 1 }

def home (s : GlyphCache bytes m k) (slot : Fin m) : Fin (2 ^ k) :=
  masked (hash (s.slots slot).key).toNat

/-- The outer `none` is a loop without an end. -/
def lookup (s : GlyphCache bytes m k) (key : Key) : Option (Option (Fin m)) :=
  let stop := fun i =>
    match s.index i with
    | none => true
    | some slot => (s.slots slot).key == key
  (walk stop (2 ^ k) (masked (hash key).toNat)).map s.index

/-- The backward shift of `unindex`, with the gap at `i`. -/
def shiftBack (s : GlyphCache bytes m k) :
    ℕ → (Fin (2 ^ k) → Option (Fin m)) → Fin (2 ^ k) → Fin (2 ^ k) →
      Option (Fin (2 ^ k) → Option (Fin m))
  | 0, _, _, _ => none
  | fuel + 1, index, i, next =>
    match index next with
    | none => some (Function.update index i none)
    | some other =>
      if behind (s.home other) next ≥ behind i next then
        s.shiftBack fuel (Function.update index i (some other)) next (masked (next + 1))
      else s.shiftBack fuel index i (masked (next + 1))

def unindex (s : GlyphCache bytes m k) (slot : Fin m) : Option (GlyphCache bytes m k) :=
  (walk (fun i => s.index i == some slot) (2 ^ k) (s.home slot)).bind fun i =>
    (s.shiftBack (2 ^ k) s.index i (masked (i + 1))).map fun index => { s with index := index }

/-- `(head + i) % slots.len()`. -/
def turn (s : GlyphCache bytes m k) (i : ℕ) : Fin m :=
  ⟨(s.head + i) % m, Nat.mod_lt _ s.head.pos⟩

def evictOldest (s : GlyphCache bytes m k) : Option (GlyphCache bytes m k × Bool) :=
  if (s.slots s.head).frame = s.frame then some (s, false)
  else (s.unindex s.head).map fun s =>
    ({ s with head := s.turn 1, count := s.count - 1 }, true)

/-- `while self.count > 0 && more(offset) { if !self.evict_oldest() { return None; } }`; the result
is false at that return. -/
def evictWhile (more : ℕ → Bool) :
    ℕ → GlyphCache bytes m k → Option (GlyphCache bytes m k × Bool)
  | 0, _ => none
  | fuel + 1, s =>
    if 0 < s.count ∧ more (s.slots s.head).offset = true then
      s.evictOldest.bind fun r => if r.2 then evictWhile more fuel r.1 else some r
    else some (s, true)

/-- The first half of `reserve`: back to the beginning of the ring when `len` does not fit. -/
def wrap (s : GlyphCache bytes m k) (len : ℕ) : Option (GlyphCache bytes m k × Bool) :=
  if bytes < s.write + len then
    (evictWhile (fun offset => s.write ≤ offset) (s.count + 1) s).map fun r =>
      (if r.2 then { r.1 with write := 0 } else r.1, r.2)
  else some (s, true)

/-- The second half: the slots whose masks begin where `len` bytes are to go. -/
def clear (s : GlyphCache bytes m k) (len : ℕ) : Option (GlyphCache bytes m k × Bool) :=
  evictWhile (fun offset => s.write ≤ offset && offset < s.write + len) (s.count + 1) s

def reserve (s : GlyphCache bytes m k) (len : ℕ) : Option (GlyphCache bytes m k × Option ℕ) :=
  if bytes < len then some (s, none)
  else (s.wrap len).bind fun r =>
    if r.2 then (r.1.clear len).map fun r =>
      if r.2 then ({ r.1 with write := r.1.write + len }, some r.1.write) else (r.1, none)
    else some (r.1, none)

/-- `font.decode` into `data[offset..offset + len]`. -/
def decode (s : GlyphCache bytes m k) (offset : ℕ) (mask : List UInt8) :
    Option (GlyphCache bytes m k) :=
  if offset + mask.length ≤ bytes then
    some { s with
      data := fun i => if offset ≤ i then mask.getD (i - offset) (s.data i) else s.data i
      decoded := s.decoded + 1 }
  else none

def place (s : GlyphCache bytes m k) (key : Key) (offset : ℕ) : Option (GlyphCache bytes m k) :=
  let slot := s.turn s.count
  (walk (fun i => s.index i == none) (2 ^ k) (masked (hash key).toNat)).map fun i =>
    { s with
      slots := Function.update s.slots slot
        { font := key.1, glyph := key.2, offset := offset, frame := s.frame }
      count := s.count + 1
      index := Function.update s.index i (some slot) }

def hit (s : GlyphCache bytes m k) (slot : Fin m) : GlyphCache bytes m k × Option ℕ :=
  ({ s with slots := Function.update s.slots slot { s.slots slot with frame := s.frame } },
    some (s.slots slot).offset)

def fill (s : GlyphCache bytes m k) (key : Key) (mask : List UInt8) :
    Option (GlyphCache bytes m k × Option ℕ) :=
  (s.reserve mask.length).bind fun r =>
    match r.2 with
    | none => some (r.1, none)
    | some offset =>
      (r.1.decode offset mask).bind fun s => (s.place key offset).map fun s => (s, some offset)

/-- `raster` is the decoder of the fonts; the mask's place in `data` stands for the pointer. -/
def get (raster : Key → List UInt8) (s : GlyphCache bytes m k) (key : Key) :
    Option (GlyphCache bytes m k × Option ℕ) :=
  (s.lookup key).bind fun found =>
    match found with
    | some slot => some (s.hit slot)
    | none =>
      if s.count = m then
        s.evictOldest.bind fun r => if r.2 then r.1.fill key (raster key) else some (r.1, none)
      else s.fill key (raster key)

end GlyphCache

inductive Call where
  | beginFrame
  | get (key : Key)

structure Served where
  key : Key
  at_ : ℕ

/-- A cache with the masks it has returned since `begin_frame`. -/
structure Run (bytes m k : ℕ) where
  cache : GlyphCache bytes m k
  served : List Served

namespace Run

variable {bytes m k : ℕ}

def step (raster : Key → List UInt8) (r : Run bytes m k) : Call → Option (Run bytes m k)
  | .beginFrame => some ⟨r.cache.beginFrame, []⟩
  | .get key => (r.cache.get raster key).map fun result =>
    ⟨result.1, (result.2.map fun at_ => ⟨key, at_⟩).toList ++ r.served⟩

def calls (raster : Key → List UInt8) (bytes : ℕ) (calls : List Call) :
    Option (Run bytes (slotCount bytes) (indexBits bytes)) :=
  calls.foldlM (step raster) ⟨new bytes, []⟩

/-- The bytes of the masks used in this frame, each glyph counted once. -/
def used (raster : Key → List UInt8) (r : Run bytes m k) : ℕ :=
  ((r.served.map Served.key).dedup.map fun key => (raster key).length).sum

end Run

end EspDevkit.Gfx.Glyph
