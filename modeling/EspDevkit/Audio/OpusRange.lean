import Mathlib.Data.Nat.Bitwise
import Mathlib.Data.Nat.Size
import Mathlib.Data.Nat.Notation
import Mathlib.Tactic.Ring

/-!
# The range decoder of Opus

`Rc` reads symbols from the front of a packet and raw bits from its end.  A step that divides by
zero, goes below zero, shifts too far or reads outside of a buffer gives nothing.
-/

namespace EspDevkit.Audio.Opus

def top : ℕ := 1 <<< 31
def bot : ℕ := 1 <<< 23

/-- `ilog`: how many bits a number has. -/
def ilog (v : ℕ) : ℕ := v.size

/-- `Rc`. -/
structure Rc where
  buf : List UInt8
  storage : ℕ
  endOffs : ℕ
  endWindow : ℕ
  nendBits : ℕ
  nbitsTotal : ℕ
  offs : ℕ
  rng : ℕ
  val : ℕ
  ext : ℕ
  rem : ℕ
  error : Bool

namespace Rc

variable (rc : Rc)

def sub (a b : ℕ) : Option ℕ := if b ≤ a then some (a - b) else none

/-- `byte`. -/
def byte : Option (ℕ × Rc) :=
  if rc.offs < rc.storage then
    rc.buf[rc.offs]?.map fun b => (b.toNat, { rc with offs := rc.offs + 1 })
  else some (0, rc)

/-- `byte_from_end`. -/
def byteFromEnd : Option (ℕ × Rc) :=
  if rc.endOffs < rc.storage then
    rc.buf[rc.storage - (rc.endOffs + 1)]?.map fun b =>
      (b.toNat, { rc with endOffs := rc.endOffs + 1 })
  else some (0, rc)

/-- One round of `normalize`, with the byte that it took. -/
def shiftIn (b : ℕ) (next : Rc) : Rc :=
  let sym := (rc.rem <<< 8 ||| b) >>> 1
  { next with
    nbitsTotal := (rc.nbitsTotal + 8) % 2 ^ 32
    rng := (rc.rng <<< 8) % 2 ^ 32
    rem := b
    -- `255 & !sym`, of the low byte
    val := ((rc.val <<< 8) % 2 ^ 32 + (255 - sym % 256)) % 2 ^ 32 % top }

def shift : Option Rc := rc.byte.map fun (b, next) => rc.shiftIn b next

/-- The loop of `normalize`, which ends unless the range is zero. -/
def normalizeLoop : ℕ → Rc → Option Rc
  | 0, rc => if rc.rng ≤ bot then none else some rc
  | fuel + 1, rc => if rc.rng ≤ bot then rc.shift.bind (normalizeLoop fuel) else some rc

def normalize : Option Rc := normalizeLoop 3 rc

/-- What `Rc::new` starts with. -/
def blank (buf : List UInt8) : Rc where
  buf := buf
  storage := buf.length % 2 ^ 32
  endOffs := 0
  endWindow := 0
  nendBits := 0
  nbitsTotal := 9
  offs := 0
  rng := 128
  val := 0
  ext := 0
  rem := 0
  error := false

/-- `Rc::new`. -/
def new (buf : List UInt8) : Option Rc := do
  let (rem, rc) ← (blank buf).byte
  normalize { rc with rem, val := 127 - (rem >>> 1) }

/-- `decode`, once the range is divided. -/
def decodeWith (ext ft : ℕ) : Option (ℕ × Rc) :=
  if ext = 0 then none else some (ft - min (rc.val / ext + 1) ft, { rc with ext })

/-- `decode`. -/
def decode (ft : ℕ) : Option (ℕ × Rc) := if ft = 0 then none else rc.decodeWith (rc.rng / ft) ft

/-- `decode_bin`. -/
def decodeBin (bits : ℕ) : Option (ℕ × Rc) :=
  if 32 ≤ bits then none else rc.decodeWith (rc.rng >>> bits) (1 <<< bits)

/-- `update`. -/
def update (fl fh ft : ℕ) : Option Rc := do
  let above ← sub ft fh
  let width ← sub fh fl
  let s := rc.ext * above % 2 ^ 32
  normalize {
    rc with
    val := (rc.val + 2 ^ 32 - s) % 2 ^ 32
    rng := if 0 < fl then rc.ext * width % 2 ^ 32 else (rc.rng + 2 ^ 32 - s) % 2 ^ 32 }

/-- `bit_logp`. -/
def bitLogp (logp : ℕ) : Option (Bool × Rc) := do
  if 32 ≤ logp then none
  else
    let s := rc.rng >>> logp
    if rc.val < s then
      let rc ← normalize { rc with rng := s }
      return (true, rc)
    else
      let val ← sub rc.val s
      let rng ← sub rc.rng s
      let rc ← normalize { rc with val, rng }
      return (false, rc)

/-- The loop of `icdf`: the symbol, and where its part of the range begins and ends. -/
def icdfLoop (r val : ℕ) : List UInt8 → ℕ → ℕ → Option (ℕ × ℕ × ℕ)
  | [], _, _ => none
  | entry :: table, t, k =>
    let s := r * entry.toNat
    if 2 ^ 32 ≤ s then none
    else if s ≤ val then some (k, s, t)
    else icdfLoop r val table s (k + 1)

/-- `icdf`. -/
def icdf (table : List UInt8) (ftb : ℕ) : Option (ℕ × Rc) := do
  if 32 ≤ ftb then none
  else
    let (k, s, t) ← icdfLoop (rc.rng >>> ftb) rc.val table rc.rng 0
    let val ← sub rc.val s
    let rng ← sub t s
    let rc ← normalize { rc with val, rng }
    return (k, rc)

/-- The loop of `bits`. -/
def fill : ℕ → ℕ → ℕ → Rc → Option (ℕ × ℕ × Rc)
  | 0, _, _, _ => none
  | fuel + 1, window, available, rc => do
    if 32 ≤ available then none
    else
      let (b, rc) ← rc.byteFromEnd
      let window := window ||| (b <<< available) % 2 ^ 32
      if 24 < available + 8 then return (window, available + 8, rc)
      else fill fuel window (available + 8) rc

/-- The window of `bits`, filled when it has too few. -/
def filled (bits : ℕ) : Option (ℕ × ℕ × Rc) :=
  if rc.nendBits < bits then fill 4 rc.endWindow rc.nendBits rc
  else some (rc.endWindow, rc.nendBits, rc)

/-- `bits`. -/
def bits (bits : ℕ) : Option (ℕ × Rc) := do
  if 32 ≤ bits then none
  else
    let (window, available, rc) ← rc.filled bits
    let left ← sub available bits
    return (window % (1 <<< bits), {
      rc with
      endWindow := window >>> bits
      nendBits := left
      nbitsTotal := (rc.nbitsTotal + bits) % 2 ^ 32 })

/-- A `decode` and the `update` for the number that it gave. -/
def single (ft : ℕ) : Option (ℕ × Rc) := do
  let (s, rc) ← rc.decode ft
  let rc ← rc.update s (s + 1) ft
  return (s, rc)

/-- `uint`. -/
def uint (ft : ℕ) : Option (ℕ × Rc) := do
  let last ← sub ft 1
  let ftb := ilog last
  if 8 < ftb then
    let raw := ftb - 8
    let (s, rc) ← rc.single ((last >>> raw) + 1)
    let (low, rc) ← rc.bits raw
    let t := s <<< raw ||| low
    if t ≤ last then return (t, rc) else return (last, { rc with error := true })
  else rc.single ft

/-- A call, and for a `decode` the part of the range that its `update` takes for what it gave. -/
inductive Call
  | decode (ft : ℕ) (choose : ℕ → ℕ × ℕ)
  | decodeBin (count : ℕ) (choose : ℕ → ℕ × ℕ)
  | bitLogp (logp : ℕ)
  | icdf (table : List UInt8) (ftb : ℕ)
  | bits (count : ℕ)
  | uint (ft : ℕ)

inductive Symbol
  | part (fl fh : ℕ)
  | bit (bit : Bool)
  | index (k : ℕ)
  | number (value : ℕ)
  deriving DecidableEq

/-- A `decode` gave a number, for which an `update` takes its part. -/
def updated (choose : ℕ → ℕ × ℕ) (ft : ℕ) (given : ℕ × Rc) : Option (Symbol × Rc) := do
  let (fl, fh) := choose given.1
  let rc ← given.2.update fl fh ft
  return (.part fl fh, rc)

def call : Call → Option (Symbol × Rc)
  | .decode ft choose => (rc.decode ft).bind (updated choose ft)
  | .decodeBin count choose => (rc.decodeBin count).bind (updated choose (1 <<< count))
  | .bitLogp logp => (rc.bitLogp logp).map fun (bit, rc) => (.bit bit, rc)
  | .icdf table ftb => (rc.icdf table ftb).map fun (k, rc) => (.index k, rc)
  | .bits count => (rc.bits count).map fun (value, rc) => (.number value, rc)
  | .uint ft => (rc.uint ft).map fun (value, rc) => (.number value, rc)

def calls : List Call → Rc → Option (List Symbol × Rc)
  | [], rc => some ([], rc)
  | next :: rest, rc => do
    let (symbol, rc) ← rc.call next
    let (symbols, rc) ← calls rest rc
    return (symbol :: symbols, rc)

/-- A `decode` may give each number below `ft`, and its part lies around it. -/
def Chooses (ft : ℕ) (choose : ℕ → ℕ × ℕ) : Prop :=
  ∀ fs < ft, (choose fs).1 ≤ fs ∧ fs < (choose fs).2 ∧ (choose fs).2 ≤ ft

/-- Arguments that a caller may give. -/
def Call.Legal : Call → Prop
  | .decode ft choose => 0 < ft ∧ ft ≤ bot ∧ Chooses ft choose
  | .decodeBin count choose => count ≤ 23 ∧ Chooses (1 <<< count) choose
  | .bitLogp logp => logp < 32
  | .icdf table ftb => ftb < 32 ∧ 0 ∈ table ∧ ∀ entry ∈ table, entry.toNat ≤ 2 ^ ftb
  | .bits count => count ≤ 25
  | .uint ft => 0 < ft ∧ ft < 2 ^ 32

end Rc

end EspDevkit.Audio.Opus
