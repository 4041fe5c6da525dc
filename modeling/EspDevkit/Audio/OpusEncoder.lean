import EspDevkit.Audio.OpusCoder
import EspDevkit.Library.ByteOrder

/-!
# The range encoder of RFC 6716

`Ec` writes what the decoder reads.  A carry can still change the bytes that it holds back: the
last one, `rem`, and the `ext` bytes of `255` behind it.
-/

namespace EspDevkit.Audio.Opus

open RangeCode

/-- The encoder.  What it wrote from the end stands in `back`, the last byte of the packet
first. -/
structure Ec where
  storage : ℕ
  front : List UInt8
  back : List UInt8
  endWindow : ℕ
  nendBits : ℕ
  rng : ℕ
  val : ℕ
  rem : Option UInt8
  ext : ℕ

namespace Ec

variable (ec : Ec)

def init (storage : ℕ) : Ec where
  storage := storage
  front := []
  back := []
  endWindow := 0
  nendBits := 0
  rng := top
  val := 0
  rem := none
  ext := 0

def writeByte (b : UInt8) : Option Ec :=
  if ec.storage ≤ ec.front.length + ec.back.length then none
  else some { ec with front := ec.front ++ [b] }

def writeByteAtEnd (b : UInt8) : Option Ec :=
  if ec.storage ≤ ec.front.length + ec.back.length then none
  else some { ec with back := ec.back ++ [b] }

def writeBytes : List UInt8 → Ec → Option Ec
  | [], ec => some ec
  | b :: rest, ec => (ec.writeByte b).bind (writeBytes rest)

def heldBack (carry : ℕ) : List UInt8 :=
  ec.rem.toList.map (fun rem => UInt8.ofNat (rem.toNat + carry)) ++
    List.replicate ec.ext (UInt8.ofNat (255 + carry))

/-- `ec_enc_carry_out`. -/
def carryOut (c : ℕ) : Option Ec :=
  if c = 255 then some { ec with ext := ec.ext + 1 }
  else (writeBytes (ec.heldBack (c >>> 8)) ec).map fun next =>
    { next with rem := some (UInt8.ofNat c), ext := 0 }

/-- One round of `ec_enc_normalize`. -/
def shift : Option Ec :=
  (ec.carryOut (ec.val >>> 23)).map fun next =>
    { next with val := (ec.val <<< 8) % top, rng := ec.rng <<< 8 }

def normalizeLoop : ℕ → Ec → Option Ec
  | 0, ec => if ec.rng ≤ bot then none else some ec
  | fuel + 1, ec => if ec.rng ≤ bot then ec.shift.bind (normalizeLoop fuel) else some ec

/-- `ec_enc_normalize`. -/
def normalize : Option Ec := normalizeLoop 3 ec

/-- What `ec_encode` and `ec_encode_bin` do with the range divided. -/
def encodeWith (r fl fh ft : ℕ) : Option Ec :=
  normalize <|
    if 0 < fl then { ec with val := ec.val + (ec.rng - r * (ft - fl)), rng := r * (fh - fl) }
    else { ec with rng := ec.rng - r * (ft - fh) }

/-- `ec_encode`. -/
def encode (fl fh ft : ℕ) : Option Ec := ec.encodeWith (ec.rng / ft) fl fh ft

/-- `ec_encode_bin`. -/
def encodeBin (fl fh bits : ℕ) : Option Ec := ec.encodeWith (ec.rng >>> bits) fl fh (1 <<< bits)

/-- `ec_enc_bit_logp`. -/
def bitLogp (bit : Bool) (logp : ℕ) : Option Ec :=
  let s := ec.rng >>> logp
  let r := ec.rng - s
  normalize (if bit then { ec with val := ec.val + r, rng := s } else { ec with rng := r })

/-- `ec_enc_icdf`. -/
def icdf (k : ℕ) (table : List UInt8) (ftb : ℕ) : Option Ec :=
  let r := ec.rng >>> ftb
  normalize <|
    if 0 < k then
      { ec with
        val := ec.val + (ec.rng - r * Rc.entry table (k - 1))
        rng := r * (Rc.entry table (k - 1) - Rc.entry table k) }
    else { ec with rng := ec.rng - r * Rc.entry table k }

def flushWindow : ℕ → Ec → Option Ec
  | 0, ec => some ec
  | fuel + 1, ec =>
    if 8 ≤ ec.nendBits then
      (ec.writeByteAtEnd (UInt8.ofNat ec.endWindow)).bind fun next => flushWindow fuel
        { next with endWindow := ec.endWindow >>> 8, nendBits := ec.nendBits - 8 }
    else some ec

/-- The window of `ec_enc_bits`, with room for more. -/
def flushed (count : ℕ) : Option Ec :=
  if 32 < ec.nendBits + count then flushWindow 4 ec else some ec

/-- `ec_enc_bits`. -/
def bits (value count : ℕ) : Option Ec :=
  (ec.flushed count).map fun ec =>
    { ec with
      endWindow := ec.endWindow ||| value <<< ec.nendBits
      nendBits := ec.nendBits + count }

/-- `ec_enc_uint`. -/
def uint (value ft : ℕ) : Option Ec :=
  let last := ft - 1
  if 8 < ilog last then
    let raw := ilog last - 8
    let fl := value >>> raw
    (ec.encode fl (fl + 1) ((last >>> raw) + 1)).bind fun ec => ec.bits (value % 2 ^ raw) raw
  else ec.encode value (value + 1) (last + 1)

def lastCode (l : ℕ) : ℕ := (ec.val + (top - 1) >>> l) >>> (31 - l) <<< (31 - l)

def lastBits : ℕ × ℕ :=
  let l := 32 - ilog ec.rng
  if ec.val + ec.rng ≤ ec.lastCode l ||| (top - 1) >>> l then (l + 1, ec.lastCode (l + 1))
  else (l, ec.lastCode l)

def drain : ℕ → ℕ → Ec → Option Ec
  | 0, _, ec => some ec
  | rounds + 1, code, ec => (ec.carryOut (code >>> 23)).bind (drain rounds ((code <<< 8) % top))

def settle : Option Ec := if ec.rem.isSome ∨ 0 < ec.ext then ec.carryOut 0 else some ec

/-- The packet of what was written, with the raw bits that fill no byte, which `spare` unused bits
of the code may hold. -/
def packet (spare : ℕ) : Option (List UInt8) :=
  let room := ec.storage - ec.front.length - ec.back.length
  let bytes := ec.front ++ List.replicate room 0 ++ ec.back.reverse
  if ec.nendBits = 0 then some bytes
  else if ec.storage ≤ ec.back.length then none
  else if room = 0 ∧ spare < ec.nendBits then none
  else some (bytes.modify (ec.storage - ec.back.length - 1) (· ||| UInt8.ofNat ec.endWindow))

/-- `ec_enc_done`. -/
def done : Option (List UInt8) :=
  let rounds := (ec.lastBits.1 + 7) / 8
  (drain rounds ec.lastBits.2 ec).bind fun ec' => ec'.settle.bind fun ec' =>
    (flushWindow 4 ec').bind fun ec' => ec'.packet (8 * rounds - ec.lastBits.1)

open Rc in
/-- A symbol for a call of the decoder. -/
def write : Call → Symbol → Option Ec
  | .decode ft _, .part fl fh => ec.encode fl fh ft
  | .decodeBin count _, .part fl fh => ec.encodeBin fl fh count
  | .bitLogp logp, .bit bit => ec.bitLogp bit logp
  | .icdf table ftb, .index k => ec.icdf k table ftb
  | .bits count, .number value => ec.bits value count
  | .uint ft, .number value => ec.uint value ft
  | _, _ => none

def writeAll : List (Rc.Call × Rc.Symbol) → Ec → Option Ec
  | [], ec => some ec
  | (next, symbol) :: rest, ec => (ec.write next symbol).bind (writeAll rest)

end Ec

/-- The packet of a list of symbols; none when they do not fit. -/
def encodeAll (storage : ℕ) (list : List (Rc.Call × Rc.Symbol)) : Option (List UInt8) :=
  ((Ec.init storage).writeAll list).bind Ec.done

end EspDevkit.Audio.Opus
