import EspDevkit.Library.ByteOrder

/-!
# ChaCha20 and SipHash

The stream cipher and the keyed hash that seal what is kept in flash.  The
cipher works on bytes one at a time, each against a byte of the key stream that
depends on its place only, so that it is its own inverse.
-/

namespace EspDevkit.Crypto

open LittleEndian

abbrev Word := BitVec 32

def quarter (s : Vector Word 16) (a b c d : Fin 16) : Vector Word 16 :=
  let s := s.set a (s[a] + s[b])
  let s := s.set d ((s[d] ^^^ s[a]).rotateLeft 16)
  let s := s.set c (s[c] + s[d])
  let s := s.set b ((s[b] ^^^ s[c]).rotateLeft 12)
  let s := s.set a (s[a] + s[b])
  let s := s.set d ((s[d] ^^^ s[a]).rotateLeft 8)
  let s := s.set c (s[c] + s[d])
  s.set b ((s[b] ^^^ s[c]).rotateLeft 7)

def doubleRound (s : Vector Word 16) : Vector Word 16 :=
  let s := quarter s 0 4 8 12
  let s := quarter s 1 5 9 13
  let s := quarter s 2 6 10 14
  let s := quarter s 3 7 11 15
  let s := quarter s 0 5 10 15
  let s := quarter s 1 6 11 12
  let s := quarter s 2 7 8 13
  quarter s 3 4 9 14

def wordAt (bytes : List UInt8) (i : ℕ) : Word :=
  BitVec.ofNat 32 (ofBytes ((bytes.drop (4 * i)).take 4))

def blockInit (key nonce : List UInt8) (counter : Word) : Vector Word 16 :=
  .ofFn fun i =>
    if i.val < 4 then [0x61707865#32, 0x3320646e#32, 0x79622d32#32, 0x6b206574#32][i]!
    else if i.val < 12 then wordAt key (i - 4)
    else if i.val = 12 then counter
    else wordAt nonce (i - 13)

def keyBlock (key nonce : List UInt8) (counter : Word) : List UInt8 :=
  let init := blockInit key nonce counter
  let s := Nat.repeat doubleRound 10 init
  (s.zipWith (· + ·) init).toList.flatMap fun word => toBytes 4 word.toNat

/-- ChaCha20 (RFC 8439), from block `counter`. -/
def chacha20 (key nonce : List UInt8) (counter : Word) (data : List UInt8) : List UInt8 :=
  data.mapIdx fun i byte =>
    byte ^^^ (keyBlock key nonce (counter + BitVec.ofNat 32 (i / 64))).getD (i % 64) 0

@[simp]
theorem length_chacha20 (key nonce : List UInt8) (counter : Word) (data : List UInt8) :
    (chacha20 key nonce counter data).length = data.length := by
  simp [chacha20]

@[simp]
theorem chacha20_chacha20 (key nonce : List UInt8) (counter : Word) (data : List UInt8) :
    chacha20 key nonce counter (chacha20 key nonce counter data) = data := by
  apply List.ext_getElem
  · simp
  · intro i _ _
    simp [chacha20, UInt8.xor_assoc]

structure SipState where
  v0 : BitVec 64
  v1 : BitVec 64
  v2 : BitVec 64
  v3 : BitVec 64

def SipState.round (v : SipState) : SipState :=
  let v0 := v.v0 + v.v1
  let v1 := v.v1.rotateLeft 13 ^^^ v0
  let v0 := v0.rotateLeft 32
  let v2 := v.v2 + v.v3
  let v3 := v.v3.rotateLeft 16 ^^^ v2
  let v0 := v0 + v3
  let v3 := v3.rotateLeft 21 ^^^ v0
  let v2 := v2 + v1
  let v1 := v1.rotateLeft 17 ^^^ v2
  let v2 := v2.rotateLeft 32
  { v0, v1, v2, v3 }

def SipState.absorb (v : SipState) (m : BitVec 64) : SipState :=
  let v := { v with v3 := v.v3 ^^^ m }.round.round
  { v with v0 := v.v0 ^^^ m }

def siphash (k0 k1 : BitVec 64) (data : List UInt8) : BitVec 64 :=
  let v : SipState :=
    { v0 := k0 ^^^ 0x736f6d6570736575, v1 := k1 ^^^ 0x646f72616e646f6d
      v2 := k0 ^^^ 0x6c7967656e657261, v3 := k1 ^^^ 0x7465646279746573 }
  let whole := data.length / 8
  let v := (List.range whole).foldl
    (fun v i => v.absorb (BitVec.ofNat 64 (ofBytes ((data.drop (8 * i)).take 8)))) v
  let rest := data.drop (8 * whole)
  let last := rest ++ List.replicate (7 - rest.length) 0 ++ [UInt8.ofNat data.length]
  let v := v.absorb (BitVec.ofNat 64 (ofBytes last))
  let v := { v with v2 := v.v2 ^^^ 0xff }.round.round.round.round
  v.v0 ^^^ v.v1 ^^^ v.v2 ^^^ v.v3

end EspDevkit.Crypto
