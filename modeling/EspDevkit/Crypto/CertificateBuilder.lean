import EspDevkit.Crypto.Der

/-!
# Building certificates

A certificate is written by nested writers; what a key signs stands for itself.  `none` is an error
of the key, or a length that the writer finds no first byte of.
-/

namespace EspDevkit.Crypto.X509

namespace Oid

def rsaEncryption : Bytes := [0x2a, 0x86, 0x48, 0x86, 0xf7, 0x0d, 0x01, 0x01, 0x01]
def ecPublicKey : Bytes := [0x2a, 0x86, 0x48, 0xce, 0x3d, 0x02, 0x01]
def prime256v1 : Bytes := [0x2a, 0x86, 0x48, 0xce, 0x3d, 0x03, 0x01, 0x07]
def secp384r1 : Bytes := [0x2b, 0x81, 0x04, 0x00, 0x22]
def secp521r1 : Bytes := [0x2b, 0x81, 0x04, 0x00, 0x23]

def commonName : Bytes := [0x55, 0x04, 0x03]
def country : Bytes := [0x55, 0x04, 0x06]
def organization : Bytes := [0x55, 0x04, 0x0a]
def organizationalUnit : Bytes := [0x55, 0x04, 0x0b]

end Oid

open Der

structure Name where
  rdns : Bytes := []

namespace Name

def withAttribute (self : Name) (id : Bytes) (tag : UInt8) (value : Bytes) : Option Name := do
  let w ← ({} : Writer).nested 0x31 fun w =>
    w.sequence fun w => do
      let w ← w.oid id
      w.tlv tag value
  return { rdns := self.rdns ++ w.buf }

def commonName (self : Name) (value : Bytes) : Option Name :=
  self.withAttribute Oid.commonName 0x0c value

def organization (self : Name) (value : Bytes) : Option Name :=
  self.withAttribute Oid.organization 0x0c value

def organizationalUnit (self : Name) (value : Bytes) : Option Name :=
  self.withAttribute Oid.organizationalUnit 0x0c value

def country (self : Name) (value : Bytes) : Option Name :=
  self.withAttribute Oid.country 0x13 value

def toDer (self : Name) : Option Bytes := do
  let w ← ({} : Writer).tlv Der.sequence self.rdns
  return w.buf

end Name

inductive NamedCurve
  | p256
  | p384
  | p521
  deriving DecidableEq, Repr

inductive KeyKind
  | rsa
  | ecdsa (curve : NamedCurve)
  | ed25519
  deriving DecidableEq, Repr

/-- A key that certificates are signed with: its public key as it is written, and what it signs. -/
structure Signer where
  kind : KeyKind
  publicKey : Option Bytes
  sign : Bytes → Option Bytes

namespace Signer

def spki (self : Signer) : Option Bytes := do
  let key ← self.publicKey
  let w ← ({} : Writer).sequence fun w => do
    let w ← w.sequence fun w =>
      match self.kind with
      | .rsa => do
        let w ← w.oid Oid.rsaEncryption
        w.null
      | .ecdsa curve => do
        let w ← w.oid Oid.ecPublicKey
        w.oid (match curve with
          | .p256 => Oid.prime256v1
          | .p384 => Oid.secp384r1
          | .p521 => Oid.secp521r1)
      | .ed25519 => w.oid Oid.ed25519
    w.bitString key
  return w.buf

def algorithm (self : Signer) (w : Writer) : Option Writer :=
  w.sequence fun w =>
    match self.kind with
    | .rsa => do
      let w ← w.oid Oid.sha256WithRsa
      w.null
    | .ecdsa curve =>
      w.oid (match curve with
        | .p256 => Oid.ecdsaWithSha256
        | .p384 => Oid.ecdsaWithSha384
        | .p521 => Oid.ecdsaWithSha512)
    | .ed25519 => w.oid Oid.ed25519

end Signer

def civilFromDays (z : ℤ) : ℤ × ℤ × ℤ :=
  let z := z + 719468
  let era := z / 146097
  let doe := z - era * 146097
  let yoe := (doe - doe / 1460 + doe / 36524 - doe / 146096) / 365
  let doy := doe - (365 * yoe + yoe / 4 - yoe / 100)
  let mp := (5 * doy + 2) / 153
  let d := doy - (153 * mp + 2) / 5 + 1
  let m := if mp < 10 then mp + 3 else mp - 9
  (yoe + era * 400 + (if m ≤ 2 then 1 else 0), m, d)

def decimal : ℕ → ℕ → Bytes
  | 0, _ => []
  | places + 1, n =>
    if n < 10 then [UInt8.ofNat (48 + n)]
    else decimal places (n / 10) ++ [UInt8.ofNat (48 + n % 10)]

/-- A number with zeros in front of it; an `i64` has at most 19 digits. -/
def padded (width : ℕ) (n : ℤ) : Bytes :=
  let sign : Bytes := if n < 0 then [0x2d] else []
  let digits := decimal 19 n.natAbs
  sign ++ List.replicate (width - sign.length - digits.length) 0x30 ++ digits

def timeText (m d secs : ℤ) : Bytes :=
  padded 2 m ++ padded 2 d ++ padded 2 (secs / 3600) ++ padded 2 (secs / 60 % 60) ++
    padded 2 (secs % 60) ++ [0x5a]

/-- `time` of the builder. -/
def writeTime (w : Writer) (unix : ℤ) : Option Writer :=
  let days := unix / 86400
  let secs := unix % 86400
  let (y, m, d) := civilFromDays days
  if 1950 ≤ y ∧ y < 2050 then w.tlv utcTime (padded 2 (y % 100) ++ timeText m d secs)
  else w.tlv generalizedTime (padded 4 y ++ timeText m d secs)

structure CertificateBuilder where
  subject : Name
  serial : Bytes := [1]
  notBefore : ℤ := 946684800
  notAfter : ℤ := 253402300799
  ca : Option Bool := none
  dnsNames : List Bytes := []

namespace CertificateBuilder

variable (self : CertificateBuilder)

def writeExtensions (w : Writer) : Option Writer :=
  if self.ca.isSome ∨ self.dnsNames ≠ [] then
    w.nested (context 3) fun w =>
      w.sequence fun w => do
        let w ←
          (match self.ca with
          | some ca =>
            w.sequence fun w => do
              let w ← w.oid Oid.basicConstraints
              let w ← w.boolean true
              w.nested octetString fun w =>
                w.sequence fun w => if ca then w.boolean true else some w
          | none => some w)
        if self.dnsNames ≠ [] then
          w.sequence fun w => do
            let w ← w.oid Oid.subjectAltName
            w.nested octetString fun w =>
              w.sequence fun w =>
                self.dnsNames.foldlM (fun w name => w.tlv (contextPrimitive 2) name) w
        else some w
  else some w

def writeTbs (subjectSpki : Bytes) (issuer : Name) (signer : Signer) (w : Writer) : Option Writer :=
  w.sequence fun w => do
    let w ← w.nested (context 0) fun w => w.smallInteger 2
    let w ← w.unsignedInteger self.serial
    let w ← signer.algorithm w
    let issuer ← issuer.toDer
    let w := w.raw issuer
    let w ← w.sequence fun w => do
      let w ← writeTime w self.notBefore
      writeTime w self.notAfter
    let subject ← self.subject.toDer
    let w := w.raw subject
    let w := w.raw subjectSpki
    self.writeExtensions w

def sign (subjectSpki : Bytes) (issuer : Name) (signer : Signer) : Option Bytes := do
  let tbs ← self.writeTbs subjectSpki issuer signer {}
  let signature ← signer.sign tbs.buf
  let cert ← ({} : Writer).sequence fun w => do
    let w := w.raw tbs.buf
    let w ← signer.algorithm w
    w.bitString signature
  return cert.buf

def selfSigned (signer : Signer) : Option Bytes := do
  let spki ← signer.spki
  self.sign spki self.subject signer

end CertificateBuilder

end EspDevkit.Crypto.X509
