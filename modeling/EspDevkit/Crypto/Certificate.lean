import EspDevkit.Library.ByteOrder
import Mathlib.Data.Int.Notation

/-!
# Certificates

DER values are read in order from the bytes that are left.  A certificate is what
its encoding says, field by field; names and keys stay encoded.
-/

namespace EspDevkit.Crypto.X509

abbrev Bytes := List UInt8

inductive CertError
  | expired
  | notYetValid
  | unknownIssuer
  | badSignature
  | nameMismatch
  | notCa
  | badUsage
  | pathTooLong
  | nameConstraint
  | distrusted
  | unsupportedAlgorithm
  | unknownCritical
  deriving DecidableEq, Repr

inductive Error
  | decode
  | certificate (e : CertError)
  deriving DecidableEq, Repr

namespace Der

def boolean : UInt8 := 0x01
def integer : UInt8 := 0x02
def bitString : UInt8 := 0x03
def octetString : UInt8 := 0x04
def null : UInt8 := 0x05
def oid : UInt8 := 0x06
def utcTime : UInt8 := 0x17
def generalizedTime : UInt8 := 0x18
def sequence : UInt8 := 0x30

def context (n : UInt8) : UInt8 := 0xa0 ||| n

def contextPrimitive (n : UInt8) : UInt8 := 0x80 ||| n

structure Value where
  tag : UInt8
  content : Bytes
  whole : Bytes

def readLength (rest : Bytes) : Except Error (ℕ × Bytes) :=
  match rest with
  | [] => .error .decode
  | first :: rest =>
    if first < 0x80 then .ok (first.toNat, rest)
    else
      let n := (first &&& 0x7f).toNat
      if n = 0 ∨ 4 < n ∨ rest.length < n ∨ rest.head? = some 0 then .error .decode
      else
        let len := (rest.take n).foldl (fun acc b => acc * 256 + b.toNat) 0
        if len < 0x80 then .error .decode else .ok (len, rest.drop n)

/-- `read_any`, with what is left. -/
def readAny (data : Bytes) : Except Error (Value × Bytes) :=
  match data with
  | [] => .error .decode
  | tag :: rest =>
    if tag &&& 0x1f = 0x1f then .error .decode
    else
      match readLength rest with
      | .error e => .error e
      | .ok (len, rest) =>
        if rest.length < len then .error .decode
        else
          let header := data.length - rest.length
          .ok ({ tag, content := rest.take len, whole := data.take (header + len) }, rest.drop len)

def readValue (tag : UInt8) (data : Bytes) : Except Error (Value × Bytes) :=
  match readAny data with
  | .error e => .error e
  | .ok (value, rest) => if value.tag = tag then .ok (value, rest) else .error .decode

def read (tag : UInt8) (data : Bytes) : Except Error (Bytes × Bytes) :=
  (readValue tag data).map fun (value, rest) => (value.content, rest)

def readWhole (tag : UInt8) (data : Bytes) : Except Error (Bytes × Bytes) :=
  (readValue tag data).map fun (value, rest) => (value.whole, rest)

def readOptional (tag : UInt8) (data : Bytes) : Except Error (Option Bytes × Bytes) :=
  if data.head? = some tag then (read tag data).map fun (content, rest) => (some content, rest)
  else .ok (none, data)

def readBoolean (data : Bytes) : Except Error (Bool × Bytes) :=
  match read boolean data with
  | .ok ([0x00], rest) => .ok (false, rest)
  | .ok ([0xff], rest) => .ok (true, rest)
  | _ => .error .decode

/-- `unsigned`. -/
def unsigned (content : Bytes) : Except Error Bytes :=
  match content with
  | [] => .error .decode
  | b :: rest =>
    if 0x80 ≤ b then .error .decode
    else if b = 0 then
      match rest with
      | [] => .ok content
      | next :: _ => if next < 0x80 then .error .decode else .ok rest
    else .ok content

def smallUnsigned (data : Bytes) : Except Error (ℕ × Bytes) := do
  let (content, rest) ← read integer data
  let value ← unsigned content
  if 4 < value.length then .error .decode
  else .ok (value.foldl (fun acc b => acc * 256 + b.toNat) 0, rest)

def bitStringBytes (data : Bytes) : Except Error (Bytes × Bytes) :=
  match read bitString data with
  | .ok (0 :: bytes, rest) => .ok (bytes, rest)
  | _ => .error .decode

def finish (data : Bytes) : Except Error Unit := if data = [] then .ok () else .error .decode

end Der

namespace Oid

def sha1WithRsa : Bytes := [0x2a, 0x86, 0x48, 0x86, 0xf7, 0x0d, 0x01, 0x01, 0x05]
def mgf1 : Bytes := [0x2a, 0x86, 0x48, 0x86, 0xf7, 0x0d, 0x01, 0x01, 0x08]
def rsassaPss : Bytes := [0x2a, 0x86, 0x48, 0x86, 0xf7, 0x0d, 0x01, 0x01, 0x0a]
def sha256WithRsa : Bytes := [0x2a, 0x86, 0x48, 0x86, 0xf7, 0x0d, 0x01, 0x01, 0x0b]
def sha384WithRsa : Bytes := [0x2a, 0x86, 0x48, 0x86, 0xf7, 0x0d, 0x01, 0x01, 0x0c]
def sha512WithRsa : Bytes := [0x2a, 0x86, 0x48, 0x86, 0xf7, 0x0d, 0x01, 0x01, 0x0d]
def ecdsaWithSha256 : Bytes := [0x2a, 0x86, 0x48, 0xce, 0x3d, 0x04, 0x03, 0x02]
def ecdsaWithSha384 : Bytes := [0x2a, 0x86, 0x48, 0xce, 0x3d, 0x04, 0x03, 0x03]
def ecdsaWithSha512 : Bytes := [0x2a, 0x86, 0x48, 0xce, 0x3d, 0x04, 0x03, 0x04]
def ed25519 : Bytes := [0x2b, 0x65, 0x70]
def sha256 : Bytes := [0x60, 0x86, 0x48, 0x01, 0x65, 0x03, 0x04, 0x02, 0x01]
def sha384 : Bytes := [0x60, 0x86, 0x48, 0x01, 0x65, 0x03, 0x04, 0x02, 0x02]
def sha512 : Bytes := [0x60, 0x86, 0x48, 0x01, 0x65, 0x03, 0x04, 0x02, 0x03]

def subjectKeyId : Bytes := [0x55, 0x1d, 0x0e]
def keyUsage : Bytes := [0x55, 0x1d, 0x0f]
def subjectAltName : Bytes := [0x55, 0x1d, 0x11]
def basicConstraints : Bytes := [0x55, 0x1d, 0x13]
def nameConstraints : Bytes := [0x55, 0x1d, 0x1e]
def crlDistributionPoints : Bytes := [0x55, 0x1d, 0x1f]
def certificatePolicies : Bytes := [0x55, 0x1d, 0x20]
def policyMappings : Bytes := [0x55, 0x1d, 0x21]
def authorityKeyId : Bytes := [0x55, 0x1d, 0x23]
def policyConstraints : Bytes := [0x55, 0x1d, 0x24]
def extKeyUsage : Bytes := [0x55, 0x1d, 0x25]
def inhibitAnyPolicy : Bytes := [0x55, 0x1d, 0x36]

def anyExtKeyUsage : Bytes := [0x55, 0x1d, 0x25, 0x00]
def serverAuth : Bytes := [0x2b, 0x06, 0x01, 0x05, 0x05, 0x07, 0x03, 0x01]

def passed : List Bytes :=
  [subjectKeyId, authorityKeyId, certificatePolicies, policyConstraints, policyMappings,
    inhibitAnyPolicy, crlDistributionPoints]

end Oid

inductive HashAlg
  | sha1
  | sha256
  | sha384
  | sha512
  deriving DecidableEq, Repr

def HashAlg.outputLen : HashAlg → ℕ
  | sha1 => 20
  | sha256 => 32
  | sha384 => 48
  | sha512 => 64

inductive SignatureAlgorithm
  | rsaPkcs1 (hash : HashAlg)
  | rsaPss (hash : HashAlg)
  | ecdsa (hash : HashAlg)
  | ed25519
  deriving DecidableEq, Repr

open Der

def hashFromOid (id : Bytes) : Except Error HashAlg :=
  if id = Oid.sha256 then .ok .sha256
  else if id = Oid.sha384 then .ok .sha384
  else if id = Oid.sha512 then .ok .sha512
  else .error (.certificate .unsupportedAlgorithm)

def pssParams (params : Bytes) : Except Error HashAlg := do
  let (outer, params) ← read (context 0) params
  let (alg, _) ← read Der.sequence outer
  let (id, _) ← read Der.oid alg
  let hash ← hashFromOid id
  let (outer, params) ← read (context 1) params
  let (mgf, _) ← read Der.sequence outer
  let (id, mgf) ← read Der.oid mgf
  if id ≠ Oid.mgf1 then .error (.certificate .unsupportedAlgorithm)
  else
    let (alg, _) ← read Der.sequence mgf
    let (id, _) ← read Der.oid alg
    let mgfHash ← hashFromOid id
    if mgfHash ≠ hash then .error (.certificate .unsupportedAlgorithm)
    else
      let (outer, _) ← read (context 2) params
      let (salt, _) ← smallUnsigned outer
      if salt ≠ hash.outputLen then .error (.certificate .unsupportedAlgorithm) else .ok hash

/-- `SignatureAlgorithm::from_der`. -/
def SignatureAlgorithm.fromDer (algId : Bytes) : Except Error SignatureAlgorithm := do
  let (id, rest) ← read Der.oid algId
  if id = Oid.rsassaPss then
    let (params, _) ← read Der.sequence rest
    return .rsaPss (← pssParams params)
  else
    let alg ←
      if id = Oid.sha256WithRsa then .ok (.rsaPkcs1 .sha256)
      else if id = Oid.sha384WithRsa then .ok (.rsaPkcs1 .sha384)
      else if id = Oid.sha512WithRsa then .ok (.rsaPkcs1 .sha512)
      else if id = Oid.sha1WithRsa then .ok (.rsaPkcs1 .sha1)
      else if id = Oid.ecdsaWithSha256 then .ok (.ecdsa .sha256)
      else if id = Oid.ecdsaWithSha384 then .ok (.ecdsa .sha384)
      else if id = Oid.ecdsaWithSha512 then .ok (.ecdsa .sha512)
      else if id = Oid.ed25519 then .ok .ed25519
      else .error (.certificate .unsupportedAlgorithm)
    let (_, rest) ← readOptional Der.null rest
    finish rest
    return alg

structure BasicConstraints where
  ca : Bool
  pathLen : Option ℕ
  deriving DecidableEq, Repr

structure Certificate where
  tbs : Bytes
  signatureAlgorithm : SignatureAlgorithm
  signature : Bytes
  serial : Bytes
  issuer : Bytes
  subject : Bytes
  notBefore : ℤ
  notAfter : ℤ
  spki : Bytes
  basicConstraints : Option BasicConstraints := none
  /-- The bits of KeyUsage. -/
  keyUsage : Option (List Bool) := none
  extKeyUsage : Option Bytes := none
  subjectAltNames : Option Bytes := none
  nameConstraints : Option Bytes := none
  deriving DecidableEq, Repr

def digits (s : Bytes) : Except Error ℤ :=
  s.foldlM (fun acc c =>
    if 48 ≤ c ∧ c ≤ 57 then .ok (acc * 10 + (c.toNat - 48 : ℕ)) else .error .decode) 0

def daysFromCivil (year month day : ℤ) : ℤ :=
  let y := if month ≤ 2 then year - 1 else year
  let era := y / 400
  let yoe := y - era * 400
  let mp := (month + 9) % 12
  let doy := (153 * mp + 2) / 5 + day - 1
  let doe := yoe * 365 + yoe / 4 - yoe / 100 + doy
  era * 146097 + doe - 719468

def time (data : Bytes) : Except Error (ℤ × Bytes) := do
  let (value, left) ← readAny data
  let (year, rest) ←
    if value.tag = utcTime ∧ value.content.length = 13 then do
      let yy ← digits (value.content.take 2)
      .ok (if yy < 50 then 2000 + yy else 1900 + yy, value.content.drop 2)
    else if value.tag = generalizedTime ∧ value.content.length = 15 then do
      .ok (← digits (value.content.take 4), value.content.drop 4)
    else .error Error.decode
  if rest[10]? ≠ some 0x5a then .error .decode
  else
    let month ← digits (rest.take 2)
    let day ← digits ((rest.drop 2).take 2)
    let hour ← digits ((rest.drop 4).take 2)
    let minute ← digits ((rest.drop 6).take 2)
    let second ← digits ((rest.drop 8).take 2)
    if month < 1 ∨ 12 < month ∨ day < 1 ∨ 31 < day ∨ 23 < hour ∨ 59 < minute ∨ 60 < second then
      .error .decode
    else .ok (daysFromCivil year month day * 86400 + hour * 3600 + minute * 60 + second, left)

def optionalBoolean (data : Bytes) : Except Error (Bool × Bytes) :=
  if data.head? = some Der.boolean then readBoolean data else .ok (false, data)

namespace Certificate

def withBasicConstraints (cert : Certificate) (value : Bytes) : Except Error Certificate := do
  let (seq, _) ← read Der.sequence value
  let (ca, seq) ← optionalBoolean seq
  let (pathLen, seq) ← if seq = [] then .ok (none, seq) else do
    let (n, seq) ← smallUnsigned seq
    .ok (some n, seq)
  finish seq
  return { cert with basicConstraints := some { ca, pathLen } }

def bitsOf (b : UInt8) : List Bool := (List.range 8).map fun i => b.toNat.testBit (7 - i)

def withKeyUsage (cert : Certificate) (value : Bytes) : Except Error Certificate := do
  let (bits, _) ← read Der.bitString value
  match bits with
  | [] => .error .decode
  | unused :: bytes =>
    if 7 < unused then .error .decode
    else .ok { cert with keyUsage := some ((bytes.take 2).flatMap bitsOf) }

def extension (cert : Certificate) (ext : Bytes) : Except Error Certificate := do
  let (id, ext) ← read Der.oid ext
  let (critical, ext) ← optionalBoolean ext
  let (value, ext) ← read Der.octetString ext
  finish ext
  if id = Oid.basicConstraints then cert.withBasicConstraints value
  else if id = Oid.keyUsage then cert.withKeyUsage value
  else if id = Oid.extKeyUsage then .ok { cert with extKeyUsage := some value }
  else if id = Oid.subjectAltName then .ok { cert with subjectAltNames := some value }
  else if id = Oid.nameConstraints then .ok { cert with nameConstraints := some value }
  else if id ∈ Oid.passed then .ok cert
  else if critical then .error (.certificate .unknownCritical)
  else .ok cert

/-- `extensions`, for at most so many. -/
def extensions : ℕ → Certificate → Bytes → Except Error Certificate
  | 0, cert, _ => .ok cert
  | count + 1, cert, list =>
    if list = [] then .ok cert
    else do
      let (ext, list) ← read Der.sequence list
      extensions count (← cert.extension ext) list

def parse (data : Bytes) : Except Error Certificate := do
  let (cert, rest) ← read Der.sequence data
  finish rest
  let (tbs, cert) ← readWhole Der.sequence cert
  let (alg, cert) ← read Der.sequence cert
  let (signature, cert) ← bitStringBytes cert
  finish cert
  let (t, _) ← read Der.sequence tbs
  let (explicit, t) ← readOptional (context 0) t
  let version ← match explicit with
    | some v => (smallUnsigned v).map Prod.fst
    | none => .ok 0
  let (serial, t) ← read Der.integer t
  let (innerAlg, t) ← read Der.sequence t
  let (issuer, t) ← readWhole Der.sequence t
  let (validity, t) ← read Der.sequence t
  let (notBefore, validity) ← time validity
  let (notAfter, validity) ← time validity
  finish validity
  let (subject, t) ← readWhole Der.sequence t
  let (spki, t) ← readWhole Der.sequence t
  let (_, t) ← readOptional (contextPrimitive 1) t
  let (_, t) ← readOptional (contextPrimitive 2) t
  let parsed : Certificate :=
    { tbs, signatureAlgorithm := .rsaPkcs1 .sha256, signature, serial, issuer, subject, notBefore
      notAfter, spki }
  let (exts, t) ← readOptional (context 3) t
  let parsed ← match exts with
    | none => .ok parsed
    | some exts =>
      if version ≠ 2 then .error .decode
      else do
        let (list, _) ← read Der.sequence exts
        -- Each extension takes a byte at least.
        extensions list.length parsed list
  finish t
  let outer ← SignatureAlgorithm.fromDer alg
  let inner ← SignatureAlgorithm.fromDer innerAlg
  if outer = inner then .ok { parsed with signatureAlgorithm := outer } else .error .decode

/-- `general_names`, of at most so many. -/
def namesOf (tag : UInt8) : ℕ → Bytes → List Bytes
  | 0, _ => []
  | count + 1, seq =>
    match readAny seq with
    | .error _ => []
    | .ok (value, rest) =>
      if value.tag = tag then value.content :: namesOf tag count rest else namesOf tag count rest

def generalNames (value : Option Bytes) (tag : UInt8) : List Bytes :=
  match value.map (read Der.sequence) with
  | some (.ok (seq, _)) => namesOf tag seq.length seq
  | _ => []

def dnsNames (cert : Certificate) : List Bytes :=
  generalNames cert.subjectAltNames (contextPrimitive 2)

def ipAddresses (cert : Certificate) : List Bytes :=
  generalNames cert.subjectAltNames (contextPrimitive 7)

def purposes : ℕ → Bytes → List Bytes
  | 0, _ => []
  | count + 1, seq =>
    match read Der.oid seq with
    | .error _ => []
    | .ok (id, rest) => id :: purposes count rest

def hasExtKeyUsage (cert : Certificate) (purpose : Bytes) : Bool :=
  match cert.extKeyUsage with
  | none => true
  | some value =>
    match read Der.sequence value with
    | .error _ => false
    | .ok (seq, _) =>
      (purposes seq.length seq).any fun id => id = purpose ∨ id = Oid.anyExtKeyUsage

def usageAllows (cert : Certificate) (bit : ℕ) : Bool :=
  match cert.keyUsage with
  | none => true
  | some bits => bits.getD bit false

end Certificate

end EspDevkit.Crypto.X509
