import EspDevkit.Crypto.Chain

/-!
# Keys of a TLS connection

The secrets of TLS 1.3, each derived from the one before and from the hash of the
messages so far.  Hashes, key agreement, encryption and signatures are left open.
-/

namespace EspDevkit.Crypto.Tls

open X509 (Bytes CertError SignatureAlgorithm HashAlg)

inductive Error
  | invalidLength
  | invalidKey
  | verify
  | unsupported
  | noMemory
  | decode
  | certificate (e : CertError)
  | alert (code : UInt8)
  | protocol
  | handshakeFailure
  | closed
  | psa (status : ℤ)
  deriving DecidableEq, Repr

def Error.ofX509 : X509.Error → Error
  | .decode => .decode
  | .certificate e => .certificate e

namespace Alert

def closeNotify : UInt8 := 0
def unexpectedMessage : UInt8 := 10
def badRecordMac : UInt8 := 20
def recordOverflow : UInt8 := 22
def handshakeFailure : UInt8 := 40
def badCertificate : UInt8 := 42
def unsupportedCertificate : UInt8 := 43
def certificateExpired : UInt8 := 45
def illegalParameter : UInt8 := 47
def unknownCa : UInt8 := 48
def decodeError : UInt8 := 50
def decryptError : UInt8 := 51
def protocolVersion : UInt8 := 70
def internalError : UInt8 := 80
def userCanceled : UInt8 := 90
def missingExtension : UInt8 := 109
def unsupportedExtension : UInt8 := 110

end Alert

structure Fatal where
  alert : UInt8
  error : Error
  deriving DecidableEq, Repr

def fatal (alert : UInt8) : Fatal :=
  { alert, error := if alert = Alert.handshakeFailure then .handshakeFailure else .protocol }

/-- `From<Error> for Fatal`. -/
def Error.toFatal (error : Error) : Fatal :=
  let alert :=
    match error with
    | .decode => Alert.decodeError
    | .certificate .expired | .certificate .notYetValid => Alert.certificateExpired
    | .certificate .unknownIssuer | .certificate .distrusted => Alert.unknownCa
    | .certificate .unsupportedAlgorithm => Alert.unsupportedCertificate
    | .certificate _ => Alert.badCertificate
    | .verify => Alert.decryptError
    | .handshakeFailure => Alert.handshakeFailure
    | _ => Alert.internalError
  { alert, error }

def bigEndian (width value : ℕ) : Bytes := (LittleEndian.toBytes width value).reverse

def putU16 (value : ℕ) : Bytes := bigEndian 2 value

def withLen (width : ℕ) (body : Bytes) : Bytes := bigEndian width body.length ++ body

def ascii (text : String) : Bytes := text.toList.map fun c => UInt8.ofNat c.toNat

inductive HashKind
  | sha256
  | sha384
  deriving DecidableEq, Repr

def HashKind.len : HashKind → ℕ
  | .sha256 => 32
  | .sha384 => 48

/-- `aead::Algorithm`. -/
inductive Algorithm
  | aes128Gcm
  | aes256Gcm
  | chaCha20Poly1305
  deriving DecidableEq, Repr

def Algorithm.keyLen : Algorithm → ℕ
  | .aes128Gcm => 16
  | .aes256Gcm | .chaCha20Poly1305 => 32

def nonceLen : ℕ := 12

/-- `TAG`. -/
def tagLen : ℕ := 16

inductive CipherSuite
  | aes128GcmSha256
  | aes256GcmSha384
  | chaCha20Poly1305Sha256
  deriving DecidableEq, Repr

namespace CipherSuite

def id : CipherSuite → ℕ
  | .aes128GcmSha256 => 0x1301
  | .aes256GcmSha384 => 0x1302
  | .chaCha20Poly1305Sha256 => 0x1303

def fromId (id : ℕ) : Option CipherSuite :=
  [aes128GcmSha256, aes256GcmSha384, chaCha20Poly1305Sha256].find? fun s => s.id = id

def aead : CipherSuite → Algorithm
  | .aes128GcmSha256 => .aes128Gcm
  | .aes256GcmSha384 => .aes256Gcm
  | .chaCha20Poly1305Sha256 => .chaCha20Poly1305

def hash : CipherSuite → HashKind
  | .aes256GcmSha384 => .sha384
  | _ => .sha256

end CipherSuite

inductive Group
  | x25519
  | p256
  | p384
  deriving DecidableEq, Repr

def groupId : Group → ℕ
  | .x25519 => 0x001d
  | .p256 => 0x0017
  | .p384 => 0x0018

inductive Curve
  | p256
  | p384
  | p521
  deriving DecidableEq, Repr

inductive KeyKind
  | rsa
  | ecdsa (curve : Curve)
  | ed25519
  deriving DecidableEq, Repr

structure Primitives where
  digest : HashKind → Bytes → Bytes
  /-- The mac of some data under a key. -/
  hmac : HashKind → Bytes → Bytes → Bytes
  /-- `Aead::new`. -/
  importKey : Algorithm → Bytes → Except Error Unit
  /-- Under a key and a nonce, with associated data: the ciphertext and its tag. -/
  encrypt : Algorithm → Bytes → Bytes → Bytes → Bytes → Option Bytes
  decrypt : Algorithm → Bytes → Bytes → Bytes → Bytes → Option Bytes
  /-- A key pair for one key agreement. -/
  Ephemeral : Type
  /-- The key pair that is generated after so many others. -/
  generate : ℕ → Group → Except Error Ephemeral
  exportPublic : Ephemeral → Except Error Bytes
  agree : Ephemeral → Bytes → Except Error Bytes
  Key : Type
  kind : Key → KeyKind
  fromSpki : Bytes → Except Error Key
  verify : Key → SignatureAlgorithm → Bytes → Bytes → Bool
  SigningKey : Type
  sign : SigningKey → SignatureAlgorithm → Bytes → Except Error Bytes
  /-- The octets of an address that is written as text. -/
  parseIp : Bytes → Option Bytes

variable (prim : Primitives)

/-- `Hkdf::expand`, block after block. -/
def expandBlocks (kind : HashKind) (prk info : Bytes) : ℕ → ℕ → Bytes → Bytes
  | 0, _, _ => []
  | count + 1, i, previous =>
    let block := prim.hmac kind prk (previous ++ info ++ [UInt8.ofNat (i + 1)])
    block ++ expandBlocks kind prk info count (i + 1) block

def extract (kind : HashKind) (salt ikm : Bytes) : Bytes := prim.hmac kind salt ikm

def expandLabel (kind : HashKind) (secret : Bytes) (label : String) (context : Bytes) (len : ℕ) :
    Bytes :=
  let info := bigEndian 2 len ++ withLen 1 (ascii "tls13 " ++ ascii label) ++ withLen 1 context
  (expandBlocks prim kind secret info ((len + kind.len - 1) / kind.len) 0 []).take len

def expandSecret (kind : HashKind) (secret : Bytes) (label : String) (context : Bytes) : Bytes :=
  expandLabel prim kind secret label context kind.len

def derive (kind : HashKind) (secret : Bytes) (label : String) (transcript : Bytes) : Bytes :=
  expandSecret prim kind secret label transcript

def emptyHash (kind : HashKind) : Bytes := prim.digest kind []

def zeros (kind : HashKind) : Bytes := List.replicate kind.len 0

structure Transcript where
  kind : HashKind
  messages : Bytes
  deriving DecidableEq, Repr

def Transcript.update (t : Transcript) (data : Bytes) : Transcript :=
  { t with messages := t.messages ++ data }

def Transcript.current (t : Transcript) : Bytes := prim.digest t.kind t.messages

def handshakeSecret (kind : HashKind) (shared : Bytes) : Bytes :=
  let early := extract prim kind [] (zeros kind)
  extract prim kind (derive prim kind early "derived" (emptyHash prim kind)) shared

def masterSecret (kind : HashKind) (handshake : Bytes) : Bytes :=
  extract prim kind (derive prim kind handshake "derived" (emptyHash prim kind)) (zeros kind)

def finishedMac (kind : HashKind) (traffic transcript : Bytes) : Bytes :=
  prim.hmac kind (expandSecret prim kind traffic "finished" []) transcript

def signedContent (context : String) (transcript : Bytes) : Bytes :=
  List.replicate 64 0x20 ++ ascii context ++ [0] ++ transcript

structure RecordCipher where
  algorithm : Algorithm
  key : Bytes
  iv : Bytes
  seq : ℕ
  deriving DecidableEq, Repr

def cipherOf (suite : CipherSuite) (secret : Bytes) : RecordCipher :=
  { algorithm := suite.aead, key := expandLabel prim suite.hash secret "key" [] suite.aead.keyLen
    iv := expandLabel prim suite.hash secret "iv" [] nonceLen, seq := 0 }

/-- `RecordCipher::new`. -/
def RecordCipher.new (suite : CipherSuite) (secret : Bytes) : Except Error RecordCipher :=
  let cipher := cipherOf prim suite secret
  match prim.importKey cipher.algorithm cipher.key with
  | .ok _ => .ok cipher
  | .error e => .error e

def RecordCipher.nonce (cipher : RecordCipher) : Except Fatal (Bytes × RecordCipher) :=
  let low := List.zipWith (· ^^^ ·) (cipher.iv.drop 4) (bigEndian 8 cipher.seq)
  if cipher.seq + 1 < 2 ^ 64 then
    .ok (cipher.iv.take 4 ++ low, { cipher with seq := cipher.seq + 1 })
  else .error (fatal Alert.internalError)

/-- `open_in_place`: the plaintext, where the ciphertext was. -/
def RecordCipher.openInPlace (cipher : RecordCipher) (nonce head body : Bytes) : Option Bytes :=
  if body.length < tagLen then none
  else
    (prim.decrypt cipher.algorithm cipher.key nonce head body).map
      (List.take (body.length - tagLen))

end EspDevkit.Crypto.Tls
