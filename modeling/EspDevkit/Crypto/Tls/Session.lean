import EspDevkit.Crypto.Tls.Schedule
import EspDevkit.Library.Fallible
import Mathlib.Data.List.Basic

/-!
# The state of a TLS client

A connection without its receive buffer, and what it puts into the bytes for the
peer: the ClientHello, records in the clear and under the traffic keys, and the
alert of a failure.
-/

namespace EspDevkit.Crypto.Tls

open X509 (Bytes)
open Fallible

def maxPlain : ℕ := 2 ^ 14
def maxCipher : ℕ := maxPlain + 256
def maxHandshake : ℕ := 2 ^ 16

/-- `HEADER`. -/
def headerLen : ℕ := 5

namespace ContentType

def changeCipherSpec : UInt8 := 20
def alert : UInt8 := 21
def handshake : UInt8 := 22
def applicationData : UInt8 := 23

end ContentType

namespace HandshakeType

def clientHello : UInt8 := 1
def serverHello : UInt8 := 2
def newSessionTicket : UInt8 := 4
def encryptedExtensions : UInt8 := 8
def certificate : UInt8 := 11
def certificateRequest : UInt8 := 13
def certificateVerify : UInt8 := 15
def finished : UInt8 := 20
def keyUpdate : UInt8 := 24
def messageHash : UInt8 := 254

end HandshakeType

namespace Extension

def serverName : ℕ := 0
def supportedGroups : ℕ := 10
def signatureAlgorithms : ℕ := 13
def alpn : ℕ := 16
def supportedVersions : ℕ := 43
def cookie : ℕ := 44
def keyShare : ℕ := 51

end Extension

namespace Scheme

def ecdsaP256Sha256 : ℕ := 0x0403
def ecdsaP384Sha384 : ℕ := 0x0503
def ecdsaP521Sha512 : ℕ := 0x0603
def rsaPssSha256 : ℕ := 0x0804
def rsaPssSha384 : ℕ := 0x0805
def rsaPssSha512 : ℕ := 0x0806
def ed25519 : ℕ := 0x0807
def rsaPkcs1Sha256 : ℕ := 0x0401
def rsaPkcs1Sha384 : ℕ := 0x0501
def rsaPkcs1Sha512 : ℕ := 0x0601

/-- `SIGNATURE_SCHEMES`. -/
def offered : List ℕ :=
  [ecdsaP256Sha256, ecdsaP384Sha384, ecdsaP521Sha512, rsaPssSha256, rsaPssSha384, rsaPssSha512,
    ed25519, rsaPkcs1Sha256, rsaPkcs1Sha384, rsaPkcs1Sha512]

end Scheme

def tls13 : ℕ := 0x0304

def hrrRandom : Bytes :=
  [0xcf, 0x21, 0xad, 0x74, 0xe5, 0x9a, 0x61, 0x11, 0xbe, 0x1d, 0x8c, 0x02, 0x1e, 0x65, 0xb8, 0x91,
    0xc2, 0xa2, 0x11, 0x16, 0x7a, 0xbb, 0x8c, 0x5e, 0x07, 0x9e, 0x09, 0xe2, 0xc8, 0xa8, 0x33, 0x9c]

variable (prim : Primitives)

inductive PrivateKey
  | rsa (key : prim.SigningKey)
  | ecdsa (curve : Curve) (key : prim.SigningKey)
  | ed25519 (key : prim.SigningKey)

/-- A certificate chain, leaf first, and the leaf's private key. -/
structure Identity where
  chain : List Bytes
  key : PrivateKey prim

inductive Verify
  /-- A chain to one of the store's roots, naming the server. -/
  | webPki (store : X509.TrustStore)
  /-- A leaf with exactly this SubjectPublicKeyInfo. -/
  | pinnedSpki (spki : Bytes)
  | custom (verify : List Bytes → Option Bytes → Except Error Unit)
  | none

structure Config where
  verify : Verify
  /-- What the clock says when the chain is checked. -/
  clock : Option ℤ
  alpn : List Bytes
  identity : Option (Identity prim)
  cipherSuites : List CipherSuite
  groups : List Group

inductive State
  | serverHello
  | encryptedExtensions
  | certificateOrRequest
  | certificate
  | certificateVerify
  | finished
  | connected
  deriving DecidableEq, Repr

/-- `Inner` less its receive buffer. -/
structure Session where
  config : Config prim
  serverName : Option Bytes
  state : State
  failed : Option Error
  /-- The bytes of `tx` that are not consumed. -/
  tx : Bytes
  earlyWrites : Bytes
  handshake : Bytes
  readCipher : Option RecordCipher
  writeCipher : Option RecordCipher
  suite : Option CipherSuite
  hash : HashKind
  transcript : Option Transcript
  clientHello : Bytes
  sessionId : Bytes
  random : Bytes
  share : Option (Group × prim.Ephemeral)
  retried : Bool
  handshakeSecret : Option Bytes
  clientSecret : Option Bytes
  serverSecret : Option Bytes
  exporter : Option Bytes
  certificateRequested : Option (Bytes × List ℕ)
  peerChain : List Bytes
  peerKey : Option prim.Key
  alpn : Option Bytes
  peerClosed : Bool
  closing : Bool
  /-- The handshake messages of the peer that were taken, which nothing reads. -/
  taken : List Bytes

abbrev Step (α : Type) : Type := Fallible (Session prim) Fatal α

variable {prim}

variable (prim) in
/-- `ServerName::parse`. -/
def parseName (name : Bytes) : X509.ServerName :=
  match prim.parseIp name with
  | some octets => .ip octets
  | none => .dns name

def extension (id : ℕ) (data : Bytes) : Bytes := putU16 id ++ withLen 2 data

def clientHelloExtensions (config : Config prim) (serverName : Option Bytes) (group : Group)
    (pubkey : Bytes) (cookie : Option Bytes) : Bytes :=
  (match serverName.map (parseName prim) with
    | some (.dns host) => extension Extension.serverName (withLen 2 ([0] ++ withLen 2 host))
    | _ => []) ++
  extension Extension.supportedVersions (withLen 1 (putU16 tls13)) ++
  extension Extension.supportedGroups
    (withLen 2 (config.groups.flatMap fun g => putU16 (groupId g))) ++
  extension Extension.signatureAlgorithms (withLen 2 (Scheme.offered.flatMap putU16)) ++
  extension Extension.keyShare (withLen 2 (putU16 (groupId group) ++ withLen 2 pubkey)) ++
  (if config.alpn = [] then []
    else extension Extension.alpn (withLen 2 (config.alpn.flatMap (withLen 1)))) ++
  (match cookie with
    | some cookie => extension Extension.cookie (withLen 2 cookie)
    | none => [])

def buildClientHello (config : Config prim) (serverName : Option Bytes) (random sessionId : Bytes)
    (group : Group) (pubkey : Bytes) (cookie : Option Bytes) : Bytes :=
  [HandshakeType.clientHello] ++
    withLen 3
      (putU16 0x0303 ++ random ++ [32] ++ sessionId ++
        withLen 2 (config.cipherSuites.flatMap fun suite => putU16 suite.id) ++ [1, 0] ++
        withLen 2 (clientHelloExtensions config serverName group pubkey cookie))

/-- `client_hello`. -/
def clientHello (cookie : Option Bytes) : Step prim Bytes := do
  let s ← get
  let (group, share) ← unwrap s.share
  let pubkey ← lift ((prim.exportPublic share).mapError Error.toFatal)
  return buildClientHello s.config s.serverName s.random s.sessionId group pubkey cookie

def plainRecord (ty : UInt8) (payload : Bytes) (version : ℕ) : Bytes :=
  [ty] ++ putU16 version ++ putU16 payload.length ++ payload

def append (bytes : Bytes) : Step prim Unit := modify fun s => { s with tx := s.tx ++ bytes }

def writePlain (ty : UInt8) (payload : Bytes) (version : ℕ) : Step prim Unit :=
  append (plainRecord ty payload version)

def sealedHeader (inner : ℕ) : Bytes :=
  [ContentType.applicationData, 3, 3] ++ bigEndian 2 (inner + tagLen)

/-- One round of `write_record`.  A record that cannot be encrypted stays as it was
put there. -/
def writeChunk (ty : UInt8) (chunk : Bytes) : Step prim Unit := do
  let s ← get
  match s.writeCipher with
  | none => writePlain ty chunk 0x0303
  | some cipher =>
    let inner := chunk ++ [ty]
    let head := sealedHeader inner.length
    let unsealed := head ++ inner ++ List.replicate tagLen 0
    match cipher.nonce with
    | .error f => do
      append unsealed
      stop f
    | .ok (nonce, cipher) => do
      modify fun s => { s with writeCipher := some cipher }
      match prim.encrypt cipher.algorithm cipher.key nonce head inner with
      | none => do
        append unsealed
        stop (fatal Alert.internalError)
      | some body => append (head ++ body)

def writeChunks (ty : UInt8) : List Bytes → Step prim Unit
  | [] => pure ()
  | chunk :: chunks => do
    writeChunk ty chunk
    writeChunks ty chunks

def writeRecord (ty : UInt8) (payload : Bytes) : Step prim Unit :=
  writeChunks ty (payload.toChunks maxPlain)

def record (msg : Bytes) : Step prim Unit := do
  let t ← unwrap (← get).transcript
  modify fun s => { s with transcript := some (t.update msg) }

def sendHandshake (msg : Bytes) : Step prim Unit := do
  record msg
  writeRecord ContentType.handshake msg

def Fatal.quiet (f : Fatal) : Bool :=
  match f.error with
  | .alert _ => true
  | _ => f.alert = Alert.closeNotify

def Session.sendAlert (s : Session prim) (f : Fatal) : Session prim :=
  if f.quiet then s else (writeRecord ContentType.alert [2, f.alert] s).2

/-- `fail`: the state after it. -/
def Session.fail (s : Session prim) (f : Fatal) : Session prim :=
  match s.failed with
  | none => { s.sendAlert f with failed := some f.error }
  | some _ => s

end EspDevkit.Crypto.Tls
