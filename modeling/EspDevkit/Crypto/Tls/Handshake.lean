import EspDevkit.Crypto.Tls.Session

/-!
# Handshake messages

What the client does with each message of the server's.  What a message says is read
first, with no change to the connection; what it changes comes after.
-/

namespace EspDevkit.Crypto.Tls

open X509 (Bytes SignatureAlgorithm HashAlg)
open Fallible

/-- `ByteReader::bytes`. -/
def takeBytes (n : ℕ) (r : Bytes) : Option (Bytes × Bytes) :=
  if n ≤ r.length then some (r.take n, r.drop n) else none

/-- `u8`, `u16_be` and `u24_be`. -/
def number (width : ℕ) (r : Bytes) : Option (ℕ × Bytes) :=
  (takeBytes width r).map fun (bytes, r) => (LittleEndian.ofBytes bytes.reverse, r)

/-- `vec8`, `vec16` and `vec24`. -/
def vec (width : ℕ) (r : Bytes) : Option (Bytes × Bytes) :=
  (number width r).bind fun (n, r) => takeBytes n r

/-- `slice[from..to]`. -/
def slice (start stop : ℕ) (bytes : Bytes) : Option Bytes :=
  if start ≤ stop ∧ stop ≤ bytes.length then some ((bytes.take stop).drop start) else none

def orFatal {α : Type} (alert : UInt8) : Option α → Except Fatal α
  | some a => .ok a
  | none => .error (fatal alert)

def decode {α : Type} (x : Option α) : Except Fatal α := orFatal Alert.decodeError x

def check (condition : Prop) [Decidable condition] (alert : UInt8) : Except Fatal Unit :=
  if condition then .ok () else .error (fatal alert)

def nextExtension (exts : Bytes) : Except Fatal (ℕ × Bytes × Bytes) := do
  let (id, r) ← decode (number 2 exts)
  let (data, r) ← decode (vec 2 r)
  return (id, data, r)

def eachExtension {α : Type} (handle : α → ℕ → Bytes → Except Fatal α) :
    ℕ → Bytes → α → Except Fatal α
  | 0, _, a => .ok a
  | fuel + 1, exts, a =>
    if exts = [] then .ok a
    else do
      let (id, data, r) ← nextExtension exts
      let a ← handle a id data
      eachExtension handle fuel r a

structure Hello where
  suite : CipherSuite
  retry : Bool
  version : Option ℕ := none
  keyShare : Option (ℕ × Bytes) := none
  selectedGroup : Option ℕ := none
  cookie : Option Bytes := none

def helloExtension (hello : Hello) (id : ℕ) (data : Bytes) : Except Fatal Hello :=
  if id = Extension.supportedVersions then do
    let (version, _) ← decode (number 2 data)
    return { hello with version := some version }
  else if id = Extension.keyShare ∧ hello.retry then do
    let (group, _) ← decode (number 2 data)
    return { hello with selectedGroup := some group }
  else if id = Extension.keyShare then do
    let (group, r) ← decode (number 2 data)
    let (key, _) ← decode (vec 2 r)
    return { hello with keyShare := some (group, key) }
  else if id = Extension.cookie ∧ hello.retry then do
    let (cookie, _) ← decode (vec 2 data)
    return { hello with cookie := some cookie }
  else .error (fatal Alert.unsupportedExtension)

/-- `server_hello`, until it changes the connection. -/
def readServerHello (offered : List CipherSuite) (sessionId : Bytes) (agreed : Option CipherSuite)
    (msg : Bytes) : Except Fatal Hello := do
  let (version, r) ← decode (number 2 (msg.drop 4))
  check (version = 0x0303) Alert.protocolVersion
  let (random, r) ← decode (takeBytes 32 r)
  let (session, r) ← decode (vec 1 r)
  let (suiteId, r) ← decode (number 2 r)
  let (compression, r) ← decode (number 1 r)
  let (exts, r) ← decode (vec 2 r)
  check (r = []) Alert.decodeError
  check (session = sessionId ∧ compression = 0) Alert.illegalParameter
  let suite ← orFatal Alert.illegalParameter
    ((CipherSuite.fromId suiteId).filter fun suite => offered.contains suite)
  check (∀ s ∈ agreed, s = suite) Alert.illegalParameter
  let hello ← eachExtension helloExtension exts.length exts { suite, retry := random = hrrRandom }
  check (hello.version = some tls13) Alert.protocolVersion
  return { hello with suite, retry := random = hrrRandom }

def numbers : ℕ → Bytes → Option (List ℕ)
  | 0, _ => some []
  | fuel + 1, r =>
    if r = [] then some []
    else (number 2 r).bind fun (n, r) => (numbers fuel r).map fun rest => n :: rest

def requestExtension (schemes : List ℕ) (id : ℕ) (data : Bytes) : Except Fatal (List ℕ) :=
  if id = Extension.signatureAlgorithms then do
    let (list, _) ← decode (vec 2 data)
    let more ← decode (numbers list.length list)
    return schemes ++ more
  else .ok schemes

/-- `certificate_request`, until it changes the connection. -/
def readCertificateRequest (body : Bytes) : Except Fatal (Bytes × List ℕ) := do
  let (context, r) ← decode (vec 1 body)
  let (exts, _) ← decode (vec 2 r)
  check (context = []) Alert.illegalParameter
  let schemes ← eachExtension requestExtension exts.length exts []
  check (schemes ≠ []) Alert.missingExtension
  return (context, schemes)

def certificates : ℕ → Bytes → Option (List Bytes)
  | 0, _ => some []
  | fuel + 1, list =>
    if list = [] then some []
    else
      (vec 3 list).bind fun (cert, r) =>
        (vec 2 r).bind fun (_, r) => (certificates fuel r).map fun rest => cert :: rest

def readCertificate (body : Bytes) : Except Fatal (List Bytes) := do
  let (context, r) ← decode (vec 1 body)
  let (list, r) ← decode (vec 3 r)
  check (context = [] ∧ r = []) Alert.decodeError
  let chain ← decode (certificates list.length list)
  check (chain ≠ []) Alert.decodeError
  return chain

def readCertificateVerify (body : Bytes) : Except Fatal (ℕ × Bytes) := do
  let (scheme, r) ← decode (number 2 body)
  let (signature, r) ← decode (vec 2 r)
  check (r = []) Alert.decodeError
  return (scheme, signature)

def verifyAlgorithm (scheme : ℕ) (kind : KeyKind) : Option SignatureAlgorithm :=
  if scheme = Scheme.ecdsaP256Sha256 ∧ kind = .ecdsa .p256 then some (.ecdsa .sha256)
  else if scheme = Scheme.ecdsaP384Sha384 ∧ kind = .ecdsa .p384 then some (.ecdsa .sha384)
  else if scheme = Scheme.ecdsaP521Sha512 ∧ kind = .ecdsa .p521 then some (.ecdsa .sha512)
  else if scheme = Scheme.rsaPssSha256 ∧ kind = .rsa then some (.rsaPss .sha256)
  else if scheme = Scheme.rsaPssSha384 ∧ kind = .rsa then some (.rsaPss .sha384)
  else if scheme = Scheme.rsaPssSha512 ∧ kind = .rsa then some (.rsaPss .sha512)
  else if scheme = Scheme.ed25519 ∧ kind = .ed25519 then some .ed25519
  else none

end EspDevkit.Crypto.Tls

/-!
## The client's handshake

The handlers of the server's messages, each allowed in the states that expect it, and
the messages that arrive in pieces.
-/

namespace EspDevkit.Crypto.Tls

open X509 (Bytes Certificate SignatureAlgorithm HashAlg)
open Fallible

variable {prim : Primitives}

/-- An answer of the cryptography below, or the failure that it becomes. -/
def orFail {α : Type} (x : Except Error α) : Step prim α := lift (x.mapError Error.toFatal)

/-- `hello_retry`. -/
def helloRetry (msg : Bytes) (group : Option ℕ) (cookie : Option Bytes) : Step prim Bool := do
  let s ← get
  require (s.retried = false) (fatal Alert.unexpectedMessage)
  modify fun s => { s with retried := true }
  let id ← lift (orFatal Alert.missingExtension group)
  let group ← lift (orFatal Alert.illegalParameter
    ((s.config.groups.find? fun g => groupId g = id).filter fun g => s.share.map Prod.fst ≠ some g))
  let first := prim.digest s.hash s.clientHello
  let messages := [HandshakeType.messageHash, 0, 0, UInt8.ofNat s.hash.len] ++ first ++ msg
  modify fun s => { s with transcript := some { kind := s.hash, messages } }
  let share ← orFail (prim.generate 1 group)
  modify fun s => { s with share := some (group, share) }
  let hello ← clientHello cookie
  record hello
  writePlain ContentType.changeCipherSpec [1] 0x0303
  writePlain ContentType.handshake hello 0x0303
  return false

/-- The rest of `server_hello`, where it is no retry. -/
def agree (msg : Bytes) (suite : CipherSuite) (keyShare : Option (ℕ × Bytes)) : Step prim Bool := do
  let (group, share) ← unwrap (← get).share
  modify fun s => { s with share := none }
  let (id, peer) ← lift (orFatal Alert.missingExtension keyShare)
  require (id = groupId group) (fatal Alert.illegalParameter)
  let shared ← lift ((prim.agree share peer).mapError fun _ => fatal Alert.illegalParameter)
  require (shared.all (· = 0) = false) (fatal Alert.illegalParameter)
  record msg
  let s ← get
  let th := (← unwrap s.transcript).current prim
  let handshake := handshakeSecret prim s.hash shared
  let client := derive prim s.hash handshake "c hs traffic" th
  let server := derive prim s.hash handshake "s hs traffic" th
  let cipher ← orFail (RecordCipher.new prim suite server)
  modify fun s => { s with readCipher := some cipher }
  let cipher ← orFail (RecordCipher.new prim suite client)
  modify fun s =>
    { s with writeCipher := some cipher, handshakeSecret := some handshake
             clientSecret := some client, serverSecret := some server, state := .encryptedExtensions }
  return true

def serverHello (msg : Bytes) : Step prim Bool := do
  let s ← get
  let hello ← lift (readServerHello s.config.cipherSuites s.sessionId s.suite msg)
  let fresh : Transcript := { kind := hello.suite.hash, messages := s.clientHello }
  modify fun s =>
    { s with suite := some hello.suite, hash := hello.suite.hash
             transcript := some (s.transcript.getD fresh) }
  if hello.retry then helloRetry msg hello.selectedGroup hello.cookie
  else agree msg hello.suite hello.keyShare

/-- The loop of `encrypted_extensions`. -/
def readExtensions : ℕ → Bytes → Step prim Unit
  | 0, _ => pure ()
  | fuel + 1, exts =>
    if exts = [] then pure ()
    else do
      let (id, data, r) ← lift (nextExtension exts)
      let s ← get
      if id = Extension.serverName ∨ id = Extension.supportedGroups then
        readExtensions fuel r
      else if id = Extension.alpn ∧ s.config.alpn ≠ [] then do
        let (list, _) ← lift (decode (vec 2 data))
        let (proto, list) ← lift (decode (vec 1 list))
        require (list = [] ∧ proto ∈ s.config.alpn) (fatal Alert.illegalParameter)
        modify fun s => { s with alpn := some proto }
        readExtensions fuel r
      else stop (fatal Alert.unsupportedExtension)

def encryptedExtensions (body : Bytes) : Step prim Unit := do
  let (exts, r) ← lift (decode (vec 2 body))
  require (r = []) (fatal Alert.decodeError)
  readExtensions exts.length exts

def certificateRequest (body : Bytes) : Step prim Unit := do
  let requested ← lift (readCertificateRequest body)
  modify fun s => { s with certificateRequested := some requested }

def Config.accepts (config : Config prim) (serverName : Option Bytes) (chain : List Bytes)
    (leaf : Certificate) : Except Error Unit :=
  match config.verify with
  | .webPki store =>
    (X509.verifyChain (fun spki => (prim.fromSpki spki).toOption) prim.verify chain store config.clock
      (serverName.map (parseName prim))).mapError Error.ofX509
  | .pinnedSpki spki =>
    if leaf.spki = spki then .ok () else .error (.certificate .unknownIssuer)
  | .custom verify => verify chain serverName
  | .none => .ok ()

def certificate (body : Bytes) : Step prim Unit := do
  let chain ← lift (readCertificate body)
  let s ← get
  let leaf ← orFail ((Certificate.parse (← unwrap chain[0]?)).mapError Error.ofX509)
  let key ← orFail (prim.fromSpki leaf.spki)
  orFail (s.config.accepts s.serverName chain leaf)
  modify fun s => { s with peerKey := some key, peerChain := chain }

def serverContext : String := "TLS 1.3, server CertificateVerify"

def certificateVerify (body : Bytes) : Step prim Unit := do
  let (scheme, signature) ← lift (readCertificateVerify body)
  let s ← get
  let key ← unwrap s.peerKey
  let alg ← lift (orFatal Alert.illegalParameter (verifyAlgorithm scheme (prim.kind key)))
  let th := (← unwrap s.transcript).current prim
  require (prim.verify key alg (signedContent serverContext th) signature = true)
    (fatal Alert.decryptError)

def clientContext : String := "TLS 1.3, client CertificateVerify"

def PrivateKey.scheme (key : PrivateKey prim) (schemes : List ℕ) : Option ℕ :=
  match key with
  | .rsa _ =>
    [Scheme.rsaPssSha256, Scheme.rsaPssSha384, Scheme.rsaPssSha512].find? fun s => schemes.contains s
  | .ecdsa .p256 _ => some Scheme.ecdsaP256Sha256
  | .ecdsa .p384 _ => some Scheme.ecdsaP384Sha384
  | .ecdsa .p521 _ => some Scheme.ecdsaP521Sha512
  | .ed25519 _ => some Scheme.ed25519

def PrivateKey.sign (key : PrivateKey prim) (scheme : ℕ) (content : Bytes) : Except Error Bytes :=
  match key with
  | .rsa key =>
    let hash : HashAlg :=
      if scheme = Scheme.rsaPssSha256 then .sha256
      else if scheme = Scheme.rsaPssSha384 then .sha384 else .sha512
    prim.sign key (.rsaPss hash) content
  | .ecdsa .p256 key => prim.sign key (.ecdsa .sha256) content
  | .ecdsa .p384 key => prim.sign key (.ecdsa .sha384) content
  | .ecdsa .p521 key => prim.sign key (.ecdsa .sha512) content
  | .ed25519 key => prim.sign key .ed25519 content

def certificateMessage (context : Bytes) (chain : List Bytes) : Bytes :=
  [HandshakeType.certificate] ++
    withLen 3 (withLen 1 context ++ withLen 3 (chain.flatMap fun cert => withLen 3 cert ++ putU16 0))

def clientCertificate (context : Bytes) (schemes : List ℕ) : Step prim Unit := do
  let s ← get
  sendHandshake (certificateMessage context (s.config.identity.elim [] Identity.chain))
  match s.config.identity.filter fun identity => identity.chain ≠ [] with
  | none => pure ()
  | some identity => do
    let scheme ← lift (orFatal Alert.handshakeFailure
      ((identity.key.scheme schemes).filter fun s => schemes.contains s))
    let th := (← unwrap (← get).transcript).current prim
    let signature ← orFail (identity.key.sign scheme (signedContent clientContext th))
    sendHandshake
      ([HandshakeType.certificateVerify] ++ withLen 3 (putU16 scheme ++ withLen 2 signature))

/-- The part of `finished` that checks the server's message and takes its keys. -/
def takeFinished (msg : Bytes) : Step prim Bytes := do
  let s ← get
  let t ← unwrap s.transcript
  let server ← unwrap s.serverSecret
  modify fun s => { s with serverSecret := none }
  let mac ← unwrap (slice 4 msg.length msg)
  require (finishedMac prim s.hash server (t.current prim) = mac) (fatal Alert.decryptError)
  record msg
  let th := (t.update msg).current prim
  let handshake ← unwrap s.handshakeSecret
  let master := masterSecret prim s.hash handshake
  let serverApp := derive prim s.hash master "s ap traffic" th
  modify fun s =>
    { s with handshakeSecret := none, exporter := some (derive prim s.hash master "exp master" th) }
  let suite ← unwrap s.suite
  let cipher ← orFail (RecordCipher.new prim suite serverApp)
  modify fun s => { s with readCipher := some cipher, serverSecret := some serverApp }
  return derive prim s.hash master "c ap traffic" th

def answerRequest : Step prim Unit := do
  let s ← get
  match s.certificateRequested with
  | none => pure ()
  | some (context, schemes) => do
    modify fun s => { s with certificateRequested := none }
    clientCertificate context schemes

def sendFinished (clientApp : Bytes) : Step prim Unit := do
  let s ← get
  let client ← unwrap s.clientSecret
  modify fun s => { s with clientSecret := none }
  let t ← unwrap s.transcript
  sendHandshake
    ([HandshakeType.finished] ++ withLen 3 (finishedMac prim s.hash client (t.current prim)))
  let suite ← unwrap s.suite
  let cipher ← orFail (RecordCipher.new prim suite clientApp)
  modify fun s =>
    { s with writeCipher := some cipher, clientSecret := some clientApp, state := .connected }

def sendEarly : Step prim Unit := do
  let s ← get
  modify fun s => { s with earlyWrites := [] }
  writeChunks ContentType.applicationData (s.earlyWrites.toChunks maxPlain)

/-- `write_plain` of the ChangeCipherSpec, which a retry sent already. -/
def sendChange : Step prim Unit := do
  let s ← get
  if s.retried = false then writePlain ContentType.changeCipherSpec [1] 0x0303 else pure ()

def finished (msg : Bytes) : Step prim Unit := do
  let clientApp ← takeFinished msg
  sendChange
  answerRequest
  sendFinished clientApp
  sendEarly

variable (prim) in
def updateSecret (kind : HashKind) (secret : Bytes) : Bytes :=
  expandSecret prim kind secret "traffic upd" []

def updateOwn (suite : CipherSuite) : Step prim Unit := do
  writeRecord ContentType.handshake [HandshakeType.keyUpdate, 0, 0, 1, 0]
  let s ← get
  let client ← unwrap s.clientSecret
  modify fun s => { s with clientSecret := none }
  let next := updateSecret prim s.hash client
  let cipher ← orFail (RecordCipher.new prim suite next)
  modify fun s => { s with writeCipher := some cipher, clientSecret := some next }

def keyUpdate (body : Bytes) : Step prim Unit := do
  require (body = [0] ∨ body = [1]) (fatal Alert.decodeError)
  let s ← get
  let suite ← unwrap s.suite
  let server ← unwrap s.serverSecret
  modify fun s => { s with serverSecret := none }
  let next := updateSecret prim s.hash server
  let cipher ← orFail (RecordCipher.new prim suite next)
  modify fun s => { s with readCipher := some cipher, serverSecret := some next }
  if body = [1] ∧ s.closing = false then updateOwn suite else pure ()

def advance (handle : Step prim Unit) (msg : Bytes) (state : State) : Step prim Bool := do
  handle
  record msg
  modify fun s => { s with state }
  return false

/-- `message`: whether it changed the read keys. -/
def message (msg : Bytes) : Step prim Bool := do
  modify fun s => { s with taken := s.taken ++ [msg] }
  let s ← get
  let ty ← unwrap msg[0]?
  let body ← unwrap (slice 4 msg.length msg)
  if s.state = .serverHello ∧ ty = HandshakeType.serverHello then serverHello msg
  else if s.state = .encryptedExtensions ∧ ty = HandshakeType.encryptedExtensions then
    advance (encryptedExtensions body) msg .certificateOrRequest
  else if s.state = .certificateOrRequest ∧ ty = HandshakeType.certificateRequest then
    advance (certificateRequest body) msg .certificate
  else if (s.state = .certificateOrRequest ∨ s.state = .certificate) ∧
      ty = HandshakeType.certificate then
    advance (certificate body) msg .certificateVerify
  else if s.state = .certificateVerify ∧ ty = HandshakeType.certificateVerify then
    advance (certificateVerify body) msg .finished
  else if s.state = .finished ∧ ty = HandshakeType.finished then do
    finished msg
    return true
  else if s.state = .connected ∧ ty = HandshakeType.newSessionTicket then return false
  else if s.state = .connected ∧ ty = HandshakeType.keyUpdate then do
    keyUpdate body
    return true
  else stop (fatal Alert.unexpectedMessage)

/-- The loop of `handshake_data`.  Each round takes some bytes of the messages. -/
def messages : ℕ → Step prim Unit
  | 0 => fault
  | fuel + 1 => do
    let s ← get
    if s.handshake.length < 4 then pure ()
    else do
      let len := LittleEndian.ofBytes (← unwrap (slice 1 4 s.handshake)).reverse
      require (len ≤ maxHandshake) (fatal Alert.decodeError)
      if s.handshake.length < 4 + len then pure ()
      else do
        let msg ← unwrap (slice 0 (4 + len) s.handshake)
        modify fun s => { s with handshake := s.handshake.drop (4 + len) }
        let keysChange ← message msg
        let s ← get
        require (¬(keysChange = true ∧ s.handshake ≠ [])) (fatal Alert.unexpectedMessage)
        messages fuel

def handshakeData (data : Bytes) : Step prim Unit := do
  modify fun s => { s with handshake := s.handshake ++ data }
  messages ((← get).handshake.length + 1)

end EspDevkit.Crypto.Tls
