import EspDevkit.Crypto.Tls.Handshake

/-!
# The connection

Bytes from the peer go into one buffer, which whole records are taken from.  A record is
decrypted where it lies, and one of application data stays there until it is read.
-/

namespace EspDevkit.Crypto.Tls

open X509 (Bytes)
open Fallible

def rxCap : ℕ := headerLen + maxCipher

structure Inner (prim : Primitives) where
  session : Session prim
  /-- The bytes of `rx` that are filled. -/
  rx : Bytes
  /-- Decrypted application data within `rx`, and where its record ends. -/
  app : ℕ × ℕ × ℕ

variable {prim : Primitives}

variable (prim) in
abbrev Move (ε α : Type) : Type := Fallible (Inner prim) ε α

def inSession {ε α : Type} (x : Fallible (Session prim) ε α) : Move prim ε α := fun c =>
  ((x c.session).1, { c with session := (x c.session).2 })

def Inner.waiting (c : Inner prim) : Bool := c.app.1 ≠ c.app.2.1

def dropRecord (stop : ℕ) : Move prim Fatal Unit := do
  let c ← get
  let rest ← unwrap (slice stop c.rx.length c.rx)
  modify fun c => { c with rx := rest }

/-- The content type of a record, its plaintext as it lies in the buffer, and where the
content ends in it. -/
def unprotect (ty : UInt8) (head body : Bytes) : Step prim (UInt8 × Bytes × ℕ) := do
  let s ← get
  match s.readCipher with
  | none => do
    require (ty ≠ ContentType.applicationData) (fatal Alert.unexpectedMessage)
    return (ty, body, body.length)
  | some cipher => do
    require (ty = ContentType.applicationData) (fatal Alert.unexpectedMessage)
    let (nonce, cipher) ← lift cipher.nonce
    modify fun s => { s with readCipher := some cipher }
    let plain ← lift (orFatal Alert.badRecordMac (cipher.openInPlace prim nonce head body))
    let last ← lift (orFatal Alert.unexpectedMessage
      ((List.range plain.length).reverse.find? fun i => plain[i]? ≠ some 0))
    require (last ≤ maxPlain) (fatal Alert.recordOverflow)
    return (← unwrap plain[last]?, plain, last)

/-- `next_record` on the alert of a record. -/
def alertRecord (body : Bytes) : Step prim Unit := do
  let code ← unwrap body[1]?
  if code = Alert.closeNotify then modify fun s => { s with peerClosed := true }
  else
    let error := if code = Alert.userCanceled then Error.closed else .alert code
    stop { alert := Alert.closeNotify, error }

/-- `next_record` on a record that is all there: what its content type asks for. -/
def takeRecord (content : UInt8) (plainEnd stop : ℕ) : Move prim Fatal Unit := do
  let c ← get
  require (content = ContentType.handshake ∨ c.session.handshake = []) (fatal Alert.unexpectedMessage)
  if content = ContentType.handshake then do
    require (headerLen ≠ plainEnd) (fatal Alert.unexpectedMessage)
    let data ← unwrap (slice headerLen plainEnd c.rx)
    dropRecord stop
    inSession (handshakeData data)
  else if content = ContentType.alert then do
    let body ← unwrap (slice headerLen plainEnd c.rx)
    require (body.length = 2) (fatal Alert.decodeError)
    dropRecord stop
    inSession (alertRecord body)
  else if content = ContentType.applicationData then do
    require (c.session.state = .connected) (fatal Alert.unexpectedMessage)
    if headerLen = plainEnd then dropRecord stop
    else modify fun c => { c with app := (headerLen, plainEnd, stop) }
  else Fallible.stop (fatal Alert.unexpectedMessage)

/-- `next_record`: whether a whole record was buffered. -/
def nextRecord : Move prim Fatal Bool := do
  let c ← get
  if c.rx.length < headerLen then return false
  else do
    let head ← unwrap (slice 0 headerLen c.rx)
    let ty ← unwrap head[0]?
    let len := LittleEndian.ofBytes (← unwrap (slice 3 5 head)).reverse
    require (len ≤ maxCipher) (fatal Alert.recordOverflow)
    if c.rx.length < headerLen + len then return false
    else do
      let stop := headerLen + len
      let body ← unwrap (slice headerLen stop c.rx)
      if ty = ContentType.changeCipherSpec then do
        require (c.session.state ≠ .connected ∧ body = [1]) (fatal Alert.unexpectedMessage)
        dropRecord stop
        return true
      else do
        let (content, plain, last) ← inSession (unprotect ty head body)
        modify fun c => { c with rx := head ++ plain ++ c.rx.drop (headerLen + plain.length) }
        takeRecord content (headerLen + last) stop
        return true

/-- `fail`, on the connection. -/
def Inner.fail (c : Inner prim) (f : Fatal) : Inner prim :=
  { c with session := c.session.fail f }

/-- The loop of `process`.  Each round takes some bytes of the buffer or leaves some to
read. -/
def processLoop : ℕ → Move prim Error Unit
  | 0 => fault
  | fuel + 1 => fun c =>
    if c.waiting ∨ c.session.peerClosed then (.ok (), c)
    else
      match nextRecord c with
      | (.ok true, c) => processLoop fuel c
      | (.ok false, c) => (.ok (), c)
      | (.error (.error f), c) => (.error (.error f.error), c.fail f)
      | (.error .fault, c) => (.error .fault, c)

def process : Move prim Error Unit := do
  let c ← get
  match c.session.failed with
  | some e => stop e
  | none => processLoop (c.rx.length + 1)

/-- `commit_rx`, of bytes that were written to `rx_space`. -/
def commitRx (bytes : Bytes) : Move prim Error Unit := do
  modify fun c => { c with rx := c.rx ++ bytes.take (rxCap - c.rx.length) }
  process

/-- `receive`: how many bytes fitted. -/
def receive (data : Bytes) : Move prim Error ℕ := do
  let c ← get
  commitRx data
  return min (rxCap - c.rx.length) data.length

/-- The part of `read` that copies out. -/
def copyOut (room : ℕ) : Move prim Error Bytes := do
  let c ← get
  let (start, plainEnd, stop) := c.app
  let data ← unwrap (slice start plainEnd c.rx)
  let n := min room data.length
  if start + n = plainEnd then do
    let rest ← unwrap (slice stop c.rx.length c.rx)
    modify fun c => { c with rx := rest, app := (0, 0, 0) }
    return data.take n
  else do
    modify fun c => { c with app := (start + n, plainEnd, stop) }
    return data.take n

def processUnlessWaiting : Move prim Error Unit := do
  let c ← get
  if c.waiting then pure () else process

/-- `read`, into so much room. -/
def read (room : ℕ) : Move prim Error Bytes := do
  processUnlessWaiting
  let c ← get
  match c.session.failed, c.waiting with
  | some e, false => stop e
  | _, _ => copyOut room

def writeAll : Bytes → Fallible (Session prim) Error Unit := fun data s =>
  match writeRecord ContentType.applicationData data s with
  | (.ok _, s) => (.ok (), s)
  | (.error (.error f), s) => (.error (.error f.error), s)
  | (.error .fault, s) => (.error .fault, s)

def write (data : Bytes) : Move prim Error Unit := do
  let c ← get
  match c.session.failed with
  | some e => stop e
  | none =>
    if c.session.closing then stop .closed
    else if c.session.state ≠ .connected then
      modify fun c =>
        { c with session := { c.session with earlyWrites := c.session.earlyWrites ++ data } }
    else inSession (writeAll data)

/-- `close`, which leaves out what it cannot write. -/
def close : Move prim Error Unit := do
  let c ← get
  if c.session.closing = false ∧ c.session.failed = none then
    modify fun c =>
      let closing : Session prim := { c.session with closing := true }
      { c with session := (writeRecord ContentType.alert [1, Alert.closeNotify] closing).2 }
  else pure ()

def consumeTx (n : ℕ) : Move prim Error Unit :=
  modify fun c => { c with session := { c.session with tx := c.session.tx.drop n } }

/-- `Connection::client`, with the random bytes it draws. -/
def client (config : Config prim) (serverName : Option Bytes) (sessionId random : Bytes) :
    Except Error (Inner prim) :=
  match config.groups, config.cipherSuites with
  | [], _ | _, [] => .error .handshakeFailure
  | group :: _, _ :: _ => do
    let share ← prim.generate 0 group
    let pubkey ← prim.exportPublic share
    let hello := buildClientHello config serverName random sessionId group pubkey none
    return {
      session := {
        config, serverName, state := .serverHello, failed := none
        tx := plainRecord ContentType.handshake hello 0x0301
        earlyWrites := [], handshake := [], readCipher := none, writeCipher := none, suite := none
        hash := .sha256, transcript := none, clientHello := hello, sessionId, random
        share := some (group, share), retried := false, handshakeSecret := none
        clientSecret := none, serverSecret := none, exporter := none, certificateRequested := none
        peerChain := [], peerKey := none, alpn := none, peerClosed := false, closing := false
        taken := [] }
      rx := [], app := (0, 0, 0) }

inductive Call
  | commitRx (bytes : Bytes)
  | receive (data : Bytes)
  | read (room : ℕ)
  | write (data : Bytes)
  | close
  | consumeTx (n : ℕ)

def Call.move : Call → Move prim Error Bytes
  | .commitRx bytes => do
    Tls.commitRx bytes
    return []
  | .receive data => do
    let _ ← Tls.receive data
    return []
  | .read room => Tls.read room
  | .write data => do
    Tls.write data
    return []
  | .close => do
    Tls.close
    return []
  | .consumeTx n => do
    Tls.consumeTx n
    return []

def Inner.run (c : Inner prim) (calls : List Call) : Inner prim :=
  calls.foldl (fun c call => (call.move c).2) c

end EspDevkit.Crypto.Tls
