import EspDevkit.Net.TcpInput

/-!
# TCP calls and timers

What applications, ICMP errors, the links and the clock do to a connection,
and one step of a connection in its slot.
-/

namespace EspDevkit.Net

open SerialNumber

variable {Host : Type} [TcpHost Host]

/-- The result of `tcp_read` and `tcp_write`; `none` tells to wait. -/
abbrev CallResult (α : Type) := Option (Except Error α)

/-- `none` when nothing can be read yet; no bytes at the end of the stream. -/
def tcpRead (host : Host) (tcb : Tcb) (room : ℕ) (now : Instant) :
    Host × Tcb × CallResult (List UInt8) :=
  if 0 < tcb.rx.len then
    let (rx, bytes) := tcb.rx.pop (min room tcb.rx.len) room
    let tcb := { tcb with rx }
    if tcb.state.synchronized then
      let host := TcpHost.observe host tcb.windowGrewCall
      if tcb.windowGrew then
        let (host, tcb) := answer host tcb now
        (host, tcb, some (.ok bytes))
      else (host, tcb, some (.ok bytes))
    else (host, tcb, some (.ok bytes))
  else if tcb.finReceived then (host, tcb, some (.ok []))
  else if tcb.state = .closed then
    (host, tcb, some (tcb.error.elim (.ok []) .error))
  else (host, tcb, none)

/-- `none` when the send buffer is full. -/
def tcpWrite (host : Host) (tcb : Tcb) (data : List UInt8) (now : Instant) :
    Host × Tcb × CallResult ℕ :=
  match tcb.error with
  | some error => (host, tcb, some (.error error))
  | none =>
    if tcb.finQueued ∨ ¬ (tcb.state = .established ∨ tcb.state = .closeWait) then
      (host, tcb, some (.error .brokenPipe))
    else
      let (tx, n) := tcb.tx.push (TcpHost.fits host) data
      let tcb := { tcb with tx }
      if n = 0 then
        (host, tcb, if tcb.tx.len = 0 then some (.error .noMemory) else none)
      else
        let (host, tcb) := tcpOutput host tcb now
        (host, tcb, some (.ok n))

def tcpShutdown (host : Host) (tcb : Tcb) (now : Instant) : Host × Tcb :=
  if tcb.finQueued then (host, tcb) else
  match tcb.state with
  | .synSent => (host, tcb.closeWith none)
  | .synReceived | .established =>
    tcpOutput host { tcb with state := .finWait1, finQueued := true } now
  | .closeWait => tcpOutput host { tcb with state := .lastAck, finQueued := true } now
  | _ => (host, tcb)

def tcpAbort (host : Host) (tcb : Tcb) (now : Instant) : Host × Tcb :=
  let (host, tcb) :=
    if tcb.state.synchronized ∨ tcb.state = .synReceived then
      let (host, tcb, _) := sendTcp host tcb tcb.sndNxt { rst := true, ack := true } 0 0 now
      (host, tcb)
    else (host, tcb)
  (host, tcb.closeWith none)

/-- The application lets go of the connection; it closes in the background, or
with a reset if received data was left unread. -/
def tcpRelease (host : Host) (tcb : Tcb) (now : Instant) : Host × Tcb :=
  let tcb := { tcb with released := true }
  if 0 < tcb.rx.len ∨ tcb.state = .synSent then tcpAbort host tcb now
  else
    let (host, tcb) := tcpShutdown host tcb now
    if tcb.state = .finWait2 ∧ tcb.closeAt.isNone then
      (host, { tcb with closeAt := some (now.plus finWait2Time) })
    else (host, tcb)

/-- `tcp_unlisten` for a connection not accepted yet. -/
def tcpUnlisten (host : Host) (tcb : Tcb) (now : Instant) : Host × Tcb :=
  tcpAbort host { tcb with released := true, listener := none } now

/-- What an ICMP error says about a connection. -/
inductive Reported
  /-- Port or protocol unreachable: nobody is there. -/
  | refused
  /-- Anything else; the peer may still answer later. -/
  | unreachable
  deriving DecidableEq, Repr

def Reported.toError : Reported → Error
  | .refused => .connectionRefused
  | .unreachable => .hostUnreachable

def tcpIcmpError (tcb : Tcb) (seq : Seq) (reported : Reported) : Tcb :=
  if ¬ (le tcb.sndUna seq ∧ lt seq tcb.sndMax) then tcb
  else if tcb.state = .synSent ∧ reported = .refused then
    tcb.closeWith (some .connectionRefused)
  else { tcb with softError := some reported.toError }

def due (timer : Option Instant) (now : Instant) : Bool :=
  timer.any fun t => decide (t ≤ now)

def retransmitTimeout (tcb : Tcb) (now : Instant) : Tcb :=
  let rto := min (tcb.rto * 2) rtoMax
  { tcb with
    retries := tcb.retries + 1
    rto
    ssthresh := max (tcb.inFlight / 2) (2 * tcb.sndMss)
    cwnd := tcb.sndMss
    dupacks := 0
    recover := none
    rttSample := none
    sndNxt := tcb.sndUna
    finSent := false
    retransmitAt := some (now.plus rto) }

def retriesExhausted (tcb : Tcb) : Bool :=
  decide ((if tcb.state.synchronized then maxRetries else maxSynRetries) < tcb.retries + 1)

/-- The connection is given up after too many retransmissions. -/
def giveUp (tcb : Tcb) : Tcb :=
  let timeout := if tcb.state = .synSent then Error.timedOut else .connectionAborted
  { tcb with
    retries := tcb.retries + 1
    released := tcb.released || tcb.listener.isSome }.closeWith
    (some (tcb.softError.getD timeout))

def ackAndPersistTimers (tcb : Tcb) (now : Instant) : Tcb :=
  let tcb := if due tcb.ackAt now then { tcb with ackNow := true } else tcb
  if due tcb.persistAt now then
    { tcb with persistAt := none, probe := decide (0 < tcb.unsent) }
  else tcb

def keepaliveTimer (host : Host) (tcb : Tcb) (now : Instant) : Host × Tcb :=
  if due tcb.keepaliveAt now then
    if maxKeepaliveProbes ≤ tcb.keepaliveProbes then
      (host, tcb.closeWith (some (tcb.softError.getD .timedOut)))
    else
      let tcb := { tcb with keepaliveProbes := tcb.keepaliveProbes + 1 }
      let (host, tcb, _) := sendTcp host tcb (tcb.sndUna - 1) { ack := true } 0 0 now
      tcpOutput host tcb now
  else tcpOutput host tcb now

def tcpTimers (host : Host) (tcb : Tcb) (now : Instant) : Host × Tcb :=
  if due tcb.closeAt now then (host, tcb.closeWith none)
  else if due tcb.retransmitAt now then
    if retriesExhausted tcb then (host, giveUp tcb)
    else keepaliveTimer host (ackAndPersistTimers (retransmitTimeout tcb now) now) now
  else keepaliveTimer host (ackAndPersistTimers tcb now) now

/-- What `tcp_poll` does with one connection. -/
def tcpPollOne (host : Host) (tcb : Tcb) (now : Instant) : Host × Tcb :=
  if due tcb.deadline now then tcpTimers host tcb now else (host, tcb)

/-- `tcp_link_ready` for one connection. -/
def tcpLinkReady (host : Host) (tcb : Tcb) (now : Instant) : Host × Tcb :=
  if tcb.linkRetryAt.isSome then tcpOutput host tcb now else (host, tcb)

/-- `with_tcb` gives up the buffers of a released connection in TIME-WAIT. -/
def dropBuffers (tcb : Tcb) : Tcb :=
  if tcb.state = .timeWait ∧ tcb.released ∧ 0 < tcb.rx.capacity + tcb.tx.capacity then
    { tcb with rx := .new 0, tx := .new 0 }
  else tcb

/-- `with_tcb` frees the slot of a released connection that has closed. -/
def Tcb.freed (tcb : Tcb) : Bool :=
  decide (tcb.state = .closed) && tcb.released

/-- `tcp_connect`: the connection before its first output. -/
def Tcb.connecting (localAddr remoteAddr : SocketAddrV4) (buffers : Buffers)
    (rcvMss : ℕ) (iss : Seq) : Tcb :=
  { Tcb.new localAddr remoteAddr .synSent buffers rcvMss iss with cwnd := rcvMss }

/-- `tcp_passive_open`: a listener's connection before its first output. -/
def Tcb.accepting (listener : ℕ) (localAddr remoteAddr : SocketAddrV4) (buffers : Buffers)
    (rcvMss : ℕ) (iss : Seq) (syn : Segment) : Tcb :=
  { Tcb.new localAddr remoteAddr .synReceived buffers rcvMss iss with
    listener := some listener }.onSyn syn

inductive Input
  | segment (seg : Segment)
  | read (room : ℕ)
  | write (data : List UInt8)
  | shutdown
  | release
  | accept
  | unlisten
  | setNodelay (nodelay : Bool)
  | setKeepalive (idle : Option Duration)
  | icmpError (seq : Seq) (reported : Reported)
  | linkReady
  | poll
  deriving DecidableEq

inductive Reply
  | none
  | read (result : CallResult (List UInt8))
  | write (result : CallResult ℕ)
  deriving DecidableEq

/-- Whether an input can come at all: segments find only connections that are
not closed, an application calls only what it has and holds on to, and it
reads into a buffer that is not empty. -/
def Input.possible (tcb : Tcb) : Input → Bool
  | .segment _ | .icmpError _ _ => decide (tcb.state ≠ .closed)
  | .read room => !tcb.released && tcb.listener.isNone && decide (0 < room)
  | .write _ | .shutdown | .release | .setNodelay _ | .setKeepalive _ =>
    !tcb.released && tcb.listener.isNone
  | .accept => tcb.listener.isSome && decide (tcb.state ≠ .synReceived)
  | .unlisten => tcb.listener.isSome
  | .linkReady | .poll => true

/-- What an input does, inside `with_tcb`. -/
def Input.act (host : Host) (id : ℕ) (tcb : Tcb) (now : Instant) :
    Input → Host × Tcb × Reply
  | .segment seg =>
    let (host, tcb) := tcpProcess host id tcb seg now
    (host, tcb, .none)
  | .read room =>
    let (host, tcb, result) := tcpRead host tcb room now
    (host, tcb, .read result)
  | .write data =>
    let (host, tcb, result) := tcpWrite host tcb data now
    (host, tcb, .write result)
  | .shutdown =>
    let (host, tcb) := tcpShutdown host tcb now
    (host, tcb, .none)
  | .release =>
    let (host, tcb) := tcpRelease host tcb now
    (host, tcb, .none)
  | .accept => (host, { tcb with listener := none }, .none)
  | .unlisten =>
    let (host, tcb) := tcpUnlisten host tcb now
    (host, tcb, .none)
  | .setNodelay nodelay => (host, { tcb with nodelay }, .none)
  | .setKeepalive idle => (host, { tcb with keepalive := idle, keepaliveProbes := 0 }, .none)
  | .icmpError seq reported => (host, tcpIcmpError tcb seq reported, .none)
  | .linkReady =>
    let (host, tcb) := tcpLinkReady host tcb now
    (host, tcb, .none)
  | .poll =>
    let (host, tcb) := tcpPollOne host tcb now
    (host, tcb, .none)

/-- Whether the input runs inside `with_tcb`; `tcp_accept` and the options are
set on the connection in its slot. -/
def Input.inWithTcb : Input → Bool
  | .accept | .setNodelay _ | .setKeepalive _ => false
  | _ => true

def Tcb.step (host : Host) (id : ℕ) (tcb : Tcb) (now : Instant) (input : Input) :
    Host × Tcb × Reply :=
  let (host, tcb, reply) := input.act host id tcb now
  (host, if input.inWithTcb then dropBuffers tcb else tcb, reply)

end EspDevkit.Net
