import EspDevkit.Net.Assembler
import EspDevkit.Net.Ring
import EspDevkit.Net.Segment

/-!
# The TCP control block

One connection's state and the functions that only touch it.  Sequence numbers
are 32 bits wide and wrap; windows, sizes and counters are natural numbers, in
the ranges of the unsigned types that hold them on a device, where `usize` has
32 bits and arithmetic that leaves its type aborts.
-/

namespace EspDevkit.Net

open SerialNumber

def defaultMss : ℕ := 536
def rtoInitial : Duration := .fromSecs 1
def rtoMin : Duration := .fromMillis 200
def rtoMax : Duration := .fromSecs 60
def maxRetries : ℕ := 12
def maxSynRetries : ℕ := 7
def delayedAck : Duration := .fromMillis 40
def timeWaitTime : Duration := .fromSecs 60
def finWait2Time : Duration := .fromSecs 60
def keepaliveInterval : Duration := .fromSecs 75
def maxKeepaliveProbes : ℕ := 9
def linkRetry : Duration := .fromMillis 1

def usizeMax : ℕ := 2 ^ 32 - 1

def initialWindow (mss : ℕ) : ℕ :=
  min (4 * mss) (max (2 * mss) 4380)

/-- Whether `n` of the `unsent` bytes go out now: RFC 1122 4.2.3.4 (sender
silly window avoidance) and Nagle.  `forced` is the override timer firing. -/
def worthSending (n unsent mss maxWindow inFlight : ℕ) (nodelay forced : Bool) : Bool :=
  if n = 0 then false
  else if mss ≤ n ∨ forced then true
  else if n = unsent then decide (inFlight = 0) || nodelay
  else decide (maxWindow ≤ n * 2)

inductive State
  | synSent
  | synReceived
  | established
  | finWait1
  | finWait2
  | closeWait
  | closing
  | lastAck
  | timeWait
  | closed
  deriving DecidableEq, Repr

def State.synchronized : State → Bool
  | .synSent | .synReceived | .closed => false
  | _ => true

/-- The buffer sizes of a connection, as `usize`. -/
structure Buffers where
  rx : ℕ
  tx : ℕ
  rx_lt : rx < 2 ^ 32
  tx_lt : tx < 2 ^ 32
  deriving DecidableEq, Repr

theorem Buffers.sixtyFour_lt : 64 < 2 ^ 32 := by decide

structure Tcb where
  state : State
  localAddr : SocketAddrV4
  remoteAddr : SocketAddrV4
  listener : Option ℕ
  released : Bool
  error : Option Error
  /-- From an ICMP error; reported if the connection times out. -/
  softError : Option Error
  rx : Ring
  tx : Ring
  assembler : Assembler

  iss : Seq
  sndUna : Seq
  sndNxt : Seq
  sndMax : Seq
  txBase : Seq
  sndWnd : ℕ
  sndWl1 : Seq
  sndWl2 : Seq
  rcvNxt : Seq
  rcvAdv : Seq
  sndMss : ℕ
  rcvMss : ℕ
  sndScale : ℕ
  rcvScale : ℕ
  scaling : Bool
  finQueued : Bool
  finSent : Bool
  finSeq : Option Seq
  finReceived : Bool

  rto : Duration
  srtt : Option Duration
  rttvar : Duration
  rttSample : Option (Seq × Instant)
  retransmitAt : Option Instant
  retries : ℕ
  ackAt : Option Instant
  ackNow : Bool
  unackedSegments : ℕ
  probe : Bool
  persistAt : Option Instant
  /-- Set while output waits for the link to have room. -/
  linkRetryAt : Option Instant
  maxWindow : ℕ
  lastSent : Instant
  keepalive : Option Duration
  heard : Instant
  keepaliveProbes : ℕ
  closeAt : Option Instant

  cwnd : ℕ
  ssthresh : ℕ
  dupacks : ℕ
  recover : Option Seq
  nodelay : Bool
  deriving Repr

namespace Tcb

/-- The smallest window scale that covers the receive buffer. -/
def scaleFor (rx : ℕ) : ℕ :=
  ((List.range (maxWindowScale + 1)).find? fun s => decide (rx >>> s ≤ 0xffff)).getD
    maxWindowScale

def new (localAddr remoteAddr : SocketAddrV4) (state : State) (buffers : Buffers)
    (rcvMss : ℕ) (iss : Seq) : Tcb :=
  { state, localAddr, remoteAddr
    listener := none
    released := false
    error := none
    softError := none
    rx := .new buffers.rx
    tx := .new buffers.tx
    assembler := .empty
    iss
    sndUna := iss
    sndNxt := iss
    sndMax := iss
    txBase := iss + 1
    sndWnd := 0
    sndWl1 := 0
    sndWl2 := 0
    rcvNxt := 0
    rcvAdv := 0
    sndMss := defaultMss
    rcvMss
    sndScale := 0
    rcvScale := scaleFor buffers.rx
    scaling := false
    finQueued := false
    finSent := false
    finSeq := none
    finReceived := false
    rto := rtoInitial
    srtt := none
    rttvar := 0
    rttSample := none
    retransmitAt := none
    retries := 0
    ackAt := none
    ackNow := false
    unackedSegments := 0
    probe := false
    persistAt := none
    linkRetryAt := none
    maxWindow := 0
    lastSent := 0
    keepalive := none
    heard := 0
    keepaliveProbes := 0
    closeAt := none
    cwnd := 0
    ssthresh := usizeMax
    dupacks := 0
    recover := none
    nodelay := false }

def inFlight (t : Tcb) : ℕ := (t.sndNxt - t.sndUna).toNat

def advance (t : Tcb) (target : Seq) : Tcb :=
  { t with
    sndNxt := target
    sndMax := if lt t.sndMax target then target else t.sndMax }

/-- Data queued but never sent. -/
def unsent (t : Tcb) : ℕ :=
  if t.finSent then 0
  else if lt t.sndNxt t.txBase then t.tx.len
  else t.tx.len - (t.sndNxt - t.txBase).toNat

def onSyn (t : Tcb) (seg : Segment) : Tcb :=
  let sndMss := max 64 (min (seg.mss.elim defaultMss BitVec.toNat) (max t.rcvMss 64))
  { t with
    rcvNxt := seg.seq + 1
    rcvAdv := seg.seq + 1
    sndMss
    scaling := seg.windowScale.isSome
    sndScale := seg.windowScale.elim t.sndScale Fin.val
    rcvScale := if seg.windowScale.isSome then t.rcvScale else 0
    sndWnd := seg.window.toNat
    sndWl1 := seg.seq
    sndWl2 := seg.ack
    cwnd := initialWindow sndMss
    maxWindow := seg.window.toNat }

/-- By how much the right edge of the window must move to be worth it. -/
def windowStep (t : Tcb) : ℕ := min (t.rx.capacity / 2) t.rcvMss

/-- The window to advertise, in bytes, moving the right edge only by a
worthwhile step. -/
def window (t : Tcb) : Tcb × ℕ :=
  let rcvAdv := if lt t.rcvAdv t.rcvNxt then t.rcvNxt else t.rcvAdv
  let free := min t.rx.free (0xffff <<< t.rcvScale)
  let current := (rcvAdv - t.rcvNxt).toNat
  if current + t.windowStep ≤ free then
    ({ t with rcvAdv := t.rcvNxt + BitVec.ofNat 32 free }, free)
  else
    ({ t with rcvAdv }, current)

def windowGrew (t : Tcb) : Bool :=
  let current := (t.rcvAdv - t.rcvNxt).toNat
  decide (current + t.windowStep ≤ t.rx.free)

def sampleRtt (t : Tcb) (rtt : Duration) : Tcb :=
  let (srtt, rttvar) :=
    match t.srtt with
    | none => (rtt, rtt / 2)
    | some srtt =>
      let delta := if rtt < srtt then srtt - rtt else rtt - srtt
      ((srtt * 7 + rtt) / 8, (t.rttvar * 3 + delta) / 4)
  { t with
    srtt := some srtt
    rttvar
    rto := max rtoMin (min (srtt + max (rttvar * 4) (.fromMillis 10)) rtoMax) }

/-- Takes the pending sample, as `rtt_sample.take()` does. -/
def takeSample (t : Tcb) (now : Instant) : Tcb :=
  match t.rttSample with
  | none => t
  | some (_, sent) => { t with rttSample := none }.sampleRtt (now.since sent)

def closeWith (t : Tcb) (error : Option Error) : Tcb :=
  { t with
    state := .closed
    error := t.error.or error
    retransmitAt := none
    ackAt := none
    persistAt := none
    closeAt := none }

/-- When to probe an idle connection next, or give it up. -/
def keepaliveAt (t : Tcb) : Option Instant :=
  t.keepalive.bind fun idle =>
    let quiet := (decide (t.state = .established) || decide (t.state = .closeWait)) &&
      decide (t.sndUna = t.sndMax) && decide (t.unsent = 0)
    if quiet then
      some ((t.heard.plus idle).plus (keepaliveInterval * t.keepaliveProbes))
    else none

def deadline (t : Tcb) : Option Instant :=
  ([t.retransmitAt, t.ackAt, t.persistAt, t.closeAt, t.linkRetryAt,
    t.keepaliveAt].filterMap id).min?

end Tcb

end EspDevkit.Net

/-!
## TCP output

Sending segments of one connection.  The stack the connection lives in, its
links and its allocator are a `TcpHost`: what the TCP code asks of them, in the
order it asks.
-/

namespace EspDevkit.Net

open SerialNumber

/-- A call of `window()` or `window_grew()`: the bytes of the window still open
as `current` has them there, the room of the ring and the step asked for. -/
structure EdgeCall where
  current : ℕ
  free : ℕ
  step : ℕ
  deriving DecidableEq, Repr

/-- In `window()` an edge that data went past has been moved up to it. -/
def Tcb.windowCall (t : Tcb) : EdgeCall :=
  { current := ((if lt t.rcvAdv t.rcvNxt then t.rcvNxt else t.rcvAdv) - t.rcvNxt).toNat
    free := t.rx.free
    step := t.windowStep }

def Tcb.windowGrewCall (t : Tcb) : EdgeCall :=
  { current := (t.rcvAdv - t.rcvNxt).toNat, free := t.rx.free, step := t.windowStep }

class TcpHost (Host : Type) where
  /-- `send_ipv4` with a TCP segment. -/
  sendIpv4 : Host → Datagram → Instant → Host × Except Error Unit
  /-- A connection of a listener is ready to be accepted. -/
  ready : Host → (listener id : ℕ) → Host
  /-- What the allocator answers to a request for so many bytes. -/
  fits : Host → ℕ → Bool
  /-- Told of every call of `window()` and `window_grew()`; does nothing in the
  source. -/
  observe : Host → EdgeCall → Host

variable {Host : Type} [TcpHost Host]

/-- The segment `send_tcp` has `send_ipv4` fill in: `len` bytes of the send
buffer from `offset`, zeros where it holds none, and the window `advertised`
in the unit the flags call for. -/
def Tcb.datagram (tcb : Tcb) (seq : Seq) (flags : Flags) (offset len advertised : ℕ) :
    Datagram :=
  let window :=
    if flags.syn then min advertised 0xffff
    else min advertised (0xffff <<< tcb.rcvScale) >>> tcb.rcvScale
  let offerScale := decide (tcb.state = .synSent) || tcb.scaling
  let copied := tcb.tx.readAt offset len
  { src := tcb.localAddr
    dst := tcb.remoteAddr
    seq
    ack := if flags.ack then tcb.rcvNxt else 0
    flags
    window := BitVec.ofNat 16 window
    options :=
      if flags.syn then
        some
          { mss := BitVec.ofNat 16 tcb.rcvMss
            scale := if offerScale then some tcb.rcvScale else none }
      else none
    data := copied ++ List.replicate (len - copied.length) 0 }

/-- `false` when the link had no room; anything else counts as sent and is up
to retransmission. -/
def sendTcp (host : Host) (tcb : Tcb) (seq : Seq) (flags : Flags) (offset len : ℕ)
    (now : Instant) : Host × Tcb × Bool :=
  let host := TcpHost.observe host tcb.windowCall
  let (tcb, advertised) := tcb.window
  match TcpHost.sendIpv4 host (tcb.datagram seq flags offset len advertised) now with
  | (host, .error .wouldBlock) => (host, tcb, false)
  | (host, _) =>
    let tcb :=
      if flags.ack then { tcb with ackNow := false, ackAt := none, unackedSegments := 0 }
      else tcb
    (host, if 0 < len then { tcb with lastSent := now } else tcb, true)

def sendReset (host : Host) (localAddr remoteAddr : SocketAddrV4) (seg : Segment)
    (now : Instant) : Host :=
  let datagram : Datagram :=
    { src := localAddr
      dst := remoteAddr
      seq := if seg.flags.ack then seg.ack else 0
      ack := if seg.flags.ack then 0 else seg.seq + BitVec.ofNat 32 seg.len
      flags := { rst := true, ack := !seg.flags.ack }
      window := 0
      options := none
      data := [] }
  (TcpHost.sendIpv4 host datagram now).1

def retransmitFirst (host : Host) (tcb : Tcb) (now : Instant) : Host × Tcb :=
  let offset := (tcb.sndUna - tcb.txBase).toNat
  let n := min (tcb.tx.len - offset) tcb.sndMss
  if 0 < n then
    let (host, tcb, _) := sendTcp host tcb tcb.sndUna { ack := true } offset n now
    (host, { tcb with rttSample := none })
  else (host, tcb)

def outputSyn (host : Host) (tcb : Tcb) (now : Instant) : Host × Tcb :=
  if tcb.sndNxt = tcb.iss then
    let flags : Flags :=
      if tcb.state = .synSent then { syn := true } else { syn := true, ack := true }
    match sendTcp host tcb tcb.iss flags 0 0 now with
    | (host, tcb, false) => (host, { tcb with linkRetryAt := some (now.plus linkRetry) })
    | (host, tcb, true) =>
      let tcb := tcb.advance (tcb.iss + 1)
      (host,
        { tcb with
          rttSample := if tcb.retries = 0 then some (tcb.iss, now) else tcb.rttSample
          retransmitAt := some (tcb.retransmitAt.getD (now.plus tcb.rto)) })
  else (host, tcb)

def Tcb.nextSend (tcb : Tcb) : ℕ × Bool :=
  let window := min tcb.sndWnd tcb.cwnd - tcb.inFlight
  let allowed := if tcb.probe then max window 1 else window
  let n := min (min tcb.unsent tcb.sndMss) allowed
  (n, tcb.finQueued && decide (n = tcb.unsent))

/-- What a pass of the output loop records once the segment is out. -/
def Tcb.recordSent (tcb : Tcb) (n : ℕ) (fin : Bool) (now : Instant) : Tcb :=
  let sent :=
    { tcb with
      rttSample := if tcb.rttSample.isNone ∧ 0 < n then some (tcb.sndNxt, now) else tcb.rttSample
      finSeq := if fin then some (tcb.sndNxt + BitVec.ofNat 32 n) else tcb.finSeq }
  { sent.advance (tcb.sndNxt + BitVec.ofNat 32 (n + fin.toNat)) with
    finSent := tcb.finSent || fin
    probe := false
    retransmitAt := some (tcb.retransmitAt.getD (now.plus tcb.rto)) }

/-- The `while !tcb.fin_sent` loop; the flag tells that it ran to its end, not
into a link without room. -/
def outputLoop (now : Instant) : ℕ → Host → Tcb → Host × Tcb × Bool
  | 0, host, tcb => (host, tcb, true)
  | fuel + 1, host, tcb =>
    if tcb.finSent then (host, tcb, true) else
    let offset := (tcb.sndNxt - tcb.txBase).toNat
    let (n, fin) := tcb.nextSend
    if !fin && !worthSending n tcb.unsent tcb.sndMss tcb.maxWindow tcb.inFlight tcb.nodelay
        tcb.probe then
      (host, tcb, true)
    else
      let flags : Flags := { ack := true, psh := decide (0 < n ∧ n = tcb.unsent), fin }
      match sendTcp host tcb tcb.sndNxt flags offset n now with
      | (host, tcb, false) =>
        (host, { tcb with linkRetryAt := some (now.plus linkRetry) }, false)
      | (host, tcb, true) => outputLoop now fuel host (tcb.recordSent n fin now)

/-- Passes enough for the loop to end: every pass but the probe and the FIN
moves the window's worth of bytes in flight forward. -/
def Tcb.outputFuel (tcb : Tcb) : ℕ := min tcb.sndWnd tcb.cwnd + 3

def outputAck (host : Host) (tcb : Tcb) (now : Instant) : Host × Tcb :=
  if tcb.ackNow then
    match sendTcp host tcb tcb.sndNxt { ack := true } 0 0 now with
    | (host, tcb, false) => (host, { tcb with linkRetryAt := some (now.plus linkRetry) })
    | (host, tcb, true) => (host, tcb)
  else (host, tcb)

def armPersist (tcb : Tcb) (now : Instant) : Tcb :=
  if 0 < tcb.unsent ∧ tcb.inFlight = 0 ∧ tcb.persistAt.isNone then
    { tcb with persistAt := some (now.plus tcb.rto) }
  else tcb

def restartIdle (tcb : Tcb) (now : Instant) : Tcb :=
  if tcb.inFlight = 0 ∧ 0 < tcb.unsent ∧ tcb.rto < now.since tcb.lastSent then
    { tcb with cwnd := min tcb.cwnd (initialWindow tcb.sndMss) }
  else tcb

def outputData (host : Host) (tcb : Tcb) (now : Instant) : Host × Tcb :=
  let tcb := restartIdle tcb now
  match outputLoop now tcb.outputFuel host tcb with
  | (host, tcb, false) => (host, tcb)
  | (host, tcb, true) =>
    let (host, tcb) := outputAck host tcb now
    (host, armPersist tcb now)

def tcpOutput (host : Host) (tcb : Tcb) (now : Instant) : Host × Tcb :=
  let tcb := { tcb with linkRetryAt := none }
  match tcb.state with
  | .closed => (host, tcb)
  | .synSent | .synReceived => outputSyn host tcb now
  | _ => outputData host tcb now

inductive PortEvent
  | edge (call : EdgeCall)
  | sent (datagram : Datagram)
  deriving DecidableEq, Repr

structure Port where
  /-- Whether the link has no room for the next frames; it has for those after
  the list. -/
  refusals : List Bool := []
  fits : ℕ → Bool := fun _ => true
  events : List PortEvent := []

/-- A host with a record of what it saw.  A segment counts as sent unless the
link had no room for it. -/
class RecordingHost (Host : Type) extends TcpHost Host where
  events : Host → List PortEvent
  events_refused : ∀ (host : Host) (datagram : Datagram) (now : Instant),
    (TcpHost.sendIpv4 host datagram now).2 = .error .wouldBlock →
      events (TcpHost.sendIpv4 host datagram now).1 = events host
  events_sent : ∀ (host : Host) (datagram : Datagram) (now : Instant),
    (TcpHost.sendIpv4 host datagram now).2 ≠ .error .wouldBlock →
      events (TcpHost.sendIpv4 host datagram now).1 = events host ++ [.sent datagram]
  events_ready : ∀ (host : Host) (listener id : ℕ),
    events (TcpHost.ready host listener id) = events host
  events_observe : ∀ (host : Host) (call : EdgeCall),
    events (TcpHost.observe host call) = events host ++ [.edge call]

instance : RecordingHost Port where
  sendIpv4 port datagram _ :=
    if port.refusals.headD false then
      ({ port with refusals := port.refusals.tail }, .error .wouldBlock)
    else
      ({ port with
          refusals := port.refusals.tail
          events := port.events ++ [.sent datagram] }, .ok ())
  ready port _ _ := port
  fits port := port.fits
  observe port call := { port with events := port.events ++ [.edge call] }
  events := Port.events
  events_refused port datagram now refused := by
    by_cases full : port.refusals.headD false = true
    · simp only [full, if_true]
    · rw [if_neg full] at refused
      cases refused
  events_sent port datagram now sent := by
    by_cases full : port.refusals.headD false = true
    · rw [if_pos full] at sent
      exact absurd rfl sent
    · simp only [full, Bool.false_eq_true, if_false]
  events_ready _ _ _ := rfl
  events_observe _ _ := rfl

@[simp]
theorem events_port (port : Port) : RecordingHost.events port = port.events := rfl

end EspDevkit.Net
