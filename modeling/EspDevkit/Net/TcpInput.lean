import EspDevkit.Net.TcpSender

/-!
# TCP input

What a connection does with a received segment: the handshake, acknowledgments
and congestion control, data and the FIN.
-/

namespace EspDevkit.Net

open SerialNumber

variable {Host : Type} [TcpHost Host]

/-- A SYN-ACK that answers our SYN of a simultaneous open is taken without its
SYN. -/
def trimSyn (tcb : Tcb) (seg : Segment) : Segment :=
  if tcb.state = .synReceived ∧ seg.flags.syn ∧ seg.seq + 1 = tcb.rcvNxt ∧
      tcb.listener.isNone then
    { seg with seq := tcb.rcvNxt, flags := { seg.flags with syn := false } }
  else seg

def inWindow (tcb : Tcb) (seq : Seq) : Bool :=
  le tcb.rcvNxt seq && lt seq (tcb.rcvNxt + BitVec.ofNat 32 tcb.rx.free)

/-- RFC 793: whether the segment touches the receive window. -/
def acceptable (tcb : Tcb) (seg : Segment) : Bool :=
  if seg.len = 0 then
    if tcb.rx.free = 0 then decide (seg.seq = tcb.rcvNxt) else inWindow tcb seg.seq
  else if tcb.rx.free = 0 then false
  else inWindow tcb seg.seq || inWindow tcb (seg.seq + BitVec.ofNat 32 (seg.len - 1))

/-- Answers with an ACK as soon as the link takes one. -/
def answer (host : Host) (tcb : Tcb) (now : Instant) : Host × Tcb :=
  tcpOutput host { tcb with ackNow := true } now

/-- A reset at `rcv_nxt`. -/
def tcpReset (tcb : Tcb) : Tcb :=
  match tcb.state with
  | .synReceived =>
    { tcb with released := tcb.released || tcb.listener.isSome }.closeWith none
  | .established | .finWait1 | .finWait2 | .closeWait =>
    tcb.closeWith (some .connectionReset)
  | _ => tcb.closeWith none

def acksSyn (tcb : Tcb) (seg : Segment) : Bool :=
  lt tcb.sndUna seg.ack && le seg.ack tcb.sndMax

/-- SYN-RECEIVED ends with an acknowledgment of the SYN. -/
def establish (host : Host) (id : ℕ) (tcb : Tcb) (seg : Segment) (now : Instant) :
    Host × Tcb :=
  let sndWnd := seg.window.toNat <<< tcb.sndScale
  let tcb :=
    { tcb with
      state := .established
      sndUna := seg.ack
      sndWnd
      maxWindow := max tcb.maxWindow sndWnd
      sndWl1 := seg.seq
      sndWl2 := seg.ack
      retransmitAt := none
      retries := 0 }.takeSample now
  match tcb.listener with
  | some l => (TcpHost.ready host l id, tcb)
  | none => (host, tcb)

/-- Congestion control after new data was acknowledged. -/
def growWindow (host : Host) (tcb : Tcb) (acked : ℕ) (ack : Seq) (now : Instant) :
    Host × Tcb :=
  match tcb.recover with
  | some recover =>
    if le recover ack then (host, { tcb with cwnd := tcb.ssthresh, recover := none })
    else
      let (host, tcb) := retransmitFirst host tcb now
      (host, { tcb with cwnd := tcb.cwnd - acked + tcb.sndMss })
  | none =>
    if tcb.cwnd < tcb.ssthresh then
      (host, { tcb with cwnd := tcb.cwnd + min acked tcb.sndMss })
    else
      (host, { tcb with cwnd := tcb.cwnd + max (tcb.sndMss * tcb.sndMss / max tcb.cwnd 1) 1 })

def finAcked (tcb : Tcb) (now : Instant) : Tcb :=
  match tcb.state with
  | .finWait1 =>
    { tcb with
      state := .finWait2
      closeAt := if tcb.released then some (now.plus finWait2Time) else tcb.closeAt }
  | .closing => { tcb with state := .timeWait }
  | .lastAck => tcb.closeWith none
  | _ => tcb

/-- The acknowledged bytes leave the send buffer. -/
def dropAcked (tcb : Tcb) (ack : Seq) : Tcb :=
  if lt tcb.txBase ack then
    let data := min (ack - tcb.txBase).toNat tcb.tx.len
    { tcb with
      tx := tcb.tx.discard data
      txBase := tcb.txBase + BitVec.ofNat 32 data }
  else tcb

/-- What an acknowledgment of new data changes before congestion control. -/
def recordAck (tcb : Tcb) (ack : Seq) (now : Instant) : Tcb :=
  let finAcked := tcb.finSeq.any fun f => lt f ack
  let tcb := dropAcked tcb ack
  let tcb :=
    { tcb with
      sndUna := ack
      sndNxt := if lt tcb.sndNxt ack then ack else tcb.sndNxt
      finSent := tcb.finSent || finAcked }
  let tcb :=
    match tcb.rttSample with
    | some (seq, _) => if lt seq ack then tcb.takeSample now else tcb
    | none => tcb
  { tcb with
    retries := 0
    retransmitAt := if tcb.sndUna ≠ tcb.sndMax then some (now.plus tcb.rto) else none
    persistAt := none
    dupacks := 0 }

/-- The round-trip sample of `recordAck`. -/
def sampleAck (tcb : Tcb) (ack : Seq) (now : Instant) : Tcb :=
  match tcb.rttSample with
  | some (seq, _) => if lt seq ack then tcb.takeSample now else tcb
  | none => tcb

def tcpAcked (host : Host) (tcb : Tcb) (ack : Seq) (now : Instant) : Host × Tcb :=
  let acked := (ack - tcb.sndUna).toNat
  let finIsAcked := tcb.finSeq.any fun f => lt f ack
  let (host, tcb) := growWindow host (recordAck tcb ack now) acked ack now
  (host, if finIsAcked then finAcked tcb now else tcb)

/-- A duplicate acknowledgment: the third starts fast retransmit. -/
def duplicateAck (host : Host) (tcb : Tcb) (now : Instant) : Host × Tcb :=
  let tcb := { tcb with dupacks := min (tcb.dupacks + 1) 255 }
  if tcb.dupacks = 3 ∧ tcb.recover.isNone then
    let tcb :=
      { tcb with
        ssthresh := max (tcb.inFlight / 2) (2 * tcb.sndMss)
        recover := some tcb.sndNxt }
    let (host, tcb) := retransmitFirst host tcb now
    (host, { tcb with cwnd := tcb.ssthresh + 3 * tcb.sndMss })
  else if 3 < tcb.dupacks ∧ tcb.recover.isSome then
    (host, { tcb with cwnd := tcb.cwnd + tcb.sndMss })
  else (host, tcb)

/-- Takes the peer's window from a segment newer than the last that set it. -/
def updateWindow (tcb : Tcb) (seg : Segment) : Tcb :=
  let window := seg.window.toNat <<< tcb.sndScale
  if lt tcb.sndWl1 seg.seq || (decide (tcb.sndWl1 = seg.seq) && le tcb.sndWl2 seg.ack) then
    { tcb with
      sndWnd := window
      maxWindow := max tcb.maxWindow window
      sndWl1 := seg.seq
      sndWl2 := seg.ack
      persistAt := if 0 < window then none else tcb.persistAt }
  else tcb

def scheduleAck (tcb : Tcb) (atOnce : Bool) (now : Instant) : Tcb :=
  if atOnce then { tcb with ackNow := true }
  else
    let tcb := { tcb with unackedSegments := tcb.unackedSegments + 1 }
    if 2 ≤ tcb.unackedSegments then { tcb with ackNow := true }
    else { tcb with ackAt := some (tcb.ackAt.getD (now.plus delayedAck)) }

def tcpData (fits : ℕ → Bool) (tcb : Tcb) (seg : Segment) (now : Instant) : Tcb :=
  let offset := (seg.seq - tcb.rcvNxt).toInt
  let skip := (-offset).toNat
  if seg.data.length ≤ skip then { tcb with ackNow := true } else
  let data := seg.data.drop skip
  let start := offset.toNat
  let stop := min (start + data.length) tcb.rx.free
  let tcb :=
    if start < stop then
      match tcb.rx.writeFree fits start (data.take (stop - start)) with
      | (rx, true) => { tcb with rx, assembler := (tcb.assembler.add start stop).1 }
      | (rx, false) => { tcb with rx }
    else tcb
  let (assembler, n) := tcb.assembler.takeFront
  let tcb := { tcb with assembler }
  let tcb :=
    if 0 < n then
      { tcb with rx := tcb.rx.commit n, rcvNxt := tcb.rcvNxt + BitVec.ofNat 32 n }
    else tcb
  scheduleAck tcb (decide (0 < offset) || decide (n = 0) || decide (0 < assembler.count)) now

/-- The peer's FIN, once everything before it has arrived. -/
def tcpFin (tcb : Tcb) (seg : Segment) : Tcb :=
  if seg.flags.fin ∧ seg.seq + BitVec.ofNat 32 seg.data.length = tcb.rcvNxt ∧
      ¬ tcb.finReceived then
    let finIsAcked := tcb.finSeq.any fun f => lt f tcb.sndUna
    { tcb with
      rcvNxt := tcb.rcvNxt + 1
      finReceived := true
      ackNow := true
      state :=
        match tcb.state with
        | .established => .closeWait
        | .finWait1 => if finIsAcked then .timeWait else .closing
        | .finWait2 => .timeWait
        | other => other }
  else tcb

def State.takesData : State → Bool
  | .established | .finWait1 | .finWait2 => true
  | _ => false

/-- Whether the acknowledgment is one the peer could not have sent, or one
from too long ago. -/
def ackOutOfRange (tcb : Tcb) (seg : Segment) : Bool :=
  lt tcb.sndMax seg.ack || lt seg.ack (tcb.sndUna - BitVec.ofNat 32 tcb.maxWindow)

def repeatsAck (tcb : Tcb) (seg : Segment) (window : ℕ) : Bool :=
  decide (seg.ack = tcb.sndUna) && seg.data.isEmpty && !seg.flags.fin &&
    decide (window = tcb.sndWnd) && decide (tcb.sndUna ≠ tcb.sndMax)

def takeAck (host : Host) (tcb : Tcb) (seg : Segment) (now : Instant) : Host × Tcb :=
  let window := seg.window.toNat <<< tcb.sndScale
  let tcb := if window = 0 then { tcb with retries := 0 } else tcb
  let (host, tcb) :=
    if lt tcb.sndUna seg.ack then tcpAcked host tcb seg.ack now
    else if repeatsAck tcb seg window then duplicateAck host tcb now
    else (host, tcb)
  (host, updateWindow tcb seg)

def takeData (fits : ℕ → Bool) (tcb : Tcb) (seg : Segment) (now : Instant) : Tcb :=
  let tcb :=
    if !seg.data.isEmpty && tcb.state.takesData then tcpData fits tcb seg now else tcb
  let tcb := tcpFin tcb seg
  if tcb.state = .timeWait then
    { tcb with closeAt := some (now.plus timeWaitTime), retransmitAt := none }
  else tcb

def tcpSegment (host : Host) (tcb : Tcb) (seg : Segment) (now : Instant) : Host × Tcb :=
  if ackOutOfRange tcb seg then answer host tcb now
  else
    let (host, tcb) := takeAck host tcb seg now
    tcpOutput host (takeData (TcpHost.fits host) tcb seg now) now

def tcpSynSent (host : Host) (tcb : Tcb) (seg : Segment) (now : Instant) : Host × Tcb :=
  let ackOk := acksSyn tcb seg
  if seg.flags.ack ∧ ¬ ackOk then
    if seg.flags.rst then (host, tcb)
    else (sendReset host tcb.localAddr tcb.remoteAddr seg now, tcb)
  else if seg.flags.rst then
    (host, if seg.flags.ack then tcb.closeWith (some .connectionRefused) else tcb)
  else if ¬ seg.flags.syn then (host, tcb)
  else if ¬ seg.flags.ack then
    tcpOutput host { tcb.onSyn seg with state := .synReceived, sndNxt := tcb.iss } now
  else
    let tcb :=
      { tcb.onSyn seg with
        sndUna := seg.ack
        state := .established
        retransmitAt := none
        retries := 0 }.takeSample now
    answer host tcb now

def tcpAcceptable (host : Host) (id : ℕ) (tcb : Tcb) (seg : Segment) (now : Instant) :
    Host × Tcb :=
  if tcb.state = .synReceived then
    if ¬ acksSyn tcb seg then
      (sendReset host tcb.localAddr tcb.remoteAddr seg now, tcb)
    else
      let (host, tcb) := establish host id tcb seg now
      tcpSegment host tcb seg now
  else tcpSegment host tcb seg now

/-- `tcp_process` once it has noted that the peer was heard. -/
def tcpReceive (host : Host) (id : ℕ) (tcb : Tcb) (seg : Segment) (now : Instant) :
    Host × Tcb :=
  if tcb.state = .synSent then tcpSynSent host tcb seg now
  else
    let seg := trimSyn tcb seg
    if ¬ acceptable tcb seg then
      if seg.flags.rst then (host, tcb) else answer host tcb now
    else if seg.flags.rst then
      if seg.seq ≠ tcb.rcvNxt then answer host tcb now else (host, tcpReset tcb)
    else if seg.flags.syn then answer host tcb now
    else if ¬ seg.flags.ack then (host, tcb)
    else tcpAcceptable host id tcb seg now

def tcpProcess (host : Host) (id : ℕ) (tcb : Tcb) (seg : Segment) (now : Instant) :
    Host × Tcb :=
  tcpReceive host id { tcb with heard := now, keepaliveProbes := 0 } seg now

end EspDevkit.Net
