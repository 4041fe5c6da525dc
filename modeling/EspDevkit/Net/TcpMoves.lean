import EspDevkit.Library.Transition
import EspDevkit.Net.TcpCalls

/-!
# The moves of a connection

What the sequence numbers and the bytes of a connection depend on, and the
small set of moves that change them: sending the SYN, data or the FIN, taking
an acknowledgment, holding received data, and so on.  Timers, estimators and
congestion control only decide when a move is made.
-/

namespace EspDevkit.Net

open SerialNumber

/-- What the connection's own stream depends on. -/
structure SendSide where
  state : State
  iss : Seq
  sndUna : Seq
  sndNxt : Seq
  sndMax : Seq
  txBase : Seq
  tx : Ring
  sndWnd : ℕ
  sndScale : ℕ
  finQueued : Bool
  finSent : Bool
  finSeq : Option Seq
  probe : Bool
  /-- Whether the persist timer runs. -/
  persisting : Bool
  /-- Whether the retransmission timer runs. -/
  retransmitting : Bool

structure ReceiveSide where
  rcvNxt : Seq
  rcvAdv : Seq
  rx : Ring
  assembler : Assembler
  rcvScale : ℕ
  rcvMss : ℕ
  finReceived : Bool

structure Core extends SendSide, ReceiveSide where
  /-- Whether the application has let go of the connection. -/
  released : Bool

def Tcb.core (t : Tcb) : Core :=
  { state := t.state
    iss := t.iss
    sndUna := t.sndUna
    sndNxt := t.sndNxt
    sndMax := t.sndMax
    txBase := t.txBase
    tx := t.tx
    sndWnd := t.sndWnd
    sndScale := t.sndScale
    finQueued := t.finQueued
    finSent := t.finSent
    finSeq := t.finSeq
    probe := t.probe
    persisting := t.persistAt.isSome
    retransmitting := t.retransmitAt.isSome
    rcvNxt := t.rcvNxt
    rcvAdv := t.rcvAdv
    rx := t.rx
    assembler := t.assembler
    rcvScale := t.rcvScale
    rcvMss := t.rcvMss
    finReceived := t.finReceived
    released := t.released }

/-- What a connection does to the world: calls and segments the host sees,
bytes taken from the application, bytes given to it. -/
inductive Happening
  | port (event : PortEvent)
  | accepted (bytes : List UInt8)
  | returned (bytes : List UInt8)
  deriving DecidableEq

/-- What sets one input apart: the segment it delivers, and whether it is one
of the inputs that leave `snd_nxt` behind. -/
structure Context where
  incoming : Option Segment := none
  /-- The handshake is completed while `snd_nxt` is still at the SYN. -/
  late : Prop := False
  /-- The handshake is completed although the SYN never went out. -/
  wild : Prop := False
  /-- A FIN can go out while `snd_nxt` is behind the send buffer. -/
  misplaced : Prop := False
  /-- Bytes are read after data went past the advertised edge. -/
  uncovered : Prop := False

def Tcb.completesHandshake (tcb : Tcb) (seg : Segment) : Bool :=
  match tcb.state with
  | .synSent => seg.flags.syn && seg.flags.ack && !seg.flags.rst && acksSyn tcb seg
  | .synReceived =>
    let seg := trimSyn tcb seg
    acceptable tcb seg && !seg.flags.rst && !seg.flags.syn && seg.flags.ack && acksSyn tcb seg
  | _ => false

/-- Whether a shutdown queues the FIN of an empty stream while `snd_nxt` is
behind the send buffer. -/
def Tcb.closesBehind (tcb : Tcb) : Bool :=
  !tcb.finQueued &&
    (decide (tcb.state = .synReceived) || decide (tcb.state = .established) ||
      decide (tcb.state = .closeWait)) &&
    lt tcb.sndNxt tcb.txBase && decide (tcb.tx.len = 0)

def Tcb.timesOutBehind (tcb : Tcb) (now : Instant) : Bool :=
  !due tcb.closeAt now && due tcb.retransmitAt now && !retriesExhausted tcb &&
    tcb.finQueued && lt tcb.sndUna tcb.txBase

def Tcb.readsUncovered (tcb : Tcb) : Bool :=
  decide (0 < tcb.rx.len) && tcb.state.synchronized && lt tcb.rcvAdv tcb.rcvNxt

def Stands (raw seg : Segment) : Prop :=
  seg = raw ∨
    raw.flags.syn ∧ seg = { raw with seq := raw.seq + 1, flags := { raw.flags with syn := false } }

namespace SendSide

def inFlight (s : SendSide) : ℕ := (s.sndNxt - s.sndUna).toNat

def unsent (s : SendSide) : ℕ :=
  if s.finSent then 0
  else if lt s.sndNxt s.txBase then s.tx.len
  else s.tx.len - (s.sndNxt - s.txBase).toNat

def acksFin (s : SendSide) (ack : Seq) : Bool := s.finSeq.any fun f => lt f ack

end SendSide

namespace Core

def windowStep (c : Core) : ℕ := min (c.rx.capacity / 2) c.rcvMss

def clampedAdv (c : Core) : Seq := if lt c.rcvAdv c.rcvNxt then c.rcvNxt else c.rcvAdv

def windowCall (c : Core) : EdgeCall :=
  { current := (c.clampedAdv - c.rcvNxt).toNat, free := c.rx.free, step := c.windowStep }

def windowGrewCall (c : Core) : EdgeCall :=
  { current := (c.rcvAdv - c.rcvNxt).toNat, free := c.rx.free, step := c.windowStep }

def offered (c : Core) : Core :=
  let free := min c.rx.free (0xffff <<< c.rcvScale)
  if (c.clampedAdv - c.rcvNxt).toNat + c.windowStep ≤ free then
    { c with rcvAdv := c.rcvNxt + BitVec.ofNat 32 free }
  else { c with rcvAdv := c.clampedAdv }

def advance (c : Core) (target : Seq) : Core :=
  { c with
    sndNxt := target
    sndMax := if lt c.sndMax target then target else c.sndMax }

def recordSyn (c : Core) : Core :=
  { c.advance (c.iss + 1) with retransmitting := true }

def recordSent (c : Core) (n : ℕ) (fin : Bool) : Core :=
  { c.advance (c.sndNxt + BitVec.ofNat 32 (n + fin.toNat)) with
    finSeq := if fin then some (c.sndNxt + BitVec.ofNat 32 n) else c.finSeq
    finSent := c.finSent || fin
    probe := false
    retransmitting := true }

def takeSyn (c : Core) (seg : Segment) : Core :=
  { c with
    rcvNxt := seg.seq + 1
    rcvAdv := seg.seq + 1
    sndScale := seg.windowScale.elim c.sndScale Fin.val
    rcvScale := if seg.windowScale.isSome then c.rcvScale else 0
    sndWnd := seg.window.toNat }

def dropAcked (c : Core) (ack : Seq) : Core :=
  if lt c.txBase ack then
    let data := min (ack - c.txBase).toNat c.tx.len
    { c with tx := c.tx.discard data, txBase := c.txBase + BitVec.ofNat 32 data }
  else c

def recordAck (c : Core) (ack : Seq) : Core :=
  { c.dropAcked ack with
    sndUna := ack
    sndNxt := if lt c.sndNxt ack then ack else c.sndNxt
    finSent := c.finSent || c.acksFin ack
    persisting := false
    retransmitting := decide (ack ≠ c.sndMax) }

def finAcked (c : Core) : Core :=
  match c.state with
  | .finWait1 => { c with state := .finWait2 }
  | .closing => { c with state := .timeWait }
  | .lastAck => { c with state := .closed, persisting := false, retransmitting := false }
  | _ => c

def hold (fits : ℕ → Bool) (c : Core) (start : ℕ) (data : List UInt8) : Ring × Assembler :=
  let stop := min (start + data.length) c.rx.free
  if start < stop then
    match c.rx.writeFree fits start (data.take (stop - start)) with
    | (rx, true) => (rx, (c.assembler.add start stop).1)
    | (rx, false) => (rx, c.assembler)
  else (c.rx, c.assembler)

def dataOffset (c : Core) (seg : Segment) : Int := (seg.seq - c.rcvNxt).toInt

def takeBytes (fits : ℕ → Bool) (c : Core) (seg : Segment) : Core :=
  let offset := c.dataOffset seg
  let skip := (-offset).toNat
  if seg.data.length ≤ skip then c else
  let (rx, assembler) := c.hold fits offset.toNat (seg.data.drop skip)
  let (assembler, n) := assembler.takeFront
  { c with rx := rx.commit n, assembler, rcvNxt := c.rcvNxt + BitVec.ofNat 32 n }

def opened (c : Core) : Prop :=
  c.state.synchronized ∨ c.state = .closed ∧ c.acksFin c.sndUna

def takeFin (c : Core) : Core :=
  { c with
    rcvNxt := c.rcvNxt + 1
    finReceived := true
    state :=
      match c.state with
      | .established => .closeWait
      | .finWait1 => if c.acksFin c.sndUna then .timeWait else .closing
      | .finWait2 => .timeWait
      | other => other }

def dropBuffers (c : Core) : Core := { c with rx := .new 0, tx := .new 0 }

structure Sends (c : Core) (seq : Seq) (flags : Flags) (offset n : ℕ) (d : Datagram) :
    Prop where
  seqEq : d.seq = seq
  flagsEq : d.flags = flags
  ackEq : d.ack = if flags.ack then c.rcvNxt else 0
  dataEq : d.data =
    c.tx.readAt offset n ++ List.replicate (n - (c.tx.readAt offset n).length) 0

end Core

open Happening in
inductive Move (ctx : Context) : Core → List Happening → Core → Prop
  /-- `window()`, before every segment. -/
  | offer {c : Core} (live : c.state ≠ .closed) :
      Move ctx c [port (.edge c.windowCall)] c.offered
  | sendSyn {c : Core} {d : Datagram} (flags : Flags)
      (handshake : c.state = .synSent ∧ flags = { syn := true } ∨
        c.state = .synReceived ∧ flags = { syn := true, ack := true })
      (behind : c.sndNxt = c.iss) (sends : c.Sends c.iss flags 0 0 d) :
      Move ctx c [port (.sent d)] c.recordSyn
  /-- A pass of the output loop. -/
  | send {c : Core} {d : Datagram} (n : ℕ) (fin psh : Bool)
      (synchronized : c.state.synchronized) (open' : c.finSent = false)
      (queued : n ≤ c.unsent) (something : 0 < n ∨ fin)
      (allowed : n ≤ c.sndWnd - c.inFlight ∨ c.probe ∧ n ≤ 1)
      (last : fin → c.finQueued ∧ n = c.unsent)
      (sends : c.Sends c.sndNxt { ack := true, psh, fin } (c.sndNxt - c.txBase).toNat n d) :
      Move ctx c [port (.sent d)] (c.recordSent n fin)
  | resend {c : Core} {d : Datagram} (n : ℕ) (synchronized : c.state.synchronized)
      (held : n ≤ c.tx.len - (c.sndUna - c.txBase).toNat)
      (sends : c.Sends c.sndUna { ack := true } (c.sndUna - c.txBase).toNat n d) :
      Move ctx c [port (.sent d)] c
  /-- An acknowledgment, or a keepalive probe. -/
  | sendAck {c : Core} {d : Datagram} (seq : Seq) (synchronized : c.state.synchronized)
      (sends : c.Sends seq { ack := true } 0 0 d) : Move ctx c [port (.sent d)] c
  | sendRst {c : Core} {d : Datagram} (rst : d.flags.rst) (noSyn : d.flags.syn = false)
      (noFin : d.flags.fin = false) (empty : d.data = []) : Move ctx c [port (.sent d)] c
  /-- A SYN that crosses ours. -/
  | simultaneous {c : Core} (seg : Segment) (incoming : ctx.incoming = some seg)
      (opening : c.state = .synSent) (syn : seg.flags.syn) :
      Move ctx c [] { c.takeSyn seg with state := .synReceived, sndNxt := c.iss }
  | connected {c : Core} (seg : Segment) (incoming : ctx.incoming = some seg)
      (opening : c.state = .synSent) (syn : seg.flags.syn) (ack : seg.flags.ack)
      (acksSyn : lt c.sndUna seg.ack && le seg.ack c.sndMax)
      (late : c.sndNxt = c.iss → ctx.late) (wild : c.sndMax = c.iss → ctx.wild) :
      Move ctx c []
        { c.takeSyn seg with state := .established, sndUna := seg.ack, retransmitting := false }
  | established {c : Core} (raw seg : Segment) (incoming : ctx.incoming = some raw)
      (stands : Stands raw seg) (opening : c.state = .synReceived) (ack : seg.flags.ack)
      (acksSyn : lt c.sndUna seg.ack && le seg.ack c.sndMax)
      (late : c.sndNxt = c.iss → ctx.late) (wild : c.sndMax = c.iss → ctx.wild) :
      Move ctx c []
        { c with
          state := .established
          sndUna := seg.ack
          sndWnd := seg.window.toNat <<< c.sndScale
          retransmitting := false }
  | acked {c : Core} (raw seg : Segment) (incoming : ctx.incoming = some raw)
      (stands : Stands raw seg) (synchronized : c.state.synchronized) (ack : seg.flags.ack)
      (new : lt c.sndUna seg.ack) (sent : lt c.sndMax seg.ack = false) :
      Move ctx c [] (c.recordAck seg.ack)
  | finAcked {c : Core} (acksFin : c.acksFin c.sndUna) : Move ctx c [] c.finAcked
  | window {c : Core} (window : BitVec 16) (persisting : Bool)
      (timer : persisting → c.persisting) :
      Move ctx c [] { c with sndWnd := window.toNat <<< c.sndScale, persisting }
  | data {c : Core} (fits : ℕ → Bool) (raw seg : Segment) (incoming : ctx.incoming = some raw)
      (stands : Stands raw seg) (noSyn : seg.flags.syn = false)
      (takes : c.state.takesData) : Move ctx c [] (c.takeBytes fits seg)
  | fin {c : Core} (raw seg : Segment) (incoming : ctx.incoming = some raw)
      (stands : Stands raw seg) (noSyn : seg.flags.syn = false)
      (opened : c.opened) (fin : seg.flags.fin)
      (next : seg.seq + BitVec.ofNat 32 seg.data.length = c.rcvNxt)
      (first : c.finReceived = false) : Move ctx c [] c.takeFin
  /-- The retransmission timer starts over from the oldest byte. -/
  | timeout {c : Core} (timer : c.retransmitting)
      (place : c.finQueued → lt c.sndUna c.txBase → ctx.misplaced) :
      Move ctx c [] { c with sndNxt := c.sndUna, finSent := false }
  | persist {c : Core} (timer : c.persisting) :
      Move ctx c [] { c with persisting := false, probe := decide (0 < c.unsent) }
  | startPersist {c : Core} (synchronized : c.state.synchronized) (waiting : 0 < c.unsent)
      (idle : c.inFlight = 0) : Move ctx c [] { c with persisting := true }
  | stopRetransmit (c : Core) : Move ctx c [] { c with retransmitting := false }
  | shutdown {c : Core} (state : State) (first : c.finQueued = false)
      (from' : (c.state = .synReceived ∨ c.state = .established) ∧ state = .finWait1 ∨
        c.state = .closeWait ∧ state = .lastAck)
      (place : lt c.sndNxt c.txBase → c.tx.len = 0 → ctx.misplaced) :
      Move ctx c [] { c with state, finQueued := true }
  /-- Nobody will read or write any more. -/
  | release (c : Core) : Move ctx c [] { c with released := true }
  | close (c : Core) :
      Move ctx c [] { c with state := .closed, persisting := false, retransmitting := false }
  /-- The application writes. -/
  | push {c : Core} (fits : ℕ → Bool) (bytes : List UInt8)
      (happenings : List Happening)
      (writable : c.state = .established ∨ c.state = .closeWait) (more : c.finQueued = false)
      (told : happenings = [accepted (bytes.take (c.tx.push fits bytes).2)] ∨
        (c.tx.push fits bytes).2 = 0 ∧ happenings = []) :
      Move ctx c happenings { c with tx := (c.tx.push fits bytes).1 }
  /-- The application reads when the window does not matter. -/
  | pop {c : Core} (n : ℕ) (held : n ≤ c.rx.len) (quiet : c.state.synchronized = false ∨ n = 0) :
      Move ctx c [returned (c.rx.readAt 0 n)] { c with rx := c.rx.discard n }
  /-- The application reads, and `window_grew()` looks at the room it made. -/
  | popLook {c : Core} (n : ℕ) (held : n ≤ c.rx.len) (some : 0 < c.rx.len)
      (synchronized : c.state.synchronized) (covered : lt c.rcvAdv c.rcvNxt → ctx.uncovered) :
      Move ctx c
        [returned (c.rx.readAt 0 n),
          port (.edge (Core.windowGrewCall { c with rx := c.rx.discard n }))]
        { c with rx := c.rx.discard n }

/-- What an input and its reply tell of the bytes that pass between the
application and the connection. -/
def Input.happenings : Input → Reply → List Happening
  | .write data, .write (some (.ok n)) => [.accepted (data.take n)]
  | .read _, .read (some (.ok bytes)) => [.returned bytes]
  | _, _ => []

def Input.context (tcb : Tcb) (now : Instant) : Input → Context
  | .segment seg =>
    { incoming := some seg
      late := tcb.completesHandshake seg ∧ tcb.sndNxt = tcb.iss
      wild := tcb.completesHandshake seg ∧ tcb.sndMax = tcb.iss }
  | .read _ => { uncovered := tcb.readsUncovered }
  | .shutdown => { misplaced := tcb.closesBehind }
  | .release => { misplaced := tcb.rx.len = 0 ∧ tcb.closesBehind }
  | .poll => { misplaced := tcb.timesOutBehind now }
  | _ => {}

abbrev Moves (ctx : Context) : Core → List Happening → Core → Prop :=
  Transition.Trace (Move ctx)

end EspDevkit.Net
