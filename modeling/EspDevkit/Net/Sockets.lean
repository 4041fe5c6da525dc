import EspDevkit.Library.SlotTable
import EspDevkit.Library.Transition
import EspDevkit.Net.TcpCalls

/-!
# The TCP sockets of a stack

Connections and listeners in their slots, and what the stack does with them: a segment finds
its connection or a listener, a listener's connections wait to be accepted, and a connection
that is let go and has closed gives up its slot.  The links and the allocator below are any
`TcpHost`.  Where the source would abort, on an empty slot, `fault` is set.
-/

namespace EspDevkit.Net

open SlotTable

structure Listener where
  localAddr : SocketAddrV4
  backlog : ℕ
  buffers : Buffers
  /-- The connections that wait to be accepted. -/
  ready : List ℕ
  backlog_pos : 0 < backlog
  deriving DecidableEq, Repr

structure Network where
  isOwnAddress : Ipv4Addr → Bool
  sourceFor : Ipv4Addr → Option Ipv4Addr
  mtuTo : Ipv4Addr → Option ℕ

structure Stack (Link : Type) where
  link : Link
  tcbs : List (Option Tcb) := []
  listeners : List (Option Listener) := []
  /-- Whether an empty slot was unwrapped. -/
  fault : Bool := false

def ephemeralFirst : ℕ := 49152

def Input.isCall : Input → Bool
  | .read _ | .write _ | .shutdown | .release => true
  | _ => false

namespace Stack

variable {Link : Type} [TcpHost Link]

def tcb (stack : Stack Link) (id : ℕ) : Option Tcb := lookup stack.tcbs id

def listener (stack : Stack Link) (id : ℕ) : Option Listener := lookup stack.listeners id

def putTcb (stack : Stack Link) (id : ℕ) (slot : Option Tcb) : Stack Link :=
  { stack with tcbs := stack.tcbs.set id slot }

def putListener (stack : Stack Link) (id : ℕ) (slot : Option Listener) : Stack Link :=
  { stack with listeners := stack.listeners.set id slot }

def abort (stack : Stack Link) : Stack Link := { stack with fault := true }

/-- Inside `with_tcb` a connection talks to the stack it was taken from. -/
instance : TcpHost (Stack Link) where
  sendIpv4 stack datagram now :=
    let (link, result) := TcpHost.sendIpv4 stack.link datagram now
    ({ stack with link }, result)
  ready stack l id :=
    match stack.listener l with
    | some listener => stack.putListener l (some { listener with ready := listener.ready ++ [id] })
    | none => stack.abort
  fits stack := TcpHost.fits stack.link
  observe stack call := { stack with link := TcpHost.observe stack.link call }

def portInUse (stack : Stack Link) (port : BitVec 16) : Bool :=
  stack.listeners.any (Option.any fun l => decide (l.localAddr.port = port)) ||
    stack.tcbs.any (Option.any fun t => decide (t.localAddr.port = port))

def ephemeral (stack : Stack Link) (random : ℕ) : Except Error (BitVec 16) :=
  let span := 0xffff - ephemeralFirst + 1
  let start := random % span
  match ((List.range span).map fun i => BitVec.ofNat 16 (ephemeralFirst + (start + i) % span)).find?
      fun port => !stack.portInUse port with
  | some port => .ok port
  | none => .error .addrInUse

/-- A connection leaves the queue of its listener, if that is still there. -/
def unready (stack : Stack Link) (l id : ℕ) : Stack Link :=
  match stack.listeners[l]? with
  | none => stack.abort
  | some none => stack
  | some (some listener) =>
    stack.putListener l (some { listener with ready := listener.ready.filter (· ≠ id) })

/-- Runs `act` on the connection taken out of its slot, so `act` may send. -/
def withTcb {Result : Type} (stack : Stack Link) (id : ℕ)
    (act : Stack Link → Tcb → Stack Link × Tcb × Result) : Stack Link × Option Result :=
  match stack.tcb id with
  | none => (stack.abort, none)
  | some tcb =>
    let (stack, tcb, result) := act (stack.putTcb id none) tcb
    let tcb := dropBuffers tcb
    if ¬ tcb.freed then (stack.putTcb id (some tcb), some result)
    else
      match tcb.listener with
      | some l => (stack.unready l id, some result)
      | none => (stack, some result)

/-- What returns nothing, inside `withTcb`. -/
def quietly (act : Stack Link → Tcb → Stack Link × Tcb) (stack : Stack Link) (tcb : Tcb) :
    Stack Link × Tcb × Unit :=
  let (stack, tcb) := act stack tcb
  (stack, tcb, ())

def tcpListen (stack : Stack Link) (network : Network) (random : ℕ) (addr : SocketAddrV4)
    (backlog : ℕ) (buffers : Buffers) : Stack Link × Except Error ℕ :=
  if addr.ip ≠ 0 ∧ ¬ network.isOwnAddress addr.ip then (stack, .error .addrNotAvailable)
  else
    let port : Except Error (BitVec 16) :=
      if addr.port = 0 then stack.ephemeral random
      else if stack.listeners.any (Option.any fun l => decide (l.localAddr.port = addr.port)) then
        .error .addrInUse
      else .ok addr.port
    match port with
    | .error error => (stack, .error error)
    | .ok port =>
      let (listeners, id) := place stack.listeners
        { localAddr := ⟨addr.ip, port⟩, backlog := max backlog 1, buffers, ready := []
          backlog_pos := by omega }
      ({ stack with listeners }, .ok id)

def tcpAccept (stack : Stack Link) (id : ℕ) : Stack Link × Option ℕ :=
  match stack.listener id with
  | none => (stack.abort, none)
  | some listener =>
    match listener.ready with
    | [] => (stack, none)
    | conn :: ready =>
      let stack := stack.putListener id (some { listener with ready })
      match stack.tcb conn with
      | none => (stack.abort, none)
      | some tcb => (stack.putTcb conn (some { tcb with listener := none }), some conn)

/-- One pass of the loop of `tcp_unlisten`. -/
def unlistenOne (id : ℕ) (now : Instant) (stack : Stack Link) (conn : ℕ) : Stack Link :=
  if (stack.tcb conn).any fun t => decide (t.listener = some id) then
    (stack.withTcb conn (quietly fun stack tcb => EspDevkit.Net.tcpUnlisten stack tcb now)).1
  else stack

def tcpUnlisten (stack : Stack Link) (id : ℕ) (now : Instant) : Stack Link :=
  if id < stack.listeners.length then
    let stack := stack.putListener id none
    (List.range stack.tcbs.length).foldl (unlistenOne id now) stack
  else stack.abort

/-- A new connection in a slot, and its first output. -/
def addTcb (stack : Stack Link) (tcb : Tcb) (now : Instant) : Stack Link × ℕ :=
  let (tcbs, id) := place stack.tcbs tcb
  let stack := { stack with tcbs }
  ((stack.withTcb id (quietly fun stack tcb => tcpOutput stack tcb now)).1, id)

/-- `tcp_connect_from`; `iss` is what `isn` answers. -/
def tcpConnectFrom (stack : Stack Link) (network : Network) (random : ℕ) (iss : Seq)
    (localPort : Option (BitVec 16)) (remote : SocketAddrV4) (buffers : Buffers) (now : Instant) :
    Stack Link × Except Error ℕ :=
  match network.sourceFor remote.ip, network.mtuTo remote.ip with
  | some src, some mtu =>
    match localPort.elim (stack.ephemeral random) .ok with
    | .error error => (stack, .error error)
    | .ok port =>
      let (stack, id) := stack.addTcb
        (.connecting ⟨src, port⟩ remote buffers (mtu - tcpHeader) iss) now
      (stack, .ok id)
  | _, _ => (stack, .error .noRoute)

/-- The connection between two addresses, unless it has closed. -/
def find (stack : Stack Link) (localAddr remoteAddr : SocketAddrV4) : Option ℕ :=
  stack.tcbs.findIdx? (Option.any fun t =>
    decide (t.state ≠ .closed ∧ t.localAddr = localAddr ∧ t.remoteAddr = remoteAddr))

def pending (stack : Stack Link) (l : ℕ) : ℕ :=
  count (fun t => decide (t.listener = some l)) stack.tcbs

def tcpPassiveOpen (stack : Stack Link) (network : Network) (iss : Seq) (l : ℕ)
    (localAddr remoteAddr : SocketAddrV4) (seg : Segment) (now : Instant) : Stack Link :=
  match stack.listener l with
  | none => stack.abort
  | some listener =>
    if listener.backlog ≤ stack.pending l then stack
    else
      match network.mtuTo remoteAddr.ip with
      | none => stack
      | some mtu =>
        (stack.addTcb
          (.accepting l localAddr remoteAddr listener.buffers (mtu - tcpHeader) iss seg) now).1

def listening (stack : Stack Link) (dst : Ipv4Addr) (port : BitVec 16) : Option ℕ :=
  stack.listeners.findIdx? (Option.any fun l =>
    decide (l.localAddr.port = port ∧ (l.localAddr.ip = 0 ∨ l.localAddr.ip = dst)))

def tcpInput (stack : Stack Link) (network : Network) (iss : Seq) (src dst : Ipv4Addr)
    (unicast : Bool) (seg : Segment) (now : Instant) : Stack Link :=
  if ¬ unicast then stack
  else
    let localAddr : SocketAddrV4 := ⟨dst, seg.dstPort⟩
    let remoteAddr : SocketAddrV4 := ⟨src, seg.srcPort⟩
    match stack.find localAddr remoteAddr with
    | some id =>
      (stack.withTcb id (quietly fun stack tcb => tcpProcess stack id tcb seg now)).1
    | none =>
      let opens := seg.flags.syn && !seg.flags.ack && !seg.flags.rst
      match if opens then stack.listening dst seg.dstPort else none with
      | some l => stack.tcpPassiveOpen network iss l localAddr remoteAddr seg now
      | none =>
        if seg.flags.rst then stack else sendReset stack localAddr remoteAddr seg now

def tcpIcmpError (stack : Stack Link) (localAddr remoteAddr : SocketAddrV4) (seq : Seq)
    (reported : Reported) : Stack Link :=
  match stack.find localAddr remoteAddr with
  | some id =>
    (stack.withTcb id
      (quietly fun stack tcb => (stack, EspDevkit.Net.tcpIcmpError tcb seq reported))).1
  | none => stack

def linkReadyOne (now : Instant) (stack : Stack Link) (id : ℕ) : Stack Link :=
  if (stack.tcb id).any fun t => t.linkRetryAt.isSome then
    (stack.withTcb id (quietly fun stack tcb => tcpOutput stack tcb now)).1
  else stack

def tcpLinkReady (stack : Stack Link) (now : Instant) : Stack Link :=
  (List.range stack.tcbs.length).foldl (linkReadyOne now) stack

/-- One pass of the loop of `tcp_poll`: when the connections so far want to be polled again. -/
def pollOne (now : Instant) (polled : Stack Link × Option Instant) (id : ℕ) :
    Stack Link × Option Instant :=
  match polled.1.tcb id with
  | none => polled
  | some _ =>
    let (stack, due) := polled.1.withTcb id fun stack tcb =>
      let (stack, tcb) := tcpPollOne stack tcb now
      (stack, tcb, tcb.deadline)
    match due.join with
    | none => (stack, polled.2)
    | some due => (stack, some (polled.2.elim due (min · due)))

def tcpPoll (stack : Stack Link) (now : Instant) : Stack Link × Option Instant :=
  (List.range stack.tcbs.length).foldl (pollOne now) (stack, none)

/-- `tcp_read`, `tcp_write`, `tcp_shutdown` and `tcp_release`. -/
def call (stack : Stack Link) (id : ℕ) (input : Input) (now : Instant) :
    Stack Link × Option Reply :=
  stack.withTcb id fun stack tcb => input.act stack id tcb now

/-- `tcp_set_nodelay` and `tcp_set_keepalive`, on the connection in its slot. -/
def configure (stack : Stack Link) (id : ℕ) (set : Tcb → Tcb) : Stack Link :=
  match stack.tcb id with
  | none => stack.abort
  | some tcb => stack.putTcb id (some (set tcb))

def tcpSetNodelay (stack : Stack Link) (id : ℕ) (nodelay : Bool) : Stack Link :=
  stack.configure id fun tcb => { tcb with nodelay }

def tcpSetKeepalive (stack : Stack Link) (id : ℕ) (idle : Option Duration) : Stack Link :=
  stack.configure id fun tcb => { tcb with keepalive := idle, keepaliveProbes := 0 }

/-- Whether the application holds the connection: it made or accepted it, and has not let it
go. -/
def Held (stack : Stack Link) (id : ℕ) : Prop :=
  ∃ tcb, stack.tcb id = some tcb ∧ tcb.listener = none ∧ tcb.released = false

/-- Everything that happens to the sockets.  An application calls with what it holds: a
listener until it is dropped, a connection until it is let go. -/
inductive Step : Stack Link → Stack Link → Prop
  /-- The links and the memory below change. -/
  | link (stack : Stack Link) (link : Link) : Step stack { stack with link }
  | listen (stack : Stack Link) (network : Network) (random : ℕ) (addr : SocketAddrV4)
      (backlog : ℕ) (buffers : Buffers) :
      Step stack (stack.tcpListen network random addr backlog buffers).1
  | accept {stack : Stack Link} {id : ℕ} (held : (stack.listener id).isSome) :
      Step stack (stack.tcpAccept id).1
  | unlisten {stack : Stack Link} {id : ℕ} (held : (stack.listener id).isSome) (now : Instant) :
      Step stack (stack.tcpUnlisten id now)
  | connect (stack : Stack Link) (network : Network) (random : ℕ) (iss : Seq)
      (localPort : Option (BitVec 16)) (remote : SocketAddrV4) (buffers : Buffers)
      (now : Instant) :
      Step stack (stack.tcpConnectFrom network random iss localPort remote buffers now).1
  | input (stack : Stack Link) (network : Network) (iss : Seq) (src dst : Ipv4Addr)
      (unicast : Bool) (seg : Segment) (now : Instant) :
      Step stack (stack.tcpInput network iss src dst unicast seg now)
  | icmpError (stack : Stack Link) (localAddr remoteAddr : SocketAddrV4) (seq : Seq)
      (reported : Reported) : Step stack (stack.tcpIcmpError localAddr remoteAddr seq reported)
  | linkReady (stack : Stack Link) (now : Instant) : Step stack (stack.tcpLinkReady now)
  | poll (stack : Stack Link) (now : Instant) : Step stack (stack.tcpPoll now).1
  | call {stack : Stack Link} {id : ℕ} (held : stack.Held id) (input : Input)
      (calls : input.isCall) (now : Instant) : Step stack (stack.call id input now).1
  | setNodelay {stack : Stack Link} {id : ℕ} (held : stack.Held id) (nodelay : Bool) :
      Step stack (stack.tcpSetNodelay id nodelay)
  | setKeepalive {stack : Stack Link} {id : ℕ} (held : stack.Held id) (idle : Option Duration) :
      Step stack (stack.tcpSetKeepalive id idle)

inductive Initial : Stack Link → Prop
  | fresh (link : Link) : Initial { link }

abbrev Reachable : Stack Link → Prop := Transition.Reachable Initial Step

end Stack

end EspDevkit.Net
