import EspDevkit.Library.SerialNumber
import Mathlib.Algebra.GroupWithZero.Nat
import Mathlib.Data.Nat.Notation

/-!
# Instants and durations of the network stack

The stack's clock counts microseconds and never wraps; durations are kept in
nanoseconds.  Adding a duration to an instant drops the nanoseconds below the
clock's resolution, and the time since a later instant is zero.
-/

namespace EspDevkit.Net

abbrev Instant := ℕ

abbrev Duration := ℕ

namespace Duration

def fromSecs (seconds : ℕ) : Duration := seconds * 1000000000

def fromMillis (millis : ℕ) : Duration := millis * 1000000

def asMicros (duration : Duration) : ℕ := duration / 1000

end Duration

namespace Instant

/-- `start + duration` of the source. -/
def plus (start : Instant) (duration : Duration) : Instant :=
  start + duration.asMicros

/-- `later - earlier` of the source: zero when `earlier` is later. -/
def since (later earlier : Instant) : Duration :=
  (later - earlier) * 1000

end Instant

end EspDevkit.Net

/-!
## TCP segments

What `Segment::parse` reads from a TCP header and what `send_tcp` writes into
one.  Flags are kept as the bits the stack looks at; the two options it knows
are the maximum segment size and the window scale.
-/

namespace EspDevkit.Net

abbrev Seq := BitVec 32

abbrev Ipv4Addr := BitVec 32

structure SocketAddrV4 where
  ip : Ipv4Addr
  port : BitVec 16
  deriving DecidableEq, Repr

inductive Error
  | addrInUse
  | addrNotAvailable
  | noRoute
  | hostUnreachable
  | messageTooLarge
  | notConnected
  | connectionRefused
  | connectionReset
  | connectionAborted
  | brokenPipe
  | timedOut
  | noMemory
  /-- The link had no room for the frame; it was not sent. -/
  | wouldBlock
  deriving DecidableEq, Repr

/-- `HEADER` and `SYN_OPTIONS`: the bytes of a header, and of a SYN's options. -/
def tcpHeader : ℕ := 20

def synOptions : ℕ := 8

def maxWindowScale : ℕ := 14

scoped instance (priority := 1100) scales : NeZero (maxWindowScale + 1) := ⟨Nat.succ_ne_zero _⟩

def widestWindow : ℕ := 0xffff <<< maxWindowScale

structure Flags where
  fin : Bool := false
  syn : Bool := false
  rst : Bool := false
  psh : Bool := false
  ack : Bool := false
  deriving DecidableEq, Repr

/-- A received segment.  `Segment::parse` cuts the window scale to 14, and an
IPv4 packet has fewer than 65536 bytes. -/
structure Segment where
  srcPort : BitVec 16
  dstPort : BitVec 16
  seq : Seq
  ack : Seq
  flags : Flags
  window : BitVec 16
  mss : Option (BitVec 16)
  windowScale : Option (Fin (maxWindowScale + 1))
  data : List UInt8
  data_lt : data.length < 2 ^ 16
  deriving DecidableEq, Repr

theorem Segment.empty_lt : ([] : List UInt8).length < 2 ^ 16 := by decide

/-- `Segment::len`: the sequence numbers the segment takes. -/
def Segment.len (seg : Segment) : ℕ :=
  seg.data.length + seg.flags.syn.toNat + seg.flags.fin.toNat

/-- The options of a SYN: the maximum segment size, and the window scale when
it is offered. -/
structure SynOptions where
  mss : BitVec 16
  scale : Option ℕ
  deriving DecidableEq, Repr

/-- What `send_tcp` and `send_reset` hand to `send_ipv4`. -/
structure Datagram where
  src : SocketAddrV4
  dst : SocketAddrV4
  seq : Seq
  ack : Seq
  flags : Flags
  window : BitVec 16
  options : Option SynOptions
  data : List UInt8
  deriving DecidableEq, Repr

def Datagram.size (d : Datagram) : ℕ :=
  tcpHeader + (if d.options.isSome then synOptions else 0) + d.data.length

/-- The sequence numbers a sent segment takes. -/
def Datagram.len (d : Datagram) : ℕ :=
  d.data.length + d.flags.syn.toNat + d.flags.fin.toNat

/-- What the receiver's `Segment::parse` makes of a sent segment; a packet too
large for IPv4 arrives as none. -/
def Datagram.segment? (d : Datagram) : Option Segment :=
  if fits : d.data.length < 2 ^ 16 then
    some
      { srcPort := d.src.port
        dstPort := d.dst.port
        seq := d.seq
        ack := d.ack
        flags := d.flags
        window := d.window
        mss := d.options.map SynOptions.mss
        windowScale := d.options.bind fun options =>
          options.scale.map fun scale =>
            ⟨min scale maxWindowScale, Nat.lt_succ_of_le (Nat.min_le_right _ _)⟩
        data := d.data
        data_lt := fits }
  else none

end EspDevkit.Net
