import EspDevkit.Net.TcpRefinement

/-!
# Runs of a connection

A connection from the call that makes it on, through any sequence of inputs,
with any answers of its link and its allocator.  What holds of a fresh
connection and is kept by every move holds in every state such a run reaches.
-/

namespace EspDevkit.Net

structure Conn where
  tcb : Tcb
  history : List Happening

namespace Happening

def sent? : Happening → Option Datagram
  | .port (.sent d) => some d
  | _ => none

def edge? : Happening → Option EdgeCall
  | .port (.edge call) => some call
  | _ => none

def acceptedBytes : Happening → List UInt8
  | .accepted bytes => bytes
  | _ => []

def returnedBytes : Happening → List UInt8
  | .returned bytes => bytes
  | _ => []

end Happening

def sentIn (history : List Happening) : List Datagram := history.filterMap Happening.sent?

def edgesIn (history : List Happening) : List EdgeCall := history.filterMap Happening.edge?

/-- The bytes `tcp_write` accepted. -/
def acceptedIn (history : List Happening) : List UInt8 :=
  history.flatMap Happening.acceptedBytes

/-- The bytes `tcp_read` returned. -/
def returnedIn (history : List Happening) : List UInt8 :=
  history.flatMap Happening.returnedBytes

@[simp]
theorem sentIn_append (history later : List Happening) :
    sentIn (history ++ later) = sentIn history ++ sentIn later :=
  List.filterMap_append

@[simp]
theorem edgesIn_append (history later : List Happening) :
    edgesIn (history ++ later) = edgesIn history ++ edgesIn later :=
  List.filterMap_append

@[simp]
theorem acceptedIn_append (history later : List Happening) :
    acceptedIn (history ++ later) = acceptedIn history ++ acceptedIn later :=
  List.flatMap_append

@[simp]
theorem returnedIn_append (history later : List Happening) :
    returnedIn (history ++ later) = returnedIn history ++ returnedIn later :=
  List.flatMap_append

namespace Conn

/-- A connection just made and its first output. -/
def opened (port : Port) (tcb : Tcb) (now : Instant) : Conn :=
  let (port, tcb) := tcpOutput port tcb now
  { tcb, history := port.events.map .port }

/-- The connections `tcp_connect` and `tcp_passive_open` make. -/
inductive Fresh : Tcb → Prop
  | connecting (localAddr remoteAddr : SocketAddrV4) (buffers : Buffers) (rcvMss : ℕ)
      (iss : Seq) : Fresh (.connecting localAddr remoteAddr buffers rcvMss iss)
  | accepting (listener : ℕ) (localAddr remoteAddr : SocketAddrV4) (buffers : Buffers)
      (rcvMss : ℕ) (iss : Seq) (syn : Segment) (flag : syn.flags.syn) :
      Fresh (.accepting listener localAddr remoteAddr buffers rcvMss iss syn)

inductive Initial : Conn → Prop
  | opened (port : Port) (quiet : port.events = []) {tcb : Tcb} (fresh : Fresh tcb)
      (now : Instant) : Initial (opened port tcb now)

/-- The connection after an input; `port` answers for the link and the
allocator during the step. -/
def after (conn : Conn) (port : Port) (slot : ℕ) (now : Instant) (input : Input) : Conn :=
  let (port, tcb, reply) := conn.tcb.step port slot now input
  { tcb, history := conn.history ++ (input.happenings reply ++ port.events.map .port) }

inductive Step (allowed : Tcb → Instant → Input → Prop) : Conn → Conn → Prop
  | input {conn : Conn} (port : Port) (quiet : port.events = []) (slot : ℕ) (now : Instant)
      (input : Input) (kept : conn.tcb.freed = false) (possible : input.possible conn.tcb)
      (ok : allowed conn.tcb now input) :
      Step allowed conn (conn.after port slot now input)

abbrev Reachable (allowed : Tcb → Instant → Input → Prop) : Conn → Prop :=
  Transition.Reachable Initial (Step allowed)

def anyInput : Tcb → Instant → Input → Prop := fun _ _ _ => True

variable {allowed : Tcb → Instant → Input → Prop} {holds : Core → List Happening → Prop}

theorem opened_invariant {tcb : Tcb} {port : Port} (quiet : port.events = [])
    (start : holds tcb.core [])
    (kept : ∀ before history labels after, holds before history →
      Move {} before labels after → holds after (history ++ labels)) (now : Instant) :
    holds (opened port tcb now).tcb.core (opened port tcb now).history := by
  obtain ⟨events, recorded, moves⟩ := tcpOutput_runs {} port tcb now
  have result := moves.invariant kept start
  have all : (tcpOutput port tcb now).1.events = events := by simpa [quiet] using recorded
  rw [List.nil_append, ← all] at result
  exact result

theorem Initial.invariant (start : ∀ tcb, Fresh tcb → holds tcb.core [])
    (kept : ∀ before history labels after, holds before history →
      Move {} before labels after → holds after (history ++ labels))
    {conn : Conn} (initial : Initial conn) : holds conn.tcb.core conn.history := by
  cases initial with
  | opened port quiet fresh now => exact opened_invariant quiet (start _ fresh) kept now

theorem Step.moves {before after : Conn} (step : Step allowed before after) :
    ∃ now input labels core, allowed before.tcb now input ∧ input.possible before.tcb ∧
      after.history = before.history ++ labels ∧
      Moves (input.context before.tcb now) before.tcb.core labels core ∧
      (after.tcb.core = core ∨ core.state = .timeWait ∧ core.released ∧
        after.tcb.core = core.dropBuffers) := by
  obtain ⟨port, quiet, slot, now, input, _, possible, ok⟩ := step
  obtain ⟨port', tcb', tcb'', reply, eq, ⟨events, recorded, moves⟩, dropped⟩ :=
    step_runs port slot before.tcb now input possible
  refine ⟨now, input, input.happenings reply ++ port'.events.map .port, tcb'.core, ok, possible,
    ?_, ?_, ?_⟩
  · simp only [Conn.after, eq]
  · have all : port'.events = events := by simpa [quiet] using recorded
    simpa only [all] using moves
  · simp only [Conn.after, eq]
    exact dropped

/-- What every move of a step keeps, and giving up the buffers, is kept by the
step. -/
theorem Step.keeps {before after : Conn} (step : Step allowed before after)
    (start : holds before.tcb.core before.history)
    (kept : ∀ now input, allowed before.tcb now input → input.possible before.tcb →
      ∀ core history labels core', holds core history →
        Move (input.context before.tcb now) core labels core' → holds core' (history ++ labels))
    (drops : ∀ core history, core.state = .timeWait → core.released → holds core history →
      holds core.dropBuffers history) : holds after.tcb.core after.history := by
  obtain ⟨now, input, labels, core, ok, possible, history, moves, dropped⟩ := step.moves
  have reached := moves.invariant (kept now input ok possible) start
  rw [history]
  rcases dropped with same | ⟨waiting, released, same⟩
  · rw [same]
    exact reached
  · rw [same]
    exact drops core _ waiting released reached

theorem Step.invariant
    (kept : ∀ tcb now input start, allowed tcb now input → holds tcb.core start →
      ∀ before history labels after, holds before history →
        Move (input.context tcb now) before labels after → holds after (history ++ labels))
    (drops : ∀ core history, core.state = .timeWait → core.released → holds core history →
      holds core.dropBuffers history)
    {before after : Conn} (step : Step allowed before after)
    (start : holds before.tcb.core before.history) : holds after.tcb.core after.history :=
  step.keeps start (fun now input ok _ => kept before.tcb now input before.history ok start) drops

theorem Reachable.invariant (start : ∀ tcb, Fresh tcb → holds tcb.core [])
    (opening : ∀ before history labels after, holds before history →
      Move {} before labels after → holds after (history ++ labels))
    (kept : ∀ tcb now input start, allowed tcb now input → holds tcb.core start →
      ∀ before history labels after, holds before history →
        Move (input.context tcb now) before labels after → holds after (history ++ labels))
    (drops : ∀ core history, core.state = .timeWait → core.released → holds core history →
      holds core.dropBuffers history)
    {conn : Conn} (reachable : Reachable allowed conn) :
    holds conn.tcb.core conn.history :=
  @Transition.Reachable.invariant _ _ _ (fun conn => holds conn.tcb.core conn.history)
    (fun _ initial => initial.invariant start opening)
    (fun _ _ before step => step.invariant kept drops before) _ reachable

/-- Inputs one after another, each with what the link and the allocator answer
during it. -/
def run (conn : Conn) : List (Port × Instant × Input) → Conn
  | [] => conn
  | (port, now, input) :: steps => (conn.after port 0 now input).run steps

def runs (allowed : Tcb → Instant → Input → Prop)
    [∀ tcb now input, Decidable (allowed tcb now input)] (conn : Conn) :
    List (Port × Instant × Input) → Bool
  | [] => true
  | (port, now, input) :: steps =>
    port.events.isEmpty && !conn.tcb.freed && input.possible conn.tcb &&
      decide (allowed conn.tcb now input) && (conn.after port 0 now input).runs allowed steps

instance (tcb : Tcb) (now : Instant) (input : Input) : Decidable (anyInput tcb now input) :=
  .isTrue trivial

theorem Reachable.run [∀ tcb now input, Decidable (allowed tcb now input)] {conn : Conn}
    (reachable : Reachable allowed conn) {steps : List (Port × Instant × Input)}
    (possible : conn.runs allowed steps) : Reachable allowed (conn.run steps) := by
  induction steps generalizing conn with
  | nil => exact reachable
  | cons step steps ih =>
    obtain ⟨port, now, input⟩ := step
    simp only [runs, Bool.and_eq_true, List.isEmpty_iff, Bool.not_eq_true',
      decide_eq_true_eq] at possible
    obtain ⟨⟨⟨⟨quiet, kept⟩, possibleNow⟩, ok⟩, rest⟩ := possible
    exact ih (.next reachable (.input port quiet 0 now input kept possibleNow ok)) rest

def toServer : Conn :=
  opened {} (.connecting ⟨0x0a000001, 49152⟩ ⟨0x0a000002, 80⟩
    ⟨64, 64, Buffers.sixtyFour_lt, Buffers.sixtyFour_lt⟩ 1460 1000) 0

theorem toServer_reachable (allowed : Tcb → Instant → Input → Prop) :
    Reachable allowed toServer :=
  .start (.opened {} rfl (.connecting _ _ _ _ _) 0)

def fromServer (seq ack : Seq) (flags : Flags) : Input :=
  .segment
    { srcPort := 80, dstPort := 49152, seq, ack, flags, window := 1000
      mss := none, windowScale := none, data := [], data_lt := Segment.empty_lt }

def dataFromServer (seq : Seq) (data : List UInt8) (short : data.length < 2 ^ 16) : Segment :=
  { srcPort := 80, dstPort := 49152, seq, ack := 1001, flags := { ack := true }
    window := 1000, mss := none, windowScale := none, data, data_lt := short }

def serverSynAck : Input := fromServer 5000 1001 { syn := true, ack := true }

end Conn

end EspDevkit.Net
