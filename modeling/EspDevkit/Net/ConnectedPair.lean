import EspDevkit.Net.ReceivedStream

/-!
# Two ends of a connection

Two connections joined by a network that loses, repeats, delays and reorders
what they send.  A segment may arrive at any time after it was sent, any number
of times, or never.
-/

namespace EspDevkit.Net

open SerialNumber

/-- Fewer than 2^31 bytes are outstanding when a segment arrives: of the bytes
accepted since the first it carries, and of those not read yet. -/
def FewOutstanding (writer reader : Conn) (sofar : List UInt8) (d : Datagram) : Prop :=
  (d.data ≠ [] →
    ahead d.seq (finPlace writer.tcb.iss sofar) +
      ((acceptedIn writer.history).length - sofar.length) < 2 ^ 31) ∧
  (acceptedIn writer.history).length < (returnedIn reader.history).length + 2 ^ 31

instance (writer reader : Conn) (sofar : List UInt8) (d : Datagram) :
    Decidable (FewOutstanding writer reader sofar d) :=
  inferInstanceAs (Decidable (_ ∧ _))

/-- What is asked of a writer, a reader and a segment when it arrives. -/
abbrev Span := Conn → Conn → List UInt8 → Datagram → Prop

def anySpan : Span := fun _ _ _ _ => True

structure BareReset (seg : Segment) : Prop where
  rst : seg.flags.rst
  noSyn : seg.flags.syn = false
  noFin : seg.flags.fin = false
  empty : seg.data = []

inductive Arrives (few : Span) (writer : Option Conn) (reader : Conn) (seg : Segment) : Prop
  | sent {conn : Conn} {sofar : List UInt8} {d : Datagram} (writes : writer = some conn)
      (sending : (sofar, d) ∈ sendings conn.history) (parsed : d.segment? = some seg)
      (near : few conn reader sofar d)
  | reset (bare : BareReset seg)

def Joined (few : Span) (writer : Option Conn) (reader : Conn) : Tcb → Instant → Input → Prop :=
  fun _ _ input => ∀ seg, input = .segment seg → Arrives few writer reader seg

/-- The end that connects first, and the other once it is there. -/
structure Pair where
  left : Conn
  right : Option Conn

namespace Pair

inductive Initial : Pair → Prop
  | connecting (port : Port) (quiet : port.events = []) (localAddr remoteAddr : SocketAddrV4)
      (buffers : Buffers) (rcvMss : ℕ) (iss : Seq) (now : Instant) :
      Initial
        { left := .opened port (.connecting localAddr remoteAddr buffers rcvMss iss) now
          right := none }

inductive Step (few : Span) : Pair → Pair → Prop
  | left {pair : Pair} {left : Conn}
      (step : Conn.Step (Joined few pair.right pair.left) pair.left left) :
      Step few pair { pair with left }
  | right {pair : Pair} {before after : Conn} (there : pair.right = some before)
      (step : Conn.Step (Joined few (some pair.left) before) before after) :
      Step few pair { pair with right := some after }
  /-- A listener takes the SYN. -/
  | accept {pair : Pair} (port : Port) (quiet : port.events = []) (listener : ℕ)
      (localAddr remoteAddr : SocketAddrV4) (buffers : Buffers) (rcvMss : ℕ) (iss : Seq)
      (now : Instant) {sofar : List UInt8} {d : Datagram} {syn : Segment}
      (alone : pair.right = none) (sending : (sofar, d) ∈ sendings pair.left.history)
      (parsed : d.segment? = some syn)
      (flags : syn.flags.syn ∧ syn.flags.ack = false ∧ syn.flags.rst = false) :
      Step few pair
        { pair with
          right := some
            (.opened port (.accepting listener localAddr remoteAddr buffers rcvMss iss syn) now) }
  /-- Both ends connect. -/
  | connect {pair : Pair} (port : Port) (quiet : port.events = [])
      (localAddr remoteAddr : SocketAddrV4) (buffers : Buffers) (rcvMss : ℕ) (iss : Seq)
      (now : Instant) (alone : pair.right = none) :
      Step few pair
        { pair with
          right := some (.opened port (.connecting localAddr remoteAddr buffers rcvMss iss) now) }

abbrev Reachable (few : Span) : Pair → Prop := Transition.Reachable Initial (Step few)

end Pair

/-- A segment of those sent so far, as it arrives. -/
def Conn.nth (writer : Conn) (k : ℕ) : Input :=
  ((sendings writer.history)[k]?.bind fun sending => sending.2.segment?).elim .linkReady .segment

theorem joined_nth {few : Span} {writer reader : Conn} {k : ℕ}
    (near : ∀ sending ∈ (sendings writer.history)[k]?, few writer reader sending.1 sending.2)
    (tcb : Tcb) (now : Instant) : Joined few (some writer) reader tcb now (writer.nth k) := by
  intro seg arrives
  simp only [Conn.nth] at arrives
  cases found : (sendings writer.history)[k]? with
  | none => simp [found] at arrives
  | some sending =>
    cases parsed : sending.2.segment? with
    | none => simp [found, parsed] at arrives
    | some seg' =>
      simp only [found, Option.bind_some, parsed, Option.elim_some, Input.segment.injEq] at arrives
      rw [arrives] at parsed
      exact .sent rfl (List.mem_of_getElem? found) parsed (near sending found)

variable {now : Instant} {pair : Pair}

theorem joined_call {few : Span} {writer : Option Conn} {reader : Conn} {tcb : Tcb} {input : Input}
    (call : ∀ seg, input ≠ .segment seg) :
    Joined few writer reader tcb now input :=
  fun seg same => absurd same (call seg)

namespace Pair

def withLeft (pair : Pair) (now : Instant) (input : Input) : Pair :=
  { pair with left := pair.left.after {} 0 now input }

def withRight (pair : Pair) (right : Conn) (now : Instant) (input : Input) : Pair :=
  { pair with right := some (right.after {} 0 now input) }

theorem Reachable.withLeft {few : Span} (reachable : Reachable few pair) {input : Input}
    (possible : pair.left.tcb.freed = false ∧ input.possible pair.left.tcb)
    (joined : Joined few pair.right pair.left pair.left.tcb now input) :
    Reachable few (pair.withLeft now input) :=
  .next reachable (.left (.input {} rfl 0 now input possible.1 possible.2 joined))

theorem Reachable.withRight {few : Span} (reachable : Reachable few pair)
    {right : Conn} (there : pair.right = some right) {input : Input}
    (possible : right.tcb.freed = false ∧ input.possible right.tcb)
    (joined : Joined few (some pair.left) right right.tcb now input) :
    Reachable few (pair.withRight right now input) :=
  .next reachable (.right there (.input {} rfl 0 now input possible.1 possible.2 joined))

end Pair

namespace Exchange

/-- The SYN of `Conn.toServer`, and the server's end. -/
def syn : Segment :=
  { srcPort := 49152, dstPort := 80, seq := 1000, ack := 0, flags := { syn := true }
    window := 64, mss := some 1460, windowScale := some 0, data := [], data_lt := Segment.empty_lt }

def server : Conn :=
  .opened {}
    (.accepting 0 ⟨0x0a000002, 80⟩ ⟨0x0a000001, 49152⟩ ⟨64, 64, Buffers.sixtyFour_lt, Buffers.sixtyFour_lt⟩ 1460 5000 syn)
    50

def joined : Pair := { left := Conn.toServer, right := some server }

def written : Pair := (joined.withLeft 100 (server.nth 0)).withLeft 200 (.write [1, 2, 3])

def taken : Conn := server.after {} 0 250 (written.left.nth 2)

def accepted : Conn := taken.after {} 0 300 .accept

def reader : Conn := accepted.after {} 0 350 (.read 8)

theorem reachable : Pair.Reachable FewOutstanding { left := written.left, right := some reader } := by
  have alone : Pair.Reachable FewOutstanding { left := Conn.toServer, right := none } :=
    .start (.connecting {} rfl _ _ _ _ _ 0)
  have joined : Pair.Reachable FewOutstanding joined :=
    .next alone (.accept {} rfl 0 _ _ _ 1460 5000 50 rfl (List.mem_of_getElem? (i := 0) rfl) rfl
      (by decide))
  have connected : Pair.Reachable FewOutstanding (Exchange.joined.withLeft 100 (server.nth 0)) :=
    joined.withLeft (by decide) (joined_nth (k := 0) (by decide) _ _)
  have written : Pair.Reachable FewOutstanding Exchange.written :=
    connected.withLeft (by decide) (joined_call (by simp))
  have taken : Pair.Reachable FewOutstanding (Exchange.written.withRight server 250 _) :=
    written.withRight rfl (by decide) (joined_nth (k := 2) (by decide) _ _)
  have accepted : Pair.Reachable FewOutstanding
      ((Exchange.written.withRight server 250 _).withRight Exchange.taken 300 .accept) :=
    taken.withRight rfl (by decide) (joined_call (by simp))
  exact accepted.withRight rfl (by decide) (joined_call (by simp))

end Exchange

structure Deaf (c : Core) (history : List Happening) : Prop where
  state : c.state = .synSent ∨ c.state = .closed
  silent : ∀ d ∈ sentIn history, d.flags.ack → d.flags.rst

theorem Deaf.move {ctx : Context} {before after : Core} {history labels : List Happening}
    (deaf : Deaf before history) (move : Move ctx before labels after)
    (noSyn : ∀ raw, ctx.incoming = some raw → raw.flags.syn = false) :
    Deaf after (history ++ labels) := by
  have never : before.state.synchronized → ∀ {P : Prop}, P := by
    intro synchronized
    rcases deaf.state with state | state <;> simp [state, State.synchronized] at synchronized
  have keep : ∀ {after labels}, after.state = .synSent ∨ after.state = .closed →
      (∀ d ∈ sentIn labels, d.flags.ack → d.flags.rst) → Deaf after (history ++ labels) := by
    intro after labels state silent
    refine ⟨state, fun d member => ?_⟩
    rw [sentIn_append, List.mem_append] at member
    exact member.elim (deaf.silent d) (silent d)
  cases move with
  | offer =>
    obtain ⟨adv, eq⟩ := offered_eq before
    rw [eq]
    exact keep deaf.state (by simp [sentIn, Happening.sent?])
  | sendSyn flags handshake behind sends =>
    refine keep deaf.state ?_
    rcases handshake with ⟨_, rfl⟩ | ⟨state, _⟩
    · simp [sentIn, Happening.sent?, sends.flagsEq]
    · rcases deaf.state with other | other <;> simp [state] at other
  | send n fin psh synchronized => exact never synchronized
  | resend n synchronized => exact never synchronized
  | sendAck seq synchronized => exact never synchronized
  | sendRst rst => exact keep deaf.state (by simp [sentIn, Happening.sent?, rst])
  | simultaneous seg incoming _ syn => simp [noSyn seg incoming] at syn
  | connected seg incoming _ syn => simp [noSyn seg incoming] at syn
  | established raw seg _ _ opening =>
    rcases deaf.state with state | state <;> simp [state] at opening
  | acked raw seg _ _ synchronized => exact never synchronized
  | finAcked =>
    refine keep ?_ (by simp [sentIn])
    rcases deaf.state with state | state <;> simp [Core.finAcked, state]
  | data fits raw seg _ _ _ takes =>
    rcases deaf.state with state | state <;> simp [state, State.takesData] at takes
  | fin =>
    refine keep ?_ (by simp [sentIn])
    rcases deaf.state with state | state <;> simp [Core.takeFin, state]
  | startPersist synchronized => exact never synchronized
  | shutdown state _ from' =>
    rcases deaf.state with before | before <;> simp [before] at from'
  | close => exact keep (Or.inr rfl) (by simp [sentIn])
  | push fits bytes happenings writable =>
    rcases deaf.state with before | before <;> simp [before] at writable
  | popLook n held some synchronized => exact never synchronized
  | window | timeout | persist | stopRetransmit | release | pop =>
    exact keep deaf.state (by simp [sentIn, Happening.sent?])

/-- What holds of an end, whether its peer's SYN went out or not. -/
structure EndInv (synOut : Prop) (c : Core) (history : List Happening) : Prop where
  send : SendInv True True c.toSendSide
  receive : ReceiveInv c
  sent : StreamSent c history
  deaf : synOut ∨ Deaf c history

namespace EndInv

variable {ctx : Context} {synOut : Prop} {c : Core} {history : List Happening}

theorem move (inv : EndInv synOut c history) {after : Core} {labels : List Happening}
    (move : Move ctx c labels after) (notWild : ¬ ctx.wild)
    (syn : ∀ raw, ctx.incoming = some raw → raw.flags.syn → synOut) :
    EndInv synOut after (history ++ labels) := by
  refine ⟨inv.send.move move (fun _ => trivial) (fun _ => trivial) notWild, inv.receive.move move,
    inv.sent.move inv.send move, ?_⟩
  by_cases out : synOut
  · exact Or.inl out
  · refine Or.inr ((inv.deaf.resolve_left out).move move fun raw incoming => ?_)
    exact Bool.eq_false_of_not_eq_true fun flag => out (syn raw incoming flag)

theorem dropBuffers (inv : EndInv synOut c history) (waiting : c.state = .timeWait) :
    EndInv synOut c.dropBuffers history := by
  refine ⟨inv.send.dropBuffers waiting, inv.receive.dropBuffers waiting,
    inv.sent.dropBuffers inv.send waiting, inv.deaf.imp_right fun deaf => ?_⟩
  rcases deaf.state with state | state <;> simp [waiting] at state

theorem mono (inv : EndInv synOut c history) {synOut' : Prop} (out : synOut → synOut') :
    EndInv synOut' c history :=
  ⟨inv.send, inv.receive, inv.sent, inv.deaf.imp_left out⟩

theorem opened {tcb : Tcb} {port : Port} (quiet : port.events = []) (fresh : Conn.Fresh tcb)
    (deaf : synOut ∨ tcb.state = .synSent) (now : Instant) :
    EndInv synOut (Conn.opened port tcb now).tcb.core (Conn.opened port tcb now).history :=
  Conn.opened_invariant quiet
    ⟨.fresh fresh, .fresh fresh, .fresh fresh,
      deaf.imp_right fun state => ⟨Or.inl state, by simp [sentIn]⟩⟩
    (fun _ _ _ _ inv move => inv.move move id (by simp)) now

end EndInv

def Conn.synOut (conn : Conn) : Prop := ∃ d ∈ sentIn conn.history, d.flags.syn

abbrev Faces (writer reader : Conn) : Prop :=
  EndInv writer.synOut reader.tcb.core reader.history

theorem segment?_eq {d : Datagram} {seg : Segment} (parsed : d.segment? = some seg) :
    seg.seq = d.seq ∧ seg.ack = d.ack ∧ seg.flags = d.flags ∧ seg.data = d.data := by
  simp only [Datagram.segment?] at parsed
  split at parsed
  · cases parsed
    exact ⟨rfl, rfl, rfl, rfl⟩
  · simp at parsed

theorem completesHandshake_flags {tcb : Tcb} {seg : Segment}
    (completes : tcb.completesHandshake seg) :
    tcb.state.opening ∧ seg.flags.ack ∧ seg.flags.rst = false := by
  have trimmed : (trimSyn tcb seg).flags.ack = seg.flags.ack ∧
      (trimSyn tcb seg).flags.rst = seg.flags.rst := by
    simp only [trimSyn]
    split <;> exact ⟨rfl, rfl⟩
  cases state : tcb.state <;>
    simp [Tcb.completesHandshake, state, State.opening, trimmed] at completes ⊢
  · exact ⟨completes.1.1.2, completes.1.2⟩
  · exact ⟨completes.1.2, completes.1.1.1.2⟩

namespace Faces

variable {few : Span} {writer reader after : Conn}

/-- An acknowledgment comes only after the SYN went out. -/
theorem synOut_of_ack (faces : Faces writer reader) (back : Faces reader writer)
    {sofar : List UInt8} {d : Datagram} (sending : (sofar, d) ∈ sendings writer.history)
    (ack : d.flags.ack) (noRst : d.flags.rst = false) (opening : reader.tcb.state.opening) :
    reader.tcb.sndMax ≠ reader.tcb.iss := by
  refine faces.sent.synOut (back.deaf.resolve_right fun deaf => ?_) opening
  simp [deaf.silent _ (mem_sentIn_of_sendingsFrom sending) ack] at noRst

theorem notWild (faces : Faces writer reader) (back : Faces reader writer)
    {input : Input} (joined : Joined few (some writer) reader reader.tcb now input) :
    ¬ (input.context reader.tcb now).wild := by
  cases input with
  | segment seg =>
    rintro ⟨completes, unsent⟩
    obtain ⟨opening, ack, noRst⟩ := completesHandshake_flags completes
    rcases joined seg rfl with ⟨writes, sending, parsed, _⟩ | ⟨bare⟩
    · cases writes
      obtain ⟨_, _, flags, _⟩ := segment?_eq parsed
      rw [flags] at ack noRst
      exact faces.synOut_of_ack back sending ack noRst opening unsent
    · simp [bare.rst] at noRst
  | _ => exact id

theorem synOut_of_syn {input : Input} {raw : Segment}
    (joined : Joined few (some writer) reader reader.tcb now input)
    (incoming : (input.context reader.tcb now).incoming = some raw) (syn : raw.flags.syn) :
    writer.synOut := by
  cases input with
  | segment seg =>
    cases incoming
    rcases joined raw rfl with ⟨writes, sending, parsed, _⟩ | ⟨bare⟩
    · cases writes
      obtain ⟨_, _, flags, _⟩ := segment?_eq parsed
      exact ⟨_, mem_sentIn_of_sendingsFrom sending, by rw [← flags]; exact syn⟩
    · simp [bare.noSyn] at syn
  | _ => cases incoming

theorem reads (faces : Faces writer reader) (back : Faces reader writer)
    (step : Conn.Step (Joined few (some writer) reader) reader after) : Faces writer after := by
  refine @Conn.Step.keeps _ (EndInv writer.synOut) _ _ step faces ?_
    fun _ _ waiting _ inv => inv.dropBuffers waiting
  intro now input joined _ c history labels c' inv move
  exact inv.move move (notWild faces back joined) fun raw incoming => synOut_of_syn joined incoming

theorem synOut_step {allowed : Tcb → Instant → Input → Prop} {before after : Conn}
    (step : Conn.Step allowed before after) (out : before.synOut) : after.synOut := by
  obtain ⟨_, _, labels, _, _, _, history, _⟩ := step.moves
  obtain ⟨d, member, syn⟩ := out
  exact ⟨d, by rw [history, sentIn_append]; exact List.mem_append_left _ member, syn⟩

end Faces

/-- What holds of the two ends; the first hears nothing as long as it is
alone. -/
def PairInv (pair : Pair) : Prop :=
  match pair.right with
  | none => EndInv False pair.left.tcb.core pair.left.history
  | some right => Faces right pair.left ∧ Faces pair.left right

namespace PairInv

variable {few : Span}

theorem initial (initial : Pair.Initial pair) : PairInv pair := by
  cases initial with
  | connecting port quiet localAddr remoteAddr buffers rcvMss iss now =>
    exact .opened quiet (.connecting ..) (Or.inr rfl) now

theorem alone {left after : Conn} (inv : EndInv False left.tcb.core left.history)
    (step : Conn.Step (Joined few none left) left after) :
    EndInv False after.tcb.core after.history := by
  refine step.keeps inv ?_ fun _ _ waiting _ inv => inv.dropBuffers waiting
  intro now input joined _ c history labels c' inv move
  cases input with
  | segment seg =>
    rcases joined seg rfl with ⟨writes⟩ | ⟨bare⟩
    · cases writes
    · refine inv.move move ?_ fun raw incoming syn => ?_
      · rintro ⟨completes, _⟩
        have noRst := (completesHandshake_flags completes).2.2
        simp [bare.rst] at noRst
      · cases incoming
        simp [bare.noSyn] at syn
  | _ => exact inv.move move id (by simp [Input.context])

theorem step {before after : Pair} (inv : PairInv before) (step : Pair.Step few before after) :
    PairInv after := by
  cases step with
  | left step =>
    cases there : before.right with
    | none =>
      simp only [PairInv, there] at inv step ⊢
      exact alone inv step
    | some right =>
      simp only [PairInv, there] at inv step ⊢
      exact ⟨Faces.reads inv.1 inv.2 step, inv.2.mono (Faces.synOut_step step)⟩
  | right there step =>
    simp only [PairInv, there] at inv ⊢
    exact ⟨inv.1.mono (Faces.synOut_step step), Faces.reads inv.2 inv.1 step⟩
  | accept port quiet listener localAddr remoteAddr buffers rcvMss iss now alone sending parsed
      flags =>
      simp only [PairInv, alone] at inv ⊢
      obtain ⟨_, _, same, _⟩ := segment?_eq parsed
      refine ⟨inv.mono False.elim, .opened quiet (.accepting _ _ _ _ _ _ _ flags.1) (Or.inl ?_) now⟩
      exact ⟨_, mem_sentIn_of_sendingsFrom sending, by rw [← same]; exact flags.1⟩
  | connect port quiet localAddr remoteAddr buffers rcvMss iss now alone =>
    simp only [PairInv, alone] at inv ⊢
    exact ⟨inv.mono False.elim, .opened quiet (.connecting ..) (Or.inr rfl) now⟩

theorem of_reachable (reachable : Pair.Reachable few pair) : PairInv pair :=
  @Transition.Reachable.invariant _ Pair.Initial (Pair.Step few) PairInv (fun _ => initial)
    (fun _ _ inv => inv.step) _ reachable

end PairInv

end EspDevkit.Net
