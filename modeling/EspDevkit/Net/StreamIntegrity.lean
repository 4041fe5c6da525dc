import EspDevkit.Net.ConnectedPair

/-!
# Stream integrity

What either end of a connection reads is a prefix of what the other writes,
and the end of the stream comes after all of it, whatever the network does to
the segments.
-/

namespace EspDevkit.Net

open SerialNumber List

/-- Nothing accepted is taken back, and nothing more is accepted once the FIN is
queued. -/
theorem Move.writes {ctx : Context} {before after : Core} {labels : List Happening}
    (move : Move ctx before labels after) :
    after.iss = before.iss ∧
      (before.finQueued → after.finQueued ∧ acceptedIn labels = []) := by
  cases move with
  | offer =>
    obtain ⟨adv, eq⟩ := offered_eq before
    rw [eq]
    exact ⟨rfl, fun queued => ⟨queued, rfl⟩⟩
  | acked raw seg =>
    refine ⟨?_, fun queued => ⟨?_, rfl⟩⟩ <;> simp only [Core.recordAck, Core.dropAcked] <;>
      split <;> first | rfl | exact queued
  | finAcked =>
    refine ⟨?_, fun queued => ⟨?_, rfl⟩⟩ <;> simp only [Core.finAcked] <;>
      split <;> first | rfl | exact queued
  | data fits raw seg =>
    refine ⟨?_, fun queued => ⟨?_, rfl⟩⟩ <;> simp only [Core.takeBytes] <;>
      split <;> first | rfl | exact queued
  | shutdown => exact ⟨rfl, fun _ => ⟨rfl, rfl⟩⟩
  | push fits bytes happenings writable more => exact ⟨rfl, fun queued => by simp [more] at queued⟩
  | _ => exact ⟨rfl, fun queued => ⟨queued, rfl⟩⟩

abbrev Hears (writer reader : Conn) : Prop :=
  Received writer.tcb.iss (acceptedIn writer.history) writer.tcb.finQueued reader.tcb.core
    (returnedIn reader.history)

theorem BareReset.tells {seg : Segment} (bare : BareReset seg) (iss : Seq)
    (accepted : List UInt8) (ended : Prop) : Tells iss accepted ended seg :=
  ⟨by simp [bare.noSyn], fun some => absurd bare.empty some, by simp [bare.noFin]⟩

/-- What arrives tells the truth as long as few bytes are outstanding. -/
theorem Tells.of_sending {writer reader : Conn} (sent : StreamSent writer.tcb.core writer.history)
    {sofar : List UInt8} {d : Datagram} {seg : Segment}
    (sending : (sofar, d) ∈ sendings writer.history) (parsed : d.segment? = some seg)
    (few : FewOutstanding writer reader sofar d) :
    Tells writer.tcb.iss (acceptedIn writer.history) writer.tcb.finQueued seg := by
  have carries := sent.carries sofar d sending
  have past := sent.past sofar d sending
  obtain ⟨seq, _, flags, data⟩ := segment?_eq parsed
  refine ⟨?_, ?_, ?_⟩
  · rw [seq, flags, data]
    exact carries.syn
  · rw [seq, data]
    intro some
    obtain ⟨pos, place', piece, near⟩ := carries.data some
    have length := past.length_le
    have within := few.1 some
    have some' : 0 < d.data.length := length_pos_iff.mpr some
    have inside := piece.length_le
    rw [length_drop] at inside
    have span : ahead d.seq (finPlace writer.tcb.iss sofar) = sofar.length - pos := by
      rw [place', show finPlace writer.tcb.iss sofar =
        place writer.tcb.iss (1 + pos + (sofar.length - pos)) by rw [finPlace]; congr 1; omega]
      exact (ahead_place_mod _ _ _).trans (Nat.mod_eq_of_lt (by omega))
    refine ⟨pos, place', piece.trans ?_, by omega⟩
    obtain ⟨new, eq⟩ := past
    rw [← eq, drop_append_of_le_length (by omega)]
    exact prefix_append _ _
  · rw [seq, flags, data]
    intro fin
    obtain ⟨queued, same⟩ := sent.ended sofar d sending fin
    exact ⟨queued, same ▸ carries.fin fin⟩

namespace Hears

variable {writer reader after : Conn}

theorem reads (hears : Hears writer reader) (faces : Faces writer reader)
    (back : Faces reader writer)
    (step : Conn.Step (Joined FewOutstanding (some writer) reader) reader after) :
    Hears writer after := by
  refine (@Conn.Step.keeps _ (fun c history =>
    ReceiveInv c ∧ Received writer.tcb.iss (acceptedIn writer.history) writer.tcb.finQueued c
      (returnedIn history) ∧ (returnedIn reader.history).length ≤ (returnedIn history).length)
    _ _ step ⟨faces.receive, hears, Nat.le_refl _⟩ ?_
    fun _ _ waiting released ⟨inv, received, more⟩ =>
      ⟨inv.dropBuffers waiting, received.dropBuffers inv waiting released, more⟩).2.1
  rintro now input joined _ c history labels c' ⟨inv, received, more⟩ move
  refine ⟨inv.move move, ?_, by rw [returnedIn_append, length_append]; omega⟩
  rw [returnedIn_append]
  refine received.move move fun raw incoming => ?_
  cases input with
  | segment seg =>
    cases incoming
    rcases joined raw rfl with ⟨writes, sending, parsed, few⟩ | ⟨bare⟩
    · cases writes
      refine ⟨.of_sending back.sent sending parsed few, fun _ => ?_⟩
      have := few.2
      omega
    · exact ⟨bare.tells _ _ _, by simp [bare.empty, bare.noFin]⟩
  | _ => cases incoming

theorem writes (hears : Hears reader writer) {allowed : Tcb → Instant → Input → Prop}
    (step : Conn.Step allowed reader after) : Hears after writer := by
  have wrote := @Conn.Step.keeps _ (fun c history =>
    c.iss = reader.tcb.iss ∧ acceptedIn reader.history <+: acceptedIn history ∧
      (reader.tcb.finQueued → c.finQueued ∧ acceptedIn history = acceptedIn reader.history))
    _ _ step ⟨rfl, prefix_rfl, fun queued => ⟨queued, rfl⟩⟩ ?_ fun _ _ _ _ kept => kept
  · obtain ⟨iss, grows, stops⟩ := wrote
    have iss : after.tcb.iss = reader.tcb.iss := iss
    rw [Hears, iss]
    exact Received.later hears grows stops
  · rintro now input _ _ c history labels c' ⟨iss, grows, stops⟩ move
    obtain ⟨iss', stops'⟩ := move.writes
    refine ⟨iss'.trans iss, ?_, fun queued => ?_⟩
    · rw [acceptedIn_append]
      exact grows.trans (prefix_append _ _)
    · obtain ⟨queued', same⟩ := stops queued
      obtain ⟨queued'', nothing⟩ := stops' queued'
      exact ⟨queued'', by rw [acceptedIn_append, nothing, append_nil, same]⟩

end Hears

theorem received_connecting {iss : Seq} {accepted : List UInt8} {ended : Prop}
    (localAddr remoteAddr : SocketAddrV4) (buffers : Buffers) (rcvMss : ℕ) (own : Seq) :
    Received iss accepted ended (Tcb.connecting localAddr remoteAddr buffers rcvMss own).core [] :=
  .waiting (Or.inl rfl) rfl rfl (fun right => holding_new _ right) rfl rfl

theorem received_accepting {iss : Seq} {accepted : List UInt8} {ended : Prop} (listener : ℕ)
    (localAddr remoteAddr : SocketAddrV4) (buffers : Buffers) (rcvMss : ℕ) (own : Seq)
    {syn : Segment} (seq : syn.seq = iss) :
    Received iss accepted ended
      (Tcb.accepting listener localAddr remoteAddr buffers rcvMss own syn).core [] := by
  refine .receiving 0 ⟨?_, Nat.zero_le _, rfl, holding_new _ _, ?_, ?_, fun _ => rfl⟩
  · change syn.seq + 1 = _
    rw [seq]
    rfl
  · intro fin
    simp [Tcb.core, Tcb.accepting, Tcb.new, Tcb.onSyn] at fin
  · simp [Tcb.core, Tcb.accepting, Tcb.new, Tcb.onSyn]

theorem received_opened {iss : Seq} {accepted : List UInt8} {ended : Prop} {tcb : Tcb}
    {port : Port} (quiet : port.events = []) (received : Received iss accepted ended tcb.core [])
    (now : Instant) :
    Received iss accepted ended (Conn.opened port tcb now).tcb.core
      (returnedIn (Conn.opened port tcb now).history) := by
  refine @Conn.opened_invariant (fun c history => Received iss accepted ended c (returnedIn history))
    tcb port quiet received (fun _ _ _ _ received move => ?_) now
  rw [returnedIn_append]
  exact received.move move (by simp)

/-- What each end of a pair has heard of the other; the first has heard nothing
as long as it is alone. -/
def PairHears (pair : Pair) : Prop :=
  match pair.right with
  | none => ∀ iss, Received iss [] False pair.left.tcb.core (returnedIn pair.left.history)
  | some right => Hears right pair.left ∧ Hears pair.left right

namespace PairHears

theorem initial {pair : Pair} (initial : Pair.Initial pair) : PairHears pair := by
  cases initial with
  | connecting port quiet localAddr remoteAddr buffers rcvMss iss now =>
    exact fun _ => received_opened quiet (received_connecting ..) now

theorem alone {left after : Conn} (inv : EndInv False left.tcb.core left.history) {iss : Seq}
    (received : Received iss [] False left.tcb.core (returnedIn left.history))
    (step : Conn.Step (Joined FewOutstanding none left) left after) :
    Received iss [] False after.tcb.core (returnedIn after.history) := by
  refine (@Conn.Step.keeps _ (fun c history =>
    ReceiveInv c ∧ Received iss [] False c (returnedIn history)) _ _ step ⟨inv.receive, received⟩ ?_
    fun _ _ waiting released ⟨inv, received⟩ =>
      ⟨inv.dropBuffers waiting, received.dropBuffers inv waiting released⟩).2
  rintro now input joined _ c history labels c' ⟨inv, received⟩ move
  refine ⟨inv.move move, ?_⟩
  rw [returnedIn_append]
  refine received.move move fun raw incoming => ?_
  cases input with
  | segment seg =>
    cases incoming
    rcases joined raw rfl with ⟨writes⟩ | ⟨bare⟩
    · cases writes
    · exact ⟨bare.tells _ _ _, by simp [bare.empty, bare.noFin]⟩
  | _ => cases incoming

theorem join {left right : Conn}
    (received : ∀ iss, Received iss [] False left.tcb.core (returnedIn left.history))
    (hears : Hears left right) : Hears right left ∧ Hears left right :=
  ⟨(received right.tcb.iss).later nil_prefix False.elim, hears⟩

theorem step {before after : Pair} (inv : PairInv before) (hears : PairHears before)
    (step : Pair.Step FewOutstanding before after) : PairHears after := by
  cases step with
  | left step =>
    cases there : before.right with
    | none =>
      simp only [PairInv, PairHears, there] at inv hears step ⊢
      exact fun iss => alone inv (hears iss) step
    | some right =>
      simp only [PairInv, PairHears, there] at inv hears step ⊢
      exact ⟨Hears.reads hears.1 inv.1 inv.2 step, Hears.writes hears.2 step⟩
  | right there step =>
    simp only [PairInv, PairHears, there] at inv hears ⊢
    exact ⟨Hears.writes hears.1 step, Hears.reads hears.2 inv.2 inv.1 step⟩
  | accept port quiet listener localAddr remoteAddr buffers rcvMss iss now alone sending parsed
      flags =>
      simp only [PairInv, PairHears, alone] at inv hears ⊢
      obtain ⟨seq, _, same, _⟩ := segment?_eq parsed
      have syn := flags.1
      rw [same] at syn
      have carries := inv.sent.carries _ _ sending
      exact join hears (received_opened quiet
        (received_accepting listener localAddr remoteAddr buffers rcvMss iss
          (seq.trans (carries.syn syn).1)) now)
  | connect port quiet localAddr remoteAddr buffers rcvMss iss now alone =>
    simp only [PairHears, alone] at hears ⊢
    exact join hears (received_opened quiet (received_connecting ..) now)

theorem of_reachable {pair : Pair} (reachable : Pair.Reachable FewOutstanding pair) :
    PairHears pair :=
  @Transition.Reachable.invariant_of _ Pair.Initial (Pair.Step FewOutstanding) PairHears
    (fun _ => initial) (fun _ _ reached hears => step (PairInv.of_reachable reached) hears) _
    reachable

end PairHears

theorem empty_of_read {tcb : Tcb} (wf : tcb.rx.WellFormed) (port : Port) {room : ℕ}
    (some' : 0 < room) (now : Instant)
    (nothing : (tcpRead port tcb room now).2.2 = some (.ok [])) : tcb.rx.len = 0 := by
  by_contra held
  have held : 0 < tcb.rx.len := Nat.pos_of_ne_zero held
  have both : ∀ (p : Prop) [Decidable p] (one other : Port × Tcb × CallResult (List UInt8))
      (result : CallResult (List UInt8)), one.2.2 = result → other.2.2 = result →
      (if p then one else other).2.2 = result := by
    intro p _ one other result first second
    split <;> assumption
  have bytes : (tcpRead port tcb room now).2.2 =
      some (.ok (tcb.rx.readAt 0 (min (min room tcb.rx.len) room))) := by
    simp only [tcpRead, held, if_true, Ring.pop]
    exact both _ _ _ _ (both _ _ _ _ rfl rfl) rfl
  rw [bytes] at nothing
  simp only [Option.some.injEq, Except.ok.injEq] at nothing
  have length := congrArg List.length nothing
  rw [Ring.readAt_eq wf, drop_zero, length_take, Ring.length_contents wf,
    length_nil] at length
  omega

structure Intact (writer reader : Conn) : Prop where
  read : returnedIn reader.history <+: acceptedIn writer.history
  ended : ∀ (port : Port) (room : ℕ) (now : Instant), (Input.read room).possible reader.tcb →
    reader.tcb.finReceived → (tcpRead port reader.tcb room now).2.2 = some (.ok []) →
    writer.tcb.finQueued ∧ returnedIn reader.history = acceptedIn writer.history

theorem Hears.intact {writer reader : Conn} (hears : Hears writer reader)
    (receive : ReceiveInv reader.tcb.core) : Intact writer reader := by
  refine ⟨Received.read hears, fun port room now possible fin nothing => ?_⟩
  simp only [Input.possible, Bool.and_eq_true, Bool.not_eq_true', decide_eq_true_eq] at possible
  exact Received.all_read hears possible.1.1 fin
    (empty_of_read receive.ring port possible.2 now nothing)

/-- In every run of two ends with fewer than 2^31 bytes outstanding, what each
reads is a prefix of what the other wrote, and the end of the stream comes
after everything written before the FIN. -/
theorem stream_integrity {pair : Pair} (reachable : Pair.Reachable FewOutstanding pair)
    {right : Conn} (there : pair.right = some right) :
    Intact right pair.left ∧ Intact pair.left right := by
  have inv := PairInv.of_reachable reachable
  have hears := PairHears.of_reachable reachable
  simp only [PairInv, PairHears, there] at inv hears
  exact ⟨hears.1.intact inv.1.receive, hears.2.intact inv.2.receive⟩

/-- Three bytes cross the network. -/
theorem stream_integrity_exchange :
    returnedIn Exchange.reader.history = [1, 2, 3] ∧
      Intact Exchange.reader Exchange.written.left ∧ Intact Exchange.written.left Exchange.reader :=
  ⟨by decide, stream_integrity Exchange.reachable rfl⟩

end EspDevkit.Net
