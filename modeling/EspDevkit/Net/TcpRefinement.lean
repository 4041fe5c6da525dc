import EspDevkit.Net.TcpMoves

/-!
# Every input is a run of moves

Each function of the TCP code, run at a host that records, is shown to be a run of moves
that emits exactly what the host records.
-/

namespace EspDevkit.Net

open SerialNumber List

variable {Host : Type} [RecordingHost Host]

def Runs (ctx : Context) (before after : Host × Tcb) : Prop :=
  ∃ events, RecordingHost.events after.1 = RecordingHost.events before.1 ++ events ∧
    Moves ctx before.2.core (events.map .port) after.2.core

namespace Runs

variable {ctx : Context}

theorem quiet {port : Host} {tcb tcb' : Tcb} (same : tcb'.core = tcb.core) :
    Runs ctx (port, tcb) (port, tcb') := by
  refine ⟨[], by simp, ?_⟩
  simp only [same]
  exact .refl _

theorem refl (state : Host × Tcb) : Runs ctx state state := quiet rfl

theorem unseen {port port' : Host} (tcb : Tcb)
    (same : RecordingHost.events port' = RecordingHost.events port) :
    Runs ctx (port, tcb) (port', tcb) :=
  ⟨[], by simp [same], .refl _⟩

theorem trans {first second third : Host × Tcb} (one : Runs ctx first second)
    (two : Runs ctx second third) : Runs ctx first third := by
  obtain ⟨events, recorded, moves⟩ := one
  obtain ⟨later, recordedLater, movesLater⟩ := two
  refine ⟨events ++ later, by rw [recordedLater, recorded, append_assoc], ?_⟩
  rw [map_append]
  exact moves.trans movesLater

theorem silent {port : Host} {tcb tcb' : Tcb} (move : Move ctx tcb.core [] tcb'.core) :
    Runs ctx (port, tcb) (port, tcb') :=
  ⟨[], by simp, .single move⟩

theorem recorded {port port' : Host} {tcb tcb' : Tcb} (event : PortEvent)
    (events : RecordingHost.events port' = RecordingHost.events port ++ [event])
    (move : Move ctx tcb.core [.port event] tcb'.core) :
    Runs ctx (port, tcb) (port', tcb') :=
  ⟨[event], events, .single move⟩

theorem congrLeft {port : Host} {tcb tcb' : Tcb} {after : Host × Tcb}
    (same : tcb'.core = tcb.core) (runs : Runs ctx (port, tcb') after) :
    Runs ctx (port, tcb) after :=
  (quiet same).trans runs

end Runs

variable {ctx : Context}

@[simp]
theorem core_window (tcb : Tcb) : tcb.window.1.core = tcb.core.offered := by
  simp only [Tcb.window, Core.offered, Core.clampedAdv]
  split <;> split <;> simp_all [Tcb.core, Core.windowStep, Tcb.windowStep]

theorem core_windowCall (tcb : Tcb) : tcb.windowCall = tcb.core.windowCall := rfl

theorem core_acked (tcb : Tcb) (flags : Flags) :
    (if flags.ack then { tcb with ackNow := false, ackAt := none, unackedSegments := 0 }
      else tcb).core = tcb.core := by
  split <;> rfl

theorem core_lastSent (tcb : Tcb) (n : ℕ) (now : Instant) :
    (if 0 < n then { tcb with lastSent := now } else tcb).core = tcb.core := by
  split <;> rfl

theorem sendTcp_cases (port : Host) (tcb : Tcb) (seq : Seq) (flags : Flags)
    (offset n : ℕ) (now : Instant) :
    ∃ port' tcb', tcb'.core = tcb.core.offered ∧
      ((sendTcp port tcb seq flags offset n now = (port', tcb', false) ∧
          RecordingHost.events port' = RecordingHost.events port ++ [.edge tcb.core.windowCall]) ∨
        (sendTcp port tcb seq flags offset n now = (port', tcb', true) ∧
          ∃ d, tcb.core.offered.Sends seq flags offset n d ∧
            RecordingHost.events port' = RecordingHost.events port ++ [.edge tcb.core.windowCall, .sent d])) := by
  have window := core_window tcb
  simp only [sendTcp]
  generalize observed : TcpHost.observe port tcb.windowCall = seen
  have edge : RecordingHost.events seen =
      RecordingHost.events port ++ [.edge tcb.core.windowCall] := by
    rw [← observed, RecordingHost.events_observe, core_windowCall]
  generalize datagramEq : tcb.window.1.datagram seq flags offset n tcb.window.2 = d
  have sends : tcb.core.offered.Sends seq flags offset n d := by
    rw [← window, ← datagramEq]
    exact ⟨rfl, rfl, rfl, rfl⟩
  have refused := RecordingHost.events_refused seen d now
  have sent := RecordingHost.events_sent seen d now
  generalize TcpHost.sendIpv4 seen d now = answer at refused sent ⊢
  obtain ⟨port', result⟩ := answer
  have taken : result ≠ .error .wouldBlock → RecordingHost.events port' =
      RecordingHost.events port ++ [.edge tcb.core.windowCall, .sent d] := by
    intro room
    rw [sent room, edge, append_assoc]
    rfl
  have noted := ((core_lastSent _ n now).trans (core_acked tcb.window.1 flags)).trans window
  rcases result with error | ok
  · cases error
    case wouldBlock => exact ⟨_, _, window, Or.inl ⟨rfl, (refused rfl).trans edge⟩⟩
    all_goals exact ⟨_, _, noted, Or.inr ⟨rfl, d, sends, taken (by simp)⟩⟩
  · exact ⟨_, _, noted, Or.inr ⟨rfl, d, sends, taken (by simp)⟩⟩

theorem offered_eq (c : Core) : ∃ adv, c.offered = { c with rcvAdv := adv } := by
  simp only [Core.offered]
  split <;> exact ⟨_, rfl⟩

variable (ctx) in
theorem sendTcp_runs (target : Seq → Core) (port : Host) (tcb : Tcb) (seq : Seq)
    (flags : Flags) (offset n : ℕ) (now : Instant) (live : tcb.state ≠ .closed)
    (move : ∀ adv d, Core.Sends { tcb.core with rcvAdv := adv } seq flags offset n d →
      Move ctx { tcb.core with rcvAdv := adv } [.port (.sent d)] (target adv)) :
    ∃ port' tcb' adv, tcb'.core = { tcb.core with rcvAdv := adv } ∧
      ((sendTcp port tcb seq flags offset n now = (port', tcb', false) ∧
          Runs ctx (port, tcb) (port', tcb')) ∨
        (sendTcp port tcb seq flags offset n now = (port', tcb', true) ∧
          ∀ tcb'' : Tcb, tcb''.core = target adv → Runs ctx (port, tcb) (port', tcb''))) := by
  have offers : Move ctx tcb.core [.port (.edge tcb.core.windowCall)] tcb.core.offered :=
    .offer live
  obtain ⟨adv, eqAdv⟩ := offered_eq tcb.core
  obtain ⟨port', tcb', core, ⟨refused, events⟩ | ⟨sent, d, sends, events⟩⟩ :=
    sendTcp_cases port tcb seq flags offset n now
  · refine ⟨port', tcb', adv, core.trans eqAdv, Or.inl ⟨refused, ?_⟩⟩
    exact .recorded _ events (core ▸ offers)
  · refine ⟨port', tcb', adv, core.trans eqAdv, Or.inr ⟨sent, fun tcb'' same => ?_⟩⟩
    rw [eqAdv] at sends offers
    exact ⟨[_, _], events, .cons offers (.single (same ▸ move adv d sends))⟩

variable (ctx) in
theorem sendTcp_quiet (port : Host) (tcb : Tcb) (seq : Seq) (flags : Flags)
    (offset n : ℕ) (now : Instant) (live : tcb.state ≠ .closed)
    (move : ∀ adv d, Core.Sends { tcb.core with rcvAdv := adv } seq flags offset n d →
      Move ctx { tcb.core with rcvAdv := adv } [.port (.sent d)]
        { tcb.core with rcvAdv := adv }) :
    ∃ port' tcb' sent adv, sendTcp port tcb seq flags offset n now = (port', tcb', sent) ∧
      tcb'.core = { tcb.core with rcvAdv := adv } ∧ Runs ctx (port, tcb) (port', tcb') := by
  obtain ⟨port', tcb', adv, core, ⟨refused, runs⟩ | ⟨sent, runs⟩⟩ :=
    sendTcp_runs ctx _ port tcb seq flags offset n now live move
  · exact ⟨port', tcb', false, adv, refused, core, runs⟩
  · exact ⟨port', tcb', true, adv, sent, core, runs tcb' core⟩

theorem State.synchronized_ne_closed {state : State} (synchronized : state.synchronized) :
    state ≠ .closed := by
  rintro rfl
  simp [State.synchronized] at synchronized

variable (ctx) in
theorem retransmitFirst_runs (port : Host) (tcb : Tcb) (now : Instant)
    (synchronized : tcb.state.synchronized) :
    ∃ port' tcb' adv, retransmitFirst port tcb now = (port', tcb') ∧
      tcb'.core = { tcb.core with rcvAdv := adv } ∧ Runs ctx (port, tcb) (port', tcb') := by
  simp only [retransmitFirst]
  split
  · obtain ⟨port', tcb', sent, adv, eq, core, runs⟩ :=
      sendTcp_quiet ctx port tcb tcb.sndUna { ack := true }
        (tcb.sndUna - tcb.txBase).toNat
        (min (tcb.tx.len - (tcb.sndUna - tcb.txBase).toNat) tcb.sndMss) now
        (State.synchronized_ne_closed synchronized)
        (fun _ d sends => .resend _ synchronized (Nat.min_le_left _ _) sends)
    rw [eq]
    exact ⟨port', { tcb' with rttSample := none }, adv, rfl, core, runs.trans (.quiet rfl)⟩
  · exact ⟨port, tcb, tcb.rcvAdv, rfl, rfl, .refl _⟩

theorem outputSyn_runs (port : Host) (tcb : Tcb) (now : Instant)
    (opening : tcb.state = .synSent ∨ tcb.state = .synReceived) :
    Runs ctx (port, tcb) (outputSyn port tcb now) := by
  simp only [outputSyn]
  split
  · rename_i behind
    generalize flagsEq : (if tcb.state = .synSent then { syn := true }
      else { syn := true, ack := true } : Flags) = flags
    have handshake : tcb.state = .synSent ∧ flags = { syn := true } ∨
        tcb.state = .synReceived ∧ flags = { syn := true, ack := true } := by
      rcases opening with opening | opening
      · exact Or.inl ⟨opening, by simp [← flagsEq, opening]⟩
      · exact Or.inr ⟨opening, by simp [← flagsEq, opening]⟩
    obtain ⟨port', tcb', adv, core, ⟨eq, runs⟩ | ⟨eq, runs⟩⟩ := sendTcp_runs ctx
      (fun adv => Core.recordSyn { tcb.core with rcvAdv := adv })
      port tcb tcb.iss flags 0 0 now (by rcases opening with state | state <;> simp [state])
      (fun _ d sends => .sendSyn flags handshake behind sends)
    · rw [eq]
      exact runs.trans (.quiet rfl)
    · rw [eq]
      apply runs
      rw [← core]
      rfl
  · exact .refl _

theorem recordSent_core (tcb : Tcb) (n : ℕ) (fin : Bool) (now : Instant) :
    (tcb.recordSent n fin now).core = tcb.core.recordSent n fin := rfl

theorem nextSend_spec {tcb : Tcb} {n : ℕ} {fin : Bool} (next : tcb.nextSend = (n, fin)) :
    n ≤ tcb.unsent ∧ (n ≤ tcb.sndWnd - tcb.inFlight ∨ tcb.probe ∧ n ≤ 1) ∧
      (fin → tcb.finQueued ∧ n = tcb.unsent) := by
  simp only [Tcb.nextSend, Prod.mk.injEq] at next
  obtain ⟨nEq, rfl⟩ := next
  rw [nEq]
  refine ⟨by omega, ?_, by simp⟩
  split at nEq
  · rename_i probe
    by_cases wide : min tcb.sndWnd tcb.cwnd - tcb.inFlight ≤ 1
    · exact Or.inr ⟨probe, by omega⟩
    · exact Or.inl (by omega)
  · exact Or.inl (by omega)

theorem worthSending_pos {n unsent mss maxWindow inFlight : ℕ} {nodelay forced : Bool}
    (worth : worthSending n unsent mss maxWindow inFlight nodelay forced) : 0 < n := by
  by_contra none
  simp [worthSending, Nat.eq_zero_of_not_pos none] at worth

variable (ctx) in
theorem outputLoop_runs (now : Instant) (fuel : ℕ) (port : Host) (tcb : Tcb)
    (synchronized : tcb.state.synchronized) :
    ∃ port' tcb' ended, outputLoop now fuel port tcb = (port', tcb', ended) ∧
      tcb'.state = tcb.state ∧ Runs ctx (port, tcb) (port', tcb') := by
  induction fuel generalizing port tcb with
  | zero => exact ⟨port, tcb, true, rfl, rfl, .refl _⟩
  | succ fuel ih =>
    simp only [outputLoop]
    split
    · exact ⟨port, tcb, true, rfl, rfl, .refl _⟩
    rename_i open'
    split
    · exact ⟨port, tcb, true, rfl, rfl, .refl _⟩
    rename_i sending
    generalize next : tcb.nextSend = nextSend at sending ⊢
    obtain ⟨n, fin⟩ := nextSend
    obtain ⟨queued, allowed, last⟩ := nextSend_spec next
    have something : 0 < n ∨ fin = true := by
      cases fin
      · exact Or.inl (worthSending_pos (by simpa using sending))
      · exact Or.inr rfl
    obtain ⟨port', tcb', adv, core, ⟨eq, runs⟩ | ⟨eq, runs⟩⟩ := sendTcp_runs ctx
      (fun adv => Core.recordSent { tcb.core with rcvAdv := adv } n fin)
      port tcb tcb.sndNxt { ack := true, psh := decide (0 < n ∧ n = tcb.unsent), fin }
      (tcb.sndNxt - tcb.txBase).toNat n now (State.synchronized_ne_closed synchronized)
      (fun _ d sends => .send n fin (decide (0 < n ∧ n = tcb.unsent)) synchronized
        (Bool.eq_false_of_not_eq_true open') queued something allowed last sends)
    · rw [eq]
      exact ⟨port', _, false, rfl, congrArg (·.state) core, runs.trans (.quiet rfl)⟩
    · rw [eq]
      have sameState : (tcb'.recordSent n fin now).state = tcb.state :=
        congrArg (·.state) core
      obtain ⟨port'', tcb'', ended, eq', state, runs'⟩ :=
        ih port' (tcb'.recordSent n fin now) (by rw [sameState]; exact synchronized)
      refine ⟨port'', tcb'', ended, eq', state.trans sameState, .trans (runs _ ?_) runs'⟩
      rw [recordSent_core, core]

theorem restartIdle_core (tcb : Tcb) (now : Instant) :
    (restartIdle tcb now).core = tcb.core := by
  simp only [restartIdle]
  split <;> rfl

variable (ctx) in
theorem outputAck_runs (port : Host) (tcb : Tcb) (now : Instant)
    (synchronized : tcb.state.synchronized) :
    ∃ port' tcb', outputAck port tcb now = (port', tcb') ∧ tcb'.state = tcb.state ∧
      Runs ctx (port, tcb) (port', tcb') := by
  simp only [outputAck]
  split
  · obtain ⟨port', tcb', sent, adv, eq, core, runs⟩ :=
      sendTcp_quiet ctx port tcb tcb.sndNxt { ack := true } 0 0 now
        (State.synchronized_ne_closed synchronized)
        (fun _ d sends => .sendAck _ synchronized sends)
    rw [eq]
    cases sent
    · exact ⟨port', _, rfl, congrArg (·.state) core, runs.trans (.quiet rfl)⟩
    · exact ⟨port', _, rfl, congrArg (·.state) core, runs⟩
  · exact ⟨port, tcb, rfl, rfl, .refl _⟩

theorem armPersist_runs (port : Host) (tcb : Tcb) (now : Instant)
    (synchronized : tcb.state.synchronized) :
    Runs ctx (port, tcb) (port, armPersist tcb now) := by
  simp only [armPersist]
  split
  · rename_i waiting
    exact .silent (.startPersist synchronized waiting.1 waiting.2.1)
  · exact .refl _

theorem outputData_runs (port : Host) (tcb : Tcb) (now : Instant)
    (synchronized : tcb.state.synchronized) :
    Runs ctx (port, tcb) (outputData port tcb now) := by
  have restarted := restartIdle_core tcb now
  simp only [outputData]
  generalize restartIdle tcb now = idle at restarted
  have idleState : idle.state = tcb.state := congrArg (·.state) restarted
  refine .congrLeft restarted ?_
  obtain ⟨port₁, tcb₁, ended, eq, state, runs⟩ := outputLoop_runs ctx now
    idle.outputFuel port idle (by rw [idleState]; exact synchronized)
  rw [eq]
  refine runs.trans ?_
  have synchronized₁ : tcb₁.state.synchronized := by
    rw [state, idleState]
    exact synchronized
  cases ended with
  | false => exact .refl _
  | true =>
    obtain ⟨port₂, tcb₂, eq₂, state₂, runs₂⟩ :=
      outputAck_runs ctx port₁ tcb₁ now synchronized₁
    simp only [eq₂]
    exact runs₂.trans (armPersist_runs port₂ tcb₂ now (by rw [state₂]; exact synchronized₁))

variable (ctx) in
theorem tcpOutput_runs (port : Host) (tcb : Tcb) (now : Instant) :
    Runs ctx (port, tcb) (tcpOutput port tcb now) := by
  simp only [tcpOutput]
  refine @Runs.congrLeft _ _ _ _ _ { tcb with linkRetryAt := none } _ rfl ?_
  cases state : tcb.state with
  | closed => exact .refl _
  | synSent => exact outputSyn_runs _ _ _ (Or.inl rfl)
  | synReceived => exact outputSyn_runs _ _ _ (Or.inr rfl)
  | _ => exact outputData_runs _ _ _ rfl

@[simp]
theorem sampleRtt_core (tcb : Tcb) (rtt : Duration) : (tcb.sampleRtt rtt).core = tcb.core := by
  simp only [Tcb.sampleRtt]
  split <;> rfl

@[simp]
theorem takeSample_core (tcb : Tcb) (now : Instant) : (tcb.takeSample now).core = tcb.core := by
  simp only [Tcb.takeSample]
  split
  · rfl
  · rw [sampleRtt_core]
    rfl

theorem dropAcked_core (tcb : Tcb) (ack : Seq) :
    (dropAcked tcb ack).core = tcb.core.dropAcked ack := by
  simp only [dropAcked, Core.dropAcked]
  split <;> simp_all [Tcb.core]

theorem recordAck_core (tcb : Tcb) (ack : Seq) (now : Instant) :
    (recordAck tcb ack now).core = tcb.core.recordAck ack := by
  have dropped := dropAcked_core tcb ack
  have sndNxt : (dropAcked tcb ack).sndNxt = tcb.sndNxt := by
    simp only [dropAcked]
    split <;> rfl
  have sndMax : (dropAcked tcb ack).sndMax = tcb.sndMax := by
    simp only [dropAcked]
    split <;> rfl
  have finSent : (dropAcked tcb ack).finSent = tcb.finSent := by
    simp only [dropAcked]
    split <;> rfl
  have record : ∀ sampled : Tcb, ∀ retransmitAt,
      sampled.core = { (dropAcked tcb ack).core with
        sndUna := ack
        sndNxt := if lt tcb.sndNxt ack then ack else tcb.sndNxt
        finSent := tcb.finSent || tcb.finSeq.any fun f => lt f ack } →
      retransmitAt.isSome = decide (ack ≠ tcb.sndMax) →
      ({ sampled with retries := 0, retransmitAt, persistAt := none, dupacks := 0 } : Tcb).core =
        tcb.core.recordAck ack := by
    intro sampled retransmitAt same timer
    calc ({ sampled with retries := 0, retransmitAt, persistAt := none, dupacks := 0 } : Tcb).core
        = { sampled.core with persisting := false, retransmitting := retransmitAt.isSome } := rfl
      _ = tcb.core.recordAck ack := by
          rw [same, timer, dropped]
          rfl
  simp only [recordAck]
  apply record
  · split
    · split
      · rw [takeSample_core, ← sndNxt, ← finSent]
        rfl
      · rw [← sndNxt, ← finSent]
        rfl
    · rw [← sndNxt, ← finSent]
      rfl
  · have una : ∀ sampled : Tcb, sampled.core.sndUna = ack → sampled.core.sndMax = tcb.sndMax →
        (if sampled.sndUna ≠ sampled.sndMax then some (now.plus sampled.rto)
          else none).isSome = decide (ack ≠ tcb.sndMax) := by
      intro sampled una max
      change sampled.sndUna = ack at una
      change sampled.sndMax = tcb.sndMax at max
      rw [una, max]
      by_cases all : ack = tcb.sndMax <;> simp [all]
    apply una
    · split
      · split
        · rw [takeSample_core]
          rfl
        · rfl
      · rfl
    · split
      · split
        · rw [takeSample_core]
          exact sndMax
        · exact sndMax
      · exact sndMax

variable (ctx) in
theorem growWindow_runs (port : Host) (tcb : Tcb) (acked : ℕ) (ack : Seq) (now : Instant)
    (synchronized : tcb.state.synchronized) :
    ∃ port' tcb' adv, growWindow port tcb acked ack now = (port', tcb') ∧
      tcb'.core = { tcb.core with rcvAdv := adv } ∧ Runs ctx (port, tcb) (port', tcb') := by
  simp only [growWindow]
  split
  · split
    · exact ⟨port, _, tcb.rcvAdv, rfl, rfl, .quiet rfl⟩
    · obtain ⟨port', tcb', adv, eq, core, runs⟩ :=
        retransmitFirst_runs ctx port tcb now synchronized
      rw [eq]
      exact ⟨port', _, adv, rfl, core, runs.trans (.quiet rfl)⟩
  · split
    · exact ⟨port, _, tcb.rcvAdv, rfl, rfl, .quiet rfl⟩
    · exact ⟨port, _, tcb.rcvAdv, rfl, rfl, .quiet rfl⟩

theorem finAcked_core (tcb : Tcb) (now : Instant) :
    (finAcked tcb now).core = tcb.core.finAcked := by
  cases state : tcb.state <;> simp [finAcked, Core.finAcked, state, Tcb.core, Tcb.closeWith]

/-- The handshake is over, and perhaps the connection too, with the
acknowledgment of its FIN. -/
def Opened (tcb : Tcb) : Prop := tcb.core.opened

theorem Opened.of_synchronized {tcb : Tcb} (synchronized : tcb.state.synchronized) :
    Opened tcb :=
  Or.inl synchronized

theorem Opened.of_core {tcb tcb' : Tcb} {adv : Seq} (opened : Opened tcb)
    (core : tcb'.core = { tcb.core with rcvAdv := adv }) : Opened tcb' := by
  simp only [Opened, core]
  exact opened

theorem Opened.finAcked {tcb : Tcb} (now : Instant) (synchronized : tcb.state.synchronized)
    (acksFin : tcb.core.acksFin tcb.sndUna) : Opened (finAcked tcb now) := by
  simp only [Opened, finAcked_core]
  have same : tcb.core.state = tcb.state := rfl
  cases known : tcb.state with
  | lastAck =>
    refine Or.inr ⟨by simp [Core.finAcked, same, known], ?_⟩
    simp only [Core.finAcked, same, known]
    exact acksFin
  | finWait1 | closing => exact Or.inl (by simp [Core.finAcked, same, known, State.synchronized])
  | _ =>
    rw [known] at synchronized
    exact Or.inl (by simpa [Core.finAcked, same, known] using synchronized)

theorem tcpAcked_runs (port : Host) (tcb : Tcb) (raw seg : Segment) (now : Instant)
    (incoming : ctx.incoming = some raw) (stands : Stands raw seg)
    (synchronized : tcb.state.synchronized) (ack : seg.flags.ack)
    (new : lt tcb.sndUna seg.ack) (sent : lt tcb.sndMax seg.ack = false) :
    ∃ port' tcb', tcpAcked port tcb seg.ack now = (port', tcb') ∧ Opened tcb' ∧
      Runs ctx (port, tcb) (port', tcb') := by
  have recorded : Runs ctx (port, tcb) (port, recordAck tcb seg.ack now) := by
    apply Runs.silent
    rw [recordAck_core]
    exact .acked raw seg incoming stands synchronized ack new sent
  have sameState : (recordAck tcb seg.ack now).state = tcb.state := by
    have core := congrArg (·.state) (recordAck_core tcb seg.ack now)
    refine core.trans ?_
    simp only [Core.recordAck, Core.dropAcked]
    split <;> rfl
  have finSeq : (recordAck tcb seg.ack now).finSeq = tcb.finSeq := by
    have core := congrArg (·.finSeq) (recordAck_core tcb seg.ack now)
    refine core.trans ?_
    simp only [Core.recordAck, Core.dropAcked]
    split <;> rfl
  have sndUna : (recordAck tcb seg.ack now).sndUna = seg.ack :=
    congrArg (·.sndUna) (recordAck_core tcb seg.ack now)
  have synchronized' : (recordAck tcb seg.ack now).state.synchronized := by
    rw [sameState]
    exact synchronized
  simp only [tcpAcked]
  generalize recordAck tcb seg.ack now = recordedTcb at *
  obtain ⟨port', tcb', adv, eq, core, runs⟩ := growWindow_runs ctx port recordedTcb
    (seg.ack - tcb.sndUna).toNat seg.ack now synchronized'
  have opened : Opened tcb' := (Opened.of_synchronized synchronized').of_core core
  rw [eq]
  by_cases finIsAcked : tcb.finSeq.any fun f => lt f seg.ack
  · simp only [finIsAcked, if_true]
    have finSeq' : tcb'.finSeq = tcb.finSeq := (congrArg (·.finSeq) core).trans finSeq
    have sndUna' : tcb'.sndUna = seg.ack := (congrArg (·.sndUna) core).trans sndUna
    have state' : tcb'.state = recordedTcb.state := congrArg (·.state) core
    have acksFin : tcb'.core.acksFin tcb'.sndUna := by
      change tcb'.finSeq.any (fun f => lt f tcb'.sndUna) = true
      rw [finSeq', sndUna']
      exact finIsAcked
    refine ⟨port', _, rfl, .finAcked now (state' ▸ synchronized') acksFin,
      (recorded.trans runs).trans (.silent ?_)⟩
    rw [finAcked_core]
    exact .finAcked acksFin
  · simp only [finIsAcked]
    exact ⟨port', tcb', rfl, opened, recorded.trans runs⟩

variable (ctx) in
theorem duplicateAck_runs (port : Host) (tcb : Tcb) (now : Instant)
    (synchronized : tcb.state.synchronized) :
    ∃ port' tcb', duplicateAck port tcb now = (port', tcb') ∧ Opened tcb' ∧
      Runs ctx (port, tcb) (port', tcb') := by
  have opened := Opened.of_synchronized synchronized
  simp only [duplicateAck]
  split
  · generalize starting : ({ tcb with
      dupacks := min (tcb.dupacks + 1) 255
      ssthresh := max (Tcb.inFlight _ / 2) (2 * tcb.sndMss)
      recover := some tcb.sndNxt } : Tcb) = fast
    have core : fast.core = tcb.core := by
      rw [← starting]
      rfl
    have state : fast.state = tcb.state := congrArg (·.state) core
    obtain ⟨port', tcb', adv, eq, core', runs⟩ :=
      retransmitFirst_runs ctx port fast now (by rw [state]; exact synchronized)
    rw [eq]
    refine ⟨port', _, rfl, ?_, (runs.trans (.quiet rfl)).congrLeft core⟩
    exact opened.of_core (core'.trans (by rw [core]))
  · split
    · exact ⟨port, _, rfl, opened, .quiet rfl⟩
    · exact ⟨port, _, rfl, opened, .quiet rfl⟩

theorem updateWindow_runs (port : Host) (tcb : Tcb) (seg : Segment) :
    Runs ctx (port, tcb) (port, updateWindow tcb seg) := by
  simp only [updateWindow]
  split
  · apply Runs.silent
    refine .window seg.window _ ?_
    split
    · simp
    · exact id
  · exact .refl _

theorem updateWindow_opened (tcb : Tcb) (seg : Segment) :
    (updateWindow tcb seg).core.opened ↔ tcb.core.opened := by
  simp only [updateWindow]
  split <;> exact Iff.rfl

theorem Core.takeBytes_opened (fits : ℕ → Bool) (c : Core) (seg : Segment) :
    (c.takeBytes fits seg).opened ↔ c.opened := by
  simp only [Core.takeBytes]
  split <;> exact Iff.rfl

theorem scheduleAck_core (tcb : Tcb) (atOnce : Bool) (now : Instant) :
    (scheduleAck tcb atOnce now).core = tcb.core := by
  simp only [scheduleAck]
  split
  · rfl
  · split <;> rfl

theorem tcpData_core (fits : ℕ → Bool) (tcb : Tcb) (seg : Segment) (now : Instant) :
    (tcpData fits tcb seg now).core = tcb.core.takeBytes fits seg := by
  have nxt : tcb.core.rcvNxt = tcb.rcvNxt := rfl
  have rx : tcb.core.rx = tcb.rx := rfl
  have assembler : tcb.core.assembler = tcb.assembler := rfl
  have finish : ∀ (held : Ring × Assembler) (taken : Assembler) (n : ℕ) (atOnce : Bool),
      held.2.takeFront = (taken, n) →
      (scheduleAck
        (if 0 < n then
          { tcb with
            rx := held.1.commit n
            assembler := taken
            rcvNxt := tcb.rcvNxt + BitVec.ofNat 32 n }
        else { tcb with rx := held.1, assembler := taken }) atOnce now).core =
        { tcb.core with
          rx := held.1.commit n
          assembler := taken
          rcvNxt := tcb.rcvNxt + BitVec.ofNat 32 n } := by
    intro held taken n atOnce front
    rw [scheduleAck_core]
    split
    · rfl
    · have none : n = 0 := by omega
      subst none
      simp [Tcb.core, Ring.commit]
  simp only [tcpData, Core.takeBytes, Core.dataOffset, Core.hold, nxt, rx, assembler]
  split
  · rfl
  · split
    · split
      · rename_i written eq
        simp only [eq]
        generalize front : (tcb.assembler.add _ _).1.takeFront = result
        obtain ⟨taken, n⟩ := result
        exact finish (written, _) taken n _ front
      · rename_i written eq
        simp only [eq]
        generalize front : tcb.assembler.takeFront = result
        obtain ⟨taken, n⟩ := result
        exact finish (written, _) taken n _ front
    · generalize front : tcb.assembler.takeFront = result
      obtain ⟨taken, n⟩ := result
      exact finish (tcb.rx, _) taken n _ front

theorem tcpFin_runs (port : Host) (tcb : Tcb) (raw seg : Segment)
    (incoming : ctx.incoming = some raw) (stands : Stands raw seg)
    (noSyn : seg.flags.syn = false) (opened : Opened tcb) :
    Runs ctx (port, tcb) (port, tcpFin tcb seg) := by
  simp only [tcpFin]
  split
  · rename_i taken
    exact .silent (.fin raw seg incoming stands noSyn opened taken.1 taken.2.1
      (Bool.eq_false_of_not_eq_true taken.2.2))
  · exact .refl _

theorem takeData_runs (fits : ℕ → Bool) (port : Host) (tcb : Tcb) (raw seg : Segment)
    (now : Instant) (incoming : ctx.incoming = some raw) (stands : Stands raw seg)
    (noSyn : seg.flags.syn = false) (opened : Opened tcb) :
    Runs ctx (port, tcb) (port, takeData fits tcb seg now) := by
  simp only [takeData]
  have held : Runs ctx (port, tcb) (port, if !seg.data.isEmpty && tcb.state.takesData then
      tcpData fits tcb seg now else tcb) ∧
      Opened (if !seg.data.isEmpty && tcb.state.takesData then
        tcpData fits tcb seg now else tcb) := by
    split
    · rename_i takes
      refine ⟨.silent ?_, by simpa only [Opened, tcpData_core, Core.takeBytes_opened] using opened⟩
      rw [tcpData_core]
      exact .data fits raw seg incoming stands noSyn (by simp at takes; exact takes.2)
    · exact ⟨.refl _, opened⟩
  generalize (if !seg.data.isEmpty && tcb.state.takesData then
    tcpData fits tcb seg now else tcb) = held at *
  refine (held.1.trans (tcpFin_runs port _ raw seg incoming stands noSyn held.2)).trans ?_
  split
  · exact .silent (.stopRetransmit _)
  · exact .refl _

theorem takeAck_runs (port : Host) (tcb : Tcb) (raw seg : Segment) (now : Instant)
    (incoming : ctx.incoming = some raw) (stands : Stands raw seg)
    (synchronized : tcb.state.synchronized) (ack : seg.flags.ack)
    (inRange : ackOutOfRange tcb seg = false) :
    ∃ port' tcb', takeAck port tcb seg now = (port', tcb') ∧ Opened tcb' ∧
      Runs ctx (port, tcb) (port', tcb') := by
  have finish : ∀ result : Host × Tcb, Opened result.2 → Runs ctx (port, tcb) result →
      ∃ port' tcb', (result.1, updateWindow result.2 seg) = (port', tcb') ∧ Opened tcb' ∧
        Runs ctx (port, tcb) (port', tcb') := by
    rintro ⟨port', tcb'⟩ opened runs
    refine ⟨port', updateWindow tcb' seg, rfl, ?_, runs.trans (updateWindow_runs port' tcb' seg)⟩
    simpa only [Opened, updateWindow_opened] using opened
  have notBeyond : lt tcb.sndMax seg.ack = false := by
    simp only [ackOutOfRange, Bool.or_eq_false_iff] at inRange
    exact inRange.1
  simp only [takeAck]
  generalize retriesEq : (if seg.window.toNat <<< tcb.sndScale = 0 then { tcb with retries := 0 }
    else tcb) = reset
  have core : reset.core = tcb.core := by
    rw [← retriesEq]
    split <;> rfl
  have state : reset.state = tcb.state := congrArg (·.state) core
  have sndUna : reset.sndUna = tcb.sndUna := congrArg (·.sndUna) core
  have sndMax : reset.sndMax = tcb.sndMax := congrArg (·.sndMax) core
  rw [← state] at synchronized
  rw [← sndMax] at notBeyond
  apply finish
  · split
    · rename_i new
      obtain ⟨port', tcb', eq, opened, _⟩ := tcpAcked_runs port reset raw seg now incoming
        stands synchronized ack new notBeyond
      rw [eq]
      exact opened
    · split
      · obtain ⟨port', tcb', eq, opened, _⟩ :=
          duplicateAck_runs ctx port reset now synchronized
        rw [eq]
        exact opened
      · exact .of_synchronized synchronized
  · refine .congrLeft core ?_
    split
    · rename_i new
      obtain ⟨port', tcb', eq, _, runs⟩ := tcpAcked_runs port reset raw seg now incoming
        stands synchronized ack new notBeyond
      rw [eq]
      exact runs
    · split
      · obtain ⟨port', tcb', eq, _, runs⟩ :=
          duplicateAck_runs ctx port reset now synchronized
        rw [eq]
        exact runs
      · exact .refl _

theorem answer_runs (port : Host) (tcb : Tcb) (now : Instant) :
    Runs ctx (port, tcb) (answer port tcb now) :=
  (tcpOutput_runs _ port { tcb with ackNow := true } now).congrLeft rfl

theorem tcpSegment_runs (port : Host) (tcb : Tcb) (raw seg : Segment) (now : Instant)
    (incoming : ctx.incoming = some raw) (stands : Stands raw seg)
    (noSyn : seg.flags.syn = false) (synchronized : tcb.state.synchronized)
    (ack : seg.flags.ack) : Runs ctx (port, tcb) (tcpSegment port tcb seg now) := by
  simp only [tcpSegment]
  split
  · exact answer_runs port tcb now
  · rename_i inRange
    obtain ⟨port', tcb', eq, opened, runs⟩ := takeAck_runs port tcb raw seg now incoming stands
      synchronized ack (Bool.eq_false_of_not_eq_true inRange)
    rw [eq]
    exact (runs.trans (takeData_runs (TcpHost.fits port') port' tcb' raw seg now incoming stands
      noSyn opened)).trans (tcpOutput_runs _ _ _ _)

theorem sendReset_runs (port : Host) (tcb : Tcb) (localAddr remoteAddr : SocketAddrV4)
    (seg : Segment) (now : Instant) :
    Runs ctx (port, tcb) (sendReset port localAddr remoteAddr seg now, tcb) := by
  simp only [sendReset]
  generalize datagramEq : Datagram.mk localAddr remoteAddr _ _ _ _ _ _ = d
  by_cases refused : (TcpHost.sendIpv4 port d now).2 = .error .wouldBlock
  · exact .unseen tcb (RecordingHost.events_refused port d now refused)
  · refine .recorded _ (RecordingHost.events_sent port d now refused) ?_
    rw [← datagramEq]
    exact .sendRst rfl rfl rfl rfl

theorem establish_runs (port : Host) (id : ℕ) (tcb : Tcb) (raw seg : Segment) (now : Instant)
    (incoming : ctx.incoming = some raw) (stands : Stands raw seg)
    (opening : tcb.state = .synReceived) (ack : seg.flags.ack) (acks : acksSyn tcb seg)
    (late : tcb.sndNxt = tcb.iss → ctx.late) (wild : tcb.sndMax = tcb.iss → ctx.wild) :
    ∃ port' tcb', establish port id tcb seg now = (port', tcb') ∧ tcb'.state = .established ∧
      Runs ctx (port, tcb) (port', tcb') := by
  simp only [establish]
  generalize sampledEq : Tcb.takeSample _ now = sampled
  have core : sampled.core = { tcb.core with
      state := .established
      sndUna := seg.ack
      sndWnd := seg.window.toNat <<< tcb.sndScale
      retransmitting := false } := by
    rw [← sampledEq, takeSample_core]
    rfl
  have runs : Runs ctx (port, tcb) (port, sampled) := by
    apply Runs.silent
    rw [core]
    exact .established raw seg incoming stands opening ack acks late wild
  have state : sampled.state = .established := congrArg (·.state) core
  split
  · exact ⟨_, sampled, rfl, state, runs.trans (.unseen sampled (RecordingHost.events_ready ..))⟩
  · exact ⟨port, sampled, rfl, state, runs⟩

theorem release_runs (port : Host) (tcb : Tcb) (unaccepted : Bool) :
    Runs ctx (port, tcb) (port, { tcb with released := tcb.released || unaccepted }) := by
  cases unaccepted with
  | false => exact .quiet (by simp)
  | true =>
    rw [Bool.or_true]
    exact .silent (.release tcb.core)

theorem tcpReset_runs (port : Host) (tcb : Tcb) :
    Runs ctx (port, tcb) (port, tcpReset tcb) := by
  simp only [tcpReset]
  split
  · exact (release_runs port tcb tcb.listener.isSome).trans (.silent (.close _))
  all_goals exact .silent (.close _)

theorem tcpSynSent_runs (port : Host) (tcb : Tcb) (seg : Segment) (now : Instant)
    (incoming : ctx.incoming = some seg) (opening : tcb.state = .synSent)
    (late : tcb.completesHandshake seg → tcb.sndNxt = tcb.iss → ctx.late)
    (wild : tcb.completesHandshake seg → tcb.sndMax = tcb.iss → ctx.wild) :
    Runs ctx (port, tcb) (tcpSynSent port tcb seg now) := by
  simp only [tcpSynSent]
  split
  · split
    · exact .refl _
    · exact sendReset_runs port tcb _ _ seg now
  rename_i ackOk
  split
  · split
    · exact .silent (.close _)
    · exact .refl _
  rename_i noRst
  split
  · exact .refl _
  rename_i syn
  have syn : seg.flags.syn = true := by simpa using syn
  split
  · refine Runs.trans (.silent ?_) (tcpOutput_runs _ port _ now)
    exact .simultaneous seg incoming opening syn
  · rename_i ack
    have ack : seg.flags.ack = true := by simpa using ack
    have acks : acksSyn tcb seg = true := by simpa [ack] using ackOk
    have completes : tcb.completesHandshake seg = true := by
      simp [Tcb.completesHandshake, opening, syn, ack, acks, noRst]
    refine @Runs.trans _ _ _ _ (port, _) _ (.silent ?_) (answer_runs port _ now)
    rw [takeSample_core]
    exact .connected seg incoming opening syn ack acks (late completes) (wild completes)

theorem trimSyn_stands (tcb : Tcb) (seg : Segment) : Stands seg (trimSyn tcb seg) := by
  simp only [trimSyn]
  split
  · rename_i trims
    exact Or.inr ⟨trims.2.1, by rw [trims.2.2.1]⟩
  · exact Or.inl rfl

theorem tcpAcceptable_runs (port : Host) (id : ℕ) (tcb : Tcb) (raw seg : Segment)
    (now : Instant) (incoming : ctx.incoming = some raw) (stands : Stands raw seg)
    (noSyn : seg.flags.syn = false) (ack : seg.flags.ack) (live : tcb.state ≠ .closed)
    (opened : tcb.state ≠ .synSent)
    (late : tcb.state = .synReceived → acksSyn tcb seg → tcb.sndNxt = tcb.iss → ctx.late)
    (wild : tcb.state = .synReceived → acksSyn tcb seg → tcb.sndMax = tcb.iss → ctx.wild) :
    Runs ctx (port, tcb) (tcpAcceptable port id tcb seg now) := by
  simp only [tcpAcceptable]
  split
  · rename_i opening
    split
    · exact sendReset_runs port tcb _ _ seg now
    · rename_i acks
      have acks : acksSyn tcb seg = true := by simpa using acks
      obtain ⟨port', tcb', eq, state, runs⟩ := establish_runs port id tcb raw seg now incoming stands
        opening ack acks (late opening acks) (wild opening acks)
      rw [eq]
      exact runs.trans (tcpSegment_runs port' tcb' raw seg now incoming stands noSyn
        (by rw [state]; rfl) ack)
  · rename_i notOpening
    have synchronized : tcb.state.synchronized := by
      cases state : tcb.state <;> simp_all [State.synchronized]
    exact tcpSegment_runs port tcb raw seg now incoming stands noSyn synchronized ack

theorem tcpReceive_runs (port : Host) (id : ℕ) (tcb : Tcb) (seg : Segment) (now : Instant)
    (incoming : ctx.incoming = some seg) (live : tcb.state ≠ .closed)
    (late : tcb.completesHandshake seg → tcb.sndNxt = tcb.iss → ctx.late)
    (wild : tcb.completesHandshake seg → tcb.sndMax = tcb.iss → ctx.wild) :
    Runs ctx (port, tcb) (tcpReceive port id tcb seg now) := by
  simp only [tcpReceive]
  split
  · rename_i opening
    exact tcpSynSent_runs port tcb seg now incoming opening late wild
  rename_i opened
  have stands := trimSyn_stands tcb seg
  split
  · split
    · exact .refl _
    · exact answer_runs port tcb now
  rename_i takes
  split
  · split
    · exact answer_runs port tcb now
    · exact tcpReset_runs port tcb
  rename_i noRst
  split
  · exact answer_runs port tcb now
  rename_i noSyn
  split
  · exact .refl _
  rename_i ack
  have completes : tcb.state = .synReceived → acksSyn tcb (trimSyn tcb seg) →
      tcb.completesHandshake seg := by
    intro opening acks
    simp only [Tcb.completesHandshake, opening]
    simp_all
  exact tcpAcceptable_runs port id tcb seg (trimSyn tcb seg) now incoming stands
    (Bool.eq_false_of_not_eq_true noSyn) (by simpa using ack) live opened
    (fun opening acks => late (completes opening acks))
    fun opening acks => wild (completes opening acks)

theorem tcpProcess_runs (port : Host) (id : ℕ) (tcb : Tcb) (seg : Segment) (now : Instant)
    (incoming : ctx.incoming = some seg) (live : tcb.state ≠ .closed)
    (late : tcb.completesHandshake seg → tcb.sndNxt = tcb.iss → ctx.late)
    (wild : tcb.completesHandshake seg → tcb.sndMax = tcb.iss → ctx.wild) :
    Runs ctx (port, tcb) (tcpProcess port id tcb seg now) :=
  .congrLeft rfl (tcpReceive_runs port id { tcb with heard := now, keepaliveProbes := 0 } seg now
    incoming live late wild)

theorem closeWith_runs (port : Host) (tcb : Tcb) (error : Option Error) :
    Runs ctx (port, tcb) (port, tcb.closeWith error) :=
  .silent (.close _)

theorem tcpAbort_runs (port : Host) (tcb : Tcb) (now : Instant) :
    Runs ctx (port, tcb) (tcpAbort port tcb now) := by
  simp only [tcpAbort]
  split
  · rename_i speaks
    have live : tcb.state ≠ .closed := by
      rintro closed
      simp [closed, State.synchronized] at speaks
    obtain ⟨port', tcb', sent, adv, eq, _, runs⟩ :=
      sendTcp_quiet ctx port tcb tcb.sndNxt { rst := true, ack := true } 0 0 now live
        (fun _ d sends => .sendRst (by rw [sends.flagsEq]) (by rw [sends.flagsEq])
          (by rw [sends.flagsEq]) (by rw [sends.dataEq]; simp [Ring.readAt]))
    rw [eq]
    exact runs.trans (closeWith_runs port' tcb' none)
  · exact closeWith_runs port tcb none

variable (ctx) in
theorem tcpShutdown_runs (port : Host) (tcb : Tcb) (now : Instant)
    (place : tcb.closesBehind → ctx.misplaced) :
    Runs ctx (port, tcb) (tcpShutdown port tcb now) := by
  simp only [tcpShutdown]
  split
  · exact .refl _
  rename_i first
  have first : tcb.finQueued = false := Bool.eq_false_of_not_eq_true first
  have place' : (tcb.state = .synReceived ∨ tcb.state = .established ∨ tcb.state = .closeWait) →
      lt tcb.sndNxt tcb.txBase → tcb.tx.len = 0 → ctx.misplaced := by
    intro state behind empty
    apply place
    rcases state with state | state | state <;>
      simp [Tcb.closesBehind, first, behind, empty, state]
  have queue : ∀ state', (tcb.state = .synReceived ∨ tcb.state = .established) ∧
      state' = .finWait1 ∨ tcb.state = .closeWait ∧ state' = .lastAck →
      Runs ctx (port, tcb) (port, { tcb with state := state', finQueued := true }) := by
    intro state' from'
    refine .silent (.shutdown state' first from' (place' ?_))
    rcases from' with ⟨state | state, _⟩ | ⟨state, _⟩
    · exact Or.inl state
    · exact Or.inr (Or.inl state)
    · exact Or.inr (Or.inr state)
  split
  · exact closeWith_runs port tcb none
  · rename_i state
    exact (queue .finWait1 (Or.inl ⟨Or.inl state, rfl⟩)).trans (tcpOutput_runs _ port _ now)
  · rename_i state
    exact (queue .finWait1 (Or.inl ⟨Or.inr state, rfl⟩)).trans (tcpOutput_runs _ port _ now)
  · rename_i state
    exact (queue .lastAck (Or.inr ⟨state, rfl⟩)).trans (tcpOutput_runs _ port _ now)
  · exact .refl _

theorem tcpRelease_runs (port : Host) (tcb : Tcb) (now : Instant)
    (place : tcb.rx.len = 0 ∧ tcb.closesBehind → ctx.misplaced) :
    Runs ctx (port, tcb) (tcpRelease port tcb now) := by
  simp only [tcpRelease]
  have released : Runs ctx (port, tcb) (port, { tcb with released := true }) :=
    .silent (.release tcb.core)
  refine released.trans ?_
  split
  · exact tcpAbort_runs port _ now
  · rename_i closing
    have runs := tcpShutdown_runs ctx port { tcb with released := true } now
      fun behind => place ⟨by simpa using fun some => closing (Or.inl some), behind⟩
    refine runs.trans ?_
    split <;> exact .quiet rfl

theorem tcpUnlisten_runs (port : Host) (tcb : Tcb) (now : Instant) :
    Runs ctx (port, tcb) (tcpUnlisten port tcb now) := by
  have released : Runs ctx (port, tcb) (port, { tcb with released := true, listener := none }) :=
    .silent (.release tcb.core)
  exact released.trans (tcpAbort_runs port _ now)

theorem tcpIcmpError_runs (port : Host) (tcb : Tcb) (seq : Seq) (reported : Reported) :
    Runs ctx (port, tcb) (port, tcpIcmpError tcb seq reported) := by
  simp only [tcpIcmpError]
  split
  · exact .refl _
  · split
    · exact closeWith_runs port tcb _
    · exact .quiet rfl

theorem retransmitTimeout_runs (port : Host) (tcb : Tcb) (now : Instant)
    (timer : tcb.retransmitAt.isSome)
    (place : tcb.finQueued → lt tcb.sndUna tcb.txBase → ctx.misplaced) :
    Runs ctx (port, tcb) (port, retransmitTimeout tcb now) := by
  have core : (retransmitTimeout tcb now).core =
      { tcb.core with sndNxt := tcb.sndUna, finSent := false } := by
    simp only [retransmitTimeout, Tcb.core, timer, Option.isSome_some]
  apply Runs.silent
  rw [core]
  exact .timeout timer place

theorem isSome_of_due {timer : Option Instant} {now : Instant} (fires : due timer now) :
    timer.isSome := by
  cases timer with
  | none => simp [due] at fires
  | some at' => rfl

theorem ackAndPersistTimers_runs (port : Host) (tcb : Tcb) (now : Instant) :
    Runs ctx (port, tcb) (port, ackAndPersistTimers tcb now) := by
  simp only [ackAndPersistTimers]
  generalize acking : (if due tcb.ackAt now then { tcb with ackNow := true } else tcb) = acked
  have core : acked.core = tcb.core := by
    rw [← acking]
    split <;> rfl
  refine .congrLeft core ?_
  split
  · rename_i fires
    exact .silent (.persist (isSome_of_due fires))
  · exact .refl _

theorem keepaliveAt_synchronized {tcb : Tcb} {now : Instant} (fires : due tcb.keepaliveAt now) :
    tcb.state.synchronized := by
  have some := isSome_of_due fires
  simp only [Tcb.keepaliveAt] at some
  cases state : tcb.state <;> cases tcb.keepalive <;> simp_all [State.synchronized]

theorem keepaliveTimer_runs (port : Host) (tcb : Tcb) (now : Instant) :
    Runs ctx (port, tcb) (keepaliveTimer port tcb now) := by
  simp only [keepaliveTimer]
  split
  · rename_i fires
    split
    · exact closeWith_runs port tcb _
    · have synchronized := keepaliveAt_synchronized fires
      obtain ⟨port', tcb', sent, adv, eq, _, runs⟩ := sendTcp_quiet ctx port
        { tcb with keepaliveProbes := tcb.keepaliveProbes + 1 } (tcb.sndUna - 1)
        { ack := true } 0 0 now (State.synchronized_ne_closed synchronized)
        (fun _ d sends => .sendAck _ synchronized sends)
      rw [eq]
      exact .congrLeft rfl (runs.trans (tcpOutput_runs _ port' tcb' now))
  · exact tcpOutput_runs _ port tcb now

theorem tcpTimers_runs (port : Host) (tcb : Tcb) (now : Instant)
    (place : tcb.timesOutBehind now → ctx.misplaced) :
    Runs ctx (port, tcb) (tcpTimers port tcb now) := by
  simp only [tcpTimers]
  split
  · exact closeWith_runs port tcb none
  rename_i open'
  split
  · rename_i fires
    split
    · exact (release_runs port tcb tcb.listener.isSome).trans (.silent (.close _))
    · rename_i more
      refine .trans (retransmitTimeout_runs port tcb now (isSome_of_due fires) ?_)
        (.trans (ackAndPersistTimers_runs port _ now) (keepaliveTimer_runs port _ now))
      intro queued behind
      exact place (by simp [Tcb.timesOutBehind, open', fires, more, queued, behind])
  · exact .trans (ackAndPersistTimers_runs port _ now) (keepaliveTimer_runs port _ now)

theorem tcpPollOne_runs (port : Host) (tcb : Tcb) (now : Instant)
    (place : tcb.timesOutBehind now → ctx.misplaced) :
    Runs ctx (port, tcb) (tcpPollOne port tcb now) := by
  simp only [tcpPollOne]
  split
  · exact tcpTimers_runs port tcb now place
  · exact .refl _

theorem tcpLinkReady_runs (port : Host) (tcb : Tcb) (now : Instant) :
    Runs ctx (port, tcb) (tcpLinkReady port tcb now) := by
  simp only [tcpLinkReady]
  split
  · exact tcpOutput_runs _ port tcb now
  · exact .refl _

theorem dropBuffers_core (tcb : Tcb) :
    (dropBuffers tcb).core = tcb.core ∨
      tcb.state = .timeWait ∧ tcb.released ∧
        (dropBuffers tcb).core = tcb.core.dropBuffers := by
  simp only [dropBuffers]
  split
  · rename_i waiting
    exact Or.inr ⟨waiting.1, waiting.2.1, rfl⟩
  · exact Or.inl rfl

def RunsTelling (ctx : Context) (told : List Happening) (before after : Host × Tcb) : Prop :=
  ∃ events, RecordingHost.events after.1 = RecordingHost.events before.1 ++ events ∧
    Moves ctx before.2.core (told ++ events.map .port) after.2.core

theorem RunsTelling.trans {told : List Happening} {first second third : Host × Tcb}
    (one : RunsTelling ctx told first second) (two : Runs ctx second third) :
    RunsTelling ctx told first third := by
  obtain ⟨events, recorded, moves⟩ := one
  obtain ⟨later, recordedLater, movesLater⟩ := two
  refine ⟨events ++ later, by rw [recordedLater, recorded, append_assoc], ?_⟩
  rw [map_append, ← append_assoc]
  exact moves.trans movesLater

theorem RunsTelling.of_runs {before after : Host × Tcb} (runs : Runs ctx before after) :
    RunsTelling ctx [] before after := by
  simpa [RunsTelling, Runs] using runs

theorem RunsTelling.move {told : List Happening} {port : Host} {tcb tcb' : Tcb}
    (move : Move ctx tcb.core told tcb'.core) :
    RunsTelling ctx told (port, tcb) (port, tcb') :=
  ⟨[], by simp, by simpa using Transition.Trace.single move⟩

variable (ctx) in
theorem tcpRead_runs (port : Host) (tcb : Tcb) (room : ℕ) (now : Instant)
    (covered : tcb.readsUncovered → ctx.uncovered) :
    ∃ port' tcb' result, tcpRead port tcb room now = (port', tcb', result) ∧
      RunsTelling ctx ((Input.read room).happenings (.read result)) (port, tcb) (port', tcb') := by
  have nothing : Move ctx tcb.core [.returned []] tcb.core :=
    .pop (c := tcb.core) 0 (Nat.zero_le _) (Or.inr rfl)
  simp only [tcpRead]
  split
  · rename_i some
    have same : min (min room tcb.rx.len) room = min room tcb.rx.len := by omega
    have held : min room tcb.rx.len ≤ tcb.rx.len := Nat.min_le_right _ _
    simp only [Ring.pop, same]
    split
    · rename_i synchronized
      have popLook : Move ctx tcb.core
          [.returned (tcb.rx.readAt 0 (min room tcb.rx.len)), .port (.edge
            (Tcb.windowGrewCall { tcb with rx := tcb.rx.discard (min room tcb.rx.len) }))]
          (Tcb.core { tcb with rx := tcb.rx.discard (min room tcb.rx.len) }) :=
        .popLook _ held some synchronized fun behind => covered (by
          simp only [Tcb.readsUncovered, Bool.and_eq_true, decide_eq_true_eq]
          exact ⟨⟨some, synchronized⟩, behind⟩)
      generalize ({ tcb with rx := tcb.rx.discard (min room tcb.rx.len) } : Tcb) = rest at *
      have looked : RunsTelling ctx [.returned (tcb.rx.readAt 0 (min room tcb.rx.len))]
          (port, tcb) (TcpHost.observe port rest.windowGrewCall, rest) :=
        ⟨[.edge rest.windowGrewCall], RecordingHost.events_observe .., .single popLook⟩
      split
      · generalize answers : answer (TcpHost.observe port rest.windowGrewCall) rest now = after
        obtain ⟨port', tcb'⟩ := after
        refine ⟨port', tcb', _, rfl, looked.trans ?_⟩
        rw [← answers]
        exact answer_runs _ rest now
      · exact ⟨_, rest, _, rfl, looked⟩
    · rename_i notSynchronized
      exact ⟨port, _, _, rfl, .move (.pop _ held
        (Or.inl (Bool.eq_false_of_not_eq_true notSynchronized)))⟩
  · split
    · exact ⟨port, tcb, _, rfl, .move nothing⟩
    · split
      · cases tcb.error with
        | none => exact ⟨port, tcb, _, rfl, .move nothing⟩
        | some error => exact ⟨port, tcb, _, rfl, .of_runs (.refl _)⟩
      · exact ⟨port, tcb, _, rfl, .of_runs (.refl _)⟩

variable (ctx) in
theorem tcpWrite_runs (port : Host) (tcb : Tcb) (data : List UInt8) (now : Instant) :
    ∃ port' tcb' result, tcpWrite port tcb data now = (port', tcb', result) ∧
      RunsTelling ctx ((Input.write data).happenings (.write result))
        (port, tcb) (port', tcb') := by
  simp only [tcpWrite]
  split
  · exact ⟨port, tcb, _, rfl, .of_runs (.refl _)⟩
  split
  · exact ⟨port, tcb, _, rfl, .of_runs (.refl _)⟩
  rename_i takes
  have writable : tcb.state = .established ∨ tcb.state = .closeWait := by
    by_contra other
    exact takes (Or.inr other)
  have more : tcb.finQueued = false := by
    apply Bool.eq_false_of_not_eq_true
    exact fun queued => takes (Or.inl queued)
  have pushes := fun told told' => @Move.push ctx tcb.core (TcpHost.fits port)
    data told writable more told'
  generalize pushEq : tcb.tx.push (TcpHost.fits port) data = pushed at pushes
  obtain ⟨tx, n⟩ := pushed
  change ∀ told, told = [.accepted (data.take (tcb.tx.push (TcpHost.fits port) data).2)] ∨
    (tcb.tx.push (TcpHost.fits port) data).2 = 0 ∧ told = [] →
    Move ctx tcb.core told { tcb.core with tx := (tcb.tx.push (TcpHost.fits port) data).1 }
    at pushes
  rw [pushEq] at pushes
  simp only
  split
  · rename_i none
    have told : RunsTelling ctx [] (port, tcb) (port, { tcb with tx }) :=
      .move (pushes [] (Or.inr ⟨none, rfl⟩))
    refine ⟨port, { tcb with tx }, _, rfl, ?_⟩
    split <;> exact told
  · generalize outputs : tcpOutput port { tcb with tx } now = after
    obtain ⟨port', tcb'⟩ := after
    refine ⟨port', tcb', _, rfl, ?_⟩
    have told : RunsTelling ctx [.accepted (data.take n)] (port, tcb) (port, { tcb with tx }) :=
      .move (pushes _ (Or.inl rfl))
    refine told.trans ?_
    rw [← outputs]
    exact tcpOutput_runs _ port _ now

theorem act_runs (port : Host) (slot : ℕ) (tcb : Tcb) (now : Instant) (input : Input)
    (possible : input.possible tcb) :
    ∃ port' tcb' reply, input.act port slot tcb now = (port', tcb', reply) ∧
      RunsTelling (input.context tcb now) (input.happenings reply) (port, tcb)
        (port', tcb') := by
  have quietly : ∀ (ctx : Context) (result : Host × Tcb), Runs ctx (port, tcb) result →
      (∀ reply, input.happenings reply = []) → ctx = input.context tcb now →
      ∃ port' tcb' reply, (result.1, result.2, Reply.none) = (port', tcb', reply) ∧
        RunsTelling (input.context tcb now) (input.happenings reply) (port, tcb)
          (port', tcb') := by
    rintro ctx ⟨port', tcb'⟩ runs silent rfl
    exact ⟨port', tcb', .none, rfl, by rw [silent]; exact .of_runs runs⟩
  cases input with
  | segment seg =>
    have live : tcb.state ≠ .closed := by simpa [Input.possible] using possible
    exact quietly ((Input.segment seg).context tcb now) _
      (tcpProcess_runs port slot tcb seg now rfl live (fun completes nxt => ⟨completes, nxt⟩)
        fun completes max => ⟨completes, max⟩)
      (fun _ => rfl) rfl
  | read room =>
    obtain ⟨port', tcb', result, eq, runs⟩ := tcpRead_runs
      ((Input.read room).context tcb now) port tcb room now id
    exact ⟨port', tcb', .read result, by rw [Input.act, eq], runs⟩
  | write data =>
    obtain ⟨port', tcb', result, eq, runs⟩ := tcpWrite_runs
      ((Input.write data).context tcb now) port tcb data now
    exact ⟨port', tcb', .write result, by rw [Input.act, eq], runs⟩
  | shutdown =>
    exact quietly (Input.shutdown.context tcb now) _ (tcpShutdown_runs _ port tcb now id)
      (fun _ => rfl) rfl
  | release =>
    exact quietly (Input.release.context tcb now) _ (tcpRelease_runs port tcb now id)
      (fun _ => rfl) rfl
  | accept =>
    exact quietly _ (port, { tcb with listener := none }) (.quiet rfl) (fun _ => rfl) rfl
  | unlisten =>
    exact quietly _ _ (tcpUnlisten_runs port tcb now) (fun _ => rfl) rfl
  | setNodelay nodelay =>
    exact quietly _ (port, { tcb with nodelay }) (.quiet rfl) (fun _ => rfl) rfl
  | setKeepalive idle =>
    exact quietly _ (port, { tcb with keepalive := idle, keepaliveProbes := 0 }) (.quiet rfl)
      (fun _ => rfl) rfl
  | icmpError seq reported =>
    exact quietly _ _ (tcpIcmpError_runs port tcb seq reported) (fun _ => rfl) rfl
  | linkReady =>
    exact quietly _ _ (tcpLinkReady_runs port tcb now) (fun _ => rfl) rfl
  | poll =>
    exact quietly (Input.poll.context tcb now) _ (tcpPollOne_runs port tcb now id)
      (fun _ => rfl) rfl

theorem step_runs (port : Host) (slot : ℕ) (tcb : Tcb) (now : Instant) (input : Input)
    (possible : input.possible tcb) :
    ∃ port' tcb' tcb'' reply, tcb.step port slot now input = (port', tcb'', reply) ∧
      RunsTelling (input.context tcb now) (input.happenings reply) (port, tcb)
        (port', tcb') ∧
      (tcb''.core = tcb'.core ∨ tcb'.state = .timeWait ∧ tcb'.released ∧
        tcb''.core = tcb'.core.dropBuffers) := by
  obtain ⟨port', tcb', reply, eq, runs⟩ := act_runs port slot tcb now input possible
  simp only [Tcb.step, eq]
  split
  · exact ⟨port', tcb', _, reply, rfl, runs, dropBuffers_core tcb'⟩
  · exact ⟨port', tcb', tcb', reply, rfl, runs, Or.inl rfl⟩

end EspDevkit.Net
