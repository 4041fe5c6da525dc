import EspDevkit.Net.ReceiveOrder

/-!
# What a connection leaves alone while it speaks

Sending segments moves the advertised edge and nothing else of what the peer is told;
timers, estimators and the send side do not touch it.  Only the handshake and received data
do more.
-/

namespace EspDevkit.Net

open SerialNumber

variable {Host : Type} [TcpHost Host]

structure Frame where
  rcvNxt : Seq
  rcvAdv : Seq
  rcvScale : ℕ
  listener : Option ℕ

def Tcb.frame (t : Tcb) : Frame := ⟨t.rcvNxt, t.rcvAdv, t.rcvScale, t.listener⟩

structure Quiet (tcb tcb' : Tcb) : Prop where
  frame : tcb'.frame = tcb.frame
  opening : tcb'.state.opening → tcb'.state = tcb.state

/-- The connection sends segments, and changes quietly besides. -/
inductive Speaks (start : Host × Tcb) : Host × Tcb → Prop
  | refl : Speaks start start
  | quiet {host : Host} {tcb tcb' : Tcb} (speaks : Speaks start (host, tcb))
      (quiet : Quiet tcb tcb') : Speaks start (host, tcb')
  | send {host : Host} {tcb : Tcb} (speaks : Speaks start (host, tcb)) (seq : Seq)
      (flags : Flags) (offset len : ℕ) (now : Instant)
      (opened : flags.ack → tcb.state ≠ .synSent) :
      Speaks start ((sendTcp host tcb seq flags offset len now).1,
        (sendTcp host tcb seq flags offset len now).2.1)
  | reset {host : Host} {tcb : Tcb} (speaks : Speaks start (host, tcb))
      (localAddr remoteAddr : SocketAddrV4) (seg : Segment) (ack : seg.flags.ack) (now : Instant) :
      Speaks start (sendReset host localAddr remoteAddr seg now, tcb)
  /-- A call of `window_grew()`. -/
  | look {host : Host} {tcb : Tcb} (speaks : Speaks start (host, tcb)) (call : EdgeCall) :
      Speaks start (TcpHost.observe host call, tcb)

namespace Quiet

variable {first second third : Tcb}

theorem refl : Quiet first first := ⟨rfl, fun _ => rfl⟩

theorem still (frame : second.frame = first.frame) (state : second.state = first.state) :
    Quiet first second :=
  ⟨frame, fun _ => state⟩

theorem leave (frame : second.frame = first.frame) (state : second.state.opening = false) :
    Quiet first second :=
  ⟨frame, fun opening => by
    rw [state] at opening
    cases opening⟩

theorem trans (one : Quiet first second) (two : Quiet second third) : Quiet first third :=
  ⟨two.frame.trans one.frame, fun opening => by
    have same := two.opening opening
    rw [same] at opening
    exact same.trans (one.opening opening)⟩

theorem opened (quiet : Quiet first second) (opened : first.state ≠ .synSent) :
    second.state ≠ .synSent := by
  intro state
  have same := quiet.opening (by rw [state]; rfl)
  exact opened (same.symm.trans state)

end Quiet

theorem window_frame (tcb : Tcb) :
    tcb.window.1.rcvNxt = tcb.rcvNxt ∧ tcb.window.1.rcvScale = tcb.rcvScale ∧
      tcb.window.1.listener = tcb.listener ∧ tcb.window.1.state = tcb.state := by
  unfold Tcb.window
  dsimp only
  generalize (if lt tcb.rcvAdv tcb.rcvNxt then tcb.rcvNxt else tcb.rcvAdv) = adv
  split <;> exact ⟨rfl, rfl, rfl, rfl⟩

/-- Of the frame, sending changes what `window()` does. -/
theorem sendTcp_window (host : Host) (tcb : Tcb) (seq : Seq) (flags : Flags) (offset len : ℕ)
    (now : Instant) :
    Quiet tcb.window.1 (sendTcp host tcb seq flags offset len now).2.1 := by
  unfold sendTcp
  dsimp only
  split
  · exact .refl
  · split <;> split <;> exact .still rfl rfl

theorem sendTcp_state (host : Host) (tcb : Tcb) (seq : Seq) (flags : Flags) (offset len : ℕ)
    (now : Instant) : (sendTcp host tcb seq flags offset len now).2.1.state = tcb.state := by
  rw [← (window_frame tcb).2.2.2]
  unfold sendTcp
  dsimp only
  split
  · rfl
  · split <;> split <;> rfl

namespace Speaks

variable {first second third : Host × Tcb}

theorem trans (one : Speaks first second) (two : Speaks second third) : Speaks first third := by
  induction two with
  | refl => exact one
  | quiet _ quiet ih => exact ih.quiet quiet
  | send _ seq flags offset len now opened ih => exact ih.send seq flags offset len now opened
  | reset _ localAddr remoteAddr seg ack now ih => exact ih.reset localAddr remoteAddr seg ack now
  | look _ call ih => exact ih.look call

theorem after {host : Host} {tcb tcb' : Tcb} {result : Host × Tcb}
    (speaks : Speaks (host, tcb') result) (quiet : Quiet tcb tcb') : Speaks (host, tcb) result :=
  (refl.quiet quiet).trans speaks

theorem opening (speaks : Speaks first second) (opening : second.2.state.opening) :
    second.2.state = first.2.state := by
  induction speaks with
  | refl => rfl
  | quiet _ quiet ih =>
    have same := quiet.opening opening
    rw [same] at opening ⊢
    exact ih opening
  | send _ seq flags offset len now _ ih =>
    rw [sendTcp_state] at opening ⊢
    exact ih opening
  | reset _ _ _ _ _ _ ih => exact ih opening
  | look _ _ ih => exact ih opening

theorem opened (speaks : Speaks first second) (opened : first.2.state ≠ .synSent) :
    second.2.state ≠ .synSent := by
  intro state
  have same := speaks.opening (by rw [state]; rfl)
  exact opened (same.symm.trans state)

theorem keeps (speaks : Speaks first second) :
    second.2.rcvNxt = first.2.rcvNxt ∧ second.2.rcvScale = first.2.rcvScale ∧
      second.2.listener = first.2.listener := by
  induction speaks with
  | refl => exact ⟨rfl, rfl, rfl⟩
  | quiet _ quiet ih =>
    obtain ⟨nxt, scale, listener⟩ := ih
    exact ⟨(congrArg Frame.rcvNxt quiet.frame).trans nxt,
      (congrArg Frame.rcvScale quiet.frame).trans scale,
      (congrArg Frame.listener quiet.frame).trans listener⟩
  | @send host tcb _ seq flags offset len now _ ih =>
    obtain ⟨nxt, scale, listener⟩ := ih
    obtain ⟨nxt', scale', listener', -⟩ := window_frame tcb
    have frame := (sendTcp_window host tcb seq flags offset len now).frame
    exact ⟨(congrArg Frame.rcvNxt frame).trans (nxt'.trans nxt),
      (congrArg Frame.rcvScale frame).trans (scale'.trans scale),
      (congrArg Frame.listener frame).trans (listener'.trans listener)⟩
  | reset _ _ _ _ _ _ ih => exact ih
  | look _ _ ih => exact ih

theorem rcvNxt (speaks : Speaks first second) : second.2.rcvNxt = first.2.rcvNxt :=
  speaks.keeps.1

theorem rcvScale (speaks : Speaks first second) : second.2.rcvScale = first.2.rcvScale :=
  speaks.keeps.2.1

theorem listener (speaks : Speaks first second) : second.2.listener = first.2.listener :=
  speaks.keeps.2.2

end Speaks

variable (host : Host) (tcb : Tcb) (now : Instant)

theorem sendTcp_speaks (seq : Seq) (flags : Flags) (offset len : ℕ)
    (opened : flags.ack → tcb.state ≠ .synSent) :
    ∃ host' tcb' room, sendTcp host tcb seq flags offset len now = (host', tcb', room) ∧
      Speaks (host, tcb) (host', tcb') :=
  ⟨_, _, _, rfl, Speaks.refl.send seq flags offset len now opened⟩

theorem closeWith_quiet (error : Option Error) : Quiet tcb (tcb.closeWith error) :=
  .leave rfl rfl

theorem retransmitFirst_speaks (opened : tcb.state ≠ .synSent) :
    Speaks (host, tcb) (retransmitFirst host tcb now) := by
  unfold retransmitFirst
  dsimp only
  split
  · obtain ⟨host', tcb', room, sent, speaks⟩ := sendTcp_speaks host tcb now tcb.sndUna
      { ack := true } (tcb.sndUna - tcb.txBase).toNat
      (min (tcb.tx.len - (tcb.sndUna - tcb.txBase).toNat) tcb.sndMss) fun _ => opened
    rw [sent]
    exact speaks.quiet (.still rfl rfl)
  · exact .refl

theorem resend_speaks {tcb tcb' : Tcb} (quiet : Quiet tcb tcb') (opened : tcb.state ≠ .synSent) :
    Speaks (host, tcb) (retransmitFirst host tcb' now) :=
  (retransmitFirst_speaks host tcb' now (quiet.opened opened)).after quiet

theorem outputSyn_speaks : Speaks (host, tcb) (outputSyn host tcb now) := by
  unfold outputSyn
  split
  · dsimp only
    have opened : (if tcb.state = .synSent then ({ syn := true } : Flags)
        else { syn := true, ack := true }).ack → tcb.state ≠ .synSent := by
      split
      · nofun
      · next other => exact fun _ => other
    generalize (if tcb.state = .synSent then ({ syn := true } : Flags)
      else { syn := true, ack := true }) = flags at opened ⊢
    obtain ⟨host', tcb', room, sent, speaks⟩ := sendTcp_speaks host tcb now tcb.iss flags 0 0 opened
    rw [sent]
    cases room with
    | false => exact speaks.quiet (.still rfl rfl)
    | true => exact speaks.quiet (.still rfl rfl)
  · exact .refl

theorem outputLoop_speaks (fuel : ℕ) (opened : tcb.state ≠ .synSent) :
    Speaks (host, tcb) ((outputLoop now fuel host tcb).1, (outputLoop now fuel host tcb).2.1) := by
  induction fuel generalizing host tcb with
  | zero => exact .refl
  | succ fuel ih =>
    unfold outputLoop
    split
    · exact .refl
    · dsimp only
      split
      · exact .refl
      · generalize ({ ack := true, psh := _, fin := _ } : Flags) = flags
        obtain ⟨host', tcb', room, sent, speaks⟩ := sendTcp_speaks host tcb now tcb.sndNxt flags
          (tcb.sndNxt - tcb.txBase).toNat tcb.nextSend.1 fun _ => opened
        rw [sent]
        cases room with
        | false => exact speaks.quiet (.still rfl rfl)
        | true =>
          have recorded : Quiet tcb' (tcb'.recordSent tcb.nextSend.1 tcb.nextSend.2 now) :=
            .still rfl rfl
          exact (speaks.quiet recorded).trans
            (ih host' _ (recorded.opened (speaks.opened opened)))

theorem outputAck_speaks (opened : tcb.state ≠ .synSent) :
    Speaks (host, tcb) (outputAck host tcb now) := by
  unfold outputAck
  split
  · obtain ⟨host', tcb', room, sent, speaks⟩ :=
      sendTcp_speaks host tcb now tcb.sndNxt { ack := true } 0 0 fun _ => opened
    rw [sent]
    cases room with
    | false => exact speaks.quiet (.still rfl rfl)
    | true => exact speaks
  · exact .refl

theorem armPersist_quiet : Quiet tcb (armPersist tcb now) := by
  unfold armPersist
  split <;> exact .still rfl rfl

theorem restartIdle_quiet : Quiet tcb (restartIdle tcb now) := by
  unfold restartIdle
  split <;> exact .still rfl rfl

theorem outputData_speaks (opened : tcb.state ≠ .synSent) :
    Speaks (host, tcb) (outputData host tcb now) := by
  unfold outputData
  dsimp only
  have restarted := restartIdle_quiet tcb now
  have looped := (Speaks.refl.quiet restarted).trans
    (outputLoop_speaks host (restartIdle tcb now) now (restartIdle tcb now).outputFuel
      (restarted.opened opened))
  generalize outputLoop now _ host (restartIdle tcb now) = result at looped ⊢
  obtain ⟨host', tcb', ended⟩ := result
  cases ended with
  | false => exact looped
  | true =>
    have acked := looped.trans (outputAck_speaks host' tcb' now (looped.opened opened))
    exact acked.quiet (armPersist_quiet _ now)

theorem tcpOutput_speaks : Speaks (host, tcb) (tcpOutput host tcb now) := by
  have begun : Speaks (host, tcb) (host, { tcb with linkRetryAt := none }) :=
    Speaks.refl.quiet (.still rfl rfl)
  unfold tcpOutput
  dsimp only
  split
  · exact begun
  · exact begun.trans (outputSyn_speaks host _ now)
  · exact begun.trans (outputSyn_speaks host _ now)
  · next other _ => exact begun.trans (outputData_speaks host _ now other)

theorem answer_speaks : Speaks (host, tcb) (answer host tcb now) :=
  have due : Quiet tcb { tcb with ackNow := true } := .still rfl rfl
  (Speaks.refl.quiet due).trans (tcpOutput_speaks host _ now)

theorem takeSample_quiet : Quiet tcb (tcb.takeSample now) := by
  unfold Tcb.takeSample
  split
  · exact .refl
  · unfold Tcb.sampleRtt
    dsimp only
    split <;> exact .still rfl rfl

theorem takeSample_state : (tcb.takeSample now).state = tcb.state := by
  unfold Tcb.takeSample
  split <;> rfl

theorem dropAcked_quiet (ack : Seq) : Quiet tcb (dropAcked tcb ack) := by
  unfold dropAcked
  split <;> exact .still rfl rfl

theorem recordAck_quiet (ack : Seq) : Quiet tcb (recordAck tcb ack now) := by
  have sample : ∀ t : Tcb, Quiet t (sampleAck t ack now) := by
    intro t
    unfold sampleAck
    split
    · split
      · exact takeSample_quiet t now
      · exact .refl
    · exact .refl
  have taken : Quiet (dropAcked tcb ack) { dropAcked tcb ack with
      sndUna := ack
      sndNxt := if lt (dropAcked tcb ack).sndNxt ack then ack else (dropAcked tcb ack).sndNxt
      finSent := (dropAcked tcb ack).finSent || tcb.finSeq.any fun f => lt f ack } :=
    .still rfl rfl
  have sampled := (dropAcked_quiet tcb ack).trans (taken.trans (sample _))
  exact sampled.trans (.still rfl rfl)

theorem finAcked_quiet : Quiet tcb (finAcked tcb now) := by
  unfold finAcked
  split
  · exact .leave rfl rfl
  · exact .leave rfl rfl
  · exact .leave rfl rfl
  · exact .refl

theorem updateWindow_quiet (seg : Segment) : Quiet tcb (updateWindow tcb seg) := by
  unfold updateWindow
  dsimp only
  split <;> exact .still rfl rfl

theorem growWindow_speaks (acked : ℕ) (ack : Seq) (opened : tcb.state ≠ .synSent) :
    Speaks (host, tcb) (growWindow host tcb acked ack now) := by
  unfold growWindow
  split
  · split
    · exact Speaks.refl.quiet (.still rfl rfl)
    · exact (retransmitFirst_speaks host tcb now opened).quiet (.still rfl rfl)
  · split
    · exact Speaks.refl.quiet (.still rfl rfl)
    · exact Speaks.refl.quiet (.still rfl rfl)

theorem tcpAcked_speaks (ack : Seq) (opened : tcb.state ≠ .synSent) :
    Speaks (host, tcb) (tcpAcked host tcb ack now) := by
  unfold tcpAcked
  dsimp only
  have recorded := recordAck_quiet tcb now ack
  have grown := (Speaks.refl.quiet recorded).trans (growWindow_speaks host (recordAck tcb ack now)
    now (ack - tcb.sndUna).toNat ack (recorded.opened opened))
  generalize growWindow host (recordAck tcb ack now) _ ack now = result at grown ⊢
  obtain ⟨host', tcb'⟩ := result
  dsimp only
  split
  · exact grown.quiet (finAcked_quiet tcb' now)
  · exact grown

theorem duplicateAck_speaks (opened : tcb.state ≠ .synSent) :
    Speaks (host, tcb) (duplicateAck host tcb now) := by
  unfold duplicateAck
  dsimp only
  split
  · generalize resent : retransmitFirst host _ now = result
    have begun : Speaks (host, tcb) result := by
      rw [← resent]
      exact resend_speaks host now (.still rfl rfl) opened
    exact begun.quiet (.still rfl rfl)
  · split
    · exact Speaks.refl.quiet (.still rfl rfl)
    · exact Speaks.refl.quiet (.still rfl rfl)

theorem takeAck_speaks (seg : Segment) (opened : tcb.state ≠ .synSent) :
    Speaks (host, tcb) (takeAck host tcb seg now) := by
  unfold takeAck
  dsimp only
  have begun : Quiet tcb
      (if seg.window.toNat <<< tcb.sndScale = 0 then { tcb with retries := 0 } else tcb) := by
    split <;> exact .still rfl rfl
  generalize (if seg.window.toNat <<< tcb.sndScale = 0 then { tcb with retries := 0 } else tcb) =
    tcb' at begun ⊢
  have opened' := begun.opened opened
  have begun := (@Speaks.refl Host _ (host, tcb)).quiet begun
  split
  · exact (begun.trans (tcpAcked_speaks host tcb' now seg.ack opened')).quiet
      (updateWindow_quiet _ seg)
  · split
    · exact (begun.trans (duplicateAck_speaks host tcb' now opened')).quiet
        (updateWindow_quiet _ seg)
    · exact begun.quiet (updateWindow_quiet _ seg)

theorem tcpReset_quiet : Quiet tcb (tcpReset tcb) := by
  unfold tcpReset
  split <;> exact .leave rfl rfl

theorem tcpWrite_speaks (data : List UInt8) :
    Speaks (host, tcb) ((tcpWrite host tcb data now).1, (tcpWrite host tcb data now).2.1) := by
  unfold tcpWrite
  split
  · exact .refl
  · split
    · exact .refl
    · dsimp only
      split
      · exact Speaks.refl.quiet (.still rfl rfl)
      · exact (tcpOutput_speaks host _ now).after (.still rfl rfl)

theorem tcpRead_speaks (room : ℕ) :
    Speaks (host, tcb) ((tcpRead host tcb room now).1, (tcpRead host tcb room now).2.1) := by
  unfold tcpRead
  split
  · dsimp only
    split
    · split
      · exact ((Speaks.refl.look _).trans (answer_speaks _ _ now)).after (.still rfl rfl)
      · have popped : Speaks (host, tcb)
            (host, { tcb with rx := (tcb.rx.pop (min room tcb.rx.len) room).1 }) :=
          Speaks.refl.quiet (.still rfl rfl)
        exact popped.look _
    · exact Speaks.refl.quiet (.still rfl rfl)
  · split
    · exact .refl
    · split
      · exact .refl
      · exact .refl

theorem tcpShutdown_speaks : Speaks (host, tcb) (tcpShutdown host tcb now) := by
  unfold tcpShutdown
  split
  · exact .refl
  · split
    · exact Speaks.refl.quiet (closeWith_quiet tcb none)
    · exact (tcpOutput_speaks host _ now).after (.leave rfl rfl)
    · exact (tcpOutput_speaks host _ now).after (.leave rfl rfl)
    · exact (tcpOutput_speaks host _ now).after (.leave rfl rfl)
    · exact .refl

theorem tcpAbort_speaks : Speaks (host, tcb) (tcpAbort host tcb now) := by
  unfold tcpAbort
  dsimp only
  split
  · next spoken =>
      have opened : tcb.state ≠ .synSent := by
        intro opening
        rw [opening] at spoken
        rcases spoken with synchronized | other
        · cases synchronized
        · cases other
      obtain ⟨host', tcb', room, sent, speaks⟩ :=
        sendTcp_speaks host tcb now tcb.sndNxt { rst := true, ack := true } 0 0 fun _ => opened
      rw [sent]
      exact speaks.quiet (closeWith_quiet tcb' none)
  · exact Speaks.refl.quiet (closeWith_quiet tcb none)

theorem tcpRelease_speaks : Speaks (host, tcb) (tcpRelease host tcb now) := by
  have released : Speaks (host, tcb) (host, { tcb with released := true }) :=
    Speaks.refl.quiet (.still rfl rfl)
  unfold tcpRelease
  dsimp only
  split
  · exact released.trans (tcpAbort_speaks host _ now)
  · have shut := released.trans (tcpShutdown_speaks host { tcb with released := true } now)
    split
    · exact shut.quiet (.still rfl rfl)
    · exact shut

theorem tcpIcmpError_quiet (seq : Seq) (reported : Reported) :
    Quiet tcb (tcpIcmpError tcb seq reported) := by
  unfold tcpIcmpError
  split
  · exact .refl
  · split
    · exact closeWith_quiet tcb _
    · exact .still rfl rfl

theorem ackAndPersistTimers_quiet : Quiet tcb (ackAndPersistTimers tcb now) := by
  unfold ackAndPersistTimers
  dsimp only
  split <;> split <;> exact .still rfl rfl

theorem keepaliveTimer_speaks : Speaks (host, tcb) (keepaliveTimer host tcb now) := by
  unfold keepaliveTimer
  split
  · next fires =>
      split
      · exact Speaks.refl.quiet (closeWith_quiet tcb _)
      · have opened : tcb.state ≠ .synSent := by
          intro opening
          unfold Tcb.keepaliveAt at fires
          cases idle : tcb.keepalive <;> simp [idle, opening, due] at fires
        dsimp only
        obtain ⟨host', tcb', room, sent, speaks⟩ :=
          sendTcp_speaks host { tcb with keepaliveProbes := tcb.keepaliveProbes + 1 } now
            (tcb.sndUna - 1) { ack := true } 0 0 fun _ => opened
        rw [sent]
        exact (speaks.trans (tcpOutput_speaks host' tcb' now)).after (.still rfl rfl)
  · exact tcpOutput_speaks host tcb now

theorem tcpPollOne_speaks : Speaks (host, tcb) (tcpPollOne host tcb now) := by
  unfold tcpPollOne
  split
  · unfold tcpTimers
    split
    · exact Speaks.refl.quiet (closeWith_quiet tcb _)
    · split
      · split
        · exact Speaks.refl.quiet (.leave rfl rfl)
        · have again : Quiet tcb (retransmitTimeout tcb now) := .still rfl rfl
          exact (Speaks.refl.quiet (again.trans (ackAndPersistTimers_quiet _ now))).trans
            (keepaliveTimer_speaks host _ now)
      · exact (Speaks.refl.quiet (ackAndPersistTimers_quiet tcb now)).trans
          (keepaliveTimer_speaks host _ now)
  · exact .refl

theorem tcpLinkReady_speaks : Speaks (host, tcb) (tcpLinkReady host tcb now) := by
  unfold tcpLinkReady
  split
  · exact tcpOutput_speaks host tcb now
  · exact .refl

theorem dropBuffers_quiet : Quiet tcb (dropBuffers tcb) := by
  unfold dropBuffers
  split <;> exact .still rfl rfl

/-- A segment past the handshake: besides what is said, its data may be taken once. -/
def Takes (start : Host × Tcb) (seg : Segment) (now : Instant) (result : Host × Tcb) : Prop :=
  ∃ host tcb tcb', Speaks start (host, tcb) ∧
    (tcb' = tcb ∨ tcb' = takeData (TcpHost.fits host) tcb seg now) ∧ Speaks (host, tcb') result

theorem Speaks.takes {start result : Host × Tcb} (speaks : Speaks start result) (seg : Segment)
    (now : Instant) : Takes start seg now result :=
  ⟨start.1, start.2, start.2, .refl, .inl rfl, speaks⟩

theorem tcpSegment_takes (seg : Segment) (opened : tcb.state ≠ .synSent) :
    Takes (host, tcb) seg now (tcpSegment host tcb seg now) := by
  unfold tcpSegment
  split
  · exact (answer_speaks host tcb now).takes seg now
  · exact ⟨_, _, _, takeAck_speaks host tcb now seg opened, .inr rfl, tcpOutput_speaks _ _ now⟩

theorem scheduleAck_listener (atOnce : Bool) :
    (scheduleAck tcb atOnce now).listener = tcb.listener := by
  unfold scheduleAck
  split
  · rfl
  · dsimp only
    split <;> rfl

theorem tcpData_listener (fits : ℕ → Bool) (seg : Segment) :
    (tcpData fits tcb seg now).listener = tcb.listener := by
  unfold tcpData
  dsimp only
  split
  · rfl
  · rw [scheduleAck_listener]
    repeat' first | rfl | split

theorem takeBytes_frame (fits : ℕ → Bool) (c : Core) (seg : Segment) :
    (c.takeBytes fits seg).rcvAdv = c.rcvAdv ∧ (c.takeBytes fits seg).rcvScale = c.rcvScale ∧
      (c.takeBytes fits seg).state = c.state := by
  unfold Core.takeBytes
  dsimp only
  split <;> exact ⟨rfl, rfl, rfl⟩

theorem tcpFin_frame (seg : Segment) :
    (tcpFin tcb seg).rcvAdv = tcb.rcvAdv ∧ (tcpFin tcb seg).rcvScale = tcb.rcvScale ∧
      (tcpFin tcb seg).listener = tcb.listener ∧
      ((tcpFin tcb seg).state.opening → (tcpFin tcb seg).state = tcb.state) := by
  unfold tcpFin
  split
  · refine ⟨rfl, rfl, rfl, ?_⟩
    dsimp only
    split
    · nofun
    · split <;> nofun
    · nofun
    · exact fun _ => rfl
  · exact ⟨rfl, rfl, rfl, fun _ => rfl⟩

theorem takeData_frame (fits : ℕ → Bool) (seg : Segment) :
    (takeData fits tcb seg now).rcvAdv = tcb.rcvAdv ∧
      (takeData fits tcb seg now).rcvScale = tcb.rcvScale ∧
      (takeData fits tcb seg now).listener = tcb.listener ∧
      ((takeData fits tcb seg now).state.opening →
        (takeData fits tcb seg now).state = tcb.state) := by
  unfold takeData
  dsimp only
  have data : ∃ tcb', (if (!seg.data.isEmpty && tcb.state.takesData) = true then
      tcpData fits tcb seg now else tcb) = tcb' ∧ tcb'.rcvAdv = tcb.rcvAdv ∧
      tcb'.rcvScale = tcb.rcvScale ∧ tcb'.listener = tcb.listener ∧ tcb'.state = tcb.state := by
    have core := tcpData_core fits tcb seg now
    split
    · exact ⟨_, rfl, (congrArg (·.rcvAdv) core).trans (takeBytes_frame _ _ _).1,
        (congrArg (·.rcvScale) core).trans (takeBytes_frame _ _ _).2.1,
        tcpData_listener tcb now fits seg,
        (congrArg (·.state) core).trans (takeBytes_frame _ _ _).2.2⟩
    · exact ⟨_, rfl, rfl, rfl, rfl, rfl⟩
  obtain ⟨tcb', same, adv, scale, listener, state⟩ := data
  rw [same, ← adv, ← scale, ← listener, ← state]
  have fin := tcpFin_frame tcb' seg
  split
  · exact ⟨fin.1, fin.2.1, fin.2.2.1, fin.2.2.2⟩
  · exact fin

theorem establish_quiet (id : ℕ) (seg : Segment) :
    ∃ tcb', establish host id tcb seg now =
        (tcb.listener.elim host fun l => TcpHost.ready host l id, tcb') ∧
      Quiet tcb tcb' ∧ tcb'.state = .established := by
  unfold establish
  dsimp only
  generalize sampled : Tcb.takeSample _ now = tcb'
  have quiet : Quiet tcb tcb' ∧ tcb'.state = .established := by
    rw [← sampled, takeSample_state]
    refine ⟨Quiet.trans ?_ (takeSample_quiet _ now), rfl⟩
    exact .leave rfl rfl
  have listener : tcb'.listener = tcb.listener := congrArg Frame.listener quiet.1.frame
  rw [listener]
  cases tcb.listener with
  | none => exact ⟨_, rfl, quiet⟩
  | some l => exact ⟨_, rfl, quiet⟩

/-- A segment that finds the handshake over, or ends it. -/
theorem tcpReceive_takes (id : ℕ) (seg : Segment) (opened : tcb.state ≠ .synSent) :
    (∃ raw, Takes (host, tcb) raw now (tcpReceive host id tcb seg now)) ∨
      tcb.state = .synReceived ∧ ∃ raw tcb', Quiet tcb tcb' ∧ tcb'.state = .established ∧
        Takes (tcb.listener.elim host fun l => TcpHost.ready host l id, tcb') raw now
          (tcpReceive host id tcb seg now) := by
  unfold tcpReceive
  rw [if_neg opened]
  dsimp only
  generalize trimSyn tcb seg = seg
  split
  · split
    · exact .inl ⟨seg, Speaks.takes .refl seg now⟩
    · exact .inl ⟨seg, Speaks.takes (answer_speaks host tcb now) seg now⟩
  · split
    · split
      · exact .inl ⟨seg, Speaks.takes (answer_speaks host tcb now) seg now⟩
      · exact .inl ⟨seg, Speaks.takes (Speaks.refl.quiet (tcpReset_quiet tcb)) seg now⟩
    · split
      · exact .inl ⟨seg, Speaks.takes (answer_speaks host tcb now) seg now⟩
      · split
        · exact .inl ⟨seg, Speaks.takes .refl seg now⟩
        · next ack =>
            unfold tcpAcceptable
            split
            · next opening =>
                split
                · have start : Speaks (host, tcb) (host, tcb) := .refl
                  have acks : seg.flags.ack := by simpa using ack
                  have reset := start.reset tcb.localAddr tcb.remoteAddr seg acks now
                  exact .inl ⟨seg, reset.takes seg now⟩
                · obtain ⟨tcb', ended, quiet, state⟩ := establish_quiet host tcb now id seg
                  rw [ended]
                  exact .inr ⟨opening, seg, tcb', quiet, state,
                    tcpSegment_takes _ tcb' now seg (by rw [state]; decide)⟩
            · exact .inl ⟨seg, tcpSegment_takes host tcb now seg opened⟩

theorem tcpSynSent_speaks (seg : Segment) :
    Speaks (host, tcb) (tcpSynSent host tcb seg now) ∨
      ∃ tcb', tcb'.state ≠ .synSent ∧ tcb'.listener = tcb.listener ∧
        tcb'.rcvScale ≤ tcb.rcvScale ∧ Speaks (host, tcb') (tcpSynSent host tcb seg now) := by
  have scale : (tcb.onSyn seg).rcvScale ≤ tcb.rcvScale := by
    simp only [Tcb.onSyn]
    split <;> omega
  unfold tcpSynSent
  dsimp only
  split
  · next unasked =>
      split
      · exact .inl .refl
      · exact .inl (Speaks.refl.reset _ _ seg unasked.1 now)
  · split
    · split
      · exact .inl (Speaks.refl.quiet (closeWith_quiet tcb _))
      · exact .inl .refl
    · split
      · exact .inl .refl
      · split
        · exact .inr ⟨{ tcb.onSyn seg with state := .synReceived, sndNxt := tcb.iss }, (by rintro ⟨⟩), rfl,
            scale, tcpOutput_speaks host _ now⟩
        · generalize sampled : Tcb.takeSample _ now = tcb'
          have state : tcb'.state = .established := by
            rw [← sampled, takeSample_state]
          have frame : tcb'.frame = (tcb.onSyn seg).frame := by
            rw [← sampled, (takeSample_quiet _ now).frame]
            rfl
          exact .inr ⟨tcb', by rw [state]; decide, congrArg Frame.listener frame,
            (congrArg Frame.rcvScale frame).trans_le scale, answer_speaks host tcb' now⟩

end EspDevkit.Net
