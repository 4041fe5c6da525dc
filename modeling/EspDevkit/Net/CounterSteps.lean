import EspDevkit.Net.TcbCounters

/-!
# What a step does to the counters

Every input keeps the bounds of the counters, those that are not paced but for
the two counters without a limit.
-/

namespace EspDevkit.Net

open SerialNumber

variable {Host : Type} [TcpHost Host]

theorem takeSample_kept (tcb : Tcb) (now : Instant) : tcb.Kept (tcb.takeSample now) := by
  rw [Tcb.takeSample]
  split
  · exact .refl _
  · exact ⟨.same rfl, rfl, rfl⟩

theorem dropAcked_kept (tcb : Tcb) (ack : Seq) : tcb.Kept (dropAcked tcb ack) := by
  rw [dropAcked]
  split
  · exact ⟨.same rfl, rfl, rfl⟩
  · exact .refl _

theorem recordAck_kept (tcb : Tcb) (ack : Seq) (now : Instant) :
    Tcb.Kept { tcb with retries := 0 } (recordAck tcb ack now) := by
  have sampled : ∀ rest : Tcb, tcb.Kept rest → tcb.Kept (sampleAck rest ack now) := by
    intro rest kept
    unfold sampleAck
    split
    · split
      · exact kept.trans (takeSample_kept rest now)
      · exact kept
    · exact kept
  have acked := sampled
    { dropAcked tcb ack with
      sndUna := ack
      sndNxt := if lt (dropAcked tcb ack).sndNxt ack then ack else (dropAcked tcb ack).sndNxt
      finSent := (dropAcked tcb ack).finSent || tcb.finSeq.any fun f => lt f ack }
    ((dropAcked_kept tcb ack).trans ⟨.same rfl, rfl, rfl⟩)
  exact ⟨⟨acked.unacked, rfl, acked.probes, acked.mss, acked.cwnd, acked.window, acked.ssthresh,
    acked.recover⟩, acked.state, acked.rcvNxt⟩

theorem updateWindow_kept (tcb : Tcb) (seg : Segment) : tcb.Kept (updateWindow tcb seg) := by
  rw [updateWindow]
  split
  · exact ⟨.same rfl, rfl, rfl⟩
  · exact .refl _

structure Tcb.Heard (before after : Tcb) : Prop where
  rcvNxt : after.rcvNxt = before.rcvNxt
  unacked : after.unackedSegments ≤ before.unackedSegments

theorem Tcb.Kept.heard {before after : Tcb} (kept : before.Kept after) : before.Heard after :=
  ⟨kept.rcvNxt, kept.unacked⟩

theorem Tcb.Heard.trans {before after last : Tcb} (first : before.Heard after)
    (second : after.Heard last) : before.Heard last :=
  ⟨second.rcvNxt.trans first.rcvNxt, Nat.le_trans second.unacked first.unacked⟩

theorem growWindow_heard (host : Host) (tcb : Tcb) (acked : ℕ) (ack : Seq) (now : Instant) :
    tcb.Heard (growWindow host tcb acked ack now).2 := by
  rw [growWindow]
  split
  · split
    · exact ⟨rfl, Nat.le_refl _⟩
    · have kept := retransmitFirst_kept host tcb now
      exact ⟨kept.rcvNxt, kept.unacked⟩
  · split
    · exact ⟨rfl, Nat.le_refl _⟩
    · exact ⟨rfl, Nat.le_refl _⟩

theorem finAcked_heard (tcb : Tcb) (now : Instant) : tcb.Heard (finAcked tcb now) := by
  rw [finAcked]
  split <;> exact ⟨rfl, Nat.le_refl _⟩

theorem tcpAcked_heard (host : Host) (tcb : Tcb) (ack : Seq) (now : Instant) :
    tcb.Heard (tcpAcked host tcb ack now).2 := by
  have recorded := recordAck_kept tcb ack now
  have grown := growWindow_heard host (recordAck tcb ack now) (ack - tcb.sndUna).toNat ack now
  have both : tcb.Heard (growWindow host (recordAck tcb ack now) (ack - tcb.sndUna).toNat ack
      now).2 :=
    Tcb.Heard.trans ⟨recorded.rcvNxt, recorded.unacked⟩ grown
  rw [tcpAcked]
  dsimp only
  split
  · exact both.trans (finAcked_heard _ now)
  · exact both

theorem duplicateAck_heard (host : Host) (tcb : Tcb) (now : Instant) :
    tcb.Heard (duplicateAck host tcb now).2 := by
  rw [duplicateAck]
  dsimp only
  split
  · have kept := retransmitFirst_kept host
      { tcb with
        dupacks := min (tcb.dupacks + 1) 255
        ssthresh := max (Tcb.inFlight { tcb with dupacks := min (tcb.dupacks + 1) 255 } / 2)
          (2 * tcb.sndMss)
        recover := some tcb.sndNxt } now
    exact ⟨kept.rcvNxt, kept.unacked⟩
  · split
    · exact ⟨rfl, Nat.le_refl _⟩
    · exact ⟨rfl, Nat.le_refl _⟩

theorem takeAck_heard (host : Host) (tcb : Tcb) (seg : Segment) (now : Instant) :
    tcb.Heard (takeAck host tcb seg now).2 := by
  have reset : tcb.Heard (if seg.window.toNat <<< tcb.sndScale = 0 then
      { tcb with retries := 0 } else tcb) := by
    split <;> exact ⟨rfl, Nat.le_refl _⟩
  rw [takeAck]
  dsimp only
  generalize (if seg.window.toNat <<< tcb.sndScale = 0 then
    { tcb with retries := 0 } else tcb) = rest at reset ⊢
  refine Tcb.Heard.trans ?_ (updateWindow_kept _ seg).heard
  split
  · exact reset.trans (tcpAcked_heard host rest seg.ack now)
  · split
    · exact reset.trans (duplicateAck_heard host rest now)
    · exact reset

theorem Tcb.inFlight_lt (tcb : Tcb) : tcb.inFlight < 2 ^ 32 := BitVec.isLt _

namespace Tcb.Counted

variable {tcb after : Tcb}

theorem synced_ne (synced : tcb.state.synchronized) :
    tcb.state ≠ .closed ∧ tcb.state ≠ .synSent ∧ tcb.state ≠ .synReceived := by
  refine ⟨?_, ?_, ?_⟩
  · intro closed
    rw [closed] at synced
    cases synced
  · intro sent
    rw [sent] at synced
    cases synced
  · intro received
    rw [received] at synced
    cases synced

theorem growWindow (counted : tcb.Counted) (synced : tcb.state.synchronized) (host : Host)
    (acked : ℕ) (ack : Seq) (now : Instant)
    (room : ¬ tcb.recover.any (le · ack) → tcb.cwnd + tcb.sndMss ≤ usizeMax) :
    (growWindow host tcb acked ack now).2.Counted := by
  obtain ⟨live, sent, -⟩ := synced_ne synced
  have window := counted.window sent live
  rw [Net.growWindow]
  split
  · rename_i recover recovers
    split
    · have mss := counted.recovery (by rw [recovers]; rfl)
      exact
        { counted with
          cwnd := counted.ssthresh
          window := fun _ _ => mss
          recovery := nofun
          handshake := fun _ => rfl }
    · rename_i partly
      have room := room (by simpa [recovers] using partly)
      have kept := retransmitFirst_kept host tcb now
      have counted := counted.of_kept kept fun closed => absurd (kept.state.symm.trans closed) live
      have cwnd := kept.cwnd
      have mss := kept.mss
      exact counted.withCwnd (by omega) (by omega)
  · rename_i recovers
    have room := room (by simp [recovers])
    split
    · exact counted.withCwnd (by omega) (by omega)
    · have share : tcb.sndMss * tcb.sndMss / max tcb.cwnd 1 ≤ tcb.sndMss :=
        Nat.div_le_of_le_mul (Nat.mul_le_mul_right _ (by omega))
      have pos := counted.mss_pos
      exact counted.withCwnd (by omega) (by omega)

theorem finAcked (counted : tcb.Counted) (synced : tcb.state.synchronized) (now : Instant) :
    (finAcked tcb now).Counted := by
  obtain ⟨live, sent, -⟩ := synced_ne synced
  rw [Net.finAcked]
  split
  · exact counted.of_steady (.same rfl) nofun (absurd · live) (absurd · sent) (by simp)
  · exact counted.of_steady (.same rfl) nofun (absurd · live) (absurd · sent) (by simp)
  · exact counted.closeWith none
  · exact counted

theorem growWindow_state (host : Host) (tcb : Tcb) (acked : ℕ) (ack : Seq) (now : Instant) :
    (Net.growWindow host tcb acked ack now).2.state = tcb.state := by
  rw [Net.growWindow]
  split
  · split
    · rfl
    · exact (retransmitFirst_kept host tcb now).state
  · split <;> rfl

theorem tcpAcked (counted : tcb.Counted) (synced : tcb.state.synchronized) (host : Host)
    (ack : Seq) (now : Instant)
    (room : ¬ tcb.recover.any (le · ack) → tcb.cwnd + tcb.sndMss ≤ usizeMax) :
    (tcpAcked host tcb ack now).2.Counted := by
  have kept := recordAck_kept tcb ack now
  have state : (recordAck tcb ack now).state = tcb.state := kept.state
  have recorded : (recordAck tcb ack now).Counted :=
    counted.noRetries.of_kept kept fun closed =>
      absurd (state.symm.trans closed) (synced_ne synced).1
  have grown := recorded.growWindow (state.symm ▸ synced) host (ack - tcb.sndUna).toNat ack now
    (by
      intro grows
      rw [kept.recover] at grows
      have cwnd : (recordAck tcb ack now).cwnd ≤ tcb.cwnd := kept.cwnd
      have mss : (recordAck tcb ack now).sndMss = tcb.sndMss := kept.mss
      have room := room grows
      omega)
  rw [Net.tcpAcked]
  dsimp only
  split
  · refine grown.finAcked ?_ now
    rw [growWindow_state, state]
    exact synced
  · exact grown

theorem duplicateAck (counted : tcb.Counted) (synced : tcb.state.synchronized) (host : Host)
    (now : Instant) (room : tcb.recover.isSome → tcb.cwnd + tcb.sndMss ≤ usizeMax) :
    (duplicateAck host tcb now).2.Counted := by
  obtain ⟨live, sent, received⟩ := synced_ne synced
  have mss := counted.mss_le
  rw [Net.duplicateAck]
  dsimp only
  split
  · have flight := inFlight_lt { tcb with dupacks := min (tcb.dupacks + 1) 255 }
    generalize inFlight { tcb with dupacks := min (tcb.dupacks + 1) 255 } = flying at flight ⊢
    have started : Counted
        { tcb with
          dupacks := min (tcb.dupacks + 1) 255
          ssthresh := max (flying / 2) (2 * tcb.sndMss)
          recover := some tcb.sndNxt } :=
      { counted with
        ssthresh := by
          simp only [usizeMax, u16Max] at mss ⊢
          omega
        recovery := fun _ => by
          show tcb.sndMss ≤ max (flying / 2) (2 * tcb.sndMss)
          omega
        handshake := fun early => absurd early (by simp [sent, received]) }
    have kept := retransmitFirst_kept host
      { tcb with
        dupacks := min (tcb.dupacks + 1) 255
        ssthresh := max (flying / 2) (2 * tcb.sndMss)
        recover := some tcb.sndNxt } now
    have counted := started.of_kept kept fun closed =>
      absurd (kept.state.symm.trans closed) live
    have sameMss := kept.mss
    have ssthresh := kept.ssthresh
    dsimp only at sameMss ssthresh
    refine counted.withCwnd ?_ (by omega)
    rw [ssthresh, sameMss]
    simp only [usizeMax, u16Max] at mss ⊢
    omega
  · split
    · rename_i more
      have room := room more.2
      exact { counted with
        cwnd := room
        window := fun _ _ => Nat.le_add_left _ _ }
    · exact counted.of_kept ⟨.same rfl, rfl, rfl⟩ counted.closed

theorem updateWindow (counted : tcb.Counted) (seg : Segment) :
    (updateWindow tcb seg).Counted := by
  rw [Net.updateWindow]
  split
  · exact { counted with }
  · exact counted

theorem takeAck (counted : tcb.Counted) (synced : tcb.state.synchronized) (host : Host)
    (seg : Segment) (now : Instant)
    (room : tcb.opensWindow seg → tcb.cwnd + tcb.sndMss ≤ usizeMax) :
    (takeAck host tcb seg now).2.Counted := by
  have acked : ∀ rest : Tcb, rest.Counted → rest.state = tcb.state →
      (rest.opensWindow seg → rest.cwnd + rest.sndMss ≤ usizeMax) →
      (if lt rest.sndUna seg.ack then Net.tcpAcked host rest seg.ack now
        else if repeatsAck rest seg (seg.window.toNat <<< rest.sndScale) then
          Net.duplicateAck host rest now
        else (host, rest)).2.Counted := by
    intro rest counted state room
    have synced : rest.state.synchronized := state ▸ synced
    split
    · rename_i new
      refine counted.tcpAcked synced host seg.ack now fun grows => room ?_
      simp only [Bool.not_eq_true] at grows
      simp [opensWindow, new, grows]
    · split
      · rename_i again
        refine counted.duplicateAck synced host now fun recovers => room ?_
        simp [opensWindow, again, recovers]
      · exact counted
  have counted : (if seg.window.toNat <<< tcb.sndScale = 0 then { tcb with retries := 0 }
      else tcb).Counted := by
    split
    · exact counted.noRetries
    · exact counted
  rw [Net.takeAck]
  dsimp only
  by_cases shut : seg.window.toNat <<< tcb.sndScale = 0
  · rw [if_pos shut] at counted ⊢
    exact (acked _ counted rfl room).updateWindow seg
  · rw [if_neg shut] at counted ⊢
    exact (acked _ counted rfl room).updateWindow seg

theorem scheduleAck (counted : tcb.Counted) (atOnce : Bool) (now : Instant)
    (room : atOnce = false → tcb.unackedSegments < u8Max) :
    (scheduleAck tcb atOnce now).Counted := by
  rw [Net.scheduleAck]
  split
  · exact { counted with }
  · rename_i later
    have counts : Counted { tcb with unackedSegments := tcb.unackedSegments + 1 } :=
      { counted with unacked := room (by simpa using later) }
    dsimp only
    split
    · exact { counts with }
    · exact { counts with }

theorem tcpData (counted : tcb.Counted) (fits : ℕ → Bool) (seg : Segment) (now : Instant)
    (room : tcb.bringsData seg → tcb.unackedSegments < u8Max) :
    (tcpData fits tcb seg now).Counted := by
  rw [Net.tcpData]
  dsimp only
  split
  · exact { counted with }
  · rename_i newer
    have room : ∀ n count : ℕ, (decide (0 < (seg.seq - tcb.rcvNxt).toInt) || decide (n = 0) ||
        decide (0 < count)) = false → tcb.unackedSegments < u8Max := by
      intro n count next
      simp only [Bool.or_eq_false_iff, decide_eq_false_iff_not, not_lt] at next
      refine room ?_
      simp only [bringsData, Bool.and_eq_true, decide_eq_true_eq]
      exact ⟨next.1.1, Nat.lt_of_not_le newer⟩
    split
    · split
      · split
        · refine scheduleAck ?_ _ now (room _ _)
          exact { counted with }
        · refine scheduleAck ?_ _ now (room _ _)
          exact { counted with }
      · split
        · refine scheduleAck ?_ _ now (room _ _)
          exact { counted with }
        · refine scheduleAck ?_ _ now (room _ _)
          exact { counted with }
    · split
      · refine scheduleAck ?_ _ now (room _ _)
        exact { counted with }
      · refine scheduleAck ?_ _ now (room _ _)
        exact { counted with }

theorem tcpFin (counted : tcb.Counted) (seg : Segment) : (tcpFin tcb seg).Counted := by
  have ends : ∀ state : State, (state = .closed → tcb.state = .closed) →
      (tcb.state = .closed → state = .closed) → (tcb.state = .synSent → state = .synSent) →
      (state = .synSent ∨ state = .synReceived → tcb.state = .synSent ∨ tcb.state = .synReceived) →
      Counted { tcb with rcvNxt := tcb.rcvNxt + 1, finReceived := true, ackNow := true, state } :=
    fun state closed reopens opens early => counted.of_steady (.same rfl)
      (fun now => counted.closed (closed now)) reopens (fun sent => .inl (opens sent))
      fun now => counted.handshake (early now)
  rw [Net.tcpFin]
  split
  · dsimp only
    cases state : tcb.state with
    | established => exact ends .closeWait (by simp) (by simp [state]) (by simp [state]) (by simp)
    | finWait1 =>
      dsimp only
      split
      · exact ends .timeWait (by simp) (by simp [state]) (by simp [state]) (by simp)
      · exact ends .closing (by simp) (by simp [state]) (by simp [state]) (by simp)
    | finWait2 => exact ends .timeWait (by simp) (by simp [state]) (by simp [state]) (by simp)
    | synSent => exact ends .synSent (by simp) (by simp [state]) (by simp) (by simp [state])
    | synReceived =>
      exact ends .synReceived (by simp) (by simp [state]) (by simp [state]) (by simp [state])
    | closeWait => exact ends .closeWait (by simp) (by simp [state]) (by simp [state]) (by simp)
    | closing => exact ends .closing (by simp) (by simp [state]) (by simp [state]) (by simp)
    | lastAck => exact ends .lastAck (by simp) (by simp [state]) (by simp [state]) (by simp)
    | timeWait => exact ends .timeWait (by simp) (by simp [state]) (by simp [state]) (by simp)
    | closed => exact ends .closed (by simp [state]) (by simp) (by simp [state]) (by simp)
  · exact counted

theorem takeData (counted : tcb.Counted) (fits : ℕ → Bool) (seg : Segment) (now : Instant)
    (room : tcb.bringsData seg → tcb.unackedSegments < u8Max) :
    (takeData fits tcb seg now).Counted := by
  have taken : (if !seg.data.isEmpty && tcb.state.takesData then Net.tcpData fits tcb seg now
      else tcb).Counted := by
    split
    · exact counted.tcpData fits seg now room
    · exact counted
  rw [Net.takeData]
  generalize (if !seg.data.isEmpty && tcb.state.takesData then Net.tcpData fits tcb seg now
    else tcb) = rest at taken ⊢
  have ended := taken.tcpFin seg
  split
  · exact { ended with closed := fun _ => rfl }
  · exact ended

theorem tcpSegment (counted : tcb.Counted) (synced : tcb.state.synchronized) (host : Host)
    (seg : Segment) (now : Instant)
    (data : tcb.bringsData seg → tcb.unackedSegments < u8Max)
    (window : tcb.opensWindow seg → tcb.cwnd + tcb.sndMss ≤ usizeMax) :
    (tcpSegment host tcb seg now).2.Counted ∧
      ∀ counter ∈ segmentCounters host tcb seg now, counter.Fits := by
  have acked := counted.takeAck synced host seg now window
  have heard := takeAck_heard host tcb seg now
  have stored := acked.takeData (TcpHost.fits (Net.takeAck host tcb seg now).1) seg now (by
    intro brings
    refine Nat.lt_of_le_of_lt heard.unacked (data ?_)
    rw [bringsData, heard.rcvNxt] at brings
    exact brings)
  rw [Net.tcpSegment, segmentCounters]
  split
  · exact ⟨counted.answer host now, nofun⟩
  · refine ⟨stored.tcpOutput _ now, ?_⟩
    simp only [List.forall_mem_cons]
    exact ⟨acked.cwnd, stored.unacked, nofun⟩

theorem lt_self (a : Seq) : lt a a = false := by
  rw [Bool.eq_false_iff]
  intro less
  have half := (lt_iff_half_le a a).mp less
  rw [ahead_self] at half
  omega

theorem takeSample_sndUna (tcb : Tcb) (now : Instant) :
    (tcb.takeSample now).sndUna = tcb.sndUna := by
  rw [takeSample]
  split <;> rfl

theorem establish (counted : tcb.Counted) (received : tcb.state = .synReceived) (host : Host)
    (id : ℕ) (seg : Segment) (now : Instant) :
    (establish host id tcb seg now).2.Counted ∧
      (establish host id tcb seg now).2.state = .established ∧
      tcb.Heard (establish host id tcb seg now).2 ∧
      (establish host id tcb seg now).2.opensWindow seg = false := by
  have recover := counted.handshake (.inr received)
  have window := counted.window (by simp [received]) (by simp [received])
  have opened : Counted
      { tcb with
        state := .established
        sndUna := seg.ack
        sndWnd := seg.window.toNat <<< tcb.sndScale
        maxWindow := max tcb.maxWindow (seg.window.toNat <<< tcb.sndScale)
        sndWl1 := seg.seq
        sndWl2 := seg.ack
        retransmitAt := none
        retries := 0 } :=
    { counted with
      retries := .inl (Nat.zero_le _)
      closed := nofun
      window := fun _ _ => window
      handshake := fun _ => recover }
  have kept := takeSample_kept
    { tcb with
      state := .established
      sndUna := seg.ack
      sndWnd := seg.window.toNat <<< tcb.sndScale
      maxWindow := max tcb.maxWindow (seg.window.toNat <<< tcb.sndScale)
      sndWl1 := seg.seq
      sndWl2 := seg.ack
      retransmitAt := none
      retries := 0 } now
  have sndUna := takeSample_sndUna
    { tcb with
      state := .established
      sndUna := seg.ack
      sndWnd := seg.window.toNat <<< tcb.sndScale
      maxWindow := max tcb.maxWindow (seg.window.toNat <<< tcb.sndScale)
      sndWl1 := seg.seq
      sndWl2 := seg.ack
      retransmitAt := none
      retries := 0 } now
  have sampled := opened.of_kept kept fun closed => nomatch kept.state.symm.trans closed
  have stays := kept.recover.trans recover
  rw [Net.establish]
  generalize takeSample _ now = after at *
  have shut : after.opensWindow seg = false := by
    simp [opensWindow, sndUna, stays, lt_self]
  split
  · exact ⟨sampled, kept.state, ⟨kept.rcvNxt, kept.unacked⟩, shut⟩
  · exact ⟨sampled, kept.state, ⟨kept.rcvNxt, kept.unacked⟩, shut⟩

theorem tcpReset (counted : tcb.Counted) : (tcpReset tcb).Counted := by
  rw [Net.tcpReset]
  split
  · have released : Counted { tcb with released := tcb.released || tcb.listener.isSome } :=
      { counted with }
    exact released.closeWith none
  · exact counted.closeWith _
  · exact counted.closeWith _
  · exact counted.closeWith _
  · exact counted.closeWith _
  · exact counted.closeWith _

theorem onSyn_window (tcb : Tcb) (seg : Segment) :
    (tcb.onSyn seg).sndMss ≤ (tcb.onSyn seg).cwnd :=
  mss_le_initialWindow _

theorem onSyn (counted : tcb.Counted) (calm : tcb.recover = none) (seg : Segment) :
    (tcb.onSyn seg).Counted := by
  have mss : (tcb.onSyn seg).sndMss ≤ u16Max := by
    have offered : seg.mss.elim defaultMss BitVec.toNat ≤ u16Max := by
      cases seg.mss with
      | none => decide
      | some mss => exact Nat.le_pred_of_lt mss.isLt
    simp only [Tcb.onSyn, u16Max] at offered ⊢
    omega
  have cwnd : (tcb.onSyn seg).cwnd ≤ 4 * (tcb.onSyn seg).sndMss := Nat.min_le_left _ _
  exact
    { counted with
      mss_pos := Nat.lt_of_lt_of_le (by decide) (Nat.le_max_left 64 _)
      mss_le := mss
      cwnd := by
        simp only [u16Max, usizeMax] at mss ⊢
        omega
      window := fun _ _ => onSyn_window tcb seg
      recovery := fun recovers => by
        rw [show (tcb.onSyn seg).recover = none from calm] at recovers
        cases recovers }

theorem tcpSynSent (counted : tcb.Counted) (sent : tcb.state = .synSent) (host : Host)
    (seg : Segment) (now : Instant) : (tcpSynSent host tcb seg now).2.Counted := by
  have recover := counted.handshake (.inl sent)
  have retries : tcb.retries ≤ maxRetries :=
    counted.retries.resolve_right fun gone => by simp [sent] at gone
  have opened := counted.onSyn recover seg
  have window := onSyn_window tcb seg
  rw [Net.tcpSynSent]
  dsimp only
  split
  · split
    · exact counted
    · exact counted
  · split
    · dsimp only
      split
      · exact counted.closeWith _
      · exact counted
    · split
      · exact counted
      · split
        · refine Counted.tcpOutput ?_ host now
          exact
            { opened with
              retries := .inl retries
              closed := nofun
              window := fun _ _ => window
              handshake := fun _ => recover }
        · have established : Counted
              { tcb.onSyn seg with
                sndUna := seg.ack
                state := .established
                retransmitAt := none
                retries := 0 } :=
            { opened with
              retries := .inl (Nat.zero_le _)
              closed := nofun
              window := fun _ _ => window
              handshake := fun _ => recover }
          have kept := takeSample_kept
            { tcb.onSyn seg with
              sndUna := seg.ack
              state := .established
              retransmitAt := none
              retries := 0 } now
          exact (established.of_kept kept
            fun closed => nomatch kept.state.symm.trans closed).answer host now

theorem tcpReceive (counted : tcb.Counted) (live : tcb.state ≠ .closed) (host : Host) (id : ℕ)
    (seg : Segment) (now : Instant) (paced : tcb.Paced (.segment seg)) :
    (tcpReceive host id tcb seg now).2.Counted ∧
      ∀ counter ∈ receiveCounters host id tcb seg now, counter.Fits := by
  obtain ⟨data, window⟩ := paced
  rw [Net.tcpReceive, receiveCounters]
  dsimp only
  generalize trimSyn tcb seg = seg at *
  by_cases sent : tcb.state = .synSent
  · refine ⟨?_, ?_⟩
    · rw [if_pos sent]
      exact counted.tcpSynSent sent host _ now
    · rw [if_pos (.inl sent)]
      exact nofun
  rw [if_neg sent]
  by_cases outside : ¬ acceptable tcb seg
  · refine ⟨?_, ?_⟩
    · rw [if_pos outside]
      split
      · exact counted
      · exact counted.answer host now
    · rw [if_pos (.inr (.inl outside))]
      exact nofun
  rw [if_neg outside]
  by_cases reset : seg.flags.rst
  · refine ⟨?_, ?_⟩
    · rw [if_pos reset]
      split
      · exact counted.answer host now
      · exact counted.tcpReset
    · rw [if_pos (.inr (.inr (.inl reset)))]
      exact nofun
  rw [if_neg reset]
  by_cases syn : seg.flags.syn
  · refine ⟨?_, ?_⟩
    · rw [if_pos syn]
      exact counted.answer host now
    · rw [if_pos (.inr (.inr (.inr (.inl syn))))]
      exact nofun
  rw [if_neg syn]
  by_cases silent : ¬ seg.flags.ack
  · refine ⟨?_, ?_⟩
    · rw [if_pos silent]
      exact counted
    · rw [if_pos (.inr (.inr (.inr (.inr silent))))]
      exact nofun
  have taken : ¬ (tcb.state = .synSent ∨ ¬ acceptable tcb seg ∨ seg.flags.rst ∨ seg.flags.syn ∨
      ¬ seg.flags.ack) := by
    rintro (now | now | now | now | now)
    · exact sent now
    · exact outside now
    · exact reset now
    · exact syn now
    · exact silent now
  rw [if_neg silent, if_neg taken, tcpAcceptable]
  by_cases received : tcb.state = .synReceived
  · rw [if_pos received, if_pos received]
    split
    · exact ⟨counted, nofun⟩
    · obtain ⟨opened, state, heard, shut⟩ := counted.establish received host id seg now
      refine opened.tcpSegment (by rw [state]; rfl) _ seg now (fun brings => ?_) fun opens => ?_
      · refine Nat.lt_of_le_of_lt heard.unacked (data ?_)
        rw [bringsData, heard.rcvNxt] at brings
        exact brings
      · rw [shut] at opens
        cases opens
  · rw [if_neg received, if_neg received]
    refine counted.tcpSegment ?_ host seg now data window
    cases state : tcb.state with
    | synSent => exact absurd state sent
    | synReceived => exact absurd state received
    | closed => exact absurd state live
    | _ => rfl

theorem tcpProcess (counted : tcb.Counted) (live : tcb.state ≠ .closed) (host : Host) (id : ℕ)
    (seg : Segment) (now : Instant) (paced : tcb.Paced (.segment seg)) :
    (tcpProcess host id tcb seg now).2.Counted ∧
      ∀ counter ∈ processCounters host id tcb seg now, counter.Fits := by
  have heard : Counted { tcb with heard := now, keepaliveProbes := 0 } :=
    { counted with probes := Nat.zero_le _ }
  exact heard.tcpReceive live host id seg now paced

theorem retransmitTimeout (counted : tcb.Counted) (live : tcb.state ≠ .closed)
    (more : retriesExhausted tcb = false) (now : Instant) :
    (retransmitTimeout tcb now).Counted := by
  have limit : (if tcb.state.synchronized then maxRetries else maxSynRetries) ≤ maxRetries := by
    split <;> decide
  have retries : tcb.retries + 1 ≤ maxRetries := by
    rw [retriesExhausted, decide_eq_false_iff_not] at more
    omega
  have flight := tcb.inFlight_lt
  have mss := counted.mss_le
  exact
    { counted with
      retries := .inl retries
      closed := fun closed => absurd closed live
      cwnd := by
        simp only [Net.retransmitTimeout, u16Max, usizeMax] at mss ⊢
        omega
      ssthresh := by
        simp only [Net.retransmitTimeout, u16Max, usizeMax] at mss ⊢
        omega
      window := fun _ _ => Nat.le_refl _
      recovery := nofun
      handshake := fun _ => rfl }

theorem giveUp (counted : tcb.Counted) (live : tcb.state ≠ .closed) : (giveUp tcb).Counted := by
  have retries := counted.retries.resolve_right fun gone => live gone.1
  exact
    { counted with
      retries := .inr ⟨rfl, Nat.succ_le_succ retries⟩
      closed := fun _ => rfl
      window := fun _ gone => absurd rfl gone
      handshake := by
        rintro (sent | received)
        · cases sent
        · cases received }

theorem ackAndPersistTimers (counted : tcb.Counted) (now : Instant) :
    (ackAndPersistTimers tcb now).Counted := by
  rw [Net.ackAndPersistTimers]
  split
  · split
    · exact { counted with }
    · exact { counted with }
  · split
    · exact { counted with }
    · exact counted

theorem sendTcp (counted : tcb.Counted) (live : tcb.state ≠ .closed) (host : Host) (seq : Seq)
    (flags : Flags) (offset len : ℕ) (now : Instant) :
    (sendTcp host tcb seq flags offset len now).2.1.Counted := by
  have kept := sendTcp_kept host tcb seq flags offset len now
  exact counted.of_kept kept fun closed => absurd (kept.state.symm.trans closed) live

/-- Only an open connection is probed. -/
theorem live_of_due_keepaliveAt {now : Instant} (fires : due tcb.keepaliveAt now) :
    tcb.state ≠ .closed := by
  intro closed
  cases idle : tcb.keepalive with
  | none => simp [due, keepaliveAt, idle] at fires
  | some idle' => simp [due, keepaliveAt, idle, closed] at fires

theorem keepaliveTimer (counted : tcb.Counted) (host : Host) (now : Instant) :
    (keepaliveTimer host tcb now).2.Counted := by
  rw [Net.keepaliveTimer]
  split
  · rename_i fires
    have live := live_of_due_keepaliveAt fires
    split
    · exact counted.closeWith _
    · rename_i more
      have probed : Counted { tcb with keepaliveProbes := tcb.keepaliveProbes + 1 } :=
        { counted with probes := Nat.lt_of_not_le more }
      exact (probed.sendTcp live host (tcb.sndUna - 1) { ack := true } 0 0 now).tcpOutput _ now
  · exact counted.tcpOutput host now

theorem tcpTimers (counted : tcb.Counted) (host : Host) (now : Instant) :
    (tcpTimers host tcb now).2.Counted := by
  rw [Net.tcpTimers]
  split
  · exact counted.closeWith none
  · split
    · rename_i fires
      have live : tcb.state ≠ .closed := by
        intro closed
        rw [counted.closed closed] at fires
        cases fires
      split
      · exact counted.giveUp live
      · rename_i more
        have again := counted.retransmitTimeout live (by simpa using more) now
        exact (again.ackAndPersistTimers now).keepaliveTimer host now
    · exact (counted.ackAndPersistTimers now).keepaliveTimer host now

theorem fits (counted : tcb.Counted) : ∀ counter ∈ tcb.counters, counter.Fits := by
  have retries : tcb.retries ≤ u8Max := by
    rcases counted.retries with few | ⟨-, last⟩
    · exact Nat.le_trans few (by decide)
    · exact Nat.le_trans last (by decide)
  have probes : tcb.keepaliveProbes ≤ u8Max := Nat.le_trans counted.probes (by decide)
  simp only [counters, List.forall_mem_cons]
  exact ⟨counted.unacked, retries, probes, counted.cwnd, nofun⟩

theorem timers_fit (counted : tcb.Counted) (host : Host) (now : Instant) :
    ∀ counter ∈ timerCounters host tcb now, counter.Fits := by
  have after := (counted.tcpTimers host now).fits
  simp only [counters, List.forall_mem_cons] at after
  rw [timerCounters]
  simp only [List.forall_mem_cons]
  exact ⟨after.2.1, after.2.2.1, nofun⟩

theorem tcpRead (counted : tcb.Counted) (host : Host) (room : ℕ) (now : Instant) :
    (tcpRead host tcb room now).2.1.Counted := by
  have taken : Counted { tcb with rx := (tcb.rx.pop (min room tcb.rx.len) room).1 } :=
    { counted with }
  rw [Net.tcpRead]
  dsimp only
  split
  · split
    · split
      · exact taken.answer _ now
      · exact taken
    · exact taken
  · split
    · exact counted
    · split
      · exact counted
      · exact counted

theorem tcpWrite (counted : tcb.Counted) (host : Host) (data : List UInt8) (now : Instant) :
    (tcpWrite host tcb data now).2.1.Counted := by
  have pushed : Counted { tcb with tx := (tcb.tx.push (TcpHost.fits host) data).1 } :=
    { counted with }
  rw [Net.tcpWrite]
  split
  · exact counted
  · split
    · exact counted
    · dsimp only
      split
      · exact pushed
      · exact pushed.tcpOutput host now

theorem tcpShutdown (counted : tcb.Counted) (host : Host) (now : Instant) :
    (tcpShutdown host tcb now).2.Counted := by
  have finishes : tcb.state = .synReceived ∨ tcb.state = .established →
      Counted { tcb with state := .finWait1, finQueued := true } := by
    intro live
    exact counted.of_steady (.same rfl) nofun (fun closed => by simp [closed] at live)
      (fun sent => by simp [sent] at live) (by simp)
  rw [Net.tcpShutdown]
  split
  · exact counted
  · split
    · exact counted.closeWith none
    · rename_i received
      exact (finishes (.inl received)).tcpOutput host now
    · rename_i established
      exact (finishes (.inr established)).tcpOutput host now
    · rename_i waits
      have last : Counted { tcb with state := .lastAck, finQueued := true } :=
        counted.of_steady (.same rfl) nofun (fun closed => by simp [closed] at waits)
          (fun sent => by simp [sent] at waits) (by simp)
      exact last.tcpOutput host now
    · exact counted

theorem tcpAbort (counted : tcb.Counted) (host : Host) (now : Instant) :
    (tcpAbort host tcb now).2.Counted := by
  rw [Net.tcpAbort]
  dsimp only
  split
  · rename_i open'
    have live : tcb.state ≠ .closed := by
      intro closed
      simp [closed, State.synchronized] at open'
    exact (counted.sendTcp live host tcb.sndNxt { rst := true, ack := true } 0 0 now).closeWith none
  · exact counted.closeWith none

theorem tcpRelease (counted : tcb.Counted) (host : Host) (now : Instant) :
    (tcpRelease host tcb now).2.Counted := by
  have released : Counted { tcb with released := true } := { counted with }
  have shut := released.tcpShutdown host now
  rw [Net.tcpRelease]
  dsimp only
  split
  · exact released.tcpAbort host now
  · split
    · exact { shut with }
    · exact shut

theorem tcpIcmpError (counted : tcb.Counted) (seq : Seq) (reported : Reported) :
    (tcpIcmpError tcb seq reported).Counted := by
  rw [Net.tcpIcmpError]
  split
  · exact counted
  · split
    · exact counted.closeWith _
    · exact { counted with }

theorem tcpLinkReady (counted : tcb.Counted) (host : Host) (now : Instant) :
    (tcpLinkReady host tcb now).2.Counted := by
  rw [Net.tcpLinkReady]
  split
  · exact counted.tcpOutput host now
  · exact counted

theorem tcpPollOne (counted : tcb.Counted) (host : Host) (now : Instant) :
    (tcpPollOne host tcb now).2.Counted := by
  rw [Net.tcpPollOne]
  split
  · exact counted.tcpTimers host now
  · exact counted

theorem dropBuffers (counted : tcb.Counted) : (dropBuffers tcb).Counted := by
  rw [Net.dropBuffers]
  split
  · exact { counted with }
  · exact counted

theorem act (counted : tcb.Counted) (host : Host) (id : ℕ) (now : Instant) (input : Input)
    (possible : input.possible tcb) (paced : tcb.Paced input) :
    (input.act host id tcb now).2.1.Counted := by
  cases input with
  | segment seg =>
    have live : tcb.state ≠ .closed := by simpa [Input.possible] using possible
    exact (counted.tcpProcess live host id seg now paced).1
  | read room => exact counted.tcpRead host room now
  | write data => exact counted.tcpWrite host data now
  | shutdown => exact counted.tcpShutdown host now
  | release => exact counted.tcpRelease host now
  | accept => exact { counted with }
  | unlisten =>
    have released : Counted { tcb with released := true, listener := none } :=
      { counted with }
    exact released.tcpAbort host now
  | setNodelay nodelay => exact { counted with }
  | setKeepalive idle => exact { counted with probes := Nat.zero_le _ }
  | icmpError seq reported => exact counted.tcpIcmpError seq reported
  | linkReady => exact counted.tcpLinkReady host now
  | poll => exact counted.tcpPollOne host now

theorem counters_fit (counted : tcb.Counted) (host : Host) (id : ℕ) (now : Instant)
    (input : Input) (possible : input.possible tcb) (paced : tcb.Paced input) :
    ∀ counter ∈ input.counters host id tcb now, counter.Fits := by
  cases input with
  | segment seg =>
    have live : tcb.state ≠ .closed := by simpa [Input.possible] using possible
    exact (counted.tcpProcess live host id seg now paced).2
  | poll =>
    rw [Input.counters]
    split
    · exact counted.timers_fit host now
    · exact nofun
  | _ => exact nofun

theorem step (counted : tcb.Counted) (host : Host) (id : ℕ) (now : Instant) (input : Input)
    (possible : input.possible tcb) (paced : tcb.Paced input) :
    (tcb.step host id now input).2.1.Counted := by
  have acted := counted.act host id now input possible paced
  rw [Tcb.step]
  dsimp only
  split
  · exact acted.dropBuffers
  · exact acted

end Tcb.Counted

end EspDevkit.Net
