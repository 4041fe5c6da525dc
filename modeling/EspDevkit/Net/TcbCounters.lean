import EspDevkit.Net.TcpCalls

/-!
# Counters of a connection

The counters that a connection adds to, each with the largest value of the type
that holds it on a device, and what bounds them.  Retries and keepalive probes
have limits of their own.
-/

namespace EspDevkit.Net

open SerialNumber

variable {Host : Type} [TcpHost Host]

def u8Max : ℕ := 2 ^ 8 - 1
def u16Max : ℕ := 2 ^ 16 - 1

structure Counter where
  value : ℕ
  max : ℕ
  deriving DecidableEq, Repr

def Counter.Fits (counter : Counter) : Prop := counter.value ≤ counter.max

instance (counter : Counter) : Decidable counter.Fits :=
  inferInstanceAs (Decidable (counter.value ≤ counter.max))

/-- What an acceptable segment adds to: the congestion window as `tcp_acked` or
a repeated acknowledgment leaves it, and the segments that `tcp_data` counts. -/
def segmentCounters (host : Host) (tcb : Tcb) (seg : Segment) (now : Instant) : List Counter :=
  if ackOutOfRange tcb seg then []
  else
    let (host, acked) := takeAck host tcb seg now
    let stored := takeData (TcpHost.fits host) acked seg now
    [⟨acked.cwnd, usizeMax⟩, ⟨stored.unackedSegments, u8Max⟩]

/-- What `tcp_process` adds to once it has noted that the peer was heard. -/
def receiveCounters (host : Host) (id : ℕ) (tcb : Tcb) (seg : Segment) (now : Instant) :
    List Counter :=
  let seg := trimSyn tcb seg
  if tcb.state = .synSent ∨ ¬ acceptable tcb seg ∨ seg.flags.rst ∨ seg.flags.syn ∨
      ¬ seg.flags.ack then
    []
  else if tcb.state = .synReceived then
    if ¬ acksSyn tcb seg then []
    else
      let (host, tcb) := establish host id tcb seg now
      segmentCounters host tcb seg now
  else segmentCounters host tcb seg now

def processCounters (host : Host) (id : ℕ) (tcb : Tcb) (seg : Segment) (now : Instant) :
    List Counter :=
  receiveCounters host id { tcb with heard := now, keepaliveProbes := 0 } seg now

/-- What `tcp_timers` adds to. -/
def timerCounters (host : Host) (tcb : Tcb) (now : Instant) : List Counter :=
  let after := (tcpTimers host tcb now).2
  [⟨after.retries, u8Max⟩, ⟨after.keepaliveProbes, u8Max⟩]

def Input.counters (host : Host) (id : ℕ) (tcb : Tcb) (now : Instant) : Input → List Counter
  | .segment seg => processCounters host id tcb seg now
  | .poll => if due tcb.deadline now then timerCounters host tcb now else []
  | _ => []

namespace Tcb

def counters (tcb : Tcb) : List Counter :=
  [⟨tcb.unackedSegments, u8Max⟩, ⟨tcb.retries, u8Max⟩, ⟨tcb.keepaliveProbes, u8Max⟩,
    ⟨tcb.cwnd, usizeMax⟩]

def bringsData (tcb : Tcb) (seg : Segment) : Bool :=
  let offset := (seg.seq - tcb.rcvNxt).toInt
  decide (offset ≤ 0) && decide ((-offset).toNat < seg.data.length)

/-- Whether the acknowledgment of the segment makes the congestion window
larger: it is new and does not end a recovery, or repeats the last in one. -/
def opensWindow (tcb : Tcb) (seg : Segment) : Bool :=
  (lt tcb.sndUna seg.ack && !tcb.recover.any (le · seg.ack)) ||
    (repeatsAck tcb seg (seg.window.toNat <<< tcb.sndScale) && tcb.recover.isSome)

/-- The inputs that leave room in the two counters without a limit: data in
order comes while fewer than 255 segments wait for their ACK, acknowledgments
that open the congestion window while it has room for one segment more. -/
def Paced (tcb : Tcb) : Input → Prop
  | .segment seg =>
    (tcb.bringsData (trimSyn tcb seg) → tcb.unackedSegments < u8Max) ∧
      (tcb.opensWindow (trimSyn tcb seg) → tcb.cwnd + tcb.sndMss ≤ usizeMax)
  | _ => True

structure Counted (tcb : Tcb) : Prop where
  unacked : tcb.unackedSegments ≤ u8Max
  retries : tcb.retries ≤ maxRetries ∨ tcb.state = .closed ∧ tcb.retries ≤ maxRetries + 1
  closed : tcb.state = .closed → tcb.retransmitAt = none
  probes : tcb.keepaliveProbes ≤ maxKeepaliveProbes
  mss_pos : 0 < tcb.sndMss
  mss_le : tcb.sndMss ≤ u16Max
  cwnd : tcb.cwnd ≤ usizeMax
  ssthresh : tcb.ssthresh ≤ usizeMax
  window : tcb.state ≠ .synSent → tcb.state ≠ .closed → tcb.sndMss ≤ tcb.cwnd
  recovery : tcb.recover.isSome → tcb.sndMss ≤ tcb.ssthresh
  handshake : tcb.state = .synSent ∨ tcb.state = .synReceived → tcb.recover = none

def tally (tcb : Tcb) : List ℕ × Option Seq :=
  ([tcb.unackedSegments, tcb.retries, tcb.keepaliveProbes, tcb.sndMss, tcb.cwnd, tcb.ssthresh],
    tcb.recover)

/-- The counters are left alone, but that an ACK goes out and that an idle
connection restarts from the initial window. -/
structure Steady (before after : Tcb) : Prop where
  unacked : after.unackedSegments ≤ before.unackedSegments
  retries : after.retries = before.retries
  probes : after.keepaliveProbes = before.keepaliveProbes
  mss : after.sndMss = before.sndMss
  cwnd : after.cwnd ≤ before.cwnd
  window : before.sndMss ≤ before.cwnd → before.sndMss ≤ after.cwnd
  ssthresh : after.ssthresh = before.ssthresh
  recover : after.recover = before.recover

structure Kept (before after : Tcb) : Prop extends Steady before after where
  state : after.state = before.state
  rcvNxt : after.rcvNxt = before.rcvNxt

variable {before after last tcb : Tcb}

theorem Steady.refl (tcb : Tcb) : Steady tcb tcb :=
  ⟨Nat.le_refl _, rfl, rfl, rfl, Nat.le_refl _, id, rfl, rfl⟩

theorem Steady.same (same : after.tally = before.tally) : Steady before after := by
  simp only [tally, Prod.mk.injEq, List.cons.injEq] at same
  obtain ⟨⟨unacked, retries, probes, mss, cwnd, ssthresh, -⟩, recover⟩ := same
  exact ⟨Nat.le_of_eq unacked, retries, probes, mss, Nat.le_of_eq cwnd,
    fun le => cwnd.symm ▸ le, ssthresh, recover⟩

theorem Steady.trans (first : Steady before after) (second : Steady after last) :
    Steady before last where
  unacked := Nat.le_trans second.unacked first.unacked
  retries := second.retries.trans first.retries
  probes := second.probes.trans first.probes
  mss := second.mss.trans first.mss
  cwnd := Nat.le_trans second.cwnd first.cwnd
  window le := first.mss ▸ second.window (first.mss.symm ▸ first.window le)
  ssthresh := second.ssthresh.trans first.ssthresh
  recover := second.recover.trans first.recover

theorem Kept.refl (tcb : Tcb) : Kept tcb tcb := ⟨.refl tcb, rfl, rfl⟩

theorem Kept.trans (first : Kept before after) (second : Kept after last) : Kept before last :=
  ⟨first.toSteady.trans second.toSteady, second.state.trans first.state,
    second.rcvNxt.trans first.rcvNxt⟩

end Tcb

theorem mss_le_initialWindow (mss : ℕ) : mss ≤ initialWindow mss := by
  rw [initialWindow]
  omega

theorem window_kept (tcb : Tcb) : tcb.Kept tcb.window.1 := by
  rw [Tcb.window]
  split <;> split <;>
    exact ⟨.same rfl, rfl, rfl⟩

theorem sendTcp_kept (host : Host) (tcb : Tcb) (seq : Seq) (flags : Flags) (offset len : ℕ)
    (now : Instant) : tcb.Kept (sendTcp host tcb seq flags offset len now).2.1 := by
  have moved := window_kept tcb
  rw [sendTcp]
  dsimp only
  split
  · exact moved
  · refine moved.trans ?_
    by_cases acks : flags.ack = true
    · by_cases some : 0 < len
      · simp only [acks, some, if_true]
        exact ⟨⟨Nat.zero_le _, rfl, rfl, rfl, Nat.le_refl _, id, rfl, rfl⟩, rfl, rfl⟩
      · simp only [acks, some, if_true, if_false]
        exact ⟨⟨Nat.zero_le _, rfl, rfl, rfl, Nat.le_refl _, id, rfl, rfl⟩, rfl, rfl⟩
    · by_cases some : 0 < len
      · simp only [acks, some, if_true, Bool.false_eq_true, if_false]
        exact ⟨.same rfl, rfl, rfl⟩
      · simp only [acks, some, Bool.false_eq_true, if_false]
        exact .refl _

theorem retransmitFirst_kept (host : Host) (tcb : Tcb) (now : Instant) :
    tcb.Kept (retransmitFirst host tcb now).2 := by
  rw [retransmitFirst]
  dsimp only
  split
  · have sent := sendTcp_kept host tcb tcb.sndUna { ack := true } (tcb.sndUna - tcb.txBase).toNat
      (min (tcb.tx.len - (tcb.sndUna - tcb.txBase).toNat) tcb.sndMss) now
    exact sent.trans ⟨.same rfl, rfl, rfl⟩
  · exact .refl _

theorem outputSyn_kept (host : Host) (tcb : Tcb) (now : Instant) :
    tcb.Kept (outputSyn host tcb now).2 := by
  rw [outputSyn]
  dsimp only
  split
  · have sent := sendTcp_kept host tcb tcb.iss
      (if tcb.state = .synSent then { syn := true } else { syn := true, ack := true }) 0 0 now
    split
    · rename_i result
      rw [result] at sent
      exact sent.trans ⟨.same rfl, rfl, rfl⟩
    · rename_i result
      rw [result] at sent
      exact sent.trans ⟨.same rfl, rfl, rfl⟩
  · exact .refl _

theorem recordSent_kept (tcb : Tcb) (n : ℕ) (fin : Bool) (now : Instant) :
    tcb.Kept (tcb.recordSent n fin now) :=
  ⟨.same rfl, rfl, rfl⟩

theorem outputLoop_kept (now : Instant) (fuel : ℕ) (host : Host) (tcb : Tcb) :
    tcb.Kept (outputLoop now fuel host tcb).2.1 := by
  induction fuel generalizing host tcb with
  | zero => exact .refl _
  | succ fuel ih =>
    rw [outputLoop]
    split
    · exact .refl _
    dsimp only
    split
    · exact .refl _
    have sent := sendTcp_kept host tcb tcb.sndNxt
      { ack := true, psh := decide (0 < tcb.nextSend.1 ∧ tcb.nextSend.1 = tcb.unsent),
        fin := tcb.nextSend.2 } (tcb.sndNxt - tcb.txBase).toNat tcb.nextSend.1 now
    split
    · rename_i result
      rw [result] at sent
      exact sent.trans ⟨.same rfl, rfl, rfl⟩
    · rename_i result
      rw [result] at sent
      exact (sent.trans (recordSent_kept _ _ _ _)).trans (ih _ _)

theorem outputAck_kept (host : Host) (tcb : Tcb) (now : Instant) :
    tcb.Kept (outputAck host tcb now).2 := by
  rw [outputAck]
  split
  · have sent := sendTcp_kept host tcb tcb.sndNxt { ack := true } 0 0 now
    split
    · rename_i result
      rw [result] at sent
      exact sent.trans ⟨.same rfl, rfl, rfl⟩
    · rename_i result
      rw [result] at sent
      exact sent
  · exact .refl _

theorem armPersist_kept (tcb : Tcb) (now : Instant) : tcb.Kept (armPersist tcb now) := by
  rw [armPersist]
  split
  · exact ⟨.same rfl, rfl, rfl⟩
  · exact .refl _

theorem restartIdle_kept (tcb : Tcb) (now : Instant) : tcb.Kept (restartIdle tcb now) := by
  rw [restartIdle]
  split
  · exact ⟨⟨Nat.le_refl _, rfl, rfl, rfl, Nat.min_le_left _ _,
      fun le => Nat.le_min.mpr ⟨le, mss_le_initialWindow _⟩, rfl, rfl⟩, rfl, rfl⟩
  · exact .refl _

theorem outputData_kept (host : Host) (tcb : Tcb) (now : Instant) :
    tcb.Kept (outputData host tcb now).2 := by
  rw [outputData]
  dsimp only
  have restarted := restartIdle_kept tcb now
  have looped := outputLoop_kept now (restartIdle tcb now).outputFuel host (restartIdle tcb now)
  split
  · rename_i result
    rw [result] at looped
    exact restarted.trans looped
  · rename_i result
    rw [result] at looped
    exact ((restarted.trans looped).trans (outputAck_kept _ _ now)).trans (armPersist_kept _ now)

namespace Tcb.Counted

variable {tcb after : Tcb}

theorem of_steady (counted : tcb.Counted) (steady : tcb.Steady after)
    (closed : after.state = .closed → after.retransmitAt = none)
    (reopens : tcb.state = .closed → after.state = .closed)
    (opens : tcb.state = .synSent → after.state = .synSent ∨ after.state = .closed)
    (early : after.state = .synSent ∨ after.state = .synReceived → tcb.recover = none) :
    after.Counted where
  unacked := Nat.le_trans steady.unacked counted.unacked
  retries := by
    rw [steady.retries]
    exact counted.retries.imp id fun gone => ⟨reopens gone.1, gone.2⟩
  closed := closed
  probes := steady.probes ▸ counted.probes
  mss_pos := steady.mss ▸ counted.mss_pos
  mss_le := steady.mss ▸ counted.mss_le
  cwnd := Nat.le_trans steady.cwnd counted.cwnd
  ssthresh := steady.ssthresh ▸ counted.ssthresh
  window synced live := by
    rw [steady.mss]
    exact steady.window (counted.window (fun sent => (opens sent).elim synced live)
      fun gone => live (reopens gone))
  recovery some := by
    rw [steady.recover] at some
    rw [steady.mss, steady.ssthresh]
    exact counted.recovery some
  handshake isEarly := steady.recover.trans (early isEarly)

theorem of_kept (counted : tcb.Counted) (kept : tcb.Kept after)
    (closed : after.state = .closed → after.retransmitAt = none) : after.Counted := by
  refine counted.of_steady kept.toSteady closed kept.state.trans
    (fun sent => .inl (kept.state.trans sent)) fun early => counted.handshake ?_
  rw [← kept.state]
  exact early

theorem closeWith (counted : tcb.Counted) (error : Option Error) :
    (tcb.closeWith error).Counted :=
  counted.of_steady (.same rfl) (fun _ => rfl) (fun _ => rfl) (fun _ => .inr rfl) (by
    rintro (sent | received)
    · cases sent
    · cases received)

theorem noRetries (counted : tcb.Counted) : Counted { tcb with retries := 0 } :=
  { counted with retries := .inl (Nat.zero_le _) }

theorem withCwnd {cwnd : ℕ} (counted : tcb.Counted) (fits : cwnd ≤ usizeMax)
    (mss : tcb.sndMss ≤ cwnd) : Counted { tcb with cwnd } :=
  { counted with cwnd := fits, window := fun _ _ => mss }

theorem tcpOutput (counted : tcb.Counted) (host : Host) (now : Instant) :
    (tcpOutput host tcb now).2.Counted := by
  have same : Tcb.Kept tcb { tcb with linkRetryAt := none } :=
    ⟨.same rfl, rfl, rfl⟩
  rw [Net.tcpOutput]
  dsimp only
  split
  · exact counted.of_kept same counted.closed
  · rename_i state
    have kept := same.trans (outputSyn_kept host { tcb with linkRetryAt := none } now)
    exact counted.of_kept kept fun closed => absurd (kept.state.symm.trans closed) (by simp [state])
  · rename_i state
    have kept := same.trans (outputSyn_kept host { tcb with linkRetryAt := none } now)
    exact counted.of_kept kept fun closed => absurd (kept.state.symm.trans closed) (by simp [state])
  · rename_i state _ _
    have kept := same.trans (outputData_kept host { tcb with linkRetryAt := none } now)
    exact counted.of_kept kept fun closed => absurd (kept.state.symm.trans closed) state

theorem answer (counted : tcb.Counted) (host : Host) (now : Instant) :
    (answer host tcb now).2.Counted := by
  have answers : Counted { tcb with ackNow := true } := { counted with }
  exact answers.tcpOutput host now

end Tcb.Counted

end EspDevkit.Net
