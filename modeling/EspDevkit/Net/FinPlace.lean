import EspDevkit.Net.TcpSendInvariant

/-!
# The place of the FIN

The FIN comes right after the last byte the application wrote.
-/

namespace EspDevkit.Net

open SerialNumber List

/-- The input may have the FIN sent while `snd_nxt` is behind an empty send
buffer, or completes a handshake whose SYN never went out. -/
def MisplacesFin (tcb : Tcb) (now : Instant) : Input → Prop
  | .shutdown => tcb.closesBehind
  | .release => tcb.rx.len = 0 ∧ tcb.closesBehind
  | .poll => tcb.timesOutBehind now
  | .segment seg => tcb.completesHandshake seg ∧ tcb.sndMax = tcb.iss
  | _ => False

instance (tcb : Tcb) (now : Instant) : (input : Input) → Decidable (MisplacesFin tcb now input)
  | .shutdown => inferInstanceAs (Decidable (tcb.closesBehind = true))
  | .release => inferInstanceAs (Decidable (tcb.rx.len = 0 ∧ tcb.closesBehind = true))
  | .poll => inferInstanceAs (Decidable (tcb.timesOutBehind now = true))
  | .segment seg =>
    inferInstanceAs (Decidable (tcb.completesHandshake seg = true ∧ tcb.sndMax = tcb.iss))
  | .read _ | .write _ | .accept | .unlisten | .setNodelay _ | .setKeepalive _
  | .icmpError _ _ | .linkReady => inferInstanceAs (Decidable False)

def finPlace (iss : Seq) (accepted : List UInt8) : Seq := place iss (1 + accepted.length)

/-- The send buffer ends where the FIN belongs, and that is where the FIN was
put, if it was. -/
structure FinPlaced (c : Core) (history : List Happening) : Prop where
  ends : place c.txBase c.tx.len = finPlace c.iss (acceptedIn history)
  finSeq : ∀ seq, c.finSeq = some seq →
    c.finQueued ∧ seq = finPlace c.iss (acceptedIn history)
  sent : ∀ d ∈ sentIn history, d.flags.fin →
    c.finQueued ∧ place d.seq d.data.length = finPlace c.iss (acceptedIn history)

namespace Core

variable {d : Datagram} {n : ℕ} {labels : List Happening}

theorem Sends.length_data {c : Core} {seq : Seq} {flags : Flags} {offset : ℕ}
    (sends : c.Sends seq flags offset n d) (wf : c.tx.WellFormed) : d.data.length = n := by
  have copied : (c.tx.readAt offset n).length ≤ n := by
    rw [Ring.readAt_eq wf]
    exact length_take_le _ _
  rw [sends.dataEq, length_append, length_replicate]
  omega

theorem dropAcked_ends (c : Core) (ack : Seq) :
    place (c.dropAcked ack).txBase (c.dropAcked ack).tx.len = place c.txBase c.tx.len := by
  simp only [dropAcked]
  split
  · simp only [Ring.len_discard, add_ofNat, place_place]
    congr 1
    omega
  · rfl

end Core

namespace SendInv

variable {late : Prop}

theorem fin_place {s : SendSide} (inv : SendInv late False s)
    (synchronized : s.state.synchronized) (open' : s.finSent = false)
    (allowed : n ≤ s.sndWnd - s.inFlight ∨ s.probe ∧ n ≤ 1)
    (queued : s.finQueued) (all : n = s.unsent) :
    place s.sndNxt n = place s.txBase s.tx.len := by
  have small := WellFormed.len_lt inv.tx
  cases inv.phase with
  | closed closed => simp [closed, State.synchronized] at synchronized
  | opening nxt top opening => simp [opening.notQueued] at queued
  | closing nxt top closing =>
    have early := closing.notSent open'
    have one : nxt = 1 := by
      by_contra notOne
      exact closing.placed (by omega)
    rw [all, closing.unsent_eq, closing.empty, closing.nxtEq, closing.base, one]
  | behind isLate behind =>
    have window := inv.window
    have none : n = 0 := by
      rw [behind.inFlight_eq] at allowed
      have : widestWindow < 2 ^ 32 - 1 := by decide
      simp [behind.quiet.1] at allowed
      omega
    exact (behind.placed queued (by rw [← behind.unsent_eq, ← all, none])).elim
  | streaming una nxt top streaming =>
    have within := (streaming.notSent open').2
    rw [all, streaming.unsent_eq small open', streaming.nxtEq, place_place]
    congr 1
    omega

theorem empty_of_timeWait {misplaced : Prop} {s : SendSide} (inv : SendInv late misplaced s)
    (waiting : s.state = .timeWait) : s.tx.len = 0 := by
  cases inv.phase with
  | closed closed => simp [closed] at waiting
  | opening nxt top opening =>
    rcases opening.state with state | state <;> simp [state] at waiting
  | closing nxt top closing => exact closing.empty
  | behind isLate behind => exact absurd waiting behind.notDone.2
  | streaming una nxt top streaming => exact streaming.drained (Or.inr waiting)

end SendInv

namespace FinPlaced

variable {ctx : Context} {c : Core} {history : List Happening}

variable {c' : Core}

theorem keep (placed : FinPlaced c history)
    (ends : place c'.txBase c'.tx.len = place c.txBase c.tx.len) (iss : c'.iss = c.iss)
    (finSeq : c'.finSeq = c.finSeq) (queued : c.finQueued → c'.finQueued)
    (nothing : acceptedIn labels = [])
    (noFin : ∀ d ∈ sentIn labels, d.flags.fin = false) :
    FinPlaced c' (history ++ labels) := by
  have accepted : acceptedIn (history ++ labels) = acceptedIn history := by
    rw [acceptedIn_append, nothing, append_nil]
  refine ⟨?_, ?_, ?_⟩
  · rw [ends, accepted, iss]
    exact placed.ends
  · intro seq known
    rw [finSeq] at known
    rw [accepted, iss]
    exact (placed.finSeq seq known).imp_left queued
  · intro d member fin
    rw [sentIn_append, mem_append] at member
    rw [accepted, iss]
    rcases member with before | now
    · exact (placed.sent d before fin).imp_left queued
    · simp [noFin d now] at fin

theorem keepSilent (placed : FinPlaced c history)
    (ends : place c'.txBase c'.tx.len = place c.txBase c.tx.len) (iss : c'.iss = c.iss)
    (finSeq : c'.finSeq = c.finSeq) (queued : c.finQueued → c'.finQueued) :
    FinPlaced c' (history ++ []) :=
  placed.keep ends iss finSeq queued rfl (by simp [sentIn])

theorem keepSent (placed : FinPlaced c history)
    (ends : place c'.txBase c'.tx.len = place c.txBase c.tx.len) (iss : c'.iss = c.iss)
    (finSeq : c'.finSeq = c.finSeq) (queued : c.finQueued → c'.finQueued)
    (noFin : d.flags.fin = false) : FinPlaced c' (history ++ [.port (.sent d)]) :=
  placed.keep ends iss finSeq queued rfl (by
    intro d' member
    have same : d' = d := by simpa [sentIn, Happening.sent?] using member
    rw [same]
    exact noFin)

theorem send (placed : FinPlaced c history) {late : Prop}
    (inv : SendInv late False c.toSendSide) {fin psh : Bool}
    (synchronized : c.state.synchronized) (open' : c.finSent = false)
    (allowed : n ≤ c.sndWnd - c.inFlight ∨ c.probe ∧ n ≤ 1)
    (last : fin → c.finQueued ∧ n = c.unsent)
    (sends : c.Sends c.sndNxt { ack := true, psh, fin } (c.sndNxt - c.txBase).toNat n d) :
    FinPlaced (c.recordSent n fin) (history ++ [.port (.sent d)]) := by
  have noBytes : acceptedIn [Happening.port (.sent d)] = [] := rfl
  cases fin with
  | false =>
    exact placed.keepSent rfl rfl (by simp [Core.recordSent, Core.advance]) id
      (by rw [sends.flagsEq])
  | true =>
    obtain ⟨queued, all⟩ := last rfl
    have here := inv.fin_place synchronized open' allowed queued all
    have ends := placed.ends
    refine ⟨?_, ?_, ?_⟩
    · rw [acceptedIn_append, noBytes, append_nil]
      exact ends
    · intro seq known
      rw [acceptedIn_append, noBytes, append_nil]
      have seqEq : place c.sndNxt n = seq := by simpa [Core.recordSent, place] using known
      exact ⟨queued, by rw [← seqEq, here]; exact ends⟩
    · intro d' member isFin
      rw [acceptedIn_append, noBytes, append_nil]
      rw [sentIn_append, mem_append] at member
      rcases member with before | now
      · exact placed.sent d' before isFin
      · have same : d' = d := by simpa [sentIn, Happening.sent?] using now
        refine ⟨queued, ?_⟩
        rw [same, sends.length_data inv.tx, sends.seqEq, here]
        exact ends

theorem push (placed : FinPlaced c history) {tx : Ring} (bytes : List UInt8)
    {happenings : List Happening} (more : c.finQueued = false)
    (grows : tx.len = c.tx.len + bytes.length) (told : acceptedIn happenings = bytes)
    (silent : sentIn happenings = []) :
    FinPlaced { c with tx } (history ++ happenings) := by
  refine ⟨?_, ?_, ?_⟩
  · rw [acceptedIn_append, told]
    change place c.txBase tx.len = _
    rw [grows, ← place_place, placed.ends]
    simp only [finPlace, place_place, length_append]
    congr 1
    omega
  · intro seq known
    exact absurd (placed.finSeq seq known).1 (by simp [more])
  · intro d member fin
    rw [sentIn_append, silent, append_nil] at member
    exact absurd (placed.sent d member fin).1 (by simp [more])

theorem move {after : Core} (placed : FinPlaced c history)
    {late : Prop} (inv : SendInv late False c.toSendSide) (move : Move ctx c labels after) :
    FinPlaced after (history ++ labels) := by
  cases move with
  | offer =>
    obtain ⟨adv, same⟩ := offered_eq c
    rw [same]
    exact placed.keep rfl rfl rfl id rfl (by simp [sentIn, Happening.sent?])
  | sendSyn flags handshake behind sends =>
    refine placed.keepSent rfl rfl rfl id ?_
    rw [sends.flagsEq]
    rcases handshake with ⟨_, rfl⟩ | ⟨_, rfl⟩ <;> rfl
  | send n fin psh synchronized open' queued something allowed last sends =>
    exact placed.send inv synchronized open' allowed last sends
  | resend n synchronized held sends =>
    exact placed.keepSent rfl rfl rfl id (by rw [sends.flagsEq])
  | sendAck seq synchronized sends =>
    exact placed.keepSent rfl rfl rfl id (by rw [sends.flagsEq])
  | sendRst rst noSyn noFin empty => exact placed.keepSent rfl rfl rfl id noFin
  | simultaneous => exact placed.keepSilent rfl rfl rfl id
  | connected => exact placed.keepSilent rfl rfl rfl id
  | established => exact placed.keepSilent rfl rfl rfl id
  | acked raw seg =>
    refine placed.keepSilent (c.dropAcked_ends seg.ack) ?_ ?_ ?_ <;>
      simp only [Core.recordAck, Core.dropAcked] <;> split <;> first | rfl | exact id
  | finAcked =>
    have same : c.finAcked = { c with
        state := c.finAcked.state
        persisting := c.finAcked.persisting
        retransmitting := c.finAcked.retransmitting } := by
      simp only [Core.finAcked]
      split <;> rfl
    rw [same]
    exact placed.keepSilent rfl rfl rfl id
  | window => exact placed.keepSilent rfl rfl rfl id
  | data fits raw seg =>
    have same : (c.takeBytes fits seg).toSendSide = c.toSendSide := by
      simp only [Core.takeBytes]
      split <;> rfl
    refine placed.keepSilent ?_ ?_ ?_ ?_ <;> rw [same]
    exact id
  | fin => exact placed.keepSilent rfl rfl rfl id
  | timeout => exact placed.keepSilent rfl rfl rfl id
  | release => exact placed.keepSilent rfl rfl rfl id
  | persist => exact placed.keepSilent rfl rfl rfl id
  | startPersist => exact placed.keepSilent rfl rfl rfl id
  | stopRetransmit => exact placed.keepSilent rfl rfl rfl id
  | shutdown => exact placed.keepSilent rfl rfl rfl fun _ => rfl
  | close => exact placed.keepSilent rfl rfl rfl id
  | push fits bytes happenings writable more told =>
    obtain ⟨tx, n, eq, _, short, _, len, _⟩ := Ring.push_cases fits inv.tx bytes
    rw [eq] at told ⊢
    have taken : (bytes.take n).length = n := by
      rw [length_take]
      omega
    rcases told with rfl | ⟨none, rfl⟩
    · exact placed.push (bytes.take n) more (by rw [taken]; exact len)
        (by simp [acceptedIn, Happening.acceptedBytes]) rfl
    · have none : n = 0 := none
      exact placed.push [] more (by rw [len, none]; rfl) rfl rfl
  | pop => exact placed.keep rfl rfl rfl id rfl (by simp [sentIn, Happening.sent?])
  | popLook => exact placed.keep rfl rfl rfl id rfl (by simp [sentIn, Happening.sent?])

theorem dropBuffers (placed : FinPlaced c history) {late : Prop}
    (inv : SendInv late False c.toSendSide) (waiting : c.state = .timeWait) :
    FinPlaced c.dropBuffers history := by
  refine ⟨?_, placed.finSeq, placed.sent⟩
  have ends := placed.ends
  rwa [inv.empty_of_timeWait waiting] at ends

theorem finSeq_move {after : Core} (placed : FinPlaced c history)
    {late : Prop} (inv : SendInv late False c.toSendSide) (move : Move ctx c labels after)
    {seq : Seq} (known : c.finSeq = some seq) : after.finSeq = some seq := by
  cases move with
  | offer =>
    obtain ⟨adv, same⟩ := offered_eq c
    rw [same]
    exact known
  | send n fin psh synchronized open' queued something allowed last sends =>
    cases fin with
    | false => simpa [Core.recordSent, Core.advance] using known
    | true =>
      obtain ⟨queued, all⟩ := last rfl
      have here := inv.fin_place synchronized open' allowed queued all
      change some (place c.sndNxt n) = some seq
      rw [here, (placed.finSeq seq known).2]
      exact congrArg some placed.ends
  | acked raw seg =>
    simp only [Core.recordAck, Core.dropAcked]
    split <;> exact known
  | finAcked =>
    simp only [Core.finAcked]
    split <;> exact known
  | data fits raw seg =>
    simp only [Core.takeBytes]
    split <;> exact known
  | _ => exact known

end FinPlaced

def keepsFin (tcb : Tcb) (now : Instant) (input : Input) : Prop := ¬ MisplacesFin tcb now input

instance (tcb : Tcb) (now : Instant) (input : Input) : Decidable (keepsFin tcb now input) :=
  inferInstanceAs (Decidable (¬ MisplacesFin tcb now input))

theorem keepsFin_context {tcb : Tcb} {now : Instant} {input : Input}
    (keeps : keepsFin tcb now input) :
    ¬ (input.context tcb now).misplaced ∧ ¬ (input.context tcb now).wild := by
  cases input <;> simp_all [keepsFin, MisplacesFin, Input.context]

def FinKept (c : Core) (history : List Happening) : Prop :=
  SendInv True False c.toSendSide ∧ FinPlaced c history

theorem FinKept.move {ctx : Context} (notMisplaced : ¬ ctx.misplaced) (notWild : ¬ ctx.wild)
    {before after : Core} {history : List Happening} (kept : FinKept before history)
    (move : Move ctx before labels after) : FinKept after (history ++ labels) :=
  ⟨kept.1.move move (fun _ => trivial) notMisplaced notWild, kept.2.move kept.1 move⟩

theorem FinKept.dropBuffers {c : Core} {history : List Happening} (waiting : c.state = .timeWait)
    (kept : FinKept c history) : FinKept c.dropBuffers history :=
  ⟨kept.1.dropBuffers waiting, kept.2.dropBuffers kept.1 waiting⟩

theorem FinKept.fresh {tcb : Tcb} (fresh : Conn.Fresh tcb) : FinKept tcb.core [] := by
  refine ⟨.fresh fresh, ?_⟩
  cases fresh <;>
    exact ⟨place_zero _, fun seq known => by simp [Tcb.core, Tcb.connecting, Tcb.accepting, Tcb.new,
      Tcb.onSyn] at known, by simp [sentIn]⟩

theorem FinKept.of_reachable {conn : Conn} (reachable : Conn.Reachable keepsFin conn) :
    FinKept conn.tcb.core conn.history :=
  Conn.Reachable.invariant (fun _ => FinKept.fresh)
    (fun _ _ _ _ kept move => kept.move id id move)
    (fun _ _ _ _ keeps _ _ _ _ _ kept move =>
      kept.move (keepsFin_context keeps).1 (keepsFin_context keeps).2 move)
    (fun _ _ waiting _ kept => kept.dropBuffers waiting) reachable

/-- When no input misplaces the FIN, every FIN that is sent is at the place
after all bytes the application wrote, and `fin_seq` never changes. -/
theorem fin_has_one_place {conn : Conn} (reachable : Conn.Reachable keepsFin conn) :
    (∀ d ∈ sentIn conn.history, d.flags.fin →
      d.seq + BitVec.ofNat 32 d.data.length =
        conn.tcb.iss + 1 + BitVec.ofNat 32 (acceptedIn conn.history).length) ∧
    (∀ seq, conn.tcb.finSeq = some seq →
      seq = conn.tcb.iss + 1 + BitVec.ofNat 32 (acceptedIn conn.history).length) ∧
    ∀ later, Relation.ReflTransGen (Conn.Step keepsFin) conn later →
      ∀ seq, conn.tcb.finSeq = some seq → later.tcb.finSeq = some seq := by
  have kept := FinKept.of_reachable reachable
  have places : finPlace conn.tcb.iss (acceptedIn conn.history) =
      conn.tcb.iss + 1 + BitVec.ofNat 32 (acceptedIn conn.history).length := by
    rw [finPlace, ← place_place]
    rfl
  refine ⟨fun d member fin => ?_, fun seq known => ?_, fun later steps seq known => ?_⟩
  · rw [← places]
    exact (kept.2.sent d member fin).2
  · rw [← places]
    exact (kept.2.finSeq seq known).2
  · have stays : FinKept later.tcb.core later.history ∧ later.tcb.core.finSeq = some seq := by
      induction steps with
      | refl => exact ⟨kept, known⟩
      | tail _ step ih =>
        refine @Conn.Step.invariant _
          (fun core history => FinKept core history ∧ core.finSeq = some seq)
          (fun tcb now input start keeps _ before history labels after holds move => ?_)
          (fun core history waiting _ holds => ⟨holds.1.dropBuffers waiting, holds.2⟩) _ _ step ih
        have context := keepsFin_context keeps
        exact ⟨holds.1.move context.1 context.2 move,
          holds.1.2.finSeq_move holds.1.1 move holds.2⟩
    exact stays.2

/-- A connection that writes three bytes and shuts down. -/
theorem fin_has_one_place_written :
    let conn := Conn.toServer.run
      [({}, 100, Conn.serverSynAck), ({}, 200, .write [1, 2, 3]), ({}, 300, .shutdown)]
    (∃ d ∈ sentIn conn.history, d.flags.fin) ∧
    ∀ d ∈ sentIn conn.history, d.flags.fin →
      d.seq + BitVec.ofNat 32 d.data.length =
        conn.tcb.iss + 1 + BitVec.ofNat 32 (acceptedIn conn.history).length := by
  exact ⟨by decide, (fin_has_one_place
    ((Conn.toServer_reachable keepsFin).run (by decide))).1⟩

/-- A SYN crosses ours, the link refuses the answer to it, and the application
lets go: the FIN goes out in the place of the SYN. -/
theorem fin_has_one_place_fails :
    ∃ conn, Conn.Reachable Conn.anyInput conn ∧
      ∃ d ∈ sentIn conn.history, d.flags.fin ∧
        d.seq + BitVec.ofNat 32 d.data.length ≠
          conn.tcb.iss + 1 + BitVec.ofNat 32 (acceptedIn conn.history).length :=
  ⟨Conn.toServer.run [({ refusals := [true] }, 100, Conn.fromServer 5000 0 { syn := true }),
      ({}, 200, .release)],
    (Conn.toServer_reachable _).run (by decide), by decide⟩

end EspDevkit.Net
