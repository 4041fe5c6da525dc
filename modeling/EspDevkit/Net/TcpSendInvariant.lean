import EspDevkit.Net.Connection

/-!
# The send sequence numbers

A connection that is not closed is in one of four phases: opening, until the
SYN is acknowledged; closing early, when the application shut it down before
that; behind, when the SYN was acknowledged while `snd_nxt` had been moved back
to it; and streaming, which is the phase connections are meant to be in.
-/

namespace EspDevkit.Net

open SerialNumber Option

/-- Until the SYN is acknowledged; `nxt` and `top` tell whether it is out. -/
structure Opening (s : SendSide) (nxt top : ℕ) : Prop where
  state : s.state = .synSent ∨ s.state = .synReceived
  una : s.sndUna = s.iss
  base : s.txBase = place s.iss 1
  nxtEq : s.sndNxt = place s.iss nxt
  maxEq : s.sndMax = place s.iss top
  order : nxt ≤ top ∧ top ≤ 1
  empty : s.tx.len = 0
  notQueued : s.finQueued = false
  notSent : s.finSent = false
  noFin : s.finSeq = none
  quiet : s.probe = false ∧ s.persisting = false

structure Closing (misplaced : Prop) (s : SendSide) (nxt top : ℕ) : Prop where
  state : s.state.synchronized
  una : s.sndUna = s.iss
  base : s.txBase = place s.iss 1
  nxtEq : s.sndNxt = place s.iss nxt
  maxEq : s.sndMax = place s.iss top
  order : nxt ≤ top ∧ top ≤ 2
  empty : s.tx.len = 0
  queued : s.finQueued = true
  notSent : s.finSent = false → nxt ≤ 1
  placed : nxt = 0 → misplaced
  fin : ∀ seq, s.finSeq = some seq → seq = place s.iss 1 ∨ misplaced ∧ seq = s.iss
  sentFin : top = 2 → s.finSeq ≠ none

/-- The SYN was acknowledged while `snd_nxt` was back at it. -/
structure Behind (misplaced : Prop) (s : SendSide) : Prop where
  state : s.state.synchronized
  notDone : s.state ≠ .finWait2 ∧ s.state ≠ .timeWait
  una : s.sndUna = place s.iss 1
  base : s.txBase = place s.iss 1
  nxtEq : s.sndNxt = s.iss
  maxEq : s.sndMax = place s.iss 1
  notSent : s.finSent = false
  noFin : s.finSeq = none
  quiet : s.probe = false ∧ s.persisting = false
  noTimer : s.retransmitting = false
  placed : s.finQueued → s.tx.len = 0 → misplaced

/-- The send numbers as positions past the oldest byte of the send buffer;
the FIN has the position after its last byte. -/
structure Streaming (misplaced : Prop) (s : SendSide) (una nxt top : ℕ) : Prop where
  state : s.state.synchronized
  unaEq : s.sndUna = place s.txBase una
  nxtEq : s.sndNxt = place s.txBase nxt
  maxEq : s.sndMax = place s.txBase top
  order : una ≤ nxt ∧ nxt ≤ top ∧ top ≤ s.tx.len + 1 ∧ una ≤ 1
  notQueued : s.finQueued = false → top ≤ s.tx.len ∧ s.finSent = false
  notSent : s.finSent = false → una = 0 ∧ nxt ≤ s.tx.len
  acked : una = 1 → s.tx.len = 0 ∧ s.retransmitting = false
  fin : ∀ seq, s.finSeq = some seq → s.finQueued ∧
    (seq = place s.txBase s.tx.len ∨ misplaced ∧ s.tx.len = 0 ∧ place seq 1 = s.txBase)
  sentFin : top = s.tx.len + 1 → s.finSeq ≠ none
  drained : s.state = .finWait2 ∨ s.state = .timeWait → s.tx.len = 0

inductive SendPhase (late misplaced : Prop) (s : SendSide) : Prop
  | closed (state : s.state = .closed)
  | opening (nxt top : ℕ) (opening : Opening s nxt top)
  | closing (nxt top : ℕ) (closing : Closing misplaced s nxt top)
  | behind (late : late) (behind : Behind misplaced s)
  | streaming (una nxt top : ℕ) (streaming : Streaming misplaced s una nxt top)

structure SendInv (late misplaced : Prop) (s : SendSide) : Prop where
  tx : s.tx.WellFormed
  scale : s.sndScale ≤ maxWindowScale
  window : s.sndWnd ≤ widestWindow
  phase : SendPhase late misplaced s

theorem shift_le_widestWindow (window : BitVec 16) {scale : ℕ}
    (bounded : scale ≤ maxWindowScale) : window.toNat <<< scale ≤ widestWindow := by
  have small := window.isLt
  have powers : 2 ^ scale ≤ 2 ^ maxWindowScale := Nat.pow_le_pow_right (by omega) bounded
  simp only [Nat.shiftLeft_eq, widestWindow]
  exact Nat.mul_le_mul (by omega) powers

variable {c : Core}

theorem synScale_le (seg : Segment) (bounded : c.sndScale ≤ maxWindowScale) :
    (c.takeSyn seg).sndScale ≤ maxWindowScale := by
  simp only [Core.takeSyn]
  cases seg.windowScale with
  | none => exact bounded
  | some scale => exact Nat.le_of_lt_succ scale.isLt

theorem synWindow_le (seg : Segment) : (c.takeSyn seg).sndWnd ≤ widestWindow := by
  have := @shift_le_widestWindow seg.window 0 (Nat.zero_le _)
  simpa [Core.takeSyn] using this

theorem WellFormed.len_lt {r : Ring} (wf : r.WellFormed) : r.len < 2 ^ 31 := by
  have held := wf.len_le
  have memory := wf.data_le_isizeMax
  simp only [isizeMax] at memory
  omega

namespace Streaming

variable {misplaced : Prop} {s : SendSide} {una nxt top : ℕ}

theorem offset_eq (streaming : Streaming misplaced s una nxt top) (small : s.tx.len < 2 ^ 31) :
    (s.sndNxt - s.txBase).toNat = nxt := by
  have order := streaming.order
  rw [streaming.nxtEq]
  exact place_sub_self (by omega)

theorem unsent_eq (streaming : Streaming misplaced s una nxt top) (small : s.tx.len < 2 ^ 31)
    (open' : s.finSent = false) : s.unsent = s.tx.len - nxt := by
  have within := (streaming.notSent open').2
  have notBehind : lt s.sndNxt s.txBase = false := by
    apply Bool.eq_false_of_not_eq_true
    intro behind
    rw [streaming.nxtEq] at behind
    have := (@lt_place_iff 32 nxt 0 s.txBase (by omega) (by omega)).mp
      (by simpa using behind)
    omega
  simp [SendSide.unsent, open', notBehind, streaming.offset_eq small]

theorem ack_eq (streaming : Streaming misplaced s una nxt top) (small : s.tx.len < 2 ^ 31)
    {ack : Seq} (new : lt s.sndUna ack) (sent : lt s.sndMax ack = false) :
    ∃ acked, ack = place s.txBase acked ∧ una < acked ∧ acked ≤ top := by
  have order := streaming.order
  have ahead := (lt_iff_ahead (by omega) _ _).mp new
  have distance := place_ahead s.sndUna ack
  generalize SerialNumber.ahead s.sndUna ack = steps at ahead distance
  rw [streaming.unaEq, place_place] at distance
  refine ⟨una + steps, distance.symm, by omega, ?_⟩
  by_contra beyond
  rw [← distance, streaming.maxEq] at sent
  have := (@lt_place_iff 32 top (una + steps) s.txBase (by omega) (by omega)).mpr (by omega)
  simp [this] at sent

end Streaming

theorem Opening.ack_eq {s : SendSide} {nxt top : ℕ} (opening : Opening s nxt top) {ack : Seq}
    (acks : lt s.sndUna ack && le ack s.sndMax) (sent : s.sndMax ≠ s.iss) :
    top = 1 ∧ ack = place s.iss 1 := by
  have order := opening.order
  have topOne : top = 1 := by
    by_contra notOne
    have zero : top = 0 := by omega
    apply sent
    rw [opening.maxEq, zero, place_zero]
  simp only [Bool.and_eq_true] at acks
  obtain ⟨new, notBeyond⟩ := acks
  rw [opening.una, lt_iff_ahead (by omega)] at new
  refine ⟨topOne, ?_⟩
  have distance := place_ahead s.iss ack
  rw [opening.maxEq, topOne, ← distance] at notBeyond
  have := (le_place_iff s.iss (by omega) (by omega)).mp notBeyond
  rw [← distance]
  congr 1
  omega

theorem Closing.unsent_eq {misplaced : Prop} {s : SendSide} {nxt top : ℕ}
    (closing : Closing misplaced s nxt top) : s.unsent = 0 := by
  simp [SendSide.unsent, closing.empty]

theorem Closing.ack_eq {misplaced : Prop} {s : SendSide} {nxt top : ℕ}
    (closing : Closing misplaced s nxt top) {ack : Seq} (new : lt s.sndUna ack)
    (sent : lt s.sndMax ack = false) : ∃ acked, ack = place s.iss acked ∧ 0 < acked ∧ acked ≤ top := by
  have order := closing.order
  have ahead := (lt_iff_ahead (by omega) _ _).mp new
  have distance := place_ahead s.sndUna ack
  generalize SerialNumber.ahead s.sndUna ack = steps at ahead distance
  rw [closing.una] at distance
  refine ⟨steps, distance.symm, by omega, ?_⟩
  by_contra beyond
  rw [← distance, closing.maxEq] at sent
  have := (@lt_place_iff 32 top steps s.iss (by omega) (by omega)).mpr (by omega)
  simp [this] at sent

namespace Behind

variable {misplaced : Prop} {s : SendSide}

theorem lt_base (behind : Behind misplaced s) : lt s.sndNxt s.txBase = true := by
  rw [behind.nxtEq, behind.base]
  have := (@lt_place_iff 32 0 1 s.iss (by omega) (by omega)).mpr (by omega)
  simpa using this

theorem unsent_eq (behind : Behind misplaced s) : s.unsent = s.tx.len := by
  simp [SendSide.unsent, behind.notSent, behind.lt_base]

theorem inFlight_eq (behind : Behind misplaced s) : s.inFlight = 2 ^ 32 - 1 := by
  have reverse := ahead_reverse (a := s.iss) (b := place s.iss 1) (by
    intro same
    have := (@place_inj 32 0 1 s.iss (by omega) (by omega)).mp
      (by simpa using same)
    omega)
  rw [ahead_place s.iss (by omega)] at reverse
  simpa [SendSide.inFlight, ahead, behind.nxtEq, behind.una] using reverse

end Behind

namespace SendInv

variable {late misplaced : Prop} {ctx : Context}

theorem opening_of {s : SendSide} (inv : SendInv late misplaced s)
    (state : s.state = .synSent ∨ s.state = .synReceived) :
    ∃ nxt top, Opening s nxt top := by
  cases inv.phase with
  | closed closed => rcases state with state | state <;> simp [state] at closed
  | opening nxt top opening => exact ⟨nxt, top, opening⟩
  | closing _ _ closing =>
    have := closing.state
    rcases state with state | state <;> simp [state, State.synchronized] at this
  | behind _ behind =>
    have := behind.state
    rcases state with state | state <;> simp [state, State.synchronized] at this
  | streaming _ _ _ streaming =>
    have := streaming.state
    rcases state with state | state <;> simp [state, State.synchronized] at this

theorem sendSyn (inv : SendInv late misplaced c.toSendSide)
    (state : c.state = .synSent ∨ c.state = .synReceived) :
    SendInv late misplaced c.recordSyn.toSendSide := by
  obtain ⟨nxt, top, opening⟩ := inv.opening_of state
  have order := opening.order
  refine ⟨inv.tx, inv.scale, inv.window, .opening 1 1 { opening with
    nxtEq := rfl, maxEq := ?_, order := by omega }⟩
  change (if lt c.sndMax (c.iss + 1) then c.iss + 1 else c.sndMax) = place c.iss 1
  rw [opening.maxEq]
  have later := @max_place 32 top 1 c.iss (by omega) (by omega)
  rwa [Nat.max_eq_right (by omega)] at later

theorem recordSent_places {origin : Seq} {n nxt top : ℕ} {fin : Bool}
    (nxtEq : c.sndNxt = place origin nxt) (maxEq : c.sndMax = place origin top)
    (near : 2 * (top - (nxt + (n + fin.toNat))) < 2 ^ 32)
    (near' : 2 * (nxt + (n + fin.toNat) - top) ≤ 2 ^ 32) :
    (c.recordSent n fin).sndNxt = place origin (nxt + (n + fin.toNat)) ∧
      (c.recordSent n fin).sndMax = place origin (max top (nxt + (n + fin.toNat))) := by
  have target : c.sndNxt + BitVec.ofNat 32 (n + fin.toNat) =
      place origin (nxt + (n + fin.toNat)) := by
    rw [nxtEq, add_ofNat, place_place]
  refine ⟨target, ?_⟩
  change (if lt c.sndMax (c.sndNxt + BitVec.ofNat 32 (n + fin.toNat)) then
    c.sndNxt + BitVec.ofNat 32 (n + fin.toNat) else c.sndMax) = _
  rw [target, maxEq]
  exact max_place origin near near'

theorem send (inv : SendInv late misplaced c.toSendSide) {n : ℕ} {fin : Bool}
    (synchronized : c.state.synchronized) (open' : c.finSent = false)
    (queued : n ≤ c.unsent) (something : 0 < n ∨ fin)
    (allowed : n ≤ c.sndWnd - c.inFlight ∨ c.probe ∧ n ≤ 1)
    (last : fin → c.finQueued ∧ n = c.unsent) :
    SendInv late misplaced (c.recordSent n fin).toSendSide := by
  have small := WellFormed.len_lt inv.tx
  refine ⟨inv.tx, inv.scale, inv.window, ?_⟩
  cases inv.phase with
  | closed closed => simp [closed, State.synchronized] at synchronized
  | opening nxt top opening =>
    rcases opening.state with state | state <;> simp [state, State.synchronized] at synchronized
  | closing nxt top closing =>
    have none : n = 0 := by
      rw [closing.unsent_eq] at queued
      omega
    subst none
    have isFin : fin = true := by simpa using something
    subst isFin
    have early := closing.notSent open'
    have order := closing.order
    have places := @recordSent_places _ _ 0 _ _ true closing.nxtEq closing.maxEq
      (by simp; omega) (by simp; omega)
    simp only [Bool.toNat_true, Nat.zero_add] at places
    refine .closing (nxt + 1) (max top (nxt + 1)) { closing with
      nxtEq := places.1, maxEq := places.2, order := by omega
      notSent := by simp [Core.recordSent]
      placed := by omega
      fin := ?_
      sentFin := by simp [Core.recordSent] }
    intro seq sent
    have seqEq : place c.sndNxt 0 = seq := by simpa [Core.recordSent, place] using sent
    rw [place_zero, closing.nxtEq] at seqEq
    by_cases first : nxt = 0
    · exact Or.inr ⟨closing.placed first, by rw [← seqEq, first, place_zero]; rfl⟩
    · have one : nxt = 1 := by omega
      exact Or.inl (by rw [← seqEq, one]; rfl)
  | behind late behind =>
    have window := inv.window
    have none : n = 0 := by
      rw [behind.inFlight_eq] at allowed
      have : widestWindow < 2 ^ 32 - 1 := by decide
      simp [behind.quiet.1] at allowed
      omega
    subst none
    have isFin : fin = true := by simpa using something
    subst isFin
    have finQueued := last rfl
    have empty : c.tx.len = 0 := by rw [← behind.unsent_eq, ← finQueued.2]
    have misplaced := behind.placed finQueued.1 empty
    have places := @recordSent_places c c.iss 0 0 1 true (by rw [place_zero]; exact behind.nxtEq) behind.maxEq
      (by simp) (by simp)
    simp only [Bool.toNat_true, Nat.zero_add, Nat.max_self] at places
    have base : c.txBase = place c.iss 1 := behind.base
    refine .streaming 0 0 0
      { state := synchronized
        unaEq := by rw [place_zero]; exact behind.una.trans base.symm
        nxtEq := by rw [place_zero]; exact places.1.trans base.symm
        maxEq := by rw [place_zero]; exact places.2.trans base.symm
        order := by omega
        notQueued := fun notQueued =>
          absurd (show c.finQueued = false from notQueued) (by simp [finQueued.1])
        notSent := by simp [Core.recordSent]
        acked := by omega
        fin := ?_
        sentFin := by simp [Core.recordSent]
        drained := fun _ => empty }
    intro seq sent
    have seqEq : place c.sndNxt 0 = seq := by simpa [Core.recordSent, place] using sent
    refine ⟨finQueued.1, Or.inr ⟨misplaced, empty, ?_⟩⟩
    rw [← seqEq, place_zero, show c.sndNxt = c.iss from behind.nxtEq]
    exact base.symm
  | streaming una nxt top streaming =>
    have order := streaming.order
    have notSent := streaming.notSent open'
    rw [streaming.unsent_eq small open'] at queued last
    have finLe : n + fin.toNat ≤ c.tx.len - nxt + fin.toNat := by omega
    have finToNat := Bool.toNat_le fin
    have nonzero : 0 < n + fin.toNat := by
      rcases something with positive | isFin
      · omega
      · simp [isFin]
    have places := @recordSent_places _ _ n _ _ fin streaming.nxtEq streaming.maxEq
      (by omega) (by omega)
    have notLast : fin = false → n + fin.toNat = n := by rintro rfl; rfl
    refine .streaming una (nxt + (n + fin.toNat)) (max top (nxt + (n + fin.toNat)))
      { streaming with
        nxtEq := places.1, maxEq := places.2
        order := by change _ ∧ _ ∧ _ ≤ c.tx.len + 1 ∧ _; omega
        notQueued := ?_, notSent := ?_, acked := ?_, fin := ?_, sentFin := ?_ }
    · intro notQueued
      have notQueued : c.finQueued = false := notQueued
      have notFin : fin = false := by
        apply Bool.eq_false_of_not_eq_true
        intro isFin
        simp [(last isFin).1] at notQueued
      have before := streaming.notQueued notQueued
      have := notLast notFin
      exact ⟨by change _ ≤ c.tx.len; omega, by simp [Core.recordSent, notFin, open']⟩
    · intro stillOpen
      have notFin : fin = false := by
        simp [Core.recordSent] at stillOpen
        exact stillOpen.2
      have := notLast notFin
      exact ⟨notSent.1, by change _ ≤ c.tx.len; omega⟩
    · intro finAcked
      omega
    · intro seq sent
      cases fin with
      | false => exact streaming.fin seq (by simpa [Core.recordSent] using sent)
      | true =>
        have finQueued := last rfl
        have seqEq : place c.sndNxt n = seq := by simpa [Core.recordSent, place] using sent
        refine ⟨finQueued.1, Or.inl ?_⟩
        rw [← seqEq, show c.sndNxt = place c.txBase nxt from streaming.nxtEq, place_place]
        change _ = place c.txBase c.tx.len
        congr 1
        omega
    · intro full
      cases fin with
      | false =>
        have := notLast rfl
        have full' : max top (nxt + (n + false.toNat)) = c.tx.len + 1 := full
        have := streaming.sentFin (by omega)
        simpa [Core.recordSent] using this
      | true => simp [Core.recordSent]

theorem simultaneous (inv : SendInv late misplaced c.toSendSide) (seg : Segment)
    (state : c.state = .synSent) :
    SendInv late misplaced
      { c.takeSyn seg with state := .synReceived, sndNxt := c.iss }.toSendSide := by
  obtain ⟨nxt, top, opening⟩ := inv.opening_of (Or.inl state)
  have order := opening.order
  refine ⟨inv.tx, ?_, ?_, .opening 0 top { opening with
    state := Or.inr rfl, nxtEq := (place_zero c.iss).symm, order := by omega }⟩
  · exact synScale_le seg inv.scale
  · exact synWindow_le (c := c) seg

theorem begin' {s s' : SendSide} {nxt top : ℕ} (opening : Opening s nxt top) {ack : Seq}
    (acks : lt s.sndUna ack && le ack s.sndMax) (isLate : s.sndNxt = s.iss → late)
    (sent : s.sndMax ≠ s.iss) (tx : s.tx.WellFormed)
    (same : s' = { s with
      state := .established, sndUna := ack, retransmitting := false
      sndScale := s'.sndScale, sndWnd := s'.sndWnd })
    (scale : s'.sndScale ≤ maxWindowScale) (window : s'.sndWnd ≤ widestWindow) :
    SendInv late misplaced s' := by
  have order := opening.order
  obtain ⟨topOne, ackEq⟩ := opening.ack_eq acks sent
  subst topOne
  rw [same]
  refine ⟨tx, scale, window, ?_⟩
  by_cases out : nxt = 1
  · subst out
    have base : s.txBase = place s.iss 1 := opening.base
    refine .streaming 0 0 0
      { state := rfl
        unaEq := by rw [place_zero, base]; exact ackEq
        nxtEq := by rw [place_zero, base]; exact opening.nxtEq
        maxEq := by rw [place_zero, base]; exact opening.maxEq
        order := by omega
        notQueued := fun _ => ⟨Nat.zero_le _, opening.notSent⟩
        notSent := fun _ => ⟨rfl, Nat.zero_le _⟩
        acked := by omega
        fin := fun seq known => absurd (opening.noFin.symm.trans known) (by simp)
        sentFin := by omega
        drained := by simp }
  · have zero : nxt = 0 := by omega
    have nxtEq : s.sndNxt = s.iss := by rw [opening.nxtEq, zero, place_zero]
    exact .behind (isLate nxtEq)
      { state := rfl
        notDone := by simp
        una := ackEq
        base := opening.base
        nxtEq
        maxEq := opening.maxEq
        notSent := opening.notSent
        noFin := opening.noFin
        quiet := opening.quiet
        noTimer := rfl
        placed := fun queued => absurd (opening.notQueued.symm.trans queued) (by simp) }

theorem dropAcked_empty (ack : Seq) (empty : c.tx.len = 0) : c.dropAcked ack = c := by
  simp only [Core.dropAcked, empty, Nat.min_zero, Ring.discard, lt_irrefl, if_false]
  split
  · rw [show c.txBase + BitVec.ofNat 32 0 = c.txBase from place_zero c.txBase]
  · rfl

theorem dropAcked_place {acked : ℕ} (positive : 0 < acked)
    (within : acked ≤ 2 ^ 31) :
    c.dropAcked (place c.txBase acked) =
      { c with
        tx := c.tx.discard (min acked c.tx.len)
        txBase := place c.txBase (min acked c.tx.len) } := by
  have before : lt c.txBase (place c.txBase acked) = true := by
    have := (@lt_place_iff 32 0 _ c.txBase (by omega) (by omega)).mpr positive
    simpa using this
  simp only [Core.dropAcked, before, if_true]
  rw [place_sub_self (by omega), add_ofNat]

theorem acked (inv : SendInv late misplaced c.toSendSide) {ack : Seq}
    (synchronized : c.state.synchronized) (new : lt c.sndUna ack)
    (sent : lt c.sndMax ack = false) :
    SendInv late misplaced (c.recordAck ack).toSendSide := by
  have small := WellFormed.len_lt inv.tx
  cases inv.phase with
  | closed closed => simp [closed, State.synchronized] at synchronized
  | opening nxt top opening =>
    rcases opening.state with state | state <;> simp [state, State.synchronized] at synchronized
  | closing nxt top closing =>
    have order := closing.order
    obtain ⟨steps, reached, ahead, within⟩ := closing.ack_eq new sent
    have distance : place c.iss steps = ack := reached.symm
    have base : c.txBase = place c.iss 1 := closing.base
    have nxtEq : (if lt c.sndNxt ack then ack else c.sndNxt) = place c.txBase (max nxt steps - 1) := by
      rw [← distance, show c.sndNxt = place c.iss nxt from closing.nxtEq,
        max_place c.iss (by omega) (by omega), base, place_place]
      congr 1
      omega
    have acksFin : steps = 2 → c.acksFin ack = true := by
      rintro rfl
      obtain ⟨seq, known⟩ := ne_none_iff_exists'.mp (closing.sentFin (by omega))
      have known' : c.finSeq = some seq := known
      simp only [SendSide.acksFin, known', any_some, ← distance]
      rcases closing.fin seq known with rfl | ⟨_, rfl⟩
      · exact (lt_place_iff c.iss (by omega) (by omega)).mpr (by omega)
      · simpa using (@lt_place_iff 32 0 2 c.iss (by omega) (by omega)).mpr
          (by omega)
    simp only [Core.recordAck, dropAcked_empty ack closing.empty]
    refine ⟨inv.tx, inv.scale, inv.window, .streaming (steps - 1) (max nxt steps - 1) (top - 1)
      { state := synchronized
        unaEq := ?_
        nxtEq := nxtEq
        maxEq := ?_
        order := by omega
        notQueued := fun notQueued => absurd (closing.queued.symm.trans notQueued) (by simp)
        notSent := ?_
        acked := ?_
        fin := ?_
        sentFin := ?_
        drained := fun _ => closing.empty }⟩
    · change ack = place c.txBase (steps - 1)
      rw [← distance, base, place_place]
      congr 1
      omega
    · change c.sndMax = place c.txBase (top - 1)
      rw [show c.sndMax = place c.iss top from closing.maxEq, base, place_place]
      congr 1
      omega
    · intro open'
      simp only [Bool.or_eq_false_iff] at open'
      have early := closing.notSent open'.1
      have notTwo : steps ≠ 2 := by
        intro two
        simp [acksFin two] at open'
      exact ⟨by omega, by omega⟩
    · intro finAcked
      refine ⟨show c.tx.len = 0 from closing.empty, ?_⟩
      have two : steps = 2 := by omega
      have all : top = 2 := by omega
      have : ack = c.sndMax := by
        rw [← distance, show c.sndMax = place c.iss top from closing.maxEq, two, all]
      simp [this]
    · intro seq known
      refine ⟨closing.queued, ?_⟩
      change seq = place c.txBase c.tx.len ∨ _
      rw [show c.tx.len = 0 from closing.empty, place_zero]
      rcases closing.fin seq known with rfl | ⟨isMisplaced, rfl⟩
      · exact Or.inl base.symm
      · exact Or.inr ⟨isMisplaced, rfl, base.symm⟩
    · intro full
      have full : top - 1 = c.tx.len + 1 := full
      have empty : c.tx.len = 0 := closing.empty
      exact closing.sentFin (by omega)
  | behind late behind =>
    exfalso
    have una : c.sndUna = c.sndMax := behind.una.trans behind.maxEq.symm
    rw [una] at new
    simp [sent] at new
  | streaming una nxt top streaming =>
    have order := streaming.order
    obtain ⟨acked, reached, past, within⟩ := streaming.ack_eq small new sent
    have distance : place c.txBase acked = ack := reached.symm
    have nxtEq : (if lt c.sndNxt ack then ack else c.sndNxt) = place c.txBase (max nxt acked) := by
      rw [← distance, show c.sndNxt = place c.txBase nxt from streaming.nxtEq]
      exact max_place c.txBase (by omega) (by omega)
    have acksFin : c.tx.len < acked → c.acksFin ack = true := by
      intro all
      obtain ⟨seq, known⟩ := ne_none_iff_exists'.mp (streaming.sentFin (by omega))
      have known' : c.finSeq = some seq := known
      simp only [SendSide.acksFin, known', any_some, ← distance]
      rcases (streaming.fin seq known).2 with rfl | ⟨_, empty, before⟩
      · exact (lt_place_iff c.txBase (by omega) (by omega)).mpr all
      · rw [show c.txBase = place seq 1 from before.symm, place_place]
        simpa using (@lt_place_iff 32 0 (1 + acked) seq (by omega)
          (by omega)).mpr (by omega)
    have len : (c.tx.discard (min acked c.tx.len)).len = c.tx.len - acked := by
      rw [Ring.len_discard]
      omega
    have dropped := @dropAcked_place c acked (by omega) (by omega)
    simp only [Core.recordAck, ← distance, dropped]
    rw [distance, nxtEq]
    have moved : ∀ steps, min acked c.tx.len ≤ steps →
        place c.txBase steps =
          place (place c.txBase (min acked c.tx.len)) (steps - min acked c.tx.len) := by
      intro steps bound
      rw [place_place]
      congr 1
      omega
    refine ⟨(Ring.unrolled_discard inv.tx (Nat.min_le_right _ _)).2, inv.scale, inv.window,
      .streaming (acked - min acked c.tx.len) (max nxt acked - min acked c.tx.len)
        (top - min acked c.tx.len)
        { state := synchronized
          unaEq := ?_
          nxtEq := moved _ (by omega)
          maxEq := ?_
          order := by rw [len]; omega
          notQueued := ?_
          notSent := ?_
          acked := ?_
          fin := ?_
          sentFin := ?_
          drained := ?_ }⟩
    · change ack = _
      rw [← moved _ (by omega), distance]
    · rw [← moved _ (by omega)]
      exact streaming.maxEq
    · intro notQueued
      have before := streaming.notQueued notQueued
      have notAll : ¬ c.tx.len < acked := by omega
      refine ⟨by rw [len]; omega, ?_⟩
      change (c.finSent || c.acksFin ack) = false
      rw [show c.finSent = false from before.2, Bool.false_or]
      cases known : c.finSeq with
      | none => simp [SendSide.acksFin, known]
      | some seq =>
        have queued : c.finQueued = true := (streaming.fin seq known).1
        simp [show c.finQueued = false from notQueued] at queued
    · intro open'
      simp only [Bool.or_eq_false_iff] at open'
      have before := streaming.notSent open'.1
      have notAll : ¬ c.tx.len < acked := by
        intro all
        simp [acksFin all] at open'
      exact ⟨by omega, by rw [len]; omega⟩
    · intro finAcked
      have all : ack = c.sndMax := by
        rw [← distance, show c.sndMax = place c.txBase top from streaming.maxEq]
        congr 1
        omega
      exact ⟨by rw [len]; omega, by simp [all]⟩
    · intro seq known
      obtain ⟨queued, placed⟩ := streaming.fin seq known
      refine ⟨queued, ?_⟩
      rw [len]
      rcases placed with rfl | ⟨isMisplaced, empty, before⟩
      · refine Or.inl ?_
        rw [place_place]
        congr 1
        omega
      · have empty : c.tx.len = 0 := empty
        refine Or.inr ⟨isMisplaced, by omega, ?_⟩
        rw [empty, Nat.min_zero, place_zero]
        exact before
    · intro full
      rw [len] at full
      exact streaming.sentFin (by omega)
    · intro done
      have := streaming.drained done
      rw [len]
      omega

theorem changeState {s : SendSide} (inv : SendInv late misplaced s)
    (before : s.state.synchronized) {state : State} (after : state.synchronized)
    (drained : state = .finWait2 ∨ state = .timeWait →
      s.tx.len = 0 ∧ s.finSeq ≠ none ∨ s.state = .finWait2 ∨ s.state = .timeWait) :
    SendInv late misplaced { s with state } := by
  refine ⟨inv.tx, inv.scale, inv.window, ?_⟩
  cases inv.phase with
  | closed closed => simp [closed, State.synchronized] at before
  | opening nxt top opening =>
    rcases opening.state with state | state <;> simp [state, State.synchronized] at before
  | closing nxt top closing => exact .closing nxt top { closing with state := after }
  | behind isLate behind =>
    have notDone : ¬ (state = .finWait2 ∨ state = .timeWait) := by
      intro done
      rcases drained done with ⟨_, sent⟩ | finWait2 | timeWait
      · exact sent behind.noFin
      · exact behind.notDone.1 finWait2
      · exact behind.notDone.2 timeWait
    exact .behind isLate { behind with state := after, notDone := not_or.mp notDone }
  | streaming una nxt top streaming =>
    refine .streaming una nxt top { streaming with state := after, drained := fun done => ?_ }
    rcases drained done with ⟨empty, _⟩ | done
    · exact empty
    · exact streaming.drained done

theorem empty_of_acksFin {s : SendSide} (inv : SendInv late misplaced s)
    (synchronized : s.state.synchronized) (acksFin : s.acksFin s.sndUna) :
    s.tx.len = 0 ∧ s.finSeq ≠ none := by
  have small := WellFormed.len_lt inv.tx
  cases known : s.finSeq with
  | none => simp [SendSide.acksFin, known] at acksFin
  | some seq =>
    simp only [SendSide.acksFin, known, any_some] at acksFin
    refine ⟨?_, by simp⟩
    cases inv.phase with
    | closed closed => simp [closed, State.synchronized] at synchronized
    | opening nxt top opening => simp [opening.noFin] at known
    | closing nxt top closing => exact closing.empty
    | behind isLate behind => simp [behind.noFin] at known
    | streaming una nxt top streaming =>
      have order := streaming.order
      rcases (streaming.fin seq known).2 with rfl | ⟨_, empty, _⟩
      · rw [streaming.unaEq] at acksFin
        have := (lt_place_iff s.txBase (by omega) (by omega)).mp acksFin
        exact (streaming.acked (by omega)).1
      · exact empty

theorem finAcked (inv : SendInv late misplaced c.toSendSide)
    (acksFin : c.acksFin c.sndUna) : SendInv late misplaced c.finAcked.toSendSide := by
  cases state : c.state <;> simp only [Core.finAcked, state]
  case finWait1 =>
    have synchronized : c.state.synchronized := by rw [state]; rfl
    exact inv.changeState synchronized rfl fun _ =>
      Or.inl (inv.empty_of_acksFin synchronized acksFin)
  case closing =>
    have synchronized : c.state.synchronized := by rw [state]; rfl
    exact inv.changeState synchronized rfl fun _ =>
      Or.inl (inv.empty_of_acksFin synchronized acksFin)
  case lastAck => exact ⟨inv.tx, inv.scale, inv.window, .closed rfl⟩
  all_goals exact inv

theorem takeFin (inv : SendInv late misplaced c.toSendSide) :
    SendInv late misplaced c.takeFin.toSendSide := by
  have change : ∀ state, c.state.synchronized → state.synchronized →
      (state = .finWait2 ∨ state = .timeWait →
        c.tx.len = 0 ∧ c.finSeq ≠ none ∨ c.state = .finWait2 ∨ c.state = .timeWait) →
      c.takeFin.state = state → SendInv late misplaced c.takeFin.toSendSide := by
    intro state before after drained same
    have changed := inv.changeState before after drained
    rw [← same] at changed
    exact changed
  cases state : c.state
  case established =>
    exact change .closeWait (by rw [state]; rfl) rfl (by simp) (by simp [Core.takeFin, state])
  case finWait1 =>
    have synchronized : c.state.synchronized := by rw [state]; rfl
    by_cases acksFin : c.acksFin c.sndUna
    · exact change .timeWait synchronized rfl
        (fun _ => Or.inl (inv.empty_of_acksFin synchronized acksFin))
        (by simp [Core.takeFin, state, acksFin])
    · exact change .closing synchronized rfl (by simp) (by simp [Core.takeFin, state, acksFin])
  case finWait2 =>
    exact change .timeWait (by rw [state]; rfl) rfl (fun _ => Or.inr (Or.inl state))
      (by simp [Core.takeFin, state])
  all_goals
    have same : c.takeFin.toSendSide = c.toSendSide := by
      simp only [Core.takeFin, state]
      rw [← state]
    rw [same]
    exact inv

theorem timeout {s : SendSide} (inv : SendInv late misplaced s) (timer : s.retransmitting)
    (place' : s.finQueued → lt s.sndUna s.txBase → misplaced) :
    SendInv late misplaced { s with sndNxt := s.sndUna, finSent := false } := by
  refine ⟨inv.tx, inv.scale, inv.window, ?_⟩
  cases inv.phase with
  | closed closed => exact .closed closed
  | opening nxt top opening =>
    exact .opening 0 top { opening with
      nxtEq := by rw [place_zero]; exact opening.una
      order := by have := opening.order; omega
      notSent := rfl }
  | closing nxt top closing =>
    refine .closing 0 top { closing with
      nxtEq := by rw [place_zero]; exact closing.una
      order := by have := closing.order; omega
      notSent := by simp
      placed := fun _ => place' closing.queued ?_ }
    rw [closing.una, closing.base]
    simpa using (@lt_place_iff 32 0 1 s.iss (by omega) (by omega)).mpr
      (by omega)
  | behind isLate behind => simp [behind.noTimer] at timer
  | streaming una nxt top streaming =>
    have order := streaming.order
    have notAcked : una = 0 := by
      by_contra acked
      have := (streaming.acked (by omega)).2
      simp [timer] at this
    exact .streaming una una top { streaming with
      nxtEq := streaming.unaEq
      order := by change _ ∧ _ ∧ _ ≤ s.tx.len + 1 ∧ _; omega
      notQueued := fun notQueued => ⟨(streaming.notQueued notQueued).1, rfl⟩
      notSent := fun _ => ⟨notAcked, by omega⟩ }

theorem timers {s : SendSide} (inv : SendInv late misplaced s) {probe persisting : Bool}
    {retransmitting : Bool} (stops : retransmitting → s.retransmitting)
    (idle : s.probe = false ∧ s.persisting = false → s.inFlight ≠ 2 ^ 32 - 1 ∧
      s.state.synchronized ∨ probe = false ∧ persisting = false) :
    SendInv late misplaced { s with probe, persisting, retransmitting } := by
  refine ⟨inv.tx, inv.scale, inv.window, ?_⟩
  cases inv.phase with
  | closed closed => exact .closed closed
  | opening nxt top opening =>
    refine .opening nxt top { opening with quiet := ?_ }
    rcases idle opening.quiet with ⟨_, synchronized⟩ | quiet
    · rcases opening.state with state | state <;>
        simp [state, State.synchronized] at synchronized
    · exact quiet
  | closing nxt top closing => exact .closing nxt top { closing with }
  | behind isLate behind =>
    refine .behind isLate { behind with quiet := ?_, noTimer := ?_ }
    · rcases idle behind.quiet with ⟨notHuge, _⟩ | quiet
      · exact absurd behind.inFlight_eq notHuge
      · exact quiet
    · apply Bool.eq_false_of_not_eq_true
      intro runs
      simp [behind.noTimer] at stops
      simp [stops] at runs
  | streaming una nxt top streaming =>
    refine .streaming una nxt top { streaming with acked := fun acked => ?_ }
    have before := streaming.acked acked
    refine ⟨before.1, ?_⟩
    apply Bool.eq_false_of_not_eq_true
    intro runs
    simp [before.2] at stops
    simp [stops] at runs

theorem setWindow {s : SendSide} (inv : SendInv late misplaced s) {sndWnd : ℕ}
    (bounded : sndWnd ≤ widestWindow) : SendInv late misplaced { s with sndWnd } := by
  refine ⟨inv.tx, inv.scale, bounded, ?_⟩
  cases inv.phase with
  | closed closed => exact .closed closed
  | opening nxt top opening => exact .opening nxt top { opening with }
  | closing nxt top closing => exact .closing nxt top { closing with }
  | behind isLate behind => exact .behind isLate { behind with }
  | streaming una nxt top streaming => exact .streaming una nxt top { streaming with }

theorem shutdown {s : SendSide} (inv : SendInv late misplaced s) (state : State)
    (first : s.finQueued = false)
    (from' : (s.state = .synReceived ∨ s.state = .established) ∧ state = .finWait1 ∨
      s.state = .closeWait ∧ state = .lastAck)
    (place' : lt s.sndNxt s.txBase → s.tx.len = 0 → misplaced) :
    SendInv late misplaced { s with state, finQueued := true } := by
  have after : state.synchronized ∧ state ≠ .finWait2 ∧ state ≠ .timeWait := by
    rcases from' with ⟨_, rfl⟩ | ⟨_, rfl⟩ <;> simp [State.synchronized]
  refine ⟨inv.tx, inv.scale, inv.window, ?_⟩
  cases inv.phase with
  | closed closed => simp [closed] at from'
  | opening nxt top opening =>
    have order := opening.order
    refine .closing nxt top
      { opening with
        state := after.1
        order := by omega
        queued := rfl
        notSent := fun _ => by omega
        placed := fun behind => place' ?_ opening.empty
        fin := fun seq known => absurd (opening.noFin.symm.trans known) (by simp)
        sentFin := by omega }
    rw [opening.nxtEq, opening.base, behind]
    exact (@lt_place_iff 32 0 1 s.iss (by omega) (by omega)).mpr (by omega)
  | closing nxt top closing => simp [closing.queued] at first
  | behind isLate behind =>
    exact .behind isLate { behind with
      state := after.1
      notDone := after.2
      placed := fun _ empty => place' behind.lt_base empty }
  | streaming una nxt top streaming =>
    exact .streaming una nxt top { streaming with
      state := after.1
      notQueued := by simp
      fin := fun seq known => ⟨rfl, (streaming.fin seq known).2⟩
      drained := fun done => absurd done (not_or.mpr after.2) }

theorem push {s : SendSide} (inv : SendInv late misplaced s) {tx : Ring}
    (wellFormed : tx.WellFormed) (grows : s.tx.len ≤ tx.len)
    (writable : s.state = .established ∨ s.state = .closeWait) (more : s.finQueued = false) :
    SendInv late misplaced { s with tx } := by
  refine ⟨wellFormed, inv.scale, inv.window, ?_⟩
  cases inv.phase with
  | closed closed => simp [closed] at writable
  | opening nxt top opening =>
    rcases opening.state with state | state <;> simp [state] at writable
  | closing nxt top closing => simp [closing.queued] at more
  | behind isLate behind =>
    exact .behind isLate { behind with placed := by simp [more] }
  | streaming una nxt top streaming =>
    have order := streaming.order
    have notQueued := streaming.notQueued more
    have notSent := streaming.notSent notQueued.2
    refine .streaming una nxt top { streaming with
      order := by change _ ∧ _ ∧ _ ≤ tx.len + 1 ∧ _; omega
      notQueued := fun _ => ⟨by change _ ≤ tx.len; omega, notQueued.2⟩
      notSent := fun _ => ⟨notSent.1, by change _ ≤ tx.len; omega⟩
      acked := by omega
      fin := ?_
      sentFin := by change _ = tx.len + 1 → _; omega
      drained := ?_ }
    · intro seq known
      exact absurd (streaming.fin seq known).1 (by simp [more])
    · intro done
      rcases writable with state | state <;> simp [state] at done

theorem dropBuffers {s : SendSide} (inv : SendInv late misplaced s)
    (waiting : s.state = .timeWait) : SendInv late misplaced { s with tx := .new 0 } := by
  refine ⟨Ring.wellFormed_new 0, inv.scale, inv.window, ?_⟩
  cases inv.phase with
  | closed closed => simp [closed] at waiting
  | opening nxt top opening =>
    rcases opening.state with state | state <;> simp [state] at waiting
  | closing nxt top closing => exact .closing nxt top { closing with empty := rfl }
  | behind isLate behind => exact absurd waiting behind.notDone.2
  | streaming una nxt top streaming =>
    have empty := streaming.drained (Or.inr waiting)
    have same : (Ring.new 0).len = s.tx.len := by rw [empty]; rfl
    exact .streaming una nxt top { streaming with
      order := by simpa only [same] using streaming.order
      notQueued := by simpa only [same] using streaming.notQueued
      notSent := by simpa only [same] using streaming.notSent
      acked := by simpa only [same] using streaming.acked
      fin := by simpa only [same] using streaming.fin
      sentFin := by simpa only [same] using streaming.sentFin
      drained := fun _ => rfl }

theorem move {before after : Core} {happened : List Happening}
    (inv : SendInv late misplaced before.toSendSide) (move : Move ctx before happened after)
    (isLate : ctx.late → late) (isMisplaced : ctx.misplaced → misplaced) (notWild : ¬ ctx.wild) :
    SendInv late misplaced after.toSendSide := by
  cases move with
  | offer =>
    obtain ⟨adv, same⟩ := offered_eq before
    rw [same]
    exact inv
  | sendSyn flags handshake =>
    exact inv.sendSyn (handshake.imp And.left And.left)
  | send n fin psh synchronized open' queued something allowed last =>
    exact inv.send synchronized open' queued something allowed last
  | resend => exact inv
  | sendAck => exact inv
  | sendRst => exact inv
  | simultaneous seg _ opening => exact inv.simultaneous seg opening
  | connected seg _ opening _ _ acks nxtLate wild =>
    obtain ⟨nxt, top, phase⟩ := inv.opening_of (Or.inl opening)
    exact begin' phase acks (fun nxt => isLate (nxtLate nxt)) (fun max => notWild (wild max))
      inv.tx rfl (synScale_le seg inv.scale) (synWindow_le (c := before) seg)
  | established raw seg _ _ opening _ acks nxtLate wild =>
    obtain ⟨nxt, top, phase⟩ := inv.opening_of (Or.inr opening)
    exact begin' phase acks (fun nxt => isLate (nxtLate nxt)) (fun max => notWild (wild max))
      inv.tx rfl inv.scale (shift_le_widestWindow seg.window inv.scale)
  | acked raw seg _ _ synchronized _ new sent => exact inv.acked synchronized new sent
  | finAcked acksFin => exact inv.finAcked acksFin
  | window window persisting timer =>
    refine (inv.setWindow (shift_le_widestWindow window inv.scale)).timers id fun quiet => Or.inr ?_
    refine ⟨quiet.1, Bool.eq_false_of_not_eq_true fun runs => ?_⟩
    simp [timer runs] at quiet
  | data fits raw seg =>
    have same : (before.takeBytes fits seg).toSendSide = before.toSendSide := by
      simp only [Core.takeBytes]
      split <;> rfl
    rw [same]
    exact inv
  | fin => exact inv.takeFin
  | timeout timer place' =>
    exact inv.timeout timer fun queued behind => isMisplaced (place' queued behind)
  | persist timer =>
    refine inv.timers id fun quiet => ?_
    simp [timer] at quiet
  | startPersist synchronized waiting idle =>
    exact inv.timers id fun _ => Or.inl ⟨by rw [idle]; omega, synchronized⟩
  | stopRetransmit => exact inv.timers (by simp) fun quiet => Or.inr quiet
  | shutdown state first from' place' =>
    exact inv.shutdown state first from' fun behind empty => isMisplaced (place' behind empty)
  | release => exact inv
  | close => exact ⟨inv.tx, inv.scale, inv.window, .closed rfl⟩
  | push fits bytes happenings writable more =>
    obtain ⟨tx, n, eq, wellFormed, _, _, len, _⟩ := Ring.push_cases fits inv.tx bytes
    simp only [eq]
    exact inv.push wellFormed (by omega) writable more
  | pop => exact inv
  | popLook => exact inv

theorem fresh {tcb : Tcb} (fresh : Conn.Fresh tcb) :
    SendInv late misplaced tcb.core.toSendSide := by
  have opening : ∀ s : SendSide, (s.state = .synSent ∨ s.state = .synReceived) →
      s.sndUna = s.iss → s.txBase = place s.iss 1 → s.sndNxt = s.iss → s.sndMax = s.iss →
      s.tx.len = 0 → s.finQueued = false → s.finSent = false → s.finSeq = none →
      s.probe = false ∧ s.persisting = false → Opening s 0 0 := by
    intro s state una base nxt max empty queued sent fin quiet
    exact ⟨state, una, base, by rw [place_zero, nxt], by rw [place_zero, max], by omega, empty,
      queued, sent, fin, quiet⟩
  cases fresh with
  | connecting =>
    exact ⟨Ring.wellFormed_new _, Nat.zero_le _, Nat.zero_le _, .opening 0 0
      (opening _ (Or.inl rfl) rfl rfl rfl rfl rfl rfl rfl rfl ⟨rfl, rfl⟩)⟩
  | accepting listener localAddr remoteAddr buffers rcvMss iss syn =>
    let made := (Tcb.new localAddr remoteAddr .synReceived buffers rcvMss iss).core
    exact ⟨Ring.wellFormed_new _, synScale_le (c := made) syn (Nat.zero_le _),
      synWindow_le (c := made) syn, .opening 0 0
        (opening _ (Or.inr rfl) rfl rfl rfl rfl rfl rfl rfl rfl ⟨rfl, rfl⟩)⟩

end SendInv

end EspDevkit.Net
