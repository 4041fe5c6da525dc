import EspDevkit.Net.FinPlace
import EspDevkit.Net.ReceiveOrder

/-!
# The stream as it is sent

Every segment a connection sends says the truth about the bytes the
application wrote before it: its data is a piece of them, at the place its
sequence number tells, and a FIN comes after the last of them.
-/

namespace EspDevkit.Net

open SerialNumber List

def sendingsFrom (sofar : List UInt8) : List Happening → List (List UInt8 × Datagram)
  | [] => []
  | happening :: history =>
    happening.sent?.toList.map (sofar, ·) ++
      sendingsFrom (sofar ++ happening.acceptedBytes) history

def sendings (history : List Happening) : List (List UInt8 × Datagram) :=
  sendingsFrom [] history

theorem sendingsFrom_append (sofar : List UInt8) (history later : List Happening) :
    sendingsFrom sofar (history ++ later) =
      sendingsFrom sofar history ++ sendingsFrom (sofar ++ acceptedIn history) later := by
  induction history generalizing sofar with
  | nil => simp [sendingsFrom, acceptedIn]
  | cons happening history ih => simp [sendingsFrom, ih, acceptedIn]

@[simp]
theorem sendings_append (history later : List Happening) :
    sendings (history ++ later) =
      sendings history ++ sendingsFrom (acceptedIn history) later := by
  simp [sendings, sendingsFrom_append]

theorem mem_sentIn_of_sendingsFrom {sofar before : List UInt8} {history : List Happening}
    {d : Datagram} (sending : (sofar, d) ∈ sendingsFrom before history) : d ∈ sentIn history := by
  induction history generalizing before with
  | nil => simp [sendingsFrom] at sending
  | cons happening history ih =>
    simp only [sendingsFrom, mem_append] at sending
    rcases sending with now | later
    · simp only [mem_map, Option.mem_toList, Prod.mk.injEq] at now
      obtain ⟨_, sent, _, rfl⟩ := now
      exact mem_filterMap.mpr ⟨happening, mem_cons_self, sent⟩
    · have rest := ih later
      simp only [sentIn, mem_filterMap] at rest ⊢
      obtain ⟨event, member, sent⟩ := rest
      exact ⟨event, mem_cons_of_mem _ member, sent⟩

theorem sendingsFrom_of_nothing {sofar accepted : List UInt8} {labels : List Happening}
    {d : Datagram} (nothing : acceptedIn labels = [])
    (sending : (sofar, d) ∈ sendingsFrom accepted labels) :
    sofar = accepted ∧ d ∈ sentIn labels := by
  refine ⟨?_, mem_sentIn_of_sendingsFrom sending⟩
  induction labels generalizing accepted with
  | nil => simp [sendingsFrom] at sending
  | cons happening labels ih =>
    simp only [acceptedIn, flatMap_cons, append_eq_nil_iff] at nothing
    simp only [sendingsFrom, nothing.1, append_nil, mem_append, mem_map,
      Prod.mk.injEq] at sending
    rcases sending with ⟨_, _, rfl, _⟩ | later
    · rfl
    · exact ih nothing.2 later

/-- What a segment tells of the stream of a connection that has accepted so
many bytes. -/
structure Carries (iss : Seq) (accepted : List UInt8) (d : Datagram) : Prop where
  syn : d.flags.syn → d.seq = iss ∧ d.data = [] ∧ d.flags.fin = false
  data : d.data ≠ [] → ∃ pos, d.seq = place iss (1 + pos) ∧ d.data <+: accepted.drop pos ∧
    accepted.length < pos + 2 ^ 31
  fin : d.flags.fin → place d.seq d.data.length = finPlace iss accepted ∨
    d.seq = iss ∧ d.data = [] ∧ accepted = []

def SendSide.early (s : SendSide) : Prop :=
  place s.sndNxt 1 = s.txBase ∨ place s.sndUna 1 = s.txBase

/-- What was accepted has been dropped once it was acknowledged, or is in the
send buffer; as long as a send number is at the SYN, all of it is. -/
structure Held (s : SendSide) (accepted dropped : List UInt8) : Prop where
  split : accepted = dropped ++ s.tx.contents
  base : s.txBase = place s.iss (1 + dropped.length)
  early : s.early → dropped = []

structure StreamSent (c : Core) (history : List Happening) : Prop where
  held : ∃ dropped, Held c.toSendSide (acceptedIn history) dropped
  carries : ∀ sofar d, (sofar, d) ∈ sendings history → Carries c.iss sofar d
  past : ∀ sofar d, (sofar, d) ∈ sendings history → sofar <+: acceptedIn history
  ended : ∀ sofar d, (sofar, d) ∈ sendings history → d.flags.fin →
    c.finQueued ∧ sofar = acceptedIn history
  synOut : (∃ d ∈ sentIn history, d.flags.syn) → c.state.opening → c.sndMax ≠ c.iss

namespace Carries

variable {iss : Seq} {accepted : List UInt8} {d : Datagram}

theorem of_nothing (noSyn : d.flags.syn = false) (noFin : d.flags.fin = false)
    (empty : d.data = []) : Carries iss accepted d :=
  ⟨by simp [noSyn], fun some => absurd empty some, by simp [noFin]⟩

end Carries

namespace Core.Sends

variable {c : Core} {seq : Seq} {flags : Flags} {offset n : ℕ} {d : Datagram}

theorem data_of_held (sends : c.Sends seq flags offset n d) (wf : c.tx.WellFormed)
    (held : offset + n ≤ c.tx.len) : d.data = (c.tx.contents.drop offset).take n := by
  have all := Ring.length_contents wf
  have copied : ((c.tx.contents.drop offset).take n).length = n := by
    rw [length_take, length_drop]
    omega
  rw [sends.dataEq, Ring.readAt_eq wf, copied, Nat.sub_self]
  simp

theorem data_nil (sends : c.Sends seq flags offset 0 d) (wf : c.tx.WellFormed) : d.data = [] :=
  eq_nil_of_length_eq_zero (sends.length_data wf)

end Core.Sends

namespace Held

variable {s : SendSide} {accepted dropped : List UInt8}

theorem length_accepted (held : Held s accepted dropped) (wf : s.tx.WellFormed) :
    accepted.length = dropped.length + s.tx.len := by
  rw [held.split, length_append, Ring.length_contents wf]

theorem piece (held : Held s accepted dropped) (wf : s.tx.WellFormed) (offset n : ℕ) :
    place s.txBase offset = place s.iss (1 + (dropped.length + offset)) ∧
      (s.tx.contents.drop offset).take n <+: accepted.drop (dropped.length + offset) ∧
      accepted.length < dropped.length + offset + 2 ^ 31 := by
  have small := WellFormed.len_lt wf
  have all := held.length_accepted wf
  refine ⟨?_, ?_, by omega⟩
  · rw [held.base, place_place]
    congr 1
    omega
  · rw [held.split, drop_append, drop_eq_nil_of_le (Nat.le_add_right _ _),
      nil_append, Nat.add_sub_cancel_left]
    exact take_prefix _ _

theorem ends (held : Held s accepted dropped) (wf : s.tx.WellFormed) :
    place s.txBase s.tx.len = finPlace s.iss accepted := by
  rw [held.base, place_place, finPlace, held.length_accepted wf]
  congr 1
  omega

/-- As long as the SYN is not acknowledged nothing has left the buffer. -/
theorem of_opening (held : Held s accepted dropped) {nxt top : ℕ} (opening : Opening s nxt top) :
    dropped = [] :=
  held.early (Or.inr (by rw [opening.una, opening.base]))

theorem of_closing (held : Held s accepted dropped) {misplaced : Prop} {nxt top : ℕ}
    (closing : Closing misplaced s nxt top) : dropped = [] :=
  held.early (Or.inr (by rw [closing.una, closing.base]))

theorem of_behind (held : Held s accepted dropped) {misplaced : Prop}
    (behind : Behind misplaced s) : dropped = [] :=
  held.early (Or.inl (by rw [behind.nxtEq, behind.base]))

theorem renumber (held : Held s accepted dropped) {s' : SendSide} (iss : s'.iss = s.iss)
    (tx : s'.tx = s.tx) (base : s'.txBase = s.txBase) (early : s'.early → dropped = []) :
    Held s' accepted dropped :=
  ⟨by rw [tx]; exact held.split, by rw [base, iss]; exact held.base, early⟩

end Held

namespace Carries

variable {c : Core} {accepted dropped : List UInt8} {n : ℕ} {d : Datagram}

theorem of_piece {flags : Flags} {offset : ℕ} (held : Held c.toSendSide accepted dropped)
    (wf : c.tx.WellFormed) (noSyn : flags.syn = false) (inside : offset + n ≤ c.tx.len)
    (last : flags.fin → offset + n = c.tx.len)
    (sends : c.Sends (place c.txBase offset) flags offset n d) : Carries c.iss accepted d := by
  have length := sends.length_data wf
  obtain ⟨here, piece, near⟩ := held.piece wf offset n
  refine ⟨by simp [sends.flagsEq, noSyn], fun _ => ⟨dropped.length + offset, ?_, ?_, near⟩, ?_⟩
  · rw [sends.seqEq]
    exact here
  · rw [sends.data_of_held wf inside]
    exact piece
  · intro fin
    rw [sends.flagsEq] at fin
    rw [sends.seqEq, length, place_place, last fin]
    exact Or.inl (held.ends wf)

theorem of_send {fin psh : Bool} (held : Held c.toSendSide accepted dropped)
    (inv : SendInv True True c.toSendSide) (synchronized : c.state.synchronized)
    (open' : c.finSent = false) (queued : n ≤ c.unsent)
    (allowed : n ≤ c.sndWnd - c.inFlight ∨ c.probe ∧ n ≤ 1)
    (last : fin → c.finQueued ∧ n = c.unsent)
    (sends : c.Sends c.sndNxt { ack := true, psh, fin } (c.sndNxt - c.txBase).toNat n d) :
    Carries c.iss accepted d := by
  have wf := inv.tx
  have small := WellFormed.len_lt wf
  have all := held.length_accepted wf
  have alone : n = 0 → (fin → d.seq = c.iss ∧ accepted = [] ∨
      d.seq = place c.iss 1 ∧ accepted = []) → Carries c.iss accepted d := by
    rintro rfl place'
    have empty := sends.data_nil wf
    refine ⟨by simp [sends.flagsEq], fun some => absurd empty some, fun isFin => ?_⟩
    rw [sends.flagsEq] at isFin
    rcases place' isFin with ⟨seq, nothing⟩ | ⟨seq, nothing⟩
    · exact Or.inr ⟨seq, empty, nothing⟩
    · exact Or.inl (by rw [seq, empty, nothing]; exact place_zero _)
  cases inv.phase with
  | closed closed => simp [closed, State.synchronized] at synchronized
  | opening nxt top opening =>
    rcases opening.state with state | state <;> simp [state, State.synchronized] at synchronized
  | closing nxt top closing =>
    have early := closing.notSent open'
    have none := held.of_closing closing
    have nothing : accepted = [] := by
      rw [none, closing.empty] at all
      exact eq_nil_of_length_eq_zero all
    refine alone (by rw [closing.unsent_eq] at queued; omega) fun _ => ?_
    rw [sends.seqEq, show c.sndNxt = place c.iss nxt from closing.nxtEq]
    by_cases first : nxt = 0
    · exact Or.inl ⟨by rw [first, place_zero], nothing⟩
    · exact Or.inr ⟨by rw [show nxt = 1 by omega], nothing⟩
  | behind isLate behind =>
    have none : n = 0 := by
      have window := inv.window
      rw [behind.inFlight_eq] at allowed
      have : widestWindow < 2 ^ 32 - 1 := by decide
      simp [behind.quiet.1] at allowed
      omega
    refine alone none fun isFin => Or.inl ⟨sends.seqEq.trans behind.nxtEq, ?_⟩
    have unsent := (last isFin).2
    rw [behind.unsent_eq] at unsent
    rw [held.of_behind behind, ← unsent, none] at all
    exact eq_nil_of_length_eq_zero all
  | streaming una nxt top streaming =>
    have within := (streaming.notSent open').2
    rw [streaming.unsent_eq small open'] at queued last
    rw [streaming.offset_eq small, show c.sndNxt = place c.txBase nxt from streaming.nxtEq] at sends
    refine of_piece held wf rfl (by omega) (fun isFin => ?_) sends
    have := (last isFin).2
    omega

theorem of_resend (held : Held c.toSendSide accepted dropped)
    (inv : SendInv True True c.toSendSide) (synchronized : c.state.synchronized)
    (inside : n ≤ c.tx.len - (c.sndUna - c.txBase).toNat)
    (sends : c.Sends c.sndUna { ack := true } (c.sndUna - c.txBase).toNat n d) :
    Carries c.iss accepted d := by
  have wf := inv.tx
  have small := WellFormed.len_lt wf
  have empty : n = 0 → Carries c.iss accepted d := by
    rintro rfl
    exact .of_nothing (by rw [sends.flagsEq]) (by rw [sends.flagsEq]) (sends.data_nil wf)
  have fromBase : c.sndUna = c.txBase → Carries c.iss accepted d := by
    intro same
    have offset : (c.sndUna - c.txBase).toNat = 0 := by simp [same]
    rw [offset] at sends inside
    exact @of_piece c accepted dropped n d { ack := true } 0 held wf rfl (by omega) (by simp)
      (by rw [place_zero, ← same]; exact sends)
  cases inv.phase with
  | closed closed => simp [closed, State.synchronized] at synchronized
  | opening nxt top opening =>
    rcases opening.state with state | state <;> simp [state, State.synchronized] at synchronized
  | closing nxt top closing =>
    have none : c.tx.len = 0 := closing.empty
    exact empty (by omega)
  | behind isLate behind => exact fromBase (behind.una.trans behind.base.symm)
  | streaming una nxt top streaming =>
    have order := streaming.order
    by_cases first : una = 0
    · exact fromBase (streaming.unaEq.trans (by rw [first, place_zero]))
    · have none : c.tx.len = 0 := (streaming.acked (by omega)).1
      exact empty (by omega)

end Carries

theorem not_early {s : SendSide} {una nxt : ℕ} (unaEq : s.sndUna = place s.txBase una)
    (nxtEq : s.sndNxt = place s.txBase nxt) (order : una ≤ nxt ∧ nxt ≤ 2 ^ 31) : ¬ s.early := by
  have apart : ∀ k ≤ 2 ^ 31, place (place s.txBase k) 1 ≠ s.txBase := by
    intro k bound same
    rw [place_place] at same
    have := (@place_inj 32 (k + 1) 0 s.txBase (by omega) (by omega)).mp (by rw [same, place_zero])
    omega
  rintro (here | here)
  · rw [nxtEq] at here
    exact apart nxt (by omega) here
  · rw [unaEq] at here
    exact apart una (by omega) here

namespace Held

variable {c : Core} {accepted dropped : List UInt8}

theorem recordSent (held : Held c.toSendSide accepted dropped)
    (inv : SendInv True True c.toSendSide) {n : ℕ} (fin : Bool)
    (synchronized : c.state.synchronized) (open' : c.finSent = false) (queued : n ≤ c.unsent) :
    Held (c.recordSent n fin).toSendSide accepted dropped := by
  have small := WellFormed.len_lt inv.tx
  have early : dropped = [] → Held (c.recordSent n fin).toSendSide accepted dropped :=
    fun none => held.renumber rfl rfl rfl fun _ => none
  cases inv.phase with
  | closed closed => simp [closed, State.synchronized] at synchronized
  | opening nxt top opening => exact early (held.of_opening opening)
  | closing nxt top closing => exact early (held.of_closing closing)
  | behind isLate behind => exact early (held.of_behind behind)
  | streaming una nxt top streaming =>
    have order := streaming.order
    have within := (streaming.notSent open').2
    have one := Bool.toNat_le fin
    rw [streaming.unsent_eq small open'] at queued
    refine held.renumber rfl rfl rfl fun stays => absurd stays ?_
    refine @not_early (c.recordSent n fin).toSendSide una (nxt + (n + fin.toNat))
      streaming.unaEq ?_ (by omega)
    change place c.sndNxt (n + fin.toNat) = _
    rw [show c.sndNxt = place c.txBase nxt from streaming.nxtEq, place_place]
    rfl

theorem recordAck (held : Held c.toSendSide accepted dropped)
    (inv : SendInv True True c.toSendSide) {ack : Seq} (synchronized : c.state.synchronized)
    (new : lt c.sndUna ack) (sent : lt c.sndMax ack = false) :
    ∃ dropped', Held (c.recordAck ack).toSendSide accepted dropped' := by
  have wf := inv.tx
  have small := WellFormed.len_lt wf
  cases inv.phase with
  | closed closed => simp [closed, State.synchronized] at synchronized
  | opening nxt top opening =>
    rcases opening.state with state | state <;> simp [state, State.synchronized] at synchronized
  | closing nxt top closing =>
    have none := held.of_closing closing
    refine ⟨dropped, ?_⟩
    simp only [Core.recordAck, SendInv.dropAcked_empty ack closing.empty]
    exact held.renumber rfl rfl rfl fun _ => none
  | behind isLate behind =>
    have una : c.sndUna = c.sndMax := behind.una.trans behind.maxEq.symm
    rw [una] at new
    simp [sent] at new
  | streaming una nxt top streaming =>
    have order := streaming.order
    obtain ⟨acked, rfl, past, within⟩ := streaming.ack_eq small new sent
    generalize countEq : min acked c.tx.len = count
    have base : c.txBase = place c.iss (1 + dropped.length) := held.base
    refine ⟨dropped ++ c.tx.contents.take count, ?_, ?_, fun stays => absurd stays ?_⟩
    · simp only [Core.recordAck, SendInv.dropAcked_place (by omega : 0 < acked)
        (by omega), countEq]
      rw [Ring.contents_discard wf (by omega), append_assoc, take_append_drop]
      exact held.split
    · simp only [Core.recordAck, SendInv.dropAcked_place (by omega : 0 < acked)
        (by omega), countEq]
      rw [length_append, length_take, Ring.length_contents wf, base, place_place]
      congr 1
      omega
    · refine @not_early _ (acked - count) (max nxt acked - count) ?_ ?_ (by omega)
      · simp only [Core.recordAck, SendInv.dropAcked_place (by omega : 0 < acked)
          (by omega), countEq]
        rw [place_place]
        congr 1
        omega
      · simp only [Core.recordAck, SendInv.dropAcked_place (by omega : 0 < acked)
          (by omega), countEq]
        rw [show c.sndNxt = place c.txBase nxt from streaming.nxtEq,
          max_place c.txBase (by omega) (by omega), place_place]
        congr 1
        omega

end Held

namespace StreamSent

variable {ctx : Context} {c : Core} {history : List Happening}

theorem keep (sent : StreamSent c history) {c' : Core} {labels : List Happening}
    (held : ∃ dropped, Held c'.toSendSide (acceptedIn history) dropped) (iss : c'.iss = c.iss)
    (queued : c.finQueued → c'.finQueued) (nothing : acceptedIn labels = [])
    (synOut : c'.state.opening → c.state.opening ∧ (c.sndMax ≠ c.iss → c'.sndMax ≠ c'.iss))
    (new : ∀ d ∈ sentIn labels, Carries c.iss (acceptedIn history) d ∧
      (d.flags.fin → c'.finQueued) ∧ (d.flags.syn → c'.sndMax ≠ c'.iss)) :
    StreamSent c' (history ++ labels) := by
  have accepted : acceptedIn (history ++ labels) = acceptedIn history := by
    rw [acceptedIn_append, nothing, append_nil]
  have cases' : ∀ sofar d, (sofar, d) ∈ sendings (history ++ labels) →
      (sofar, d) ∈ sendings history ∨ sofar = acceptedIn history ∧ d ∈ sentIn labels := by
    intro sofar d sending
    rw [sendings_append, mem_append] at sending
    exact sending.imp_right (sendingsFrom_of_nothing nothing)
  refine ⟨by rw [accepted]; exact held, ?_, ?_, ?_, ?_⟩
  · intro sofar d sending
    rw [iss]
    rcases cases' sofar d sending with before | ⟨rfl, now⟩
    · exact sent.carries sofar d before
    · exact (new d now).1
  · intro sofar d sending
    rw [accepted]
    rcases cases' sofar d sending with before | ⟨rfl, now⟩
    · exact sent.past sofar d before
    · exact prefix_rfl
  · intro sofar d sending fin
    rw [accepted]
    rcases cases' sofar d sending with before | ⟨rfl, now⟩
    · exact (sent.ended sofar d before fin).imp_left queued
    · exact ⟨(new d now).2.1 fin, rfl⟩
  · rintro ⟨d, member, syn⟩ opens
    rw [sentIn_append, mem_append] at member
    rcases member with before | now
    · exact (synOut opens).2 (sent.synOut ⟨d, before, syn⟩ (synOut opens).1)
    · exact (new d now).2.2 syn

theorem keepSilent (sent : StreamSent c history) {c' : Core} {labels : List Happening}
    (held : ∃ dropped, Held c'.toSendSide (acceptedIn history) dropped) (iss : c'.iss = c.iss)
    (queued : c.finQueued → c'.finQueued) (nothing : acceptedIn labels = [])
    (silent : sentIn labels = []) (opening : c'.state.opening → c.state.opening)
    (max : c'.sndMax = c.sndMax) : StreamSent c' (history ++ labels) :=
  sent.keep held iss queued nothing (fun opens => ⟨opening opens, by rw [max, iss]; exact id⟩)
    (by simp [silent])

theorem keepSame (sent : StreamSent c history) {c' : Core} {labels : List Happening}
    (tx : c'.tx = c.tx) (base : c'.txBase = c.txBase) (nxt : c'.sndNxt = c.sndNxt)
    (una : c'.sndUna = c.sndUna) (iss : c'.iss = c.iss) (max : c'.sndMax = c.sndMax)
    (queued : c.finQueued → c'.finQueued) (opening : c'.state.opening → c.state.opening)
    (nothing : acceptedIn labels = []) (silent : sentIn labels = []) :
    StreamSent c' (history ++ labels) := by
  obtain ⟨dropped, held⟩ := sent.held
  refine sent.keepSilent ⟨dropped, held.renumber iss tx base fun early => held.early ?_⟩ iss
    queued nothing silent opening max
  simpa only [SendSide.early, nxt, una, base] using early

theorem keepSent (sent : StreamSent c history) {c' : Core} {d : Datagram}
    (held : ∃ dropped, Held c'.toSendSide (acceptedIn history) dropped) (iss : c'.iss = c.iss)
    (queued : c.finQueued → c'.finQueued)
    (synOut : c'.state.opening → c.state.opening ∧ c'.sndMax = c.sndMax)
    (carries : Carries c.iss (acceptedIn history) d) (fin : d.flags.fin → c'.finQueued)
    (noSyn : d.flags.syn = false) : StreamSent c' (history ++ [.port (.sent d)]) := by
  refine sent.keep held iss queued rfl
    (fun opens => ⟨(synOut opens).1, by rw [(synOut opens).2, iss]; exact id⟩)
    fun d' member => ?_
  have same : d' = d := by simpa [sentIn, Happening.sent?] using member
  rw [same]
  exact ⟨carries, fin, by simp [noSyn]⟩

theorem sendSyn (sent : StreamSent c history) (inv : SendInv True True c.toSendSide)
    {d : Datagram} {flags : Flags}
    (handshake : c.state = .synSent ∧ flags = { syn := true } ∨
      c.state = .synReceived ∧ flags = { syn := true, ack := true })
    (sends : c.Sends c.iss flags 0 0 d) :
    StreamSent c.recordSyn (history ++ [.port (.sent d)]) := by
  obtain ⟨nxt, top, opening⟩ := inv.opening_of (handshake.imp And.left And.left)
  obtain ⟨dropped, held⟩ := sent.held
  have noFin : flags.fin = false := by rcases handshake with ⟨_, rfl⟩ | ⟨_, rfl⟩ <;> rfl
  have out : c.recordSyn.sndMax ≠ c.iss := by
    have order := opening.order
    change (if lt c.sndMax (place c.iss 1) then place c.iss 1 else c.sndMax) ≠ _
    rw [show c.sndMax = place c.iss top from opening.maxEq, max_place c.iss (by omega) (by omega)]
    intro same
    have := (@place_inj 32 (max top 1) 0 c.iss (by omega) (by omega)).mp (by rw [same, place_zero])
    omega
  refine sent.keep ⟨dropped, held.renumber rfl rfl rfl fun _ => held.of_opening opening⟩ rfl id rfl
    (fun opens => ⟨opens, fun _ => out⟩) fun d' member => ?_
  have same : d' = d := by simpa [sentIn, Happening.sent?] using member
  rw [same]
  refine ⟨⟨fun _ => ⟨sends.seqEq, sends.data_nil inv.tx, by rw [sends.flagsEq, noFin]⟩,
    fun some => absurd (sends.data_nil inv.tx) some, fun fin => ?_⟩, fun fin => ?_, fun _ => out⟩
  · simp [sends.flagsEq, noFin] at fin
  · simp [sends.flagsEq, noFin] at fin

theorem push (sent : StreamSent c history) {tx : Ring} (bytes : List UInt8)
    {happenings : List Happening} (more : c.finQueued = false)
    (grows : tx.contents = c.tx.contents ++ bytes) (told : acceptedIn happenings = bytes)
    (silent : sentIn happenings = []) : StreamSent { c with tx } (history ++ happenings) := by
  obtain ⟨dropped, held⟩ := sent.held
  have before : ∀ sofar d, (sofar, d) ∈ sendings (history ++ happenings) →
      (sofar, d) ∈ sendings history := by
    intro sofar d sending
    rw [sendings_append, mem_append] at sending
    refine sending.resolve_right fun now => ?_
    simpa [silent] using mem_sentIn_of_sendingsFrom now
  refine ⟨⟨dropped, ?_, held.base, held.early⟩, ?_, ?_, ?_, ?_⟩
  · rw [acceptedIn_append, told, held.split, grows, append_assoc]
  · exact fun sofar d sending => sent.carries sofar d (before sofar d sending)
  · intro sofar d sending
    rw [acceptedIn_append]
    exact (sent.past sofar d (before sofar d sending)).trans (prefix_append _ _)
  · intro sofar d sending fin
    have queued := (sent.ended sofar d (before sofar d sending) fin).1
    simp [more] at queued
  · rw [sentIn_append, silent, append_nil]
    exact sent.synOut

theorem move {after : Core} {labels : List Happening} (sent : StreamSent c history)
    (inv : SendInv True True c.toSendSide) (move : Move ctx c labels after) :
    StreamSent after (history ++ labels) := by
  obtain ⟨dropped, held⟩ := sent.held
  have same : ∃ dropped, Held c.toSendSide (acceptedIn history) dropped := ⟨dropped, held⟩
  have notOpening : c.state.synchronized → ∀ {P : Prop}, c.state.opening → P := by
    intro synchronized P opens
    cases state : c.state <;> simp [state, State.synchronized, State.opening] at synchronized opens
  cases move with
  | offer =>
    obtain ⟨adv, eq⟩ := offered_eq c
    rw [eq]
    exact sent.keepSame rfl rfl rfl rfl rfl rfl id id rfl rfl
  | sendSyn flags handshake behind sends => exact sent.sendSyn inv handshake sends
  | send n fin psh synchronized open' queued something allowed last sends =>
    exact sent.keepSent ⟨dropped, held.recordSent inv fin synchronized open' queued⟩ rfl id
      (notOpening synchronized)
      (.of_send held inv synchronized open' queued allowed last sends)
      (by rw [sends.flagsEq]; exact fun isFin => (last isFin).1) (by rw [sends.flagsEq])
  | resend n synchronized inside sends =>
    exact sent.keepSent same rfl id (fun opens => ⟨opens, rfl⟩)
      (.of_resend held inv synchronized inside sends) (by simp [sends.flagsEq])
      (by rw [sends.flagsEq])
  | sendAck seq synchronized sends =>
    exact sent.keepSent same rfl id (fun opens => ⟨opens, rfl⟩)
      (.of_nothing (by rw [sends.flagsEq]) (by rw [sends.flagsEq]) (sends.data_nil inv.tx))
      (by simp [sends.flagsEq]) (by rw [sends.flagsEq])
  | sendRst rst noSyn noFin empty =>
    exact sent.keepSent same rfl id (fun opens => ⟨opens, rfl⟩) (.of_nothing noSyn noFin empty)
      (by simp [noFin]) noSyn
  | simultaneous seg _ opening =>
    obtain ⟨nxt, top, opening'⟩ := inv.opening_of (Or.inl opening)
    exact sent.keepSilent ⟨dropped, held.renumber rfl rfl rfl fun _ => held.of_opening opening'⟩
      rfl id rfl rfl (fun _ => by rw [opening]; rfl) rfl
  | connected seg _ opening =>
    obtain ⟨nxt, top, opening'⟩ := inv.opening_of (Or.inl opening)
    exact sent.keepSilent ⟨dropped, held.renumber rfl rfl rfl fun _ => held.of_opening opening'⟩
      rfl id rfl rfl (by simp [State.opening]) rfl
  | established raw seg _ _ opening =>
    obtain ⟨nxt, top, opening'⟩ := inv.opening_of (Or.inr opening)
    exact sent.keepSilent ⟨dropped, held.renumber rfl rfl rfl fun _ => held.of_opening opening'⟩
      rfl id rfl rfl (by simp [State.opening]) rfl
  | acked raw seg _ _ synchronized _ new notBeyond =>
    refine sent.keepSilent (held.recordAck inv synchronized new notBeyond) ?_ ?_ rfl rfl ?_ ?_ <;>
      simp only [Core.recordAck, Core.dropAcked] <;> split <;> first | rfl | exact id
  | finAcked =>
    refine sent.keepSame ?_ ?_ ?_ ?_ ?_ ?_ ?_ ?_ rfl rfl <;> cases state : c.state <;>
      simp [Core.finAcked, state, State.opening]
  | window => exact sent.keepSame rfl rfl rfl rfl rfl rfl id id rfl rfl
  | data fits raw seg =>
    have eq : (c.takeBytes fits seg).toSendSide = c.toSendSide := by
      simp only [Core.takeBytes]
      split <;> rfl
    refine sent.keepSame ?_ ?_ ?_ ?_ ?_ ?_ ?_ ?_ rfl rfl <;> rw [eq] <;> exact id
  | fin raw seg _ _ _ opened =>
    refine sent.keepSame rfl rfl rfl rfl rfl rfl id ?_ rfl rfl
    intro opens
    cases state : c.state <;> by_cases acks : c.acksFin c.sndUna <;>
      simp [Core.takeFin, state, acks, State.opening] at opens ⊢
  | timeout =>
    refine sent.keepSilent ⟨dropped, held.renumber rfl rfl rfl fun early => ?_⟩ rfl id rfl rfl id rfl
    exact held.early (Or.inr (early.elim id id))
  | shutdown state _ from' =>
    refine sent.keepSame rfl rfl rfl rfl rfl rfl (fun _ => rfl) ?_ rfl rfl
    rcases from' with ⟨_, rfl⟩ | ⟨_, rfl⟩ <;> simp [State.opening]
  | close => exact sent.keepSame rfl rfl rfl rfl rfl rfl id (by simp [State.opening]) rfl rfl
  | push fits bytes happenings writable more told =>
    obtain ⟨tx, n, eq, _, short, contents, _, _⟩ := Ring.push_cases fits inv.tx bytes
    rw [eq] at told ⊢
    rcases told with rfl | ⟨none, rfl⟩
    · exact sent.push (bytes.take n) more contents
        (by simp [acceptedIn, Happening.acceptedBytes]) rfl
    · have none : n = 0 := none
      exact sent.push [] more (by rw [contents, none]; simp) rfl rfl
  | persist | startPersist | stopRetransmit | release =>
    exact sent.keepSame rfl rfl rfl rfl rfl rfl id id rfl rfl
  | pop | popLook => exact sent.keepSame rfl rfl rfl rfl rfl rfl id id rfl rfl

theorem dropBuffers (sent : StreamSent c history) (inv : SendInv True True c.toSendSide)
    (waiting : c.state = .timeWait) : StreamSent c.dropBuffers history := by
  obtain ⟨dropped, held⟩ := sent.held
  have empty : c.tx.contents = [] := eq_nil_of_length_eq_zero (by
    rw [Ring.length_contents inv.tx, inv.empty_of_timeWait waiting])
  refine ⟨⟨dropped, ?_, held.base, held.early⟩, sent.carries, sent.past, sent.ended, sent.synOut⟩
  rw [held.split, empty]
  rfl

theorem fresh {tcb : Tcb} (fresh : Conn.Fresh tcb) : StreamSent tcb.core [] := by
  have held : ∃ dropped, Held tcb.core.toSendSide [] dropped := by
    refine ⟨[], ?_, ?_, fun _ => rfl⟩ <;> cases fresh <;> rfl
  exact ⟨held, by simp [sendings, sendingsFrom], by simp [sendings, sendingsFrom],
    by simp [sendings, sendingsFrom], by simp [sentIn]⟩

end StreamSent

end EspDevkit.Net
