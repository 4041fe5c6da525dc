import EspDevkit.Net.ReceiveOrder

/-!
# The edge of the receive window

The edge that was advertised stays between `rcv_nxt` and the end of the free
room, until data goes past it: then it is behind, by no more than what has come
since.
-/

namespace EspDevkit.Net

open SerialNumber

/-- The edge lies between `rcv_nxt` and the end of the free room, and the step
asked for still fits into 32 bits. -/
structure EdgeCall.Safe (call : EdgeCall) : Prop where
  within : call.current ≤ call.free
  noOverflow : call.current + call.step < 2 ^ 32

instance (call : EdgeCall) : Decidable call.Safe :=
  decidable_of_iff (call.current ≤ call.free ∧ call.current + call.step < 2 ^ 32)
    ⟨fun ⟨within, noOverflow⟩ => ⟨within, noOverflow⟩,
      fun safe => ⟨safe.within, safe.noOverflow⟩⟩

/-- The sequence numbers past `rcv_nxt` that the peer has sent and that were
taken beyond the edge: what the ring holds, and the FIN. -/
def Core.taken (c : Core) : ℕ := c.rx.len + c.finReceived.toNat

/-- Where the advertised edge is: ahead of `rcv_nxt` within the free room, or
behind it. -/
inductive EdgeAt (c : Core) : Prop
  | ahead (width : ℕ) (adv : c.rcvAdv = place c.rcvNxt width) (room : width ≤ c.rx.free)
      (narrow : width ≤ widestWindow)
  | behind (past : ℕ) (adv : c.rcvNxt = place c.rcvAdv past) (some : 0 < past)
      (near : past ≤ 2 ^ 31) (taken : c.state.buffers → past ≤ c.taken)

theorem widestWindow_lt : widestWindow < 2 ^ 30 := by decide

theorem not_lt_of_place {a b : Seq} {width : ℕ} (adv : a = place b width)
    (narrow : width ≤ widestWindow) : lt a b = false := by
  have := widestWindow_lt
  apply Bool.eq_false_of_not_eq_true
  intro behind
  rw [adv] at behind
  have := (@lt_place_iff 32 width 0 b (by omega) (by omega)).mp
    (by simpa using behind)
  omega

theorem lt_of_place {a b : Seq} {past : ℕ} (adv : b = place a past) (some : 0 < past)
    (near : past ≤ 2 ^ 31) : lt a b = true := by
  rw [adv]
  simpa using (@lt_place_iff 32 0 past a (by omega) (by omega)).mpr some

namespace EdgeAt

variable {ctx : Context} {c : Core}

theorem clamped (edge : EdgeAt c) :
    ∃ width, c.clampedAdv = place c.rcvNxt width ∧ width ≤ c.rx.free ∧ width ≤ widestWindow := by
  simp only [Core.clampedAdv]
  cases edge with
  | ahead width adv room narrow =>
    rw [not_lt_of_place adv narrow]
    exact ⟨width, adv, room, narrow⟩
  | behind past adv some near =>
    rw [lt_of_place adv some near]
    exact ⟨0, (place_zero _).symm, Nat.zero_le _, Nat.zero_le _⟩

theorem step_lt (inv : ReceiveInv c) : c.windowStep < 2 ^ 31 := by
  have := inv.capacity
  simp only [Core.windowStep]
  omega

/-- `window()` compares an edge that is where it should be. -/
theorem windowCall_safe (edge : EdgeAt c) (inv : ReceiveInv c) : c.windowCall.Safe := by
  obtain ⟨width, adv, room, narrow⟩ := edge.clamped
  have := widestWindow_lt
  have := step_lt inv
  have current : (c.clampedAdv - c.rcvNxt).toNat = width := by
    rw [adv]
    exact place_sub_self (by omega)
  refine ⟨?_, ?_⟩
  · change (c.clampedAdv - c.rcvNxt).toNat ≤ c.rx.free
    omega
  · change (c.clampedAdv - c.rcvNxt).toNat + c.windowStep < 2 ^ 32
    omega

theorem offered (edge : EdgeAt c) (inv : ReceiveInv c) : EdgeAt c.offered := by
  obtain ⟨width, adv, room, narrow⟩ := edge.clamped
  simp only [Core.offered]
  split
  · refine .ahead _ rfl (Nat.min_le_left _ _) ?_
    have powers : 2 ^ c.rcvScale ≤ 2 ^ maxWindowScale := Nat.pow_le_pow_right (by omega) inv.scale
    have scaled : 0xffff <<< c.rcvScale ≤ widestWindow := by
      simp only [Nat.shiftLeft_eq, widestWindow]
      exact Nat.mul_le_mul_left _ powers
    exact (Nat.min_le_right _ _).trans scaled
  · exact .ahead width adv room narrow

theorem keep (edge : EdgeAt c) {c' : Core} (same : c'.toReceiveSide = c.toReceiveSide)
    (buffers : c'.state.buffers → c.state.buffers) : EdgeAt c' := by
  obtain ⟨send', receive'⟩ := c'
  obtain rfl : receive' = c.toReceiveSide := same
  cases edge with
  | ahead width adv room narrow => exact .ahead width adv room narrow
  | behind past adv some near taken =>
    exact .behind past adv some near fun uses => taken (buffers uses)

theorem takeBytes (edge : EdgeAt c) (inv : ReceiveInv c) (takes : c.state.takesData)
    (fits : ℕ → Bool) (seg : Segment) : EdgeAt (c.takeBytes fits seg) := by
  have uses : c.state.buffers := by
    cases state : c.state <;> simp [state, State.takesData, State.buffers] at takes ⊢
  obtain ⟨rx, assembler, bytes, eq, _, len, capacity, _, holding⟩ :=
    Core.takeBytes_spec (inv.holding uses) fits seg fun _ _ _ _ _ => trivial
  have wf := holding.ring
  have held := wf.len_le
  have memory := wf.data_le
  have small := wf.data_le_isizeMax
  simp only [isizeMax] at small
  rw [eq]
  cases edge with
  | ahead width adv room narrow =>
    have freeEq : c.rx.free = c.rx.capacity - c.rx.len := rfl
    have freeEq' : rx.free = rx.capacity - rx.len := rfl
    have := widestWindow_lt
    by_cases reached : bytes.length ≤ width
    · refine .ahead (width - bytes.length) ?_ ?_ (by omega)
      · change c.rcvAdv = place (place c.rcvNxt bytes.length) _
        rw [adv, place_place]
        congr 1
        omega
      · change _ ≤ rx.free
        omega
    · refine .behind (bytes.length - width) ?_ (by omega) (by omega) fun _ => ?_
      · change place c.rcvNxt bytes.length = place c.rcvAdv _
        rw [adv, place_place]
        congr 1
        omega
      · change _ ≤ rx.len + _
        omega
  | behind past adv some near taken =>
    have before := taken uses
    simp only [Core.taken] at before
    have fin := Bool.toNat_le c.finReceived
    refine .behind (past + bytes.length) ?_ (by omega) (by omega) fun _ => ?_
    · change place c.rcvNxt bytes.length = _
      rw [adv, place_place]
    · change _ ≤ rx.len + c.finReceived.toNat
      omega

theorem takeFin (edge : EdgeAt c) (inv : ReceiveInv c) (first : c.finReceived = false)
    (live : c.state ≠ .closed) : EdgeAt c.takeFin := by
  have wf := inv.ring
  have held := wf.len_le
  have small := wf.data_le_isizeMax
  simp only [isizeMax] at small
  have taken' : c.takeFin.taken = c.rx.len + 1 := rfl
  cases edge with
  | ahead width adv room narrow =>
    cases width with
    | zero =>
      refine .behind 1 ?_ (by omega) (by omega) fun _ => by omega
      change c.rcvNxt + 1 = place c.rcvAdv 1
      rw [adv, place_zero]
      rfl
    | succ width =>
      refine .ahead width ?_ ?_ (by omega)
      · change c.rcvAdv = place (place c.rcvNxt 1) width
        rw [adv, place_place, Nat.add_comm]
      · change width ≤ c.rx.free
        omega
  | behind past adv some near taken =>
    have uses : c.state.buffers := by
      cases state : c.state <;> simp [State.buffers]
      · have := inv.finReceived (by rw [state]; rfl)
        simp [first] at this
      · exact live state
    have before := taken uses
    simp only [Core.taken, first, Bool.toNat_false] at before
    refine .behind (past + 1) ?_ (by omega) (by omega) fun _ => by omega
    change c.rcvNxt + 1 = place c.rcvAdv (past + 1)
    rw [adv]
    exact place_place _ _ 1

/-- Reading makes room, and `window_grew()` then compares an edge that is where
it should be, unless data had gone past it. -/
theorem popLook (edge : EdgeAt c) (inv : ReceiveInv c) {n : ℕ}
    (covered : ¬ lt c.rcvAdv c.rcvNxt) :
    EdgeAt { c with rx := c.rx.discard n } ∧
      (Core.windowGrewCall { c with rx := c.rx.discard n }).Safe := by
  have wider : c.rx.free ≤ (c.rx.discard n).free := by
    simp only [Ring.free, Ring.capacity_discard, Ring.len_discard]
    omega
  cases edge with
  | ahead width adv room narrow =>
    have := widestWindow_lt
    have step := step_lt inv
    have current : (c.rcvAdv - c.rcvNxt).toNat = width := by
      rw [adv]
      exact place_sub_self (by omega)
    refine ⟨.ahead width adv (room.trans wider) narrow, ?_, ?_⟩
    · change (c.rcvAdv - c.rcvNxt).toNat ≤ (c.rx.discard n).free
      omega
    · change (c.rcvAdv - c.rcvNxt).toNat +
        min ((c.rx.discard n).capacity / 2) c.rcvMss < 2 ^ 32
      rw [Ring.capacity_discard]
      change (c.rcvAdv - c.rcvNxt).toNat + c.windowStep < 2 ^ 32
      omega
  | behind past adv some near => exact absurd (lt_of_place adv some near) covered

theorem pop_zero (edge : EdgeAt c) {n : ℕ} (none : n = 0) :
    EdgeAt { c with rx := c.rx.discard n } := by
  subst none
  exact edge

end EdgeAt

structure WindowInv (c : Core) (history : List Happening) : Prop where
  receive : ReceiveInv c
  safe : ∀ call ∈ edgesIn history, call.Safe
  edge : c.state ≠ .closed → EdgeAt c

namespace WindowInv

variable {ctx : Context} {c : Core} {history : List Happening}

variable {labels : List Happening}

theorem closed_move {after : Core} (move : Move ctx c labels after)
    (closed : c.state = .closed) : after.state = .closed ∧ edgesIn labels = [] := by
  cases move with
  | offer live => exact absurd closed live
  | sendSyn flags handshake => simp [closed] at handshake
  | send n fin psh synchronized => simp [closed, State.synchronized] at synchronized
  | simultaneous seg _ opening => simp [closed] at opening
  | connected seg _ opening => simp [closed] at opening
  | established raw seg _ _ opening => simp [closed] at opening
  | acked raw seg _ _ synchronized => simp [closed, State.synchronized] at synchronized
  | finAcked => simp [Core.finAcked, closed, edgesIn]
  | data fits raw seg _ _ _ takes => simp [closed, State.takesData] at takes
  | fin => exact ⟨by simp [Core.takeFin, closed], rfl⟩
  | shutdown state _ from' => simp [closed] at from'
  | push fits bytes happenings writable => simp [closed] at writable
  | popLook n held some synchronized => simp [closed, State.synchronized] at synchronized
  | close => exact ⟨rfl, rfl⟩
  | resend | sendAck | sendRst | window | timeout | persist | startPersist | stopRetransmit
  | release
  | pop => exact ⟨closed, rfl⟩

/-- The step lemma, for moves from a state whose edge is where it should be. -/
theorem edge_move {after : Core} (edge : EdgeAt c)
    (inv : ReceiveInv c) (live : c.state ≠ .closed) (move : Move ctx c labels after)
    (covered : ¬ ctx.uncovered) :
    (∀ call ∈ edgesIn labels, call.Safe) ∧ (after.state ≠ .closed → EdgeAt after) := by
  have silent : ∀ labels, edgesIn labels = [] → ∀ call ∈ edgesIn labels, call.Safe := by
    intro labels none call member
    simp [none] at member
  cases move with
  | offer =>
    refine ⟨fun call member => ?_, fun _ => edge.offered inv⟩
    have same : c.windowCall = call := by
      simpa [edgesIn, Happening.edge?, eq_comm] using member
    rw [← same]
    exact edge.windowCall_safe inv
  | simultaneous seg | connected seg =>
    exact ⟨silent _ rfl, fun _ => .ahead 0 (place_zero _).symm (Nat.zero_le _) (Nat.zero_le _)⟩
  | acked raw seg =>
    refine ⟨silent _ rfl, fun _ => edge.keep ?_ ?_⟩ <;>
      simp only [Core.recordAck, Core.dropAcked] <;> split <;> first | rfl | exact id
  | finAcked =>
    refine ⟨silent _ rfl, fun _ => edge.keep ?_ ?_⟩ <;> cases state : c.state <;>
      simp [Core.finAcked, state, State.buffers]
  | data fits raw seg _ _ _ takes => exact ⟨silent _ rfl, fun _ => edge.takeBytes inv takes fits seg⟩
  | fin raw seg _ _ _ _ _ _ first => exact ⟨silent _ rfl, fun _ => edge.takeFin inv first live⟩
  | established raw seg _ _ opening =>
    exact ⟨silent _ rfl, fun _ => edge.keep rfl fun _ => by rw [opening]; rfl⟩
  | shutdown state _ from' =>
    refine ⟨silent _ rfl, fun _ => edge.keep rfl fun _ => ?_⟩
    rcases from' with ⟨before | before, _⟩ | ⟨before, _⟩ <;> rw [before] <;> rfl
  | close => exact ⟨silent _ rfl, fun notClosed => absurd rfl notClosed⟩
  | pop n held quiet =>
    refine ⟨silent _ rfl, fun _ => edge.pop_zero ?_⟩
    rcases quiet with quiet | none
    · have opening : c.state.opening := by
        cases state : c.state <;> simp [state, State.synchronized, State.opening] at quiet live ⊢
      have := inv.empty opening
      omega
    · exact none
  | popLook n held some synchronized uncovered =>
    have result := edge.popLook inv (n := n) fun behind => covered (uncovered behind)
    refine ⟨fun call member => ?_, fun _ => result.1⟩
    have same : Core.windowGrewCall { c with rx := c.rx.discard n } = call := by
      simpa [edgesIn, Happening.edge?] using member
    rw [← same]
    exact result.2
  | push fits bytes happenings writable more told =>
    refine ⟨silent _ ?_, fun _ => edge.keep rfl id⟩
    rcases told with rfl | ⟨_, rfl⟩ <;> rfl
  | sendSyn | send | resend | sendAck | sendRst | window | timeout | persist | startPersist
  | stopRetransmit => exact ⟨silent _ rfl, fun _ => edge.keep rfl id⟩
  | release => exact ⟨silent _ rfl, fun _ => edge.keep rfl id⟩

theorem move {after : Core} (inv : WindowInv c history)
    (move : Move ctx c labels after) (covered : ¬ ctx.uncovered) :
    WindowInv after (history ++ labels) := by
  have kept : (∀ call ∈ edgesIn labels, call.Safe) ∧ (after.state ≠ .closed → EdgeAt after) := by
    by_cases closed : c.state = .closed
    · obtain ⟨still, none⟩ := closed_move move closed
      exact ⟨by simp [none], fun live => absurd still live⟩
    · exact edge_move (inv.edge closed) inv.receive closed move covered
  refine ⟨inv.receive.move move, fun call member => ?_, kept.2⟩
  rw [edgesIn_append, List.mem_append] at member
  exact member.elim (inv.safe call) (kept.1 call)

theorem fresh {tcb : Tcb} (fresh : Conn.Fresh tcb) : WindowInv tcb.core [] := by
  refine ⟨.fresh fresh, by simp [edgesIn], fun _ => ?_⟩
  cases fresh <;> exact .ahead 0 (place_zero _).symm (Nat.zero_le _) (Nat.zero_le _)

end WindowInv

/-- The buffers were given up with part of the window open. -/
structure Stranded (c : Core) : Prop where
  waiting : c.state = .timeWait
  none : c.rx = .new 0
  ahead : lt c.rcvNxt c.rcvAdv

def Tcb.stranded (tcb : Tcb) : Bool :=
  decide (tcb.state = .timeWait) && decide (tcb.rx.capacity = 0) && lt tcb.rcvNxt tcb.rcvAdv

/-- Inputs that do not read bytes past the advertised edge, and do not have a
connection speak that has given up its buffers. -/
def KeepsEdge (tcb : Tcb) (now : Instant) : Input → Prop
  | .read _ => ¬ tcb.readsUncovered
  | .segment seg => tcb.stranded → seg.flags.rst
  | .unlisten => ¬ tcb.stranded
  | .poll => tcb.stranded → due tcb.closeAt now
  | .linkReady => tcb.stranded → tcb.linkRetryAt = none
  | _ => True

instance (tcb : Tcb) (now : Instant) : (input : Input) → Decidable (KeepsEdge tcb now input)
  | .read _ => inferInstanceAs (Decidable (¬ tcb.readsUncovered))
  | .segment seg => inferInstanceAs (Decidable (tcb.stranded → seg.flags.rst))
  | .unlisten => inferInstanceAs (Decidable (¬ tcb.stranded))
  | .poll => inferInstanceAs (Decidable (tcb.stranded → due tcb.closeAt now))
  | .linkReady => inferInstanceAs (Decidable (tcb.stranded → tcb.linkRetryAt = none))
  | .write _ | .shutdown | .release | .accept | .setNodelay _ | .setKeepalive _
  | .icmpError _ _ => inferInstanceAs (Decidable True)

theorem KeepsEdge.covered {tcb : Tcb} {now : Instant} {input : Input}
    (keeps : KeepsEdge tcb now input) : ¬ (input.context tcb now).uncovered := by
  cases input with
  | read room => exact keeps
  | _ => exact id

namespace Stranded

variable {c : Core}

theorem edge_dropBuffers (edge : EdgeAt c) (waiting : c.state = .timeWait) :
    EdgeAt c.dropBuffers ∨ Stranded c.dropBuffers := by
  cases edge with
  | ahead width adv room narrow =>
    have := widestWindow_lt
    by_cases closed : width = 0
    · refine Or.inl (.ahead 0 ?_ (Nat.zero_le _) (Nat.zero_le _))
      change c.rcvAdv = place c.rcvNxt 0
      rw [adv, closed]
    · exact Or.inr ⟨waiting, rfl, lt_of_place adv (by omega) (by omega)⟩
  | behind past adv some near =>
    refine Or.inl (.behind past adv some near fun uses => ?_)
    have state : c.dropBuffers.state = .timeWait := waiting
    simp [state, State.buffers] at uses

theorem of_tcb {tcb : Tcb} (stranded : Stranded tcb.core) : tcb.stranded := by
  have state : tcb.state = .timeWait := stranded.waiting
  have rx : tcb.rx = .new 0 := stranded.none
  have ahead : lt tcb.rcvNxt tcb.rcvAdv := stranded.ahead
  simp [Tcb.stranded, state, rx, Ring.new, ahead]

theorem tcpReceive_rst (port : Port) (id : ℕ) (tcb : Tcb) (seg : Segment) (now : Instant)
    (waiting : tcb.state = .timeWait) (full : tcb.rx.free = 0) (rst : seg.flags.rst) :
    (tcpReceive port id tcb seg now).1 = port ∧
      ((tcpReceive port id tcb seg now).2 = tcb ∨
        (tcpReceive port id tcb seg now).2 = tcb.closeWith Option.none) := by
  have opened : ¬ tcb.state = .synSent := by simp [waiting]
  have plain : trimSyn tcb seg = seg := by simp [trimSyn, waiting]
  simp only [tcpReceive, opened, plain, rst, if_false, if_true]
  by_cases accepted : acceptable tcb seg = true
  · have next : seg.seq = tcb.rcvNxt := by
      simp only [acceptable, full, if_true] at accepted
      split at accepted
      · exact of_decide_eq_true accepted
      · simp at accepted
    simp [accepted, next, tcpReset, waiting]
  · simp [accepted]

theorem act (port : Port) (slot : ℕ) {tcb : Tcb} (stranded : Stranded tcb.core) (now : Instant)
    (input : Input) (keeps : KeepsEdge tcb now input) :
    ∃ port' tcb' reply, input.act port slot tcb now = (port', tcb', reply) ∧
      port'.events = port.events ∧
      (tcb'.core = { tcb.core with released := tcb'.released } ∨ tcb'.core =
        { tcb.core with state := .closed, persisting := false, retransmitting := false }) := by
  have isStranded := stranded.of_tcb
  have state : tcb.state = .timeWait := stranded.waiting
  have rx : tcb.rx = .new 0 := stranded.none
  have empty : tcb.rx.len = 0 := by rw [rx]; rfl
  cases input with
  | segment seg =>
    obtain ⟨quiet, same⟩ := tcpReceive_rst port slot
      { tcb with heard := now, keepaliveProbes := 0 } seg now state
      (by change tcb.rx.free = 0; rw [rx]; rfl) (keeps isStranded)
    simp only [Input.act, tcpProcess]
    generalize tcpReceive port slot _ seg now = result at quiet same ⊢
    obtain ⟨port', tcb'⟩ := result
    refine ⟨port', tcb', .none, rfl, congrArg (·.events) quiet, ?_⟩
    rcases same with rfl | rfl
    · exact Or.inl rfl
    · exact Or.inr rfl
  | unlisten => exact absurd isStranded keeps
  | read room =>
    simp only [Input.act, tcpRead, empty, lt_irrefl, if_false, state]
    split
    · exact ⟨port, tcb, _, rfl, rfl, Or.inl rfl⟩
    · exact ⟨port, tcb, _, rfl, rfl, Or.inl rfl⟩
  | write data =>
    simp only [Input.act, tcpWrite, state]
    split
    · exact ⟨port, tcb, _, rfl, rfl, Or.inl rfl⟩
    · rw [if_pos (Or.inr (by simp))]
      exact ⟨port, tcb, _, rfl, rfl, Or.inl rfl⟩
  | shutdown =>
    simp only [Input.act, tcpShutdown, state]
    split <;> exact ⟨port, tcb, _, rfl, rfl, Or.inl rfl⟩
  | release =>
    simp only [Input.act, tcpRelease, tcpShutdown, empty, state, lt_irrefl, false_or]
    refine ⟨port, { tcb with released := true }, .none, ?_, rfl, Or.inl rfl⟩
    simp [state]
  | accept => exact ⟨port, _, _, rfl, rfl, Or.inl rfl⟩
  | setNodelay nodelay => exact ⟨port, _, _, rfl, rfl, Or.inl rfl⟩
  | setKeepalive idle => exact ⟨port, _, _, rfl, rfl, Or.inl rfl⟩
  | icmpError seq reported =>
    have past : ¬ (tcb.state = .synSent ∧ reported = .refused) := by simp [state]
    simp only [Input.act, tcpIcmpError, past, if_false]
    refine ⟨port, _, _, rfl, rfl, Or.inl ?_⟩
    split <;> rfl
  | linkReady =>
    have none := keeps isStranded
    simp only [Input.act, tcpLinkReady, none]
    exact ⟨port, tcb, _, rfl, rfl, Or.inl rfl⟩
  | poll =>
    have closes := keeps isStranded
    simp only [Input.act, tcpPollOne, tcpTimers, closes, if_true]
    split
    · exact ⟨port, tcb.closeWith Option.none, _, rfl, rfl, Or.inr rfl⟩
    · exact ⟨port, tcb, _, rfl, rfl, Or.inl rfl⟩

end Stranded

/-- What holds of a connection in a run that keeps the edge. -/
structure EdgesKept (conn : Conn) : Prop where
  receive : ReceiveInv conn.tcb.core
  safe : ∀ call ∈ edgesIn conn.history, call.Safe
  edge : conn.tcb.state ≠ .closed → EdgeAt conn.tcb.core ∨ Stranded conn.tcb.core

namespace EdgesKept

theorem edgesIn_happenings (input : Input) (reply : Reply) :
    edgesIn (input.happenings reply) = [] := by
  cases input with
  | write data => rcases reply with _ | _ | (_ | _ | _) <;> rfl
  | read room => rcases reply with _ | (_ | _ | _) | _ <;> rfl
  | _ => rfl

theorem of_windowInv {before after : Conn} {core : Core}
    (inv : WindowInv core (before.history ++ labels))
    (history : after.history = before.history ++ labels)
    (dropped : after.tcb.core = core ∨
      core.state = .timeWait ∧ core.released ∧ after.tcb.core = core.dropBuffers) :
    EdgesKept after := by
  rcases dropped with same | ⟨waiting, _, same⟩
  · exact ⟨same ▸ inv.receive, history ▸ inv.safe, fun live => Or.inl (by
      have live' : after.tcb.core.state ≠ .closed := live
      rw [same] at live' ⊢
      exact inv.edge live')⟩
  · refine ⟨same ▸ inv.receive.dropBuffers waiting, history ▸ inv.safe, fun _ => ?_⟩
    rw [same]
    exact Stranded.edge_dropBuffers (inv.edge (by rw [waiting]; decide)) waiting

theorem step {before after : Conn} (kept : EdgesKept before)
    (step : Conn.Step KeepsEdge before after) : EdgesKept after := by
  by_cases stranded : Stranded before.tcb.core
  · obtain ⟨port, quiet, slot, now, input, _, possible, keeps⟩ := step
    obtain ⟨port', tcb', reply, eq, events, core⟩ := stranded.act port slot now input keeps
    have noEvents : port'.events = [] := events.trans quiet
    have history : (before.after port slot now input).history =
        before.history ++ input.happenings reply := by
      simp [Conn.after, Tcb.step, eq, noEvents]
    have noEdges := edgesIn_happenings input reply
    have safe : ∀ call ∈ edgesIn (before.after port slot now input).history, call.Safe := by
      rw [history, edgesIn_append, noEdges, List.append_nil]
      exact kept.safe
    have tcb : (before.after port slot now input).tcb =
        if input.inWithTcb then dropBuffers tcb' else tcb' := by
      simp [Conn.after, Tcb.step, eq]
    have sameOrDropped : (before.after port slot now input).tcb.core = tcb'.core ∨
        tcb'.state = .timeWait ∧ tcb'.released ∧
          (before.after port slot now input).tcb.core = tcb'.core.dropBuffers := by
      rw [tcb]
      split
      · exact dropBuffers_core tcb'
      · exact Or.inl rfl
    rcases core with same | closed
    · have receive : ReceiveInv tcb'.core := by
        rw [same]
        exact kept.receive.keep rfl id id id
      have stranded' : Stranded tcb'.core := by
        rw [same]
        exact ⟨stranded.waiting, stranded.none, stranded.ahead⟩
      rcases sameOrDropped with core | ⟨waiting, _, core⟩
      · exact ⟨core ▸ receive, safe, fun _ => Or.inr (core ▸ stranded')⟩
      · refine ⟨core ▸ receive.dropBuffers waiting, safe, fun _ => Or.inr ?_⟩
        rw [core]
        exact ⟨waiting, rfl, stranded'.ahead⟩
    · have receive : ReceiveInv tcb'.core := closed ▸ kept.receive.move (@Move.close {} _)
      have isClosed : tcb'.state = .closed := congrArg (·.state) closed
      rcases sameOrDropped with core | ⟨waiting, _⟩
      · refine ⟨core ▸ receive, safe, fun live => ?_⟩
        have : (before.after port slot now input).tcb.state = tcb'.state :=
          congrArg (·.state) core
        exact absurd (this.trans isClosed) live
      · simp [isClosed] at waiting
  · obtain ⟨now, input, labels, core, keeps, _, history, moves, dropped⟩ := step.moves
    have start : WindowInv before.tcb.core before.history :=
      ⟨kept.receive, kept.safe, fun live => (kept.edge live).resolve_right stranded⟩
    exact of_windowInv (moves.invariant (fun _ _ _ _ inv move => WindowInv.move inv move keeps.covered) start) history dropped

theorem of_reachable {conn : Conn} (reachable : Conn.Reachable KeepsEdge conn) :
    EdgesKept conn :=
  Transition.Reachable.invariant
    (fun conn initial => by
      have inv : WindowInv conn.tcb.core conn.history :=
        initial.invariant (fun _ => .fresh) fun _ _ _ _ inv move => inv.move move id
      exact ⟨inv.receive, inv.safe, fun live => Or.inl (inv.edge live)⟩)
    (fun _ _ kept step => kept.step step) reachable

end EdgesKept

/-- In a run that keeps the edge, every call of `window()` and `window_grew()`
finds it between `rcv_nxt` and the end of the free room, and adds no more than
32 bits hold. -/
theorem window_edge_safe {conn : Conn} (reachable : Conn.Reachable KeepsEdge conn) :
    ∀ call ∈ edgesIn conn.history, call.Safe :=
  (EdgesKept.of_reachable reachable).safe

/-- Data within the window, and a read of it. -/
theorem window_edge_safe_read :
    let conn := Conn.toServer.run
      [({}, 100, Conn.serverSynAck),
        ({}, 200, .segment (Conn.dataFromServer 5001 [1, 2] (by decide))), ({}, 300, .read 10)]
    edgesIn conn.history ≠ [] ∧ ∀ call ∈ edgesIn conn.history, call.Safe :=
  ⟨by decide, window_edge_safe ((Conn.toServer_reachable _).run (by decide))⟩

set_option maxRecDepth 4000 in
/-- Sixty-four bytes fill the window and are acknowledged, ten are read, which
is too few for an update, one more byte is taken past the edge, and reading
before it is acknowledged finds the edge behind. -/
theorem window_edge_safe_fails :
    ∃ conn, Conn.Reachable Conn.anyInput conn ∧ conn.tcb.state = .established ∧
      ∃ call ∈ edgesIn conn.history, 2 ^ 32 ≤ call.current + call.step ∧ ¬ call.Safe :=
  ⟨Conn.toServer.run
      [({}, 100, Conn.serverSynAck),
        ({}, 200, .segment (Conn.dataFromServer 5001 (List.replicate 32 7) (by decide))),
        ({}, 250, .segment (Conn.dataFromServer 5033 (List.replicate 32 7) (by decide))),
        ({}, 300, .read 10),
        ({}, 400, .segment (Conn.dataFromServer 5065 [8] (by decide))),
        ({}, 500, .read 10)],
    (Conn.toServer_reachable _).run (by decide), by decide⟩

end EspDevkit.Net
