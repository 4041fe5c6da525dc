import EspDevkit.Net.TcpSpeech
import EspDevkit.Net.WindowEdge
import Mathlib.Data.List.Chain

/-!
# The window on the wire

A segment tells the peer the place that is acknowledged and how many units past it the peer
may send.  The connection keeps the edge of its window in bytes, and the field rounds it down
to whole units, so that taking a part of a unit moves the edge that is told to the left.
-/

namespace EspDevkit.Net

open SerialNumber List

/-- The right edge the peer computes.  The window of a SYN is not scaled, and without an ACK
there is no place to count from. -/
def Datagram.rightEdge? (scale : ℕ) (d : Datagram) : Option Seq :=
  if d.flags.ack && !d.flags.syn then some (d.ack + BitVec.ofNat 32 (d.window.toNat <<< scale))
  else none

def rightEdges (scale : ℕ) (sent : List Datagram) : List Seq :=
  sent.filterMap (Datagram.rightEdge? scale)

theorem rightEdges_append (scale : ℕ) (sent : List Datagram) (d : Datagram) :
    rightEdges scale (sent ++ [d]) = rightEdges scale sent ++ (d.rightEdge? scale).toList := by
  unfold rightEdges
  rw [filterMap_append]
  cases edge : d.rightEdge? scale <;> simp [edge]

theorem rightEdges_nil {scale scale' : ℕ} {sent : List Datagram}
    (none : rightEdges scale sent = []) : rightEdges scale' sent = [] := by
  unfold rightEdges at none ⊢
  rw [filterMap_eq_nil_iff] at none ⊢
  intro d mem
  have unsaid := none d mem
  unfold Datagram.rightEdge? at unsaid ⊢
  split at unsaid
  · cases unsaid
  · next silent => exact if_neg silent

namespace Tcb

variable {t t' : Tcb}

def widest (t : Tcb) : ℕ := 0xffff <<< t.rcvScale

/-- How far past `rcv_nxt` the window still open reaches, in units that can be told. -/
def reach (t : Tcb) : ℕ := min t.windowCall.current t.widest >>> t.rcvScale <<< t.rcvScale

/-- How far past `rcv_nxt` the edge last told lies. -/
def rest (t : Tcb) (edges : List Seq) : ℤ :=
  edges.getLast?.elim 0 fun edge => (edge - t.rcvNxt).toInt

theorem reach_eq (t : Tcb) :
    t.reach = min t.windowCall.current t.widest / 2 ^ t.rcvScale * 2 ^ t.rcvScale := by
  rw [reach, Nat.shiftLeft_eq, Nat.shiftRight_eq_div_pow]

theorem reach_le (t : Tcb) : t.reach ≤ min t.windowCall.current t.widest := by
  rw [reach_eq]
  exact Nat.div_mul_le_self _ _

theorem widest_le (scale : t.rcvScale ≤ maxWindowScale) : t.widest ≤ widestWindow := by
  unfold widest widestWindow
  rw [Nat.shiftLeft_eq, Nat.shiftLeft_eq]
  exact Nat.mul_le_mul_left _ (Nat.pow_le_pow_right (by decide) scale)

theorem reach_congr (nxt : t'.rcvNxt = t.rcvNxt) (adv : t'.rcvAdv = t.rcvAdv)
    (scale : t'.rcvScale = t.rcvScale) : t'.reach = t.reach := by
  simp only [reach, widest, windowCall, nxt, adv, scale]

theorem window_reach (scale : t.rcvScale ≤ maxWindowScale) :
    t.window.2 = t.window.1.windowCall.current ∧ t.reach ≤ t.window.1.reach := by
  have small := widest_le scale
  have := widestWindow_lt
  rw [reach_eq, reach_eq, (window_frame t).2.1]
  have widest : t.window.1.widest = t.widest := by
    rw [Tcb.widest, Tcb.widest, (window_frame t).2.1]
  rw [widest]
  suffices opened : t.window.2 = t.window.1.windowCall.current ∧
      min t.windowCall.current t.widest ≤ min t.window.1.windowCall.current t.widest from
    ⟨opened.1, Nat.mul_le_mul_right _ (Nat.div_le_div_right opened.2)⟩
  unfold window
  dsimp only
  generalize clamped : (if lt t.rcvAdv t.rcvNxt then t.rcvNxt else t.rcvAdv) = adv
  have current : t.windowCall.current = (adv - t.rcvNxt).toNat := by
    rw [← clamped]
    rfl
  split
  · next worth =>
      have room : min t.rx.free (0xffff <<< t.rcvScale) ≤ t.widest := Nat.min_le_right _ _
      generalize min t.rx.free (0xffff <<< t.rcvScale) = free at worth room ⊢
      have opened : EdgeCall.current
          (windowCall { t with rcvAdv := t.rcvNxt + BitVec.ofNat 32 free }) = free := by
        unfold windowCall
        dsimp only
        rw [add_ofNat, not_lt_of_place rfl (by omega), if_neg (by decide)]
        exact place_sub_self (by omega)
      rw [opened, current]
      exact ⟨rfl, by omega⟩
  · have kept : ({ t with rcvAdv := adv } : Tcb).windowCall.current = (adv - t.rcvNxt).toNat := by
      unfold windowCall
      dsimp only
      split
      · next behind =>
          rw [← clamped] at behind ⊢
          split at behind
          · rw [if_pos (by assumption)]
          · contradiction
      · rfl
    rw [kept, current]
    exact ⟨rfl, Nat.le_refl _⟩

/-- The edge told with a segment is the reach of the window open then. -/
theorem datagram_rightEdge (seq : Seq) {flags : Flags} (offset len : ℕ)
    (tells : (flags.ack && !flags.syn) = true) :
    (t.datagram seq flags offset len t.windowCall.current).rightEdge? t.rcvScale =
      some (place t.rcvNxt t.reach) := by
  simp only [Bool.and_eq_true, Bool.not_eq_true'] at tells
  have field : min t.windowCall.current t.widest >>> t.rcvScale < 2 ^ 16 := by
    have cut : min t.windowCall.current t.widest >>> t.rcvScale ≤ t.widest >>> t.rcvScale := by
      rw [Nat.shiftRight_eq_div_pow, Nat.shiftRight_eq_div_pow]
      exact Nat.div_le_div_right (Nat.min_le_right _ _)
    rw [widest, Nat.shiftLeft_shiftRight] at cut
    exact Nat.lt_of_le_of_lt cut (by decide)
  simp only [Datagram.rightEdge?, datagram, tells, Bool.not_false, Bool.and_self, if_true,
    Bool.false_eq_true, if_false, BitVec.toNat_ofNat]
  rw [show 0xffff <<< t.rcvScale = t.widest from rfl, Nat.mod_eq_of_lt field]
  rfl

theorem reach_take (units : 2 ^ t.rcvScale ∣ (t'.rcvNxt - t.rcvNxt).toNat)
    (adv : t'.rcvAdv = t.rcvAdv) (scale : t'.rcvScale = t.rcvScale) :
    t.reach ≤ (t'.rcvNxt - t.rcvNxt).toNat + t'.reach := by
  have nxt : t'.rcvNxt = place t.rcvNxt (t'.rcvNxt - t.rcvNxt).toNat := (place_ahead _ _).symm
  have below := t.reach_le
  generalize (t'.rcvNxt - t.rcvNxt).toNat = n at units nxt ⊢
  by_cases past : t.windowCall.current < n
  · omega
  · have current : t'.windowCall.current = t.windowCall.current - n := by
      by_cases behind : lt t.rcvAdv t.rcvNxt = true
      · have closed : t.windowCall.current = 0 := by
          simp [windowCall, behind]
        have none : n = 0 := by omega
        subst none
        rw [place_zero] at nxt
        simp [windowCall, nxt, adv]
      · have open' : t.windowCall.current = (t.rcvAdv - t.rcvNxt).toNat := by
          simp [windowCall, behind]
        have half : (t.rcvAdv - t.rcvNxt).toNat < 2 ^ 31 := by
          have near := (lt_iff_half_le t.rcvAdv t.rcvNxt).not.mp behind
          rw [ahead] at near
          omega
        have place : t.rcvAdv = place t.rcvNxt t.windowCall.current := by
          rw [open']
          exact (place_ahead _ _).symm
        have ahead : lt t'.rcvAdv t'.rcvNxt = false := by
          rw [adv, place, nxt]
          apply Bool.eq_false_of_not_eq_true
          rw [lt_place_iff _ (by omega) (by omega)]
          omega
        rw [windowCall, ahead, if_neg (by decide), adv, nxt]
        conv_lhs => rw [place]
        exact place_sub_place (by omega) (by omega)
    have widest : t'.widest = t.widest := by rw [Tcb.widest, Tcb.widest, scale]
    obtain ⟨k, rfl⟩ := units
    rw [reach_eq, reach_eq, current, widest, scale]
    have unit : 0 < 2 ^ t.rcvScale := Nat.two_pow_pos _
    have cut : min t.windowCall.current t.widest ≤
        min (t.windowCall.current - 2 ^ t.rcvScale * k) t.widest + 2 ^ t.rcvScale * k := by
      omega
    have whole := Nat.mul_le_mul_right (2 ^ t.rcvScale)
      (@Nat.div_le_div_right _ _ (2 ^ t.rcvScale) cut)
    rw [Nat.add_mul_div_left _ _ unit, Nat.add_mul, Nat.mul_comm k] at whole
    omega

end Tcb

/-- The edges told so far never moved left, the last of them is within the reach of the
window, and `more` sequence numbers can be taken before it is too far behind to compare. -/
structure Told (t : Tcb) (edges : List Seq) (more : ℕ) : Prop where
  scale : t.rcvScale ≤ maxWindowScale
  forward : edges.IsChain fun left right => le left right
  silent : t.state = .synSent → edges = []
  kept : t.rest edges ≤ t.reach
  near : more + t.widest ≤ 2 ^ 31 + t.rest edges

namespace Told

variable {t t' : Tcb} {edges : List Seq} {more : ℕ}

theorem start (scale : t.rcvScale ≤ maxWindowScale) : Told t [] 0 := by
  have small := Tcb.widest_le scale
  have := widestWindow_lt
  have none : t.rest [] = 0 := rfl
  exact ⟨scale, .nil, fun _ => rfl, by omega, by omega⟩

theorem keep (told : Told t edges more) (nxt : t'.rcvNxt = t.rcvNxt) (adv : t'.rcvAdv = t.rcvAdv)
    (scale : t'.rcvScale = t.rcvScale) (opening : t'.state.opening → t'.state = t.state) :
    Told t' edges more := by
  have rest : t'.rest edges = t.rest edges := by rw [Tcb.rest, Tcb.rest, nxt]
  have widest : t'.widest = t.widest := by rw [Tcb.widest, Tcb.widest, scale]
  refine ⟨scale ▸ told.scale, told.forward, fun state => ?_, ?_, ?_⟩
  · have same := opening (by rw [state]; rfl)
    exact told.silent (same.symm.trans state)
  · rw [rest, Tcb.reach_congr nxt adv scale]
    exact told.kept
  · rw [rest, widest]
    exact told.near

theorem quiet (told : Told t edges more) (quiet : Quiet t t') : Told t' edges more :=
  told.keep (congrArg Frame.rcvNxt quiet.frame) (congrArg Frame.rcvAdv quiet.frame)
    (congrArg Frame.rcvScale quiet.frame) quiet.opening

theorem window (told : Told t edges more) : Told t.window.1 edges more := by
  obtain ⟨nxt, scale, -, state⟩ := window_frame t
  have rest : t.window.1.rest edges = t.rest edges := by rw [Tcb.rest, Tcb.rest, nxt]
  have widest : t.window.1.widest = t.widest := by rw [Tcb.widest, Tcb.widest, scale]
  have farther := (Tcb.window_reach told.scale).2
  have kept := told.kept
  refine ⟨scale ▸ told.scale, told.forward, state ▸ told.silent, ?_, ?_⟩
  · rw [rest]
    omega
  · rw [rest, widest]
    exact told.near

theorem tell (told : Told t edges more) (opened : t.state ≠ .synSent) :
    Told t (edges ++ [place t.rcvNxt t.reach]) more := by
  have small := Tcb.widest_le told.scale
  have := widestWindow_lt
  have below := t.reach_le
  have kept := told.kept
  have near := told.near
  have rest : t.rest (edges ++ [place t.rcvNxt t.reach]) = t.reach := by
    have last := @toInt_place_sub_place 32 t.reach 0 t.rcvNxt (by omega) (by omega)
    rw [place_zero] at last
    rw [Tcb.rest, List.getLast?_concat]
    exact last.trans (by simp)
  refine ⟨told.scale, ?_, fun opening => absurd opening opened, by omega, by omega⟩
  refine told.forward.append (.singleton _) fun left last right head => ?_
  cases head
  have rest' : t.rest edges = (left - t.rcvNxt).toInt := by
    rw [Tcb.rest, last]
    rfl
  rw [le, decide_eq_true_eq, toInt_sub_place (by omega)]
  omega

theorem take (told : Told t edges (t'.rcvNxt - t.rcvNxt).toNat)
    (units : 2 ^ t.rcvScale ∣ (t'.rcvNxt - t.rcvNxt).toNat) (adv : t'.rcvAdv = t.rcvAdv)
    (scale : t'.rcvScale = t.rcvScale) (opening : t'.state.opening → t'.state = t.state) :
    Told t' edges 0 := by
  have farther := Tcb.reach_take units adv scale
  have widest : t'.widest = t.widest := by rw [Tcb.widest, Tcb.widest, scale]
  have kept := told.kept
  have near := told.near
  have rest : t'.rest edges = t.rest edges - (t'.rcvNxt - t.rcvNxt).toNat ∨
      t'.rest edges = 0 ∧ t.rest edges = 0 := by
    cases last : edges.getLast? with
    | none => exact .inr (by simp [Tcb.rest, last])
    | some edge =>
      have nxt : place t.rcvNxt (t'.rcvNxt - t.rcvNxt).toNat = t'.rcvNxt := place_ahead _ _
      have before : t.rest edges = (edge - t.rcvNxt).toInt := by simp [Tcb.rest, last]
      have after : t'.rest edges = (edge - t'.rcvNxt).toInt := by simp [Tcb.rest, last]
      rw [before] at near ⊢
      have walked := @toInt_sub_place 32 edge t.rcvNxt (t'.rcvNxt - t.rcvNxt).toNat (by omega)
      rw [nxt] at walked
      exact .inl (after.trans walked)
  refine ⟨scale ▸ told.scale, told.forward, fun state => ?_, by omega, by omega⟩
  have same := opening (by rw [state]; rfl)
  exact told.silent (same.symm.trans state)

end Told

def Port.sent (port : Port) : List Datagram :=
  port.events.filterMap fun event =>
    match event with
    | .sent d => some d
    | .edge _ => none

/-- The edges told with the segments of `prior` and those the port has sent. -/
def ToldBy (prior : List Datagram) (more : ℕ) (result : Port × Tcb) : Prop :=
  Told result.2 (rightEdges result.2.rcvScale (prior ++ result.1.sent)) more

theorem Port.sent_observe (port : Port) (call : EdgeCall) :
    (TcpHost.observe port call).sent = port.sent := by
  simp [Port.sent, TcpHost.observe]

theorem Port.sent_sendIpv4 (port : Port) (d : Datagram) (now : Instant) :
    (TcpHost.sendIpv4 port d now).1.sent = port.sent ∨
      (TcpHost.sendIpv4 port d now).1.sent = port.sent ++ [d] := by
  simp only [TcpHost.sendIpv4]
  split
  · exact .inl rfl
  · exact .inr (by simp [Port.sent])

theorem sendTcp_sent (port : Port) (tcb : Tcb) (seq : Seq) (flags : Flags) (offset len : ℕ)
    (now : Instant) :
    (sendTcp port tcb seq flags offset len now).1.sent = port.sent ∨
      (sendTcp port tcb seq flags offset len now).1.sent =
        port.sent ++ [tcb.window.1.datagram seq flags offset len tcb.window.2] := by
  have sent := Port.sent_sendIpv4 (TcpHost.observe port tcb.windowCall)
    (tcb.window.1.datagram seq flags offset len tcb.window.2) now
  rw [Port.sent_observe] at sent
  unfold sendTcp
  dsimp only
  generalize TcpHost.sendIpv4 (TcpHost.observe port tcb.windowCall) _ now = result at sent ⊢
  split <;> exact sent

namespace ToldBy

variable {prior : List Datagram} {more : ℕ} {first second : Port × Tcb}

variable {port : Port} {now : Instant}

theorem send {tcb : Tcb} (told : ToldBy prior more (port, tcb)) (seq : Seq)
    {flags : Flags} (offset len : ℕ) (now : Instant) (opened : flags.ack → tcb.state ≠ .synSent) :
    ToldBy prior more ((sendTcp port tcb seq flags offset len now).1,
      (sendTcp port tcb seq flags offset len now).2.1) := by
  obtain ⟨nxt, scale, -, state⟩ := window_frame tcb
  have quiet := sendTcp_window port tcb seq flags offset len now
  have same : (sendTcp port tcb seq flags offset len now).2.1.rcvScale = tcb.rcvScale :=
    (congrArg Frame.rcvScale quiet.frame).trans scale
  have held : Told tcb.window.1 (rightEdges tcb.rcvScale (prior ++ port.sent)) more := told.window
  unfold ToldBy
  dsimp only
  rw [same]
  refine Told.quiet ?_ quiet
  rcases sendTcp_sent port tcb seq flags offset len now with sent | sent
  · rw [sent]
    exact held
  · rw [sent, ← append_assoc, rightEdges_append]
    by_cases tells : (flags.ack && !flags.syn) = true
    · have opened' : tcb.window.1.state ≠ .synSent := by
        rw [state]
        exact opened (by simp at tells; exact tells.1)
      have edge := @Tcb.datagram_rightEdge tcb.window.1 seq flags offset len tells
      rw [← (Tcb.window_reach told.scale).1, scale] at edge
      rw [edge]
      exact held.tell opened'
    · have silent : (tcb.window.1.datagram seq flags offset len tcb.window.2).rightEdge?
          tcb.rcvScale = none := if_neg tells
      rw [silent, Option.toList_none, append_nil]
      exact held

theorem speaks (told : ToldBy prior more first) (speaks : Speaks first second) :
    ToldBy prior more second := by
  induction speaks with
  | refl => exact told
  | @quiet port tcb tcb' _ quiet ih =>
    have scale := congrArg Frame.rcvScale quiet.frame
    have kept := Told.quiet ih quiet
    change tcb'.rcvScale = tcb.rcvScale at scale
    unfold ToldBy
    rw [scale]
    exact kept
  | send _ seq flags offset len now opened ih => exact ih.send seq offset len now opened
  | @reset port tcb _ localAddr remoteAddr seg ack now ih =>
    unfold ToldBy sendReset
    dsimp only
    generalize reply : Datagram.mk _ _ _ _ _ _ _ _ = d
    have silent : d.rightEdge? tcb.rcvScale = none := by
      rw [← reply]
      simp [Datagram.rightEdge?, ack]
    rcases Port.sent_sendIpv4 port d now with sent | sent
    · rw [sent]
      exact ih
    · rw [sent, ← append_assoc, rightEdges_append, silent, Option.toList_none,
        append_nil]
      exact ih
  | look _ call ih =>
    unfold ToldBy
    dsimp only
    rw [Port.sent_observe]
    exact ih

theorem take {tcb : Tcb} {raw : Segment} {result : Port × Tcb}
    (takes : Takes (port, tcb) raw now result)
    (told : ToldBy prior (result.2.rcvNxt - tcb.rcvNxt).toNat (port, tcb))
    (units : 2 ^ tcb.rcvScale ∣ (result.2.rcvNxt - tcb.rcvNxt).toNat) :
    ToldBy prior 0 result := by
  obtain ⟨host, mid, mid', before, taken, after⟩ := takes
  have moved : (mid'.rcvNxt - mid.rcvNxt).toNat = (result.2.rcvNxt - tcb.rcvNxt).toNat := by
    rw [after.rcvNxt, before.rcvNxt]
  have frame : mid'.rcvAdv = mid.rcvAdv ∧ mid'.rcvScale = mid.rcvScale ∧
      (mid'.state.opening → mid'.state = mid.state) := by
    rcases taken with rfl | rfl
    · exact ⟨rfl, rfl, fun _ => rfl⟩
    · obtain ⟨adv, scale, -, opening⟩ := takeData_frame mid now (TcpHost.fits host) raw
      exact ⟨adv, scale, opening⟩
  obtain ⟨adv, scale, opening⟩ := frame
  have held := told.speaks before
  rw [← moved] at held
  have kept : ToldBy prior 0 (host, mid') := by
    unfold ToldBy
    dsimp only
    rw [scale]
    refine Told.take held ?_ adv scale opening
    rw [moved, before.rcvScale]
    exact units
  exact kept.speaks after

theorem restart {tcb tcb' : Tcb} (told : ToldBy prior 0 (port, tcb))
    (opening : tcb.state = .synSent) (scale : tcb'.rcvScale ≤ tcb.rcvScale) :
    ToldBy prior 0 (port, tcb') := by
  have none : rightEdges tcb'.rcvScale (prior ++ port.sent) = [] :=
    rightEdges_nil (Told.silent told opening)
  unfold ToldBy
  dsimp only
  rw [none]
  exact Told.start (scale.trans told.scale)

end ToldBy

namespace Conn

def rightEdges (conn : Conn) : List Seq := Net.rightEdges conn.tcb.rcvScale (sentIn conn.history)

/-- A step that takes whole units of the window, and not so far past the edge last told that
the next could not be compared with it. -/
structure TakesUnits (before after : Conn) : Prop where
  units : 2 ^ before.tcb.rcvScale ∣ (after.tcb.rcvNxt - before.tcb.rcvNxt).toNat
  near : (after.tcb.rcvNxt - before.tcb.rcvNxt).toNat + before.tcb.widest ≤
    2 ^ 31 + before.tcb.rest before.rightEdges

/-- Any step, as long as it takes whole units; before the peer's SYN there is nothing to
take. -/
def UnitStep (before after : Conn) : Prop :=
  Step anyInput before after ∧ (before.tcb.state ≠ .synSent → TakesUnits before after)

end Conn

theorem ToldBy.receive {prior : List Datagram} {slot : ℕ} {tcb : Tcb}
    {seg : Segment} (told : ToldBy prior 0 (port, tcb))
    (units : tcb.state ≠ .synSent →
      2 ^ tcb.rcvScale ∣ ((tcpReceive port slot tcb seg now).2.rcvNxt - tcb.rcvNxt).toNat ∧
      ToldBy prior ((tcpReceive port slot tcb seg now).2.rcvNxt - tcb.rcvNxt).toNat (port, tcb)) :
    ToldBy prior 0 (tcpReceive port slot tcb seg now) := by
  by_cases opening : tcb.state = .synSent
  · unfold tcpReceive
    rw [if_pos opening]
    rcases tcpSynSent_speaks port tcb now seg with speaks | ⟨tcb', opened, -, scale, speaks⟩
    · exact told.speaks speaks
    · exact (told.restart opening scale).speaks speaks
  · obtain ⟨units, near⟩ := units opening
    rcases tcpReceive_takes port tcb now slot seg opening with
      ⟨raw, takes⟩ | ⟨-, raw, tcb', ended, -, takes⟩
    · exact ToldBy.take takes near units
    · have ready : (tcb.listener.elim port fun l => TcpHost.ready port l slot) = port := by
        cases tcb.listener <;> rfl
      have nxt : tcb'.rcvNxt = tcb.rcvNxt := congrArg Frame.rcvNxt ended.frame
      have scale : tcb'.rcvScale = tcb.rcvScale := congrArg Frame.rcvScale ended.frame
      rw [ready] at takes
      rw [← nxt] at units near
      rw [← scale] at units
      exact ToldBy.take takes (near.speaks (Speaks.refl.quiet ended)) units

theorem ToldBy.act {prior : List Datagram} {slot : ℕ} {tcb : Tcb}
    {input : Input} (told : ToldBy prior 0 (port, tcb))
    (units : tcb.state ≠ .synSent →
      2 ^ tcb.rcvScale ∣ ((input.act port slot tcb now).2.1.rcvNxt - tcb.rcvNxt).toNat ∧
      ToldBy prior ((input.act port slot tcb now).2.1.rcvNxt - tcb.rcvNxt).toNat (port, tcb)) :
    ToldBy prior 0 ((input.act port slot tcb now).1, (input.act port slot tcb now).2.1) := by
  cases input with
  | segment seg =>
    have heard : Quiet tcb { tcb with heard := now, keepaliveProbes := 0 } := .still rfl rfl
    exact ToldBy.receive (told.speaks (Speaks.refl.quiet heard)) fun opened =>
      ⟨(units opened).1, (units opened).2.speaks (Speaks.refl.quiet heard)⟩
  | read room => exact told.speaks (tcpRead_speaks port tcb now room)
  | write data => exact told.speaks (tcpWrite_speaks port tcb now data)
  | shutdown => exact told.speaks (tcpShutdown_speaks port tcb now)
  | release => exact told.speaks (tcpRelease_speaks port tcb now)
  | accept => exact Told.keep told rfl rfl rfl fun _ => rfl
  | unlisten =>
    have dropped : ToldBy prior 0 (port, { tcb with released := true, listener := none }) :=
      Told.keep told rfl rfl rfl fun _ => rfl
    exact dropped.speaks (tcpAbort_speaks port _ now)
  | setNodelay nodelay => exact told.speaks (Speaks.refl.quiet (.still rfl rfl))
  | setKeepalive idle => exact told.speaks (Speaks.refl.quiet (.still rfl rfl))
  | icmpError seq reported =>
    exact told.speaks (Speaks.refl.quiet (tcpIcmpError_quiet tcb seq reported))
  | linkReady => exact told.speaks (tcpLinkReady_speaks port tcb now)
  | poll => exact told.speaks (tcpPollOne_speaks port tcb now)

theorem sentIn_happenings (input : Input) (reply : Reply) (port : Port) :
    sentIn (input.happenings reply ++ port.events.map .port) = port.sent := by
  have silent : sentIn (input.happenings reply) = [] := by
    unfold Input.happenings
    split <;> rfl
  rw [sentIn_append, silent, nil_append, sentIn, Port.sent, filterMap_map]
  refine filterMap_congr fun event _ => ?_
  cases event <;> rfl

namespace Conn

variable {before after conn : Conn}

theorem UnitStep.told (step : UnitStep before after) (told : Told before.tcb before.rightEdges 0) :
    Told after.tcb after.rightEdges 0 := by
  obtain ⟨⟨port, quiet, slot, now, input, -, -, -⟩, units⟩ := step
  have none : port.sent = [] := by
    rw [Port.sent, quiet]
    rfl
  have begins : ∀ {more}, Told before.tcb before.rightEdges more →
      ToldBy (sentIn before.history) more (port, before.tcb) := by
    intro more told
    unfold ToldBy
    dsimp only
    rw [none, append_nil]
    exact told
  have dropped : Quiet (input.act port slot before.tcb now).2.1
      (before.after port slot now input).tcb := by
    simp only [Conn.after, Tcb.step]
    split
    · exact dropBuffers_quiet _
    · exact .refl
  have nxt : (before.after port slot now input).tcb.rcvNxt =
      (input.act port slot before.tcb now).2.1.rcvNxt := congrArg Frame.rcvNxt dropped.frame
  have result : ToldBy (sentIn before.history) 0 ((input.act port slot before.tcb now).1,
      (input.act port slot before.tcb now).2.1) := by
    refine ToldBy.act (begins told) fun opened => ?_
    rw [← nxt]
    have taken := units opened
    exact ⟨taken.units, begins ⟨told.scale, told.forward, told.silent, told.kept, taken.near⟩⟩
  have said := ToldBy.speaks result (Speaks.refl.quiet dropped)
  have history : sentIn (before.after port slot now input).history =
      sentIn before.history ++ (input.act port slot before.tcb now).1.sent := by
    simp only [Conn.after, Tcb.step]
    rw [sentIn_append, sentIn_happenings]
  unfold rightEdges
  rw [history]
  exact said

theorem Initial.told (initial : Initial conn) : Told conn.tcb conn.rightEdges 0 := by
  cases initial with
  | @opened port quiet tcb fresh now =>
    have none : port.sent = [] := by
      rw [Port.sent, quiet]
      rfl
    have begins : ToldBy [] 0 (port, tcb) := by
      unfold ToldBy
      dsimp only
      rw [none]
      exact Told.start (ReceiveInv.fresh fresh).scale
    have said := begins.speaks (tcpOutput_speaks port tcb now)
    have history : sentIn (Conn.opened port tcb now).history = (tcpOutput port tcb now).1.sent :=
      sentIn_happenings .poll .none _
    unfold rightEdges
    rw [history]
    exact said

end Conn

/-- While whole units of the window are taken, the right edge the peer is told never moves
left. -/
theorem right_edge_forward {conn : Conn}
    (reachable : Transition.Reachable Conn.Initial Conn.UnitStep conn) :
    conn.rightEdges.IsChain fun left right => le left right := by
  have told : Told conn.tcb conn.rightEdges 0 :=
    @Transition.Reachable.invariant _ _ _ (fun conn => Told conn.tcb conn.rightEdges 0)
      (fun _ initial => initial.told) (fun _ _ told step => step.told told) _ reachable
  exact told.forward

namespace Conn

def wide : Conn :=
  opened {} (.connecting ⟨0x0a000001, 49152⟩ ⟨0x0a000002, 80⟩
    ⟨100000, 64, by decide, Buffers.sixtyFour_lt⟩ 1460 1000) 0

def scaledSynAck : Input :=
  .segment
    { srcPort := 80, dstPort := 49152, seq := 5000, ack := 1001
      flags := { syn := true, ack := true }, window := 1000, mss := none
      windowScale := some 0, data := [], data_lt := Segment.empty_lt }

def scaled : Conn := wide.after {} 0 100 scaledSynAck

def scaledTwo : Conn := scaled.after {} 0 200 (.segment (dataFromServer 5001 [1, 2] (by decide)))

end Conn

set_option maxRecDepth 4000 in
/-- Two bytes arrive and are acknowledged. -/
theorem right_edge_forward_two :
    (Conn.scaledTwo.after {} 0 1000000 .poll).rightEdges = [105001, 105001] ∧
      (Conn.scaledTwo.after {} 0 1000000 .poll).rightEdges.IsChain
        fun left right => le left right := by
  have wide : Transition.Reachable Conn.Initial Conn.UnitStep Conn.wide :=
    .start (.opened {} rfl (.connecting _ _ _ _ _) 0)
  have scaled : Transition.Reachable Conn.Initial Conn.UnitStep Conn.scaled :=
    wide.next ⟨.input {} rfl 0 100 _ (by decide) (by decide) trivial, fun other => absurd rfl other⟩
  have two : Transition.Reachable Conn.Initial Conn.UnitStep Conn.scaledTwo :=
    scaled.next ⟨.input {} rfl 0 200 _ (by decide) (by decide) trivial,
      fun _ => ⟨by decide, by decide⟩⟩
  exact ⟨by decide, right_edge_forward (two.next
    ⟨.input {} rfl 0 1000000 .poll (by decide) (by decide) trivial,
      fun _ => ⟨by decide, by decide⟩⟩)⟩

set_option maxRecDepth 4000 in
/-- One byte is acknowledged on its own: of the unit it leaves half. -/
theorem right_edge_moves_left :
    ∃ conn, Conn.Reachable Conn.anyInput conn ∧ conn.tcb.state = .established ∧
      ¬ conn.rightEdges.IsChain fun left right => le left right :=
  ⟨Conn.wide.run
      [({}, 100, Conn.scaledSynAck),
        ({}, 200, .segment (Conn.dataFromServer 5001 [1] (by decide))), ({}, 1000000, .poll)],
    Conn.Reachable.run (.start (.opened {} rfl (.connecting _ _ _ _ _) 0)) (by decide),
    by decide⟩

end EspDevkit.Net
