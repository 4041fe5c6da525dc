import EspDevkit.Net.Connection

/-!
# Holding received data

What the receive ring and the assembler hold between two segments, and what a
segment's data does to them.
-/

namespace EspDevkit.Net

open SerialNumber List

/-- The memory behind every range of the assembler has the right bytes, by
their offset past the bytes held in order. -/
def Filled (r : Ring) (a : Assembler) (right : ℕ → UInt8 → Prop) : Prop :=
  ∀ offset, Assembler.Holds a.ranges offset →
    ∃ b, r.unrolled[r.len + offset]? = some b ∧ right offset b

namespace Ring

theorem contents_of_overwrite {r r' : Ring} {zeros start : ℕ} {src : List UInt8}
    (wf : r.WellFormed) (len : r'.len = r.len)
    (layout : r'.unrolled =
      overwrite (r.unrolled ++ List.replicate zeros 0) (r.len + start) src) :
    r'.contents = r.contents := by
  have held := wf.len_le
  have all := length_unrolled r
  simp only [contents, layout, len, overwrite, append_assoc]
  rw [take_append_of_le_length (by
      rw [length_take, length_append, length_replicate]; omega),
    take_take, Nat.min_eq_left (by omega), take_append_of_le_length (by omega)]

end Ring

theorem Filled.write {r r' : Ring} {a a' : Assembler} {right : ℕ → UInt8 → Prop}
    {zeros start : ℕ} {src : List UInt8} (filled : Filled r a right) (len : r'.len = r.len)
    (layout : r'.unrolled =
      overwrite (r.unrolled ++ List.replicate zeros 0) (r.len + start) src)
    (room : r.len + start + src.length ≤ r.data.length + zeros)
    (arrives : ∀ i b, src[i]? = some b → right (start + i) b)
    (notes : ∀ offset, Assembler.Holds a'.ranges offset →
      (start ≤ offset ∧ offset < start + src.length) ∨ Assembler.Holds a.ranges offset) :
    Filled r' a' right := by
  intro offset holds
  have total : (r.unrolled ++ List.replicate zeros 0).length = r.data.length + zeros := by simp
  rw [len, layout, getElem?_overwrite (by omega)]
  by_cases inside : start ≤ offset ∧ offset < start + src.length
  · rw [if_pos (by omega)]
    have bound : r.len + offset - (r.len + start) < src.length := by omega
    refine ⟨_, List.getElem?_eq_getElem bound, ?_⟩
    have := arrives _ _ (List.getElem?_eq_getElem bound)
    rwa [show start + (r.len + offset - (r.len + start)) = offset by omega] at this
  · rw [if_neg (by omega)]
    obtain ⟨b, known, isRight⟩ := filled offset ((notes offset holds).resolve_left inside)
    refine ⟨b, ?_, isRight⟩
    rw [List.getElem?_append_left (List.getElem?_eq_some_iff.mp known).1]
    exact known

structure Holding (r : Ring) (a : Assembler) (right : ℕ → UInt8 → Prop) : Prop where
  ring : r.WellFormed
  ranges : a.WellFormed (r.data.length - r.len)
  filled : Filled r a right

namespace Core

theorem hold_spec {c : Core} {right : ℕ → UInt8 → Prop}
    (holding : Holding c.rx c.assembler right) (fits : ℕ → Bool) (start : ℕ)
    (data : List UInt8) (arrives : ∀ i b, data[i]? = some b → right (start + i) b) :
    ∃ rx a, c.hold fits start data = (rx, a) ∧ rx.WellFormed ∧ rx.len = c.rx.len ∧
      rx.capacity = c.rx.capacity ∧ rx.contents = c.rx.contents ∧
      Assembler.Separated a.ranges ∧ a.count ≤ maxRanges ∧
      (∀ r ∈ a.ranges, r.2 ≤ rx.data.length - rx.len) ∧ Filled rx a right := by
  have unchanged : ∃ rx a, (c.rx, c.assembler) = (rx, a) ∧ rx.WellFormed ∧ rx.len = c.rx.len ∧
      rx.capacity = c.rx.capacity ∧ rx.contents = c.rx.contents ∧
      Assembler.Separated a.ranges ∧ a.count ≤ maxRanges ∧
      (∀ r ∈ a.ranges, r.2 ≤ rx.data.length - rx.len) ∧ Filled rx a right :=
    ⟨_, _, rfl, holding.ring, rfl, rfl, rfl, holding.ranges.separated, holding.ranges.count_le,
      holding.ranges.within, holding.filled⟩
  simp only [hold]
  generalize stopEq : min (start + data.length) c.rx.free = stop
  split
  · rename_i nonempty
    have wf := holding.ring
    have held := wf.len_le
    have memory := wf.data_le
    have freeEq : c.rx.free = c.rx.capacity - c.rx.len := rfl
    have taken : (data.take (stop - start)).length = stop - start := by
      rw [length_take]
      omega
    rcases Ring.writeFree_cases fits wf start (data.take (stop - start))
        (by omega) with
      ⟨failed, _⟩ | ⟨written, zeros, wrote, writtenWf, layout, len, capacity, grows, room⟩
    · rw [failed]
      exact unchanged
    · rw [wrote]
      have room' := room (by intro nil; rw [nil] at taken; simp at taken; omega)
      rw [taken] at room'
      have bytes : ∀ i b, (data.take (stop - start))[i]? = some b → right (start + i) b := by
        intro i b known
        refine arrives i b ?_
        rw [← List.getElem?_take_of_lt (show i < stop - start by
          have := (List.getElem?_eq_some_iff.mp known).1
          omega)]
        exact known
      have limit : ∀ r ∈ c.assembler.ranges, r.2 ≤ written.data.length - written.len := by
        intro r member
        have := holding.ranges.within r member
        omega
      have wider : c.assembler.WellFormed (written.data.length - written.len) :=
        ⟨holding.ranges.separated, holding.ranges.count_le, holding.ranges.past_gap, limit⟩
      refine ⟨written, _, rfl, writtenWf, len, capacity,
        Ring.contents_of_overwrite wf len layout, ?_⟩
      have room'' : c.rx.len + start + (data.take (stop - start)).length ≤
          c.rx.data.length + zeros := by omega
      cases noted : (c.assembler.add start stop).2 with
      | true =>
        obtain ⟨separated, count, within, notes⟩ := Assembler.add_spec wider nonempty
          (by omega) noted
        refine ⟨separated, count, within, holding.filled.write len layout room'' bytes ?_⟩
        intro offset holds
        refine (notes offset holds).imp_left fun inside => ?_
        rw [taken]
        omega
      | false =>
        have same : (c.assembler.add start stop).1 = c.assembler := by
          simp only [Assembler.add] at noted ⊢
          split at noted
          · rename_i full
            rw [if_pos full]
          · simp at noted
        rw [same]
        exact ⟨holding.ranges.separated, holding.ranges.count_le, limit,
          holding.filled.write len layout room'' bytes fun _ holds => Or.inr holds⟩
  · exact unchanged

/-- A segment's data in the ring: some bytes come to be held in order, all of
them right, and the rest stays right. -/
theorem takeBytes_spec {c : Core} {right : ℕ → UInt8 → Prop}
    (holding : Holding c.rx c.assembler right) (fits : ℕ → Bool) (seg : Segment)
    (arrives : ∀ (i : ℕ) b, seg.data[i]? = some b →
      ∀ offset : ℕ, (offset : Int) = c.dataOffset seg + i → right offset b) :
    ∃ (rx : Ring) (assembler : Assembler) (bytes : List UInt8),
      c.takeBytes fits seg =
        { c with rx, assembler, rcvNxt := place c.rcvNxt bytes.length } ∧
      rx.contents = c.rx.contents ++ bytes ∧ rx.len = c.rx.len + bytes.length ∧
      rx.capacity = c.rx.capacity ∧ (∀ i b, bytes[i]? = some b → right i b) ∧
      Holding rx assembler fun offset => right (bytes.length + offset) := by
  simp only [takeBytes]
  generalize c.dataOffset seg = offset at arrives
  split
  · exact ⟨c.rx, c.assembler, [], by simp, by simp, rfl, rfl, by simp, by simpa using holding⟩
  · have arrivesHere : ∀ i b, (seg.data.drop (-offset).toNat)[i]? = some b →
        right (offset.toNat + i) b := by
      intro i b known
      rw [List.getElem?_drop] at known
      exact arrives _ b known _ (by omega)
    obtain ⟨rx, a, held, wf, len, capacity, contents, separated, count, within, filled⟩ :=
      hold_spec holding fits offset.toNat (seg.data.drop (-offset).toNat) arrivesHere
    rw [held]
    obtain ⟨ranges, front, covered, rest⟩ := Assembler.takeFront_spec separated count within
    generalize a.takeFront = result at *
    obtain ⟨kept, n⟩ := result
    have memory := wf.len_le
    have committed : ((rx.unrolled.drop rx.len).take n).length = n := by
      rw [length_take, length_drop, Ring.length_unrolled]
      change n ≤ _ at front
      omega
    refine ⟨rx.commit n, kept, (rx.unrolled.drop rx.len).take n, ?_, ?_, ?_, capacity, ?_, ?_⟩
    · rw [committed]
      rfl
    · rw [Ring.contents_commit, contents]
    · rw [committed, ← len]
      rfl
    · intro i b known
      have bound : i < n := by
        have := (List.getElem?_eq_some_iff.mp known).1
        omega
      rw [List.getElem?_take_of_lt bound, List.getElem?_drop] at known
      obtain ⟨b', there, isRight⟩ := filled i (covered i bound)
      rw [known] at there
      cases there
      exact isRight
    · have fits : rx.len + n ≤ rx.data.length := by
        change n ≤ _ at front
        omega
      refine ⟨Ring.commit_wellFormed wf fits, ?_, ?_⟩
      · have same : (rx.commit n).data.length - (rx.commit n).len =
            rx.data.length - rx.len - n := by
          simp only [Ring.commit]
          omega
        rw [same]
        exact ranges
      · intro offset holds
        obtain ⟨b, there, isRight⟩ := filled _ (rest offset holds)
        refine ⟨b, ?_, ?_⟩
        · rw [Ring.unrolled_commit, ← there]
          congr 1
          simp only [Ring.commit]
          omega
        · rw [committed]
          simpa only [Nat.add_comm] using isRight

end Core

theorem Holding.discard {r : Ring} {a : Assembler} {right : ℕ → UInt8 → Prop}
    (holding : Holding r a right) {n : ℕ} (held : n ≤ r.len) :
    Holding (r.discard n) a right := by
  have wf := holding.ring
  have memory := wf.len_le
  obtain ⟨layout, wf'⟩ := Ring.unrolled_discard wf held
  have data : (r.discard n).data = r.data := by
    simp only [Ring.discard]
    split <;> rfl
  refine ⟨wf', ⟨holding.ranges.separated, holding.ranges.count_le, holding.ranges.past_gap,
    fun range member => ?_⟩, fun offset holds => ?_⟩
  · have := holding.ranges.within range member
    rw [data, Ring.len_discard]
    omega
  · obtain ⟨b, there, isRight⟩ := holding.filled offset holds
    refine ⟨b, ?_, isRight⟩
    obtain ⟨range, member, inside⟩ := holds
    have bound := holding.ranges.within range member
    rw [layout, Ring.len_discard, List.getElem?_append_left (by
      rw [length_drop, Ring.length_unrolled]; omega), List.getElem?_drop, ← there]
    congr 1
    omega

theorem holding_new (capacity : ℕ) (right : ℕ → UInt8 → Prop) :
    Holding (.new capacity) .empty right :=
  ⟨Ring.wellFormed_new _, Assembler.wellFormed_empty _, by
    rintro offset ⟨range, member, _⟩
    simp [Assembler.empty] at member⟩

end EspDevkit.Net

/-!
## The receive side

What every reachable connection keeps of its receive ring, its assembler and
its window scale.
-/

namespace EspDevkit.Net

open SerialNumber

def State.afterFin : State → Bool
  | .closeWait | .closing | .lastAck | .timeWait => true
  | _ => false

def State.buffers : State → Bool
  | .timeWait | .closed => false
  | _ => true

def State.opening : State → Bool
  | .synSent | .synReceived => true
  | _ => false

structure ReceiveInv (c : Core) : Prop where
  ring : c.rx.WellFormed
  capacity : c.rx.capacity < 2 ^ 32
  scale : c.rcvScale ≤ maxWindowScale
  holding : c.state.buffers → Holding c.rx c.assembler fun _ _ => True
  empty : c.state.opening → c.rx.len = 0
  finReceived : c.state.afterFin → c.finReceived

namespace ReceiveInv

variable {ctx : Context} {c : Core}

theorem keep (inv : ReceiveInv c) {c' : Core} (same : c'.toReceiveSide = c.toReceiveSide)
    (buffers : c'.state.buffers → c.state.buffers)
    (opening : c'.state.opening → c.state.opening)
    (afterFin : c'.state.afterFin → c.state.afterFin) : ReceiveInv c' := by
  obtain ⟨send', receive', _⟩ := c'
  obtain rfl : receive' = c.toReceiveSide := same
  exact ⟨inv.ring, inv.capacity, inv.scale, fun uses => inv.holding (buffers uses),
    fun opens => inv.empty (opening opens), fun after => inv.finReceived (afterFin after)⟩

theorem takeSyn (inv : ReceiveInv c) (seg : Segment) (synSent : c.state = .synSent)
    {s : SendSide} (after : s.state = .synReceived ∨ s.state = .established) :
    ReceiveInv { c.takeSyn seg with toSendSide := s } := by
  refine ⟨inv.ring, inv.capacity, ?_, fun _ => inv.holding (by rw [synSent]; rfl),
    fun _ => inv.empty (by rw [synSent]; rfl), ?_⟩
  · simp only [Core.takeSyn]
    split
    · exact inv.scale
    · exact Nat.zero_le _
  · intro fin
    rcases after with after | after <;> simp [after, State.afterFin] at fin

theorem takeFin (inv : ReceiveInv c) (opened : c.opened) : ReceiveInv c.takeFin := by
  have past : c.state ≠ .synSent ∧ c.state ≠ .synReceived := by
    constructor <;> intro state <;> simp [Core.opened, state, State.synchronized] at opened
  refine ⟨inv.ring, inv.capacity, inv.scale, fun uses => inv.holding ?_, fun opens => ?_,
    fun _ => rfl⟩
  · cases state : c.state <;> simp [Core.takeFin, state, State.buffers] at uses ⊢
  · cases state : c.state <;> by_cases acks : c.acksFin c.sndUna <;>
      simp [Core.takeFin, state, acks, State.opening] at opens past

theorem move {after : Core} {labels : List Happening} (inv : ReceiveInv c)
    (move : Move ctx c labels after) : ReceiveInv after := by
  cases move with
  | offer =>
    obtain ⟨adv, same⟩ := offered_eq c
    rw [same]
    exact ⟨inv.ring, inv.capacity, inv.scale, inv.holding, inv.empty, inv.finReceived⟩
  | simultaneous seg _ opening => exact inv.takeSyn seg opening (Or.inl rfl)
  | connected seg _ opening => exact inv.takeSyn seg opening (Or.inr rfl)
  | established raw seg _ _ opening =>
    exact inv.keep rfl (fun _ => by rw [opening]; rfl) (by simp [State.opening])
      (by simp [State.afterFin])
  | acked raw seg =>
    refine inv.keep ?_ ?_ ?_ ?_ <;> simp only [Core.recordAck, Core.dropAcked] <;> split <;>
      first | rfl | exact id
  | finAcked =>
    refine inv.keep ?_ ?_ ?_ ?_ <;> cases state : c.state <;>
      simp [Core.finAcked, state, State.buffers, State.opening, State.afterFin]
  | data fits raw seg _ _ _ takes =>
    have uses : c.state.buffers := by
      cases state : c.state <;> simp [state, State.takesData, State.buffers] at takes ⊢
    obtain ⟨rx, assembler, bytes, eq, _, len, capacity, _, holding⟩ :=
      Core.takeBytes_spec (inv.holding uses) fits seg fun _ _ _ _ _ => trivial
    rw [eq]
    refine ⟨holding.ring, ?_, inv.scale, fun _ => holding, ?_, inv.finReceived⟩
    · change rx.capacity < _
      rw [capacity]
      exact inv.capacity
    · intro opens
      cases state : c.state <;> simp [state, State.takesData, State.opening] at takes opens
  | fin raw seg _ _ _ opened => exact inv.takeFin opened
  | shutdown state _ from' =>
    rcases from' with ⟨before | before, rfl⟩ | ⟨before, rfl⟩ <;>
      exact inv.keep rfl (by simp [before, State.buffers]) (by simp [State.opening])
        (by simp [before, State.afterFin])
  | close =>
    exact inv.keep rfl (by simp [State.buffers]) (by simp [State.opening])
      (by simp [State.afterFin])
  | pop n held | popLook n held =>
    refine ⟨(Ring.unrolled_discard inv.ring held).2, ?_, inv.scale,
      fun uses => (inv.holding uses).discard held, fun opens => ?_, inv.finReceived⟩
    · change (c.rx.discard n).capacity < _
      rw [Ring.capacity_discard]
      exact inv.capacity
    · have none := inv.empty opens
      change (c.rx.discard n).len = 0
      rw [Ring.len_discard]
      omega
  | sendSyn | send | resend | sendAck | sendRst | window | timeout | persist | startPersist
  | stopRetransmit | release | push => exact inv.keep rfl id id id

theorem dropBuffers (inv : ReceiveInv c) (waiting : c.state = .timeWait) :
    ReceiveInv c.dropBuffers := by
  refine ⟨Ring.wellFormed_new 0, ?_, inv.scale, ?_, fun _ => rfl, inv.finReceived⟩
  · change 0 < 2 ^ 32
    omega
  · intro uses
    have state : c.dropBuffers.state = .timeWait := waiting
    simp [state, State.buffers] at uses

theorem scaleFor_le (rx : ℕ) : Tcb.scaleFor rx ≤ maxWindowScale := by
  simp only [Tcb.scaleFor]
  cases found : (List.range (maxWindowScale + 1)).find? fun s => decide (rx >>> s ≤ 0xffff) with
  | none => exact Nat.le_refl _
  | some scale =>
    have := List.mem_of_find?_eq_some found
    rw [List.mem_range] at this
    exact Nat.le_of_lt_succ this

theorem fresh {tcb : Tcb} (fresh : Conn.Fresh tcb) : ReceiveInv tcb.core := by
  cases fresh with
  | connecting localAddr remoteAddr buffers rcvMss iss =>
    exact ⟨Ring.wellFormed_new _, buffers.rx_lt, scaleFor_le _, fun _ => holding_new _ _,
      fun _ => rfl, by simp [Tcb.core, Tcb.connecting, Tcb.new, State.afterFin]⟩
  | accepting listener localAddr remoteAddr buffers rcvMss iss syn =>
    refine ⟨Ring.wellFormed_new _, buffers.rx_lt, ?_, fun _ => holding_new _ _, fun _ => rfl,
      by simp [Tcb.core, Tcb.accepting, Tcb.onSyn, Tcb.new, State.afterFin]⟩
    change (if syn.windowScale.isSome then Tcb.scaleFor buffers.rx else 0) ≤ _
    split
    · exact scaleFor_le _
    · exact Nat.zero_le _

theorem of_reachable {allowed : Tcb → Instant → Input → Prop} {conn : Conn}
    (reachable : Conn.Reachable allowed conn) : ReceiveInv conn.tcb.core :=
  @Conn.Reachable.invariant _ (fun core _ => ReceiveInv core) (fun _ => fresh)
    (fun _ _ _ _ inv move => inv.move move) (fun _ _ _ _ _ _ _ _ _ _ inv move => inv.move move)
    (fun _ _ waiting _ inv => inv.dropBuffers waiting) _ reachable

end ReceiveInv

end EspDevkit.Net

/-!
## Data that arrives in order

The assembler has room for four ranges.
-/

namespace EspDevkit.Net

open SerialNumber

/-- The four ranges are taken and the bytes end before the first of them. -/
def Assembler.Crowded (a : Assembler) (stop : ℕ) : Prop :=
  a.count = maxRanges ∧ ∀ first ∈ a.ranges.head?, stop < first.1

instance (a : Assembler) (stop : ℕ) : Decidable (a.Crowded stop) :=
  inferInstanceAs (Decidable (_ ∧ ∀ first ∈ a.ranges.head?, stop < first.1))

/-- How far the in-order part of what is held reaches once bytes up to `stop`
were added in front. -/
theorem Assembler.front_of_add_zero {a : Assembler} {limit stop : ℕ} (wf : a.WellFormed limit)
    (some : 0 < stop) :
    stop ≤ ((a.add 0 stop).1.takeFront).2 ↔ ¬ a.Crowded stop := by
  rw [Assembler.Crowded, ← add_zero_refused_iff wf]
  cases taken : (a.add 0 stop).2 with
  | true => simpa using takeFront_add_zero wf taken
  | false =>
    have same : (a.add 0 stop).1 = a := by
      simp only [Assembler.add] at taken ⊢
      split at taken
      · rename_i full
        rw [if_pos full]
      · simp at taken
    have nothing : a.takeFront.2 = 0 := by
      simp only [takeFront]
      split
      · rfl
      · rename_i s n ranges eq
        have gap := wf.past_gap (s, n) (by rw [eq]; exact List.mem_cons_self)
        rw [if_pos (Nat.pos_iff_ne_zero.mp gap)]
    rw [same, nothing]
    simp only [not_true_eq_false, iff_false, Nat.not_le]
    exact some

/-- In every state in which a connection takes data, a segment whose data goes
on where the stream stands moves `rcv_nxt` by all of the data that fits, unless
the assembler is crowded. -/
theorem in_order_data_taken_iff {conn : Conn} (reachable : Conn.Reachable Conn.anyInput conn)
    (takes : conn.tcb.state.takesData) {seg : Segment} (next : seg.seq = conn.tcb.rcvNxt)
    (some : seg.data ≠ []) (free : 0 < conn.tcb.rx.free) {fits : ℕ → Bool}
    (memory : (conn.tcb.rx.writeFree fits 0
      (seg.data.take (min seg.data.length conn.tcb.rx.free))).2 = true) (now : Instant) :
    min seg.data.length conn.tcb.rx.free ≤
        ((tcpData fits conn.tcb seg now).rcvNxt - conn.tcb.rcvNxt).toNat ↔
      ¬ conn.tcb.assembler.Crowded (min seg.data.length conn.tcb.rx.free) := by
  have inv := ReceiveInv.of_reachable reachable
  have uses : conn.tcb.core.state.buffers := by
    change conn.tcb.state.buffers = true
    cases state : conn.tcb.state <;> simp [state, State.takesData, State.buffers] at takes ⊢
  have ranges := (inv.holding uses).ranges
  have length := List.length_pos_iff.mpr some
  have core : (tcpData fits conn.tcb seg now).rcvNxt =
      (conn.tcb.core.takeBytes fits seg).rcvNxt :=
    congrArg (·.rcvNxt) (tcpData_core fits conn.tcb seg now)
  have start : conn.tcb.core.dataOffset seg = 0 := by
    change (seg.seq - conn.tcb.rcvNxt).toInt = 0
    simp [next]
  have held : (conn.tcb.core.hold fits 0 seg.data).2 =
      (conn.tcb.assembler.add 0 (min seg.data.length conn.tcb.rx.free)).1 := by
    have rx : conn.tcb.core.rx = conn.tcb.rx := rfl
    simp only [Core.hold, rx, Nat.zero_add, Nat.sub_zero]
    rw [if_pos (by omega)]
    generalize conn.tcb.rx.writeFree fits 0 _ = written at memory ⊢
    obtain ⟨ring, ok⟩ := written
    change ok = true at memory
    subst memory
    rfl
  have front : min seg.data.length conn.tcb.rx.free ≤
      ((conn.tcb.assembler.add 0 (min seg.data.length conn.tcb.rx.free)).1.takeFront).2 ↔
        ¬ conn.tcb.assembler.Crowded (min seg.data.length conn.tcb.rx.free) :=
    Assembler.front_of_add_zero ranges (by omega)
  have moved : (conn.tcb.core.takeBytes fits seg).rcvNxt =
      place conn.tcb.rcvNxt ((conn.tcb.core.hold fits 0 seg.data).2.takeFront).2 := by
    simp only [Core.takeBytes, start, Int.neg_zero, Int.toNat_zero, List.drop_zero]
    rw [if_neg (by omega)]
    rfl
  have small : ((conn.tcb.core.hold fits 0 seg.data).2.takeFront).2 < 2 ^ 32 := by
    obtain ⟨rx, a, eq, wf, _, _, _, separated, count, within, _⟩ :=
      Core.hold_spec (inv.holding uses) fits 0 seg.data fun _ _ _ => trivial
    have bound := (Assembler.takeFront_spec separated count within).2.1
    have memory := wf.data_le_isizeMax
    rw [eq]
    simp only [isizeMax] at memory
    change a.takeFront.2 < _
    omega
  rw [core, moved, place_sub_self small, held]
  exact front

/-- A segment with nothing in the way. -/
theorem in_order_data_taken_at_once :
    2 ≤ ((tcpData (fun _ => true) (Conn.toServer.run [({}, 100, Conn.serverSynAck)]).tcb
      (Conn.dataFromServer 5001 [1, 2] (by decide)) 200).rcvNxt - 5001).toNat :=
  (@in_order_data_taken_iff (Conn.toServer.run [({}, 100, Conn.serverSynAck)])
    ((Conn.toServer_reachable _).run (by decide)) (by decide)
    (Conn.dataFromServer 5001 [1, 2] (by decide)) (by decide) (by decide) (by decide)
    (fun _ => true) (by decide) 200).mpr (by decide)

/-- With four bytes held past gaps, the byte of the first gap is refused. -/
theorem in_order_data_taken_fails :
    ∃ conn seg, Conn.Reachable Conn.anyInput conn ∧ conn.tcb.state.takesData ∧
      acceptable conn.tcb seg ∧ seg.seq = conn.tcb.rcvNxt ∧ seg.data.length = 1 ∧
      0 < conn.tcb.rx.free ∧ (conn.tcb.rx.writeFree (fun _ => true) 0 seg.data).2 = true ∧
      (tcpData (fun _ => true) conn.tcb seg 900).rcvNxt = conn.tcb.rcvNxt :=
  ⟨Conn.toServer.run
      [({}, 100, Conn.serverSynAck), ({}, 200, .segment (Conn.dataFromServer 5003 [1] (by decide))),
        ({}, 300, .segment (Conn.dataFromServer 5005 [2] (by decide))),
        ({}, 400, .segment (Conn.dataFromServer 5007 [3] (by decide))),
        ({}, 500, .segment (Conn.dataFromServer 5009 [4] (by decide)))],
    Conn.dataFromServer 5001 [5] (by decide), (Conn.toServer_reachable _).run (by decide), by decide⟩

end EspDevkit.Net
