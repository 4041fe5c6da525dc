import EspDevkit.Net.SentStream

/-!
# The stream as it is received

Where the bytes a connection holds and has handed over stand in the stream its
peer writes.
-/

namespace EspDevkit.Net

open SerialNumber List

/-- What a segment that arrives tells of the stream the peer has written so
far; `ended` when the peer will write no more. -/
structure Tells (iss : Seq) (accepted : List UInt8) (ended : Prop) (seg : Segment) : Prop where
  syn : seg.flags.syn → seg.seq = iss ∧ seg.data = [] ∧ seg.flags.fin = false
  data : seg.data ≠ [] → ∃ pos, seg.seq = place iss (1 + pos) ∧ seg.data <+: accepted.drop pos ∧
    accepted.length < pos + 2 ^ 31
  fin : seg.flags.fin → ended ∧ (place seg.seq seg.data.length = finPlace iss accepted ∨
    seg.seq = iss ∧ seg.data = [] ∧ accepted = [])

theorem Stands.stream {raw seg : Segment} (stands : Stands raw seg) :
    seg.data = raw.data ∧ seg.flags.fin = raw.flags.fin := by
  rcases stands with rfl | ⟨_, rfl⟩ <;> exact ⟨rfl, rfl⟩

theorem Tells.stands {iss : Seq} {accepted : List UInt8} {ended : Prop} {raw seg : Segment}
    (tells : Tells iss accepted ended raw) (stands : Stands raw seg) :
    Tells iss accepted ended seg := by
  rcases stands with rfl | ⟨syn, rfl⟩
  · exact tells
  · obtain ⟨_, empty, noFin⟩ := tells.syn syn
    exact ⟨by simp, fun some => absurd empty some, by simp [noFin]⟩

/-- So many bytes of the stream have come in order; some of them are still
held. -/
structure Receiving (iss : Seq) (accepted : List UInt8) (ended : Prop) (c : Core)
    (returned : List UInt8) (got : ℕ) : Prop where
  nxt : c.rcvNxt = place iss (1 + got + c.finReceived.toNat)
  within : got ≤ accepted.length
  bytes : returned ++ c.rx.contents = accepted.take got
  holding : Holding c.rx c.assembler fun offset b => accepted[got + offset]? = some b
  fin : c.finReceived → got = accepted.length ∧ ended
  past : c.state ≠ .synSent
  more : c.state.takesData ∨ c.state.opening → c.finReceived = false

inductive Received (iss : Seq) (accepted : List UInt8) (ended : Prop) (c : Core)
    (returned : List UInt8) : Prop
  /-- The peer's SYN has not come. -/
  | waiting (state : c.state = .synSent ∨ c.state = .closed) (noFin : c.finSeq = none)
      (empty : c.rx.len = 0) (holding : ∀ right, Holding c.rx c.assembler right)
      (nothing : returned = []) (open' : c.finReceived = false)
  | receiving (got : ℕ) (receiving : Receiving iss accepted ended c returned got)
  /-- Nobody reads what was still held. -/
  | dropped (state : c.state = .timeWait ∨ c.state = .closed) (released : c.released)
      (empty : c.rx.len = 0) (fin : c.finReceived) (read : returned <+: accepted)

theorem take_add_of_right {accepted bytes : List UInt8} {got : ℕ} (within : got ≤ accepted.length)
    (right : ∀ (i : ℕ) b, bytes[i]? = some b → accepted[got + i]? = some b) :
    accepted.take (got + bytes.length) = accepted.take got ++ bytes := by
  apply ext_getElem?
  intro i
  have front : (accepted.take got).length = got := by
    rw [length_take]
    omega
  rcases Nat.lt_or_ge i got with before | past
  · rw [List.getElem?_take_of_lt (by omega), List.getElem?_append_left (by omega),
      List.getElem?_take_of_lt before]
  · rw [List.getElem?_append_right (by omega), front]
    rcases Nat.lt_or_ge (i - got) bytes.length with inside | beyond
    · rw [List.getElem?_take_of_lt (by omega)]
      have := right _ _ (List.getElem?_eq_getElem inside)
      rw [List.getElem?_eq_getElem inside, ← this]
      congr 1
      omega
    · rw [List.getElem?_eq_none (by rw [length_take]; omega), List.getElem?_eq_none beyond]

namespace Receiving

variable {iss : Seq} {accepted : List UInt8} {ended : Prop} {c : Core} {returned : List UInt8}
  {got : ℕ}

theorem read (receiving : Receiving iss accepted ended c returned got) :
    returned <+: accepted :=
  (prefix_append returned _).trans (by rw [receiving.bytes]; exact take_prefix _ _)

theorem length_returned (receiving : Receiving iss accepted ended c returned got) :
    returned.length ≤ got := by
  have all := congrArg List.length receiving.bytes
  rw [length_append, length_take] at all
  omega

theorem later (receiving : Receiving iss accepted ended c returned got)
    {accepted' : List UInt8} {ended' : Prop} (grows : accepted <+: accepted')
    (stops : ended → ended' ∧ accepted' = accepted) :
    Receiving iss accepted' ended' c returned got := by
  obtain ⟨new, rfl⟩ := grows
  have within := receiving.within
  refine ⟨receiving.nxt, by rw [length_append]; omega, ?_, ⟨receiving.holding.ring,
    receiving.holding.ranges, fun offset holds => ?_⟩, fun fin => ?_, receiving.past,
    receiving.more⟩
  · rw [receiving.bytes, take_append_of_le_length within]
  · obtain ⟨b, there, right⟩ := receiving.holding.filled offset holds
    refine ⟨b, there, ?_⟩
    rw [List.getElem?_append_left (List.getElem?_eq_some_iff.mp right).1]
    exact right
  · obtain ⟨all, isEnded⟩ := receiving.fin fin
    obtain ⟨isEnded', same⟩ := stops isEnded
    exact ⟨by rw [same]; exact all, isEnded'⟩

theorem data (receiving : Receiving iss accepted ended c returned got) (fits : ℕ → Bool)
    {seg : Segment} (tells : Tells iss accepted ended seg) (takes : c.state.takesData)
    (few : seg.data ≠ [] → accepted.length < returned.length + 2 ^ 31) :
    ∃ got', Receiving iss accepted ended (c.takeBytes fits seg) returned got' := by
  have within := receiving.within
  have returnedLe := receiving.length_returned
  have noFin := receiving.more (Or.inl takes)
  have nxt : c.rcvNxt = place iss (1 + got) := by simpa [noFin] using receiving.nxt
  have arrives : ∀ (i : ℕ) b, seg.data[i]? = some b →
      ∀ offset : ℕ, (offset : Int) = c.dataOffset seg + i → accepted[got + offset]? = some b := by
    intro i b known offset place'
    have some : seg.data ≠ [] := by
      intro nil
      simp [nil] at known
    obtain ⟨pos, seq, piece, near⟩ := tells.data some
    have few := few some
    obtain ⟨rest, eq⟩ := piece
    have inside := (List.getElem?_eq_some_iff.mp known).1
    have total := congrArg List.length eq
    rw [length_append, length_drop] at total
    have start : c.dataOffset seg = (pos : Int) - got := by
      rw [Core.dataOffset, seq, nxt, toInt_place_sub_place (by omega) (by omega)]
      omega
    have same : got + offset = pos + i := by omega
    rw [same, ← List.getElem?_drop, ← eq, List.getElem?_append_left inside]
    exact known
  obtain ⟨rx, assembler, bytes, eq, contents, _, _, right, holding⟩ :=
    Core.takeBytes_spec receiving.holding fits seg arrives
  have piece := take_add_of_right within right
  have within' : got + bytes.length ≤ accepted.length := by
    have all := congrArg List.length piece
    rw [length_take, length_append, length_take] at all
    omega
  rw [eq]
  refine ⟨got + bytes.length, ?_, within', ?_, ?_, ?_, receiving.past, receiving.more⟩
  · change place c.rcvNxt bytes.length = place iss (1 + (got + bytes.length) + c.finReceived.toNat)
    rw [nxt, noFin, place_place]
    congr 1
    simp only [Bool.toNat_false]
    omega
  · change returned ++ rx.contents = _
    rw [contents, ← append_assoc, receiving.bytes, piece]
  · simpa only [Nat.add_assoc] using holding
  · intro fin
    have fin : c.finReceived = true := fin
    simp [noFin] at fin

theorem fin' (receiving : Receiving iss accepted ended c returned got) {seg : Segment}
    (tells : Tells iss accepted ended seg) (few : accepted.length < returned.length + 2 ^ 31)
    (fin : seg.flags.fin) (next : seg.seq + BitVec.ofNat 32 seg.data.length = c.rcvNxt)
    (first : c.finReceived = false) (opened : c.opened) :
    Receiving iss accepted ended c.takeFin returned got := by
  have within := receiving.within
  have returnedLe := receiving.length_returned
  obtain ⟨isEnded, place'⟩ := tells.fin fin
  have nxt : c.rcvNxt = place iss (1 + got) := by simpa [first] using receiving.nxt
  have all : got = accepted.length := by
    rw [add_ofNat, nxt] at next
    rcases place' with atEnd | ⟨seq, empty, nothing⟩
    · rw [atEnd, finPlace] at next
      have := (place_inj (by omega) (by omega)).mp next
      omega
    · rw [nothing] at within ⊢
      simpa using within
  have past : c.state ≠ .synSent ∧ c.state ≠ .synReceived := by
    constructor <;> intro state <;> simp [Core.opened, state, State.synchronized] at opened
  refine ⟨?_, within, receiving.bytes, receiving.holding, fun _ => ⟨all, isEnded⟩, ?_, ?_⟩
  · change c.rcvNxt + 1 = place iss (1 + got + true.toNat)
    rw [nxt]
    exact place_place _ _ 1
  · cases state : c.state <;> by_cases acks : c.acksFin c.sndUna <;>
      simp [Core.takeFin, state, acks] at past ⊢
  · intro more
    exfalso
    cases state : c.state <;> by_cases acks : c.acksFin c.sndUna <;>
      simp [Core.takeFin, state, acks, State.takesData, State.opening] at more past

theorem pop (receiving : Receiving iss accepted ended c returned got) {n : ℕ}
    (held : n ≤ c.rx.len) :
    Receiving iss accepted ended { c with rx := c.rx.discard n }
      (returned ++ c.rx.readAt 0 n) got := by
  have wf := receiving.holding.ring
  refine ⟨receiving.nxt, receiving.within, ?_, receiving.holding.discard held, receiving.fin,
    receiving.past, receiving.more⟩
  change _ ++ (c.rx.discard n).contents = _
  rw [Ring.readAt_eq wf, Ring.contents_discard wf held, drop_zero, append_assoc,
    take_append_drop]
  exact receiving.bytes

end Receiving

namespace Received

variable {ctx : Context} {iss : Seq} {accepted : List UInt8} {ended : Prop} {c : Core}
  {returned : List UInt8}

theorem read (received : Received iss accepted ended c returned) : returned <+: accepted := by
  cases received with
  | waiting _ _ _ _ nothing =>
    rw [nothing]
    exact nil_prefix
  | receiving got receiving => exact receiving.read
  | dropped _ _ _ _ read => exact read

theorem later (received : Received iss accepted ended c returned)
    {accepted' : List UInt8} {ended' : Prop} (grows : accepted <+: accepted')
    (stops : ended → ended' ∧ accepted' = accepted) :
    Received iss accepted' ended' c returned := by
  cases received with
  | waiting state noFin empty holding nothing open' =>
    exact .waiting state noFin empty holding nothing open'
  | receiving got receiving => exact .receiving got (receiving.later grows stops)
  | dropped state released empty fin read =>
    exact .dropped state released empty fin (read.trans grows)

theorem keep (received : Received iss accepted ended c returned) {c' : Core}
    (nxt : c'.rcvNxt = c.rcvNxt) (rx : c'.rx = c.rx) (assembler : c'.assembler = c.assembler)
    (fin : c'.finReceived = c.finReceived) (released : c.released → c'.released)
    (waits : c.state = .synSent ∨ c.state = .closed →
      (c'.state = .synSent ∨ c'.state = .closed) ∧ c'.finSeq = c.finSeq)
    (past : c.state ≠ .synSent → c'.state ≠ .synSent ∧
      (c'.state.takesData ∨ c'.state.opening → c.state.takesData ∨ c.state.opening))
    (done : c.state = .timeWait ∨ c.state = .closed → c'.state = .timeWait ∨ c'.state = .closed) :
    Received iss accepted ended c' returned := by
  cases received with
  | waiting state noFin empty holding nothing open' =>
    obtain ⟨state', finSeq⟩ := waits state
    exact .waiting state' (finSeq.trans noFin) (by rw [rx]; exact empty)
      (by rw [rx, assembler]; exact holding) nothing (fin.trans open')
  | receiving got r =>
    obtain ⟨notSynSent, more⟩ := past r.past
    exact .receiving got
      ⟨by rw [nxt, fin]; exact r.nxt, r.within, by rw [rx]; exact r.bytes,
        by rw [rx, assembler]; exact r.holding, by rw [fin]; exact r.fin, notSynSent,
        fun takes => fin.trans (r.more (more takes))⟩
  | dropped state isReleased empty isFin read =>
    exact .dropped (done state) (released isReleased) (by rw [rx]; exact empty)
      (fin.trans isFin) read

theorem keepSame (received : Received iss accepted ended c returned) {c' : Core}
    (nxt : c'.rcvNxt = c.rcvNxt) (rx : c'.rx = c.rx) (assembler : c'.assembler = c.assembler)
    (fin : c'.finReceived = c.finReceived) (released : c.released → c'.released)
    (state : c'.state = c.state) (finSeq : c.state.synchronized = false → c'.finSeq = c.finSeq) :
    Received iss accepted ended c' returned := by
  refine received.keep nxt rx assembler fin released (fun waits => ⟨by rw [state]; exact waits,
    finSeq ?_⟩) (fun past => ⟨by rw [state]; exact past, by rw [state]; exact id⟩)
    (by rw [state]; exact id)
  rcases waits with waits | waits <;> simp [waits, State.synchronized]

theorem takeSyn (received : Received iss accepted ended c returned) {seg : Segment}
    (tells : Tells iss accepted ended seg) (opening : c.state = .synSent) (syn : seg.flags.syn)
    {s : SendSide} (after : s.state = .synReceived ∨ s.state = .established) :
    Received iss accepted ended { c.takeSyn seg with toSendSide := s } returned := by
  cases received with
  | waiting _ _ empty holding nothing open' =>
    have none : c.rx.contents = [] := eq_nil_of_length_eq_zero (by
      rw [Ring.length_contents (holding fun _ _ => True).ring, empty])
    refine .receiving 0 ⟨?_, Nat.zero_le _, ?_, holding _, ?_, ?_, fun _ => open'⟩
    · change seg.seq + 1 = place iss (1 + 0 + c.finReceived.toNat)
      rw [(tells.syn syn).1, open']
      rfl
    · change returned ++ c.rx.contents = _
      rw [nothing, none]
      rfl
    · intro fin
      have fin : c.finReceived = true := fin
      simp [open'] at fin
    · rcases after with after | after <;> simp [after]
  | receiving got receiving => exact absurd opening receiving.past
  | dropped state => rcases state with state | state <;> simp [state] at opening

theorem pop (received : Received iss accepted ended c returned) {n : ℕ} (held : n ≤ c.rx.len) :
    Received iss accepted ended { c with rx := c.rx.discard n }
      (returned ++ c.rx.readAt 0 n) := by
  have nothingMore : c.rx.len = 0 → c.rx.readAt 0 n = [] ∧ (c.rx.discard n).len = 0 := by
    intro empty
    have none : n = 0 := by omega
    subst none
    exact ⟨by simp [Ring.readAt], by rw [Ring.len_discard, empty]⟩
  cases received with
  | waiting state noFin empty holding nothing open' =>
    obtain ⟨none, empty'⟩ := nothingMore empty
    exact .waiting state noFin empty' (fun right => (holding right).discard held)
      (by rw [nothing, none]; rfl) open'
  | receiving got receiving => exact .receiving got (receiving.pop held)
  | dropped state released empty fin read =>
    obtain ⟨none, empty'⟩ := nothingMore empty
    exact .dropped state released empty' fin (by rw [none, append_nil]; exact read)

theorem move {after : Core} {labels : List Happening}
    (received : Received iss accepted ended c returned) (move : Move ctx c labels after)
    (tells : ∀ raw, ctx.incoming = some raw → Tells iss accepted ended raw ∧
      (raw.data ≠ [] ∨ raw.flags.fin → accepted.length < returned.length + 2 ^ 31)) :
    Received iss accepted ended after (returned ++ returnedIn labels) := by
  have quietly : returnedIn labels = [] → Received iss accepted ended after returned →
      Received iss accepted ended after (returned ++ returnedIn labels) := by
    intro quiet kept
    rw [quiet, append_nil]
    exact kept
  have never : c.state.synchronized → ∀ {P : Prop}, c.state.synchronized = false → P := by
    intro synchronized P not
    simp [synchronized] at not
  cases move with
  | offer =>
    obtain ⟨adv, eq⟩ := offered_eq c
    refine quietly rfl ?_
    rw [eq]
    exact received.keepSame rfl rfl rfl rfl id rfl fun _ => rfl
  | send n fin psh synchronized =>
    exact quietly rfl (received.keepSame rfl rfl rfl rfl id rfl (never synchronized))
  | simultaneous seg incoming opening syn =>
    exact quietly rfl (received.takeSyn (tells seg incoming).1 opening syn (Or.inl rfl))
  | connected seg incoming opening syn =>
    exact quietly rfl (received.takeSyn (tells seg incoming).1 opening syn (Or.inr rfl))
  | established raw seg _ _ opening =>
    refine quietly rfl (received.keep rfl rfl rfl rfl id ?_ ?_ ?_) <;>
      simp [opening, State.opening]
  | acked raw seg _ _ synchronized =>
    refine quietly rfl (received.keepSame ?_ ?_ ?_ ?_ ?_ ?_ (never synchronized)) <;>
      simp only [Core.recordAck, Core.dropAcked] <;> split <;> first | rfl | exact id
  | finAcked =>
    refine quietly rfl (received.keep ?_ ?_ ?_ ?_ ?_ ?_ ?_ ?_) <;> cases state : c.state <;>
      simp [Core.finAcked, state, State.takesData, State.opening]
  | data fits raw seg incoming stands _ takes =>
    obtain ⟨truth, few⟩ := tells raw incoming
    refine quietly rfl ?_
    cases received with
    | waiting state => rcases state with state | state <;> simp [state, State.takesData] at takes
    | receiving got receiving =>
      obtain ⟨got', after⟩ := receiving.data fits (truth.stands stands) takes
        (by rw [stands.stream.1]; exact fun some => few (Or.inl some))
      exact .receiving got' after
    | dropped state => rcases state with state | state <;> simp [state, State.takesData] at takes
  | fin raw seg incoming stands _ opened fin next first =>
    obtain ⟨truth, few⟩ := tells raw incoming
    refine quietly rfl ?_
    cases received with
    | waiting state noFin =>
      rcases state with state | state <;>
        simp [Core.opened, state, State.synchronized, SendSide.acksFin, noFin] at opened
    | receiving got receiving =>
      exact .receiving got (receiving.fin' (truth.stands stands)
        (few (Or.inr (by rw [← stands.stream.2]; exact fin))) fin next first opened)
    | dropped _ _ _ isFin => simp [isFin] at first
  | shutdown state _ from' =>
    refine quietly rfl (received.keep rfl rfl rfl rfl id ?_ ?_ ?_) <;>
      rcases from' with ⟨before | before, rfl⟩ | ⟨before, rfl⟩ <;>
      simp [before, State.takesData, State.opening]
  | close =>
    exact quietly rfl (received.keep rfl rfl rfl rfl id (fun _ => ⟨Or.inr rfl, rfl⟩)
      (fun _ => by simp [State.takesData, State.opening]) fun _ => Or.inr rfl)
  | release => exact quietly rfl (received.keepSame rfl rfl rfl rfl (fun _ => rfl) rfl fun _ => rfl)
  | push fits bytes happenings writable more told =>
    refine quietly ?_ (received.keepSame rfl rfl rfl rfl id rfl fun _ => rfl)
    rcases told with rfl | ⟨_, rfl⟩ <;> rfl
  | pop n held =>
    have kept := received.pop held
    simpa [returnedIn, Happening.returnedBytes] using kept
  | popLook n held =>
    have kept := received.pop held
    simpa [returnedIn, Happening.returnedBytes] using kept
  | sendSyn | resend | sendAck | sendRst | window | timeout | persist | startPersist
  | stopRetransmit =>
    exact quietly rfl (received.keepSame rfl rfl rfl rfl id rfl fun _ => rfl)

theorem dropBuffers (received : Received iss accepted ended c returned) (inv : ReceiveInv c)
    (waiting : c.state = .timeWait) (released : c.released) :
    Received iss accepted ended c.dropBuffers returned :=
  .dropped (Or.inl waiting) released rfl (inv.finReceived (by rw [waiting]; rfl)) received.read

theorem all_read (received : Received iss accepted ended c returned) (open' : c.released = false)
    (fin : c.finReceived) (empty : c.rx.len = 0) : ended ∧ returned = accepted := by
  cases received with
  | waiting _ _ _ _ _ noFin => simp [noFin] at fin
  | receiving got receiving =>
    obtain ⟨all, isEnded⟩ := receiving.fin fin
    refine ⟨isEnded, ?_⟩
    have none : c.rx.contents = [] := eq_nil_of_length_eq_zero (by
      rw [Ring.length_contents receiving.holding.ring, empty])
    simpa [none, all] using receiving.bytes
  | dropped _ released => simp [open'] at released

end Received

end EspDevkit.Net
