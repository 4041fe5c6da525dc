import EspDevkit.Usb.SimSteps
import Mathlib.Data.List.Flatten

/-!
# Replies of the server

What the server's answers and the receive task that reads them keep.
-/

namespace EspDevkit.Usb.Sim

open List

theorem readBytes_of_prefix {count : ℕ} {stream rest : List Token}
    (due : stream <+: List.replicate count .byte ++ rest) :
    readBytes count stream = .short ∨
      ∃ after, readBytes count stream = .done after ∧ after <+: rest := by
  induction count generalizing stream with
  | zero => exact .inr ⟨stream, rfl, due⟩
  | succ count ih =>
    cases stream with
    | nil => exact .inl rfl
    | cons token stream =>
      rw [replicate_succ, cons_append, cons_prefix_cons] at due
      obtain ⟨rfl, due⟩ := due
      exact ih due

theorem readBytes_append (count : ℕ) (rest : List Token) :
    readBytes count (List.replicate count .byte ++ rest) = .done rest := by
  induction count with
  | zero => rfl
  | succ count ih => exact ih

theorem frame_of_header {table : ℕ → Request} {reply : Reply} {stream : List Token}
    {frames : List Frame} (due : .header reply :: stream <+: frames.flatMap (Frame.tokens table)) :
    ∃ frame later, frames = frame :: later ∧ ∃ data, frame.tokens table = .header reply :: data ∧
      stream <+: data ++ later.flatMap (Frame.tokens table) := by
  cases frames with
  | nil =>
    rw [flatMap_nil, prefix_nil] at due
    cases due
  | cons frame later =>
    rw [flatMap_cons] at due
    cases frame with
    | submit seqnum request status actual =>
      rw [Frame.tokens, cons_append, cons_prefix_cons] at due
      obtain ⟨same, due⟩ := due
      cases same
      exact ⟨_, later, rfl, _, rfl, due⟩
    | unlink seqnum status =>
      rw [Frame.tokens, cons_append, cons_prefix_cons] at due
      obtain ⟨same, due⟩ := due
      cases same
      exact ⟨_, later, rfl, [], rfl, due⟩

theorem Frame.none_of_tokens {table : ℕ → Request} {frames : List Frame}
    (empty : frames.flatMap (Frame.tokens table) = []) : frames = [] := by
  cases frames with
  | nil => rfl
  | cons frame later =>
    rw [flatMap_cons] at empty
    cases frame <;> cases empty

theorem not_byte_prefix {table : ℕ → Request} {stream : List Token} {frames : List Frame} :
    ¬ .byte :: stream <+: frames.flatMap (Frame.tokens table) := by
  intro due
  cases frames with
  | nil =>
    rw [flatMap_nil, prefix_nil] at due
    cases due
  | cons frame later =>
    rw [flatMap_cons] at due
    cases frame with
    | submit seqnum request status actual =>
      rw [Frame.tokens, cons_append, cons_prefix_cons] at due
      cases due.1
    | unlink seqnum status =>
      rw [Frame.tokens, cons_append, cons_prefix_cons] at due
      cases due.1

namespace State

variable {table : ℕ → Request} {state after : State} {frames : List Frame}

theorem Wired.submitKeys (wired : state.Wired table frames) :
    (state.server.submits.map Prod.fst).Nodup := by
  have distinct := wired.distinct
  rw [State.pending, map_append] at distinct
  exact distinct.of_append_left

theorem Wired.askedKeys (wired : state.Wired table frames) :
    (state.server.unlinks.map Prod.fst).Nodup :=
  wired.apart.of_append_left

theorem Settled.mono {later : List Frame} {seqnum : ℕ} (settled : state.Settled frames seqnum)
    (nextSeqnum : after.nextSeqnum = state.nextSeqnum) (phases : after.phase = state.phase)
    (fewer : ∀ entry ∈ after.pending later, entry ∈ state.pending frames) :
    after.Settled later seqnum where
  drawn := nextSeqnum ▸ settled.drawn
  absent mem := by
    obtain ⟨entry, mem, same⟩ := mem_map.mp mem
    exact settled.absent (mem_map.mpr ⟨entry, fewer entry mem, same⟩)
  sent := phases ▸ settled.sent

variable {request : ℕ} {status : Status}

theorem Wired.retSubmit (wired : state.Wired table frames) {seqnum actual : ℕ}
    (mem : (seqnum, request) ∈ state.server.submits)
    (running : state.ended = false) :
    State.Wired table
      { state with
        stream := state.stream ++ .header (.RetSubmit seqnum status actual) ::
          List.replicate (if (table request).isIn then actual else 0) .byte
        server := { state.server with submits := Sim.without state.server.submits seqnum }
        answered := state.answered ++ [(request, status, actual)] }
      (frames ++ [Frame.submit seqnum request status actual]) := by
  generalize result :
    ({ state with
        stream := state.stream ++ .header (.RetSubmit seqnum status actual) ::
          List.replicate (if (table request).isIn then actual else 0) .byte
        server := { state.server with submits := Sim.without state.server.submits seqnum }
        answered := state.answered ++ [(request, status, actual)] } : State) = after
  have perm : List.Perm (after.pending (frames ++ [Frame.submit seqnum request status actual]))
      (state.pending frames) := by
    subst result
    have before := perm_without wired.submitKeys mem
    rw [State.pending, filterMap_append, ← append_assoc]
    refine (perm_append_singleton (seqnum, request) _).trans ?_
    exact (before.symm.append_right (frames.filterMap Frame.submitted))
  have unlinking : after.unlinking (frames ++ [Frame.submit seqnum request status actual]) =
      state.unlinking frames := by
    subst result
    rw [State.unlinking, filterMap_append]
    exact congrArg _ (append_nil _)
  have settled : ∀ number, state.Settled frames number →
      after.Settled (frames ++ [Frame.submit seqnum request status actual]) number := by
    intro number settled
    exact settled.mono (by subst result; rfl) (by subst result; rfl) fun entry => perm.mem_iff.mp
  have tokens : after.stream = List.replicate (after.rx.owed table) .byte ++
      (frames ++ [Frame.submit seqnum request status actual]).flatMap (Frame.tokens table) := by
    subst result
    rw [flatMap_append, ← append_assoc, ← wired.whole running]
    rw [flatMap_singleton]
    rfl
  exact
    { keys := by subst result; exact wired.keys
      drawn := by subst result; exact wired.drawn
      unsent := by subst result; exact wired.unsent
      distinct := (perm.map Prod.fst).nodup_iff.mpr wired.distinct
      waiting := fun entry isPending => by
        have kept := wired.waiting entry (perm.mem_iff.mp isPending)
        subst result
        exact kept
      unlinkKeys := by subst result; exact wired.unlinkKeys
      unlinkDrawn := by subst result; exact wired.unlinkDrawn
      asked := by subst result; exact wired.asked
      linked := by
        rw [unlinking]
        subst result
        exact wired.linked
      calls := by subst result; exact wired.calls
      apart := by rw [unlinking]; exact wired.apart
      unlinkingDrawn := by
        rw [unlinking]
        subst result
        exact wired.unlinkingDrawn
      canceled := fun number isFrame target linked => by
        refine settled target (wired.canceled number ?_ target (by subst result; exact linked))
        rcases mem_append.mp isFrame with isFrame | isLast
        · exact isFrame
        · cases mem_singleton.mp isLast
      taking := fun target takes => settled target (wired.taking target (by
        subst result
        exact takes))
      stream := tokens ▸ prefix_rfl
      answered := fun number other status' actual' isFrame => by
        subst result
        rcases mem_append.mp isFrame with isFrame | isLast
        · exact mem_append_left _ (wired.answered number other status' actual' isFrame)
        · cases mem_singleton.mp isLast
          exact mem_append_right _ (mem_singleton.mpr rfl)
      whole := fun _ => tokens
      awaited := fun _ entry isEntry accepted => by
        have awaited := wired.awaited running entry (by subst result; exact isEntry)
          (by subst result; exact accepted)
        rcases awaited with isPending | ⟨number, isFrame, linked⟩ | taken
        · exact .inl (perm.mem_iff.mpr isPending)
        · refine .inr (.inl ⟨number, mem_append_left _ isFrame, ?_⟩)
          subst result
          exact linked
        · exact .inr (.inr (by subst result; exact taken))
      found := by subst result; exact wired.found
      followed := by subst result; exact wired.followed }

/-- The server answers an unlink, whose target it answers no more if it cancels it. -/
theorem Wired.retUnlink (wired : state.Wired table frames) {seqnum target : ℕ}
    (mem : (seqnum, target) ∈ state.server.unlinks) (running : state.ended = false)
    (holds : status = .ECONNRESET → ∃ request, (target, request) ∈ state.server.submits) :
    State.Wired table
      { state with
        stream := state.stream ++ [.header (.RetUnlink seqnum status)]
        server :=
          { submits :=
              if decide (status = .ECONNRESET) then Sim.without state.server.submits target
              else state.server.submits
            unlinks := Sim.without state.server.unlinks seqnum } }
      (frames ++ [Frame.unlink seqnum status]) := by
  generalize result :
    ({ state with
        stream := state.stream ++ [.header (.RetUnlink seqnum status)]
        server :=
          { submits :=
              if decide (status = .ECONNRESET) then Sim.without state.server.submits target
              else state.server.submits
            unlinks := Sim.without state.server.unlinks seqnum } } : State) = after
  have submits : List.Sublist after.server.submits state.server.submits := by
    subst result
    dsimp only
    split
    · exact filter_sublist
    · exact List.Sublist.refl _
  have fewer : List.Sublist (after.pending (frames ++ [Frame.unlink seqnum status]))
      (state.pending frames) := by
    rw [State.pending, filterMap_append]
    refine submits.append ?_
    rw [show List.filterMap Frame.submitted [.unlink seqnum status] = [] from rfl, append_nil]
  have perm : List.Perm (after.unlinking (frames ++ [Frame.unlink seqnum status]))
      (state.unlinking frames) := by
    subst result
    have before := (perm_without wired.askedKeys mem).map Prod.fst
    rw [State.unlinking, filterMap_append, ← append_assoc]
    refine (perm_append_singleton seqnum _).trans ?_
    exact before.symm.append_right (frames.filterMap Frame.unlinked)
  have nextSeqnum : after.nextSeqnum = state.nextSeqnum := by subst result; rfl
  have phases : after.phase = state.phase := by subst result; rfl
  have settled : ∀ number, state.Settled frames number →
      after.Settled (frames ++ [Frame.unlink seqnum status]) number := by
    intro number settled
    exact settled.mono nextSeqnum phases fun entry => (fewer.subset ·)
  have tokens : after.stream = List.replicate (after.rx.owed table) .byte ++
      (frames ++ [Frame.unlink seqnum status]).flatMap (Frame.tokens table) := by
    subst result
    rw [flatMap_append, ← append_assoc, ← wired.whole running, flatMap_singleton]
    rfl
  exact
    { keys := by subst result; exact wired.keys
      drawn := by subst result; exact wired.drawn
      unsent := by subst result; exact wired.unsent
      distinct := wired.distinct.sublist (fewer.map Prod.fst)
      waiting := fun entry isPending => by
        have kept := wired.waiting entry (fewer.subset isPending)
        subst result
        exact kept
      unlinkKeys := by subst result; exact wired.unlinkKeys
      unlinkDrawn := by subst result; exact wired.unlinkDrawn
      asked := fun entry isAsked => by
        subst result
        exact wired.asked entry (mem_without.mp isAsked).1
      linked := fun call number target' linked => by
        rw [perm.mem_iff]
        subst result
        exact wired.linked call number target' linked
      calls := by subst result; exact wired.calls
      apart := perm.nodup_iff.mpr wired.apart
      unlinkingDrawn := fun number isUnlinking => by
        rw [nextSeqnum]
        exact wired.unlinkingDrawn number (perm.mem_iff.mp isUnlinking)
      canceled := fun number isFrame target' linked => by
        have linked : (number, target') ∈ state.unlinks := by
          subst result
          exact linked
        rcases mem_append.mp isFrame with isFrame | isLast
        · exact settled target' (wired.canceled number isFrame target' linked)
        · cases mem_singleton.mp isLast
          cases value_unique wired.unlinkKeys linked (wired.asked _ mem)
          obtain ⟨request, held⟩ := holds rfl
          have isPending : (target, request) ∈ state.pending frames := mem_append_left _ held
          have inFrames : target ∉ (frames.filterMap Frame.submitted).map Prod.fst := by
            have distinct := wired.distinct
            rw [State.pending, map_append] at distinct
            exact fun later => disjoint_of_nodup_append distinct
              (mem_map_of_mem held) later
          refine ⟨nextSeqnum ▸ wired.drawn _ (wired.waiting _ isPending).1, ?_, fun other => ?_⟩
          · subst result
            rw [State.pending, map_append, mem_append, not_or, filterMap_append]
            exact ⟨not_mem_without _ _, by rw [show List.filterMap Frame.submitted
              [.unlink seqnum .ECONNRESET] = [] from rfl, append_nil]; exact inFrames⟩
          · rw [phases, ← not_or]
            intro now
            exact wired.not_pending now (mem_map_of_mem isPending)
      taking := fun target' takes => settled target' (wired.taking target' (by
        subst result
        exact takes))
      stream := tokens ▸ prefix_rfl
      answered := fun number other status' actual isFrame => by
        subst result
        rcases mem_append.mp isFrame with isFrame | isLast
        · exact wired.answered number other status' actual isFrame
        · cases mem_singleton.mp isLast
      whole := fun _ => tokens
      awaited := fun _ entry isEntry accepted => by
        have awaited := wired.awaited running entry (by subst result; exact isEntry)
          (by subst result; exact accepted)
        rcases awaited with isPending | ⟨number, isFrame, linked⟩ | taken
        · by_cases canceled : status = .ECONNRESET ∧ entry.1 = target
          · -- the server answers it no more, but the frame says so
            obtain ⟨rfl, rfl⟩ := canceled
            refine .inr (.inl ⟨seqnum, mem_append_right _ (mem_singleton.mpr rfl), ?_⟩)
            have linked := wired.asked _ mem
            subst result
            exact linked
          · left
            rcases mem_append.mp isPending with held | answered
            · refine mem_append_left _ ?_
              subst result
              dsimp only
              split
              · rename_i isReset
                rw [decide_eq_true_eq] at isReset
                exact mem_without.mpr ⟨held, fun same => canceled ⟨isReset, same⟩⟩
              · exact held
            · refine mem_append_right _ ?_
              rw [filterMap_append]
              exact mem_append_left _ answered
        · refine .inr (.inl ⟨number, mem_append_left _ isFrame, ?_⟩)
          subst result
          exact linked
        · exact .inr (.inr (by subst result; exact taken))
      found := by subst result; exact wired.found
      followed := by subst result; exact wired.followed }

theorem Wired.turn (wired : state.Wired table frames) {rx : Rx}
    (same : rx.owed table = state.rx.owed table) (quiet : ∀ target, rx ≠ .unlinking target)
    (taken : ∀ target, state.rx = .unlinking target → target ∉ state.inflight.map Prod.fst)
    (found : ∀ status actual, rx ≠ .data none status actual) (followed : rx ≠ .lost) :
    State.Wired table { state with rx } frames :=
  { wired with
    canceled := fun number mem target linked =>
      { wired.canceled number mem target linked with }
    taking := fun target takes => absurd takes (quiet target)
    stream := by
      rw [same]
      exact wired.stream
    whole := fun running => by
      rw [same]
      exact wired.whole running
    awaited := fun running entry mem accepted => by
      rcases wired.awaited running entry mem accepted with isPending | canceled | taking
      · exact .inl isPending
      · exact .inr (.inl canceled)
      · exact absurd (mem_map_of_mem mem) (taken entry.1 taking)
    found
    followed }

theorem Wired.finish (wired : state.Wired table frames) (kept : ℕ) :
    State.Wired table { state with ended := true, stream := state.stream.take kept } frames :=
  { wired with
    canceled := fun number mem target linked =>
      { wired.canceled number mem target linked with }
    taking := fun target takes => { wired.taking target takes with }
    stream := (List.take_prefix _ _).trans wired.stream
    whole := by rintro ⟨⟩
    awaited := by rintro ⟨⟩ }

/-- The header of an answered submit takes its request out of the map. -/
theorem Wired.takeSubmit {later : List Frame} {seqnum actual : ℕ}
    {stream : List Token}
    (wired : state.Wired table (.submit seqnum request status actual :: later))
    (reading : state.rx = .reading)
    (header : state.stream = .header (.RetSubmit seqnum status actual) :: stream)
    (due : stream <+: List.replicate (if (table request).isIn then actual else 0) .byte ++
      later.flatMap (Frame.tokens table)) :
    State.Wired table
      { state with
        stream
        inflight := Sim.without state.inflight seqnum
        rx := .data (some request) status actual } later := by
  have pending : state.pending (.submit seqnum request status actual :: later) =
      state.server.submits ++ (seqnum, request) :: later.filterMap Frame.submitted := rfl
  have perm : List.Perm (state.pending (.submit seqnum request status actual :: later))
      ((seqnum, request) :: state.pending later) := by
    rw [pending]
    exact perm_middle
  have unlinking : state.unlinking (.submit seqnum request status actual :: later) =
      state.unlinking later := rfl
  have distinct := (perm.map Prod.fst).nodup_iff.mp wired.distinct
  rw [map_cons, nodup_cons] at distinct
  have rest : ∀ entry ∈ state.pending later,
      entry ∈ state.pending (.submit seqnum request status actual :: later) :=
    fun entry mem => perm.mem_iff.mpr (mem_cons_of_mem _ mem)
  have isPending : (seqnum, request) ∈
      state.pending (.submit seqnum request status actual :: later) :=
    perm.mem_iff.mpr mem_cons_self
  have settled : ∀ number,
      state.Settled (.submit seqnum request status actual :: later) number →
      Settled
        { state with
          stream
          inflight := Sim.without state.inflight seqnum
          rx := .data (some request) status actual } later number :=
    fun number settled => settled.mono rfl rfl rest
  exact
    { keys := nodup_without wired.keys seqnum
      drawn := fun entry mem => wired.drawn entry (mem_without.mp mem).1
      unsent := fun other number now => by
        refine mem_without.mpr ⟨wired.unsent other number now, ?_⟩
        rintro rfl
        exact wired.not_pending now (mem_map_of_mem isPending)
      distinct := distinct.2
      waiting := fun entry mem => by
        obtain ⟨inflight, accepted⟩ := wired.waiting entry (rest entry mem)
        refine ⟨mem_without.mpr ⟨inflight, ?_⟩, accepted⟩
        rintro rfl
        exact distinct.1 (mem_map.mpr ⟨entry, mem, rfl⟩)
      unlinkKeys := wired.unlinkKeys
      unlinkDrawn := wired.unlinkDrawn
      asked := wired.asked
      linked := wired.linked
      calls := wired.calls
      apart := wired.apart
      unlinkingDrawn := wired.unlinkingDrawn
      canceled := fun number mem target linked =>
        settled target (wired.canceled number (mem_cons_of_mem _ mem) target linked)
      taking := nofun
      stream := due
      answered := fun number other status' actual' mem =>
        wired.answered number other status' actual' (mem_cons_of_mem _ mem)
      whole := fun running => by
        have whole := wired.whole running
        rw [reading, header] at whole
        exact (List.cons.inj whole).2
      awaited := fun running entry mem accepted => by
        obtain ⟨mem, other⟩ := mem_without.mp mem
        rcases wired.awaited running entry mem accepted with isPending | ⟨number, isFrame, linked⟩ |
          taken
        · left
          rcases mem_cons.mp (perm.mem_iff.mp isPending) with same | isPending
          · exact absurd (congrArg Prod.fst same) other
          · exact isPending
        · rcases mem_cons.mp isFrame with same | isFrame
          · cases same
          · exact .inr (.inl ⟨number, isFrame, linked⟩)
        · rw [reading] at taken
          cases taken
      found := nofun
      followed := nofun }

theorem Wired.takeUnlink {later : List Frame} {seqnum : ℕ}
    {stream : List Token} {rx : Rx} (wired : state.Wired table (.unlink seqnum status :: later))
    (reading : state.rx = .reading)
    (header : state.stream = .header (.RetUnlink seqnum status) :: stream)
    (due : stream <+: later.flatMap (Frame.tokens table))
    (next : rx = .reading ∧ (status = .ECONNRESET → ∀ target, (seqnum, target) ∉ state.unlinks) ∨
      status = .ECONNRESET ∧ ∃ target, (seqnum, target) ∈ state.unlinks ∧ rx = .unlinking target) :
    State.Wired table
      { state with stream, unlinks := Sim.without state.unlinks seqnum, rx } later := by
  have owed : rx.owed table = 0 := by
    rcases next with ⟨rfl, -⟩ | ⟨-, target, -, rfl⟩
    · rfl
    · rfl
  have unlinking : List.Perm (state.unlinking (.unlink seqnum status :: later))
      (seqnum :: state.unlinking later) := perm_middle
  have apart := unlinking.nodup_iff.mp wired.apart
  rw [nodup_cons] at apart
  have settled : ∀ number, state.Settled (.unlink seqnum status :: later) number →
      Settled { state with stream, unlinks := Sim.without state.unlinks seqnum, rx } later
        number := fun number settled => { settled with }
  exact
    { keys := wired.keys
      drawn := wired.drawn
      unsent := wired.unsent
      distinct := wired.distinct
      waiting := wired.waiting
      unlinkKeys := nodup_without wired.unlinkKeys seqnum
      unlinkDrawn := fun entry mem => wired.unlinkDrawn entry (mem_without.mp mem).1
      asked := fun entry mem => by
        refine mem_without.mpr ⟨wired.asked entry mem, ?_⟩
        rintro rfl
        exact apart.1 (mem_append_left _ (mem_map_of_mem mem))
      linked := fun call number target linked => by
        obtain ⟨mem, absent⟩ := wired.linked call number target linked
        rw [unlinking.mem_iff, mem_cons, not_or] at absent
        exact ⟨mem_without.mpr ⟨mem, absent.1⟩, absent.2⟩
      calls := wired.calls
      apart := apart.2
      unlinkingDrawn := fun number mem =>
        wired.unlinkingDrawn number (unlinking.mem_iff.mpr (mem_cons_of_mem _ mem))
      canceled := fun number mem target linked =>
        settled target (wired.canceled number (mem_cons_of_mem _ mem) target
          (mem_without.mp linked).1)
      taking := fun target takes => by
        rcases next with ⟨rfl, -⟩ | ⟨rfl, canceled, mem, rfl⟩
        · cases takes
        · cases takes
          exact settled _ (wired.canceled seqnum mem_cons_self _ mem)
      stream := by
        rw [owed]
        exact due
      answered := fun number other status' actual' mem =>
        wired.answered number other status' actual' (mem_cons_of_mem _ mem)
      whole := fun running => by
        have whole := wired.whole running
        rw [reading, header] at whole
        rw [owed]
        exact (List.cons.inj whole).2
      awaited := fun running entry mem accepted => by
        rcases wired.awaited running entry mem accepted with isPending | ⟨number, isFrame, linked⟩ |
          taken
        · exact .inl isPending
        · rcases mem_cons.mp isFrame with same | isFrame
          · cases same
            rcases next with ⟨-, noTarget⟩ | ⟨-, target, isTarget, rfl⟩
            · exact absurd linked (noTarget rfl entry.1)
            · have same : target = entry.1 := value_unique wired.unlinkKeys isTarget linked
              exact .inr (.inr (congrArg Rx.unlinking same))
          · have answered : number ∈ state.unlinking later :=
              mem_append_right _ (mem_filterMap.mpr ⟨_, isFrame, rfl⟩)
            refine .inr (.inl ⟨number, isFrame, mem_without.mpr ⟨linked, fun same => ?_⟩⟩)
            exact apart.1 (same ▸ answered)
        · rw [reading] at taken
          cases taken
      found := by
        rcases next with ⟨rfl, -⟩ | ⟨-, target, -, rfl⟩
        · exact nofun
        · exact nofun
      followed := by
        rcases next with ⟨rfl, -⟩ | ⟨-, target, -, rfl⟩
        · exact nofun
        · exact nofun }

theorem Wired.endData (wired : state.Wired table frames) {result : Outcome}
    {goesOn : Bool} {stream : List Token} (data : ∀ target, state.rx ≠ .unlinking target)
    (due : stream <+: frames.flatMap (Frame.tokens table))
    (whole : state.ended = false → stream = frames.flatMap (Frame.tokens table)) :
    State.Wired table { state with stream, rx := .completing request result goesOn } frames :=
  { wired with
    canceled := fun number mem target linked =>
      { wired.canceled number mem target linked with }
    taking := nofun
    stream := due
    whole
    awaited := fun running entry mem accepted => by
      rcases wired.awaited running entry mem accepted with isPending | canceled | taking
      · exact .inl isPending
      · exact .inr (.inl canceled)
      · exact absurd taking (data entry.1)
    found := nofun
    followed := nofun }

end State

end EspDevkit.Usb.Sim
