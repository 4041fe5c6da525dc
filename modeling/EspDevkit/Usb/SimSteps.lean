import EspDevkit.Usb.SimulatedSession

/-!
# What a step does in a session

One lemma for each step of a submit, a cancel, the server and the receive task.
-/

namespace EspDevkit.Usb.Sim.State

open List Function

variable {table : ℕ → Request} {state after : State} {frames : List Frame}

variable {request : ℕ}

theorem Wired.moveSubmit (wired : state.Wired table frames) {phase : Phase}
    (quiet : ∀ seqnum, phase ≠ .inserted seqnum ∧ phase ≠ .failed seqnum)
    (keeps : state.phase request = .accepted → phase = .accepted)
    (absent : phase = .accepted → state.ended = false → ∀ entry ∈ state.inflight,
      entry.2 ≠ request) :
    (state.moveSubmit request phase).Wired table frames := by
  have unsent : ∀ other seqnum, (state.moveSubmit request phase).phase other = .inserted seqnum ∨
      (state.moveSubmit request phase).phase other = .failed seqnum →
        state.phase other = .inserted seqnum ∨ state.phase other = .failed seqnum := by
    intro other seqnum now
    by_cases same : other = request
    · subst same
      simp only [State.moveSubmit, update_self] at now
      exact absurd now (by simp [quiet seqnum])
    · simpa only [State.moveSubmit, update_of_ne same] using now
  have settled : ∀ seqnum, state.Settled frames seqnum →
      (state.moveSubmit request phase).Settled frames seqnum := by
    intro seqnum settled
    refine ⟨settled.drawn, settled.absent, fun other => ?_⟩
    rw [← not_or]
    intro now
    exact (unsent other seqnum now).elim (settled.sent other).1 (settled.sent other).2
  exact
    { wired with
      unsent := fun other seqnum now => wired.unsent other seqnum (unsent other seqnum now)
      waiting := fun entry mem => by
        obtain ⟨inflight, accepted⟩ := wired.waiting entry mem
        refine ⟨inflight, ?_⟩
        by_cases same : entry.2 = request
        · rw [State.moveSubmit, same]
          simp only [update_self]
          exact keeps (same ▸ accepted)
        · simpa only [State.moveSubmit, update_of_ne same] using accepted
      canceled := fun seqnum mem target linked =>
        settled target (wired.canceled seqnum mem target linked)
      taking := fun target takes => settled target (wired.taking target takes)
      awaited := fun running entry mem accepted => by
        refine wired.awaited running entry mem ?_
        by_cases same : entry.2 = request
        · rw [State.moveSubmit, same] at accepted
          simp only [update_self] at accepted
          exact absurd same (absent accepted running entry mem)
        · simpa only [State.moveSubmit, update_of_ne same] using accepted }

/-- Whether a request was handed over changes only as its submit says. -/
theorem Placed.moveSubmit (placed : state.Placed) {phase : Phase}
    (same : (state.phase request).given = phase.given) :
    (state.moveSubmit request phase).Placed where
  once := placed.once
  given other := by
    rw [show (state.moveSubmit request phase).present = state.present from rfl, placed.given other]
    by_cases other' : other = request
    · rw [State.moveSubmit, other']
      simp only [update_self]
      rw [same]
    · rw [State.moveSubmit]
      simp only [update_of_ne other']
  emptied := placed.emptied

theorem Placed.hand {phase : Phase} (placed : state.Placed)
    (others : ∀ other, other ≠ request → after.phase other = state.phase other)
    (phases : after.phase request = phase) (given : phase.given = true)
    (fresh : (state.phase request).given = false)
    (present : List.Perm after.present (request :: state.present))
    (emptied : after.rx.live = false → after.inflight = []) : after.Placed where
  once := by
    rw [present.nodup_iff, nodup_cons]
    refine ⟨fun mem => ?_, placed.once⟩
    rw [placed.given, fresh] at mem
    cases mem
  given other := by
    rw [present.mem_iff, mem_cons, placed.given]
    by_cases same : other = request
    · rw [same, phases, given]
      simp
    · rw [others other same]
      simp [same]
  emptied := emptied

theorem Placed.of_perm (placed : state.Placed) (phases : after.phase = state.phase)
    (present : List.Perm after.present state.present)
    (emptied : after.rx.live = false → after.inflight = []) : after.Placed where
  once := present.nodup_iff.mpr placed.once
  given other := by
    rw [present.mem_iff, placed.given, phases]
  emptied := emptied

theorem withEntry_fresh {map : List (ℕ × ℕ)} {key : ℕ} (value : ℕ)
    (drawn : ∀ entry ∈ map, entry.1 < key) : withEntry map key value = (key, value) :: map := by
  rw [withEntry, without_of_not_mem]
  intro mem
  obtain ⟨entry, mem, same⟩ := mem_map.mp mem
  exact Nat.lt_irrefl key (same ▸ drawn entry mem)

theorem Wired.insert (wired : state.Wired table frames)
    (holding : state.phase request = .holding) :
    State.Wired table
      ({ state with
        nextSeqnum := state.nextSeqnum + 1
        inflight := withEntry state.inflight state.nextSeqnum request }.moveSubmit request
          (.inserted state.nextSeqnum)) frames := by
  have entries := withEntry_fresh request wired.drawn
  have later : ∀ {seqnum}, seqnum < state.nextSeqnum → seqnum < state.nextSeqnum + 1 :=
    fun less => Nat.lt_succ_of_lt less
  have settled : ∀ seqnum, state.Settled frames seqnum →
      Settled
        ({ state with
          nextSeqnum := state.nextSeqnum + 1
          inflight := withEntry state.inflight state.nextSeqnum request }.moveSubmit request
            (.inserted state.nextSeqnum)) frames seqnum := by
    intro seqnum settled
    refine ⟨later settled.drawn, settled.absent, fun other => ?_⟩
    by_cases same : other = request
    · simp only [State.moveSubmit, same, update_self]
      refine ⟨fun equal => ?_, nofun⟩
      cases equal
      exact Nat.lt_irrefl _ settled.drawn
    · simp only [State.moveSubmit, update_of_ne same]
      exact settled.sent other
  exact
    { wired with
      keys := by
        show ((withEntry state.inflight state.nextSeqnum request).map Prod.fst).Nodup
        rw [entries, map_cons, nodup_cons]
        refine ⟨fun mem => ?_, wired.keys⟩
        obtain ⟨entry, mem, same⟩ := mem_map.mp mem
        exact Nat.lt_irrefl _ (same ▸ wired.drawn entry mem)
      drawn := by
        show ∀ entry ∈ withEntry state.inflight state.nextSeqnum request,
          entry.1 < state.nextSeqnum + 1
        rw [entries, forall_mem_cons]
        exact ⟨Nat.lt_succ_self _, fun entry mem => later (wired.drawn entry mem)⟩
      unsent := fun other seqnum now => by
        show (seqnum, other) ∈ withEntry state.inflight state.nextSeqnum request
        rw [entries]
        by_cases same : other = request
        · simp only [State.moveSubmit, same, update_self] at now
          rcases now with now | now
          · cases now
            rw [same]
            exact mem_cons_self
          · cases now
        · simp only [State.moveSubmit, update_of_ne same] at now
          exact mem_cons_of_mem _ (wired.unsent other seqnum now)
      waiting := fun entry mem => by
        obtain ⟨inflight, accepted⟩ := wired.waiting entry mem
        have same : entry.2 ≠ request := by
          intro same
          rw [same, holding] at accepted
          cases accepted
        refine ⟨?_, ?_⟩
        · show entry ∈ withEntry state.inflight state.nextSeqnum request
          rw [entries]
          exact mem_cons_of_mem _ inflight
        · simpa only [State.moveSubmit, update_of_ne same] using accepted
      unlinkDrawn := fun entry mem => later (wired.unlinkDrawn entry mem)
      unlinkingDrawn := fun seqnum mem => later (wired.unlinkingDrawn seqnum mem)
      canceled := fun seqnum mem target linked =>
        settled target (wired.canceled seqnum mem target linked)
      taking := fun target takes => settled target (wired.taking target takes)
      awaited := fun running entry mem accepted => by
        have mem : entry ∈ withEntry state.inflight state.nextSeqnum request := mem
        rw [entries, mem_cons] at mem
        by_cases same : entry.2 = request
        · simp only [State.moveSubmit, same, update_self] at accepted
          cases accepted
        · rcases mem with rfl | mem
          · exact absurd rfl same
          · simp only [State.moveSubmit, update_of_ne same] at accepted
            exact wired.awaited running entry mem accepted }

theorem Wired.fail (wired : state.Wired table frames) {seqnum : ℕ}
    (inserted : state.phase request = .inserted seqnum) :
    (state.moveSubmit request (.failed seqnum)).Wired table frames := by
  have unsent : ∀ other number,
      (state.moveSubmit request (.failed seqnum)).phase other = .inserted number ∨
        (state.moveSubmit request (.failed seqnum)).phase other = .failed number →
      state.phase other = .inserted number ∨ state.phase other = .failed number := by
    intro other number now
    by_cases same : other = request
    · subst same
      simp only [State.moveSubmit, update_self] at now
      rcases now with now | now
      · cases now
      · cases now
        exact .inl inserted
    · simpa only [State.moveSubmit, update_of_ne same] using now
  have settled : ∀ number, state.Settled frames number →
      (state.moveSubmit request (.failed seqnum)).Settled frames number := by
    intro number settled
    refine ⟨settled.drawn, settled.absent, fun other => ?_⟩
    rw [← not_or]
    intro now
    exact (unsent other number now).elim (settled.sent other).1 (settled.sent other).2
  exact
    { wired with
      unsent := fun other number now => wired.unsent other number (unsent other number now)
      waiting := fun entry mem => by
        obtain ⟨inflight, accepted⟩ := wired.waiting entry mem
        have same : entry.2 ≠ request := by
          intro same
          rw [same, inserted] at accepted
          cases accepted
        refine ⟨inflight, ?_⟩
        simpa only [State.moveSubmit, update_of_ne same] using accepted
      canceled := fun number mem target linked =>
        settled target (wired.canceled number mem target linked)
      taking := fun target takes => settled target (wired.taking target takes)
      awaited := fun running entry mem accepted => by
        by_cases same : entry.2 = request
        · simp only [State.moveSubmit, same, update_self] at accepted
          cases accepted
        · simp only [State.moveSubmit, update_of_ne same] at accepted
          exact wired.awaited running entry mem accepted }

theorem Wired.not_pending (wired : state.Wired table frames) {seqnum : ℕ}
    (unsent : state.phase request = .inserted seqnum ∨ state.phase request = .failed seqnum) :
    seqnum ∉ (state.pending frames).map Prod.fst := by
  intro mem
  obtain ⟨⟨number, other⟩, isPending, same⟩ := mem_map.mp mem
  dsimp only at same
  subst same
  obtain ⟨inflight, accepted⟩ := wired.waiting _ isPending
  dsimp only at accepted
  rw [value_unique wired.keys inflight (wired.unsent request number unsent)] at accepted
  rcases unsent with unsent | unsent
  · rw [unsent] at accepted
    cases accepted
  · rw [unsent] at accepted
    cases accepted

theorem Wired.deliver (wired : state.Wired table frames) {seqnum : ℕ}
    (inserted : state.phase request = .inserted seqnum)
    (once : (state.inflight.map Prod.snd).Nodup) :
    State.Wired table
      ({ state with
        server := { state.server with
          submits := (seqnum, request) :: state.server.submits } }.moveSubmit request .accepted)
      frames := by
  have absent := wired.not_pending (.inl inserted)
  have inflight := wired.unsent request seqnum (.inl inserted)
  have before : ∀ other, other ≠ request →
      (state.moveSubmit request .accepted).phase other = state.phase other :=
    fun other same => update_of_ne same _ _
  have now : (state.moveSubmit request .accepted).phase request = .accepted :=
    update_self ..
  have unsent : ∀ other number,
      (state.moveSubmit request .accepted).phase other = .inserted number ∨
        (state.moveSubmit request .accepted).phase other = .failed number →
      state.phase other = .inserted number ∨ state.phase other = .failed number := by
    intro other number isUnsent
    by_cases same : other = request
    · subst same
      rw [now] at isUnsent
      simp at isUnsent
    · rwa [before other same] at isUnsent
  have settled : ∀ number, state.Settled frames number →
      Settled
        ({ state with
          server := { state.server with
            submits := (seqnum, request) :: state.server.submits } }.moveSubmit request .accepted)
        frames number := by
    intro number settled
    refine ⟨settled.drawn, ?_, fun other => ?_⟩
    · show number ∉ ((seqnum, request) :: state.pending frames).map Prod.fst
      rw [map_cons, mem_cons, not_or]
      exact ⟨fun same => (settled.sent request).1 (same ▸ inserted), settled.absent⟩
    · rw [← not_or]
      intro isUnsent
      exact (unsent other number isUnsent).elim (settled.sent other).1 (settled.sent other).2
  exact
    { wired with
      unsent := fun other number isUnsent => wired.unsent other number
        (unsent other number isUnsent)
      distinct := by
        show (((seqnum, request) :: state.pending frames).map Prod.fst).Nodup
        rw [map_cons, nodup_cons]
        exact ⟨absent, wired.distinct⟩
      waiting := by
        show ∀ entry ∈ (seqnum, request) :: state.pending frames, _
        rw [forall_mem_cons]
        refine ⟨⟨inflight, now⟩, fun entry mem => ?_⟩
        obtain ⟨entered, accepted⟩ := wired.waiting entry mem
        refine ⟨entered, ?_⟩
        by_cases same : entry.2 = request
        · rw [same]
          exact now
        · exact (before entry.2 same).trans accepted
      canceled := fun number mem target linked =>
        settled target (wired.canceled number mem target linked)
      taking := fun target takes => settled target (wired.taking target takes)
      awaited := fun running entry mem accepted => by
        by_cases same : entry.2 = request
        · have isOne : entry = (seqnum, request) := inj_on_of_nodup_map once mem inflight same
          exact .inl (isOne ▸ mem_cons_self)
        · have was := (before entry.2 same).symm.trans accepted
          have awaited := wired.awaited running entry mem was
          rcases awaited with isPending | canceled | taken
          · exact .inl (mem_cons_of_mem _ isPending)
          · exact .inr (.inl canceled)
          · exact .inr (.inr taken) }

theorem Wired.without (wired : state.Wired table frames) {seqnum : ℕ}
    (absent : seqnum ∉ (state.pending frames).map Prod.fst)
    (sent : ∀ request, state.phase request ≠ .inserted seqnum ∧
      state.phase request ≠ .failed seqnum) :
    State.Wired table { state with inflight := Sim.without state.inflight seqnum } frames :=
  { wired with
    keys := nodup_without wired.keys seqnum
    drawn := fun entry mem => wired.drawn entry (mem_without.mp mem).1
    unsent := fun request number now => by
      refine mem_without.mpr ⟨wired.unsent request number now, ?_⟩
      rintro rfl
      exact now.elim (sent request).1 (sent request).2
    waiting := fun entry mem => by
      obtain ⟨inflight, accepted⟩ := wired.waiting entry mem
      refine ⟨mem_without.mpr ⟨inflight, ?_⟩, accepted⟩
      rintro rfl
      exact absent (mem_map_of_mem mem)
    canceled := fun number mem target linked =>
      { wired.canceled number mem target linked with }
    taking := fun target takes => { wired.taking target takes with }
    awaited := fun running entry mem accepted =>
      wired.awaited running entry (mem_without.mp mem).1 accepted }

theorem Wired.pipes (wired : state.Wired table frames) (pipes : ℕ → Bool) :
    State.Wired table { state with pipes } frames :=
  { wired with
    canceled := fun number mem target linked =>
      { wired.canceled number mem target linked with }
    taking := fun target takes => { wired.taking target takes with } }

theorem Wired.moveCancel (wired : state.Wired table frames) {call : ℕ} {phase : Cancel}
    (quiet : ∀ seqnum target, phase ≠ .linked seqnum target) :
    (state.moveCancel call phase).Wired table frames := by
  have before : ∀ other seqnum target,
      (state.moveCancel call phase).cancel other = .linked seqnum target →
        state.cancel other = .linked seqnum target := by
    intro other seqnum target now
    by_cases same : other = call
    · subst same
      simp only [State.moveCancel, update_self] at now
      exact absurd now (quiet seqnum target)
    · simpa only [State.moveCancel, update_of_ne same] using now
  exact
    { wired with
      linked := fun other seqnum target now => wired.linked other seqnum target
        (before other seqnum target now)
      calls := fun first second seqnum target other one two =>
        wired.calls first second seqnum target other (before first seqnum target one)
          (before second seqnum other two)
      canceled := fun number mem target linked =>
        { wired.canceled number mem target linked with }
      taking := fun target takes => { wired.taking target takes with } }

theorem Wired.link (wired : state.Wired table frames) (call target : ℕ) :
    State.Wired table
      ({ state with
        nextSeqnum := state.nextSeqnum + 1
        unlinks := withEntry state.unlinks state.nextSeqnum target }.moveCancel call
          (.linked state.nextSeqnum target)) frames := by
  have entries := withEntry_fresh target wired.unlinkDrawn
  have later : ∀ {seqnum}, seqnum < state.nextSeqnum → seqnum < state.nextSeqnum + 1 :=
    fun less => Nat.lt_succ_of_lt less
  have before : ∀ other, other ≠ call →
      (({ state with
        nextSeqnum := state.nextSeqnum + 1
        unlinks := withEntry state.unlinks state.nextSeqnum target } : State).moveCancel call
          (.linked state.nextSeqnum target)).cancel other = state.cancel other :=
    fun other same => update_of_ne same _ _
  have now : (({ state with
        nextSeqnum := state.nextSeqnum + 1
        unlinks := withEntry state.unlinks state.nextSeqnum target } : State).moveCancel call
          (.linked state.nextSeqnum target)).cancel call = .linked state.nextSeqnum target :=
    update_self ..
  have fresh : state.nextSeqnum ∉ state.unlinking frames := fun mem =>
    Nat.lt_irrefl _ (wired.unlinkingDrawn _ mem)
  have old : ∀ other seqnum other', state.cancel other = .linked seqnum other' →
      seqnum ≠ state.nextSeqnum := by
    rintro other seqnum other' linked rfl
    exact Nat.lt_irrefl _ (wired.unlinkDrawn _ (wired.linked other _ other' linked).1)
  exact
    { wired with
      drawn := fun entry mem => later (wired.drawn entry mem)
      unlinkKeys := by
        show ((withEntry state.unlinks state.nextSeqnum target).map Prod.fst).Nodup
        rw [entries, map_cons, nodup_cons]
        refine ⟨fun mem => ?_, wired.unlinkKeys⟩
        obtain ⟨entry, mem, same⟩ := mem_map.mp mem
        exact Nat.lt_irrefl _ (same ▸ wired.unlinkDrawn entry mem)
      unlinkDrawn := by
        show ∀ entry ∈ withEntry state.unlinks state.nextSeqnum target,
          entry.1 < state.nextSeqnum + 1
        rw [entries, forall_mem_cons]
        exact ⟨Nat.lt_succ_self _, fun entry mem => later (wired.unlinkDrawn entry mem)⟩
      asked := fun entry mem => by
        show entry ∈ withEntry state.unlinks state.nextSeqnum target
        rw [entries]
        exact mem_cons_of_mem _ (wired.asked entry mem)
      linked := fun other seqnum target' linked => by
        show (seqnum, target') ∈ withEntry state.unlinks state.nextSeqnum target ∧ _
        rw [entries]
        by_cases same : other = call
        · subst same
          rw [now] at linked
          cases linked
          exact ⟨mem_cons_self, fresh⟩
        · rw [before other same] at linked
          obtain ⟨mem, absent⟩ := wired.linked other seqnum target' linked
          exact ⟨mem_cons_of_mem _ mem, absent⟩
      calls := fun first second seqnum one two isOne isTwo => by
        by_cases same : first = call
        · subst same
          rw [now] at isOne
          cases isOne
          by_contra other
          rw [before second (Ne.symm other)] at isTwo
          exact old second _ two isTwo rfl
        · rw [before first same] at isOne
          by_cases same' : second = call
          · subst same'
            rw [now] at isTwo
            cases isTwo
            exact absurd rfl (old first _ one isOne)
          · rw [before second same'] at isTwo
            exact wired.calls first second seqnum one two isOne isTwo
      unlinkingDrawn := fun seqnum mem => later (wired.unlinkingDrawn seqnum mem)
      canceled := fun seqnum mem target' linked => by
        have linked : (seqnum, target') ∈ withEntry state.unlinks state.nextSeqnum target := linked
        rw [entries] at linked
        rcases mem_cons.mp linked with same | linked
        · cases same
          have drawn := wired.unlinkingDrawn state.nextSeqnum (mem_append_right _
            (mem_filterMap.mpr ⟨_, mem, rfl⟩))
          exact absurd drawn (Nat.lt_irrefl _)
        · have settled := wired.canceled seqnum mem target' linked
          exact { settled with drawn := later settled.drawn }
      taking := fun target' takes =>
        { wired.taking target' takes with drawn := later (wired.taking target' takes).drawn }
      awaited := fun running entry mem accepted => by
        rcases wired.awaited running entry mem accepted with isPending |
          ⟨seqnum, frame, linked⟩ | taken
        · exact .inl isPending
        · refine .inr (.inl ⟨seqnum, frame, ?_⟩)
          show (seqnum, entry.1) ∈ withEntry state.unlinks state.nextSeqnum target
          rw [entries]
          exact mem_cons_of_mem _ linked
        · exact .inr (.inr taken) }

theorem Wired.ask (wired : state.Wired table frames) {call seqnum target : ℕ}
    (linked : state.cancel call = .linked seqnum target) :
    State.Wired table
      ({ state with
        server := { state.server with
          unlinks := (seqnum, target) :: state.server.unlinks } }.moveCancel call .idle)
      frames := by
  obtain ⟨entry, absent⟩ := wired.linked call seqnum target linked
  have before : ∀ other, other ≠ call →
      (({ state with
        server := { state.server with
          unlinks := (seqnum, target) :: state.server.unlinks } } : State).moveCancel call
            .idle).cancel other = state.cancel other :=
    fun other same => update_of_ne same _ _
  have now : (({ state with
        server := { state.server with
          unlinks := (seqnum, target) :: state.server.unlinks } } : State).moveCancel call
            .idle).cancel call = .idle := update_self ..
  exact
    { wired with
      asked := by
        show ∀ entry ∈ (seqnum, target) :: state.server.unlinks, entry ∈ state.unlinks
        rw [forall_mem_cons]
        exact ⟨entry, wired.asked⟩
      linked := fun other number target' isLinked => by
        by_cases same : other = call
        · subst same
          rw [now] at isLinked
          cases isLinked
        · rw [before other same] at isLinked
          obtain ⟨mem, free⟩ := wired.linked other number target' isLinked
          refine ⟨mem, ?_⟩
          show number ∉ seqnum :: state.unlinking frames
          rw [mem_cons, not_or]
          refine ⟨?_, free⟩
          rintro rfl
          exact same (wired.calls other call number target' target isLinked linked)
      calls := fun first second number one two isOne isTwo => by
        have firstOther : first ≠ call := by
          rintro rfl
          rw [now] at isOne
          cases isOne
        have secondOther : second ≠ call := by
          rintro rfl
          rw [now] at isTwo
          cases isTwo
        rw [before first firstOther] at isOne
        rw [before second secondOther] at isTwo
        exact wired.calls first second number one two isOne isTwo
      apart := by
        show (seqnum :: state.unlinking frames).Nodup
        rw [nodup_cons]
        exact ⟨absent, wired.apart⟩
      unlinkingDrawn := by
        show ∀ number ∈ seqnum :: state.unlinking frames, number < state.nextSeqnum
        rw [forall_mem_cons]
        exact ⟨wired.unlinkDrawn _ entry, wired.unlinkingDrawn⟩
      canceled := fun number mem target' isLinked =>
        { wired.canceled number mem target' isLinked with }
      taking := fun target' takes => { wired.taking target' takes with } }

end EspDevkit.Usb.Sim.State
