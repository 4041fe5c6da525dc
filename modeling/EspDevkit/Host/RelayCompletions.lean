import EspDevkit.Host.RelaySteps

/-!
# Completions of the relay

What comes back from the endpoint is answered, dropped as a trailer, or goes
again once the endpoint has drained.
-/

namespace EspDevkit.Host

open List

namespace Worker

variable {ep : Ep} {worker before after : Worker}

namespace Inv

theorem complete_kept (inv : worker.Inv) {entry : Entry} {rest again : List Entry}
    (phase : worker.phase = .polling) (entries : worker.entries = entry :: rest)
    (clean : entry.unlinkedBy = none)
    (same : transfers again ++ transfers rest = transfers worker.again ++ transfers worker.entries)
    (kept : ∀ other ∈ again, other.trailer = false ∧ other.unlinkedBy = none)
    (quiet : worker.draining = false → again = worker.again) :
    ({ worker with
      pending := worker.pending.tail, worked := true, entries := rest, again } : Worker).Inv where
  pending := by
    have length := inv.pending
    rw [entries, length_cons] at length
    simp [length]
  nodup := inv.nodup
  unanswered := by
    rw [← inv.unanswered, Worker.unanswered, Worker.unanswered, ← same]
    rfl
  once := inv.once
  known := inv.known
  unlinks := by
    have loose : attached worker.entries = attached rest := by
      rw [entries, attached_cons, Entry.attached, clean]
      rfl
    have unlinks := inv.unlinks
    rw [Worker.openUnlinks, loose] at unlinks
    exact unlinks
  refused := inv.refused
  reset := inv.reset
  marked other member := inv.marked other (by rw [entries]; exact mem_cons_of_mem _ member)
  trailers other member := inv.trailers other (by rw [entries]; exact mem_cons_of_mem _ member)
  again := kept
  quiet drains := by
    obtain ⟨empty, cleans⟩ := inv.quiet drains
    exact ⟨(quiet drains).trans empty, fun other member =>
      cleans other (by rw [entries]; exact mem_cons_of_mem _ member)⟩
  heldUnlinks := inv.heldUnlinks
  heldSubmits := inv.heldSubmits
  begun := inv.begun
  order := inv.order
  batch := inv.batch
  idle _ idle := by cases idle
  parked parks := by
    dsimp only at parks
    rw [phase] at parks
    cases parks

theorem complete_answered (inv : worker.Inv) {entry : Entry} {rest : List Entry} {reply : Reply}
    (phase : worker.phase = .polling) (entries : worker.entries = entry :: rest)
    (plain : entry.trailer = false)
    (answers : ∀ other, reply.answers other = decide (other = entry.seqnum))
    (unlink : reply.unlink = entry.attached) :
    ({ worker with
      pending := worker.pending.tail, worked := true, entries := rest
      sent := worker.sent ++ [reply] } : Worker).Inv := by
  have place : worker.unanswered = transfers worker.again ++
      entry.seqnum :: (transfers rest ++ submits worker.queue) := by
    rw [Worker.unanswered, entries, transfers_cons, plain]
    simp
  obtain ⟨left, once, known⟩ := inv.answered place answers
  exact
    { pending := by
        have length := inv.pending
        rw [entries, length_cons] at length
        simp [length]
      nodup := inv.nodup
      unanswered := by
        rw [← left, Worker.unanswered, append_assoc]
        rfl
      once := once
      known := known
      unlinks := by
        refine inv.unlinks.trans ?_
        show (attached worker.entries ++ unlinksOf worker.queue ++ retUnlinks worker.sent).Perm
          (attached rest ++ unlinksOf worker.queue ++ retUnlinks (worker.sent ++ [reply]))
        rw [entries, attached_cons, retUnlinks_append, unlink, append_assoc, append_assoc,
          ← append_assoc (attached rest ++ unlinksOf worker.queue),
          ← append_assoc (attached rest)]
        exact perm_append_comm
      refused := fun earlier other target later sent => by
        rcases append_eq_append_iff.mp sent with ⟨more, rfl, tail⟩ | ⟨more, old, tail⟩
        · rcases singleton_eq_append_iff.mp tail with ⟨rfl, same⟩ | ⟨_, same⟩
          · obtain ⟨same, _⟩ := List.cons.inj same
            subst same
            have own := answers entry.seqnum
            simp [Reply.answers, ECONNRESET] at own
          · cases same
        · cases more with
          | nil =>
            obtain ⟨same, _⟩ := List.cons.inj tail
            subst same
            have own := answers entry.seqnum
            simp [Reply.answers, ECONNRESET] at own
          | cons head more =>
            obtain ⟨rfl, _⟩ := List.cons.inj tail
            exact inv.refused earlier _ _ more old
      reset := fun other target sent => by
        rcases mem_append.mp sent with old | new
        · exact inv.reset other target old
        · have same := mem_singleton.mp new
          subst same
          have own := answers target
          simp only [Reply.answers, and_self, decide_true] at own
          have target_ : target = entry.seqnum := of_decide_eq_true own.symm
          rw [target_]
          refine inv.marked entry (by rw [entries]; simp) fun clean => ?_
          rw [Entry.attached, clean] at unlink
          cases unlink
      marked := fun other member =>
        inv.marked other (by rw [entries]; exact mem_cons_of_mem _ member)
      trailers := fun other member =>
        inv.trailers other (by rw [entries]; exact mem_cons_of_mem _ member)
      again := inv.again
      quiet := fun drains => ⟨(inv.quiet drains).1, fun other member =>
        (inv.quiet drains).2 other (by rw [entries]; exact mem_cons_of_mem _ member)⟩
      heldUnlinks := inv.heldUnlinks
      heldSubmits := inv.heldSubmits
      begun := inv.begun
      order := inv.order
      batch := inv.batch
      idle := fun _ idle => by cases idle
      parked := fun parks => by
        dsimp only at parks
        rw [phase] at parks
        cases parks }

end Inv

theorem reply_sends {entry : Entry} {done : Completion} {cut gone : Bool}
    (live : (worker.reply ep entry done cut gone).stopped = false) :
    ∃ status actual data, worker.reply ep entry done cut gone =
      { worker with sent := worker.sent ++ [.retSubmit entry.seqnum status actual data] } := by
  have sends : ∀ (state : Worker) (reply : Reply), (state.send reply).stopped = false →
      state.stopped = false ∧ state.send reply = { state with sent := state.sent ++ [reply] } := by
    intro state reply live
    unfold send at live ⊢
    split at live
    · rename_i stopped
      rw [stopped] at live
      cases live
    · rename_i running
      rw [if_neg running]
      exact ⟨by simpa using running, rfl⟩
  unfold reply at live ⊢
  extract_lets status halted got at live ⊢
  have still : halted.stopped = false → halted = worker := by
    intro live
    by_cases gone : status = ENODEV
    · simp only [halted, if_pos gone] at live
      cases live
    · simp only [halted, if_neg gone]
  split at live
  · rename_i out
    rw [if_pos out]
    obtain ⟨running, sent⟩ := sends _ _ live
    rw [sent, still running]
    exact ⟨_, _, _, rfl⟩
  · rename_i out
    rw [if_neg out]
    generalize (if got > entry.length then (EOVERFLOW, entry.length) else (status, got)) = answer
      at live ⊢
    obtain ⟨status, actual⟩ := answer
    obtain ⟨running, sent⟩ := sends _ _ live
    dsimp only
    rw [sent, still running]
    exact ⟨_, _, _, rfl⟩

namespace Inv

theorem complete (inv : worker.Inv) {done : Completion} {gone : Bool}
    (phase : worker.phase = .polling) (pending : worker.pending ≠ [])
    (running : worker.stopped = false)
    (live : (worker.complete ep done gone).stopped = false) :
    (worker.complete ep done gone).Inv := by
  have answers : ∀ (seqnum : ℕ) (status : Int) (actual : ℕ) (data : List UInt8) (other : ℕ),
      (Reply.retSubmit seqnum status actual data).answers other = decide (other = seqnum) := by
    intro seqnum status actual data other
    simp only [Reply.answers, eq_comm]
  cases entries : worker.entries with
  | nil =>
    have length := inv.pending
    rw [entries] at length
    exact absurd (length_eq_zero_iff.mp length) pending
  | cons entry rest =>
    have replies : ∀ {cut : Bool}, entry.trailer = false → entry.unlinkedBy = none →
        (({ worker with pending := worker.pending.tail, worked := true, entries := rest } :
          Worker).reply ep entry done cut gone).stopped = false →
        (({ worker with pending := worker.pending.tail, worked := true, entries := rest } :
          Worker).reply ep entry done cut gone).Inv := by
      intro cut plain clean live
      obtain ⟨status, actual, data, sent⟩ := reply_sends live
      rw [sent]
      exact inv.complete_answered phase entries plain (answers _ _ _ _)
        (by rw [Entry.attached, clean]; rfl)
    simp only [Worker.complete, entries] at live ⊢
    split at live
    · rename_i trailer
      rw [if_pos trailer]
      have same : transfers worker.again ++ transfers rest =
          transfers worker.again ++ transfers worker.entries := by
        rw [entries, transfers_cons, if_pos trailer]
      exact inv.complete_kept phase entries (inv.trailers entry (by rw [entries]; simp) trailer)
        same inv.again fun _ => rfl
    · rename_i plain
      rw [if_neg plain]
      rw [Bool.not_eq_true] at plain
      split at live
      · rename_i drains
        rw [if_pos drains]
        split at live
        · rename_i unlink unlinked
          rw [send, if_neg (by rw [running]; exact Bool.false_ne_true)]
          refine inv.complete_answered phase entries plain (fun other => ?_) ?_
          · simp only [Reply.answers, true_and, eq_comm]
          · rw [Entry.attached, unlinked]
            rfl
        · rename_i clean
          split at live
          · rename_i moved
            rw [if_pos moved]
            exact replies plain clean live
          · rename_i nothing
            rw [if_neg nothing]
            refine inv.complete_kept phase entries clean ?_ ?_ ?_
            · rw [entries, transfers_append, transfers_cons, transfers_cons, plain]
              simp [transfers]
            · intro other member
              rcases mem_append.mp member with old | new
              · exact inv.again other old
              · rw [mem_singleton.mp new]
                exact ⟨plain, clean⟩
            · intro quiet
              rw [quiet] at drains
              cases drains
      · rename_i calm
        rw [if_neg calm]
        exact replies plain ((inv.quiet (Bool.eq_false_iff.mpr calm)).2 entry
          (by rw [entries]; simp)) live

theorem settle_drained (inv : worker.Inv) (phase : worker.phase = .polling)
    (drained : worker.pending = []) :
    ({ worker.again.foldl (begin ep) { worker with draining := false, again := [] } with
      worked := true
      phase := .top } : Worker).Inv := by
  have begins : Begins { worker with draining := false, again := [] } worker.again
      (worker.again.foldl (begin ep) { worker with draining := false, again := [] }) :=
    begins_foldl inv.again _
  generalize worker.again.foldl (begin ep) { worker with draining := false, again := [] } = after
    at begins
  obtain ⟨same, pending, transfers_, attached_, begun, mem⟩ := begins
  have empty : worker.entries = [] := by
    have length := inv.pending
    rw [drained] at length
    exact length_eq_zero_iff.mp length.symm
  have again : worker.again.map Entry.seqnum = transfers worker.again := by
    rw [transfers, filter_eq_self.mpr fun entry member => by simp [(inv.again entry member).1]]
  have clean : ∀ entry ∈ after.entries, entry.unlinkedBy = none := by
    intro entry member
    rcases mem entry member with old | clean
    · rw [empty] at old
      cases old
    · exact clean
  have sent : after.sent = worker.sent := by rw [same]
  have submitted : after.submitted = worker.submitted := by rw [same]
  have queue : after.queue = worker.queue := by
    rw [same]
    rfl
  obtain ⟨started, split_, members⟩ := inv.begun
  -- what goes again was begun before
  have known : ∀ transfer ∈ transfers worker.again, transfer ∈ started := by
    intro transfer member
    have open_ : transfer ∈ worker.submitted := by
      have here : transfer ∈ worker.unanswered := by
        rw [Worker.unanswered]
        simp [member]
      rw [inv.unanswered] at here
      exact (mem_filter.mp here).1
    have apart : transfer ∉ submits worker.queue := by
      have nodup := inv.nodup_unanswered
      rw [Worker.unanswered, append_assoc] at nodup
      exact fun queued => (nodup_append.mp nodup).2.2 transfer member transfer
        (mem_append_right _ queued) rfl
    rw [split_, mem_append] at open_
    exact open_.resolve_right apart
  exact
    { pending := pending inv.pending
      nodup := by
        show after.submitted.Nodup
        rw [submitted]
        exact inv.nodup
      unanswered := by
        have whole := inv.unanswered
        have none_ : after.again = [] := by rw [same]
        show transfers after.again ++ transfers after.entries ++ submits after.queue =
          after.submitted.filter fun transfer => answerCount after.sent transfer = 0
        rw [none_, transfers_, again, queue, sent, submitted, ← whole, Worker.unanswered]
        simp [empty, transfers]
      once := by
        show ∀ transfer, answerCount after.sent transfer ≤ 1
        rw [sent]
        exact inv.once
      known := by
        show ∀ transfer, answerCount after.sent transfer ≠ 0 → transfer ∈ after.submitted
        rw [sent, submitted]
        exact inv.known
      unlinks := by
        have unlinks : after.unlinks = worker.unlinks := by rw [same]
        show after.unlinks.Perm
          (attached after.entries ++ unlinksOf after.queue ++ retUnlinks after.sent)
        rw [unlinks, attached_, queue, sent]
        exact inv.unlinks
      refused := by
        show ∀ earlier unlink target later, after.sent = _ → _
        rw [sent]
        exact inv.refused
      reset := by
        rw [same]
        exact inv.reset
      marked := fun entry member unlinked => absurd (clean entry member) unlinked
      trailers := fun entry member _ => clean entry member
      again := by
        rw [same]
        rintro _ ⟨⟩
      quiet := fun _ => ⟨by rw [same], clean⟩
      heldUnlinks := by
        rw [same]
        exact inv.heldUnlinks
      heldSubmits := fun _ busy => by
        rcases busy with busy | busy <;> cases busy
      begun := by
        refine ⟨started, ?_, fun transfer => ?_⟩
        · show after.submitted = started ++ submits after.queue
          rw [submitted, queue, split_]
        · show _ ↔ transfer ∈ after.begun
          rw [begun, again, mem_append, ← members]
          exact ⟨.inl, fun here => here.elim id (known transfer)⟩
      order := by
        show ∀ earlier transfer later, after.begun = earlier ++ transfer :: later → ∀ other,
          after.submitted.idxOf other < after.submitted.idxOf transfer → other ∈ earlier
        rw [begun, again, submitted]
        refine inv.order_append fun transfer member other lt => (members other).mp ?_
        have bound := idxOf_lt_length_of_mem (known transfer member)
        rw [split_, idxOf_append_of_mem (known transfer member)] at lt
        exact mem_of_idxOf_lt (Nat.lt_trans lt bound)
      batch := fun _ => by
        have batch : after.batch = worker.batch := by rw [same]
        show after.batch = []
        rw [batch]
        exact inv.batch (by rw [phase]; rintro ⟨⟩)
      idle := fun busy => by
        rcases busy with busy | busy <;> cases busy
      parked := by rintro ⟨⟩ }

theorem settle (inv : worker.Inv) (stepTo : worker.step ep .settle = some after) : after.Inv := by
  simp only [Worker.step] at stepTo
  split at stepTo
  · rename_i phase
    split at stepTo
    · rename_i drained
      cases stepTo
      exact inv.settle_drained phase drained.2
    · rename_i waits
      cases stepTo
      refine inv.requeue (.refl _) rfl rfl inv.heldUnlinks ?_ ?_ ?_ ?_
      · intro _ busy
        rcases busy with busy | busy <;> revert busy <;> dsimp only <;> split <;> rintro ⟨⟩
      · exact fun _ => inv.batch (by rw [phase]; rintro ⟨⟩)
      · intro busy
        rcases busy with busy | busy <;> revert busy <;> dsimp only <;> split <;> rintro ⟨⟩
      · intro parks
        dsimp only at parks
        split at parks
        · cases parks
        · rename_i idle
          refine ⟨fun drains => fun empty => waits ⟨drains, empty⟩, ?_⟩
          exact (inv.idle (.inr phase) (Bool.eq_false_iff.mpr idle)).2
  · cases stepTo

end Inv

end Worker

end EspDevkit.Host
