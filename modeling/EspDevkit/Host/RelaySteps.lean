import EspDevkit.Host.RelayInvariant

/-!
# Steps of a worker of the relay

Commands that are held while the endpoint drains come back in reverse, and an
unlink finds only what is on the endpoint; steps that spare both keep the
invariant.
-/

namespace EspDevkit.Host

open List

namespace Worker

variable {ep : Ep} {worker before after : Worker} {action : Action}

namespace Inv

theorem push (inv : worker.Inv) {cmd : Cmd} (calm : worker.Calm (.push cmd))
    (stepTo : worker.step ep (.push cmd) = some after) : after.Inv := by
  have queue : after.queue = worker.queue ++ [cmd] := by
    cases stepTo
    simp [Worker.queue]
  have submitted : after.submitted = worker.submitted ++ submits [cmd] := by
    cases stepTo
    cases cmd <;> simp [submits, Cmd.submitted]
  have unlinks : after.unlinks = worker.unlinks ++ unlinksOf [cmd] := by
    cases stepTo
    cases cmd <;> simp [unlinksOf, Cmd.unlinks]
  have fresh : ∀ transfer ∈ submits [cmd], transfer ∉ worker.submitted := by
    intro transfer mem
    cases cmd with
    | submit job =>
      have same : transfer = job.seqnum := mem_singleton.mp mem
      rw [same]
      exact calm
    | unlink seqnum target => cases mem
    | clearHalt => cases mem
  have unqueued : ∀ transfer ∈ submits [cmd], answerCount worker.sent transfer = 0 := by
    intro transfer mem
    by_contra answered
    exact fresh transfer mem (inv.known transfer answered)
  have short : (submits [cmd]).Nodup := by
    cases cmd with
    | submit job => exact nodup_singleton _
    | unlink seqnum target => exact nodup_nil
    | clearHalt => exact nodup_nil
  obtain ⟨started, split_, mem⟩ := inv.begun
  have sent : after.sent = worker.sent := by cases stepTo; rfl
  have entries : after.entries = worker.entries := by cases stepTo; rfl
  have again : after.again = worker.again := by cases stepTo; rfl
  have begun : after.begun = worker.begun := by cases stepTo; rfl
  have old : ∀ {transfer}, transfer ∈ worker.begun → transfer ∈ worker.submitted :=
    fun begun => (inv.begun_mem begun).1
  refine
    { pending := ?_, nodup := ?_, unanswered := ?_, once := ?_, known := ?_, unlinks := ?_,
      refused := ?_, reset := ?_, marked := ?_, trailers := ?_, again := ?_, quiet := ?_,
      heldUnlinks := ?_, heldSubmits := ?_, begun := ?_, order := ?_, batch := ?_, idle := ?_,
      parked := ?_ }
  · cases stepTo
    exact inv.pending
  · rw [submitted]
    exact nodup_append.mpr ⟨inv.nodup, short, fun transfer here other new same =>
      fresh other new (same ▸ here)⟩
  · have kept : (submits [cmd]).filter (fun transfer => answerCount worker.sent transfer = 0) =
        submits [cmd] := filter_eq_self.mpr fun transfer mem =>
      decide_eq_true (unqueued transfer mem)
    rw [Worker.unanswered, queue, again, entries, sent, submitted, submits_append,
      filter_append, kept, ← append_assoc, ← inv.unanswered]
    rfl
  · rw [sent]
    exact inv.once
  · intro transfer answered
    rw [sent] at answered
    rw [submitted]
    exact mem_append_left _ (inv.known transfer answered)
  · rw [unlinks, Worker.openUnlinks, queue, entries, sent, unlinksOf_append, ← append_assoc,
      append_assoc (attached worker.entries ++ unlinksOf worker.queue)]
    refine (inv.unlinks.append_right _).trans ?_
    rw [append_assoc]
    exact perm_append_comm.append_left _
  · rw [sent]
    exact inv.refused
  · cases stepTo
    exact inv.reset
  · cases stepTo
    exact inv.marked
  · cases stepTo
    exact inv.trailers
  · cases stepTo
    exact inv.again
  · cases stepTo
    exact inv.quiet
  · cases stepTo
    exact inv.heldUnlinks
  · cases stepTo
    exact inv.heldSubmits
  · refine ⟨started, ?_, ?_⟩
    · rw [submitted, queue, submits_append, split_, append_assoc]
    · rw [begun]
      exact mem
  · intro earlier transfer later split_ other lt
    rw [begun] at split_
    have here : transfer ∈ worker.submitted := old (by rw [split_]; simp)
    rw [submitted, idxOf_append_of_mem here] at lt
    refine inv.order earlier transfer later split_ other ?_
    by_cases known : other ∈ worker.submitted
    · rwa [idxOf_append_of_mem known] at lt
    · rw [idxOf_append_of_notMem known] at lt
      have bound := idxOf_lt_length_of_mem here
      omega
  · cases stepTo
    exact inv.batch
  · cases stepTo
    exact inv.idle
  · cases stepTo
    exact inv.parked

theorem requeue (inv : worker.Inv) (queue : (unlinksOf worker.queue).Perm (unlinksOf after.queue))
    (submits_ : submits after.queue = submits worker.queue)
    (same : after = { worker with
      commands := after.commands, batch := after.batch, held := after.held, phase := after.phase,
      worked := after.worked, halts := after.halts })
    (heldUnlinks : unlinksOf after.held = [])
    (heldSubmits : after.draining = false → after.Busy → submits after.held = [])
    (batch : after.phase ≠ .handling → after.batch = [])
    (idle : after.Busy → after.worked = false →
      after.batch = [] ∧ (after.draining = false → after.held = []))
    (parked : after.phase = .parked →
      (after.draining = true → after.pending ≠ []) ∧ (after.draining = false → after.held = [])) :
    after.Inv where
  pending := by
    rw [same]
    exact inv.pending
  nodup := by
    rw [same]
    exact inv.nodup
  unanswered := by
    rw [Worker.unanswered, submits_, same]
    exact inv.unanswered
  once := by
    rw [same]
    exact inv.once
  known := by
    rw [same]
    exact inv.known
  unlinks := by
    have unlinks : after.unlinks = worker.unlinks := by rw [same]
    have entries : after.entries = worker.entries := by rw [same]
    have sent : after.sent = worker.sent := by rw [same]
    rw [unlinks, Worker.openUnlinks, entries, sent]
    exact inv.unlinks.trans ((queue.append_left _).append_right _)
  refused := by
    rw [same]
    exact inv.refused
  reset := by
    rw [same]
    exact inv.reset
  marked := by
    rw [same]
    exact inv.marked
  trailers := by
    rw [same]
    exact inv.trailers
  again := by
    rw [same]
    exact inv.again
  quiet := by
    rw [same]
    exact inv.quiet
  heldUnlinks := heldUnlinks
  heldSubmits := heldSubmits
  begun := by
    obtain ⟨started, split_, mem⟩ := inv.begun
    have submitted : after.submitted = worker.submitted := by rw [same]
    have begun : after.begun = worker.begun := by rw [same]
    exact ⟨started, by rw [submitted, submits_, split_], by rw [begun]; exact mem⟩
  order := by
    rw [same]
    exact inv.order
  batch := batch
  idle := idle
  parked := parked

theorem foldl_cons (held commands : List Cmd) :
    held.foldl (fun commands cmd => cmd :: commands) commands = held.reverse ++ commands := by
  induction held generalizing commands with
  | nil => rfl
  | cons cmd rest ih =>
    rw [List.foldl_cons, ih, List.reverse_cons, List.append_assoc]
    rfl

theorem turn (inv : worker.Inv) (calm : worker.Calm .turn)
    (stepTo : worker.step ep .turn = some after) : after.Inv := by
  have turned : ∀ {next : Worker}, worker.batch = [] → next = { worker with
      commands := []
      held := if worker.draining then worker.held else []
      batch := if worker.draining then worker.commands else worker.held.reverse ++ worker.commands
      worked := !(if worker.draining then worker.commands
        else worker.held.reverse ++ worker.commands).isEmpty
      phase := .handling } → next.Inv := by
    intro next empty taken
    have queue : next.queue = if worker.draining then worker.queue
        else worker.held.reverse ++ worker.commands := by
      rw [taken]
      cases worker.draining <;> simp [Worker.queue, empty]
    refine inv.requeue ?_ ?_ (by rw [taken]) ?_ ?_ ?_ ?_ ?_
    · rw [queue]
      cases worker.draining with
      | true => exact .refl _
      | false =>
        have held : unlinksOf worker.held.reverse = [] := by
          rw [unlinksOf, filterMap_reverse, ← unlinksOf, inv.heldUnlinks]
          rfl
        rw [Worker.queue, empty]
        simp [held, inv.heldUnlinks]
    · rw [queue]
      cases drains : worker.draining with
      | true => rfl
      | false =>
        have one := calm drains
        have back : submits worker.held.reverse = submits worker.held := by
          rw [submits, filterMap_reverse, ← submits]
          match held : submits worker.held with
          | [] => rfl
          | [_] => rfl
          | _ :: _ :: _ =>
            rw [held] at one
            simp at one
        rw [Worker.queue, empty]
        simp [back]
    · rw [taken]
      cases worker.draining with
      | true => exact inv.heldUnlinks
      | false => rfl
    · rw [taken]
      intro quiet _
      dsimp only at quiet ⊢
      rw [quiet]
      rfl
    · rw [taken]
      exact fun other => absurd rfl other
    · rw [taken]
      intro _ idle
      dsimp only at idle ⊢
      refine ⟨?_, fun quiet => ?_⟩
      · rwa [Bool.not_eq_false', List.isEmpty_iff] at idle
      · rw [quiet]
        rfl
    · rw [taken]
      exact nofun
  simp only [Worker.step] at stepTo
  split at stepTo
  · rename_i phase
    split at stepTo
    · cases stepTo
    · cases stepTo
      exact turned (inv.batch (by rw [phase]; nofun)) (by rw [foldl_cons])
  · rename_i phase
    split at stepTo
    · cases stepTo
    · cases stepTo
      exact turned (inv.batch (by rw [phase]; nofun)) (by rw [foldl_cons])
  · cases stepTo

theorem poll (inv : worker.Inv) (stepTo : worker.step ep .poll = some after) : after.Inv := by
  simp only [Worker.step] at stepTo
  split at stepTo
  · rename_i phase empty
    cases stepTo
    refine inv.requeue (.refl _) rfl rfl inv.heldUnlinks
      (fun quiet _ => inv.heldSubmits quiet (.inl phase)) (fun _ => empty)
      (fun _ idle => inv.idle (.inl phase) idle) nofun
  · cases stepTo

theorem handle_held (inv : worker.Inv) {cmd : Cmd} {rest held : List Cmd} {halts : List Bool}
    (phase : worker.phase = .handling) (batch : worker.batch = cmd :: rest)
    (queue : submits (held ++ rest ++ worker.commands) = submits worker.queue)
    (unlinks : unlinksOf (held ++ rest ++ worker.commands) = unlinksOf worker.queue)
    (heldUnlinks : unlinksOf held = [])
    (heldSubmits : worker.draining = false → submits held = []) :
    ({ worker with batch := rest, held, halts } : Worker).Inv :=
  inv.requeue (by rw [← unlinks]; exact .refl _) queue rfl heldUnlinks
    (fun quiet _ => heldSubmits quiet) (fun other => absurd phase other)
    (fun _ idle => by
      obtain ⟨empty, _⟩ := inv.idle (.inl phase) idle
      rw [batch] at empty
      cases empty)
    (fun parks => by
      rw [phase] at parks
      cases parks)

theorem order_append (inv : worker.Inv) {new : List ℕ}
    (ready : ∀ transfer ∈ new, ∀ other,
      worker.submitted.idxOf other < worker.submitted.idxOf transfer → other ∈ worker.begun) :
    ∀ earlier transfer later, worker.begun ++ new = earlier ++ transfer :: later →
      ∀ other, worker.submitted.idxOf other < worker.submitted.idxOf transfer →
        other ∈ earlier := by
  intro earlier transfer later split_ other lt
  rcases append_eq_append_iff.mp split_ with ⟨more, rfl, tail⟩ | ⟨more, old, tail⟩
  · have here : transfer ∈ new := by
      rw [tail]
      simp
    exact mem_append_left _ (ready transfer here other lt)
  · cases more with
    | nil =>
      rw [append_nil] at old
      have here : transfer ∈ new := by
        rw [← nil_append new, ← tail]
        simp
      rw [← old]
      exact ready transfer here other lt
    | cons head more =>
      obtain ⟨rfl, _⟩ := List.cons.inj tail
      exact inv.order earlier _ more old other lt

theorem mem_of_idxOf_lt {started rest : List ℕ} {other : ℕ}
    (lt : (started ++ rest).idxOf other < started.length) : other ∈ started := by
  by_contra missing
  rw [idxOf_append_of_notMem missing] at lt
  omega

theorem handle_submit (inv : worker.Inv) {job : Submit} {rest : List Cmd}
    (phase : worker.phase = .handling) (batch : worker.batch = .submit job :: rest)
    (quiet : worker.draining = false) :
    (({ worker with batch := rest } : Worker).begin ep
      ⟨job.seqnum, job.length, false, job.data, job.zlp, none⟩).Inv := by
  obtain ⟨again, clean⟩ := inv.quiet quiet
  have held := inv.heldSubmits quiet (.inl phase)
  obtain ⟨started, split_, mem⟩ := inv.begun
  have old : submits worker.queue = job.seqnum :: submits (rest ++ worker.commands) := by
    rw [Worker.queue, batch]
    simp [held, Cmd.submitted]
  have next : ∀ begun : Worker, begun.held = worker.held → begun.batch = rest →
      begun.commands = worker.commands →
        submits begun.queue = submits (rest ++ worker.commands) ∧
          unlinksOf begun.queue = unlinksOf worker.queue := by
    intro begun held' batch' commands
    rw [Worker.queue, Worker.queue, held', batch', commands, batch]
    simp [held, Cmd.unlinks]
  have begins : Begins { worker with batch := rest }
      [⟨job.seqnum, job.length, false, job.data, job.zlp, none⟩]
      (({ worker with batch := rest } : Worker).begin ep
        ⟨job.seqnum, job.length, false, job.data, job.zlp, none⟩) :=
    begins_begin rfl rfl
  generalize ({ worker with batch := rest } : Worker).begin ep
    ⟨job.seqnum, job.length, false, job.data, job.zlp, none⟩ = after at begins
  obtain ⟨same, pending, transfers_, attached_, begun, entries⟩ := begins
  have queue := next after (by rw [same]) (by rw [same]) (by rw [same])
  have sent : after.sent = worker.sent := by rw [same]
  have submitted : after.submitted = worker.submitted := by rw [same]
  have stays : job.seqnum ∉ started := by
    have nodup := inv.nodup
    rw [split_, old] at nodup
    exact fun here => (nodup_append.mp nodup).2.2 _ here _ (mem_cons_self ..) rfl
  have phase' : after.phase = .handling := by
    rw [same]
    exact phase
  exact
    { pending := pending inv.pending
      nodup := by rw [submitted]; exact inv.nodup
      unanswered := by
        have whole := inv.unanswered
        rw [Worker.unanswered, old, again] at whole
        rw [Worker.unanswered, queue.1, transfers_, sent, submitted, ← whole]
        have none_ : after.again = [] := by
          rw [same]
          exact again
        rw [none_]
        simp
      once := by rw [sent]; exact inv.once
      known := by rw [sent, submitted]; exact inv.known
      unlinks := by
        have unlinks : after.unlinks = worker.unlinks := by rw [same]
        rw [unlinks, Worker.openUnlinks, attached_, queue.2, sent]
        exact inv.unlinks
      refused := by rw [sent]; exact inv.refused
      reset := by rw [same]; exact inv.reset
      marked := fun entry member unlinked => by
        rcases entries entry member with here | clean
        · rw [same]
          exact inv.marked entry here unlinked
        · exact absurd clean unlinked
      trailers := fun entry member trailer => by
        rcases entries entry member with here | clean
        · exact inv.trailers entry here trailer
        · exact clean
      again := by rw [same]; exact inv.again
      quiet := fun _ => ⟨by rw [same]; exact again, fun entry member => by
        rcases entries entry member with here | clean'
        · exact clean entry here
        · exact clean'⟩
      heldUnlinks := by rw [same]; exact inv.heldUnlinks
      heldSubmits := fun _ _ => by rw [same]; exact held
      begun := by
        refine ⟨started ++ [job.seqnum], ?_, fun transfer => ?_⟩
        · rw [submitted, queue.1, split_, old]
          simp
        · rw [begun]
          simp [mem transfer]
      order := by
        rw [begun, submitted]
        refine inv.order_append fun transfer new other lt => ?_
        have last : transfer = job.seqnum := mem_singleton.mp new
        rw [last, split_, old, idxOf_append_of_notMem stays, idxOf_cons_self] at lt
        exact (mem other).mp (mem_of_idxOf_lt lt)
      batch := fun other => absurd phase' other
      idle := fun _ idle => by
        have worked : worker.worked = false := by
          rw [same] at idle
          exact idle
        obtain ⟨empty, _⟩ := inv.idle (.inl phase) worked
        rw [batch] at empty
        cases empty
      parked := fun parks => by
        rw [phase'] at parks
        cases parks }

theorem handle_found (inv : worker.Inv) {seqnum target : ℕ} {rest : List Cmd}
    {entries : List Entry} (phase : worker.phase = .handling)
    (batch : worker.batch = .unlink seqnum target :: rest) (fresh : target ∉ worker.unlinked)
    (found : markUnlinked seqnum target worker.entries = some entries) :
    ({ worker with
      batch := rest, entries, draining := true
      unlinked := worker.unlinked ++ [target] } : Worker).Inv := by
  obtain ⟨ahead, entry, behind, whole, rfl, plain, rfl⟩ := markUnlinked_some found
  have clean : entry.unlinkedBy = none := by
    by_contra marked
    exact fresh (inv.marked entry (by rw [whole]; simp) marked)
  have loose : entry.attached = none := by
    rw [Entry.attached, clean]
    rfl
  have plain' : ({ entry with unlinkedBy := some seqnum } : Entry).trailer = false := plain
  have transfers_ : transfers (ahead ++ { entry with unlinkedBy := some seqnum } :: behind) =
      transfers worker.entries := by
    rw [whole, transfers_append, transfers_append, transfers_cons, transfers_cons, plain]
  have queue : submits (worker.held ++ rest ++ worker.commands) = submits worker.queue := by
    rw [Worker.queue, batch]
    simp [Cmd.submitted]
  obtain ⟨started, split_, mem⟩ := inv.begun
  exact
    { pending := by
        have length := inv.pending
        rw [whole] at length
        simpa using length
      nodup := inv.nodup
      unanswered := by
        rw [← inv.unanswered, Worker.unanswered, Worker.unanswered, transfers_, ← queue]
        rfl
      once := inv.once
      known := inv.known
      unlinks := by
        refine inv.unlinks.trans (List.Perm.append_right _ ?_)
        have attached_ : attached worker.entries = attached ahead ++ attached behind := by
          rw [whole]
          simp [loose]
        have marked : attached (ahead ++ { entry with unlinkedBy := some seqnum } :: behind) =
            attached ahead ++ (seqnum, entry.seqnum) :: attached behind := by
          simp [Entry.attached]
        have unlinks : unlinksOf worker.queue =
            (seqnum, entry.seqnum) :: unlinksOf (rest ++ worker.commands) := by
          rw [Worker.queue, batch]
          simp [inv.heldUnlinks, Cmd.unlinks]
        have later : unlinksOf (worker.held ++ rest ++ worker.commands) =
            unlinksOf (rest ++ worker.commands) := by
          simp [inv.heldUnlinks]
        show (attached worker.entries ++ unlinksOf worker.queue).Perm
          (attached (ahead ++ { entry with unlinkedBy := some seqnum } :: behind) ++
            unlinksOf (worker.held ++ rest ++ worker.commands))
        rw [attached_, marked, unlinks, later]
        refine (perm_middle).trans ?_
        rw [append_assoc, append_assoc, cons_append]
        exact (perm_middle).symm
      refused := inv.refused
      reset := fun unlink other sent => mem_append_left _ (inv.reset unlink other sent)
      marked := fun other member unlinked => by
        rcases mem_append.mp member with here | here
        · exact mem_append_left _ (inv.marked other (by rw [whole]; simp [here]) unlinked)
        · rcases mem_cons.mp here with rfl | here
          · exact mem_append_right _ (mem_singleton.mpr rfl)
          · exact mem_append_left _ (inv.marked other (by rw [whole]; simp [here]) unlinked)
      trailers := fun other member trailer => by
        rcases mem_append.mp member with here | here
        · exact inv.trailers other (by rw [whole]; simp [here]) trailer
        · rcases mem_cons.mp here with rfl | here
          · rw [plain'] at trailer
            cases trailer
          · exact inv.trailers other (by rw [whole]; simp [here]) trailer
      again := inv.again
      quiet := by rintro ⟨⟩
      heldUnlinks := inv.heldUnlinks
      heldSubmits := by rintro ⟨⟩
      begun := ⟨started, split_.trans (by rw [← queue]; rfl), mem⟩
      order := inv.order
      batch := fun other => absurd phase other
      idle := fun _ idle => by
        obtain ⟨empty, _⟩ := inv.idle (.inl phase) idle
        rw [batch] at empty
        cases empty
      parked := fun parks => by
        dsimp only at parks
        rw [phase] at parks
        cases parks }

theorem handle_missed (inv : worker.Inv) {seqnum target : ℕ} {rest : List Cmd}
    (phase : worker.phase = .handling) (batch : worker.batch = .unlink seqnum target :: rest)
    (done : ∃ status actual data, .retSubmit target status actual data ∈ worker.sent) :
    ({ worker with
      batch := rest, sent := worker.sent ++ [.retUnlink seqnum 0 target] } : Worker).Inv := by
  have count : ∀ transfer, answerCount (worker.sent ++ [.retUnlink seqnum 0 target]) transfer =
      answerCount worker.sent transfer := by
    intro transfer
    rw [answerCount_append]
    simp [Reply.answers, ECONNRESET]
  have queue : submits (worker.held ++ rest ++ worker.commands) = submits worker.queue := by
    rw [Worker.queue, batch]
    simp [Cmd.submitted]
  obtain ⟨started, split_, mem⟩ := inv.begun
  exact
    { pending := inv.pending
      nodup := inv.nodup
      unanswered := by
        simp only [count]
        rw [← inv.unanswered, Worker.unanswered, Worker.unanswered, ← queue]
        rfl
      once := fun transfer => by rw [count]; exact inv.once transfer
      known := fun transfer => by rw [count]; exact inv.known transfer
      unlinks := by
        refine inv.unlinks.trans ?_
        have unlinks : unlinksOf worker.queue =
            (seqnum, target) :: unlinksOf (rest ++ worker.commands) := by
          rw [Worker.queue, batch]
          simp [inv.heldUnlinks, Cmd.unlinks]
        have later : unlinksOf (worker.held ++ rest ++ worker.commands) =
            unlinksOf (rest ++ worker.commands) := by
          simp [inv.heldUnlinks]
        show (attached worker.entries ++ unlinksOf worker.queue ++ retUnlinks worker.sent).Perm
          (attached worker.entries ++ unlinksOf (worker.held ++ rest ++ worker.commands) ++
            retUnlinks (worker.sent ++ [.retUnlink seqnum 0 target]))
        rw [unlinks, later, retUnlinks_append, append_assoc, append_assoc]
        refine List.Perm.append_left _ ?_
        rw [← append_assoc]
        exact (perm_append_singleton _ _).symm
      refused := fun earlier unlink other later sent => by
        rcases append_eq_append_iff.mp sent with ⟨more, rfl, tail⟩ | ⟨more, old, tail⟩
        · obtain ⟨status, actual, data, here⟩ := done
          rcases singleton_eq_append_iff.mp tail with ⟨rfl, same⟩ | ⟨_, same⟩
          · obtain ⟨same, _⟩ := List.cons.inj same
            cases same
            exact ⟨status, actual, data, mem_append_left _ here⟩
          · cases same
        · cases more with
          | nil =>
            rw [append_nil] at old
            obtain ⟨same, _⟩ := List.cons.inj tail
            cases same
            rw [← old]
            exact done
          | cons head more =>
            obtain ⟨rfl, _⟩ := List.cons.inj tail
            exact inv.refused earlier _ _ more old
      reset := fun unlink other sent => by
        rcases mem_append.mp sent with old | new
        · exact inv.reset unlink other old
        · have same := mem_singleton.mp new
          simp [ECONNRESET] at same
      marked := inv.marked
      trailers := inv.trailers
      again := inv.again
      quiet := inv.quiet
      heldUnlinks := inv.heldUnlinks
      heldSubmits := inv.heldSubmits
      begun := ⟨started, split_.trans (by rw [← queue]; rfl), mem⟩
      order := inv.order
      batch := fun other => absurd phase other
      idle := fun _ idle => by
        obtain ⟨empty, _⟩ := inv.idle (.inl phase) idle
        rw [batch] at empty
        cases empty
      parked := fun parks => by
        dsimp only at parks
        rw [phase] at parks
        cases parks }

end Inv

end Worker

end EspDevkit.Host
