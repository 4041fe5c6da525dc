import EspDevkit.Usb.HidReports

/-!
# Steps of the report queue

Every calm step keeps the invariant: one lemma for each thing that a thread, the
controller or the device task does.
-/

namespace EspDevkit.Usb.Hid

open List Function

namespace State

variable {state after : State} {config : Config} {thread : Thread}

theorem Queue.head_mod (queue : state.Queue) : state.head % kQueueReports = state.head :=
  Nat.mod_eq_of_lt queue.head_lt

theorem index_ne (queue : state.Queue) (room : state.count < kQueueReports) {i : ℕ}
    (lt : i < state.count) : (state.head + i) % kQueueReports ≠ state.index := by
  have bound := queue.head_lt
  rw [index]
  unfold kQueueReports at *
  omega

theorem head_ne_index (queue : state.Queue) (room : state.count < kQueueReports)
    (waiting : 0 < state.count) : state.head ≠ state.index := by
  have differs := index_ne queue room waiting
  rwa [Nat.add_zero, queue.head_mod] at differs

theorem next_add (queue : state.Queue) : state.next + state.count = state.accepted.length := by
  have le := queue.count_accepted
  rw [next]
  omega

theorem Queue.first (queue : state.Queue) (waiting : 0 < state.count) :
    state.Holds state.head state.next := by
  have holds := queue.slots 0 waiting
  rwa [Nat.add_zero, Nat.add_zero, queue.head_mod] at holds

theorem Moves.report (moves : state.Moves) {entry : Transfer × Option TransferStatus}
    (mem : entry ∈ state.transfers) : entry.1.report < state.accepted.length := by
  obtain ⟨report, found, _⟩ := moves.unchanged entry mem
  exact (List.getElem?_eq_some_iff.mp found).1

structure Alike (before after : State) : Prop where
  slots : after.slots = before.slots
  lengths : after.lengths = before.lengths
  head : after.head = before.head
  count : after.count = before.count
  active : after.active = before.active
  period : after.period = before.period
  numbers : after.numbers = before.numbers
  accepted : after.accepted = before.accepted

namespace Alike

theorem next (same : Alike state after) : after.next = state.next := by
  rw [State.next, State.next, same.accepted, same.count]

theorem queue (same : Alike state after) (queue : state.Queue) : after.Queue where
  head_lt := same.head ▸ queue.head_lt
  count_le := same.count ▸ queue.count_le
  count_accepted := by
    rw [same.count, same.accepted]
    exact queue.count_accepted
  off off := same.count.trans (queue.off (same.active ▸ off))
  old := by
    rw [same.accepted, same.period]
    exact queue.old
  slots := by
    simp only [Holds, same.count, same.head, same.next, same.numbers, same.accepted, same.period,
      same.lengths, same.slots]
    exact queue.slots

theorem atHead (same : Alike state after) {transfer : Transfer} (atHead : state.AtHead transfer) :
    after.AtHead transfer := by
  rw [AtHead, same.count, same.head, same.next, same.lengths]
  exact atHead

theorem moves (same : Alike state after) (moves : state.Moves)
    (transfer : after.transfer = state.transfer)
    (phase : ∀ thread, after.phase thread = .submit → ∃ thread, state.phase thread = .submit)
    (transfers : ∀ entry ∈ after.transfers, ∃ entry' ∈ state.transfers, entry'.1 = entry.1)
    (closed : after.isOpen = false → after.flight = []) : after.Moves where
  period_le := by
    rw [transfer, same.period]
    exact moves.period_le
  taken thread submits queued period := by
    rw [transfer] at queued period ⊢
    obtain ⟨thread', submits⟩ := phase thread submits
    exact same.atHead (moves.taken thread' submits queued (period.trans same.period))
  unchanged entry mem := by
    obtain ⟨entry', mem', eq⟩ := transfers entry mem
    rw [same.accepted, same.slots, ← eq]
    exact moves.unchanged entry' mem'
  atHead entry mem active := by
    obtain ⟨entry', mem', eq⟩ := transfers entry mem
    exact eq ▸ same.atHead (moves.atHead entry' mem' (same.active ▸ active))
  closed := closed

end Alike

inductive Carries (before after : State) : Prop
  | none : before.transfers = [] → after.transfers = [] → Carries before after
  | one (transfer : Transfer) (status status' : Option TransferStatus) :
      before.transfers = [(transfer, status)] → after.transfers = [(transfer, status')] →
        (status' = some .Completed ↔ status = some .Completed) → Carries before after

namespace Carries

theorem of_eq (token : state.Token) (same : after.transfers = state.transfers) :
    Carries state after := by
  cases token with
  | free _ _ none => exact .none none (same.trans none)
  | held _ _ _ _ none => exact .none none (same.trans none)
  | moving entry _ _ one => exact .one entry.1 entry.2 entry.2 one (same.trans one) Iff.rfl

theorem eq_nil (carries : Carries state after) (none : state.transfers = []) :
    after.transfers = [] := by
  cases carries with
  | none _ none => exact none
  | one transfer status status' one _ _ =>
    rw [none] at one
    cases one

theorem exists_before (carries : Carries state after) {entry : Transfer × Option TransferStatus}
    (mem : entry ∈ after.transfers) : ∃ entry' ∈ state.transfers, entry'.1 = entry.1 ∧
      (entry.2 = some .Completed ↔ entry'.2 = some .Completed) := by
  cases carries with
  | none _ none =>
    rw [none] at mem
    cases mem
  | one transfer status status' before after same =>
    rw [after, mem_singleton] at mem
    subst mem
    exact ⟨(transfer, status), before ▸ mem_singleton.mpr rfl, rfl, same⟩

theorem exists_after (carries : Carries state after) {entry : Transfer × Option TransferStatus}
    (mem : entry ∈ state.transfers) : ∃ entry' ∈ after.transfers, entry'.1 = entry.1 ∧
      (entry'.2 = some .Completed ↔ entry.2 = some .Completed) := by
  cases carries with
  | none none _ =>
    rw [none] at mem
    cases mem
  | one transfer status status' before after same =>
    rw [before, mem_singleton] at mem
    subst mem
    exact ⟨(transfer, status'), after ▸ mem_singleton.mpr rfl, rfl, same⟩

theorem token (carries : Carries state after) (token : state.Token)
    (busy : after.busy = state.busy)
    (phase : ∀ thread, after.phase thread = .idle ↔ state.phase thread = .idle) :
    after.Token := by
  cases token with
  | free free idle none =>
    exact .free (busy.trans free) (fun thread => (phase thread).mpr (idle thread))
      (carries.eq_nil none)
  | held thread taken working others none =>
    refine .held thread (busy.trans taken) (fun idle => working ((phase thread).mp idle)) ?_
      (carries.eq_nil none)
    exact fun other differs => (phase other).mpr (others other differs)
  | moving entry taken idle one =>
    obtain ⟨entry', mem, _⟩ := carries.exists_after (one ▸ mem_singleton.mpr rfl)
    cases carries with
    | none none _ =>
      rw [none] at one
      cases one
    | one transfer status status' _ moved _ =>
      exact .moving _ (busy.trans taken) (fun thread => (phase thread).mpr (idle thread)) moved

end Carries

theorem Alike.log (same : Alike state after) (log : state.Log) (carries : Carries state after)
    (sent : after.sent = state.sent) (submitted : after.submitted = state.submitted)
    (finished : after.finished = state.finished) : after.Log where
  sorted := sent ▸ log.sorted
  sent_lt number mem := by
    rw [sent] at mem
    rw [same.next]
    refine (log.sent_lt number mem).imp id fun ⟨entry, mem, completed, report⟩ => ?_
    obtain ⟨entry', mem', eq, iff⟩ := carries.exists_after mem
    exact ⟨entry', mem', iff.mpr completed, eq ▸ report⟩
  unsent entry mem open' number mem' := by
    obtain ⟨entry', before, eq, iff⟩ := carries.exists_before mem
    rw [sent] at mem'
    exact eq ▸ log.unsent entry' before (fun completed => open' (iff.mpr completed)) number mem'
  sentBytes := by
    rw [sent, same.accepted]
    exact log.sentBytes
  order := submitted ▸ log.order
  submitted_le := by
    rw [submitted, same.next]
    exact log.submitted_le
  periods := by
    rw [submitted, same.accepted]
    exact log.periods
  kept := by
    rw [same.accepted, same.period, same.next, finished]
    exact log.kept

theorem Carries.cancelAll (token : state.Token) : Carries state state.cancelAll := by
  cases flight : state.flight with
  | nil =>
    refine .of_eq token ?_
    rw [transfers, transfers, State.cancelAll, flight]
    simp
  | cons transfer rest =>
    obtain ⟨rest, dones, called, one⟩ := token.flight flight
    refine .one transfer Option.none (some .Canceled) one ?_ ⟨(by rintro ⟨⟩), (by rintro ⟨⟩)⟩
    rw [transfers, State.cancelAll]
    simp [flight, rest, dones, called]

theorem Inv.alike (inv : state.Inv) (same : Alike state after) (carries : Carries state after)
    (busy : after.busy = state.busy) (phase : after.phase = state.phase)
    (transfer : after.transfer = state.transfer) (sent : after.sent = state.sent)
    (submitted : after.submitted = state.submitted) (finished : after.finished = state.finished)
    (closed : after.isOpen = false → after.flight = []) (plan : after.Plan after.jobs) :
    after.Inv where
  token := carries.token inv.token busy fun thread => by rw [phase]
  queue := same.queue inv.queue
  moves := by
    refine same.moves inv.moves transfer (fun thread submits => ⟨thread, phase ▸ submits⟩) ?_
      closed
    intro entry mem
    obtain ⟨entry', mem', eq, _⟩ := carries.exists_before mem
    exact ⟨entry', mem', eq⟩
  log := same.log inv.log carries sent submitted finished
  plan := plan

theorem Token.holds (token : state.Token) (working : state.phase thread ≠ .idle) :
    state.busy = true ∧ state.transfers = [] ∧
      ∀ other, other ≠ thread → state.phase other = .idle := by
  cases token with
  | free _ idle _ => exact absurd (idle thread) working
  | moving _ _ idle _ => exact absurd (idle thread) working
  | held holder taken _ others none =>
    have same : thread = holder := by
      by_contra differs
      exact working (others thread differs)
    subst same
    exact ⟨taken, none, others⟩

theorem move_phase (phase : Phase) : (state.move thread phase).phase thread = phase :=
  update_self ..

theorem move_phase_of_ne (phase : Phase) {other : Thread} (differs : other ≠ thread) :
    (state.move thread phase).phase other = state.phase other :=
  update_of_ne differs ..

theorem Carries.token_move (carries : Carries state after) (token : state.Token)
    (working : state.phase thread ≠ .idle) (busy : after.busy = state.busy)
    (still : after.phase thread ≠ .idle)
    (same : ∀ other, other ≠ thread → after.phase other = state.phase other) : after.Token := by
  obtain ⟨taken, none, others⟩ := token.holds working
  exact .held thread (busy.trans taken) still
    (fun other differs => (same other differs).trans (others other differs)) (carries.eq_nil none)

theorem Inv.takeHead (inv : state.Inv) (working : state.phase thread ≠ .idle) :
    (state.takeHead.move thread .submit).Inv := by
  obtain ⟨_, none, others⟩ := inv.token.holds working
  have same : Alike state (state.takeHead.move thread .submit) :=
    ⟨rfl, rfl, rfl, rfl, rfl, rfl, rfl, rfl⟩
  have carries : Carries state (state.takeHead.move thread .submit) := .none none none
  exact
    { token := carries.token_move inv.token working rfl (by rw [move_phase]; exact nofun)
        fun other differs => move_phase_of_ne _ differs
      queue := same.queue inv.queue
      moves :=
        { period_le := Nat.le_refl _
          taken := fun _ _ queued _ =>
            have waiting : 0 < state.count := of_decide_eq_true queued
            ⟨waiting, rfl, (inv.queue.first waiting).1, rfl⟩
          unchanged := inv.moves.unchanged
          atHead := inv.moves.atHead
          closed := inv.moves.closed }
      log := same.log inv.log carries rfl rfl rfl
      plan := inv.plan.mono rfl rfl rfl rfl (fun _ => id) (fun _ => id) }

theorem Inv.submit (inv : state.Inv) (submits : state.phase thread = .submit)
    (isOpen : state.isOpen = true) (queued : state.transfer.queued = true)
    (period : state.transfer.period = state.period) : (state.submit.move thread .idle).Inv := by
  have working : state.phase thread ≠ .idle := by
    rw [submits]
    rintro ⟨⟩
  obtain ⟨busy, none, others⟩ := inv.token.holds working
  obtain ⟨noFlight, noDone, noCall⟩ := transfers_eq_nil.mp none
  have atHead := inv.moves.taken thread submits queued period
  obtain ⟨number, report, found, ofPeriod, length, bytes⟩ := inv.queue.first atHead.1
  have one : (state.submit.move thread .idle).transfers = [(state.transfer, Option.none)] := by
    rw [transfers]
    simp [State.submit, State.move, noFlight, noDone, noCall]
  have same : Alike state (state.submit.move thread .idle) :=
    ⟨rfl, rfl, rfl, rfl, rfl, rfl, rfl, rfl⟩
  have active : state.active = true := by
    cases off : state.active with
    | true => rfl
    | false =>
      have waiting := atHead.1
      rw [inv.queue.off off] at waiting
      exact absurd waiting (Nat.lt_irrefl 0)
  exact
    { token := by
        refine .moving _ busy (fun other => ?_) one
        by_cases same : other = thread
        · rw [same, move_phase]
        · rw [move_phase_of_ne _ same]
          exact others other same
      queue := same.queue inv.queue
      moves :=
        { period_le := inv.moves.period_le
          taken := fun other submits' => by
            by_cases same : other = thread
            · rw [same, move_phase] at submits'
              cases submits'
            · rw [move_phase_of_ne _ same] at submits'
              have idle := (others other same).symm.trans submits'
              cases idle
          unchanged := fun entry mem => by
            rw [one, mem_singleton] at mem
            subst mem
            refine ⟨report, ?_, ?_⟩
            · rw [atHead.2.2.1]
              exact found
            · rw [atHead.2.1, atHead.2.2.2]
              exact bytes
          atHead := fun entry mem _ => by
            rw [one, mem_singleton] at mem
            subst mem
            exact atHead
          closed := fun closed => absurd (isOpen.symm.trans closed) (by rintro ⟨⟩) }
      log :=
        { sorted := inv.log.sorted
          sent_lt := fun number mem => by
            refine .inl ((inv.log.sent_lt number mem).resolve_right ?_)
            rintro ⟨entry, mem, _⟩
            rw [none] at mem
            cases mem
          unsent := fun entry mem _ number mem' => by
            rw [one, mem_singleton] at mem
            subst mem
            have lt : number < state.next := by
              refine (inv.log.sent_lt number mem').resolve_right ?_
              rintro ⟨entry, mem, _⟩
              rw [none] at mem
              cases mem
            exact Nat.lt_of_lt_of_eq lt atHead.2.2.1.symm
          sentBytes := inv.log.sentBytes
          order := by
            show ((state.submitted ++ [(state.transfer.report, state.period)]).map
              Prod.fst).Pairwise _
            rw [map_append, pairwise_append]
            refine ⟨inv.log.order, pairwise_singleton .., fun number mem other mem' => ?_⟩
            rw [map_singleton, mem_singleton] at mem'
            rw [mem', atHead.2.2.1]
            exact inv.log.submitted_le number mem
          submitted_le := fun number mem => by
            have mem : number ∈ (state.submitted ++
                [(state.transfer.report, state.period)]).map Prod.fst := mem
            rw [map_append, mem_append] at mem
            rcases mem with mem | mem
            · exact inv.log.submitted_le number mem
            · rw [map_singleton, mem_singleton] at mem
              rw [mem, atHead.2.2.1]
              exact Nat.le_refl _
          periods := fun entry mem => by
            rcases mem_append.mp mem with mem | mem
            · exact inv.log.periods entry mem
            · rw [mem_singleton] at mem
              subst mem
              refine ⟨report, ?_, ofPeriod⟩
              rw [atHead.2.2.1]
              exact found
          kept := inv.log.kept }
      plan := by
        refine inv.plan.mono rfl rfl rfl rfl ?_ ?_
        · rintro (off | closed)
          · exact absurd (active.symm.trans off) (by rintro ⟨⟩)
          · exact absurd (isOpen.symm.trans closed) (by rintro ⟨⟩)
        · rintro (off | closed)
          · exact absurd (active.symm.trans off) (by rintro ⟨⟩)
          · exact absurd (isOpen.symm.trans closed) (by rintro ⟨⟩) }

theorem Inv.submitHead (inv : state.Inv) (calm : state.Calm (.submitHead thread))
    (goes : state.submitHead thread = some after) : after.Inv := by
  rw [State.submitHead] at goes
  split at goes
  · cases goes
  · rename_i head
    cases goes
    exact inv.takeHead (by rw [head]; exact nofun)
  · rename_i submits
    split at goes
    · rename_i isOpen
      cases goes
      obtain ⟨queued, period⟩ := calm submits isOpen
      exact inv.submit submits isOpen queued period
    · cases goes
      have working : state.phase thread ≠ .idle := by
        rw [submits]
        exact nofun
      obtain ⟨_, none, others⟩ := inv.token.holds working
      have same : Alike state (state.move thread .failed) := ⟨rfl, rfl, rfl, rfl, rfl, rfl, rfl, rfl⟩
      exact
        { token := Carries.token_move (.none none none) inv.token working rfl
            (by rw [move_phase]; exact nofun) fun other differs => move_phase_of_ne _ differs
          queue := same.queue inv.queue
          moves := same.moves inv.moves rfl (fun _ _ => ⟨thread, submits⟩)
            (fun entry mem => ⟨entry, mem, rfl⟩) inv.moves.closed
          log := same.log inv.log (.none none none) rfl rfl rfl
          plan := inv.plan.mono rfl rfl rfl rfl (fun _ => id) (fun _ => id) }
  · rename_i failed
    cases goes
    have working : state.phase thread ≠ .idle := by
      rw [failed]
      exact nofun
    obtain ⟨_, none, others⟩ := inv.token.holds working
    have idle : ∀ other, (({ state with busy := false } : State).move thread .idle).phase other =
        .idle := by
      intro other
      by_cases same : other = thread
      · rw [same, move_phase]
      · rw [move_phase_of_ne _ same]
        exact others other same
    have same : Alike state (({ state with busy := false } : State).move thread .idle) :=
      ⟨rfl, rfl, rfl, rfl, rfl, rfl, rfl, rfl⟩
    exact
      { token := .free rfl idle none
        queue := same.queue inv.queue
        moves := same.moves inv.moves rfl
          (fun other submits => absurd ((idle other).symm.trans submits) nofun)
          (fun entry mem => ⟨entry, mem, rfl⟩) inv.moves.closed
        log := same.log inv.log (.none none none) rfl rfl rfl
        plan := inv.plan.mono rfl rfl rfl rfl (fun _ => id) (fun _ => id) }

/-- The queue and its history after the critical section of `send`. -/
structure Enqueued (before : State) (data : List UInt8) (after : State) : Prop where
  active : before.active = true
  room : before.count < kQueueReports
  slots : after.slots = Function.update before.slots before.index
    (data ++ (before.slots before.index).drop data.length)
  lengths : after.lengths = Function.update before.lengths before.index data.length
  numbers : after.numbers = Function.update before.numbers before.index before.accepted.length
  accepted : after.accepted = before.accepted ++ [⟨before.period, data⟩]
  count : after.count = before.count + 1
  head : after.head = before.head
  stillActive : after.active = before.active
  period : after.period = before.period

namespace Enqueued

variable {data : List UInt8}

theorem next (sent : Enqueued state data after)
    (queue : state.Queue) : after.next = state.next := by
  have le := queue.count_accepted
  rw [State.next, State.next, sent.accepted, sent.count, length_append, length_singleton]
  omega

theorem found (sent : Enqueued state data after) {number : ℕ} {report : Report}
    (found : state.accepted[number]? = some report) : after.accepted[number]? = some report := by
  rw [sent.accepted, List.getElem?_append_left (List.getElem?_eq_some_iff.mp found).1]
  exact found

theorem queue (sent : Enqueued state data after) (queue : state.Queue) : after.Queue where
  head_lt := sent.head ▸ queue.head_lt
  count_le := by
    rw [sent.count]
    exact sent.room
  count_accepted := by
    rw [sent.count, sent.accepted, length_append, length_singleton]
    exact Nat.succ_le_succ queue.count_accepted
  off off := absurd ((sent.stillActive.trans sent.active).symm.trans off) nofun
  old report mem := by
    rw [sent.period]
    rw [sent.accepted] at mem
    rcases mem_append.mp mem with old | new
    · exact queue.old report old
    · cases mem_singleton.mp new
      exact Nat.le_refl _
  slots i lt := by
    rw [sent.head, sent.next queue]
    rw [sent.count] at lt
    by_cases last : i = state.count
    · rw [last, next_add queue]
      refine ⟨?_, ⟨state.period, data⟩, ?_, sent.period.symm, ?_, ?_⟩
      · rw [sent.numbers]
        exact update_self ..
      · rw [sent.accepted]
        exact List.getElem?_concat_length
      · rw [sent.lengths]
        exact update_self ..
      · rw [sent.lengths, sent.slots]
        show List.take (Function.update state.lengths state.index data.length state.index)
          (Function.update state.slots state.index
            (data ++ (state.slots state.index).drop data.length) state.index) = data
        rw [update_self, update_self]
        exact take_left
    · have old : i < state.count := by omega
      have differs := index_ne queue sent.room old
      obtain ⟨number, report, found, period, length, bytes⟩ := queue.slots i old
      refine ⟨?_, report, sent.found found, period.trans sent.period.symm, ?_, ?_⟩
      · rw [sent.numbers, update_of_ne differs]
        exact number
      · rw [sent.lengths, update_of_ne differs]
        exact length
      · rw [sent.lengths, sent.slots, update_of_ne differs, update_of_ne differs]
        exact bytes

theorem atHead (sent : Enqueued state data after) (queue : state.Queue) {transfer : Transfer}
    (atHead : state.AtHead transfer) : after.AtHead transfer := by
  have differs := head_ne_index queue sent.room atHead.1
  refine ⟨?_, atHead.2.1.trans sent.head.symm, atHead.2.2.1.trans (sent.next queue).symm, ?_⟩
  · rw [sent.count]
    exact Nat.succ_pos _
  · rw [sent.head, sent.lengths, update_of_ne differs]
    exact atHead.2.2.2

theorem slot (sent : Enqueued state data after) (inv : state.Inv)
    {entry : Transfer × Option TransferStatus} (mem : entry ∈ state.transfers) :
    after.slots entry.1.slot = state.slots entry.1.slot := by
  have atHead := inv.moves.atHead entry mem sent.active
  rw [sent.slots, atHead.2.1,
    update_of_ne (head_ne_index inv.queue sent.room atHead.1)]

theorem inv (sent : Enqueued state data after) (inv : state.Inv) (token : after.Token)
    (transfers : after.transfers = state.transfers) (transfer : after.transfer = state.transfer)
    (phase : ∀ thread, after.phase thread = .submit → state.phase thread = .submit)
    (same : after.isOpen = state.isOpen ∧ after.flight = state.flight ∧
      after.configuration = state.configuration ∧ after.suspended = state.suspended ∧
      after.jobs = state.jobs)
    (logs : after.sent = state.sent ∧ after.submitted = state.submitted ∧
      after.finished = state.finished) : after.Inv where
  token := token
  queue := sent.queue inv.queue
  moves :=
    { period_le := by
        rw [transfer, sent.period]
        exact inv.moves.period_le
      taken := fun thread submits queued period => by
        rw [transfer] at queued period ⊢
        exact sent.atHead inv.queue
          (inv.moves.taken thread (phase thread submits) queued (period.trans sent.period))
      unchanged := fun entry mem => by
        rw [transfers] at mem
        obtain ⟨report, found, bytes⟩ := inv.moves.unchanged entry mem
        refine ⟨report, sent.found found, ?_⟩
        rw [sent.slot inv mem]
        exact bytes
      atHead := fun entry mem _ => by
        rw [transfers] at mem
        exact sent.atHead inv.queue (inv.moves.atHead entry mem sent.active)
      closed := by
        rw [same.1, same.2.1]
        exact inv.moves.closed }
  log :=
    { sorted := logs.1 ▸ inv.log.sorted
      sent_lt := by
        rw [logs.1, transfers, sent.next inv.queue]
        exact inv.log.sent_lt
      unsent := by
        rw [logs.1, transfers]
        exact inv.log.unsent
      sentBytes := fun entry mem => by
        rw [logs.1] at mem
        obtain ⟨report, found, bytes⟩ := inv.log.sentBytes entry mem
        exact ⟨report, sent.found found, bytes⟩
      order := logs.2.1 ▸ inv.log.order
      submitted_le := by
        rw [logs.2.1, sent.next inv.queue]
        exact inv.log.submitted_le
      periods := fun entry mem => by
        rw [logs.2.1] at mem
        obtain ⟨report, found, period⟩ := inv.log.periods entry mem
        exact ⟨report, sent.found found, period⟩
      kept := fun number report found period lt => by
        rw [sent.next inv.queue] at lt
        rw [logs.2.2]
        have old : number < state.accepted.length :=
          Nat.lt_of_lt_of_le lt (Nat.sub_le _ _)
        rw [sent.accepted, List.getElem?_append_left old] at found
        exact inv.log.kept number report found (period.trans sent.period) lt }
  plan := by
    rw [same.2.2.2.2]
    refine inv.plan.mono sent.stillActive same.1 same.2.2.1 same.2.2.2.1 ?_ ?_
    · rw [same.2.1]
      exact fun _ => id
    · rw [transfers]
      exact fun _ => id

end Enqueued

theorem enqueued {data : List UInt8} {idle : Bool}
    (goes : state.enqueue config data = .ok (after, idle)) (queue : state.Queue) :
    Enqueued state data after ∧ idle = !state.busy ∧
      after = { after with
        busy := true
        isOpen := state.isOpen
        flight := state.flight
        doneList := state.doneList
        phase := state.phase
        jobs := state.jobs
        configuration := state.configuration
        suspended := state.suspended
        transfer := state.transfer
        sent := state.sent
        submitted := state.submitted
        finished := state.finished } := by
  rw [State.enqueue] at goes
  split at goes
  · cases goes
  split at goes
  · cases goes
  split at goes
  · cases goes
  split at goes
  · cases goes
  · rename_i active notFull
    cases goes
    have active : state.active = true := not_not.mp active
    have room : state.count < kQueueReports := Nat.lt_of_le_of_ne queue.count_le notFull
    exact ⟨⟨active, room, rfl, rfl, rfl, rfl, rfl, rfl, rfl, rfl⟩, rfl, rfl⟩

theorem Inv.send (inv : state.Inv) {data : List UInt8}
    (goes : state.step config (.send thread data) = some after) : after.Inv := by
  rw [State.step] at goes
  split at goes
  swap
  · cases goes
  rename_i idle
  split at goes
  · cases goes
  rename_i next wasIdle accepts
  obtain ⟨sent, free, same⟩ := enqueued accepts inv.queue
  have transfers : next.transfers = state.transfers := by
    rw [same]
    rfl
  cases wasIdle with
  | false =>
    cases goes
    have busy : state.busy = true := by
      cases busy : state.busy with
      | true => rfl
      | false =>
        rw [busy] at free
        cases free
    refine sent.inv inv ?_ transfers (by rw [same]) (fun thread submits => ?_)
      (by rw [same]; exact ⟨rfl, rfl, rfl, rfl, rfl⟩) (by rw [same]; exact ⟨rfl, rfl, rfl⟩)
    · refine (Carries.of_eq inv.token transfers).token inv.token ?_ fun thread => ?_
      · rw [same, busy]
      · rw [same]
    · rw [same] at submits
      exact submits
  | true =>
    cases goes
    have free : state.busy = false := by
      cases busy : state.busy with
      | false => rfl
      | true =>
        rw [busy] at free
        cases free
    have phases : next.phase = state.phase := by rw [same]
    have idles : (∀ thread, state.phase thread = .idle) ∧ state.transfers = [] := by
      cases inv.token with
      | free _ idle none => exact ⟨idle, none⟩
      | held _ busy => exact absurd (free.symm.trans busy) nofun
      | moving _ busy => exact absurd (free.symm.trans busy) nofun
    have moved : Enqueued state data (next.move thread .head) :=
      ⟨sent.active, sent.room, sent.slots, sent.lengths, sent.numbers, sent.accepted, sent.count,
        sent.head, sent.stillActive, sent.period⟩
    refine moved.inv inv ?_ transfers (by rw [same]; rfl) (fun other submits => ?_)
      (by rw [same]; exact ⟨rfl, rfl, rfl, rfl, rfl⟩) (by rw [same]; exact ⟨rfl, rfl, rfl⟩)
    · refine .held thread ?_ ?_ (fun other differs => ?_) (transfers.trans idles.2)
      · show next.busy = true
        rw [same]
      · rw [move_phase]
        exact nofun
      · rw [move_phase_of_ne _ differs, phases]
        exact idles.1 other
    · by_cases same : other = thread
      · rw [same, move_phase] at submits
        cases submits
      · rw [move_phase_of_ne _ same, phases] at submits
        exact submits

theorem Inv.finish (inv : state.Inv) {status : TransferStatus}
    (goes : state.finish status = some after) : after.Inv := by
  rw [State.finish] at goes
  split at goes
  · cases goes
  rename_i transfer rest flight
  cases goes
  obtain ⟨rest, dones, called, one⟩ := inv.token.flight flight
  subst rest
  have entry : (transfer, Option.none) ∈ state.transfers := by
    rw [one]
    exact mem_singleton.mpr rfl
  obtain ⟨report, found, bytes⟩ := inv.moves.unchanged _ entry
  have fresh := inv.log.unsent _ entry (by rintro ⟨⟩)
  generalize result : ({ state with
      flight := []
      doneList := state.doneList ++ [(transfer, status)]
      sent :=
        if status = .Completed then
          state.sent ++ [(transfer.report, (state.slots transfer.slot).take transfer.length)]
        else state.sent } : State) = after
  have same : Alike state after := by
    subst result
    exact ⟨rfl, rfl, rfl, rfl, rfl, rfl, rfl, rfl⟩
  have moved : after.transfers = [(transfer, some status)] := by
    subst result
    rw [transfers, dones, called]
    rfl
  have sent : after.sent = if status = .Completed then
      state.sent ++ [(transfer.report, (state.slots transfer.slot).take transfer.length)]
      else state.sent := by
    subst result
    rfl
  have idle : ∀ thread, state.phase thread = .idle := by
    cases inv.token with
    | free _ idle _ => exact idle
    | moving _ _ idle _ => exact idle
    | held _ _ _ _ none =>
      rw [none] at one
      cases one
  have busy : state.busy = true := by
    cases inv.token with
    | free _ _ none =>
      rw [none] at one
      cases one
    | moving _ busy _ _ => exact busy
    | held _ busy _ _ _ => exact busy
  exact
    { token := by
        subst result
        exact .moving _ busy idle moved
      queue := same.queue inv.queue
      moves := by
        refine same.moves inv.moves (by subst result; rfl)
          (fun thread submits => ⟨thread, by subst result; exact submits⟩) (fun moving mem => ?_)
          (by subst result; exact fun _ => rfl)
        rw [moved, mem_singleton] at mem
        subst mem
        exact ⟨_, entry, rfl⟩
      log := by
        have older : ∀ number ∈ state.sent.map Prod.fst, number < state.next := by
          intro number mem
          refine (inv.log.sent_lt number mem).resolve_right ?_
          rintro ⟨entry, mem, completed, _⟩
          rw [one, mem_singleton] at mem
          subst mem
          cases completed
        by_cases completed : status = .Completed
        · rw [if_pos completed] at sent
          exact
            { sorted := by
                rw [sent, map_append, pairwise_append]
                refine ⟨inv.log.sorted, pairwise_singleton .., fun number mem other mem' => ?_⟩
                rw [map_singleton, mem_singleton] at mem'
                exact mem' ▸ fresh number mem
              sent_lt := fun number mem => by
                rw [sent, map_append, mem_append] at mem
                rcases mem with mem | mem
                · rw [same.next]
                  exact .inl (older number mem)
                · rw [map_singleton, mem_singleton] at mem
                  refine .inr ⟨(transfer, some status), ?_, congrArg some completed, mem.symm⟩
                  rw [moved]
                  exact mem_singleton.mpr rfl
              unsent := fun entry mem open' => by
                rw [moved, mem_singleton] at mem
                subst mem
                exact absurd (congrArg some completed) open'
              sentBytes := fun entry mem => by
                rw [sent] at mem
                rw [same.accepted]
                rcases mem_append.mp mem with mem | mem
                · exact inv.log.sentBytes entry mem
                · rw [mem_singleton.mp mem]
                  exact ⟨report, found, bytes.symm⟩
              order := by subst result; exact inv.log.order
              submitted_le := by subst result; exact inv.log.submitted_le
              periods := by subst result; exact inv.log.periods
              kept := by subst result; exact inv.log.kept }
        · rw [if_neg completed] at sent
          exact same.log inv.log
            (.one transfer Option.none (some status) one moved
              ⟨fun eq => absurd (Option.some.inj eq) completed, (by rintro ⟨⟩)⟩)
            sent (by subst result; rfl) (by subst result; rfl)
      plan := by
        subst result
        refine inv.plan.mono rfl rfl rfl rfl (fun _ _ => rfl) fun _ none => ?_
        rw [none] at one
        cases one }

end State

end EspDevkit.Usb.Hid
