import EspDevkit.Usb.HidSteps

/-!
# The device task and the report queue

The device task cancels and completes the transfers of a period before the next
one begins.
-/

namespace EspDevkit.Usb.Hid

namespace State

variable {state after : State} {jobs : List Job}

theorem Inv.done (inv : state.Inv) {transfer : Transfer} {status : TransferStatus}
    (doing : state.jobs = .done transfer status :: jobs) :
    (({ (state.done transfer status).1 with jobs := jobs } : State).move .device
      (if (state.done transfer status).2 then .head else .idle)).Inv := by
  obtain ⟨noFlight, noDone, noCall, one⟩ := inv.token.called doing
  have entry : (transfer, some status) ∈ state.transfers := by
    rw [one]
    exact List.mem_singleton.mpr rfl
  have idle : ∀ thread, state.phase thread = .idle := by
    cases inv.token with
    | free _ idle _ => exact idle
    | moving _ _ idle _ => exact idle
    | held _ _ _ _ none =>
      rw [none] at one
      cases one
  have plan : state.Plan jobs := by
    have plan := inv.plan
    rw [doing] at plan
    cases plan with
    | done _ _ plan => exact plan
  have reported := inv.moves.report entry
  have atHead := inv.moves.atHead _ entry
  generalize result : ({ (state.done transfer status).1 with jobs := jobs } : State).move .device
      (if (state.done transfer status).2 then .head else .idle) = after
  have none : after.transfers = [] := by
    subst result
    rw [transfers_eq_nil]
    exact ⟨noFlight, noDone, noCall⟩
  have accepted : after.accepted = state.accepted := by
    subst result
    rfl
  -- The head moves on, or the queue stays as it is.
  have queue : (status ≠ .Canceled ∧ 0 < state.count ∧ after.count = state.count - 1 ∧
      after.head = (state.head + 1) % kQueueReports) ∨
      ((status = .Canceled ∨ state.count = 0) ∧ after.count = state.count ∧
        after.head = state.head) := by
    subst result
    by_cases passes : status ≠ .Canceled ∧ 0 < state.count
    · exact .inl ⟨passes.1, passes.2, if_pos passes, if_pos passes⟩
    · refine .inr ⟨?_, if_neg passes, if_neg passes⟩
      by_cases canceled : status = .Canceled
      · exact .inl canceled
      · exact .inr (Nat.eq_zero_of_not_pos fun waiting => passes ⟨canceled, waiting⟩)
  have active : after.active = state.active := by
    subst result
    rfl
  have lengths : after.lengths = state.lengths ∧ after.slots = state.slots ∧
      after.numbers = state.numbers ∧ after.period = state.period := by
    subst result
    exact ⟨rfl, rfl, rfl, rfl⟩
  have le := inv.queue.count_accepted
  have next : state.next ≤ after.next := by
    rw [State.next, State.next, accepted]
    omega
  exact
    { token := by
        subst result
        cases more : (state.done transfer status).2 with
        | false =>
          refine .free more (fun thread => ?_) none
          by_cases same : thread = .device
          · rw [same, move_phase]
            rfl
          · rw [move_phase_of_ne _ same]
            exact idle thread
        | true =>
          refine .held .device more ?_ (fun thread differs => ?_) none
          · rw [move_phase]
            rintro ⟨⟩
          · rw [move_phase_of_ne _ differs]
            exact idle thread
      queue :=
        { head_lt := by
            rcases queue with ⟨_, _, _, head⟩ | ⟨_, _, head⟩
            · rw [head]
              exact Nat.mod_lt _ (by decide)
            · exact head ▸ inv.queue.head_lt
          count_le := by
            have bound := inv.queue.count_le
            omega
          count_accepted := by
            rw [accepted]
            omega
          off := fun off => by
            have none := inv.queue.off (active ▸ off)
            omega
          old := by
            rw [accepted, lengths.2.2.2]
            exact inv.queue.old
          slots := fun i lt => by
            simp only [Holds, lengths.1, lengths.2.1, lengths.2.2.1, lengths.2.2.2, accepted]
            rcases queue with ⟨_, _, count, head⟩ | ⟨_, count, head⟩
            · have holds := inv.queue.slots (i + 1) (by omega)
              have place : (after.head + i) % kQueueReports =
                  (state.head + (i + 1)) % kQueueReports := by
                rw [head, Nat.mod_add_mod, Nat.add_assoc, Nat.add_comm 1 i]
              have number : after.next + i = state.next + (i + 1) := by
                rw [State.next, State.next, accepted]
                omega
              rw [place, number]
              exact holds
            · have same : after.next = state.next := by
                rw [State.next, State.next, accepted, count]
              rw [head, same]
              exact inv.queue.slots i (count ▸ lt) }
      moves :=
        { period_le := by
            rw [lengths.2.2.2]
            subst result
            exact inv.moves.period_le
          taken := fun thread submits => by
            subst result
            by_cases same : thread = .device
            · rw [same, move_phase] at submits
              split at submits <;> cases submits
            · rw [move_phase_of_ne _ same] at submits
              have rests := (idle thread).symm.trans submits
              cases rests
          unchanged := by
            rw [none]
            exact List.forall_mem_nil _
          atHead := by
            rw [none]
            exact List.forall_mem_nil _
          closed := by
            subst result
            exact fun _ => noFlight }
      log :=
        { sorted := by
            subst result
            exact inv.log.sorted
          sent_lt := fun number mem => by
            have mem : number ∈ state.sent.map Prod.fst := by
              subst result
              exact mem
            left
            rcases inv.log.sent_lt number mem with lt | ⟨entry, moving, completed, rfl⟩
            · exact Nat.lt_of_lt_of_le lt next
            · rw [one, List.mem_singleton] at moving
              subst moving
              have completed : status = .Completed := Option.some.inj completed
              rcases queue with ⟨_, waiting, count, _⟩ | ⟨canceled | empty, count, _⟩
              · have active : state.active = true := by
                  cases off : state.active with
                  | true => rfl
                  | false =>
                    have none := inv.queue.off off
                    omega
                rw [(atHead active).2.2.1, State.next, State.next, accepted]
                omega
              · rw [completed] at canceled
                cases canceled
              · rw [State.next, accepted, count, empty]
                exact reported
          unsent := by
            rw [none]
            exact List.forall_mem_nil _
          sentBytes := by
            subst result
            exact inv.log.sentBytes
          order := by
            subst result
            exact inv.log.order
          submitted_le := fun number mem => by
            have mem : number ∈ state.submitted.map Prod.fst := by
              subst result
              exact mem
            exact Nat.le_trans (inv.log.submitted_le number mem) next
          periods := by
            subst result
            exact inv.log.periods
          kept := fun number report found period lt => by
            have finished : after.finished = state.finished ++ [(transfer.report, status)] := by
              subst result
              rfl
            rw [accepted] at found
            rw [lengths.2.2.2] at period
            by_cases old : number < state.next
            · obtain ⟨status', mem, differs⟩ := inv.log.kept number report found period old
              exact ⟨status', finished ▸ List.mem_append_left _ mem, differs⟩
            · rcases queue with ⟨differs, waiting, count, _⟩ | ⟨_, count, _⟩
              · have active : state.active = true := by
                  cases off : state.active with
                  | true => rfl
                  | false =>
                    have none := inv.queue.off off
                    omega
                have this : number = transfer.report := by
                  rw [(atHead active).2.2.1]
                  rw [State.next] at old lt ⊢
                  rw [accepted] at lt
                  omega
                refine ⟨status, ?_, differs⟩
                rw [finished, this]
                exact List.mem_append_right _ (List.mem_singleton.mpr rfl)
              · rw [State.next, accepted, count] at lt
                exact absurd lt old }
      plan := by
        subst result
        refine plan.mono rfl rfl rfl rfl (fun _ _ => noFlight) fun _ _ => none }

theorem Inv.setActive (inv : state.Inv) {active : Bool}
    (doing : state.jobs = .setActive active :: jobs)
    (quiet : active = true → state.transfers = [])
    (plan : ({ state.setActive active with jobs := jobs } : State).Plan jobs) :
    ({ state.setActive active with jobs := jobs } : State).Inv := by
  have called : state.jobs.filterMap Job.called = jobs.filterMap Job.called := by
    rw [doing]
    rfl
  have transfers : ({ state.setActive active with jobs := jobs } : State).transfers =
      state.transfers := by
    rw [State.transfers, State.transfers, called]
    rfl
  have carries := Carries.of_eq inv.token transfers
  have next : ({ state.setActive active with jobs := jobs } : State).next =
      state.accepted.length := rfl
  exact
    { token := carries.token inv.token rfl fun _ => Iff.rfl
      queue :=
        { head_lt := inv.queue.head_lt
          count_le := Nat.zero_le _
          count_accepted := Nat.zero_le _
          off := fun _ => rfl
          old := fun report mem => Nat.le_succ_of_le (inv.queue.old report mem)
          slots := fun i lt => absurd lt (Nat.not_lt_zero i) }
      moves :=
        { period_le := Nat.le_succ_of_le inv.moves.period_le
          taken := fun thread _ _ period => by
            have le := inv.moves.period_le
            have eq : state.transfer.period = state.period + 1 := period
            omega
          unchanged := by
            rw [transfers]
            exact inv.moves.unchanged
          atHead := fun entry mem on => by
            rw [transfers, quiet on] at mem
            cases mem
          closed := inv.moves.closed }
      log :=
        { sorted := inv.log.sorted
          sent_lt := fun number mem => by
            left
            rw [next]
            rcases inv.log.sent_lt number mem with lt | ⟨entry, moving, _, rfl⟩
            · exact Nat.lt_of_lt_of_le lt (Nat.sub_le _ _)
            · exact inv.moves.report moving
          unsent := by
            rw [transfers]
            exact inv.log.unsent
          sentBytes := inv.log.sentBytes
          order := inv.log.order
          submitted_le := fun number mem =>
            Nat.le_trans (inv.log.submitted_le number mem) (Nat.sub_le _ _)
          periods := inv.log.periods
          kept := fun number report found period _ => by
            have le := inv.queue.old report (List.mem_of_getElem? found)
            have eq : report.period = state.period + 1 := period
            omega }
      plan := plan }

theorem Inv.proceed (inv : state.Inv) (same : Alike state after)
    (transfers : after.flight = state.flight ∧ after.doneList = state.doneList)
    (called : after.jobs.filterMap Job.called = state.jobs.filterMap Job.called)
    (rest : after.busy = state.busy ∧ after.phase = state.phase ∧
      after.transfer = state.transfer ∧ after.sent = state.sent ∧
      after.submitted = state.submitted ∧ after.finished = state.finished)
    (isOpen : after.isOpen = false → state.isOpen = false)
    (plan : after.transfers = state.transfers → after.Plan after.jobs) : after.Inv := by
  have eq : after.transfers = state.transfers := by
    rw [State.transfers, State.transfers, transfers.1, transfers.2, called]
  refine inv.alike same (.of_eq inv.token eq) rest.1 rest.2.1 rest.2.2.1 rest.2.2.2.1
    rest.2.2.2.2.1 rest.2.2.2.2.2 (fun closed => ?_) (plan eq)
  rw [transfers.1]
  exact inv.moves.closed (isOpen closed)

theorem Conf.of_same (conf : state.Conf) (configuration : after.configuration = state.configuration)
    (active : after.active = state.active) (suspended : after.suspended = state.suspended) :
    after.Conf where
  unconfigured off := by
    rw [active, suspended]
    exact conf.unconfigured (configuration ▸ off)
  suspended on := by
    rw [active]
    exact conf.suspended (suspended ▸ on)

theorem settled_of_eq (settled : state.Settled) (active : after.active = state.active)
    (transfers : after.transfers = state.transfers) : after.Settled := fun off =>
  transfers.trans (settled (active ▸ off))

theorem Plan.rest (rest : Rest) (active : state.active = false) (none : state.transfers = [])
    (suspended : state.suspended = false) : state.Plan rest.jobs := by
  cases rest with
  | stop =>
    refine .complete (fun _ => (transfers_eq_nil.mp none).1) ⟨fun _ => ⟨active, suspended⟩, ?_⟩
    exact fun on => absurd (suspended.symm.trans on) nofun
  | go => exact .opens active none suspended

theorem Rest.called (rest : Rest) : rest.jobs.filterMap Job.called = [] := by
  cases rest <;> rfl

theorem Inv.take (inv : state.Inv) (doing : state.jobs = .complete :: jobs)
    {entry : Transfer × TransferStatus} {rest : List (Transfer × TransferStatus)}
    (dones : state.doneList = entry :: rest) :
    ({ state with doneList := rest, jobs := .done entry.1 entry.2 :: .complete :: jobs } :
      State).Inv := by
  obtain ⟨noFlight, rest, noCall, one⟩ := inv.token.doneList dones
  subst rest
  have called : jobs.filterMap Job.called = [] := by
    rw [doing] at noCall
    exact noCall
  have plan := inv.plan
  generalize result : ({ state with
    doneList := [], jobs := .done entry.1 entry.2 :: .complete :: jobs } : State) = after
  have moved : after.transfers = [(entry.1, some entry.2)] := by
    subst result
    rw [transfers, noFlight]
    show [(entry.1, some entry.2)] ++ jobs.filterMap Job.called = _
    rw [called]
    rfl
  have carries : Carries state after := .one entry.1 _ _ one moved Iff.rfl
  refine inv.alike (by subst result; exact ⟨rfl, rfl, rfl, rfl, rfl, rfl, rfl, rfl⟩) carries
    (by subst result; rfl) (by subst result; rfl) (by subst result; rfl) (by subst result; rfl)
    (by subst result; rfl) (by subst result; rfl) (by subst result; exact fun _ => noFlight) ?_
  rw [doing] at plan
  subst result
  exact .done entry.1 entry.2
    (plan.mono rfl rfl rfl rfl (fun _ => id) fun _ none => by
      rw [none] at one
      cases one)

theorem Inv.cancel (inv : state.Inv) {job : Job} (doing : state.jobs = job :: jobs)
    (silent : job.called = none) (isOpen : Bool)
    (plan : Carries state { state.cancelAll with isOpen := isOpen, jobs := jobs } →
      ({ state.cancelAll with isOpen := isOpen, jobs := jobs } : State).Plan jobs) :
    ({ state.cancelAll with isOpen := isOpen, jobs := jobs } : State).Inv := by
  have called : state.jobs.filterMap Job.called = jobs.filterMap Job.called := by
    rw [doing, List.filterMap_cons, silent]
  have same : ({ state.cancelAll with isOpen := isOpen, jobs := jobs } : State).transfers =
      state.cancelAll.transfers := by
    rw [transfers, transfers]
    exact congrArg _ called.symm
  have carries : Carries state { state.cancelAll with isOpen := isOpen, jobs := jobs } := by
    cases Carries.cancelAll inv.token with
    | none before after => exact .none before (same.trans after)
    | one transfer status status' before after iff =>
      exact .one transfer status status' before (same.trans after) iff
  exact inv.alike ⟨rfl, rfl, rfl, rfl, rfl, rfl, rfl, rfl⟩ carries rfl rfl rfl rfl rfl rfl
    (fun _ => rfl) (plan carries)

theorem Inv.work (inv : state.Inv) (goes : state.work = some after) : after.Inv := by
  have idle : state.phase .device = .idle := by
    by_contra working
    rw [State.work] at goes
    split at goes <;> first | (rename_i idle _; exact working idle) | cases goes
  have plan := inv.plan
  have alike : ∀ jobs configuration suspended isOpen, Alike state
      { state with
        jobs := jobs, configuration := configuration, suspended := suspended, isOpen := isOpen } :=
    fun _ _ _ _ => ⟨rfl, rfl, rfl, rfl, rfl, rfl, rfl, rfl⟩
  generalize doing : state.jobs = jobs at plan
  simp only [State.work, idle, doing] at goes
  cases plan with
  | idle settled conf => cases goes
  | complete flight conf =>
    dsimp only at goes
    split at goes
    · rename_i dones
      cases goes
      refine inv.proceed (alike _ _ _ _) ⟨rfl, rfl⟩ (by rw [doing]; rfl)
        ⟨rfl, rfl, rfl, rfl, rfl, rfl⟩ id fun same => ?_
      refine .idle (fun off => ?_) (conf.of_same rfl rfl rfl)
      rw [transfers_eq_nil]
      exact ⟨flight off, dones, rfl⟩
    · rename_i transfer status rest dones
      cases goes
      exact inv.take doing dones
  | done transfer status plan =>
    simp only [Option.some.injEq] at goes
    subst goes
    exact inv.done doing
  | unconfigure rest settled conf =>
    cases goes
    split
    · refine inv.proceed (alike _ _ _ _) ⟨rfl, rfl⟩ (by rw [doing]; rfl)
        ⟨rfl, rfl, rfl, rfl, rfl, rfl⟩ id fun same => ?_
      exact .close rest rfl
    · rename_i unconfigured
      obtain ⟨active, suspended⟩ := conf.unconfigured (Bool.eq_false_iff.mpr unconfigured)
      refine inv.proceed (alike _ _ _ _) ⟨rfl, rfl⟩ (by rw [doing]; rfl)
        ⟨rfl, rfl, rfl, rfl, rfl, rfl⟩ id fun same => ?_
      exact .rest rest active (same.trans (settled active)) suspended
  | close rest suspended =>
    cases goes
    exact inv.cancel doing rfl false fun _ => .drain rest rfl suspended
  | drain rest isOpen suspended =>
    dsimp only at goes
    split at goes
    · rename_i dones
      cases goes
      refine inv.proceed (alike _ _ _ _) ⟨rfl, rfl⟩ (by rw [doing]; rfl)
        ⟨rfl, rfl, rfl, rfl, rfl, rfl⟩ id fun same => ?_
      refine .deactivate rest isOpen ?_ suspended
      rw [transfers_eq_nil]
      exact ⟨inv.moves.closed isOpen, dones, rest.called⟩
    · rename_i transfer status rest' dones
      cases goes
      exact inv.take doing dones
  | deactivate rest isOpen none suspended =>
    cases goes
    refine inv.setActive doing nofun (.flush rest isOpen rfl ?_ suspended)
    rw [transfers_eq_nil] at none ⊢
    exact ⟨none.1, none.2.1, rest.called⟩
  | flush rest isOpen active none suspended =>
    cases goes
    rw [if_neg (by rw [isOpen]; exact Bool.false_ne_true)]
    refine inv.proceed (alike _ _ _ _) ⟨rfl, rfl⟩ (by rw [doing]; rfl)
      ⟨rfl, rfl, rfl, rfl, rfl, rfl⟩ id fun same => ?_
    exact .unconfigured rest active (same.trans none) suspended
  | unconfigured rest active none suspended =>
    cases goes
    refine inv.proceed (alike _ _ _ _) ⟨rfl, rfl⟩ (by rw [doing]; rfl)
      ⟨rfl, rfl, rfl, rfl, rfl, rfl⟩ id fun same => ?_
    exact .rest rest active (same.trans none) suspended
  | opens active none suspended =>
    cases goes
    refine inv.proceed (alike _ _ _ _) ⟨rfl, rfl⟩ (by rw [doing]; rfl)
      ⟨rfl, rfl, rfl, rfl, rfl, rfl⟩ nofun fun same => ?_
    exact .configured active (same.trans none) suspended
  | configured active none suspended =>
    cases goes
    refine inv.proceed (alike _ _ _ _) ⟨rfl, rfl⟩ (by rw [doing]; rfl)
      ⟨rfl, rfl, rfl, rfl, rfl, rfl⟩ id fun same => ?_
    exact .activate active (same.trans none) suspended rfl
  | activate active none suspended configuration =>
    cases goes
    refine inv.setActive doing (fun _ => none) (.complete nofun ⟨fun off => ?_, fun on => ?_⟩)
    · exact absurd (configuration.symm.trans off) nofun
    · exact absurd (suspended.symm.trans on) nofun
  | suspend settled conf =>
    cases goes
    split
    · refine inv.proceed (alike _ _ _ _) ⟨rfl, rfl⟩ (by rw [doing]; rfl)
        ⟨rfl, rfl, rfl, rfl, rfl, rfl⟩ id fun same => ?_
      refine .complete (fun off => ?_) (conf.of_same rfl rfl rfl)
      exact (transfers_eq_nil.mp (settled off)).1
    · rename_i configured
      have configured : state.configuration = true := by
        by_contra off
        exact configured (.inl off)
      refine inv.proceed (alike _ _ _ _) ⟨rfl, rfl⟩ (by rw [doing]; rfl)
        ⟨rfl, rfl, rfl, rfl, rfl, rfl⟩ id fun same => ?_
      exact .suspending configured
  | suspending configuration =>
    cases goes
    exact inv.setActive doing nofun (.flushing configuration rfl)
  | flushing configuration active =>
    cases goes
    have conf : ∀ after : State, after.configuration = state.configuration →
        after.active = state.active → after.Conf := fun after sameConfiguration sameActive =>
      ⟨fun off => absurd ((sameConfiguration.trans configuration).symm.trans off) nofun,
        fun _ => sameActive.trans active⟩
    split
    · exact inv.cancel doing rfl state.isOpen fun _ => .complete (fun _ => rfl) (conf _ rfl rfl)
    · rename_i closed
      refine inv.proceed (alike _ _ _ _) ⟨rfl, rfl⟩ (by rw [doing]; rfl)
        ⟨rfl, rfl, rfl, rfl, rfl, rfl⟩ id fun same => ?_
      exact .complete (fun _ => inv.moves.closed (Bool.eq_false_iff.mpr closed)) (conf _ rfl rfl)
  | resume settled conf =>
    cases goes
    split
    · rename_i suspended
      have active := conf.suspended suspended
      refine inv.proceed (alike _ _ _ _) ⟨rfl, rfl⟩ (by rw [doing]; rfl)
        ⟨rfl, rfl, rfl, rfl, rfl, rfl⟩ id fun same => ?_
      refine .activate active (same.trans (settled active)) rfl ?_
      show state.configuration = true
      by_contra off
      have awake := (conf.unconfigured (Bool.eq_false_iff.mpr off)).2
      exact absurd (suspended.symm.trans awake) nofun
    · refine inv.proceed (alike _ _ _ _) ⟨rfl, rfl⟩ (by rw [doing]; rfl)
        ⟨rfl, rfl, rfl, rfl, rfl, rfl⟩ id fun same => ?_
      refine .complete (fun off => ?_) (conf.of_same rfl rfl rfl)
      exact (transfers_eq_nil.mp (settled off)).1
  | reopen settled conf =>
    cases goes
    refine inv.cancel doing rfl false fun carries => ?_
    exact .reopened (fun off => carries.eq_nil (settled off)) (conf.of_same rfl rfl rfl)
  | reopened settled conf =>
    cases goes
    refine inv.proceed (alike _ _ _ _) ⟨rfl, rfl⟩ (by rw [doing]; rfl)
      ⟨rfl, rfl, rfl, rfl, rfl, rfl⟩ nofun fun same => ?_
    refine .complete (fun off => ?_) (conf.of_same rfl rfl rfl)
    exact (transfers_eq_nil.mp (settled off)).1

theorem Inv.handle (inv : state.Inv) {event : Event} (rests : state.jobs = []) :
    ({ state with jobs := event.jobs } : State).Inv := by
  have plan := inv.plan
  rw [rests] at plan
  cases plan with
  | idle settled conf =>
    have called : event.jobs.filterMap Job.called = [] := by
      cases event with
      | setConfiguration value => cases value <;> rfl
      | _ => rfl
    refine inv.proceed ⟨rfl, rfl, rfl, rfl, rfl, rfl, rfl, rfl⟩ ⟨rfl, rfl⟩
      (by rw [rests]; exact called) ⟨rfl, rfl, rfl, rfl, rfl, rfl⟩ id fun same => ?_
    have settled : ({ state with jobs := event.jobs } : State).Settled :=
      settled_of_eq settled rfl same
    have conf' : ({ state with jobs := event.jobs } : State).Conf := conf.of_same rfl rfl rfl
    cases event with
    | reset => exact .unconfigure .stop settled conf'
    | setConfiguration value =>
      cases value with
      | false => exact .unconfigure .stop settled conf'
      | true => exact .unconfigure .go settled conf'
    | setInterface => exact .reopen settled conf'
    | suspend => exact .suspend settled conf'
    | resume => exact .resume settled conf'
    | other => exact .complete (fun off => (transfers_eq_nil.mp (settled off)).1) conf'

end State

end EspDevkit.Usb.Hid
