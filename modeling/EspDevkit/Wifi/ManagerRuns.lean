import EspDevkit.Wifi.ConnectAttempts

/-!
# Runs of the Wi-Fi manager

Whatever the interleaving, no callback is called twice and no scan callback is
lost.
-/

namespace EspDevkit.Wifi

open OneShot Transition List Option

namespace Manager

variable {permits : Shared → Job → Prop} {before after manager : Manager}

def connects (manager : Manager) : Ledger Thread :=
  manager.shared.connectAccount.ledger Job.connectCall manager.jobs

def scans (manager : Manager) : Ledger Thread :=
  manager.shared.scanAccount.ledger Job.scanCall manager.jobs

def pending (manager : Manager) (thread : Thread) : List (ℕ × Result) :=
  (manager.jobs thread).filterMap Job.connectCall

theorem Step.cases (step : Step permits before after) :
    (∃ thread new queue, after =
        before.take thread { before.shared with queue := queue } new (before.jobs thread) ∧
        new.filterMap Job.connectCall = [] ∧ new.filterMap Job.scanCall = []) ∨
      ∃ thread answer job rest, before.jobs thread = job :: rest ∧ permits before.shared job ∧
        after = before.take thread (job.perform before.shared answer).1
          (job.perform before.shared answer).2 rest := by
  cases step with
  | call thread job callable free =>
    refine .inl ⟨thread, [job], before.shared.queue, rfl, ?_⟩
    cases job <;> first | exact ⟨rfl, rfl⟩ | cases callable
  | report task job reportable idle =>
    refine .inl ⟨.task task, [job], before.shared.queue, by rw [idle], ?_⟩
    cases job <;> first | exact ⟨rfl, rfl⟩ | cases reportable
  | receive item queue idle items =>
    refine .inl ⟨.worker, item.jobs, queue, by rw [idle], ?_⟩
    obtain ⟨op, timeoutMs, done⟩ := item
    cases op <;> exact ⟨rfl, rfl⟩
  | perform thread answer job rest head permitted =>
    exact .inr ⟨thread, answer, job, rest, head, permitted, rfl⟩

variable {thread other : Thread} {shared : Shared} {job : Job} {new rest : List Job}

@[simp]
theorem take_shared (jobs : List Job) :
    (manager.take thread shared new jobs).shared = shared := rfl

theorem take_jobs_self (jobs : List Job) :
    (manager.take thread shared new jobs).jobs thread = new ++ jobs :=
  Function.update_self ..

theorem take_jobs_ne (jobs : List Job) (differs : other ≠ thread) :
    (manager.take thread shared new jobs).jobs other = manager.jobs other :=
  Function.update_of_ne differs ..

theorem connects_enter (queue : List WorkItem) (noConnect : new.filterMap Job.connectCall = []) :
    (manager.take thread { manager.shared with queue := queue } new
      (manager.jobs thread)).connects = manager.connects :=
  manager.shared.connectAccount.ledger_enter noConnect

theorem scans_enter (queue : List WorkItem) (noScan : new.filterMap Job.scanCall = []) :
    (manager.take thread { manager.shared with queue := queue } new
      (manager.jobs thread)).scans = manager.scans :=
  manager.shared.scanAccount.ledger_enter noScan

structure Inv (manager : Manager) : Prop where
  slot : manager.shared.Slot
  connects : manager.connects.Once
  scans : manager.scans.Once
  scansKept : manager.scans.Kept
  attempts : manager.shared.attemptLedger.Once
  attemptsKept : manager.shared.attemptLedger.Kept
  due : ∀ thread, ∀ call ∈ manager.pending thread, manager.shared.Due call
  dueCalled : ∀ call ∈ manager.shared.called, manager.shared.Due call

namespace Inv

theorem fresh (stored : Option Credentials) : (fresh stored).Inv where
  slot := ⟨rfl, fun _ => rfl⟩
  connects := .empty
  scans := .empty
  scansKept _ lt := absurd lt (Nat.not_lt_zero _)
  attempts := .empty
  attemptsKept _ lt := absurd lt (Nat.not_lt_zero _)
  due _ _ mem := nomatch mem
  dueCalled _ mem := nomatch mem

theorem pending_take (head : manager.jobs thread = job :: rest) {call : ℕ × Result}
    (mem : call ∈ (manager.take thread shared new rest).pending other) :
    call ∈ new.filterMap Job.connectCall ∨ call ∈ manager.pending other := by
  by_cases same : other = thread
  · subst same
    rw [pending, take_jobs_self, filterMap_append] at mem
    refine (mem_append.mp mem).imp id fun mem => ?_
    rw [pending, head]
    obtain ⟨job', mem, calls⟩ := mem_filterMap.mp mem
    exact mem_filterMap.mpr ⟨job', mem_cons_of_mem _ mem, calls⟩
  · rw [pending, take_jobs_ne _ same] at mem
    exact .inr mem

theorem mem_pending (head : manager.jobs thread = job :: rest) {call : ℕ × Result}
    (own : job.connectCall = some call) : call ∈ manager.pending thread := by
  rw [pending, head]
  exact mem_filterMap.mpr ⟨job, mem_cons_self .., own⟩

theorem enter (inv : manager.Inv) (queue : List WorkItem)
    (noConnect : new.filterMap Job.connectCall = []) (noScan : new.filterMap Job.scanCall = []) :
    (manager.take thread { manager.shared with queue := queue } new
      (manager.jobs thread)).Inv where
  slot := ⟨inv.slot.connecting, inv.slot.off⟩
  connects := by
    rw [connects_enter queue noConnect]
    exact inv.connects
  scans := by
    rw [scans_enter queue noScan]
    exact inv.scans
  scansKept := by
    rw [scans_enter queue noScan]
    exact inv.scansKept
  attempts := inv.attempts
  attemptsKept := inv.attemptsKept
  due other call mem := by
    refine inv.due other call ?_
    by_cases same : other = thread
    · subst same
      rw [pending, take_jobs_self, filterMap_append, noConnect] at mem
      exact mem
    · rw [pending, take_jobs_ne _ same] at mem
      exact mem
  dueCalled := inv.dueCalled

theorem attempts_perform (inv : manager.Inv) (answer : Answer) (job : Job) :
    (job.perform manager.shared answer).1.attemptLedger.Once ∧
      (job.perform manager.shared answer).1.attemptLedger.Kept := by
  have ends : ∀ cause : Cause, (manager.shared.ended ++
      manager.shared.connectCallback.toList.map fun attempt => (attempt, cause)).map Prod.fst =
        manager.shared.ended.map Prod.fst ++ manager.shared.connectCallback.toList := by
    intro cause
    cases manager.shared.connectCallback <;> simp
  rcases job.attempt_effect inv.slot answer with
    ⟨attempts, held, ended, _, _⟩ | ⟨cause, _, ended, attempts, held, _, _⟩ |
    ⟨cause, _, ended, attempts, held, _, _⟩ | ⟨attempts, held, ended, _, _⟩
  · rw [Shared.attemptLedger, attempts, held, ended]
    exact ⟨inv.attempts, inv.attemptsKept⟩
  · rw [Shared.attemptLedger, attempts, held, ended, ends, ← Ledger.closed_take_call]
    exact ⟨(inv.attempts.take ()).call (), (inv.attemptsKept.take ()).call ()⟩
  · rw [Shared.attemptLedger, attempts, held, ended, ends, ← Ledger.closed_issue_call]
    exact ⟨(inv.attempts.issue ()).call (), (inv.attemptsKept.issue ()).call ()⟩
  · have refused : (job.perform manager.shared answer).1.attemptLedger =
        manager.shared.attemptLedger.refuse := by
      rw [Shared.attemptLedger, attempts, held, ended, map_append]
      rfl
    rw [refused]
    exact ⟨inv.attempts.refuse, inv.attemptsKept.refuse⟩

theorem due_perform (inv : manager.Inv) (answer : Answer)
    (head : manager.jobs thread = job :: rest) :
    (∀ entry ∈ manager.shared.ended, entry ∈ (job.perform manager.shared answer).1.ended) ∧
      (∀ call ∈ (job.perform manager.shared answer).2.filterMap Job.connectCall,
        (job.perform manager.shared answer).1.Due call) ∧
      ∀ call ∈ (job.perform manager.shared answer).1.called,
        (job.perform manager.shared answer).1.Due call := by
  have closes : ∀ {after : Shared} {cause : Cause}, manager.shared.Closes after cause →
      (∀ entry ∈ manager.shared.ended, entry ∈ after.ended) ∧
        ∀ call ∈ manager.shared.connectCallback.toList.map fun attempt => (attempt, cause.result),
          after.Due call := by
    intro after cause closes
    refine ⟨fun entry mem => closes ▸ mem_append_left _ mem, fun call mem => ?_⟩
    obtain ⟨attempt, held, rfl⟩ := mem_map.mp mem
    refine ⟨cause, ?_, rfl⟩
    rw [closes]
    exact mem_append_right _ (mem_map.mpr ⟨attempt, held, rfl⟩)
  rcases job.attempt_effect inv.slot answer with
    ⟨_, _, ended, calls, called⟩ | ⟨cause, _, ended, _, _, calls, called⟩ |
    ⟨cause, _, ended, _, _, calls, called⟩ | ⟨_, _, ended, calls, called⟩
  · refine ⟨fun entry mem => ended ▸ mem, fun call mem => ?_, fun call mem => ?_⟩
    · rw [calls] at mem
      cases mem
    · have due : manager.shared.Due call := by
        rcases called call mem with old | own
        · exact inv.dueCalled call old
        · exact inv.due thread call (mem_pending head own)
      exact due.mono fun entry mem => ended ▸ mem
  · refine ⟨(closes ended).1, fun call mem => (closes ended).2 call (calls call mem), ?_⟩
    exact fun call mem => (inv.dueCalled call (called ▸ mem)).mono (closes ended).1
  · refine ⟨(closes ended).1, fun call mem => (closes ended).2 call (calls call mem), ?_⟩
    exact fun call mem => (inv.dueCalled call (called ▸ mem)).mono (closes ended).1
  · have grows : ∀ entry ∈ manager.shared.ended,
        entry ∈ (job.perform manager.shared answer).1.ended :=
      fun entry mem => ended ▸ mem_append_left _ mem
    refine ⟨grows, fun call mem => ?_, fun call mem => ?_⟩
    · rw [calls] at mem
      cases mem
    · rw [called] at mem
      rcases mem_append.mp mem with old | new
      · exact (inv.dueCalled call old).mono grows
      · rw [mem_singleton.mp new]
        refine ⟨.unsaved, ?_, rfl⟩
        rw [ended]
        exact mem_append_right _ (mem_singleton.mpr rfl)

/-- What a job does is a move on the ledger of the connection callbacks. -/
theorem connects_perform (inv : manager.Inv) (answer : Answer)
    (head : manager.jobs thread = job :: rest) :
    ∃ move, (move = .drop → job = .disconnect) ∧
      (manager.take thread (job.perform manager.shared answer).1
        (job.perform manager.shared answer).2 rest).connects =
          manager.connects.after thread move := by
  obtain ⟨move, drops, effect⟩ := job.connect_effect inv.slot answer
  exact ⟨move, drops, effect.ledger head⟩

theorem scans_perform (inv : manager.Inv) (answer : Answer)
    (head : manager.jobs thread = job :: rest) :
    ∃ move, move ≠ .drop ∧
      (manager.take thread (job.perform manager.shared answer).1
        (job.perform manager.shared answer).2 rest).scans = manager.scans.after thread move := by
  obtain ⟨move, keeps, effect⟩ := job.scan_effect inv.slot answer
  exact ⟨move, keeps, effect.ledger head⟩

theorem perform (inv : manager.Inv) (answer : Answer) (head : manager.jobs thread = job :: rest) :
    (manager.take thread (job.perform manager.shared answer).1
      (job.perform manager.shared answer).2 rest).Inv := by
  obtain ⟨move, _, connects⟩ := inv.connects_perform answer head
  obtain ⟨scanMove, keeps, scans⟩ := inv.scans_perform answer head
  obtain ⟨grows, dueNew, dueCalled⟩ := inv.due_perform answer head
  exact
    { slot := Job.slot_perform inv.slot answer job
      connects := by
        rw [connects]
        exact inv.connects.after thread move
      scans := by
        rw [scans]
        exact inv.scans.after thread scanMove
      scansKept := by
        rw [scans]
        exact inv.scansKept.after thread scanMove (absurd · keeps)
      attempts := (inv.attempts_perform answer job).1
      attemptsKept := (inv.attempts_perform answer job).2
      due := fun other call mem => by
        rcases pending_take head mem with new | old
        · exact dueNew call new
        · exact (inv.due other call old).mono grows
      dueCalled := dueCalled }

theorem of_reachable (reachable : Reachable Begins (Step permits) manager) : manager.Inv := by
  have start : ∀ manager, Begins manager → manager.Inv := by
    rintro manager ⟨stored, rfl⟩
    exact .fresh stored
  have kept : ∀ before after, before.Inv → Step permits before after → after.Inv := by
    intro before after inv step
    rcases step.cases with ⟨thread, new, queue, rfl, noConnect, noScan⟩ |
      ⟨thread, answer, job, rest, head, _, rfl⟩
    · exact inv.enter queue noConnect noScan
    · exact inv.perform answer head
  exact reachable.invariant start kept

end Inv

/-- A report belongs to no attempt but the one in progress. -/
def Timely (shared : Shared) (origin : Option ℕ) : Prop :=
  ∀ current ∈ shared.connectCallback, ∀ attempt ∈ origin, attempt = current

instance (shared : Shared) (origin : Option ℕ) : Decidable (Timely shared origin) :=
  inferInstanceAs (Decidable (∀ current ∈ shared.connectCallback, _))

/-- The attempt that a terminal event or the timeout belongs to. -/
def origin : Job → Option (Option ℕ)
  | .onGotIp origin _ | .onDisconnected origin _ => some origin
  | .timedOut origin => some (some origin)
  | _ => none

def bringsAddress : Job → Bool
  | .onGotIp .. => true
  | _ => false

/-- A run is calm where `disconnect` finds no attempt in progress, a report
none but its own, and an address the radio on. -/
def Calm (shared : Shared) (job : Job) : Prop :=
  (job = .disconnect → shared.connectCallback = none) ∧
    (∀ belongs ∈ origin job, Timely shared belongs) ∧
    (bringsAddress job = true → shared.state ≠ .Off)

instance (shared : Shared) (job : Job) : Decidable (Calm shared job) :=
  inferInstanceAs (Decidable (_ ∧ _ ∧ _))

/-- What brings an end belongs to the attempt that it ends, and calls back. -/
def Brought (attempt : ℕ) : Cause → Prop
  | .address origin | .failure origin _ => ∀ other, origin = some other → other = attempt
  | .timeout origin => origin = attempt
  | .disconnected => False
  | _ => True

structure CalmInv (manager : Manager) : Prop extends manager.Inv where
  kept : manager.connects.Kept
  brought : ∀ entry ∈ manager.shared.ended, Brought entry.1 entry.2

namespace CalmInv

theorem perform (inv : manager.CalmInv) (answer : Answer)
    (head : manager.jobs thread = job :: rest) (calm : Calm manager.shared job) :
    (manager.take thread (job.perform manager.shared answer).1
      (job.perform manager.shared answer).2 rest).CalmInv := by
  obtain ⟨move, drops, connects⟩ := inv.connects_perform answer head
  have closes : ∀ {after : Shared} {cause : Cause}, job.Ends cause →
      manager.shared.Closes after cause → ∀ entry ∈ after.ended, Brought entry.1 entry.2 := by
    intro after cause ends closes entry mem
    rw [closes] at mem
    rcases mem_append.mp mem with old | new
    · exact inv.brought entry old
    obtain ⟨attempt, held, rfl⟩ := mem_map.mp new
    rw [mem_toList] at held
    cases ends with
    | superseded => trivial
    | address origin ip => exact calm.2.1 origin rfl attempt held
    | failure origin reason => exact calm.2.1 origin rfl attempt held
    | timeout origin => exact calm.2.1 (some origin) rfl attempt held origin rfl
    | disabled => trivial
    | disconnected => exact absurd ((calm.1 rfl).symm.trans held) nofun
  refine { inv.toInv.perform answer head with kept := ?_, brought := ?_ }
  · rw [connects]
    refine inv.kept.after thread move fun drop => ?_
    exact calm.1 (drops drop)
  · rcases job.attempt_effect inv.slot answer with
      ⟨_, _, ended, _, _⟩ | ⟨cause, ends, ended, _, _, _, _⟩ |
      ⟨cause, ends, ended, _, _, _, _⟩ | ⟨_, _, ended, _, _⟩
    · exact fun entry mem => inv.brought entry (ended ▸ mem)
    · exact closes ends ended
    · exact closes ends ended
    · intro entry mem
      rw [take_shared, ended] at mem
      rcases mem_append.mp mem with old | new
      · exact inv.brought entry old
      · rw [mem_singleton.mp new]
        trivial

theorem of_reachable (reachable : Reachable Begins (Step Calm) manager) : manager.CalmInv := by
  have start : ∀ manager, Begins manager → manager.CalmInv := by
    rintro manager ⟨stored, rfl⟩
    exact { Inv.fresh stored with
      kept := fun _ lt => absurd lt (Nat.not_lt_zero _)
      brought := fun _ mem => nomatch mem }
  have kept : ∀ before after, before.CalmInv → Step Calm before after → after.CalmInv := by
    intro before after inv step
    rcases step.cases with ⟨thread, new, queue, rfl, noConnect, noScan⟩ |
      ⟨thread, answer, job, rest, head, calm, rfl⟩
    · refine { inv.toInv.enter queue noConnect noScan with kept := ?_, brought := inv.brought }
      rw [connects_enter queue noConnect]
      exact inv.kept
    · exact inv.perform answer head calm
  exact reachable.invariant start kept

theorem off (answer : Answer) (inv : manager.Inv) (calm : Calm manager.shared job)
    (reports : origin job ≠ none) (off : manager.shared.state = .Off) :
    (job.perform manager.shared answer).1.state = .Off := by
  cases job with
  | onGotIp origin ip => exact absurd off (calm.2.2 rfl)
  | onDisconnected origin reason =>
    have stays : (if manager.shared.state ≠ .Off then State.Disconnected else .Off) = .Off :=
      if_neg (not_not.mpr off)
    rw [Job.perform, Shared.onDisconnected, inv.slot.terminal _ _ fun _ => off]
    exact stays
  | timedOut origin =>
    have idle : ¬manager.shared.connecting = true := by
      rw [inv.slot.off off]
      exact Bool.false_ne_true
    rw [Job.perform, Shared.timedOut, if_neg idle]
    exact off
  | _ => exact absurd rfl reports

end CalmInv

inductive Action where
  | call (thread : Thread) (job : Job)
  | report (task : ℕ) (job : Job)
  | receive
  | perform (thread : Thread) (answer : Answer)

def act (permits : Shared → Job → Prop) [∀ shared job, Decidable (permits shared job)]
    (manager : Manager) : Action → Option Manager
  | .call thread job =>
    if callable job = true ∧ manager.Free thread then
      some (manager.take thread manager.shared [job] (manager.jobs thread))
    else none
  | .report task job =>
    if reportable manager.shared job = true ∧ manager.jobs (.task task) = [] then
      some (manager.take (.task task) manager.shared [job] [])
    else none
  | .receive =>
    match manager.jobs .worker, manager.shared.queue with
    | [], item :: queue =>
      some (manager.take .worker { manager.shared with queue := queue } item.jobs [])
    | _, _ => none
  | .perform thread answer =>
    match manager.jobs thread with
    | [] => none
    | job :: rest =>
      if permits manager.shared job then
        some (manager.take thread (job.perform manager.shared answer).1
          (job.perform manager.shared answer).2 rest)
      else none

theorem step_of_act [∀ shared job, Decidable (permits shared job)] {action : Action}
    (acts : before.act permits action = some after) : Step permits before after := by
  cases action with
  | call thread job =>
    rw [act] at acts
    split at acts
    · rename_i can
      cases acts
      exact .call thread job can.1 can.2
    · cases acts
  | report task job =>
    rw [act] at acts
    split at acts
    · rename_i can
      cases acts
      exact .report task job can.1 can.2
    · cases acts
  | receive =>
    rw [act] at acts
    split at acts
    · rename_i item queue idle items
      cases acts
      exact .receive item queue idle items
    · cases acts
  | perform thread answer =>
    rw [act] at acts
    split at acts
    · cases acts
    · rename_i job rest head
      split at acts
      · rename_i permitted
        cases acts
        exact .perform thread answer job rest head permitted
      · cases acts

def run (permits : Shared → Job → Prop) [∀ shared job, Decidable (permits shared job)] :
    Manager → List Action → Option Manager
  | manager, [] => some manager
  | manager, action :: actions => (manager.act permits action).bind (run permits · actions)

theorem reachable_of_run [∀ shared job, Decidable (permits shared job)]
    (reachable : Reachable Begins (Step permits) before) {actions : List Action}
    (runs : run permits before actions = some after) :
    Reachable Begins (Step permits) after := by
  induction actions generalizing before with
  | nil =>
    cases runs
    exact reachable
  | cons action actions ih =>
    obtain ⟨next, acts, runs⟩ := bind_eq_some_iff.mp runs
    exact ih (reachable.next (step_of_act acts)) runs

def accepting : Answer := ⟨true, true, -60⟩

def here : Thread := .task 0

def there : Thread := .task 1

def startUp : List Action :=
  .call here .start :: .perform here accepting :: .receive ::
    List.replicate 6 (.perform .worker accepting)

def connecting : List Action :=
  .call here (.connect "home" "secret" 15000) :: List.replicate 6 (.perform here accepting)

def arriving : List Action :=
  .report 1 (.onGotIp (some 0) "10.0.0.2") :: List.replicate 5 (.perform there accepting)

def disconnecting : List Action :=
  .call there .disconnect :: List.replicate 4 (.perform there accepting)

end Manager

end EspDevkit.Wifi
