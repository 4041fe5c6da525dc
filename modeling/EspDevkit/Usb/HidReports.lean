import Mathlib.Data.List.Basic
import Mathlib.Logic.Function.Basic

/-!
# The report queue of a HID function

Tasks queue reports, and whoever finds the queue idle submits the report at its
head to the endpoint.  The device task completes transfers, and turns the queue
on and off with the state of the bus.  Each critical section and each call of
the endpoint is a step.
-/

namespace EspDevkit.Usb.Hid

def kQueueReports : ℕ := 16

def kStoredReports : ℕ := 8

structure Config where
  reportIds : Bool
  maxReportBytes : ℕ
  allocated : Bool

inductive EspErr where
  | INVALID_ARG
  | INVALID_STATE
  | NO_MEM
  deriving DecidableEq

inductive TransferStatus where
  | Completed
  | Stalled
  | Canceled
  deriving DecidableEq

/-- A report that `send` has accepted, in which period of the queue. -/
structure Report where
  period : ℕ
  bytes : List UInt8
  deriving DecidableEq

/-- The transfer as `submit_head` has filled it in: the slot and the length.
The report in the slot, the period, and whether the queue held a report are what
its critical section found. -/
structure Transfer where
  slot : ℕ
  length : ℕ
  report : ℕ
  period : ℕ
  queued : Bool
  deriving DecidableEq

inductive Thread where
  | device
  | task (number : ℕ)
  deriving DecidableEq

/-- Where a thread is in `submit_head`. -/
inductive Phase where
  | idle
  | head
  | submit
  | failed
  deriving DecidableEq

inductive Job where
  | unconfigure
  | suspend
  | resume
  | close
  | opens
  | setActive (active : Bool)
  | flush
  | configured
  | unconfigured
  | complete
  | done (transfer : Transfer) (status : TransferStatus)
  deriving DecidableEq

/-- The function, its endpoint, and the threads.  Reports go by their place in
`accepted`; `numbers` are the reports in the slots, `submitted` those that the
endpoint took with the period then, `finished` those whose transfer is over, and
`sent` what the host got of each. -/
structure State where
  slots : ℕ → List UInt8
  lengths : ℕ → ℕ
  head : ℕ
  count : ℕ
  busy : Bool
  active : Bool
  transfer : Transfer
  stored : List (UInt8 × List UInt8)
  isOpen : Bool
  flight : List Transfer
  doneList : List (Transfer × TransferStatus)
  phase : Thread → Phase
  jobs : List Job
  configuration : Bool
  suspended : Bool
  period : ℕ
  numbers : ℕ → ℕ
  accepted : List Report
  submitted : List (ℕ × ℕ)
  finished : List (ℕ × TransferStatus)
  sent : List (ℕ × List UInt8)

namespace State

def fresh : State where
  slots _ := []
  lengths _ := 0
  head := 0
  count := 0
  busy := false
  active := false
  transfer := ⟨0, 0, 0, 0, false⟩
  stored := []
  isOpen := false
  flight := []
  doneList := []
  phase _ := .idle
  jobs := []
  configuration := false
  suspended := false
  period := 0
  numbers _ := 0
  accepted := []
  submitted := []
  finished := []
  sent := []

variable (state : State)

def index : ℕ := (state.head + state.count) % kQueueReports

/-- The report kept for `get_report`, one for each id. -/
def store (stored : List (UInt8 × List UInt8)) (id : UInt8) (data : List UInt8) :
    List (UInt8 × List UInt8) :=
  if stored.any (·.1 == id) then
    stored.map fun entry => if entry.1 = id then (id, data) else entry
  else if stored.length < kStoredReports then stored ++ [(id, data)]
  else stored

/-- The critical section of `send`, and whether the queue was idle. -/
def enqueue (config : Config) (data : List UInt8) : Except EspErr (State × Bool) :=
  if data.length = 0 ∨ config.maxReportBytes < data.length then .error .INVALID_ARG
  else if ¬config.allocated then .error .NO_MEM
  else if ¬state.active then .error .INVALID_STATE
  else if state.count = kQueueReports then .error .NO_MEM
  else
    let id := if config.reportIds then data.headD 0 else 0
    .ok ({ state with
      slots := Function.update state.slots state.index
        (data ++ (state.slots state.index).drop data.length)
      lengths := Function.update state.lengths state.index data.length
      numbers := Function.update state.numbers state.index state.accepted.length
      accepted := state.accepted ++ [⟨state.period, data⟩]
      count := state.count + 1
      stored := store state.stored id data
      busy := true }, !state.busy)

def move (thread : Thread) (phase : Phase) : State :=
  { state with phase := Function.update state.phase thread phase }

/-- The critical section of `submit_head`. -/
def takeHead : State :=
  { state with transfer :=
      ⟨state.head, state.lengths state.head, state.numbers state.head, state.period,
        decide (0 < state.count)⟩ }

/-- `Endpoint::submit`, where the endpoint takes the transfer. -/
def submit : State :=
  { state with
    flight := state.flight ++ [state.transfer]
    submitted := state.submitted ++ [(state.transfer.report, state.period)] }

/-- `submit_head` after its critical section has begun. -/
def submitHead (thread : Thread) : Option State :=
  match state.phase thread with
  | .idle => none
  | .head => some (state.takeHead.move thread .submit)
  | .submit =>
    if state.isOpen then some (state.submit.move thread .idle)
    else some (state.move thread .failed)
  | .failed => some ({ state with busy := false }.move thread .idle)

/-- The critical section of `done`, and whether it goes on to `submit_head`. -/
def done (transfer : Transfer) (status : TransferStatus) : State × Bool :=
  let passes := status ≠ .Canceled ∧ 0 < state.count
  let after : State := { state with
    finished := state.finished ++ [(transfer.report, status)]
    head := if passes then (state.head + 1) % kQueueReports else state.head
    count := if passes then state.count - 1 else state.count }
  let next := after.active && decide (0 < after.count)
  ({ after with busy := next }, next)

/-- The critical section of `set_active`. -/
def setActive (active : Bool) : State :=
  { state with
    active := active
    count := 0
    stored := if active then state.stored else []
    period := state.period + 1 }

/-- `cancel_all` of the endpoint, which leaves no transfer to it. -/
def cancelAll : State :=
  { state with
    flight := []
    doneList := state.doneList ++ state.flight.map fun transfer => (transfer, .Canceled) }

def work : Option State :=
  match state.phase .device, state.jobs with
  | .idle, .unconfigure :: jobs =>
    some (if state.configuration then
      { state with
        suspended := false
        jobs := [.close, .complete, .setActive false, .flush, .unconfigured] ++ jobs }
      else { state with jobs := jobs })
  | .idle, .suspend :: jobs =>
    some (if ¬state.configuration ∨ state.suspended then { state with jobs := jobs }
      else { state with suspended := true, jobs := [.setActive false, .flush] ++ jobs })
  | .idle, .resume :: jobs =>
    some (if state.suspended then
        { state with suspended := false, jobs := [.setActive true] ++ jobs }
      else { state with jobs := jobs })
  | .idle, .close :: jobs => some { state.cancelAll with isOpen := false, jobs := jobs }
  | .idle, .opens :: jobs => some { state with isOpen := true, jobs := jobs }
  | .idle, .setActive active :: jobs => some { state.setActive active with jobs := jobs }
  | .idle, .flush :: jobs =>
    some (if state.isOpen then { state.cancelAll with jobs := jobs }
      else { state with jobs := jobs })
  | .idle, .configured :: jobs => some { state with configuration := true, jobs := jobs }
  | .idle, .unconfigured :: jobs => some { state with configuration := false, jobs := jobs }
  | .idle, .complete :: jobs =>
    match state.doneList with
    | [] => some { state with jobs := jobs }
    | (transfer, status) :: rest =>
      some { state with doneList := rest, jobs := .done transfer status :: .complete :: jobs }
  | .idle, .done transfer status :: jobs =>
    let (after, next) := state.done transfer status
    some ({ after with jobs := jobs }.move .device (if next then .head else .idle))
  | _, _ => none

end State

/-- What the device task handles; a request may open the endpoint anew. -/
inductive Event where
  | reset
  | setConfiguration (value : Bool)
  | setInterface
  | suspend
  | resume
  | other

def Event.jobs : Event → List Job
  | .reset => [.unconfigure, .complete]
  | .setConfiguration false => [.unconfigure, .complete]
  | .setConfiguration true => [.unconfigure, .opens, .configured, .setActive true, .complete]
  | .setInterface => [.close, .opens, .complete]
  | .suspend => [.suspend, .complete]
  | .resume => [.resume, .complete]
  | .other => [.complete]

/-- The device task handles an event; interfaces are set while configured. -/
def Event.allowed (event : Event) (configuration : Bool) : Bool :=
  match event with
  | .setInterface => configuration
  | _ => true

inductive Action where
  | send (thread : Thread) (data : List UInt8)
  | submitHead (thread : Thread)
  | finish (status : TransferStatus)
  | handle (event : Event)
  | work

namespace State

/-- The controller is done with the first transfer of the endpoint, and the
host has its bytes when it completed. -/
def finish (state : State) (status : TransferStatus) : Option State :=
  match state.flight with
  | [] => none
  | transfer :: rest =>
    some { state with
      flight := rest
      doneList := state.doneList ++ [(transfer, status)]
      sent :=
        if status = .Completed then
          state.sent ++ [(transfer.report, (state.slots transfer.slot).take transfer.length)]
        else state.sent }

def step (config : Config) (state : State) : Action → Option State
  | .send thread data =>
    if state.phase thread = .idle then
      match state.enqueue config data with
      | .error _ => none
      | .ok (after, idle) => some (if idle then after.move thread .head else after)
    else none
  | .submitHead thread => state.submitHead thread
  | .finish status => if status = .Canceled then none else state.finish status
  | .handle event =>
    if state.jobs = [] ∧ state.phase .device = .idle ∧
        event.allowed state.configuration = true then
      some { state with jobs := event.jobs }
    else none
  | .work => state.work

end State

end EspDevkit.Usb.Hid

/-!
## The invariant of the report queue

The busy flag is with one thread in `submit_head` or with one transfer.
-/

namespace EspDevkit.Usb.Hid

open List

def Job.called : Job → Option (Transfer × Option TransferStatus)
  | .done transfer status => some (transfer, some status)
  | _ => none

namespace State

variable (state : State)

def next : ℕ := state.accepted.length - state.count

def transfers : List (Transfer × Option TransferStatus) :=
  state.flight.map (fun transfer => (transfer, none)) ++
    state.doneList.map (fun entry => (entry.1, some entry.2)) ++
    state.jobs.filterMap Job.called

inductive Token : Prop
  | free : state.busy = false → (∀ thread, state.phase thread = .idle) →
      state.transfers = [] → Token
  | held (thread : Thread) : state.busy = true → state.phase thread ≠ .idle →
      (∀ other, other ≠ thread → state.phase other = .idle) → state.transfers = [] → Token
  | moving (entry : Transfer × Option TransferStatus) : state.busy = true →
      (∀ thread, state.phase thread = .idle) → state.transfers = [entry] → Token

def Holds (slot number : ℕ) : Prop :=
  state.numbers slot = number ∧ ∃ report, state.accepted[number]? = some report ∧
    report.period = state.period ∧ state.lengths slot = report.bytes.length ∧
    (state.slots slot).take (state.lengths slot) = report.bytes

def AtHead (transfer : Transfer) : Prop :=
  0 < state.count ∧ transfer.slot = state.head ∧ transfer.report = state.next ∧
    transfer.length = state.lengths state.head

structure Queue : Prop where
  head_lt : state.head < kQueueReports
  count_le : state.count ≤ kQueueReports
  count_accepted : state.count ≤ state.accepted.length
  off : state.active = false → state.count = 0
  old : ∀ report ∈ state.accepted, report.period ≤ state.period
  slots : ∀ i < state.count, state.Holds ((state.head + i) % kQueueReports) (state.next + i)

structure Moves : Prop where
  period_le : state.transfer.period ≤ state.period
  taken : ∀ thread, state.phase thread = .submit → state.transfer.queued = true →
    state.transfer.period = state.period → state.AtHead state.transfer
  unchanged : ∀ entry ∈ state.transfers, ∃ report,
    state.accepted[entry.1.report]? = some report ∧
      (state.slots entry.1.slot).take entry.1.length = report.bytes
  atHead : ∀ entry ∈ state.transfers, state.active = true → state.AtHead entry.1
  closed : state.isOpen = false → state.flight = []

structure Log : Prop where
  sorted : (state.sent.map Prod.fst).Pairwise (· < ·)
  sent_lt : ∀ number ∈ state.sent.map Prod.fst, number < state.next ∨
    ∃ entry ∈ state.transfers, entry.2 = some .Completed ∧ entry.1.report = number
  unsent : ∀ entry ∈ state.transfers, entry.2 ≠ some .Completed →
    ∀ number ∈ state.sent.map Prod.fst, number < entry.1.report
  sentBytes : ∀ entry ∈ state.sent, ∃ report,
    state.accepted[entry.1]? = some report ∧ report.bytes = entry.2
  order : (state.submitted.map Prod.fst).Pairwise (· ≤ ·)
  submitted_le : ∀ number ∈ state.submitted.map Prod.fst, number ≤ state.next
  periods : ∀ entry ∈ state.submitted, ∃ report,
    state.accepted[entry.1]? = some report ∧ report.period = entry.2
  kept : ∀ number report, state.accepted[number]? = some report →
    report.period = state.period → number < state.next →
      ∃ status, (number, status) ∈ state.finished ∧ status ≠ .Canceled

structure Conf : Prop where
  unconfigured : state.configuration = false → state.active = false ∧ state.suspended = false
  suspended : state.suspended = true → state.active = false

def Settled : Prop := state.active = false → state.transfers = []

inductive Rest where
  | stop
  | go

def Rest.jobs : Rest → List Job
  | .stop => [.complete]
  | .go => [.opens, .configured, .setActive true, .complete]

inductive Plan : List Job → Prop
  | idle : state.Settled → state.Conf → Plan []
  | complete : (state.active = false → state.flight = []) → state.Conf → Plan [.complete]
  | done (transfer : Transfer) (status : TransferStatus) {jobs : List Job} :
      Plan (.complete :: jobs) → Plan (.done transfer status :: .complete :: jobs)
  | unconfigure (rest : Rest) : state.Settled → state.Conf → Plan (.unconfigure :: rest.jobs)
  | close (rest : Rest) : state.suspended = false →
      Plan (.close :: .complete :: .setActive false :: .flush :: .unconfigured :: rest.jobs)
  | drain (rest : Rest) : state.isOpen = false → state.suspended = false →
      Plan (.complete :: .setActive false :: .flush :: .unconfigured :: rest.jobs)
  | deactivate (rest : Rest) : state.isOpen = false → state.transfers = [] →
      state.suspended = false → Plan (.setActive false :: .flush :: .unconfigured :: rest.jobs)
  | flush (rest : Rest) : state.isOpen = false → state.active = false → state.transfers = [] →
      state.suspended = false → Plan (.flush :: .unconfigured :: rest.jobs)
  | unconfigured (rest : Rest) : state.active = false → state.transfers = [] →
      state.suspended = false → Plan (.unconfigured :: rest.jobs)
  | opens : state.active = false → state.transfers = [] → state.suspended = false →
      Plan [.opens, .configured, .setActive true, .complete]
  | configured : state.active = false → state.transfers = [] → state.suspended = false →
      Plan [.configured, .setActive true, .complete]
  | activate : state.active = false → state.transfers = [] → state.suspended = false →
      state.configuration = true → Plan [.setActive true, .complete]
  | suspend : state.Settled → state.Conf → Plan [.suspend, .complete]
  | suspending : state.configuration = true → Plan [.setActive false, .flush, .complete]
  | flushing : state.configuration = true → state.active = false → Plan [.flush, .complete]
  | resume : state.Settled → state.Conf → Plan [.resume, .complete]
  | reopen : state.Settled → state.Conf → Plan [.close, .opens, .complete]
  | reopened : state.Settled → state.Conf → Plan [.opens, .complete]

structure Inv : Prop where
  token : state.Token
  queue : state.Queue
  moves : state.Moves
  log : state.Log
  plan : state.Plan state.jobs

/-- The condition on a step: what the endpoint takes is the report that the
critical section of `submit_head` found in the queue, in the same period. -/
def Calm : Action → Prop
  | .submitHead thread => state.phase thread = .submit → state.isOpen = true →
      state.transfer.queued = true ∧ state.transfer.period = state.period
  | _ => True

variable {state} {after : State}

theorem transfers_eq_nil : state.transfers = [] ↔
    state.flight = [] ∧ state.doneList = [] ∧ state.jobs.filterMap Job.called = [] := by
  simp only [transfers, append_eq_nil_iff, map_eq_nil_iff, and_assoc]

theorem Token.length_le (token : state.Token) : state.transfers.length ≤ 1 := by
  cases token with
  | free _ _ none => rw [none]; exact Nat.zero_le 1
  | held _ _ _ _ none => rw [none]; exact Nat.zero_le 1
  | moving entry _ _ one => rw [one]; exact Nat.le_refl 1

theorem Token.flight (token : state.Token) {transfer : Transfer} {rest : List Transfer}
    (flight : state.flight = transfer :: rest) : rest = [] ∧ state.doneList = [] ∧
      state.jobs.filterMap Job.called = [] ∧ state.transfers = [(transfer, none)] := by
  have short := token.length_le
  simp only [transfers, flight, map_cons, cons_append, length_cons,
    length_append, length_map] at short
  have rest : rest = [] := eq_nil_of_length_eq_zero (by omega)
  have dones : state.doneList = [] := eq_nil_of_length_eq_zero (by omega)
  have called : state.jobs.filterMap Job.called = [] :=
    eq_nil_of_length_eq_zero (by omega)
  refine ⟨rest, dones, called, ?_⟩
  rw [transfers, flight, rest, dones, called]
  rfl

theorem Token.doneList (token : state.Token) {entry : Transfer × TransferStatus}
    {rest : List (Transfer × TransferStatus)} (dones : state.doneList = entry :: rest) :
    state.flight = [] ∧ rest = [] ∧ state.jobs.filterMap Job.called = [] ∧
      state.transfers = [(entry.1, some entry.2)] := by
  have short := token.length_le
  simp only [transfers, dones, map_cons, length_cons, length_append,
    length_map] at short
  have flight : state.flight = [] := eq_nil_of_length_eq_zero (by omega)
  have rest : rest = [] := eq_nil_of_length_eq_zero (by omega)
  have called : state.jobs.filterMap Job.called = [] :=
    eq_nil_of_length_eq_zero (by omega)
  refine ⟨flight, rest, called, ?_⟩
  rw [transfers, flight, dones, rest, called]
  rfl

theorem Token.called (token : state.Token) {transfer : Transfer} {status : TransferStatus}
    {jobs : List Job} (doing : state.jobs = .done transfer status :: jobs) :
    state.flight = [] ∧ state.doneList = [] ∧ jobs.filterMap Job.called = [] ∧
      state.transfers = [(transfer, some status)] := by
  have short := token.length_le
  have first : state.jobs.filterMap Job.called =
      (transfer, some status) :: jobs.filterMap Job.called := by
    rw [doing]
    rfl
  simp only [transfers, first, length_cons, length_append, length_map] at short
  have flight : state.flight = [] := eq_nil_of_length_eq_zero (by omega)
  have dones : state.doneList = [] := eq_nil_of_length_eq_zero (by omega)
  have called : jobs.filterMap Job.called = [] := eq_nil_of_length_eq_zero (by omega)
  refine ⟨flight, dones, called, ?_⟩
  rw [transfers, flight, dones, first, called]
  rfl

theorem Plan.mono {jobs : List Job} (plan : state.Plan jobs)
    (active : after.active = state.active) (isOpen : after.isOpen = state.isOpen)
    (configuration : after.configuration = state.configuration)
    (suspended : after.suspended = state.suspended)
    (flight : state.active = false ∨ state.isOpen = false → state.flight = [] →
      after.flight = [])
    (none : state.active = false ∨ state.isOpen = false → state.transfers = [] →
      after.transfers = []) : after.Plan jobs := by
  have conf : state.Conf → after.Conf := by
    intro conf
    refine ⟨fun off => ?_, fun on => ?_⟩
    · rw [active, suspended]
      exact conf.unconfigured (configuration ▸ off)
    · rw [active]
      exact conf.suspended (suspended ▸ on)
  have settled : state.Settled → after.Settled := fun settled off =>
    none (.inl (active ▸ off)) (settled (active ▸ off))
  induction plan with
  | idle s c => exact .idle (settled s) (conf c)
  | complete f c =>
    exact .complete (fun off => flight (.inl (active ▸ off)) (f (active ▸ off))) (conf c)
  | done transfer status _ ih => exact .done transfer status ih
  | unconfigure rest s c => exact .unconfigure rest (settled s) (conf c)
  | close rest s => exact .close rest (suspended.trans s)
  | drain rest o s => exact .drain rest (isOpen.trans o) (suspended.trans s)
  | deactivate rest o t s =>
    exact .deactivate rest (isOpen.trans o) (none (.inr o) t) (suspended.trans s)
  | flush rest o a t s =>
    exact .flush rest (isOpen.trans o) (active.trans a) (none (.inl a) t) (suspended.trans s)
  | unconfigured rest a t s =>
    exact .unconfigured rest (active.trans a) (none (.inl a) t) (suspended.trans s)
  | opens a t s => exact .opens (active.trans a) (none (.inl a) t) (suspended.trans s)
  | configured a t s => exact .configured (active.trans a) (none (.inl a) t) (suspended.trans s)
  | activate a t s c =>
    exact .activate (active.trans a) (none (.inl a) t) (suspended.trans s)
      (configuration.trans c)
  | suspend s c => exact .suspend (settled s) (conf c)
  | suspending c => exact .suspending (configuration.trans c)
  | flushing c a => exact .flushing (configuration.trans c) (active.trans a)
  | resume s c => exact .resume (settled s) (conf c)
  | reopen s c => exact .reopen (settled s) (conf c)
  | reopened s c => exact .reopened (settled s) (conf c)

end State

end EspDevkit.Usb.Hid
