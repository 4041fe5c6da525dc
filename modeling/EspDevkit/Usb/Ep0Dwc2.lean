import EspDevkit.Usb.Ep0Control
import Mathlib.Data.List.Basic

/-!
# Control transfers of the DWC2 driver

Interrupts change the stage that the driver is in, and the device task's calls
are taken or not by the stage alone.  Each critical section is a step.
-/

namespace EspDevkit.Usb.Ep0.Dwc2

open List

inductive Ep0Stage where
  | Idle
  | Setup
  | Reply
  | DataIn
  | DataOut
  | ReplyOut
  | StatusOut
  | StatusIn
  deriving DecidableEq

structure State where
  stage : Ep0Stage
  address : ℕ
  ep0Expected : ℕ
  ep0Received : ℕ
  statusPhase : Bool
  statusPending : Bool
  events : List Event
  task : DeviceTask
  /-- The number of the latest SETUP. -/
  latest : ℕ
  /-- What the data stage or the acknowledgement that waits was computed from. -/
  source : ℕ
  /-- The latest SETUP at each data stage, acknowledgement and stall, and what it
  was computed from. -/
  armed : List (ℕ × ℕ)
  /-- The latest SETUP at each data IN stage, and what the buffer held. -/
  sent : List (ℕ × Contents)

inductive Action where
  /-- A SETUP has come in; its event is queued, or dropped. -/
  | setup (setup : SetupPacket) (queued : Bool)
  /-- An OUT packet of so many bytes has come in. -/
  | outComplete (packet : ℕ) (queued : Bool)
  /-- A transfer has ended with a SETUP. -/
  | setupComplete
  | statusPhase
  | inComplete
  | busReset (queued : Bool)
  | enumerated (queued : Bool)
  | suspended (queued : Bool)
  | resumed (queued : Bool)
  | transfersDone (queued : Bool)
  /-- The device task takes an event. -/
  | take
  /-- It computes the answer, with what the functions say. -/
  | handle (result : Option ℕ)
  /-- It calls the driver. -/
  | call

namespace State

def init : State where
  stage := .Idle
  address := 0
  ep0Expected := 0
  ep0Received := 0
  statusPhase := false
  statusPending := false
  events := []
  task := .init
  latest := 0
  source := 0
  armed := []
  sent := []

/-- `Dcd::State::post`, and the queue behind it: what finds no room is dropped. -/
def post (state : State) (event : Event) (queued : Bool) : State :=
  if queued then { state with events := state.events ++ [event] } else state

def armOut (state : State) (next : Ep0Stage) : State := { state with stage := next }

def armOutData (state : State) (source : ℕ) : State :=
  { state with stage := .DataOut, source, armed := state.armed ++ [(state.latest, source)] }

/-- `arm_in` for the data stage. -/
def armDataIn (state : State) (source : ℕ) : State :=
  { state with
    stage := .DataIn
    armed := state.armed ++ [(state.latest, source)]
    sent := state.sent ++ [(state.latest, state.task.buffer)] }

/-- `arm_in` for the status stage. -/
def armStatusIn (state : State) (source : ℕ) : State :=
  { state with stage := .StatusIn, armed := state.armed ++ [(state.latest, source)] }

def setup (state : State) (setup : SetupPacket) (queued : Bool) : State :=
  let number := state.latest + 1
  { state with stage := .Reply, statusPending := false, latest := number }.post
    (.Setup number setup) queued

def outComplete (state : State) (packet : ℕ) (queued : Bool) : State :=
  match state.stage with
  | .StatusOut => state.armOut .Setup
  | .DataOut =>
    let received := state.ep0Received + packet
    let after :=
      { state with
        ep0Received := received
        task := { state.task with buffer := .data state.latest } }
    if received < state.ep0Expected ∧ packet = kEp0MaxPacket then after.armOutData state.source
    else { after with stage := .ReplyOut }.post (.Ep0Received received) queued
  | _ => state

def setupComplete (state : State) : State :=
  match state.stage with
  | .StatusOut => { state with stage := .Setup }
  | _ => state

def enterStatus (state : State) : State :=
  let after := { state with statusPhase := true }
  if state.statusPending then { after with statusPending := false }.armStatusIn state.source
  else after

def inComplete (state : State) : State :=
  match state.stage with
  | .DataIn => state.armOut .StatusOut
  | .StatusIn => state.armOut .Setup
  | _ => state

def busReset (state : State) (queued : Bool) : State :=
  { state with stage := .Idle, statusPending := false, address := 0 }.post .Reset queued

def enumerated (state : State) (queued : Bool) : State :=
  (state.armOut .Setup).post .Enumerated queued

def perform (state : State) (source : ℕ) : Call → State
  | .setAddress address => if state.stage = .Reply then { state with address } else state
  | .ep0Send _ _ => if state.stage = .Reply then state.armDataIn source else state
  | .ep0Receive bytes =>
    if state.stage = .Reply then
      { state with ep0Expected := bytes, ep0Received := 0, statusPhase := false }.armOutData source
    else state
  | .ep0Ack =>
    if state.stage = .Reply then state.armStatusIn source
    else if state.stage = .ReplyOut then
      if state.statusPhase then state.armStatusIn source
      else { state with statusPending := true, source }
    else state
  | .ep0Stall =>
    if state.stage = .Reply ∨ state.stage = .ReplyOut then
      { state with armed := state.armed ++ [(state.latest, source)] }.armOut .Setup
    else state

def take (state : State) : Option State :=
  match state.events with
  | event :: events => (state.task.take event).map fun task => { state with events, task }
  | [] => none

def call (state : State) : Option State :=
  match state.task.job with
  | .calling event source call calls =>
    some
      { state.perform source call with
        task := { (state.perform source call).task with job := .next event source calls } }
  | _ => none

def step (config : Config) (state : State) : Action → Option State
  | .setup setup queued => some (state.setup setup queued)
  | .outComplete packet queued => some (state.outComplete packet queued)
  | .setupComplete => some state.setupComplete
  | .statusPhase => some state.enterStatus
  | .inComplete => some state.inComplete
  | .busReset queued => some (state.busReset queued)
  | .enumerated queued => some (state.enumerated queued)
  | .suspended queued => some (state.post .Suspend queued)
  | .resumed queued => some (state.post .Resume queued)
  | .transfersDone queued => some (state.post .TransfersDone queued)
  | .take => state.take
  | .handle result => (state.task.handle config result).map fun task => { state with task }
  | .call => state.call

variable {config : Config} {state after : State}

/-- What the device task has still to answer, in order. -/
def outstanding (state : State) : List Event :=
  state.task.job.event ++ state.events.filter Event.control

/-- The task calls the driver when no SETUP waits, and a SETUP that finds no room
comes when nothing is left to answer. -/
def Calm (state : State) : Action → Prop
  | .setup _ queued => queued = false → state.outstanding = []
  | .call => state.stage = .Reply ∨ state.stage = .ReplyOut →
      ∀ event ∈ state.events, event.isSetup = false
  | _ => True

structure Inv (state : State) : Prop where
  order : ∀ event ∈ state.outstanding.tail, event.isSetup = true
  replying : state.stage = .Reply →
    (∃ setup, .Setup state.latest setup ∈ state.outstanding) ∨ state.outstanding = []
  dataOut : state.stage = .DataOut → state.outstanding = []
  replyOut : state.stage = .ReplyOut →
    state.outstanding = [] ∨ ∃ length, state.outstanding = [.Ep0Received length]
  request : state.stage = .DataOut ∨ state.stage = .ReplyOut →
    state.task.pendingOut.1 = state.latest
  received : ∀ length, .Ep0Received length ∈ state.outstanding →
    state.task.buffer = .data state.task.pendingOut.1
  source : state.stage = .DataOut ∨ state.statusPending = true → state.source = state.latest
  calling : ∀ event source call calls, state.task.job = .calling event source call calls →
    state.task.Answers event source (call :: calls)
  armed : ∀ entry ∈ state.armed, entry.2 = entry.1
  sent : ∀ entry ∈ state.sent, entry.2 = .reply entry.1
  handed : ∀ entry ∈ state.task.handed, entry.2 = .data entry.1

theorem outstanding_post (state : State) (event : Event) (queued : Bool) :
    (state.post event queued).outstanding =
      state.outstanding ++ if queued && event.control then [event] else [] := by
  rw [State.post]
  cases queued with
  | false => exact (append_nil _).symm
  | true =>
    show state.task.job.event ++ (state.events ++ [event]).filter Event.control = _
    rw [filter_append, ← append_assoc, Bool.true_and]
    cases control : event.control with
    | false => rw [filter_cons_of_neg (by simp [control])]; rfl
    | true => rw [filter_cons_of_pos control]; rfl

theorem Inv.requeue (inv : state.Inv) {events : List Event} {job : Job}
    (same : State.outstanding { state with events, task := { state.task with job } } =
      state.outstanding)
    (calling : ∀ event source call calls, job = .calling event source call calls →
      state.task.Answers event source (call :: calls)) :
    State.Inv { state with events, task := { state.task with job } } :=
  { inv with
    order := by
      rw [same]
      exact inv.order
    replying := by
      rw [same]
      exact inv.replying
    dataOut := by
      rw [same]
      exact inv.dataOut
    replyOut := by
      rw [same]
      exact inv.replyOut
    received := by
      rw [same]
      exact inv.received
    calling := fun event source call calls now =>
      { calling event source call calls now with } }

theorem Inv.postOther (inv : state.Inv) {event : Event} (queued : Bool)
    (other : event.control = false) : (state.post event queued).Inv := by
  have same := outstanding_post state event queued
  rw [other, Bool.and_false] at same
  rw [State.post] at same ⊢
  cases queued with
  | false => exact inv
  | true => exact inv.requeue (same.trans (append_nil _)) inv.calling

theorem Inv.armOut (inv : state.Inv) {next : Ep0Stage}
    (quiet : next ≠ .Reply ∧ next ≠ .DataOut ∧ next ≠ .ReplyOut) : (state.armOut next).Inv :=
  { inv with
    replying := fun same => absurd same quiet.1
    dataOut := fun same => absurd same quiet.2.1
    replyOut := fun same => absurd same quiet.2.2
    request := fun same => (same.elim quiet.2.1 quiet.2.2).elim
    source := fun same => by
      rcases same with same | pending
      · exact absurd same quiet.2.1
      · exact inv.source (.inr pending) }

theorem setup_inv (inv : state.Inv) {setup : SetupPacket} {queued : Bool}
    (calm : state.Calm (.setup setup queued)) : (state.setup setup queued).Inv := by
  have outstanding := outstanding_post
    { state with stage := .Reply, statusPending := false, latest := state.latest + 1 }
    (.Setup (state.latest + 1) setup) queued
  rw [show Event.control (.Setup (state.latest + 1) setup) = true from rfl,
    Bool.and_true] at outstanding
  cases queued with
  | false =>
    have none := calm rfl
    exact
      { inv with
        replying := fun _ => .inr none
        dataOut := nofun
        replyOut := nofun
        request := fun same => by rcases same with same | same <;> cases same
        source := fun same => by rcases same with same | same <;> cases same }
  | true =>
    have outstanding : (state.setup setup true).outstanding =
        state.outstanding ++ [.Setup (state.latest + 1) setup] := outstanding
    have before : ∀ length, .Ep0Received length ∈ (state.setup setup true).outstanding →
        .Ep0Received length ∈ state.outstanding := by
      intro length mem
      rw [outstanding] at mem
      rcases mem_append.mp mem with mem | mem
      · exact mem
      · cases mem_singleton.mp mem
    exact
      { inv with
        order := fun event mem => by
          rw [outstanding] at mem
          cases old : state.outstanding with
          | nil =>
            rw [old] at mem
            cases mem
          | cons first rest =>
            rw [old] at mem
            rcases mem_append.mp mem with mem | mem
            · exact inv.order event (by rw [old]; exact mem)
            · cases mem_singleton.mp mem
              rfl
        replying := fun _ => by
          rw [outstanding]
          exact .inl ⟨setup, mem_append_right _ (mem_singleton.mpr rfl)⟩
        dataOut := nofun
        replyOut := nofun
        request := fun same => by rcases same with same | same <;> cases same
        received := fun length mem => inv.received length (before length mem)
        source := fun same => by rcases same with same | same <;> cases same }

theorem not_calling_of_none (none : state.outstanding = []) {event : Event} {source : ℕ}
    {call : Call} {calls : List Call} : state.task.job ≠ .calling event source call calls := by
  intro job
  rw [State.outstanding, job] at none
  cases none

theorem outComplete_inv (inv : state.Inv) (packet : ℕ) (queued : Bool) :
    (state.outComplete packet queued).Inv := by
  rw [State.outComplete]
  split
  · exact inv.armOut ⟨nofun, nofun, nofun⟩
  · rename_i dataOut
    have none := inv.dataOut dataOut
    have request := inv.request (.inl dataOut)
    have source := inv.source (.inl dataOut)
    dsimp only
    split
    · exact
        { inv with
          replying := nofun
          dataOut := fun _ => none
          replyOut := nofun
          request := fun _ => request
          received := fun length mem => by
            have mem : .Ep0Received length ∈ state.outstanding := mem
            rw [none] at mem
            cases mem
          source := fun _ => source
          calling := fun event source call calls calling =>
            absurd calling (not_calling_of_none none)
          armed := fun entry mem => by
            rcases mem_append.mp mem with mem | mem
            · exact inv.armed entry mem
            · cases mem_singleton.mp mem
              exact source }
    · have before : State.Inv
          { state with
            ep0Received := state.ep0Received + packet
            task := { state.task with buffer := .data state.latest }
            stage := .ReplyOut } :=
        { inv with
          replying := nofun
          dataOut := nofun
          replyOut := fun _ => .inl none
          request := fun _ => request
          received := fun length mem => by
            have mem : .Ep0Received length ∈ state.outstanding := mem
            rw [none] at mem
            cases mem
          source := fun same => by
            rcases same with same | pending
            · cases same
            · exact inv.source (.inr pending)
          calling := fun event source call calls calling =>
            absurd calling (not_calling_of_none none) }
      cases queued with
      | false => exact before
      | true =>
        have now := outstanding_post
          { state with
            ep0Received := state.ep0Received + packet
            task := { state.task with buffer := .data state.latest }
            stage := .ReplyOut } (.Ep0Received (state.ep0Received + packet)) true
        have now := now.trans (congrArg (fun events : List Event =>
          events ++ [.Ep0Received (state.ep0Received + packet)]) none)
        exact
          { before with
            order := by
              rw [now]
              exact fun _ mem => nomatch mem
            replying := nofun
            dataOut := nofun
            replyOut := fun _ => .inr ⟨_, now⟩
            received := fun _ _ => congrArg Contents.data request.symm
            calling := fun event source call calls calling =>
              absurd calling (not_calling_of_none none) }
  · exact inv

theorem setupComplete_inv (inv : state.Inv) : state.setupComplete.Inv := by
  rw [State.setupComplete]
  split
  · exact (inv.armOut ⟨nofun, nofun, nofun⟩ : (state.armOut .Setup).Inv)
  · exact inv

theorem inComplete_inv (inv : state.Inv) : state.inComplete.Inv := by
  rw [State.inComplete]
  split
  · exact inv.armOut ⟨nofun, nofun, nofun⟩
  · exact inv.armOut ⟨nofun, nofun, nofun⟩
  · exact inv

theorem enterStatus_inv (inv : state.Inv) : state.enterStatus.Inv := by
  rw [State.enterStatus]
  dsimp only
  split
  · rename_i pending
    have source := inv.source (.inr pending)
    exact
      { inv with
        replying := nofun
        dataOut := nofun
        replyOut := nofun
        request := fun same => by rcases same with same | same <;> cases same
        source := fun same => by rcases same with same | same <;> cases same
        armed := fun entry mem => by
          rcases mem_append.mp mem with mem | mem
          · exact inv.armed entry mem
          · cases mem_singleton.mp mem
            exact source }
  · exact
      { inv with }

theorem busReset_inv (inv : state.Inv) (queued : Bool) : (state.busReset queued).Inv := by
  refine Inv.postOther ?_ queued rfl
  exact
    { inv with
      replying := nofun
      dataOut := nofun
      replyOut := nofun
      request := fun same => by rcases same with same | same <;> cases same
      source := fun same => by rcases same with same | same <;> cases same }

theorem perform_inv (inv : state.Inv) {source : ℕ} {call : Call}
    (current : state.stage = .Reply ∨ state.stage = .ReplyOut → source = state.latest)
    (reply : ∀ bytes zlp, call = .ep0Send bytes zlp → state.task.buffer = .reply source)
    (request : ∀ bytes, call = .ep0Receive bytes → state.stage = .Reply →
      state.task.pendingOut.1 = source ∧ state.outstanding = []) :
    (state.perform source call).Inv := by
  have armed : source = state.latest → ∀ entry ∈ state.armed ++ [(state.latest, source)],
      entry.2 = entry.1 := by
    intro source entry mem
    rcases mem_append.mp mem with mem | mem
    · exact inv.armed entry mem
    · cases mem_singleton.mp mem
      exact source
  cases call with
  | setAddress address =>
    rw [State.perform]
    split
    · exact
        { inv with }
    · exact inv
  | ep0Send bytes zlp =>
    rw [State.perform]
    split
    · rename_i replying
      have source := current (.inl replying)
      exact
        { inv with
          replying := nofun
          dataOut := nofun
          replyOut := nofun
          request := fun same => by rcases same with same | same <;> cases same
          source := fun same => by
            rcases same with same | pending
            · cases same
            · exact inv.source (.inr pending)
          armed := armed source
          sent := fun entry mem => by
            rcases mem_append.mp mem with mem | mem
            · exact inv.sent entry mem
            · cases mem_singleton.mp mem
              exact source ▸ reply bytes zlp rfl }
    · exact inv
  | ep0Receive bytes =>
    rw [State.perform]
    split
    · rename_i replying
      have source := current (.inl replying)
      obtain ⟨requested, none⟩ := request bytes rfl replying
      exact
        { inv with
          replying := nofun
          dataOut := fun _ => none
          replyOut := nofun
          request := fun _ => requested.trans source
          source := fun _ => source
          armed := armed source }
    · exact inv
  | ep0Ack =>
    have acknowledges : source = state.latest → (state.armStatusIn source).Inv := fun source =>
      { inv with
        replying := nofun
        dataOut := nofun
        replyOut := nofun
        request := fun same => by rcases same with same | same <;> cases same
        source := fun same => by
          rcases same with same | pending
          · cases same
          · exact inv.source (.inr pending)
        armed := armed source }
    rw [State.perform]
    split
    · rename_i replying
      exact acknowledges (current (.inl replying))
    · split
      · rename_i replyOut
        have source := current (.inr replyOut)
        split
        · exact acknowledges source
        · exact
            { inv with
              source := fun _ => source }
      · exact inv
  | ep0Stall =>
    rw [State.perform]
    split
    · rename_i answers
      have latest := current answers
      have stalled : State.Inv { state with armed := state.armed ++ [(state.latest, source)] } :=
        { inv with
          armed := armed latest }
      exact stalled.armOut ⟨nofun, nofun, nofun⟩
    · exact inv

/-- The first event outstanding, when it is a SETUP, has no OUT data behind it. -/
theorem Inv.no_received (inv : state.Inv) {number : ℕ} {setup : SetupPacket}
    (job : state.task.job.event = [.Setup number setup]) (length : ℕ) :
    .Ep0Received length ∉ state.outstanding := by
  intro mem
  have order := inv.order
  rw [State.outstanding, job] at mem order
  rcases mem_cons.mp mem with same | mem
  · cases same
  · cases order _ mem

theorem Inv.not_out (inv : state.Inv) {number : ℕ} {setup : SetupPacket}
    (job : state.task.job.event = [.Setup number setup]) :
    ¬ (state.stage = .DataOut ∨ state.stage = .ReplyOut) := by
  rintro (dataOut | replyOut)
  · have none := inv.dataOut dataOut
    rw [State.outstanding, job] at none
    cases none
  · rcases inv.replyOut replyOut with none | ⟨length, one⟩
    · rw [State.outstanding, job] at none
      cases none
    · rw [State.outstanding, job] at one
      cases one

theorem take_inv (inv : state.Inv) (goes : state.take = some after) : after.Inv := by
  rw [State.take] at goes
  split at goes
  · rename_i event events queue
    obtain ⟨task, takes, same⟩ := Option.map_eq_some_iff.mp goes
    subst same
    obtain ⟨job, takes⟩ := DeviceTask.taken takes
    have before : state.outstanding = (event :: events).filter Event.control := by
      rw [State.outstanding, job, queue]
      rfl
    rcases takes with ⟨control, rfl⟩ | ⟨other, rfl⟩
    · rw [filter_cons_of_pos control] at before
      refine inv.requeue before.symm ?_
      intro event source call calls calling
      cases calling
    · rw [filter_cons_of_neg (by simp [other])] at before
      refine @Inv.requeue state inv events state.task.job ?_ inv.calling
      rw [before, State.outstanding]
      show state.task.job.event ++ _ = _
      rw [job]
      rfl
  · cases goes

theorem handle_inv (inv : state.Inv) {task : DeviceTask} (goes : state.task.Handled task) :
    State.Inv { state with task } := by
  cases goes with
  | setup taken answers =>
    have event : state.task.job.event = [_] := congrArg Job.event taken
    have noData := inv.no_received event
    have notOut := inv.not_out event
    have same : state.outstanding = [_] ++ state.events.filter Event.control :=
      congrArg (· ++ state.events.filter Event.control) event
    -- no data stage depends on the buffer or on the request that is remembered
    exact
      { inv with
        order := fun other mem => inv.order other (same ▸ mem)
        replying := fun replying => by
          have replying := inv.replying replying
          rw [same] at replying
          exact replying
        dataOut := fun dataOut => absurd (.inl dataOut) notOut
        replyOut := fun replyOut => absurd (.inr replyOut) notOut
        request := fun isOut => absurd isOut notOut
        received := fun length mem => absurd (same ▸ mem) (noData length)
        calling := fun event source call calls equal => by
          cases equal
          exact answers }
  | received taken answers =>
    have event : state.task.job.event = [_] := congrArg Job.event taken
    have same : state.outstanding = [_] ++ state.events.filter Event.control :=
      congrArg (· ++ state.events.filter Event.control) event
    have buffer := inv.received _ (by
      rw [same]
      exact mem_cons_self)
    exact
      { inv with
        order := fun other mem => inv.order other (same ▸ mem)
        replying := fun replying => by
          have replying := inv.replying replying
          rw [same] at replying
          exact replying
        dataOut := fun dataOut => same.symm.trans (inv.dataOut dataOut)
        replyOut := fun replyOut => by
          have replyOut := inv.replyOut replyOut
          rw [same] at replyOut
          exact replyOut
        received := fun length mem => inv.received length (same ▸ mem)
        calling := fun event source call calls equal => by
          cases equal
          exact { answers with }
        handed := fun entry mem => by
          rcases mem_append.mp mem with mem | mem
          · exact inv.handed entry mem
          · cases mem_singleton.mp mem
            exact buffer }

theorem Inv.current (inv : state.Inv) (calm : state.Calm .call) {event : Event} {source : ℕ}
    {call : Call} {calls : List Call} (job : state.task.job = .calling event source call calls)
    (waits : state.stage = .Reply ∨ state.stage = .ReplyOut) :
    source = state.latest ∧ state.events.filter Event.control = [] := by
  have answers := inv.calling event source call calls job
  have outstanding : state.outstanding = event :: state.events.filter Event.control := by
    rw [State.outstanding, job]
    rfl
  have behind : state.events.filter Event.control = [] := by
    rw [eq_nil_iff_forall_not_mem]
    intro other mem
    have isSetup := inv.order other (by rw [outstanding]; exact mem)
    rw [calm waits other (mem_of_mem_filter mem)] at isSetup
    cases isSetup
  rw [behind] at outstanding
  refine ⟨?_, behind⟩
  rcases waits with replying | replyOut
  · rcases inv.replying replying with ⟨setup, mem⟩ | none
    · rw [outstanding] at mem
      exact (answers.setup _ setup (mem_singleton.mp mem).symm).1
    · rw [outstanding] at none
      cases none
  · rcases inv.replyOut replyOut with none | ⟨length, one⟩
    · rw [outstanding] at none
      cases none
    · rw [outstanding] at one
      cases one
      exact (answers.received length rfl).1.trans (inv.request (.inr replyOut))

theorem perform_job (state : State) (source : ℕ) (call : Call) (job : Job) :
    State.perform { state with task := { state.task with job } } source call =
      { state.perform source call with
        task := { (state.perform source call).task with job } } := by
  cases call with
  | setAddress address => rw [State.perform, State.perform]; split <;> rfl
  | ep0Send bytes zlp => rw [State.perform, State.perform]; split <;> rfl
  | ep0Receive bytes => rw [State.perform, State.perform]; split <;> rfl
  | ep0Ack =>
    rw [State.perform, State.perform]
    split
    · rfl
    · split
      · split <;> rfl
      · rfl
  | ep0Stall => rw [State.perform, State.perform]; split <;> rfl

theorem Inv.advance (inv : state.Inv) (calm : state.Calm .call) {event : Event} {source : ℕ}
    {call : Call} {calls : List Call} (job : state.task.job = .calling event source call calls) :
    State.Inv { state with task := { state.task with job := .next event source calls } } := by
  have answers := inv.calling event source call calls job
  have current := inv.current calm job
  have left := Job.next_cases event source calls
  generalize next : Job.next event source calls = job' at left
  have outstanding : state.outstanding = event :: state.events.filter Event.control := by
    rw [State.outstanding, job]
    rfl
  have now : State.outstanding { state with task := { state.task with job := job' } } =
      job'.event ++ state.events.filter Event.control := rfl
  have kept : State.outstanding { state with task := { state.task with job := job' } } =
      state.outstanding ∨
      State.outstanding { state with task := { state.task with job := job' } } =
        state.events.filter Event.control := by
    rcases left with ⟨none, -⟩ | ⟨one, -⟩
    · exact .inr (by rw [now, none]; rfl)
    · exact .inl (by rw [now, one, outstanding]; rfl)
  have fewer : ∀ other ∈ State.outstanding
      { state with task := { state.task with job := job' } }, other ∈ state.outstanding := by
    intro other mem
    rcases kept with same | behind
    · exact same ▸ mem
    · rw [outstanding]
      exact mem_cons_of_mem _ (behind ▸ mem)
  exact
    { inv with
      order := fun other mem => by
        refine inv.order other ?_
        rcases kept with same | behind
        · exact same ▸ mem
        · rw [behind] at mem
          rw [outstanding]
          exact mem_of_mem_tail mem
      replying := fun replying => by
        rcases kept with same | behind
        · rw [same]
          exact inv.replying replying
        · exact .inr (behind.trans (current (.inl replying)).2)
      dataOut := fun dataOut => absurd job (not_calling_of_none (inv.dataOut dataOut))
      replyOut := fun replyOut => by
        rcases kept with same | behind
        · rw [same]
          exact inv.replyOut replyOut
        · exact .inl (behind.trans (current (.inr replyOut)).2)
      received := fun length mem => inv.received length (fewer _ mem)
      calling := fun event' source' call' calls' calling => by
        have calling : job' = .calling event' source' call' calls' := calling
        rw [← next] at calling
        cases calls with
        | nil => cases calling
        | cons =>
          cases calling
          exact { answers.rest with } }

theorem call_inv (inv : state.Inv) (calm : state.Calm .call) (goes : state.call = some after) :
    after.Inv := by
  rw [State.call] at goes
  split at goes
  · rename_i event source call calls job
    have answers := inv.calling event source call calls job
    have current := inv.current calm job
    cases goes
    rw [← perform_job]
    refine perform_inv (inv.advance calm job) (fun waits => (current waits).1)
      (fun bytes zlp same => ?_) fun bytes same replying => ?_
    · subst same
      exact answers.send
    · subst same
      obtain ⟨requested, none, -⟩ := answers.receive
      refine ⟨requested, ?_⟩
      subst none
      exact (current (.inl replying)).2
  · cases goes

theorem init_inv : init.Inv where
  order := fun _ mem => nomatch mem
  replying := nofun
  dataOut := nofun
  replyOut := nofun
  request := fun same => by rcases same with same | same <;> cases same
  received := fun _ mem => nomatch mem
  source := fun same => by rcases same with same | same <;> cases same
  calling := by
    intro event source call calls calling
    cases calling
  armed := fun _ mem => nomatch mem
  sent := fun _ mem => nomatch mem
  handed := fun _ mem => nomatch mem

theorem step_inv (inv : state.Inv) {action : Action} (calm : state.Calm action)
    (goes : state.step config action = some after) : after.Inv := by
  cases action with
  | setup setup queued =>
    cases goes
    exact setup_inv inv calm
  | outComplete packet queued =>
    cases goes
    exact outComplete_inv inv packet queued
  | setupComplete =>
    cases goes
    exact setupComplete_inv inv
  | statusPhase =>
    cases goes
    exact enterStatus_inv inv
  | inComplete =>
    cases goes
    exact inComplete_inv inv
  | busReset queued =>
    cases goes
    exact busReset_inv inv queued
  | enumerated queued =>
    cases goes
    have quiet : (state.armOut .Setup).Inv := inv.armOut ⟨nofun, nofun, nofun⟩
    exact (quiet.postOther queued rfl : ((state.armOut .Setup).post .Enumerated queued).Inv)
  | suspended queued =>
    cases goes
    exact inv.postOther queued rfl
  | resumed queued =>
    cases goes
    exact inv.postOther queued rfl
  | transfersDone queued =>
    cases goes
    exact inv.postOther queued rfl
  | take => exact take_inv inv goes
  | handle result =>
    obtain ⟨task, handles, same⟩ := Option.map_eq_some_iff.mp goes
    subst same
    exact handle_inv inv (DeviceTask.handled handles)
  | call => exact call_inv inv calm goes

end State

end EspDevkit.Usb.Ep0.Dwc2
