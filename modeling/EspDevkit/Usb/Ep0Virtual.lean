import EspDevkit.Usb.Ep0Control
import Mathlib.Data.List.Perm.Basic

/-!
# Control transfers of the virtual driver

The driver of the simulator gets SETUP packets with their data over USB/IP, and
remembers only that one is pending.  Events are posted under the lock and sent to
the queue without it, by whichever thread flushes them.
-/

namespace EspDevkit.Usb.Ep0.Virtual

open List

structure State where
  ep0Pending : Bool
  ep0In : Bool
  ep0Length : ℕ
  /-- The size of `ep0_data`. -/
  ep0Bytes : ℕ
  pendingEvents : List Event
  /-- What the threads that flush have taken and not yet sent. -/
  batches : List (List Event)
  events : List Event
  task : DeviceTask
  /-- The number of the latest SETUP. -/
  latest : ℕ
  /-- The latest SETUP at each data stage, acknowledgement and stall, and what it
  was computed from. -/
  armed : List (ℕ × ℕ)
  /-- The latest SETUP at each data IN stage, and what the buffer held. -/
  sent : List (ℕ × Contents)

inductive Action where
  /-- A SETUP comes in, for so many bytes and with so many. -/
  | submit (setup : SetupPacket) (isIn : Bool) (length bytes : ℕ)
  /-- The request of a SETUP is unlinked. -/
  | unlink (target : ℕ)
  | attach
  | disconnect
  | transfersDone
  /-- A thread takes the events that are posted. -/
  | flush
  /-- The next event of a batch is sent to the queue, or dropped. -/
  | enqueue (batch : ℕ) (queued : Bool)
  /-- The device task takes an event. -/
  | take
  /-- It computes the answer, with what the functions say. -/
  | handle (result : Option ℕ)
  /-- It calls the driver. -/
  | call

namespace State

def init : State where
  ep0Pending := false
  ep0In := false
  ep0Length := 0
  ep0Bytes := 0
  pendingEvents := []
  batches := []
  events := []
  task := .init
  latest := 0
  armed := []
  sent := []

def post (state : State) (event : Event) : State :=
  { state with pendingEvents := state.pendingEvents ++ [event] }

/-- `handle_command` for a submit to endpoint 0. -/
def submit (state : State) (setup : SetupPacket) (isIn : Bool) (length bytes : ℕ) : State :=
  let number := state.latest + 1
  { state with
    ep0Pending := true
    ep0In := isIn
    ep0Length := length
    ep0Bytes := bytes
    latest := number }.post (.Setup number setup)

/-- `handle_command` for the unlink of a control request. -/
def unlink (state : State) (target : ℕ) : State :=
  if state.ep0Pending && decide (state.latest = target) then { state with ep0Pending := false }
  else state

def attach (state : State) : State := (state.post .Reset).post .Enumerated

def disconnect (state : State) : State := { state with ep0Pending := false }.post .Reset

/-- `flush_events` up to where the lock is let go. -/
def flush (state : State) : State :=
  { state with pendingEvents := [], batches := state.batches ++ [state.pendingEvents] }

def enqueue (state : State) (batch : ℕ) (queued : Bool) : Option State :=
  match state.batches[batch]? with
  | some (event :: rest) =>
    some
      { state with
        batches := state.batches.set batch rest
        events := if queued then state.events ++ [event] else state.events }
  | _ => none

def reply (state : State) (source : ℕ) : State :=
  { state with ep0Pending := false, armed := state.armed ++ [(state.latest, source)] }

def perform (config : Config) (state : State) (source : ℕ) : Call → State
  | .setAddress _ => state
  | .ep0Send _ _ =>
    if !state.ep0Pending || !state.ep0In then state
    else { state with sent := state.sent ++ [(state.latest, state.task.buffer)] }.reply source
  | .ep0Receive bytes =>
    if !state.ep0Pending || state.ep0In then state
    else
      { state with
        task := { state.task with buffer := .data state.latest }
        armed := state.armed ++ [(state.latest, source)] }.post
          (.Ep0Received (min bytes (min state.ep0Bytes config.controlBytes)))
  | .ep0Ack => if state.ep0Pending then state.reply source else state
  | .ep0Stall => if state.ep0Pending then state.reply source else state

def take (state : State) : Option State :=
  match state.events with
  | event :: events => (state.task.take event).map fun task => { state with events, task }
  | [] => none

def call (config : Config) (state : State) : Option State :=
  match state.task.job with
  | .calling event source call calls =>
    some
      { state.perform config source call with
        task := { (state.perform config source call).task with
          job := .next event source calls } }
  | _ => none

def step (config : Config) (state : State) : Action → Option State
  | .submit setup isIn length bytes => some (state.submit setup isIn length bytes)
  | .unlink target => some (state.unlink target)
  | .attach => some state.attach
  | .disconnect => some state.disconnect
  | .transfersDone => some (state.post .TransfersDone)
  | .flush => some state.flush
  | .enqueue batch queued => state.enqueue batch queued
  | .take => state.take
  | .handle result => (state.task.handle config result).map fun task => { state with task }
  | .call => state.call config

variable {config : Config} {state after : State}

def queued (state : State) : List Event :=
  state.task.job.event ++ state.events.filter Event.control

def moving (state : State) : List Event :=
  (state.batches.flatten ++ state.pendingEvents).filter Event.control

def outstanding (state : State) : List Event := state.queued ++ state.moving

def Calm (state : State) : Action → Prop
  | .submit .. => ∀ event ∈ state.moving, event.isSetup = true
  | .enqueue batch queued => queued = false → ∀ event rest,
      state.batches[batch]? = some (event :: rest) → event.isSetup = true →
        state.outstanding = [event]
  | .call => state.ep0Pending = true →
      ∀ event ∈ state.events ++ state.moving, event.isSetup = false
  | _ => True

structure Inv (state : State) : Prop where
  order : ∀ event ∈ state.queued.tail, event.isSetup = true
  moving : (∀ event ∈ state.moving, event.isSetup = true) ∨
    state.queued = [] ∧ ∃ length, state.moving = [.Ep0Received length]
  pending : state.ep0Pending = true →
    (∃ setup, .Setup state.latest setup ∈ state.outstanding) ∨ state.outstanding = [] ∨
      (∃ length, state.outstanding = [.Ep0Received length]) ∧
        state.task.pendingOut.1 = state.latest
  received : ∀ length, .Ep0Received length ∈ state.outstanding →
    state.task.buffer = .data state.task.pendingOut.1
  calling : ∀ event source call calls, state.task.job = .calling event source call calls →
    state.task.Answers event source (call :: calls)
  armed : ∀ entry ∈ state.armed, entry.2 = entry.1
  sent : ∀ entry ∈ state.sent, entry.2 = .reply entry.1
  handed : ∀ entry ∈ state.task.handed, entry.2 = .data entry.1

theorem moving_post (state : State) (event : Event) :
    (state.post event).moving = state.moving ++ if event.control then [event] else [] := by
  rw [State.moving, State.post, ← append_assoc, filter_append]
  cases control : event.control with
  | false => rw [filter_cons_of_neg (by simp [control])]; rfl
  | true => rw [filter_cons_of_pos control]; rfl

theorem Inv.postOther (inv : state.Inv) {event : Event} (other : event.control = false) :
    (state.post event).Inv := by
  have moving := moving_post state event
  rw [other] at moving
  have moving : (state.post event).moving = state.moving := moving.trans (append_nil _)
  have same : (state.post event).outstanding = state.outstanding :=
    congrArg (state.queued ++ ·) moving
  exact
    { inv with
      moving := by
        rw [moving]
        exact inv.moving
      pending := by
        rw [same]
        exact inv.pending
      received := by
        rw [same]
        exact inv.received }

theorem submit_inv (inv : state.Inv) {setup : SetupPacket} {isIn : Bool} {length bytes : ℕ}
    (calm : state.Calm (.submit setup isIn length bytes)) :
    (state.submit setup isIn length bytes).Inv := by
  have moving : (state.submit setup isIn length bytes).moving =
      state.moving ++ [.Setup (state.latest + 1) setup] := moving_post _ _
  have outstanding : (state.submit setup isIn length bytes).outstanding =
      state.outstanding ++ [.Setup (state.latest + 1) setup] := by
    rw [State.outstanding, moving, State.outstanding, append_assoc]
    rfl
  exact
    { inv with
      moving := by
        left
        rw [moving]
        intro event mem
        rcases mem_append.mp mem with mem | mem
        · exact calm event mem
        · cases mem_singleton.mp mem
          rfl
      pending := fun _ => by
        rw [outstanding]
        exact .inl ⟨setup, mem_append_right _ (mem_singleton.mpr rfl)⟩
      received := fun length mem => by
        rw [outstanding] at mem
        rcases mem_append.mp mem with mem | mem
        · exact inv.received length mem
        · cases mem_singleton.mp mem }

theorem Inv.giveUp (inv : state.Inv) : State.Inv { state with ep0Pending := false } :=
  { inv with pending := nofun }

theorem unlink_inv (inv : state.Inv) (target : ℕ) : (state.unlink target).Inv := by
  rw [State.unlink]
  split
  · exact inv.giveUp
  · exact inv

theorem flush_inv (inv : state.Inv) : state.flush.Inv := by
  have moving : state.flush.moving = state.moving := by
    rw [State.moving, State.moving]
    show ((state.batches ++ [state.pendingEvents]).flatten ++ []).filter _ = _
    rw [append_nil, flatten_append, flatten_singleton]
  have same : state.flush.outstanding = state.outstanding :=
    congrArg (state.queued ++ ·) moving
  exact
    { inv with
      moving := by
        rw [moving]
        exact inv.moving
      pending := by
        rw [same]
        exact inv.pending
      received := by
        rw [same]
        exact inv.received }

theorem flatten_set {batches : List (List Event)} {batch : ℕ} {event : Event}
    {rest : List Event} (found : batches[batch]? = some (event :: rest)) :
    List.Perm batches.flatten (event :: (batches.set batch rest).flatten) := by
  induction batches generalizing batch with
  | nil => cases found
  | cons first batches ih =>
    cases batch with
    | zero =>
      cases found
      exact List.Perm.refl _
    | succ batch =>
      have found : batches[batch]? = some (event :: rest) := found
      show List.Perm (first ++ batches.flatten)
        (event :: (first ++ (batches.set batch rest).flatten))
      exact ((ih found).append_left first).trans perm_middle

theorem Inv.arrange (inv : state.Inv) {events : List Event} {batches : List (List Event)}
    (order : ∀ event ∈ (State.queued { state with events, batches }).tail, event.isSetup = true)
    (moving : (∀ event ∈ State.moving { state with events, batches }, event.isSetup = true) ∨
      State.queued { state with events, batches } = [] ∧
        ∃ length, State.moving { state with events, batches } = [.Ep0Received length])
    (perm : List.Perm (State.outstanding { state with events, batches }) state.outstanding ∨
      State.outstanding { state with events, batches } = []) :
    State.Inv { state with events, batches } :=
  { inv with
    order
    moving
    pending := fun pending => by
      rcases perm with perm | none
      · rcases inv.pending pending with ⟨setup, mem⟩ | none | ⟨⟨length, one⟩, request⟩
        · exact .inl ⟨setup, perm.mem_iff.mpr mem⟩
        · rw [none] at perm
          exact .inr (.inl perm.eq_nil)
        · rw [one] at perm
          exact .inr (.inr ⟨⟨length, perm.eq_singleton⟩, request⟩)
      · exact .inr (.inl none)
    received := fun length mem => by
      rcases perm with perm | none
      · exact inv.received length (perm.mem_iff.mp mem)
      · rw [none] at mem
        cases mem }

theorem enqueue_inv (inv : state.Inv) {batch : ℕ} {queued : Bool}
    (calm : state.Calm (.enqueue batch queued)) (goes : state.enqueue batch queued = some after) :
    after.Inv := by
  rw [State.enqueue] at goes
  split at goes
  swap
  · cases goes
  rename_i event rest found
  cases goes
  generalize events' : (if queued = true then state.events ++ [event] else state.events) = events
  have perm : List.Perm state.moving
      ((event :: ((state.batches.set batch rest).flatten ++ state.pendingEvents)).filter
        Event.control) :=
    ((flatten_set found).append_right state.pendingEvents).filter _
  have moving : State.moving { state with events, batches := state.batches.set batch rest } =
      ((state.batches.set batch rest).flatten ++ state.pendingEvents).filter Event.control := rfl
  cases control : event.control with
  | false =>
    rw [filter_cons_of_neg (by simp [control])] at perm
    have same : State.queued { state with events, batches := state.batches.set batch rest } =
        state.queued := by
      rw [State.queued, State.queued]
      show _ ++ events.filter Event.control = _
      rw [← events']
      split
      · rw [filter_append, filter_cons_of_neg (by simp [control]), filter_nil,
          append_nil]
      · rfl
    refine inv.arrange (same ▸ inv.order) ?_ (.inl ?_)
    · rw [moving, same]
      rcases inv.moving with setups | ⟨none, length, one⟩
      · exact .inl fun other mem => setups other (perm.mem_iff.mpr mem)
      · rw [one] at perm
        exact .inr ⟨none, length, perm.symm.eq_singleton⟩
    · rw [State.outstanding, same, moving]
      exact perm.symm.append_left state.queued
  | true =>
    rw [filter_cons_of_pos control] at perm
    generalize rest' : ((state.batches.set batch rest).flatten ++
      state.pendingEvents).filter Event.control = behind at perm moving
    have fewer : ∀ other ∈ behind, other ∈ state.moving := fun other mem =>
      perm.mem_iff.mpr (mem_cons_of_mem _ mem)
    -- OUT data on its way is alone
    have first : event.isSetup = true ∨ state.queued = [] ∧ behind = [] := by
      rcases inv.moving with setups | ⟨none, length, one⟩
      · exact .inl (setups event (perm.mem_iff.mpr mem_cons_self))
      · rw [one] at perm
        have same := perm.symm.eq_singleton
        cases same
        exact .inr ⟨none, rfl⟩
    have setups : ∀ other ∈ behind, other.isSetup = true := by
      intro other mem
      rcases first with isSetup | ⟨-, none⟩
      · rcases inv.moving with setups | ⟨-, length, one⟩
        · exact setups other (fewer other mem)
        · rw [one] at perm
          have same := perm.symm.eq_singleton
          cases same
          cases mem
      · rw [none] at mem
        cases mem
    have all : List.Perm state.outstanding (event :: (state.queued ++ behind)) :=
      (perm.append_left state.queued).trans perm_middle
    cases queued with
    | true =>
      have now : State.queued { state with events, batches := state.batches.set batch rest } =
          state.queued ++ [event] := by
        rw [State.queued, State.queued]
        show _ ++ events.filter Event.control = _
        rw [← events', if_pos rfl, filter_append, filter_cons_of_pos control,
          append_assoc]
        rfl
      refine inv.arrange (fun other mem => ?_) (.inl (moving ▸ setups)) (.inl ?_)
      · rw [now] at mem
        rcases first with isSetup | ⟨none, -⟩
        · cases old : state.queued with
          | nil =>
            rw [old] at mem
            cases mem
          | cons head tail =>
            rw [old] at mem
            rcases mem_append.mp mem with mem | mem
            · exact inv.order other (by rw [old]; exact mem)
            · cases mem_singleton.mp mem
              exact isSetup
        · rw [none] at mem
          cases mem
      · rw [State.outstanding, now, moving, append_assoc]
        exact (all.trans perm_middle.symm).symm
    | false =>
      have now : State.queued { state with events, batches := state.batches.set batch rest } =
          state.queued := by
        rw [State.queued, State.queued]
        show _ ++ events.filter Event.control = _
        rw [← events', if_neg Bool.false_ne_true]
      refine inv.arrange (now ▸ inv.order) (.inl (moving ▸ setups)) (.inr ?_)
      rw [State.outstanding, now, moving]
      rcases first with isSetup | ⟨none, noneBehind⟩
      · rw [calm rfl event rest found isSetup] at all
        have same := all.symm.eq_singleton
        exact (List.cons.inj same).2
      · rw [none, noneBehind]
        rfl

/-- The first event in hand, when it is a SETUP, has no OUT data behind it. -/
theorem Inv.no_received (inv : state.Inv) {number : ℕ} {setup : SetupPacket}
    (job : state.task.job.event = [.Setup number setup]) (length : ℕ) :
    .Ep0Received length ∉ state.outstanding := by
  intro mem
  have order := inv.order
  rw [State.queued, job] at order
  rcases mem_append.mp mem with mem | mem
  · rw [State.queued, job] at mem
    rcases mem_cons.mp mem with same | mem
    · cases same
    · cases order _ mem
  · rcases inv.moving with setups | ⟨none, -⟩
    · cases setups _ mem
    · rw [State.queued, job] at none
      cases none

theorem Inv.requeue (inv : state.Inv) {events : List Event} {job : Job}
    (same : State.queued { state with events, task := { state.task with job } } = state.queued)
    (calling : ∀ event source call calls, job = .calling event source call calls →
      state.task.Answers event source (call :: calls)) :
    State.Inv { state with events, task := { state.task with job } } := by
  have outstanding : State.outstanding
      { state with events, task := { state.task with job } } = state.outstanding :=
    congrArg (· ++ state.moving) same
  exact
    { inv with
      order := by
        rw [same]
        exact inv.order
      moving := by
        rw [same]
        exact inv.moving
      pending := by
        rw [outstanding]
        exact inv.pending
      received := by
        rw [outstanding]
        exact inv.received
      calling := fun event source call calls now =>
        { calling event source call calls now with } }

theorem take_inv (inv : state.Inv) (goes : state.take = some after) : after.Inv := by
  rw [State.take] at goes
  split at goes
  · rename_i event events queue
    obtain ⟨task, takes, same⟩ := Option.map_eq_some_iff.mp goes
    subst same
    obtain ⟨job, takes⟩ := DeviceTask.taken takes
    have before : state.queued = (event :: events).filter Event.control := by
      rw [State.queued, job, queue]
      rfl
    rcases takes with ⟨control, rfl⟩ | ⟨other, rfl⟩
    · rw [filter_cons_of_pos control] at before
      refine inv.requeue before.symm ?_
      intro event source call calls calling
      cases calling
    · rw [filter_cons_of_neg (by simp [other])] at before
      refine @Inv.requeue state inv events state.task.job ?_ inv.calling
      rw [before, State.queued]
      show state.task.job.event ++ _ = _
      rw [job]
      rfl
  · cases goes

theorem handle_inv (inv : state.Inv) {task : DeviceTask} (goes : state.task.Handled task) :
    State.Inv { state with task } := by
  cases goes with
  | setup taken answers =>
    have event : state.task.job.event = [_] := congrArg Job.event taken
    have noData := inv.no_received event
    have same : state.queued = [_] ++ state.events.filter Event.control :=
      congrArg (· ++ state.events.filter Event.control) event
    have outstanding : state.outstanding = _ ++ state.moving := congrArg (· ++ state.moving) same
    exact
      { inv with
        order := fun other mem => inv.order other (same ▸ mem)
        moving := by
          rcases inv.moving with setups | ⟨none, -⟩
          · exact .inl setups
          · rw [same] at none
            cases none
        pending := fun pending => by
          rcases inv.pending pending with ⟨setup, mem⟩ | none | ⟨⟨length, one⟩, -⟩
          · rw [outstanding] at mem
            exact .inl ⟨setup, mem⟩
          · exact .inr (.inl (outstanding.symm.trans none))
          · have mem : .Ep0Received length ∈ state.outstanding := by
              rw [one]
              exact mem_cons_self
            exact absurd mem (noData length)
        received := fun length mem => absurd (outstanding ▸ mem) (noData length)
        calling := fun event source call calls equal => by
          cases equal
          exact answers }
  | received taken answers =>
    have event : state.task.job.event = [_] := congrArg Job.event taken
    have same : state.queued = [_] ++ state.events.filter Event.control :=
      congrArg (· ++ state.events.filter Event.control) event
    have outstanding : state.outstanding = _ ++ state.moving := congrArg (· ++ state.moving) same
    have buffer := inv.received _ (by
      rw [outstanding]
      exact mem_cons_self)
    exact
      { inv with
        order := fun other mem => inv.order other (same ▸ mem)
        moving := by
          rcases inv.moving with setups | ⟨none, -⟩
          · exact .inl setups
          · rw [same] at none
            cases none
        pending := fun pending => by
          have pending := inv.pending pending
          rw [outstanding] at pending
          exact pending
        received := fun length mem => inv.received length (outstanding ▸ mem)
        calling := fun event source call calls equal => by
          cases equal
          exact { answers with }
        handed := fun entry mem => by
          rcases mem_append.mp mem with mem | mem
          · exact inv.handed entry mem
          · cases mem_singleton.mp mem
            exact buffer }

/-- When a SETUP is pending the driver gets the answer to it, and no event is
outstanding behind. -/
theorem Inv.current (inv : state.Inv) (calm : state.Calm .call) {event : Event} {source : ℕ}
    {call : Call} {calls : List Call} (job : state.task.job = .calling event source call calls)
    (pending : state.ep0Pending = true) :
    source = state.latest ∧ state.events.filter Event.control ++ state.moving = [] := by
  have answers := inv.calling event source call calls job
  have queued : state.queued = event :: state.events.filter Event.control := by
    rw [State.queued, job]
    rfl
  have behind : state.events.filter Event.control ++ state.moving = [] := by
    rw [eq_nil_iff_forall_not_mem]
    intro other mem
    rcases mem_append.mp mem with mem | mem
    · have isSetup := inv.order other (by rw [queued]; exact mem)
      rw [calm pending other (mem_append_left _ (mem_of_mem_filter mem))] at isSetup
      cases isSetup
    · rcases inv.moving with setups | ⟨none, -⟩
      · have isSetup := setups other mem
        rw [calm pending other (mem_append_right _ mem)] at isSetup
        cases isSetup
      · rw [queued] at none
        cases none
  have outstanding : state.outstanding = [event] := by
    rw [State.outstanding, queued, cons_append, behind]
  refine ⟨?_, behind⟩
  rcases inv.pending pending with ⟨setup, mem⟩ | none | ⟨⟨length, one⟩, request⟩
  · rw [outstanding] at mem
    exact (answers.setup _ setup (mem_singleton.mp mem).symm).1
  · rw [outstanding] at none
    cases none
  · rw [outstanding] at one
    cases one
    exact (answers.received length rfl).1.trans request

theorem perform_job (config : Config) (state : State) (source : ℕ) (call : Call) (job : Job) :
    State.perform config { state with task := { state.task with job } } source call =
      { state.perform config source call with
        task := { (state.perform config source call).task with job } } := by
  cases call with
  | setAddress address => rfl
  | ep0Send bytes zlp => rw [State.perform, State.perform]; split <;> rfl
  | ep0Receive bytes => rw [State.perform, State.perform]; split <;> rfl
  | ep0Ack => rw [State.perform, State.perform]; split <;> rfl
  | ep0Stall => rw [State.perform, State.perform]; split <;> rfl

theorem Inv.advance (inv : state.Inv) (calm : state.Calm .call) {event : Event} {source : ℕ}
    {call : Call} {calls : List Call} (job : state.task.job = .calling event source call calls) :
    State.Inv { state with task := { state.task with job := .next event source calls } } := by
  have answers := inv.calling event source call calls job
  have current := inv.current calm job
  have left := Job.next_cases event source calls
  generalize next : Job.next event source calls = job' at left
  have queued : state.queued = event :: state.events.filter Event.control := by
    rw [State.queued, job]
    rfl
  have now : State.queued { state with task := { state.task with job := job' } } =
      job'.event ++ state.events.filter Event.control := rfl
  have kept : State.queued { state with task := { state.task with job := job' } } =
      state.queued ∨
      State.queued { state with task := { state.task with job := job' } } =
        state.events.filter Event.control := by
    rcases left with ⟨none, -⟩ | ⟨one, -⟩
    · exact .inr (by rw [now, none]; rfl)
    · exact .inl (by rw [now, one, queued]; rfl)
  have setups : ∀ other ∈ state.moving, other.isSetup = true := by
    rcases inv.moving with setups | ⟨none, -⟩
    · exact setups
    · rw [queued] at none
      cases none
  exact
    { inv with
      order := fun other mem => by
        refine inv.order other ?_
        rcases kept with same | behind
        · exact same ▸ mem
        · rw [behind] at mem
          rw [queued]
          exact mem_of_mem_tail mem
      moving := .inl setups
      pending := fun pending => by
        rcases kept with same | behind
        · have same : State.outstanding { state with task := { state.task with job := job' } } =
              state.outstanding := congrArg (· ++ state.moving) same
          rw [same]
          exact inv.pending pending
        · refine .inr (.inl ?_)
          rw [State.outstanding, behind]
          exact (current pending).2
      received := fun length mem => by
        refine inv.received length ?_
        rcases mem_append.mp mem with mem | mem
        · refine mem_append_left _ ?_
          rcases kept with same | behind
          · exact same ▸ mem
          · rw [queued]
            exact mem_cons_of_mem _ (behind ▸ mem)
        · exact mem_append_right _ mem
      calling := fun event' source' call' calls' calling => by
        have calling : job' = .calling event' source' call' calls' := calling
        rw [← next] at calling
        cases calls with
        | nil => cases calling
        | cons =>
          cases calling
          exact { answers.rest with } }

/-- The driver takes an answer to the latest SETUP, or none. -/
theorem perform_inv (inv : state.Inv) {source : ℕ} {call : Call}
    (current : state.ep0Pending = true → source = state.latest)
    (reply : ∀ bytes zlp, call = .ep0Send bytes zlp → state.task.buffer = .reply source)
    (request : ∀ bytes, call = .ep0Receive bytes → state.ep0Pending = true →
      state.task.pendingOut.1 = source ∧ state.outstanding = []) :
    (state.perform config source call).Inv := by
  have armed : source = state.latest → ∀ entry ∈ state.armed ++ [(state.latest, source)],
      entry.2 = entry.1 := by
    intro source entry mem
    rcases mem_append.mp mem with mem | mem
    · exact inv.armed entry mem
    · cases mem_singleton.mp mem
      exact source
  have answered : state.ep0Pending = true → (state.reply source).Inv := fun pending =>
    { inv.giveUp with armed := armed (current pending) }
  cases call with
  | setAddress address => exact inv
  | ep0Send bytes zlp =>
    rw [State.perform]
    split
    · exact inv
    · rename_i takes
      rw [Bool.or_eq_true, not_or, Bool.not_eq_true', Bool.not_eq_false] at takes
      have latest := current takes.1
      exact
        { answered takes.1 with
          sent := fun entry mem => by
            rcases mem_append.mp mem with mem | mem
            · exact inv.sent entry mem
            · cases mem_singleton.mp mem
              exact latest ▸ reply bytes zlp rfl }
  | ep0Receive bytes =>
    rw [State.perform]
    split
    · exact inv
    · rename_i takes
      rw [Bool.or_eq_true, not_or, Bool.not_eq_true', Bool.not_eq_false] at takes
      have latest := current takes.1
      obtain ⟨requested, none⟩ := request bytes rfl takes.1
      obtain ⟨noQueued, noMoving⟩ := append_eq_nil_iff.mp none
      have moving := moving_post
        { state with
          task := { state.task with buffer := .data state.latest }
          armed := state.armed ++ [(state.latest, source)] }
        (.Ep0Received (min bytes (min state.ep0Bytes config.controlBytes)))
      have moving := moving.trans (congrArg (fun events : List Event =>
        events ++ [.Ep0Received (min bytes (min state.ep0Bytes config.controlBytes))]) noMoving)
      exact
        { inv with
          moving := .inr ⟨noQueued, _, moving⟩
          pending := fun _ => .inr (.inr ⟨⟨_, by
            rw [State.outstanding, moving]
            exact congrArg (· ++ _) noQueued⟩, requested.trans latest⟩)
          received := fun _ _ => congrArg Contents.data (requested.trans latest).symm
          calling := fun event source call calls job => by
            have job : state.task.job = .calling event source call calls := job
            rw [State.queued, job] at noQueued
            cases noQueued
          armed := armed latest }
  | ep0Ack =>
    rw [State.perform]
    split
    · rename_i pending
      exact answered pending
    · exact inv
  | ep0Stall =>
    rw [State.perform]
    split
    · rename_i pending
      exact answered pending
    · exact inv

theorem call_inv (inv : state.Inv) (calm : state.Calm .call)
    (goes : state.call config = some after) : after.Inv := by
  rw [State.call] at goes
  split at goes
  · rename_i event source call calls job
    have answers := inv.calling event source call calls job
    have current := inv.current calm job
    cases goes
    rw [← perform_job]
    refine perform_inv (inv.advance calm job) (fun pending => (current pending).1)
      (fun bytes zlp same => ?_) fun bytes same pending => ?_
    · subst same
      exact answers.send
    · subst same
      obtain ⟨requested, none, -⟩ := answers.receive
      refine ⟨requested, ?_⟩
      subst none
      exact (current pending).2
  · cases goes

theorem init_inv : init.Inv where
  order := fun _ mem => nomatch mem
  moving := .inl fun _ mem => nomatch mem
  pending := nofun
  received := fun _ mem => nomatch mem
  calling := by
    intro event source call calls calling
    cases calling
  armed := fun _ mem => nomatch mem
  sent := fun _ mem => nomatch mem
  handed := fun _ mem => nomatch mem

theorem step_inv (inv : state.Inv) {action : Action} (calm : state.Calm action)
    (goes : state.step config action = some after) : after.Inv := by
  cases action with
  | submit setup isIn length bytes =>
    cases goes
    exact submit_inv inv calm
  | unlink target =>
    cases goes
    exact unlink_inv inv target
  | attach =>
    cases goes
    exact (inv.postOther rfl).postOther rfl
  | disconnect =>
    cases goes
    exact inv.giveUp.postOther rfl
  | transfersDone =>
    cases goes
    exact inv.postOther rfl
  | flush =>
    cases goes
    exact flush_inv inv
  | enqueue batch queued => exact enqueue_inv inv calm goes
  | take => exact take_inv inv goes
  | handle result =>
    obtain ⟨task, handles, same⟩ := Option.map_eq_some_iff.mp goes
    subst same
    exact handle_inv inv (DeviceTask.handled handles)
  | call => exact call_inv inv calm goes

end State

end EspDevkit.Usb.Ep0.Virtual
