import Mathlib.Tactic.Push
import EspDevkit.EspHosted.Rpc

/-!
# Which response a call returns

A response may pass from the receive task to a call only while that call is
the last one that emptied the response slot.
-/

namespace EspDevkit.EspHosted

open Transition

variable {Task Payload T : Type}

def uidOf : ℕ → ℕ
  | 0 => 0
  | call + 1 => nextUid (uidOf call)

theorem uidOf_succ (call : ℕ) : uidOf (call + 1) = call % (2 ^ 32 - 1) + 1 := by
  induction call with
  | zero => rfl
  | succ call ih =>
    rw [uidOf, ih, nextUid]
    have bound := Nat.mod_lt call (show 0 < 2 ^ 32 - 1 by decide)
    by_cases last : call % (2 ^ 32 - 1) + 1 = 2 ^ 32 - 1
    · have wraps : (call + 1) % (2 ^ 32 - 1) = 0 := by omega
      rw [wraps, last]
      rfl
    · have next : (call + 1) % (2 ^ 32 - 1) = call % (2 ^ 32 - 1) + 1 := by omega
      rw [next]
      omega

theorem uidOf_ne {earlier call : ℕ} (began : 0 < earlier) (before : earlier < call)
    (near : call < earlier + (2 ^ 32 - 1)) : uidOf call ≠ uidOf earlier := by
  obtain ⟨earlier, rfl⟩ := Nat.exists_eq_add_of_lt began
  obtain ⟨call, rfl⟩ := Nat.exists_eq_add_of_lt (Nat.lt_of_le_of_lt (Nat.zero_le _) before)
  simp only [Nat.zero_add] at *
  rw [uidOf_succ, uidOf_succ]
  omega

def Arrival.Sound (proto : Proto Payload) (arrival : Arrival) : Prop :=
  ∃ rpc, arrival.response.rpc proto = .ok rpc ∧ rpc.msgType = RpcType.Resp ∧
    rpc.uid = arrival.uid ∧ arrival.uid ≠ 0

theorem sound_of_classify {proto : Proto Payload} {p : List UInt8} {response : Response}
    {uid : ℕ} (result : classify proto p = .response response uid) (after : ℕ) :
    Arrival.Sound proto ⟨response, uid, after⟩ := by
  unfold classify at result
  split at result
  · cases result
  · dsimp only at result
    split at result
    · cases result
    · split at result
      · cases result
      · split at result
        · cases result
        · rename_i rpc decoded
          split at result
          · cases result
          · split at result
            · rename_i isResponse
              cases result
              refine ⟨rpc, ?_, isResponse.1, rfl, isResponse.2⟩
              simp only [Response.rpc, decoded]
            · cases result

namespace Caller

def inside : Caller Payload T → Bool
  | .idle | .locking _ | .returned _ => false
  | _ => true

def fresh : Caller Payload T → Bool
  | .draining _ _ | .clearing _ _ => true
  | _ => false

def armed : Caller Payload T → Bool
  | .sending _ _ | .waiting _ | .taking _ | .disarming _ _ => true
  | _ => false

def empties : Caller Payload T → Bool
  | .clearing _ _ => true
  | _ => false

def value : Caller Payload T → Option T
  | .returned (.ok value) => some value
  | _ => none

theorem value_eq {caller : Caller Payload T} {value : T} :
    caller.value = some value ↔ caller = .returned (.ok value) := by
  constructor
  · intro has
    unfold Caller.value at has
    split at has
    · cases has
      rfl
    · cases has
  · rintro rfl
    rfl

def Took (arrival : Arrival) : Caller Payload T → Prop
  | .disarming _ response | .unlocking _ response => response = .ok arrival
  | _ => False

end Caller

/-- The receive task found the uid pending and has not filled the slot yet. -/
def Receiver.matched : Receiver → Option Arrival
  | .disarming arrival | .storing arrival => some arrival
  | _ => none

namespace Client

def cleared (client : Client Task Payload T) : ℕ :=
  match client.holder with
  | some task => if (client.callers task).fresh then client.calls - 1 else client.calls
  | none => client.calls

theorem cleared_of {client : Client Task Payload T} {task : Task}
    (holder : client.holder = some task)
    (armed : (client.callers task).armed = true) : client.cleared = client.calls := by
  have old : (client.callers task).fresh = false := by
    cases pc : client.callers task <;> rw [pc] at armed <;> first | rfl | cases armed
  simp [Client.cleared, holder, old]

/-- Whatever lies between the receive task and a call is good for the call
that last emptied the slot. -/
structure Inv (proto : Proto Payload) (good : ℕ → Arrival → Prop)
    (client : Client Task Payload T) : Prop where
  number : client.uid = uidOf client.calls
  holds : ∀ task, (client.callers task).inside = true ↔ client.holder = some task
  pending : client.pendingUid ≠ 0 → client.pendingUid = client.uid ∧
    ∃ task, client.holder = some task ∧ (client.callers task).armed = true
  sound : ∀ arrival, client.receiver = .comparing arrival → arrival.Sound proto
  matched : ∀ arrival, client.receiver.matched = some arrival → good client.cleared arrival
  slot : ∀ arrival, client.response = some arrival → good client.cleared arrival
  took : ∀ task arrival, (client.callers task).Took arrival → good client.calls arrival
  handed : ∀ entry ∈ client.handed, good entry.1 entry.2

namespace Inv

variable {proto : Proto Payload} {good : ℕ → Arrival → Prop} {client : Client Task Payload T}

theorem new : Inv proto good (Client.new : Client Task Payload T) where
  number := rfl
  holds _ := by simp [Client.new, Caller.inside]
  pending armed := absurd rfl armed
  sound _ comparing := by cases comparing
  matched _ matched := by cases matched
  slot _ full := by cases full
  took _ _ took := took.elim
  handed := by simp [Client.new]

theorem setDone (inv : Inv proto good client) (done : Bool) :
    Inv proto good { client with done } :=
  { inv with }

theorem setLink (inv : Inv proto good client) (link : List (UInt8 × List UInt8)) (sent : ℕ) :
    Inv proto good { client with link, sent } :=
  { inv with }

theorem empty (inv : Inv proto good client) : Inv proto good { client with response := none } :=
  { inv with slot := fun _ full => by cases full }

theorem disarm (inv : Inv proto good client) : Inv proto good { client with pendingUid := 0 } :=
  { inv with pending := fun armed => absurd rfl armed }

theorem fill (inv : Inv proto good client) {arrival : Arrival}
    (fits : good client.cleared arrival) :
    Inv proto good { client with response := some arrival } :=
  { inv with
    slot := fun other full => by
      cases full
      exact fits }

theorem setReceiver (inv : Inv proto good client) {receiver : Receiver}
    (sound : ∀ arrival, receiver = .comparing arrival → arrival.Sound proto)
    (matched : ∀ arrival, receiver.matched = some arrival → good client.cleared arrival) :
    Inv proto good { client with receiver } :=
  { inv with sound, matched }

variable {task : Task} {caller : Caller Payload T}

theorem inside_of (inv : Inv proto good client) (task : Task)
    (inside : (client.callers task).inside = true) : client.holder = some task :=
  (inv.holds task).mp inside

/-- No uid is pending while the task with the lock has not set its own. -/
theorem idle_of (inv : Inv proto good client) (holder : client.holder = some task)
    (unarmed : (client.callers task).armed = false) : client.pendingUid = 0 := by
  by_contra pending
  obtain ⟨_, holding, held, armed⟩ := inv.pending pending
  rw [holder, Option.some.injEq] at held
  rw [held, armed] at unarmed
  cases unarmed

theorem arm (inv : Inv proto good client) (holder : client.holder = some task)
    (armed : (client.callers task).armed = true) :
    Inv proto good { client with pendingUid := client.uid } :=
  { inv with pending := fun _ => ⟨rfl, task, holder, armed⟩ }

variable [DecidableEq Task]

theorem took_move (inv : Inv proto good client)
    (took : ∀ arrival, caller.Took arrival → good client.calls arrival) (other : Task)
    (arrival : Arrival) (has : ((client.move task caller).callers other).Took arrival) :
    good client.calls arrival := by
  by_cases same : other = task
  · subst same
    exact took arrival (by simpa [move] using has)
  · exact inv.took other arrival (by simpa [move, same] using has)

theorem moveHolder (inv : Inv proto good client) (caller : Caller Payload T)
    (holder : client.holder = some task)
    (inside : caller.inside = true) (fresh : caller.fresh = (client.callers task).fresh)
    (armed : client.pendingUid ≠ 0 → caller.armed = true)
    (took : ∀ arrival, caller.Took arrival → good client.calls arrival) :
    Inv proto good (client.move task caller) := by
  have cleared : (client.move task caller).cleared = client.cleared := by
    simp [Client.cleared, move, holder, fresh]
  exact
    { number := inv.number
      holds := fun other => by
        by_cases same : other = task
        · subst same
          simp [move, inside, holder]
        · simpa [move, same] using inv.holds other
      pending := fun pending =>
        ⟨(inv.pending pending).1, task, holder, by simpa [move] using armed pending⟩
      sound := inv.sound
      matched := fun arrival matched => cleared ▸ inv.matched arrival matched
      slot := fun arrival full => cleared ▸ inv.slot arrival full
      took := inv.took_move took
      handed := inv.handed }

theorem moveOutside (inv : Inv proto good client)
    (before : (client.callers task).inside = false) (after : caller.inside = false) :
    Inv proto good (client.move task caller) := by
  have other : client.holder ≠ some task := fun holder => by
    rw [(inv.holds task).mpr holder] at before
    cases before
  have cleared : (client.move task caller).cleared = client.cleared := by
    unfold Client.cleared move
    cases holder : client.holder with
    | none => rfl
    | some holding =>
      have apart : holding ≠ task := fun same => other (same ▸ holder)
      simp [apart]
  exact
    { number := inv.number
      holds := fun asked => by
        by_cases same : asked = task
        · subst same
          simp [move, after, other]
        · simpa [move, same] using inv.holds asked
      pending := fun pending => by
        obtain ⟨uid, holding, holder, armed⟩ := inv.pending pending
        have apart : holding ≠ task := fun same => other (same ▸ holder)
        exact ⟨uid, holding, holder, by simpa [move, apart] using armed⟩
      sound := inv.sound
      matched := fun arrival matched => cleared ▸ inv.matched arrival matched
      slot := fun arrival full => cleared ▸ inv.slot arrival full
      took := inv.took_move fun arrival took => by
        cases caller <;> first | exact took.elim | cases after
      handed := inv.handed }

theorem lock (inv : Inv proto good client) (free : client.holder = none)
    {request : Request Payload T}
    {buf : List UInt8} :
    Inv proto good ({ client with
      uid := nextUid client.uid
      holder := some task
      calls := client.calls + 1 }.move task (.draining request buf)) := by
  have idle : client.pendingUid = 0 := by
    by_contra pending
    obtain ⟨_, holding, holder, _⟩ := inv.pending pending
    rw [free] at holder
    cases holder
  have before : client.cleared = client.calls := by simp [Client.cleared, free]
  have outside : ∀ other, (client.callers other).inside = false := fun other => by
    rw [Bool.eq_false_iff]
    intro inside
    rw [(inv.holds other).mp inside] at free
    cases free
  exact
    { number := by simp [move, uidOf, inv.number]
      holds := fun other => by
        by_cases same : other = task
        · subst same
          simp [move, Caller.inside]
        · simp [move, same, outside, Ne.symm same]
      pending := fun pending => absurd idle pending
      sound := inv.sound
      matched := fun arrival matched => by
        have fits := inv.matched arrival matched
        rw [before] at fits
        simpa [Client.cleared, move, Caller.fresh] using fits
      slot := fun arrival full => by
        have fits := inv.slot arrival full
        rw [before] at fits
        simpa [Client.cleared, move, Caller.fresh] using fits
      took := fun other arrival took => by
        by_cases same : other = task
        · subst same
          simp [move, Caller.Took] at took
        · have out := outside other
          simp only [move, Function.update_of_ne same] at took
          cases pc : client.callers other <;> rw [pc] at took out <;>
            first | exact took.elim | cases out
      handed := inv.handed }

theorem clear (inv : Inv proto good client) {request : Request Payload T} {buf : List UInt8}
    (here : client.callers task = .clearing request buf)
    (calm : client.receiver.matched = none) :
    Inv proto good ({ client with response := none }.move task (.arming request buf)) := by
  have holder := inv.inside_of task (by rw [here]; rfl)
  exact
    { number := inv.number
      holds := fun other => by
        by_cases same : other = task
        · subst same
          simp [move, Caller.inside, holder]
        · simpa [move, same] using inv.holds other
      pending := fun pending => absurd (inv.idle_of holder (by rw [here]; rfl)) pending
      sound := inv.sound
      matched := fun arrival matched => by
        simp only [move] at matched
        rw [calm] at matched
        cases matched
      slot := fun _ full => by cases full
      took := fun other arrival took => by
        by_cases same : other = task
        · subst same
          simp [move, Caller.Took] at took
        · exact inv.took other arrival (by simpa [move, same] using took)
      handed := inv.handed }

theorem unlock (inv : Inv proto good client) {request : Request Payload T}
    {response : Except Error Arrival} (here : client.callers task = .unlocking request response)
    {handed : List (ℕ × Arrival)} {value : Except Error T}
    (adds : ∀ entry ∈ handed,
      entry ∈ client.handed ∨ ∃ arrival, response = .ok arrival ∧ entry = (client.calls, arrival)) :
    Inv proto good ({ client with holder := none, handed }.move task (.returned value)) := by
  have holder := inv.inside_of task (by rw [here]; rfl)
  have cleared : client.cleared = client.calls := by
    simp [Client.cleared, holder, here, Caller.fresh]
  exact
    { number := inv.number
      holds := fun other => by
        by_cases same : other = task
        · subst same
          simp [move, Caller.inside]
        · have apart := inv.holds other
          rw [holder] at apart
          simpa [move, same, Ne.symm same] using apart
      pending := fun pending => absurd (inv.idle_of holder (by rw [here]; rfl)) pending
      sound := inv.sound
      matched := fun arrival matched => cleared ▸ inv.matched arrival matched
      slot := fun arrival full => cleared ▸ inv.slot arrival full
      took := fun other arrival took => by
        by_cases same : other = task
        · subst same
          simp [move, Caller.Took] at took
        · exact inv.took other arrival (by simpa [move, same] using took)
      handed := fun entry member => by
        rcases adds entry member with old | ⟨arrival, ok, rfl⟩
        · exact inv.handed entry old
        · exact inv.took task arrival (by rw [here]; exact ok) }

end Inv

/-- The step empties the slot only while the receive task has no response on
its way to it. -/
def Calm (client : Client Task Payload T) : Action Task Payload T → Prop
  | .advance task => (client.callers task).empties = true → client.receiver.matched = none
  | _ => True

def Prompt (client : Client Task Payload T) : Action Task Payload T → Prop
  | .receive =>
    match client.receiver with
    | .comparing arrival => arrival.uid = client.pendingUid → client.calls ≤ arrival.after
    | _ => True
  | _ => True

instance (client : Client Task Payload T) (action : Action Task Payload T) :
    Decidable (client.Calm action) := by
  cases action <;> unfold Calm <;> infer_instance

instance (client : Client Task Payload T) (action : Action Task Payload T) :
    Decidable (client.Prompt action) := by
  cases action <;> unfold Prompt
  case receive => cases client.receiver <;> infer_instance
  all_goals infer_instance

namespace Inv

variable {proto : Proto Payload} {good : ℕ → Arrival → Prop}
  {client after : Client Task Payload T} {task : Task}

theorem onSerial (inv : Inv proto good client) (payload : List UInt8) (flags : UInt8) :
    Inv proto good (client.onSerial proto payload flags) := by
  have setRx : ∀ rx, Inv proto good { client with rx } := fun rx => { inv with }
  unfold Client.onSerial
  extract_lets rx
  split
  · exact setRx _
  · split
    · exact setRx _
    · split
      · rename_i response uid result
        exact (setRx ⟨[], false⟩).setReceiver (fun arrival comparing => by
          cases comparing
          exact sound_of_classify result _) fun _ matched => by cases matched
      · exact setRx _

theorem receive (inv : Inv proto good client) (step : client.receive = some after)
    (fits : ∀ arrival, client.receiver = .comparing arrival → arrival.Sound proto →
      arrival.uid = client.pendingUid → arrival.uid = uidOf client.calls →
      good client.calls arrival) : Inv proto good after := by
  unfold Client.receive at step
  cases at' : client.receiver with
  | idle => simp [at'] at step
  | comparing arrival =>
    simp only [at'] at step
    split at step
    · rename_i same
      simp only [Option.some.injEq] at step
      subst step
      have sound := inv.sound arrival at'
      obtain ⟨_, _, _, _, nonzero⟩ := id sound
      obtain ⟨uid, task, holder, armed⟩ := inv.pending (same ▸ nonzero)
      have cleared : client.cleared = client.calls := cleared_of holder armed
      refine inv.setReceiver (fun _ comparing => by cases comparing) fun other matched => ?_
      cases matched
      rw [cleared]
      exact fits arrival at' sound same (same.trans (uid.trans inv.number))
    · simp only [Option.some.injEq] at step
      subst step
      exact inv.setReceiver (fun _ comparing => by cases comparing) fun _ matched => by cases matched
  | disarming arrival =>
    simp only [at', Option.some.injEq] at step
    subst step
    exact inv.disarm.setReceiver (fun _ comparing => by cases comparing) fun other matched => by
      cases matched
      exact inv.matched arrival (by rw [at']; rfl)
  | storing arrival =>
    simp only [at', Option.some.injEq] at step
    subst step
    exact (inv.fill (inv.matched arrival (by rw [at']; rfl))).setReceiver
      (fun _ comparing => by cases comparing) fun _ matched => by cases matched
  | giving =>
    simp only [at', Option.some.injEq] at step
    subst step
    exact (inv.setDone true).setReceiver (fun _ comparing => by cases comparing)
      fun _ matched => by cases matched

variable [DecidableEq Task]

theorem advance (inv : Inv proto good client) (step : client.advance proto task = some after)
    (calm : client.Calm (.advance task)) : Inv proto good after := by
  unfold Client.advance at step
  have holder := inv.inside_of task
  cases pc : client.callers task with
  | idle => simp [pc] at step
  | locking request =>
    cases free : client.holder with
    | some holding => simp [pc, free] at step
    | none =>
      simp only [pc, free, Option.some.injEq] at step
      subst step
      exact inv.lock free
  | draining request buf =>
    simp only [pc, Option.some.injEq] at step
    subst step
    have holder := holder (by rw [pc]; rfl)
    have idle : client.pendingUid = 0 := inv.idle_of holder (by rw [pc]; rfl)
    exact (inv.setDone false).moveHolder _ holder rfl (by rw [pc]; rfl)
      (fun pending => absurd idle pending) fun _ took => took.elim
  | clearing request buf =>
    simp only [pc, Option.some.injEq] at step
    subst step
    exact inv.clear pc (calm (by rw [pc]; rfl))
  | arming request buf =>
    simp only [pc] at step
    have holder := holder (by rw [pc]; rfl)
    have idle : client.pendingUid = 0 := inv.idle_of holder (by rw [pc]; rfl)
    split at step
    · simp only [Option.some.injEq] at step
      subst step
      have moved := inv.moveHolder (.disarming request (.error .INVALID_SIZE)) holder rfl
        (by rw [pc]; rfl) (fun pending => absurd idle pending) fun _ took => by cases took
      exact moved.arm holder (by simp [move, Caller.armed])
    · simp only [Option.some.injEq] at step
      subst step
      have moved := inv.moveHolder (.sending request (fragments buf.length buf)) holder rfl
        (by rw [pc]; rfl) (fun pending => absurd idle pending) fun _ took => took.elim
      exact moved.arm holder (by simp [move, Caller.armed])
  | sending request left =>
    have holder := holder (by rw [pc]; rfl)
    have next : ∀ later : Caller Payload T, later.inside = true → later.fresh = false →
        later.armed = true → (∀ arrival, ¬ later.Took arrival) →
        Inv proto good (client.move task later) := fun later inside fresh armed took =>
      inv.moveHolder _ holder inside (by rw [fresh, pc]; rfl) (fun _ => armed)
        fun arrival has => (took arrival has).elim
    match left with
    | [] =>
      simp only [pc, Option.some.injEq] at step
      subst step
      exact next _ rfl rfl rfl fun _ took => took
    | [fragment] =>
      simp only [pc, Option.some.injEq] at step
      subst step
      exact (next (.waiting request) rfl rfl rfl fun _ took => took).setLink _ _
    | fragment :: second :: left =>
      simp only [pc, Option.some.injEq] at step
      subst step
      exact (next (.sending request (second :: left)) rfl rfl rfl fun _ took => took).setLink
        _ client.sent
  | waiting request =>
    simp only [pc] at step
    split at step
    · simp only [Option.some.injEq] at step
      subst step
      exact (inv.setDone false).moveHolder _ (holder (by rw [pc]; rfl)) rfl (by rw [pc]; rfl)
        (fun _ => rfl) fun _ took => took.elim
    · cases step
  | taking request =>
    simp only [pc, Option.some.injEq] at step
    subst step
    have holder := holder (by rw [pc]; rfl)
    have cleared : client.cleared = client.calls := by
      simp [Client.cleared, holder, pc, Caller.fresh]
    refine inv.empty.moveHolder _ holder rfl (by rw [pc]; rfl) (fun _ => rfl) fun arrival took => ?_
    cases full : client.response with
    | none => simp [full, Caller.Took] at took
    | some found =>
      have same : found = arrival := by simpa [full, Caller.Took] using took
      have fits := inv.slot found full
      rw [cleared, same] at fits
      exact fits
  | disarming request response =>
    simp only [pc, Option.some.injEq] at step
    subst step
    exact inv.disarm.moveHolder _ (holder (by rw [pc]; rfl)) rfl (by rw [pc]; rfl)
      (fun pending => absurd rfl pending) fun arrival took => inv.took task arrival (by rw [pc]; exact took)
  | unlocking request response =>
    simp only [pc, Option.some.injEq] at step
    subst step
    refine inv.unlock pc fun entry member => ?_
    cases response with
    | error error => exact .inl member
    | ok arrival =>
      rcases List.mem_append.mp member with old | new
      · exact .inl old
      · exact .inr ⟨arrival, rfl, List.mem_singleton.mp new⟩
  | returned value =>
    simp only [pc, Option.some.injEq] at step
    subst step
    exact inv.moveOutside (by rw [pc]; rfl) rfl

theorem step (inv : Inv proto good client) {action : Action Task Payload T}
    (step : client.step proto action = some after) (calm : client.Calm action)
    (fits : action = .receive → ∀ arrival, client.receiver = .comparing arrival →
      arrival.Sound proto → arrival.uid = client.pendingUid → arrival.uid = uidOf client.calls →
      good client.calls arrival) : Inv proto good after := by
  cases action with
  | begin task request =>
    simp only [Client.step] at step
    split at step
    · rename_i pc
      cases step
      exact inv.moveOutside (by rw [pc]; rfl) rfl
    · cases step
  | advance task => exact inv.advance step calm
  | sendFails task error =>
    simp only [Client.step] at step
    split at step
    · rename_i request fragment left pc
      cases step
      exact inv.moveHolder _ (inv.inside_of task (by rw [pc]; rfl)) rfl (by rw [pc]; rfl) (fun _ => rfl)
        fun _ took => by cases took
    · cases step
  | timesOut task =>
    simp only [Client.step] at step
    split at step
    · rename_i request pc
      split at step
      · cases step
      · cases step
        exact inv.moveHolder _ (inv.inside_of task (by rw [pc]; rfl)) rfl (by rw [pc]; rfl) (fun _ => rfl)
          fun _ took => by cases took
    · cases step
  | onSerial payload flags =>
    simp only [Client.step] at step
    split at step
    · cases step
      exact inv.onSerial payload flags
    · cases step
  | receive => exact inv.receive step (fits rfl)

end Inv

variable [DecidableEq Task]

def Next (proto : Proto Payload) (meets : Client Task Payload T → Action Task Payload T → Prop)
    (before after : Client Task Payload T) : Prop :=
  ∃ action, meets before action ∧ before.step proto action = some after

/-- The response carries the uid of this call, and of none of the calls before
it since uids last repeated. -/
def OfCall (proto : Proto Payload) (call : ℕ) (arrival : Arrival) : Prop :=
  ∃ rpc, arrival.response.rpc proto = .ok rpc ∧ rpc.msgType = RpcType.Resp ∧
    rpc.uid = uidOf call ∧
    ∀ earlier, 0 < earlier → earlier < call → call < earlier + (2 ^ 32 - 1) →
      rpc.uid ≠ uidOf earlier

theorem ofCall_of_sound {proto : Proto Payload} {call : ℕ} {arrival : Arrival}
    (sound : arrival.Sound proto) (uid : arrival.uid = uidOf call) : OfCall proto call arrival := by
  obtain ⟨rpc, decoded, isResponse, same, _⟩ := sound
  refine ⟨rpc, decoded, isResponse, same.trans uid, fun earlier began before near => ?_⟩
  rw [same, uid]
  exact uidOf_ne began before near

/-- As long as no call empties the slot between a match and the slot being
filled, a call returns only a response that carries its uid; and when no
response with a pending uid came in before the request went out, it came in
after. -/
theorem call_returns_own_response (proto : Proto Payload) :
    (∀ client : Client Task Payload T,
      Reachable (· = Client.new) (Next proto Calm) client →
        ∀ entry ∈ client.handed, OfCall proto entry.1 entry.2) ∧
    ∀ client : Client Task Payload T,
      Reachable (· = Client.new)
          (Next proto fun client action => client.Calm action ∧ client.Prompt action) client →
        ∀ entry ∈ client.handed, OfCall proto entry.1 entry.2 ∧ entry.1 ≤ entry.2.after := by
  constructor
  · intro client reachable
    have inv : Inv proto (OfCall proto) client :=
      reachable.invariant (fun _ start => start ▸ Inv.new)
        fun before after inv ⟨action, calm, step⟩ =>
          inv.step step calm fun _ arrival _ sound _ uid => ofCall_of_sound sound uid
    exact inv.handed
  · intro client reachable
    have inv : Inv proto (fun call arrival => OfCall proto call arrival ∧ call ≤ arrival.after)
        client :=
      reachable.invariant (fun _ start => start ▸ Inv.new)
        fun before after inv ⟨action, ⟨calm, prompt⟩, step⟩ =>
          inv.step step calm fun isReceive arrival comparing sound same uid =>
            ⟨ofCall_of_sound sound uid, by
              subst isReceive
              simp only [Prompt, comparing] at prompt
              exact prompt same⟩
    exact inv.handed

def run (proto : Proto Payload) (meets : Client Task Payload T → Action Task Payload T → Prop)
    [∀ client action, Decidable (meets client action)] (client : Client Task Payload T) :
    List (Action Task Payload T) → Option (Client Task Payload T)
  | [] => some client
  | action :: rest =>
    if meets client action then
      match client.step proto action with
      | some client => run proto meets client rest
      | none => none
    else none

theorem reachable_of_run {proto : Proto Payload}
    {meets : Client Task Payload T → Action Task Payload T → Prop}
    [∀ client action, Decidable (meets client action)] {client after : Client Task Payload T}
    (start : Reachable (· = Client.new) (Next proto meets) client)
    {actions : List (Action Task Payload T)}
    (result : client.run proto meets actions = some after) :
    Reachable (· = Client.new) (Next proto meets) after := by
  induction actions generalizing client with
  | nil =>
    cases result
    exact start
  | cons action rest ih =>
    rw [run] at result
    split at result
    · rename_i met
      split at result
      · rename_i next step
        exact ih (.next start ⟨action, met, step⟩) result
      · cases result
    · cases result

/-- The coding of `Rpc`, for two-byte ids and one-byte uids, a payload being its
field as it is coded. -/
def shortProto : Proto (List UInt8) where
  encode rpc :=
    [8, UInt8.ofNat rpc.msgType, 16, UInt8.ofNat (128 + rpc.msgId % 128),
      UInt8.ofNat (rpc.msgId / 128), 24, UInt8.ofNat rpc.uid] ++ rpc.payload.getD []
  decode
    | 8 :: msgType :: 16 :: low :: high :: 24 :: uid :: field =>
      some ⟨msgType.toNat, low.toNat - 128 + 128 * high.toNat, uid.toNat,
        if field = [] then none else some field⟩
    | _ => none
  respBase := 512

/-- `Req_GetWifiMode`, of which the mode is picked out. -/
def getWifiMode : Request (List UInt8) UInt8 := ⟨259, some [154, 16, 0], fun field => field[4]?.map .ok⟩

/-- `Resp_GetWifiMode` with the uid and the mode, around it the serial message. -/
def wifiMode (uid mode : UInt8) : List UInt8 :=
  serial [8, 2, 16, 131, 4, 24, uid, 154, 32, 2, 8, mode]

def asks : List (Action Unit (List UInt8) UInt8) :=
  .begin () getWifiMode :: List.replicate 5 (.advance ())

def answered : List (Action Unit (List UInt8) UInt8) :=
  asks ++ [.onSerial (wifiMode 1 3) 0] ++ List.replicate 4 .receive ++ List.replicate 4 (.advance ())

/-- The response to the first call is found pending, the call times out and
returns, and the second call empties the slot before it is filled. -/
def crossing : List (Action Unit (List UInt8) UInt8) :=
  asks ++ [.onSerial (wifiMode 1 7) 0, .receive, .timesOut ()] ++ List.replicate 3 (.advance ()) ++
    [.begin () getWifiMode] ++ List.replicate 3 (.advance ()) ++ List.replicate 3 .receive ++
    List.replicate 6 (.advance ())

/-- The second call returns the response to the first one. -/
theorem stale_response_returned :
    ∃ client : Client Unit (List UInt8) UInt8,
      Reachable (· = Client.new) (Next shortProto fun _ _ => True) client ∧
      client.callers () = .returned (.ok 7) ∧
      ∃ entry ∈ client.handed, entry.1 = 2 ∧ ¬ OfCall shortProto entry.1 entry.2 := by
  obtain ⟨client, result⟩ : ∃ client,
      (Client.new.run shortProto (fun _ _ => True) crossing) = some client :=
    Option.isSome_iff_exists.mp (by decide +kernel)
  have value : (Client.new.run shortProto (fun _ _ => True) crossing).map
      (fun client => (client.callers ()).value) = some (some 7) := by decide +kernel
  have handed : (Client.new.run shortProto (fun _ _ => True) crossing).map Client.handed =
      some [(2, ⟨⟨wifiMode 1 7, 12, 12⟩, 1, 1⟩)] := by decide +kernel
  rw [result] at value handed
  simp only [Option.map_some, Option.some.injEq] at value handed
  have member : (2, ⟨⟨wifiMode 1 7, 12, 12⟩, 1, 1⟩) ∈ client.handed := by
    rw [handed]
    exact List.mem_singleton.mpr rfl
  refine ⟨client, reachable_of_run (.start rfl) result, Caller.value_eq.mp value, _, member, rfl, ?_⟩
  rintro ⟨rpc, decoded, -, uid, -⟩
  have first : Response.rpc shortProto ⟨wifiMode 1 7, 12, 12⟩ =
      .ok ⟨2, 515, 1, some [154, 32, 2, 8, 7]⟩ := by rfl
  rw [first] at decoded
  cases decoded
  exact absurd uid (by decide)

/-- A call that returns the response to it. -/
theorem call_returns_own_response_once :
    ∃ client : Client Unit (List UInt8) UInt8,
      client.callers () = .returned (.ok 3) ∧
      ∃ entry ∈ client.handed, entry.1 = 1 ∧ OfCall shortProto entry.1 entry.2 ∧
        entry.1 ≤ entry.2.after := by
  obtain ⟨client, result⟩ : ∃ client, (Client.new.run shortProto
      (fun client action => client.Calm action ∧ client.Prompt action) answered) = some client :=
    Option.isSome_iff_exists.mp (by decide +kernel)
  have value : (Client.new.run shortProto
      (fun client action => client.Calm action ∧ client.Prompt action) answered).map
      (fun client => (client.callers ()).value) = some (some 3) := by decide +kernel
  have handed : (Client.new.run shortProto
      (fun client action => client.Calm action ∧ client.Prompt action) answered).map Client.handed =
      some [(1, ⟨⟨wifiMode 1 3, 12, 12⟩, 1, 1⟩)] := by decide +kernel
  rw [result] at value handed
  simp only [Option.map_some, Option.some.injEq] at value handed
  have member : (1, ⟨⟨wifiMode 1 3, 12, 12⟩, 1, 1⟩) ∈ client.handed := by
    rw [handed]
    exact List.mem_singleton.mpr rfl
  exact ⟨client, Caller.value_eq.mp value, _, member, rfl,
    (call_returns_own_response shortProto).2 client (reachable_of_run (.start rfl) result) _ member⟩

end Client

end EspDevkit.EspHosted
