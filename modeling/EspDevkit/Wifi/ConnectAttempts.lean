import EspDevkit.Library.OneShot
import EspDevkit.Wifi.Manager

/-!
# The callbacks of the Wi-Fi manager

A callback is in its slot, on its way to be called by the thread that moved it
out, or called.
-/

namespace EspDevkit.Wifi

open OneShot Transition List

def Job.connectCall : Job → Option (ℕ × Result)
  | .callConnect attempt result => some (attempt, result)
  | _ => none

def Job.scanCall : Job → Option (ℕ × Result × List AP)
  | .callScan number result accessPoints => some (number, result, accessPoints)
  | _ => none

namespace Shared

variable {shared : Shared} {answer : Answer}

def connectAccount (shared : Shared) : Account Result :=
  ⟨shared.attempts, shared.connectCallback, shared.called⟩

def scanAccount (shared : Shared) : Account (Result × List AP) :=
  ⟨shared.scans, shared.scanCallback, shared.scanned⟩

structure Slot (shared : Shared) : Prop where
  connecting : shared.connecting = shared.connectCallback.isSome
  off : shared.state = .Off → shared.connecting = false

theorem connectCalls_pick (result : Result) :
    (shared.connectCalls result).filterMap Job.connectCall =
      shared.connectCallback.toList.map fun attempt => (attempt, result) := by
  rw [connectCalls]
  cases shared.connectCallback <;> rfl

theorem scanCalls_pick (result : Result) (accessPoints : List AP) :
    (shared.scanCalls result accessPoints).filterMap Job.scanCall =
      shared.scanCallback.toList.map fun scan => (scan, result, accessPoints) := by
  rw [scanCalls]
  cases shared.scanCallback <;> rfl

theorem connectCalls_scanCall (result : Result) :
    (shared.connectCalls result).filterMap Job.scanCall = [] := by
  rw [connectCalls]
  cases shared.connectCallback <;> rfl

theorem scanCalls_connectCall (result : Result) (accessPoints : List AP) :
    (shared.scanCalls result accessPoints).filterMap Job.connectCall = [] := by
  rw [scanCalls]
  cases shared.scanCallback <;> rfl

theorem Slot.completeAttempt (slot : shared.Slot) (cause : Cause) :
    shared.completeAttempt cause =
      (shared.endAttempt cause, shared.connectCalls cause.result) := by
  rw [Shared.completeAttempt]
  split
  · rfl
  · rename_i idle
    have both := slot.connecting
    have empty : shared.connectCallback = none := by
      cases held : shared.connectCallback with
      | none => rfl
      | some attempt => exact absurd (both.trans (by rw [held]; rfl)) idle
    have still : shared.endAttempt cause = shared := by
      rw [empty] at both
      cases shared
      simp only at both empty
      simp only [Shared.endAttempt, both, empty, Option.isSome_none, Option.toList_none,
        map_nil, append_nil]
    rw [still, connectCalls, empty]
    rfl

theorem Slot.terminal (slot : shared.Slot) {state : State} (ip : String) (cause : Cause)
    (off : state = .Off → shared.state = .Off) :
    let after := { shared with state := state, ip := ip }.endAttempt cause
    shared.terminal answer state ip cause =
      (after, shared.connectCalls cause.result ++ [.notify (after.snapshotLocked answer)]) := by
  intro after
  have moved : { shared with state := state, ip := ip }.Slot :=
    ⟨slot.connecting, fun isOff => slot.off (off isOff)⟩
  simp only [Shared.terminal, moved.completeAttempt]
  rfl

def switchedOff (shared : Shared) : Shared :=
  { shared.endAttempt .disabled with ip := "", ssid := "", state := .Off }

theorem applyEnabled_cases (slot : shared.Slot) (answer : Answer) (enabled : Bool) :
    shared.applyEnabled answer enabled = (shared, []) ∨
      (shared.state = .Off ∧ shared.applyEnabled answer enabled =
        ({ shared with state := .Disconnected }, [.radio true,
          .notify ({ shared with state := .Disconnected }.snapshotLocked answer)])) ∨
      (enabled = false ∧ shared.applyEnabled answer enabled =
        (shared.switchedOff, [.radio false] ++ shared.connectCalls .Failed ++
          [.notify (shared.switchedOff.snapshotLocked answer)])) := by
  rw [applyEnabled]
  by_cases unchanged : ¬shared.backend = true ∨ enabled = decide (shared.state ≠ .Off)
  · exact .inl (if_pos unchanged)
  rw [if_neg unchanged]
  obtain ⟨_, differs⟩ := not_or.mp unchanged
  cases enabled with
  | true =>
    have off : shared.state = .Off := by
      by_contra on
      exact differs (by simp [on])
    exact .inr (.inl ⟨off, rfl⟩)
  | false =>
    refine .inr (.inr ⟨rfl, ?_⟩)
    simp only [slot.completeAttempt]
    rfl

end Shared

structure Job.Leaves (before : Shared) (job : Job) (after : Shared × List Job) : Prop where
  connects : after.1.connectAccount = before.connectAccount
  scans : after.1.scanAccount = before.scanAccount
  ended : after.1.ended = before.ended
  connecting : after.1.connecting = before.connecting
  off : after.1.state = .Off → before.state = .Off
  noConnectCall : after.2.filterMap Job.connectCall = []
  noScanCall : after.2.filterMap Job.scanCall = []
  ownConnect : job.connectCall = none
  ownScan : job.scanCall = none

namespace Job

variable {shared : Shared} {answer : Answer}

theorem Leaves.enqueue {job : Job} (item : WorkItem) (ownConnect : job.connectCall = none)
    (ownScan : job.scanCall = none) : job.Leaves shared (shared.enqueue item) := by
  rw [Shared.enqueue]
  split
  · exact ⟨rfl, rfl, rfl, rfl, id, rfl, rfl, ownConnect, ownScan⟩
  · exact ⟨rfl, rfl, rfl, rfl, id, rfl, rfl, ownConnect, ownScan⟩

def Touches : Job → Prop
  | .scan | .onScanResult .. | .callScan .. | .connect .. | .connectSaved _ | .onGotIp ..
  | .onDisconnected .. | .callConnect .. | .timedOut _ | .disconnect | .applyEnabled _ => True
  | _ => False

theorem leaves (answer : Answer) {job : Job} (plain : ¬job.Touches) :
    job.Leaves shared (job.perform shared answer) := by
  cases job with
  | userCode | notify | armTimeout | backendDisconnect | backendStart | radio =>
    exact ⟨rfl, rfl, rfl, rfl, id, rfl, rfl, rfl, rfl⟩
  | done item =>
    rw [Job.perform]
    split
    · exact ⟨rfl, rfl, rfl, rfl, id, rfl, rfl, rfl, rfl⟩
    · exact ⟨rfl, rfl, rfl, rfl, id, rfl, rfl, rfl, rfl⟩
  | setEnabled | autoconnectSaved | start => exact .enqueue _ rfl rfl
  | backendScan | backendConnect =>
    simp only [Job.perform, Shared.backendScan, Shared.backendConnect]
    split
    · exact ⟨rfl, rfl, rfl, rfl, id, rfl, rfl, rfl, rfl⟩
    · exact ⟨rfl, rfl, rfl, rfl, id, rfl, rfl, rfl, rfl⟩
  | saveCredentials | forget =>
    simp only [Job.perform, Shared.saveCredentials]
    split
    · exact ⟨rfl, rfl, rfl, rfl, id, rfl, rfl, rfl, rfl⟩
    · exact ⟨rfl, rfl, rfl, rfl, id, rfl, rfl, rfl, rfl⟩
  | timeoutCallback | bringUp =>
    simp only [Job.perform, Shared.timeoutCallback, Shared.bringUp]
    split
    · exact ⟨rfl, rfl, rfl, rfl, id, rfl, rfl, rfl, rfl⟩
    · exact ⟨rfl, rfl, rfl, rfl, id, rfl, rfl, rfl, rfl⟩
  | doAutoconnect =>
    simp only [Job.perform, Shared.doAutoconnect]
    split
    · exact ⟨rfl, rfl, rfl, rfl, id, rfl, rfl, rfl, rfl⟩
    · exact ⟨rfl, rfl, rfl, rfl, id, rfl, rfl, rfl, rfl⟩
  | ready =>
    refine ⟨rfl, rfl, rfl, rfl, fun off => ?_, rfl, rfl, rfl, rfl⟩
    by_contra on
    have kept : (if shared.state = .Off then State.Disconnected else shared.state) = .Off := off
    rw [if_neg on] at kept
    exact on kept
  | scan | onScanResult | callScan | connect | connectSaved | onGotIp | onDisconnected
  | callConnect | timedOut | disconnect | applyEnabled => exact absurd trivial plain

theorem connectCalls_fst (slot : Option ℕ) (result : Result) :
    (slot.toList.map fun attempt => (attempt, result)).map Prod.fst = slot.toList := by
  cases slot <;> rfl

theorem scanCalls_fst (slot : Option ℕ) (arguments : Result × List AP) :
    (slot.toList.map fun scan => (scan, arguments)).map Prod.fst = slot.toList := by
  cases slot <;> rfl

theorem terminal_effect (slot : shared.Slot) {state : State} (ip : String) (cause : Cause)
    (off : state = .Off → shared.state = .Off) :
    shared.connectAccount.Effect (shared.terminal answer state ip cause).1.connectAccount none
      ((shared.terminal answer state ip cause).2.filterMap Job.connectCall) .take := by
  rw [slot.terminal ip cause off]
  refine ⟨rfl, ?_, rfl⟩
  rw [filterMap_append, Shared.connectCalls_pick]
  exact (congrArg _ (append_nil _)).trans (connectCalls_fst _ _)

/-- What a job does to the connection callbacks: `disconnect` alone drops one. -/
theorem connect_effect (slot : shared.Slot) (answer : Answer) (job : Job) :
    ∃ move, (move = .drop → job = .disconnect) ∧
      shared.connectAccount.Effect (job.perform shared answer).1.connectAccount job.connectCall
        ((job.perform shared answer).2.filterMap Job.connectCall) move := by
  by_cases plain : ¬job.Touches
  · obtain ⟨same, _, _, _, _, quiet, _, own, _⟩ := leaves answer plain
    exact ⟨.stay, nofun, own, quiet, same⟩
  cases job with
  | scan =>
    refine ⟨.stay, nofun, rfl, ?_, rfl⟩
    simp only [perform, Shared.scan, filterMap_append, Shared.scanCalls_connectCall]
    split <;> rfl
  | onScanResult result accessPoints =>
    exact ⟨.stay, nofun, rfl, Shared.scanCalls_connectCall _ _, rfl⟩
  | callScan => exact ⟨.stay, nofun, rfl, rfl, rfl⟩
  | connect ssid password timeoutMs =>
    refine ⟨.issue, nofun, rfl, ?_, rfl⟩
    simp only [perform, Shared.connect, filterMap_append, Shared.connectCalls_pick]
    split
    · exact (congrArg _ (append_nil _)).trans
        ((congrArg _ (append_nil _)).trans (connectCalls_fst _ _))
    · exact (congrArg _ (append_nil _)).trans
        ((congrArg _ (append_nil _)).trans (connectCalls_fst _ _))
  | connectSaved timeoutMs =>
    simp only [perform, Shared.connectSaved]
    split
    · exact ⟨.refuse, nofun, rfl, rfl, .Failed, rfl⟩
    · exact ⟨.stay, nofun, rfl, rfl, rfl⟩
  | onGotIp origin ip => exact ⟨.take, nofun, terminal_effect slot ip _ nofun⟩
  | onDisconnected origin reason =>
    refine ⟨.take, nofun, terminal_effect slot "" _ fun off => ?_⟩
    by_contra on
    rw [if_pos on] at off
    cases off
  | callConnect attempt result => exact ⟨.call, nofun, rfl, _, rfl, rfl⟩
  | timedOut origin =>
    simp only [perform, Shared.timedOut]
    split
    · exact ⟨.take, nofun, terminal_effect slot _ _ nofun⟩
    · exact ⟨.stay, nofun, rfl, rfl, rfl⟩
  | disconnect =>
    refine ⟨.drop, fun _ => rfl, rfl, ?_, rfl⟩
    simp only [perform, Shared.disconnect, filterMap_append]
    split <;> rfl
  | applyEnabled enabled =>
    rcases Shared.applyEnabled_cases slot answer enabled with same | ⟨_, same⟩ | ⟨_, same⟩
    · rw [perform, same]
      exact ⟨.stay, nofun, rfl, rfl, rfl⟩
    · rw [perform, same]
      exact ⟨.stay, nofun, rfl, rfl, rfl⟩
    · rw [perform, same]
      refine ⟨.take, nofun, rfl, ?_, rfl⟩
      rw [filterMap_append, filterMap_append, Shared.connectCalls_pick]
      exact (congrArg _ (append_nil _)).trans (connectCalls_fst _ _)
  | _ => exact absurd nofun plain

theorem scan_effect (slot : shared.Slot) (answer : Answer) (job : Job) :
    ∃ move, move ≠ .drop ∧
      shared.scanAccount.Effect (job.perform shared answer).1.scanAccount job.scanCall
        ((job.perform shared answer).2.filterMap Job.scanCall) move := by
  by_cases plain : ¬job.Touches
  · obtain ⟨_, same, _, _, _, _, quiet, _, own⟩ := leaves answer plain
    exact ⟨.stay, nofun, own, quiet, same⟩
  have terminal : ∀ {state : State} (ip : String) (cause : Cause),
      (state = .Off → shared.state = .Off) →
        shared.scanAccount.Effect (shared.terminal answer state ip cause).1.scanAccount none
          ((shared.terminal answer state ip cause).2.filterMap Job.scanCall) .stay := by
    intro state ip cause off
    rw [slot.terminal ip cause off]
    refine ⟨rfl, ?_, rfl⟩
    rw [filterMap_append, Shared.connectCalls_scanCall]
    rfl
  cases job with
  | scan =>
    refine ⟨.issue, nofun, rfl, ?_, rfl⟩
    simp only [perform, Shared.scan, filterMap_append, Shared.scanCalls_pick]
    split
    · exact (congrArg _ (append_nil _)).trans (scanCalls_fst _ _)
    · exact (congrArg _ (append_nil _)).trans (scanCalls_fst _ _)
  | onScanResult result accessPoints =>
    refine ⟨.take, nofun, rfl, ?_, rfl⟩
    simp only [perform, Shared.onScanResult, Shared.scanCalls_pick]
    exact scanCalls_fst _ _
  | callScan => exact ⟨.call, nofun, rfl, _, rfl, rfl⟩
  | connect ssid password timeoutMs =>
    refine ⟨.stay, nofun, rfl, ?_, rfl⟩
    simp only [perform, Shared.connect, filterMap_append, Shared.connectCalls_scanCall]
    split <;> rfl
  | connectSaved timeoutMs =>
    simp only [perform, Shared.connectSaved]
    split
    · exact ⟨.stay, nofun, rfl, rfl, rfl⟩
    · exact ⟨.stay, nofun, rfl, rfl, rfl⟩
  | onGotIp origin ip => exact ⟨.stay, nofun, terminal ip _ nofun⟩
  | onDisconnected origin reason =>
    refine ⟨.stay, nofun, terminal "" _ fun off => ?_⟩
    by_contra on
    rw [if_pos on] at off
    cases off
  | callConnect attempt result => exact ⟨.stay, nofun, rfl, rfl, rfl⟩
  | timedOut origin =>
    simp only [perform, Shared.timedOut]
    split
    · exact ⟨.stay, nofun, terminal _ _ nofun⟩
    · exact ⟨.stay, nofun, rfl, rfl, rfl⟩
  | disconnect =>
    refine ⟨.stay, nofun, rfl, ?_, rfl⟩
    simp only [perform, Shared.disconnect, filterMap_append]
    split <;> rfl
  | applyEnabled enabled =>
    refine ⟨.stay, nofun, rfl, ?_⟩
    rcases Shared.applyEnabled_cases slot answer enabled with same | ⟨_, same⟩ | ⟨_, same⟩
    · rw [perform, same]
      exact ⟨rfl, rfl⟩
    · rw [perform, same]
      exact ⟨rfl, rfl⟩
    · rw [perform, same]
      refine ⟨?_, rfl⟩
      rw [filterMap_append, filterMap_append, Shared.connectCalls_scanCall]
      rfl
  | _ => exact absurd nofun plain

end Job

end EspDevkit.Wifi

/-!
## How attempts end

An attempt is in progress while its callback is in the slot, and ends once.
What its callback is called with is the result of its end.
-/

namespace EspDevkit.Wifi

open OneShot List

inductive Job.Ends : Job → Cause → Prop
  | superseded (ssid password : String) (timeoutMs : Int) :
      Job.Ends (.connect ssid password timeoutMs) .superseded
  | address (origin : Option ℕ) (ip : String) : Job.Ends (.onGotIp origin ip) (.address origin)
  | failure (origin : Option ℕ) (reason : Result) :
      Job.Ends (.onDisconnected origin reason) (.failure origin reason)
  | timeout (origin : ℕ) : Job.Ends (.timedOut origin) (.timeout origin)
  | disabled : Job.Ends (.applyEnabled false) .disabled
  | disconnected : Job.Ends .disconnect .disconnected

namespace Shared

def attemptLedger (shared : Shared) : Ledger Unit :=
  .closed shared.attempts shared.connectCallback (shared.ended.map Prod.fst)

def Due (shared : Shared) (call : ℕ × Result) : Prop :=
  ∃ cause, (call.1, cause) ∈ shared.ended ∧ cause.result = call.2

theorem Due.mono {before after : Shared} {call : ℕ × Result} (due : before.Due call)
    (grows : ∀ entry ∈ before.ended, entry ∈ after.ended) : after.Due call :=
  due.imp fun _ ⟨mem, result⟩ => ⟨grows _ mem, result⟩

def Closes (before after : Shared) (cause : Cause) : Prop :=
  after.ended =
    before.ended ++ before.connectCallback.toList.map fun attempt => (attempt, cause)

end Shared

inductive Job.AttemptEffect (before : Shared) (job : Job) (after : Shared)
    (calls : List (ℕ × Result)) : Prop
  | stay : after.attempts = before.attempts → after.connectCallback = before.connectCallback →
      after.ended = before.ended → calls = [] →
      (∀ call ∈ after.called, call ∈ before.called ∨ job.connectCall = some call) →
        AttemptEffect before job after calls
  | ends (cause : Cause) : job.Ends cause → before.Closes after cause →
      after.attempts = before.attempts → after.connectCallback = none →
      (∀ call ∈ calls, call ∈ before.connectCallback.toList.map fun attempt =>
        (attempt, cause.result)) → after.called = before.called →
        AttemptEffect before job after calls
  | begins (cause : Cause) : job.Ends cause → before.Closes after cause →
      after.attempts = before.attempts + 1 → after.connectCallback = some before.attempts →
      (∀ call ∈ calls, call ∈ before.connectCallback.toList.map fun attempt =>
        (attempt, cause.result)) → after.called = before.called →
        AttemptEffect before job after calls
  | refuses : after.attempts = before.attempts + 1 →
      after.connectCallback = before.connectCallback →
      after.ended = before.ended ++ [(before.attempts, .unsaved)] → calls = [] →
      after.called = before.called ++ [(before.attempts, .Failed)] →
        AttemptEffect before job after calls

namespace Job

variable {shared : Shared} {answer : Answer}

theorem terminal_attempt (slot : shared.Slot) {state : State} (ip : String) {job : Job}
    {cause : Cause} (brings : job.Ends cause) (off : state = .Off → shared.state = .Off) :
    job.AttemptEffect shared (shared.terminal answer state ip cause).1
      ((shared.terminal answer state ip cause).2.filterMap Job.connectCall) := by
  rw [slot.terminal ip cause off]
  refine .ends cause brings rfl rfl rfl (fun call mem => ?_) rfl
  rw [filterMap_append, Shared.connectCalls_pick] at mem
  exact (mem_append.mp mem).resolve_right nofun

theorem attempt_effect (slot : shared.Slot) (answer : Answer) (job : Job) :
    job.AttemptEffect shared (job.perform shared answer).1
      ((job.perform shared answer).2.filterMap Job.connectCall) := by
  have old : ∀ {after : Shared}, after.called = shared.called →
      ∀ call ∈ after.called, call ∈ shared.called ∨ job.connectCall = some call :=
    fun same call mem => .inl (same ▸ mem)
  by_cases plain : ¬job.Touches
  · obtain ⟨same, _, ended, _, _, quiet, _, _, _⟩ := leaves answer plain
    rw [Account.ext_iff] at same
    exact .stay same.1 same.2.1 ended quiet (old same.2.2)
  cases job with
  | scan =>
    refine .stay rfl rfl rfl ?_ (old rfl)
    simp only [perform, Shared.scan, filterMap_append, Shared.scanCalls_connectCall]
    split <;> rfl
  | onScanResult result accessPoints =>
    exact .stay rfl rfl rfl (Shared.scanCalls_connectCall _ _) (old rfl)
  | callScan => exact .stay rfl rfl rfl rfl (old rfl)
  | connect ssid password timeoutMs =>
    refine .begins .superseded (.superseded ..) rfl rfl rfl (fun call mem => ?_) rfl
    simp only [perform, Shared.connect, filterMap_append, Shared.connectCalls_pick] at mem
    split at mem
    · exact (mem_append.mp ((mem_append.mp mem).resolve_right nofun)).resolve_right
        nofun
    · exact (mem_append.mp ((mem_append.mp mem).resolve_right nofun)).resolve_right
        nofun
  | connectSaved timeoutMs =>
    simp only [perform, Shared.connectSaved]
    split
    · exact .refuses rfl rfl rfl rfl rfl
    · exact .stay rfl rfl rfl rfl (old rfl)
  | onGotIp origin ip => exact terminal_attempt slot ip (.address origin ip) nofun
  | onDisconnected origin reason =>
    refine terminal_attempt slot "" (.failure origin reason) fun off => ?_
    by_contra on
    rw [if_pos on] at off
    cases off
  | callConnect attempt result =>
    refine .stay rfl rfl rfl rfl fun call mem => ?_
    rcases mem_append.mp mem with mem | mem
    · exact .inl mem
    · exact .inr (congrArg some (mem_singleton.mp mem).symm)
  | timedOut origin =>
    simp only [perform, Shared.timedOut]
    split
    · exact terminal_attempt slot _ (.timeout origin) nofun
    · exact .stay rfl rfl rfl rfl (old rfl)
  | disconnect =>
    refine .ends .disconnected .disconnected rfl rfl rfl (fun call mem => ?_) rfl
    simp only [perform, Shared.disconnect, filterMap_append] at mem
    split at mem <;> cases mem
  | applyEnabled enabled =>
    rcases Shared.applyEnabled_cases slot answer enabled with same | ⟨_, same⟩ | ⟨rfl, same⟩
    · rw [perform, same]
      exact .stay rfl rfl rfl rfl (old rfl)
    · rw [perform, same]
      exact .stay rfl rfl rfl rfl (old rfl)
    · rw [perform, same]
      refine .ends .disabled .disabled rfl rfl rfl (fun call mem => ?_) rfl
      rw [filterMap_append, filterMap_append, Shared.connectCalls_pick] at mem
      exact (mem_append.mp mem).resolve_right nofun
  | _ => exact absurd nofun plain

theorem slot_perform (slot : shared.Slot) (answer : Answer) (job : Job) :
    (job.perform shared answer).1.Slot := by
  by_cases plain : ¬job.Touches
  · obtain ⟨same, _, _, connecting, off, _⟩ := leaves answer plain
    rw [Account.ext_iff] at same
    have held : (job.perform shared answer).1.connectCallback = shared.connectCallback := same.2.1
    exact ⟨by rw [connecting, held, slot.connecting],
      fun isOff => connecting.trans (slot.off (off isOff))⟩
  have terminal : ∀ {state : State} (ip : String) (cause : Cause),
      (state = .Off → shared.state = .Off) →
        (shared.terminal answer state ip cause).1.Slot := by
    intro state ip cause off
    rw [slot.terminal ip cause off]
    exact ⟨rfl, fun _ => rfl⟩
  cases job with
  | scan | onScanResult | callScan | callConnect => exact ⟨slot.connecting, slot.off⟩
  | connect => exact ⟨rfl, nofun⟩
  | connectSaved =>
    simp only [perform, Shared.connectSaved]
    split
    · exact ⟨slot.connecting, slot.off⟩
    · exact slot
  | onGotIp origin ip => exact terminal ip _ nofun
  | onDisconnected origin reason =>
    refine terminal "" _ fun off => ?_
    by_contra on
    rw [if_pos on] at off
    cases off
  | timedOut origin =>
    simp only [perform, Shared.timedOut]
    split
    · exact terminal _ _ nofun
    · exact slot
  | disconnect => exact ⟨rfl, nofun⟩
  | applyEnabled enabled =>
    rcases Shared.applyEnabled_cases slot answer enabled with same | ⟨_, same⟩ | ⟨_, same⟩
    · rw [perform, same]
      exact slot
    · rw [perform, same]
      exact ⟨slot.connecting, nofun⟩
    · rw [perform, same]
      exact ⟨rfl, fun _ => rfl⟩
  | _ => exact absurd nofun plain

end Job

end EspDevkit.Wifi
