import Mathlib.Data.List.Basic
import EspDevkit.Library.Transition

/-!
# The Wi-Fi manager

Tasks call the manager, a worker takes the slow requests from a queue, and the
timer and the backend report to it.  What a thread does is a list of jobs; a
job is one section under the lock, one call of the backend, or one callback,
whose code may call the manager again.
-/

namespace EspDevkit.Wifi

inductive Result where
  | Ok
  | ApNotFound
  | AuthFailed
  | AssocFailed
  | IpFailed
  | Timeout
  | Failed
  deriving DecidableEq

inductive State where
  | Off
  | Disconnected
  | Connecting
  | Connected
  deriving DecidableEq

structure AP where
  ssid : String
  rssi : Int
  secured : Bool
  deriving DecidableEq

structure Status where
  state : State
  ssid : String
  ip : String
  rssi : Int
  deriving DecidableEq

inductive Op where
  | Enable
  | Disable
  | Autoconnect
  deriving DecidableEq

structure WorkItem where
  op : Op
  timeoutMs : Int
  done : Option ℕ
  deriving DecidableEq

structure Credentials where
  ssid : String
  password : String
  deriving DecidableEq

inductive Request where
  | start
  | radioOn
  | radioOff
  | scan
  | connect (ssid password : String)
  | disconnect
  deriving DecidableEq

/-- What a job finds outside of the manager: whether the credentials store
opens, whether the backend accepts a request, and the signal strength. -/
structure Answer where
  opens : Bool
  accepts : Bool
  rssi : Int

/-- How an attempt ends; a terminal event carries the attempt that it belongs
to, which the source does not know. -/
inductive Cause where
  | address (origin : Option ℕ)
  | failure (origin : Option ℕ) (reason : Result)
  | timeout (origin : ℕ)
  | superseded
  | disabled
  | unsaved
  | disconnected
  deriving DecidableEq

def Cause.result : Cause → Result
  | .address _ => .Ok
  | .failure _ reason => reason
  | .timeout _ => .Timeout
  | _ => .Failed

inductive Job where
  | userCode
  | done (item : WorkItem)
  | notify (status : Status)
  | scan
  | backendScan
  | onScanResult (result : Result) (accessPoints : List AP)
  | callScan (scan : ℕ) (result : Result) (accessPoints : List AP)
  | connect (ssid password : String) (timeoutMs : Int)
  | connectSaved (timeoutMs : Int)
  | saveCredentials (ssid password : String)
  | armTimeout (attempt : ℕ) (timeoutMs : Int)
  | backendConnect (attempt : ℕ) (ssid password : String)
  | onGotIp (origin : Option ℕ) (ip : String)
  | onDisconnected (origin : Option ℕ) (reason : Result)
  | callConnect (attempt : ℕ) (result : Result)
  | timeoutCallback (origin : ℕ)
  | backendDisconnect
  | timedOut (origin : ℕ)
  | disconnect
  | setEnabled (enabled : Bool) (done : Option ℕ)
  | autoconnectSaved (timeoutMs : Int)
  | start
  | bringUp
  | backendStart
  | ready
  | applyEnabled (enabled : Bool)
  | radio (enabled : Bool)
  | doAutoconnect (timeoutMs : Int)
  | forget
  deriving DecidableEq

/-- What the threads share.  Attempts and scans go by the order in which they
are made; `called`, `scanned` and `completed` are the callbacks made, `ended`
the ends of the attempts, `armed` the attempts that set the timer, and
`requested` those that reached the backend. -/
structure Shared where
  backend : Bool
  started : Bool
  queue : List WorkItem
  state : State
  ssid : String
  ip : String
  connecting : Bool
  connectCallback : Option ℕ
  scanCallback : Option ℕ
  stored : Option Credentials
  attempts : ℕ
  scans : ℕ
  called : List (ℕ × Result)
  scanned : List (ℕ × Result × List AP)
  completed : List ℕ
  ended : List (ℕ × Cause)
  armed : List (ℕ × Int)
  requested : List ℕ
  requests : List Request
  deriving DecidableEq

namespace Shared

def fresh (stored : Option Credentials) : Shared where
  backend := false
  started := false
  queue := []
  state := .Off
  ssid := ""
  ip := ""
  connecting := false
  connectCallback := none
  scanCallback := none
  stored := stored
  attempts := 0
  scans := 0
  called := []
  scanned := []
  completed := []
  ended := []
  armed := []
  requested := []
  requests := []

variable (shared : Shared) (answer : Answer)

def snapshotLocked : Status where
  state := shared.state
  ssid := shared.ssid
  ip := if shared.state = .Connected then shared.ip else ""
  rssi := if shared.state = .Connected ∧ shared.backend then answer.rssi else 0

/-- `load_credentials`, with its buffer of 128 bytes. -/
def loadCredentials : Option Credentials :=
  match shared.stored with
  | none => none
  | some stored =>
    if answer.opens ∧ stored.ssid.utf8ByteSize < 128 ∧ stored.ssid ≠ "" then
      some ⟨stored.ssid, if stored.password.utf8ByteSize < 128 then stored.password else ""⟩
    else none

def ask (request : Request) : Shared := { shared with requests := shared.requests ++ [request] }

/-- `enqueue`, on a queue of eight items. -/
def enqueue (item : WorkItem) : Shared × List Job :=
  if shared.queue.length < 8 then ({ shared with queue := shared.queue ++ [item] }, [])
  else (shared, [.done item])

def endAttempt (cause : Cause) : Shared :=
  { shared with
    connecting := false
    connectCallback := none
    ended := shared.ended ++ shared.connectCallback.toList.map fun attempt => (attempt, cause) }

def connectCalls (result : Result) : List Job :=
  shared.connectCallback.toList.map fun attempt => .callConnect attempt result

def scanCalls (result : Result) (accessPoints : List AP) : List Job :=
  shared.scanCallback.toList.map fun scan => .callScan scan result accessPoints

/-- `if (connecting) { ... }` of the terminal events. -/
def completeAttempt (cause : Cause) : Shared × List Job :=
  if shared.connecting then (shared.endAttempt cause, shared.connectCalls cause.result)
  else (shared, [])

def onScanResult (result : Result) (accessPoints : List AP) : Shared × List Job :=
  ({ shared with scanCallback := none }, shared.scanCalls result accessPoints)

def terminal (state : State) (ip : String) (cause : Cause) : Shared × List Job :=
  let (after, calls) := { shared with state := state, ip := ip }.completeAttempt cause
  (after, calls ++ [.notify (after.snapshotLocked answer)])

def onGotIp (origin : Option ℕ) (ip : String) : Shared × List Job :=
  shared.terminal answer .Connected ip (.address origin)

def onDisconnected (origin : Option ℕ) (reason : Result) : Shared × List Job :=
  shared.terminal answer (if shared.state ≠ .Off then .Disconnected else .Off) ""
    (.failure origin reason)

/-- The first half of `timeout_callback`, which the lock does not join to the
second. -/
def timeoutCallback (origin : ℕ) : Shared × List Job :=
  (shared, if shared.connecting ∧ shared.backend then [.backendDisconnect, .timedOut origin]
    else [.timedOut origin])

def timedOut (origin : ℕ) : Shared × List Job :=
  if shared.connecting then
    shared.terminal answer .Disconnected shared.ip (.timeout origin)
  else (shared, [])

def scan : Shared × List Job :=
  ({ shared with scanCallback := some shared.scans, scans := shared.scans + 1 },
    shared.scanCalls .Failed [] ++
      if shared.backend then [.backendScan] else [.onScanResult .Failed []])

def backendScan : Shared × List Job :=
  (shared.ask .scan, if answer.accepts then [] else [.onScanResult .Failed []])

def connect (ssid password : String) (timeoutMs : Int) : Shared × List Job :=
  let after := { shared.endAttempt .superseded with
    connectCallback := some shared.attempts
    attempts := shared.attempts + 1
    connecting := true
    ssid := ssid
    ip := ""
    state := .Connecting }
  (after, shared.connectCalls .Failed ++ [.notify (after.snapshotLocked answer)] ++
    if shared.backend then
      [.saveCredentials ssid password, .armTimeout shared.attempts timeoutMs,
        .backendConnect shared.attempts ssid password]
    else [.onDisconnected (some shared.attempts) .Failed])

def saveCredentials (ssid password : String) : Shared :=
  if answer.opens then { shared with stored := some ⟨ssid, password⟩ } else shared

def armTimeout (attempt : ℕ) (timeoutMs : Int) : Shared :=
  { shared with armed := shared.armed ++ [(attempt, timeoutMs)] }

def backendConnect (attempt : ℕ) (ssid password : String) : Shared × List Job :=
  ({ shared.ask (.connect ssid password) with requested := shared.requested ++ [attempt] },
    if answer.accepts then [] else [.onDisconnected (some attempt) .Failed])

def connectSaved (timeoutMs : Int) : Shared × List Job :=
  match shared.loadCredentials answer with
  | none =>
    ({ shared with
        attempts := shared.attempts + 1
        called := shared.called ++ [(shared.attempts, .Failed)]
        ended := shared.ended ++ [(shared.attempts, .unsaved)] }, [.userCode])
  | some loaded => (shared, [.connect loaded.ssid loaded.password timeoutMs])

def doAutoconnect (timeoutMs : Int) : Shared × List Job :=
  match shared.loadCredentials answer with
  | none => (shared, [])
  | some loaded => (shared, [.connect loaded.ssid loaded.password timeoutMs])

def bringUp : Shared × List Job :=
  ({ shared with started := true }, if shared.started then [] else [.backendStart, .ready])

def ready : Shared :=
  { shared with
    backend := true
    state := if shared.state = .Off then .Disconnected else shared.state }

def applyEnabled (enabled : Bool) : Shared × List Job :=
  if ¬shared.backend ∨ enabled = (shared.state ≠ .Off : Bool) then (shared, [])
  else if enabled then
    let after : Shared := { shared with state := .Disconnected }
    (after, [.radio true, .notify (after.snapshotLocked answer)])
  else
    let (ended, calls) := shared.completeAttempt .disabled
    let after : Shared := { ended with ip := "", ssid := "", state := .Off }
    (after, [.radio false] ++ calls ++ [.notify (after.snapshotLocked answer)])

/-- `disconnect` sets the callback to null, and its attempt ends. -/
def disconnect : Shared × List Job :=
  let after := { shared.endAttempt .disconnected with ip := "", state := .Disconnected }
  (after, (if shared.backend then [.backendDisconnect] else []) ++
    [.notify (after.snapshotLocked answer)])

end Shared

def Job.perform (shared : Shared) (answer : Answer) : Job → Shared × List Job
  | .userCode => (shared, [])
  | .done item =>
    match item.done with
    | none => (shared, [])
    | some number => ({ shared with completed := shared.completed ++ [number] }, [.userCode])
  | .notify _ => (shared, [.userCode])
  | .scan => shared.scan
  | .backendScan => shared.backendScan answer
  | .onScanResult result accessPoints => shared.onScanResult result accessPoints
  | .callScan number result accessPoints =>
    ({ shared with scanned := shared.scanned ++ [(number, result, accessPoints)] }, [.userCode])
  | .connect ssid password timeoutMs => shared.connect answer ssid password timeoutMs
  | .connectSaved timeoutMs => shared.connectSaved answer timeoutMs
  | .saveCredentials ssid password => (shared.saveCredentials answer ssid password, [])
  | .armTimeout attempt timeoutMs => (shared.armTimeout attempt timeoutMs, [])
  | .backendConnect attempt ssid password =>
    shared.backendConnect answer attempt ssid password
  | .onGotIp origin ip => shared.onGotIp answer origin ip
  | .onDisconnected origin reason => shared.onDisconnected answer origin reason
  | .callConnect attempt result =>
    ({ shared with called := shared.called ++ [(attempt, result)] }, [.userCode])
  | .timeoutCallback origin => shared.timeoutCallback origin
  | .backendDisconnect => (shared.ask .disconnect, [])
  | .timedOut origin => shared.timedOut answer origin
  | .disconnect => shared.disconnect answer
  | .setEnabled enabled number =>
    shared.enqueue ⟨if enabled then .Enable else .Disable, 15000, number⟩
  | .autoconnectSaved timeoutMs => shared.enqueue ⟨.Autoconnect, timeoutMs, none⟩
  | .start => shared.enqueue ⟨.Enable, 0, none⟩
  | .bringUp => shared.bringUp
  | .backendStart => (shared.ask .start, [])
  | .ready => (shared.ready, [])
  | .applyEnabled enabled => shared.applyEnabled answer enabled
  | .radio enabled => (shared.ask (if enabled then .radioOn else .radioOff), [])
  | .doAutoconnect timeoutMs => shared.doAutoconnect answer timeoutMs
  | .forget => (if answer.opens then { shared with stored := none } else shared, [])

/-- One turn of `worker_loop`. -/
def WorkItem.jobs (item : WorkItem) : List Job :=
  (match item.op with
    | .Enable => [.bringUp, .applyEnabled true, .doAutoconnect item.timeoutMs]
    | .Disable => [.applyEnabled false]
    | .Autoconnect => [.bringUp, .doAutoconnect item.timeoutMs]) ++ [.done item]

inductive Thread where
  | worker
  | task (number : ℕ)
  deriving DecidableEq

structure Manager where
  shared : Shared
  jobs : Thread → List Job

namespace Manager

def fresh (stored : Option Credentials) : Manager := ⟨.fresh stored, fun _ => []⟩

def take (manager : Manager) (thread : Thread) (shared : Shared) (jobs rest : List Job) :
    Manager :=
  ⟨shared, Function.update manager.jobs thread (jobs ++ rest)⟩

def callable : Job → Bool
  | .scan | .connect .. | .connectSaved _ | .disconnect | .setEnabled .. | .autoconnectSaved _
  | .start | .forget => true
  | _ => false

/-- What the timer and the backend may report.  A report of the backend belongs
to an attempt that it was asked for, or to none; a timeout to an attempt that
has set the timer. -/
def reportable (shared : Shared) : Job → Bool
  | .onScanResult .. => shared.backend
  | .onGotIp origin _ | .onDisconnected origin _ =>
    origin.all fun attempt => shared.requested.contains attempt
  | .timeoutCallback origin => (shared.armed.map Prod.fst).contains origin
  | _ => false

/-- A thread can call the manager: an idle task, or the code of a callback. -/
def Free (manager : Manager) (thread : Thread) : Prop :=
  (manager.jobs thread = [] ∧ thread ≠ .worker) ∨ (manager.jobs thread).head? = some .userCode

instance (manager : Manager) (thread : Thread) : Decidable (manager.Free thread) :=
  inferInstanceAs (Decidable (_ ∨ _))

/-- One step of one thread; `permits` says which jobs the run performs in
which states. -/
inductive Step (permits : Shared → Job → Prop) (manager : Manager) : Manager → Prop
  | call (thread : Thread) (job : Job) :
      callable job = true → manager.Free thread →
        Step permits manager (manager.take thread manager.shared [job] (manager.jobs thread))
  | report (task : ℕ) (job : Job) :
      reportable manager.shared job = true → manager.jobs (.task task) = [] →
        Step permits manager (manager.take (.task task) manager.shared [job] [])
  | receive (item : WorkItem) (queue : List WorkItem) :
      manager.jobs .worker = [] → manager.shared.queue = item :: queue →
        Step permits manager
          (manager.take .worker { manager.shared with queue := queue } item.jobs [])
  | perform (thread : Thread) (answer : Answer) (job : Job) (rest : List Job) :
      manager.jobs thread = job :: rest → permits manager.shared job →
        Step permits manager
          (manager.take thread (job.perform manager.shared answer).1
            (job.perform manager.shared answer).2 rest)

def Begins (manager : Manager) : Prop := ∃ stored, manager = fresh stored

end Manager

end EspDevkit.Wifi
