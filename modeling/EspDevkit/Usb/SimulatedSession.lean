import Mathlib.Algebra.Group.Nat.Defs
import Mathlib.Data.Nat.Notation
import Mathlib.Logic.Function.Basic
import Mathlib.Data.List.Perm.Basic
import Mathlib.Data.List.Nodup

/-!
# A session of the simulated host controller

A USB/IP session, the tasks that submit and cancel, the receive task and the
server at the other end.  Each critical section, each message and each wait for
the socket is a step.  Requests and the calls of `cancel` are numbered; what a
request is stands in a table of its own, for nothing here changes it.
-/

namespace EspDevkit.Usb.Sim

structure Request where
  pipe : ℕ
  isIn : Bool
  len : ℕ
  setAddress : Bool

inductive Error where
  | Stall
  | Overflow
  | Canceled
  | NoDevice
  | Failed
  deriving DecidableEq

inductive Outcome where
  | ok (bytes : ℕ)
  | error (error : Error)
  deriving DecidableEq

inductive Status where
  | ok
  | EPIPE
  | EOVERFLOW
  | ECONNRESET
  | ENODEV
  | ESHUTDOWN
  | other
  deriving DecidableEq

def Status.result (status : Status) (actual : ℕ) : Outcome :=
  match status with
  | .ok => .ok actual
  | .EPIPE => .error .Stall
  | .EOVERFLOW => .error .Overflow
  | .ECONNRESET => .error .Canceled
  | .ENODEV | .ESHUTDOWN => .error .NoDevice
  | .other => .error .Failed

inductive Reply where
  | RetSubmit (seqnum : ℕ) (status : Status) (actual : ℕ)
  | RetUnlink (seqnum : ℕ) (status : Status)
  deriving DecidableEq

/-- The stream of replies: headers, and the bytes of data between them. -/
inductive Token where
  | header (reply : Reply)
  | byte
  deriving DecidableEq

inductive Phase where
  | new
  /-- It has the session and the pipe. -/
  | holding
  /-- The request is in the map, its message is not sent. -/
  | inserted (seqnum : ℕ)
  /-- The message could not be sent. -/
  | failed (seqnum : ℕ)
  | accepted
  | rejected
  deriving DecidableEq

/-- Where a call of `cancel` is. -/
inductive Cancel where
  | idle
  | found (target : ℕ)
  | linked (seqnum target : ℕ)
  deriving DecidableEq

inductive Rx where
  | reading
  /-- In `ret_submit`, with the request taken out of the map. -/
  | data (request : Option ℕ) (status : Status) (actual : ℕ)
  | unlinking (target : ℕ)
  /-- About to complete a request; then it goes on, or its loop ends. -/
  | completing (request : ℕ) (result : Outcome) (goesOn : Bool)
  | failing
  | draining (requests : List ℕ)
  | closing
  | leaving
  | gone
  /-- It took bytes of data for a header, or a header for data. -/
  | lost
  deriving DecidableEq

/-- What the server has got and not answered: submits, with the request they
were made for, and unlinks with their targets. -/
structure Server where
  submits : List (ℕ × ℕ)
  unlinks : List (ℕ × ℕ)

structure State where
  attached : Bool
  pipes : ℕ → Bool
  nextSeqnum : ℕ
  inflight : List (ℕ × ℕ)
  unlinks : List (ℕ × ℕ)
  phase : ℕ → Phase
  cancel : ℕ → Cancel
  rx : Rx
  stream : List Token
  ended : Bool
  server : Server
  /-- What was completed, in order. -/
  completed : List (ℕ × Outcome)
  /-- What the server answered, by request. -/
  answered : List (ℕ × Status × ℕ)

inductive Action where
  | pipeAlloc (pipe : ℕ)
  | pipeFree (pipe : ℕ)
  /-- The next step of the submit of a request; a message is sent or not. -/
  | submit (request : ℕ) (sends : Bool)
  /-- A call of `cancel` for a request looks it up. -/
  | cancel (call request : ℕ)
  /-- The next step of that call. -/
  | unlink (call : ℕ) (sends : Bool)
  /-- The next step of the receive task. -/
  | receive
  /-- The server answers a submit. -/
  | retSubmit (seqnum : ℕ) (status : Status) (actual : ℕ)
  /-- The server answers an unlink, whose target it cancels or does not. -/
  | retUnlink (seqnum : ℕ) (status : Status)
  /-- The connection ends; so much of the stream still arrives. -/
  | finish (kept : ℕ)

/-- `BTreeMap::remove`. -/
def without (map : List (ℕ × ℕ)) (key : ℕ) : List (ℕ × ℕ) := map.filter fun entry => entry.1 ≠ key

/-- `BTreeMap::insert`. -/
def withEntry (map : List (ℕ × ℕ)) (key value : ℕ) : List (ℕ × ℕ) := (key, value) :: without map key

inductive Read where
  | done (rest : List Token)
  | misread
  | short
  deriving DecidableEq

def readBytes : ℕ → List Token → Read
  | 0, stream => .done stream
  | _ + 1, [] => .short
  | count + 1, .byte :: stream => readBytes count stream
  | _ + 1, .header _ :: _ => .misread

namespace State

def init : State where
  attached := true
  pipes := fun _ => false
  nextSeqnum := 1
  inflight := []
  unlinks := []
  phase := fun _ => .new
  cancel := fun _ => .idle
  rx := .reading
  stream := []
  ended := false
  server := ⟨[], []⟩
  completed := []
  answered := []

def moveSubmit (state : State) (request : ℕ) (phase : Phase) : State :=
  { state with phase := Function.update state.phase request phase }

def moveCancel (state : State) (call : ℕ) (phase : Cancel) : State :=
  { state with cancel := Function.update state.cancel call phase }

def complete (state : State) (request : ℕ) (result : Outcome) : State :=
  { state with completed := state.completed ++ [(request, result)] }

/-- `Session::seqnum`, a `u32`. -/
def seqnum (state : State) : ℕ := state.nextSeqnum % 2 ^ 32

/-- `SimHcd::submit`: the session and the pipe, the map, the message, and the map
again if that could not be sent. -/
def submit (table : ℕ → Request) (state : State) (request : ℕ) (sends : Bool) : Option State :=
  match state.phase request with
  | .new =>
    if state.attached && state.pipes (table request).pipe then
      if (table request).setAddress then
        some ((state.complete request (.ok 0)).moveSubmit request .accepted)
      else some (state.moveSubmit request .holding)
    else some (state.moveSubmit request .rejected)
  | .holding =>
    let seqnum := state.seqnum
    some
      ({ state with
        nextSeqnum := state.nextSeqnum + 1
        inflight := withEntry state.inflight seqnum request }.moveSubmit request (.inserted seqnum))
  | .inserted seqnum =>
    if sends then
      let server :=
        if state.ended then state.server
        else { state.server with submits := (seqnum, request) :: state.server.submits }
      some ({ state with server }.moveSubmit request .accepted)
    else if state.ended then some (state.moveSubmit request (.failed seqnum))
    else none
  | .failed seqnum =>
    match state.inflight.lookup seqnum with
    | some _ =>
      some
        ({ state with inflight := without state.inflight seqnum }.moveSubmit request .rejected)
    | none => some (state.moveSubmit request .accepted)
  | .accepted | .rejected => none

/-- `SimHcd::cancel` up to the number that its request is in flight under. -/
def find (table : ℕ → Request) (state : State) (call request : ℕ) : Option State :=
  if state.cancel call ≠ .idle then none
  else if state.attached && state.pipes (table request).pipe then
    match state.inflight.find? fun entry => entry.2 = request with
    | some (target, _) => some (state.moveCancel call (.found target))
    | none => some state
  else some state

/-- The rest of `SimHcd::cancel`: the map of unlinks and the message. -/
def unlink (state : State) (call : ℕ) (sends : Bool) : Option State :=
  match state.cancel call with
  | .idle => none
  | .found target =>
    let seqnum := state.seqnum
    some
      ({ state with
        nextSeqnum := state.nextSeqnum + 1
        unlinks := withEntry state.unlinks seqnum target }.moveCancel call (.linked seqnum target))
  | .linked seqnum target =>
    if sends then
      let server :=
        if state.ended then state.server
        else { state.server with unlinks := (seqnum, target) :: state.server.unlinks }
      some ({ state with server }.moveCancel call .idle)
    else if state.ended then some (state.moveCancel call .idle)
    else none

/-- The end of `ret_submit`. -/
def finishData (state : State) (request : Option ℕ) (result : Outcome) (goesOn : Bool) : State :=
  match request with
  | some request => { state with rx := .completing request result goesOn }
  | none => { state with rx := if goesOn then .reading else .failing }

/-- `SimHcd::receive`. -/
def receive (table : ℕ → Request) (state : State) : Option State :=
  match state.rx with
  | .reading =>
    match state.stream with
    | [] => if state.ended then some { state with rx := .failing } else none
    | .byte :: _ => some { state with rx := .lost }
    | .header (.RetSubmit seqnum status actual) :: stream =>
      some
        { state with
          stream
          inflight := without state.inflight seqnum
          rx := .data (state.inflight.lookup seqnum) status actual }
    | .header (.RetUnlink seqnum status) :: stream =>
      let after := { state with stream, unlinks := without state.unlinks seqnum }
      match status, state.unlinks.lookup seqnum with
      | .ECONNRESET, some target => some { after with rx := .unlinking target }
      | _, _ => some after
  | .data request status actual =>
    let result := status.result actual
    if request.all fun request => (table request).isIn then
      let room := request.elim 0 fun request => (table request).len
      match readBytes actual state.stream with
      | .done stream =>
        let tooLong := decide (room < actual) && decide (status = .ok)
        some
          ({ state with stream }.finishData request
            (if tooLong then .error .Overflow else result) true)
      | .short =>
        if state.ended then
          some ({ state with stream := [] }.finishData request (.error .NoDevice) false)
        else none
      | .misread => some { state with rx := .lost }
    else some (state.finishData request result true)
  | .unlinking target =>
    match state.inflight.lookup target with
    | some request =>
      some
        { state with
          inflight := without state.inflight target
          rx := .completing request (.error .Canceled) true }
    | none => some { state with rx := .reading }
  | .completing request result goesOn =>
    some { state.complete request result with rx := if goesOn then .reading else .failing }
  | .failing =>
    some { state with inflight := [], rx := .draining (state.inflight.map Prod.snd) }
  | .draining (request :: requests) =>
    some { state.complete request (.error .NoDevice) with rx := .draining requests }
  | .draining [] => some { state with rx := .closing }
  | .closing => some { state with rx := .leaving }
  | .leaving => some { state with attached := false, rx := .gone }
  | .gone | .lost => none

/-- The server answers only what it has got, and data comes for IN only. -/
def retSubmit (table : ℕ → Request) (state : State) (seqnum : ℕ) (status : Status) (actual : ℕ) :
    Option State :=
  match state.server.submits.lookup seqnum with
  | some request =>
    if state.ended then none
    else
      let data := List.replicate (if (table request).isIn then actual else 0) .byte
      some
        { state with
          stream := state.stream ++ .header (.RetSubmit seqnum status actual) :: data
          server := { state.server with submits := without state.server.submits seqnum }
          answered := state.answered ++ [(request, status, actual)] }
  | none => none

/-- A canceled target gets no other answer. -/
def retUnlink (state : State) (seqnum : ℕ) (status : Status) : Option State :=
  match state.server.unlinks.lookup seqnum with
  | some target =>
    let cancels := decide (status = .ECONNRESET)
    if state.ended || (cancels && (state.server.submits.lookup target).isNone) then none
    else
      some
        { state with
          stream := state.stream ++ [.header (.RetUnlink seqnum status)]
          server :=
            { submits :=
                if cancels then without state.server.submits target else state.server.submits
              unlinks := without state.server.unlinks seqnum } }
  | none => none

def step (table : ℕ → Request) (state : State) : Action → Option State
  | .pipeAlloc pipe => some { state with pipes := Function.update state.pipes pipe true }
  | .pipeFree pipe => some { state with pipes := Function.update state.pipes pipe false }
  | .submit request sends => state.submit table request sends
  | .cancel call request => state.find table call request
  | .unlink call sends => state.unlink call sends
  | .receive => state.receive table
  | .retSubmit seqnum status actual => state.retSubmit table seqnum status actual
  | .retUnlink seqnum status => state.retUnlink seqnum status
  | .finish kept => some { state with ended := true, stream := state.stream.take kept }

end State

end EspDevkit.Usb.Sim

/-!
## What holds in a session

Where each request is, and what the messages under way have to do with the maps,
for as long as no request enters the map after the receive task has emptied it.
-/

namespace EspDevkit.Usb.Sim

open List

variable {map : List (ℕ × ℕ)}

theorem mem_without {key : ℕ} {entry : ℕ × ℕ} :
    entry ∈ without map key ↔ entry ∈ map ∧ entry.1 ≠ key := by
  simp [without]

theorem lookup_eq_some_of_mem (keys : (map.map Prod.fst).Nodup)
    {key value : ℕ} (mem : (key, value) ∈ map) : map.lookup key = some value := by
  induction map with
  | nil => cases mem
  | cons entry map ih =>
    obtain ⟨first, second⟩ := entry
    rw [map_cons, nodup_cons] at keys
    rcases mem_cons.mp mem with same | later
    · cases same
      exact lookup_cons_self
    · have other : key ≠ first := by
        rintro rfl
        exact keys.1 (mem_map.mpr ⟨_, later, rfl⟩)
      rw [lookup_cons, beq_eq_false_iff_ne.mpr other]
      exact ih keys.2 later

theorem mem_of_lookup {key value : ℕ} (found : map.lookup key = some value) :
    (key, value) ∈ map := by
  induction map with
  | nil => cases found
  | cons entry map ih =>
    obtain ⟨first, second⟩ := entry
    rw [lookup_cons] at found
    split at found
    · rename_i same
      cases found
      rw [eq_of_beq same]
      exact mem_cons_self
    · exact mem_cons_of_mem _ (ih found)

theorem without_of_not_mem {key : ℕ} (absent : key ∉ map.map Prod.fst) :
    without map key = map := by
  rw [without, filter_eq_self]
  intro entry mem
  rw [decide_eq_true_eq]
  rintro rfl
  exact absent (mem_map_of_mem mem)

theorem perm_without (keys : (map.map Prod.fst).Nodup) {key value : ℕ}
    (mem : (key, value) ∈ map) : List.Perm map ((key, value) :: without map key) := by
  induction map with
  | nil => cases mem
  | cons entry map ih =>
    obtain ⟨first, second⟩ := entry
    rw [map_cons, nodup_cons] at keys
    rcases mem_cons.mp mem with same | later
    · cases same
      have rest : without ((key, value) :: map) key = map := by
        rw [without, filter_cons_of_neg (by simp)]
        exact without_of_not_mem keys.1
      rw [rest]
    · have other : first ≠ key := by
        rintro rfl
        exact keys.1 (mem_map.mpr ⟨_, later, rfl⟩)
      have rest : without ((first, second) :: map) key = (first, second) :: without map key := by
        rw [without, filter_cons_of_pos (by simpa using other)]
        rfl
      rw [rest]
      exact ((ih keys.2 later).cons _).trans (List.Perm.swap _ _ _)

theorem value_unique (keys : (map.map Prod.fst).Nodup) {key first second : ℕ}
    (one : (key, first) ∈ map) (other : (key, second) ∈ map) : first = second :=
  Option.some.inj ((lookup_eq_some_of_mem keys one).symm.trans (lookup_eq_some_of_mem keys other))

theorem nodup_without (keys : (map.map Prod.fst).Nodup) (key : ℕ) :
    ((without map key).map Prod.fst).Nodup :=
  keys.sublist (filter_sublist.map _)

theorem not_mem_without (map : List (ℕ × ℕ)) (key : ℕ) : key ∉ (without map key).map Prod.fst := by
  intro mem
  obtain ⟨entry, mem, same⟩ := mem_map.mp mem
  exact (mem_without.mp mem).2 same

def Rx.hand : Rx → List ℕ
  | .data (some request) _ _ | .completing request _ _ => [request]
  | .draining requests => requests
  | _ => []

def Rx.live : Rx → Bool
  | .draining _ | .closing | .leaving | .gone => false
  | _ => true

def Phase.given : Phase → Bool
  | .inserted _ | .failed _ | .accepted => true
  | .new | .holding | .rejected => false

namespace State

def present (state : State) : List ℕ :=
  state.inflight.map Prod.snd ++ state.rx.hand ++ state.completed.map Prod.fst

/-- A request enters the map only before the receive task takes what is in it,
and under a number of its own. -/
def Calm (state : State) : Action → Prop
  | .submit request _ => state.phase request = .holding →
      state.rx.live = true ∧ state.nextSeqnum < 2 ^ 32
  | .unlink _ _ => state.nextSeqnum < 2 ^ 32
  | _ => True

structure Placed (state : State) : Prop where
  once : state.present.Nodup
  given : ∀ request, request ∈ state.present ↔ (state.phase request).given
  emptied : state.rx.live = false → state.inflight = []

end State

inductive Frame where
  | submit (seqnum request : ℕ) (status : Status) (actual : ℕ)
  | unlink (seqnum : ℕ) (status : Status)

def Frame.tokens (table : ℕ → Request) : Frame → List Token
  | .submit seqnum request status actual =>
    .header (.RetSubmit seqnum status actual) ::
      List.replicate (if (table request).isIn then actual else 0) .byte
  | .unlink seqnum status => [.header (.RetUnlink seqnum status)]

def Frame.submitted : Frame → Option (ℕ × ℕ)
  | .submit seqnum request _ _ => some (seqnum, request)
  | .unlink _ _ => none

def Frame.unlinked : Frame → Option ℕ
  | .submit .. => none
  | .unlink seqnum _ => some seqnum

def Rx.owed (table : ℕ → Request) : Rx → ℕ
  | .data (some request) _ actual => if (table request).isIn then actual else 0
  | _ => 0

namespace State

def pending (state : State) (frames : List Frame) : List (ℕ × ℕ) :=
  state.server.submits ++ frames.filterMap Frame.submitted

def unlinking (state : State) (frames : List Frame) : List ℕ :=
  state.server.unlinks.map Prod.fst ++ frames.filterMap Frame.unlinked

structure Settled (state : State) (frames : List Frame) (seqnum : ℕ) : Prop where
  drawn : seqnum < state.nextSeqnum
  absent : seqnum ∉ (state.pending frames).map Prod.fst
  sent : ∀ request, state.phase request ≠ .inserted seqnum ∧ state.phase request ≠ .failed seqnum

/-- A request that the server has, or that a message under way or in hand is about. -/
def Awaited (state : State) (frames : List Frame) (entry : ℕ × ℕ) : Prop :=
  entry ∈ state.pending frames ∨
    (∃ seqnum, Frame.unlink seqnum .ECONNRESET ∈ frames ∧ (seqnum, entry.1) ∈ state.unlinks) ∨
    state.rx = .unlinking entry.1

structure Wired (table : ℕ → Request) (state : State) (frames : List Frame) : Prop where
  keys : (state.inflight.map Prod.fst).Nodup
  drawn : ∀ entry ∈ state.inflight, entry.1 < state.nextSeqnum
  unsent : ∀ request seqnum, state.phase request = .inserted seqnum ∨
    state.phase request = .failed seqnum → (seqnum, request) ∈ state.inflight
  distinct : ((state.pending frames).map Prod.fst).Nodup
  waiting : ∀ entry ∈ state.pending frames, entry ∈ state.inflight ∧
    state.phase entry.2 = .accepted
  unlinkKeys : (state.unlinks.map Prod.fst).Nodup
  unlinkDrawn : ∀ entry ∈ state.unlinks, entry.1 < state.nextSeqnum
  asked : ∀ entry ∈ state.server.unlinks, entry ∈ state.unlinks
  linked : ∀ call seqnum target, state.cancel call = .linked seqnum target →
    (seqnum, target) ∈ state.unlinks ∧ seqnum ∉ state.unlinking frames
  calls : ∀ first second seqnum target other, state.cancel first = .linked seqnum target →
    state.cancel second = .linked seqnum other → first = second
  apart : (state.unlinking frames).Nodup
  unlinkingDrawn : ∀ seqnum ∈ state.unlinking frames, seqnum < state.nextSeqnum
  canceled : ∀ seqnum, Frame.unlink seqnum .ECONNRESET ∈ frames →
    ∀ target, (seqnum, target) ∈ state.unlinks → state.Settled frames target
  taking : ∀ target, state.rx = .unlinking target → state.Settled frames target
  stream : state.stream <+: List.replicate (state.rx.owed table) .byte ++
    frames.flatMap (Frame.tokens table)
  answered : ∀ seqnum request status actual, Frame.submit seqnum request status actual ∈ frames →
    (request, status, actual) ∈ state.answered
  whole : state.ended = false → state.stream = List.replicate (state.rx.owed table) .byte ++
    frames.flatMap (Frame.tokens table)
  awaited : state.ended = false → ∀ entry ∈ state.inflight, state.phase entry.2 = .accepted →
    state.Awaited frames entry
  found : ∀ status actual, state.rx ≠ .data none status actual
  followed : state.rx ≠ .lost

/-- The device's own result of a request; more than there is room for overflows. -/
def Device (table : ℕ → Request) (state : State) (request : ℕ) (result : Outcome) : Prop :=
  ∃ status actual, (request, status, actual) ∈ state.answered ∧
    result =
      if (table request).isIn ∧ (table request).len < actual ∧ status = .ok then .error .Overflow
      else status.result actual

def Due (table : ℕ → Request) (state : State) (request : ℕ) (result : Outcome) : Prop :=
  result = .error .NoDevice ∨ result = .error .Canceled ∨ state.Device table request result ∨
    (table request).setAddress = true ∧ result = .ok 0

/-- Results are the device's, or say that there is none or that they are canceled. -/
structure Told (table : ℕ → Request) (state : State) : Prop where
  completed : ∀ entry ∈ state.completed, state.Due table entry.1 entry.2
  completing : ∀ request result goesOn, state.rx = .completing request result goesOn →
    state.Due table request result
  data : ∀ request status actual, state.rx = .data (some request) status actual →
    (request, status, actual) ∈ state.answered

end State

end EspDevkit.Usb.Sim
