import Mathlib.Data.List.Basic

/-!
# A worker of the USB/IP relay

One thread runs the transfers of one endpoint of a device.
-/

namespace EspDevkit.Host

def ENODEV : Int := -19
def EINVAL : Int := -22
def EPIPE : Int := -32
def EPROTO : Int := -71
def EOVERFLOW : Int := -75
def ECONNRESET : Int := -104

inductive TransferError where
  | Cancelled
  | Stall
  | Disconnected
  | Fault
  | InvalidArgument
  | Unknown

def statusOf : TransferError → Int
  | .Stall => EPIPE
  | .Cancelled => ECONNRESET
  | .Disconnected => ENODEV
  | .InvalidArgument => EINVAL
  | _ => EPROTO

/-- `Session::failure`; `gone` is what the presence checks find. -/
def failure (gone : Bool) : TransferError → Int
  | .Stall => EPIPE
  | .Disconnected => ENODEV
  | error => if gone then ENODEV else statusOf error

/-- A transfer that the endpoint gives back; `none` is `Ok`. -/
structure Completion where
  status : Option TransferError
  actualLen : ℕ
  buffer : List UInt8

structure Submit where
  seqnum : ℕ
  length : ℕ
  zlp : Bool
  data : List UInt8

inductive Cmd where
  | submit (submit : Submit)
  | unlink (seqnum target : ℕ)
  | clearHalt

/-- A queued transfer, in submission order; a trailer is the zero-length packet
after a transfer that asked for one. -/
structure Entry where
  seqnum : ℕ
  length : ℕ
  trailer : Bool
  data : List UInt8
  zlp : Bool
  unlinkedBy : Option ℕ

/-- What goes to the host.  The target of an unlink is not in the answer. -/
inductive Reply where
  | retSubmit (seqnum : ℕ) (status : Int) (actual : ℕ) (data : List UInt8)
  | retUnlink (seqnum : ℕ) (status : Int) (target : ℕ)

inductive Buffer where
  | incoming (length : ℕ)
  | outgoing (data : List UInt8)

/-- `max_packet_size` of the endpoint, at least one. -/
structure Ep where
  isIn : Bool
  maxPacketSize : ℕ
  pos : 0 < maxPacketSize

inductive Phase where
  | top
  | handling
  | polling
  | parked

/-- `Worker` with what `run` keeps, the buffers on the endpoint and what was
sent.  `submitted`, `unlinks`, `begun` and `unlinked` are not in the code: the
transfers and the unlinks pushed, the transfers in the order they were begun,
and the targets that unlinks have found. -/
structure Worker where
  commands : List Cmd
  phase : Phase
  batch : List Cmd
  worked : Bool
  entries : List Entry
  held : List Cmd
  again : List Entry
  draining : Bool
  pending : List Buffer
  stopped : Bool
  sent : List Reply
  halts : List Bool
  submitted : List ℕ
  unlinks : List (ℕ × ℕ)
  begun : List ℕ
  unlinked : List ℕ

def Worker.start : Worker where
  commands := []
  phase := .top
  batch := []
  worked := false
  entries := []
  held := []
  again := []
  draining := false
  pending := []
  stopped := false
  sent := []
  halts := []
  submitted := []
  unlinks := []
  begun := []
  unlinked := []

namespace Worker

variable (ep : Ep) (worker : Worker)

/-- `Session::send`: once the session has stopped nothing is sent. -/
def send (reply : Reply) : Worker :=
  if worker.stopped then worker else { worker with sent := worker.sent ++ [reply] }

/-- `Worker::begin`. -/
def begin (entry : Entry) : Worker :=
  let mps := ep.maxPacketSize
  let buffer : Buffer :=
    if ep.isIn then .incoming (max ((entry.length + mps - 1) / mps * mps) mps)
    else .outgoing entry.data
  let trailer := !ep.isIn && entry.zlp && decide (0 < entry.length) &&
    decide (entry.length % mps = 0)
  { worker with
    pending := worker.pending ++ buffer :: if trailer then [.outgoing []] else []
    entries := worker.entries ++ entry :: if trailer then [⟨0, 0, true, [], false, none⟩] else []
    begun := worker.begun ++ [entry.seqnum] }

/-- `Worker::reply`; a completion that is `cut` was cut short by the
unlink of another transfer. -/
def reply (entry : Entry) (done : Completion) (cut gone : Bool) : Worker :=
  let status : Int :=
    match done.status with
    | none => 0
    | some error => if cut then 0 else failure gone error
  let worker := if status = ENODEV then { worker with stopped := true } else worker
  if !ep.isIn then worker.send (.retSubmit entry.seqnum status done.actualLen [])
  else
    let got := min done.actualLen done.buffer.length
    let (status, actual) := if got > entry.length then (EOVERFLOW, entry.length) else (status, got)
    worker.send (.retSubmit entry.seqnum status actual (done.buffer.take actual))

/-- The first entry for `target` is marked, unless there is none. -/
def markUnlinked (seqnum target : ℕ) : List Entry → Option (List Entry)
  | [] => none
  | entry :: rest =>
    if entry.seqnum = target ∧ entry.trailer = false then
      some ({ entry with unlinkedBy := some seqnum } :: rest)
    else (markUnlinked seqnum target rest).map (entry :: ·)

/-- One command of a batch; `cleared` is how `clear_halt` ends. -/
def handle (cleared : Bool) : Cmd → Worker
  | .submit submit =>
    if worker.draining then { worker with held := worker.held ++ [.submit submit] }
    else
      worker.begin ep ⟨submit.seqnum, submit.length, false, submit.data, submit.zlp, none⟩
  | .clearHalt =>
    if worker.draining then { worker with held := worker.held ++ [.clearHalt] }
    else if worker.pending ≠ [] then { worker with held := worker.held ++ [.clearHalt] }
    else { worker with halts := worker.halts ++ [cleared] }
  | .unlink seqnum target =>
    match markUnlinked seqnum target worker.entries with
    | some entries =>
      { worker with entries, draining := true, unlinked := worker.unlinked ++ [target] }
    | none => worker.send (.retUnlink seqnum 0 target)

def complete (done : Completion) (gone : Bool) : Worker :=
  let worker := { worker with pending := worker.pending.tail, worked := true }
  match worker.entries with
  | [] => worker
  | entry :: entries =>
    let worker := { worker with entries }
    if entry.trailer then worker
    else if worker.draining then
      match entry.unlinkedBy with
      | some unlink => worker.send (.retUnlink unlink ECONNRESET entry.seqnum)
      | none =>
        if done.status.isNone || decide (0 < done.actualLen) then
          worker.reply ep entry done done.status.isSome gone
        else { worker with again := worker.again ++ [entry] }
    else worker.reply ep entry done false gone

inductive Action where
  | push (cmd : Cmd)
  | stop
  | turn
  | handle (cleared : Bool)
  | poll
  | complete (done : Completion) (gone : Bool)
  | settle

def step : Action → Option Worker
  | .push cmd =>
    some { worker with
      commands := worker.commands ++ [cmd]
      submitted :=
        match cmd with
        | .submit submit => worker.submitted ++ [submit.seqnum]
        | _ => worker.submitted
      unlinks :=
        match cmd with
        | .unlink seqnum target => worker.unlinks ++ [(seqnum, target)]
        | _ => worker.unlinks }
  | .stop => some { worker with stopped := true }
  | .turn =>
    match worker.phase with
    | .top | .parked =>
      if worker.stopped then none
      else
        -- each held command goes to the front of those before it
        let batch :=
          if worker.draining then worker.commands
          else worker.held.foldl (fun commands cmd => cmd :: commands) worker.commands
        some { worker with
          commands := []
          held := if worker.draining then worker.held else []
          batch
          worked := !batch.isEmpty
          phase := .handling }
    | _ => none
  | .handle cleared =>
    match worker.phase, worker.batch with
    | .handling, cmd :: batch => some ({ worker with batch }.handle ep cleared cmd)
    | _, _ => none
  | .poll =>
    match worker.phase, worker.batch with
    | .handling, [] => some { worker with phase := .polling }
    | _, _ => none
  | .complete done gone =>
    match worker.phase with
    | .polling => if worker.pending = [] then none else some (worker.complete ep done gone)
    | _ => none
  | .settle =>
    match worker.phase with
    | .polling =>
      if worker.draining ∧ worker.pending = [] then
        some { worker.again.foldl (begin ep) { worker with draining := false, again := [] } with
          worked := true
          phase := .top }
      else some { worker with phase := if worker.worked then .top else .parked }
    | _ => none

end Worker

end EspDevkit.Host
