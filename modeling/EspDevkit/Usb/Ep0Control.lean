import Mathlib.Data.Nat.Notation

/-!
# Control transfers of a USB device

The device task answers the SETUP packets that a controller driver has queued.
It takes an event, computes what it calls the driver with, and makes the calls
one by one.  SETUP packets are numbered as they come in.
-/

namespace EspDevkit.Usb.Ep0

open List

structure SetupPacket where
  bmRequestType : UInt8
  bRequest : UInt8
  wValue : UInt16
  wIndex : UInt16
  wLength : UInt16
  deriving DecidableEq

def kReqGetStatus : UInt8 := 0x00
def kReqClearFeature : UInt8 := 0x01
def kReqSetFeature : UInt8 := 0x03
def kReqSetAddress : UInt8 := 0x05
def kReqGetDescriptor : UInt8 := 0x06
def kReqGetConfiguration : UInt8 := 0x08
def kReqSetConfiguration : UInt8 := 0x09
def kReqGetInterface : UInt8 := 0x0a
def kReqSetInterface : UInt8 := 0x0b

def kReqDirIn : UInt8 := 0x80
def kReqTypeMask : UInt8 := 0x60
def kReqTypeStandard : UInt8 := 0x00
def kReqTypeVendor : UInt8 := 0x40

def kMsOs20DescriptorIndex : UInt16 := 7
def kEp0MaxPacket : ℕ := 64

structure Config where
  controlBytes : ℕ
  msOs20Bytes : ℕ
  msOs20VendorCode : UInt8

inductive Call where
  | setAddress (address : ℕ)
  | ep0Send (bytes : ℕ) (zlp : Bool)
  | ep0Receive (bytes : ℕ)
  | ep0Ack
  | ep0Stall
  deriving DecidableEq

/-- `Device::State::send`. -/
def send (bytes requested : ℕ) : Call :=
  let length := min bytes requested
  .ep0Send length (decide (length < requested) && decide (length % kEp0MaxPacket = 0))

/-- `Device::State::handle_standard`; there is a result if the request is one that
the device, or the function it is for, carries out. -/
def handleStandard (setup : SetupPacket) (result : Option ℕ) : List Call :=
  match result with
  | none => [.ep0Stall]
  | some bytes =>
    if setup.bRequest = kReqGetDescriptor ∨ setup.bRequest = kReqGetConfiguration ∨
        setup.bRequest = kReqGetStatus ∨ setup.bRequest = kReqGetInterface then
      [send bytes setup.wLength.toNat]
    else if setup.bRequest = kReqSetAddress then
      if 127 < setup.wValue then [.ep0Stall]
      else [.setAddress setup.wValue.toNat, .ep0Ack]
    else if setup.bRequest = kReqSetConfiguration ∨ setup.bRequest = kReqClearFeature ∨
        setup.bRequest = kReqSetFeature ∨ setup.bRequest = kReqSetInterface then
      [.ep0Ack]
    else [.ep0Stall]

/-- `Device::State::handle_function_request`. -/
def handleFunctionRequest (config : Config) (setup : SetupPacket) (result : Option ℕ) :
    List Call :=
  if config.msOs20Bytes ≠ 0 ∧ setup.bmRequestType = kReqDirIn ||| kReqTypeVendor ∧
      setup.bRequest = config.msOs20VendorCode ∧ setup.wIndex = kMsOs20DescriptorIndex then
    [send config.msOs20Bytes setup.wLength.toNat]
  else if setup.bmRequestType &&& kReqDirIn ≠ 0 then
    match result with
    | some bytes => [send (min bytes config.controlBytes) setup.wLength.toNat]
    | none => [.ep0Stall]
  else if setup.wLength = 0 then
    if result.isSome then [.ep0Ack] else [.ep0Stall]
  else if config.controlBytes < setup.wLength.toNat then [.ep0Stall]
  else [.ep0Receive setup.wLength.toNat]

/-- `Device::State::handle_setup`: the calls of the driver that it makes. -/
def handleSetup (config : Config) (setup : SetupPacket) (result : Option ℕ) : List Call :=
  if setup.bmRequestType &&& kReqTypeMask ≠ kReqTypeStandard then
    handleFunctionRequest config setup result
  else handleStandard setup result

/-- `Device::State::handle_control_out`. -/
def handleControlOut (result : Option ℕ) : List Call :=
  if result.isSome then [.ep0Ack] else [.ep0Stall]

inductive Event where
  | Setup (number : ℕ) (setup : SetupPacket)
  | Ep0Received (length : ℕ)
  | Reset
  | Enumerated
  | Suspend
  | Resume
  | TransfersDone
  deriving DecidableEq

/-- What is in the buffer of the data stage, and which SETUP it belongs to. -/
inductive Contents where
  | none
  | reply (number : ℕ)
  | data (number : ℕ)
  deriving DecidableEq

inductive Job where
  | idle
  | taken (event : Event)
  /-- The answer to the event is computed, from the SETUP of this number. -/
  | calling (event : Event) (source : ℕ) (call : Call) (calls : List Call)
  deriving DecidableEq

def Job.next (event : Event) (source : ℕ) : List Call → Job
  | [] => .idle
  | call :: calls => .calling event source call calls

structure DeviceTask where
  job : Job
  pendingOut : ℕ × SetupPacket
  buffer : Contents
  /-- The requests that OUT data was handed over for, and what the buffer held. -/
  handed : List (ℕ × Contents)

namespace DeviceTask

def init : DeviceTask := ⟨.idle, (0, ⟨0, 0, 0, 0, 0⟩), .none, []⟩

def take (task : DeviceTask) (event : Event) : Option DeviceTask :=
  match task.job with
  | .idle =>
    match event with
    | .Setup _ _ | .Ep0Received _ => some { task with job := .taken event }
    | _ => some task
  | _ => none

def handle (config : Config) (task : DeviceTask) (result : Option ℕ) : Option DeviceTask :=
  match task.job with
  | .taken (.Setup number setup) =>
    match handleSetup config setup result with
    | call :: calls =>
      let after := { task with job := .calling (.Setup number setup) number call calls }
      match call with
      | .ep0Send _ _ => some { after with buffer := .reply number }
      | .ep0Receive _ => some { after with pendingOut := (number, setup) }
      | _ => some after
    | [] => none
  | .taken (.Ep0Received length) =>
    match handleControlOut result with
    | call :: calls =>
      some
        { task with
          job := .calling (.Ep0Received length) task.pendingOut.1 call calls
          handed := task.handed ++ [(task.pendingOut.1, task.buffer)] }
    | [] => none
  | _ => none

end DeviceTask

def Event.isSetup : Event → Bool
  | .Setup _ _ => true
  | _ => false

def Event.control : Event → Bool
  | .Setup _ _ | .Ep0Received _ => true
  | _ => false

def Job.event : Job → List Event
  | .idle => []
  | .taken event | .calling event _ _ _ => [event]

theorem Job.next_cases (event : Event) (source : ℕ) (calls : List Call) :
    (Job.next event source calls).event = [] ∧ calls = [] ∨
      (Job.next event source calls).event = [event] ∧ calls ≠ [] := by
  cases calls with
  | nil => exact .inl ⟨rfl, rfl⟩
  | cons => exact .inr ⟨rfl, nofun⟩

namespace DeviceTask

variable {config : Config} {task after : DeviceTask}

theorem taken {event : Event} (goes : task.take event = some after) :
    task.job = .idle ∧ (event.control = true ∧ after = { task with job := .taken event } ∨
      event.control = false ∧ after = task) := by
  unfold DeviceTask.take at goes
  cases job : task.job with
  | idle =>
    rw [job] at goes
    refine ⟨rfl, ?_⟩
    cases event with
    | Setup | Ep0Received =>
      cases goes
      exact .inl ⟨rfl, rfl⟩
    | Reset | Enumerated | Suspend | Resume | TransfersDone =>
      cases goes
      exact .inr ⟨rfl, rfl⟩
  | taken other =>
    rw [job] at goes
    cases goes
  | calling other source call calls =>
    rw [job] at goes
    cases goes

structure Answers (task : DeviceTask) (event : Event) (source : ℕ) (calls : List Call) : Prop where
  control : event.control = true
  setup : ∀ number setup, event = .Setup number setup → source = number ∧
    (∀ bytes zlp, .ep0Send bytes zlp ∈ calls → task.buffer = .reply number) ∧
    ∀ bytes, .ep0Receive bytes ∈ calls → task.pendingOut.1 = number ∧ calls = [.ep0Receive bytes]
  received : ∀ length, event = .Ep0Received length → source = task.pendingOut.1 ∧
    ∀ call ∈ calls, call = .ep0Ack ∨ call = .ep0Stall

/-- What follows the first call of an answer: nothing, or the acknowledgement of an address. -/
theorem handleSetup_shape {setup : SetupPacket} {result : Option ℕ} {call : Call}
    {calls : List Call} (answer : handleSetup config setup result = call :: calls) :
    calls = [] ∨ ∃ address, call = .setAddress address ∧ calls = [.ep0Ack] := by
  have single : ∀ only : Call, [only] = call :: calls → calls = [] := by
    intro only same
    cases same
    rfl
  rw [handleSetup] at answer
  split at answer
  · left
    unfold handleFunctionRequest at answer
    split at answer
    · exact single _ answer
    split at answer
    · split at answer
      · exact single _ answer
      · exact single _ answer
    split at answer
    · split at answer
      · exact single _ answer
      · exact single _ answer
    split at answer
    · exact single _ answer
    · exact single _ answer
  · unfold handleStandard at answer
    split at answer
    · exact .inl (single _ answer)
    split at answer
    · exact .inl (single _ answer)
    split at answer
    · split at answer
      · exact .inl (single _ answer)
      · cases answer
        exact .inr ⟨_, rfl, rfl⟩
    split at answer
    · exact .inl (single _ answer)
    · exact .inl (single _ answer)

inductive Handled (task : DeviceTask) : DeviceTask → Prop
  /-- The buffer and the request remembered may change. -/
  | setup {number : ℕ} {setup : SetupPacket} {call : Call} {calls : List Call}
      {buffer : Contents} {pendingOut : ℕ × SetupPacket} :
      task.job = .taken (.Setup number setup) →
        Answers
          { task with
            job := .calling (.Setup number setup) number call calls
            buffer
            pendingOut } (.Setup number setup) number (call :: calls) →
        Handled task
          { task with
            job := .calling (.Setup number setup) number call calls
            buffer
            pendingOut }
  /-- What the buffer holds is handed over for the request remembered. -/
  | received {length : ℕ} {call : Call} {calls : List Call} :
      task.job = .taken (.Ep0Received length) →
        Answers task (.Ep0Received length) task.pendingOut.1 (call :: calls) →
        Handled task
          { task with
            job := .calling (.Ep0Received length) task.pendingOut.1 call calls
            handed := task.handed ++ [(task.pendingOut.1, task.buffer)] }

theorem handled {result : Option ℕ} (goes : task.handle config result = some after) :
    task.Handled after := by
  rw [DeviceTask.handle] at goes
  split at goes
  · rename_i number setup taken
    split at goes
    · rename_i call calls answer
      have shape := handleSetup_shape answer
      have answers : ∀ buffer pendingOut,
          (∀ bytes zlp, call = .ep0Send bytes zlp → buffer = .reply number) →
          (∀ bytes, call = .ep0Receive bytes → pendingOut.1 = number) →
          Answers
            { task with
              job := .calling (.Setup number setup) number call calls
              buffer
              pendingOut } (.Setup number setup) number (call :: calls) := by
        intro buffer pendingOut sends receives
        refine ⟨rfl, fun number' setup' equal => ?_, nofun⟩
        cases equal
        refine ⟨rfl, fun bytes zlp mem => ?_, fun bytes mem => ?_⟩
        · rcases mem_cons.mp mem with equal | mem
          · exact sends bytes zlp equal.symm
          · rcases shape with rfl | ⟨address, -, rfl⟩
            · cases mem
            · cases mem_singleton.mp mem
        · rcases mem_cons.mp mem with equal | mem
          · refine ⟨receives bytes equal.symm, ?_⟩
            rcases shape with rfl | ⟨address, isAddress, -⟩
            · rw [equal]
            · rw [← equal] at isAddress
              cases isAddress
          · rcases shape with rfl | ⟨address, -, rfl⟩
            · cases mem
            · cases mem_singleton.mp mem
      split at goes
      · cases goes
        exact .setup taken (answers _ _ (fun _ _ _ => rfl) nofun)
      · cases goes
        exact .setup taken (answers _ _ nofun fun _ _ => rfl)
      · rename_i notSend notReceive
        cases goes
        exact .setup taken (answers _ _ (fun bytes zlp equal => absurd equal (notSend bytes zlp))
          fun bytes equal => absurd equal (notReceive bytes))
    · cases goes
  · rename_i length taken
    split at goes
    · rename_i call calls answer
      cases goes
      refine .received taken ⟨rfl, nofun, fun _ _ => ⟨rfl, fun other mem => ?_⟩⟩
      rw [← answer, handleControlOut] at mem
      split at mem
      · exact .inl (mem_singleton.mp mem)
      · exact .inr (mem_singleton.mp mem)
    · cases goes
  · cases goes

theorem Answers.send {event : Event} {source bytes : ℕ} {zlp : Bool} {calls : List Call}
    (answers : task.Answers event source (.ep0Send bytes zlp :: calls)) :
    task.buffer = .reply source := by
  cases event with
  | Setup number setup =>
    obtain ⟨number', sends, -⟩ := answers.setup number setup rfl
    rw [number']
    exact sends bytes zlp mem_cons_self
  | Ep0Received length =>
    rcases (answers.received length rfl).2 _ mem_cons_self with same | same <;> cases same
  | Reset | Enumerated | Suspend | Resume | TransfersDone => cases answers.control

theorem Answers.receive {event : Event} {source bytes : ℕ} {calls : List Call}
    (answers : task.Answers event source (.ep0Receive bytes :: calls)) :
    task.pendingOut.1 = source ∧ calls = [] ∧ event.isSetup = true := by
  cases event with
  | Setup number setup =>
    obtain ⟨number', -, receives⟩ := answers.setup number setup rfl
    obtain ⟨requested, single⟩ := receives bytes mem_cons_self
    cases single
    exact ⟨requested.trans number'.symm, rfl, rfl⟩
  | Ep0Received length =>
    rcases (answers.received length rfl).2 _ mem_cons_self with same | same <;> cases same
  | Reset | Enumerated | Suspend | Resume | TransfersDone => cases answers.control

theorem Answers.rest {event : Event} {source : ℕ} {call : Call} {calls : List Call}
    (answers : task.Answers event source (call :: calls)) : task.Answers event source calls where
  control := answers.control
  setup number setup same := by
    obtain ⟨number', sends, receives⟩ := answers.setup number setup same
    refine ⟨number', fun bytes zlp mem => sends bytes zlp (mem_cons_of_mem _ mem),
      fun bytes mem => ?_⟩
    have single := (receives bytes (mem_cons_of_mem _ mem)).2
    cases single
    cases mem
  received length same := by
    obtain ⟨number', only⟩ := answers.received length same
    exact ⟨number', fun call mem => only call (mem_cons_of_mem _ mem)⟩

end DeviceTask

end EspDevkit.Usb.Ep0
