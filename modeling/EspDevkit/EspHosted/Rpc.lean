import EspDevkit.Library.ByteOrder
import EspDevkit.Library.Transition
import Mathlib.Logic.Function.Basic

/-!
# The RPC client of the coprocessor link

Any number of tasks call, one at a time behind the call lock, and the receive
task hands responses in.  Each lock, atomic access and semaphore operation is
one step.  The coding of messages is generated elsewhere and stays abstract.
-/

namespace EspDevkit.EspHosted

/-- `RpcType`. -/
def RpcType.Req : ℕ := 1

def RpcType.Resp : ℕ := 2

def RpcType.Event : ℕ := 3

/-- `Rpc`. -/
structure Rpc (Payload : Type) where
  msgType : ℕ
  msgId : ℕ
  uid : ℕ
  payload : Option Payload

/-- The generated coding of `Rpc`, and the id `RpcId::Resp_Base`. -/
structure Proto (Payload : Type) where
  encode : Rpc Payload → List UInt8
  decode : List UInt8 → Option (Rpc Payload)
  respBase : ℕ

inductive Error where
  | FAIL
  | INVALID_SIZE
  | TIMEOUT
  | NOT_SUPPORTED
  | other (code : ℕ)
  deriving DecidableEq

namespace Wire

def HEADER_LEN : ℕ := 12

def BUF_SIZE : ℕ := 1536

def MAX_PAYLOAD : ℕ := BUF_SIZE - HEADER_LEN

def MAX_SERIAL : ℕ := 8192

def FLAG_MORE_FRAGMENT : UInt8 := 1

def SERIAL_TLV_EP : UInt8 := 1

def SERIAL_TLV_DATA : UInt8 := 2

/-- `b"RPCRsp"`. -/
def SERIAL_EP_RSP : List UInt8 := [82, 80, 67, 82, 115, 112]

end Wire

def TLV_HEADER_LEN : ℕ := 3 + Wire.SERIAL_EP_RSP.length + 3

/-- `Response`: the serial message and where the RPC message lies in it. -/
structure Response where
  data : List UInt8
  start : ℕ
  len : ℕ
  deriving DecidableEq

variable {Task Payload T : Type}

/-- `Response::rpc`. -/
def Response.rpc (proto : Proto Payload) (response : Response) : Except Error (Rpc Payload) :=
  match proto.decode ((response.data.drop response.start).take response.len) with
  | some rpc => .ok rpc
  | none => .error .FAIL

/-- What `deliver` makes of a whole serial message, up to the comparison with
the pending uid. -/
inductive Delivery (Payload : Type) where
  | dropped
  | event (rpc : Rpc Payload)
  | response (response : Response) (uid : ℕ)

def classify (proto : Proto Payload) (p : List UInt8) : Delivery Payload :=
  if p.length < TLV_HEADER_LEN ∨ p.getD 0 0 ≠ Wire.SERIAL_TLV_EP then .dropped
  else
    let pos := 3 + LittleEndian.ofBytes [p.getD 1 0, p.getD 2 0]
    if p.length < pos + 3 ∨ p.getD pos 0 ≠ Wire.SERIAL_TLV_DATA then .dropped
    else
      let len := LittleEndian.ofBytes [p.getD (pos + 1) 0, p.getD (pos + 2) 0]
      if len = 0 ∨ p.length < pos + 3 + len then .dropped
      else
        match proto.decode ((p.drop (pos + 3)).take len) with
        | none => .dropped
        | some rpc =>
          if rpc.msgType = RpcType.Event then .event rpc
          else if rpc.msgType = RpcType.Resp ∧ rpc.uid ≠ 0 then
            .response ⟨p, pos + 3, len⟩ rpc.uid
          else .dropped

def serial (message : List UInt8) : List UInt8 :=
  [Wire.SERIAL_TLV_EP] ++ LittleEndian.toBytes 2 Wire.SERIAL_EP_RSP.length ++ Wire.SERIAL_EP_RSP ++
    [Wire.SERIAL_TLV_DATA] ++ LittleEndian.toBytes 2 message.length ++ message

/-- `buf.chunks(wire::MAX_PAYLOAD)`, each with its flags: all but the last
announce another one. -/
def fragments : ℕ → List UInt8 → List (UInt8 × List UInt8)
  | 0, _ => []
  | fuel + 1, buf =>
    if buf.length ≤ Wire.MAX_PAYLOAD then [(0, buf)]
    else
      (Wire.FLAG_MORE_FRAGMENT, buf.take Wire.MAX_PAYLOAD) ::
        fragments fuel (buf.drop Wire.MAX_PAYLOAD)

/-- What a task asks for: `id`, `payload` and `f`. -/
structure Request (Payload T : Type) where
  id : ℕ
  payload : Option Payload
  f : Payload → Option (Except Error T)

/-- A response from the link.  `after` is not in the code: the number of calls
whose requests had gone out whole, the latest of them included, when the
message was complete. -/
structure Arrival where
  response : Response
  uid : ℕ
  after : ℕ
  deriving DecidableEq

/-- Where a task stands in `call`: what it does next. -/
inductive Caller (Payload T : Type) where
  | idle
  | locking (request : Request Payload T)
  | draining (request : Request Payload T) (buf : List UInt8)
  | clearing (request : Request Payload T) (buf : List UInt8)
  | arming (request : Request Payload T) (buf : List UInt8)
  | sending (request : Request Payload T) (left : List (UInt8 × List UInt8))
  | waiting (request : Request Payload T)
  | taking (request : Request Payload T)
  | disarming (request : Request Payload T) (response : Except Error Arrival)
  | unlocking (request : Request Payload T) (response : Except Error Arrival)
  | returned (value : Except Error T)

/-- Where the receive task stands in `deliver`. -/
inductive Receiver where
  | idle
  | comparing (arrival : Arrival)
  | disarming (arrival : Arrival)
  | storing (arrival : Arrival)
  | giving
  deriving DecidableEq

structure RxState where
  buf : List UInt8
  overflow : Bool

/-- `Client`, with where the tasks stand.  The last three fields are not in the
code: how many calls have begun, up to which of them requests went out whole,
and which response each call got. -/
structure Client (Task Payload T : Type) where
  uid : ℕ
  holder : Option Task
  done : Bool
  pendingUid : ℕ
  response : Option Arrival
  rx : RxState
  receiver : Receiver
  callers : Task → Caller Payload T
  link : List (UInt8 × List UInt8)
  calls : ℕ
  sent : ℕ
  handed : List (ℕ × Arrival)

def Client.new : Client Task Payload T where
  uid := 0
  holder := none
  done := false
  pendingUid := 0
  response := none
  rx := ⟨[], false⟩
  receiver := .idle
  callers _ := .idle
  link := []
  calls := 0
  sent := 0
  handed := []

/-- `wrapping_add(1).max(1)`. -/
def nextUid (uid : ℕ) : ℕ := max ((uid + 1) % 2 ^ 32) 1

/-- What `call` returns once it has let go of the lock. -/
def conclude (proto : Proto Payload) (f : Payload → Option (Except Error T))
    (response : Except Error Arrival) : Except Error T := do
  let arrival ← response
  let rpc ← arrival.response.rpc proto
  if rpc.msgId = proto.respBase then
    .error .NOT_SUPPORTED
  else (rpc.payload.bind f).getD (.error .FAIL)

/-- What may happen next: a task begins a call, a call goes one step on, a send
fails, a wait times out, a serial fragment comes in, the receive task goes one
step on. -/
inductive Action (Task Payload T : Type) where
  | begin (task : Task) (request : Request Payload T)
  | advance (task : Task)
  | sendFails (task : Task) (error : Error)
  | timesOut (task : Task)
  | onSerial (payload : List UInt8) (flags : UInt8)
  | receive

namespace Client

variable [DecidableEq Task]

def move (client : Client Task Payload T) (task : Task) (caller : Caller Payload T) :
    Client Task Payload T :=
  { client with callers := Function.update client.callers task caller }

/-- One step of `call`. -/
def advance (proto : Proto Payload) (client : Client Task Payload T) (task : Task) :
    Option (Client Task Payload T) :=
  match client.callers task with
  | .idle => none
  | .locking request =>
    match client.holder with
    | some _ => none
    | none =>
      let uid := nextUid client.uid
      let buf := serial (proto.encode ⟨RpcType.Req, request.id, uid, request.payload⟩)
      some ({ client with uid, holder := some task, calls := client.calls + 1 }.move task
        (.draining request buf))
  | .draining request buf => some ({ client with done := false }.move task (.clearing request buf))
  | .clearing request buf => some ({ client with response := none }.move task (.arming request buf))
  | .arming request buf =>
    let client := { client with pendingUid := client.uid }
    -- `send_serial` refuses a message that is too long before it sends any of it
    if Wire.MAX_SERIAL < buf.length then
      some (client.move task (.disarming request (.error .INVALID_SIZE)))
    else some (client.move task (.sending request (fragments buf.length buf)))
  | .sending request (fragment :: []) =>
    some ({ client with link := client.link ++ [fragment], sent := client.calls }.move task
      (.waiting request))
  | .sending request (fragment :: left) =>
    some ({ client with link := client.link ++ [fragment] }.move task (.sending request left))
  | .sending request [] => some (client.move task (.waiting request))
  | .waiting request =>
    if client.done then some ({ client with done := false }.move task (.taking request)) else none
  | .taking request =>
    some ({ client with response := none }.move task (.disarming request
      (match client.response with
      | some arrival => .ok arrival
      | none => .error .FAIL)))
  | .disarming request response =>
    some ({ client with pendingUid := 0 }.move task (.unlocking request response))
  | .unlocking request response =>
    let handed := match response with
      | .ok arrival => client.handed ++ [(client.calls, arrival)]
      | .error _ => client.handed
    some ({ client with holder := none, handed }.move task
      (.returned (conclude proto request.f response)))
  | .returned _ => some (client.move task .idle)

/-- `on_serial`, with `deliver` up to the comparison with the pending uid.
Events go to the callback, which leaves the client alone. -/
def onSerial (proto : Proto Payload) (client : Client Task Payload T) (payload : List UInt8)
    (flags : UInt8) : Client Task Payload T :=
  let rx : RxState :=
    if client.rx.overflow then client.rx
    else if Wire.MAX_SERIAL < client.rx.buf.length + payload.length then
      { client.rx with overflow := true }
    else { client.rx with buf := client.rx.buf ++ payload }
  if flags &&& Wire.FLAG_MORE_FRAGMENT ≠ 0 then { client with rx }
  else if rx.overflow then { client with rx := ⟨[], false⟩ }
  else
    match classify proto rx.buf with
    | .response response uid =>
      { client with
        rx := ⟨[], false⟩
        receiver := .comparing ⟨response, uid, client.sent⟩ }
    | _ => { client with rx := ⟨[], false⟩ }

/-- The rest of `deliver`, one step. -/
def receive (client : Client Task Payload T) : Option (Client Task Payload T) :=
  match client.receiver with
  | .idle => none
  | .comparing arrival =>
    if arrival.uid = client.pendingUid then
      some { client with receiver := .disarming arrival }
    else some { client with receiver := .idle }
  | .disarming arrival => some { client with pendingUid := 0, receiver := .storing arrival }
  | .storing arrival => some { client with response := some arrival, receiver := .giving }
  | .giving => some { client with done := true, receiver := .idle }

def step (proto : Proto Payload) (client : Client Task Payload T) :
    Action Task Payload T → Option (Client Task Payload T)
  | .begin task request =>
    match client.callers task with
    | .idle => some (client.move task (.locking request))
    | _ => none
  | .advance task => client.advance proto task
  | .sendFails task error =>
    match client.callers task with
    | .sending request (_ :: _) => some (client.move task (.disarming request (.error error)))
    | _ => none
  | .timesOut task =>
    match client.callers task with
    | .waiting request =>
      -- a wait that finds the token does not time out
      if client.done then none
      else some (client.move task (.disarming request (.error .TIMEOUT)))
    | _ => none
  | .onSerial payload flags =>
    match client.receiver with
    | .idle => some (client.onSerial proto payload flags)
    | _ => none
  | .receive => client.receive

end Client

end EspDevkit.EspHosted
