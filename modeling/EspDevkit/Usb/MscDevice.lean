import EspDevkit.Library.ByteOrder

/-!
# A mass storage drive

The host's side of the Bulk-Only Transport.  The drive on the other end of the
bus is a list of answers, one for each transfer in the order of submission: any
drive, well behaved or not, answers a run with some such list.
-/

namespace EspDevkit.Usb.Msc

open LittleEndian

abbrev Bytes := List UInt8

def kCbwSignature : ℕ := 0x43425355
def kCswSignature : ℕ := 0x53425355
def kCswBytes : ℕ := 13
def kRequestReset : UInt8 := 0xFF
def kScsiRead10 : UInt8 := 0x28
def kScsiWrite10 : UInt8 := 0x2A
def kBounceBytes : ℕ := 4096
def kMaxBlocksPerCommand : ℕ := 65535

inductive EspErr where
  | OK
  | FAIL
  | INVALID_ARG
  | INVALID_SIZE
  | INVALID_RESPONSE
  | NOT_FOUND
  | NOT_SUPPORTED
  | TIMEOUT
  deriving DecidableEq

inductive TransferStatus where
  | Completed
  | Error
  | TimedOut
  | Canceled
  | Stall
  | Overflow
  | Skipped
  | NoDevice
  deriving DecidableEq

def statusToErr : TransferStatus → EspErr
  | .Completed => .OK
  | .Stall => .INVALID_RESPONSE
  | .NoDevice => .NOT_FOUND
  | .TimedOut => .TIMEOUT
  | _ => .FAIL

/-- How a transfer goes: what `transfer_submit` returns, whether `await` runs out
of time, the status of the transfer, and the bytes that came.  `halted` is what
the calls return that stop and clear the endpoint before CLEAR_FEATURE. -/
structure Answer where
  submitted : EspErr
  timedOut : Bool
  status : TransferStatus
  received : Bytes
  halted : EspErr
  deriving DecidableEq

namespace Answer

def gone : Answer := ⟨.NOT_FOUND, false, .NoDevice, [], .NOT_FOUND⟩

/-- `submit` with its `await`. -/
def result (answer : Answer) : EspErr :=
  if answer.submitted ≠ .OK then answer.submitted
  else if answer.timedOut then .TIMEOUT
  else statusToErr answer.status

def brought (answer : Answer) (room : ℕ) : Bytes :=
  if answer.submitted = .OK then answer.received.take room else []

end Answer

def overlay (buffer bytes : Bytes) : Bytes := bytes ++ buffer.drop bytes.length

def roundUpTo (bytes unit : ℕ) : ℕ := (bytes + unit - 1) / unit * unit

def be32 (bytes : Bytes) : ℕ := ofBytes (bytes.take 4).reverse

/-- What `setup` has learnt of a drive that it takes. -/
structure Drive where
  interface : UInt8
  bulkIn : UInt8
  bulkOut : UInt8
  bulkInMps : ℕ
  dmaAlignment : ℕ
  psramAlignment : ℕ
  blockSize : ℕ
  blockCount : ℕ
  bulkInMps_pos : 0 < bulkInMps
  blockSize_ge : 512 ≤ blockSize
  blockSize_le : blockSize ≤ kBounceBytes
  blockSize_pow : blockSize &&& (blockSize - 1) = 0
  blockCount_lt : blockCount < 2 ^ 32

/-- The end of `setup`: the drive with the capacity that it reports. -/
def Drive.withCapacity (drive : Drive) (response : Bytes) : Except EspErr Drive :=
  let blockCount := (be32 response + 1) % 2 ^ 32
  let blockSize := be32 (response.drop 4)
  if fits : 512 ≤ blockSize ∧ blockSize ≤ kBounceBytes ∧ blockSize &&& (blockSize - 1) = 0 then
    .ok
      { drive with
        blockSize
        blockCount
        blockSize_ge := fits.1
        blockSize_le := fits.2.1
        blockSize_pow := fits.2.2
        blockCount_lt := Nat.mod_lt _ (by decide) }
  else .error .NOT_SUPPORTED

/-- `geometry.disk_size`. -/
def Drive.diskSize (drive : Drive) : ℕ := drive.blockCount * drive.blockSize

structure Place where
  address : ℕ
  external : Bool

def Place.advance (place : Place) (bytes : ℕ) : Place :=
  { place with address := place.address + bytes }

def Drive.borrowable (drive : Drive) (place : Place) (bytes : ℕ) : Bool :=
  let alignment := if place.external then drive.psramAlignment else drive.dmaAlignment
  decide (place.address ≠ 0) && decide (bytes ≠ 0) && decide (place.address % alignment = 0) &&
    decide (bytes % alignment = 0) && decide (bytes % drive.bulkInMps = 0)

structure MscBotDevice where
  tag : BitVec 32
  /-- `cmd_->data_buffer`, for the wrappers and the control requests. -/
  cmd : Bytes
  bounce : Bytes
  gone : Bool
  answers : List Answer

/-- What a command put on the bus and what came back. -/
structure Exchange where
  cb : Bytes
  tag : BitVec 32
  read : Bool
  /-- The bytes of its data stage. -/
  bytes : ℕ
  /-- What its data stage sent, if it got that far in a write. -/
  sent : Option Bytes
  /-- How its data stage ended, and what that brought in a read. -/
  data : EspErr
  received : Bytes
  /-- The bytes of the status transfer that completed, and what the buffer held
  before it where a wrapper goes. -/
  wrapper : Option Bytes
  left : Bytes
  result : EspErr
  deriving DecidableEq

structure Csw where
  signature : ℕ
  tag : ℕ
  residue : ℕ
  status : UInt8

def Csw.parse (buffer : Bytes) : Csw where
  signature := ofBytes (buffer.take 4)
  tag := ofBytes ((buffer.drop 4).take 4)
  residue := ofBytes ((buffer.drop 8).take 4)
  status := (buffer.drop 12).headD 0

namespace MscBotDevice

def next (device : MscBotDevice) : Answer × MscBotDevice :=
  match device.answers with
  | [] => (.gone, device)
  | answer :: answers => (answer, { device with answers })

/-- A control request without data; its setup packet is built in `cmd`. -/
def control (device : MscBotDevice) (requestType request : UInt8) (value index : ℕ) : MscBotDevice :=
  let setup := requestType :: request :: (toBytes 2 value ++ toBytes 2 index ++ toBytes 2 0)
  { device.next.2 with cmd := overlay device.cmd setup }

/-- `clear_halt`; nothing is sent if the endpoint cannot be cleared. -/
def clearHalt (device : MscBotDevice) (endpoint : UInt8) : MscBotDevice :=
  if device.next.1.halted ≠ .OK then device.next.2
  else device.control 0x02 0x01 0 endpoint.toNat

def massStorageReset (drive : Drive) (device : MscBotDevice) : MscBotDevice :=
  let device := device.control 0x21 kRequestReset 0 drive.interface.toNat
  (device.clearHalt drive.bulkIn).clearHalt drive.bulkOut

def cbw (tag : BitVec 32) (bytes : ℕ) (read : Bool) (cb : Bytes) : Bytes :=
  toBytes 4 kCbwSignature ++ toBytes 4 tag.toNat ++ toBytes 4 bytes ++
    [if read then 0x80 else 0, 0, UInt8.ofNat cb.length] ++
      (cb ++ List.replicate (16 - cb.length) 0)

/-- `data_stage` over the bytes of the caller's buffer: what became of them, what
was sent or came, and how it ended. -/
def dataStage (drive : Drive) (device : MscBotDevice) (place : Place) (data : Bytes) (read : Bool) :
    MscBotDevice × Bytes × Option Bytes × Bytes × EspErr :=
  let borrowed := drive.borrowable place data.length
  let (answer, after) := device.next
  if read then
    let received := answer.brought (roundUpTo data.length drive.bulkInMps)
    if borrowed then (after, overlay data received, none, received, answer.result)
    else
      let bounce := overlay device.bounce received
      let copied := if answer.result = .OK then overlay data (bounce.take data.length) else data
      ({ after with bounce }, copied, none, received, answer.result)
  else
    let bounce := if borrowed then device.bounce else overlay device.bounce data
    ({ after with bounce }, data, some data, [], answer.result)

/-- A status transfer: its bytes go over what is in `cmd`. -/
def statusTransfer (drive : Drive) (device : MscBotDevice) :
    MscBotDevice × EspErr × Bytes × Bytes :=
  let (answer, after) := device.next
  let brought := answer.brought (roundUpTo kCswBytes drive.bulkInMps)
  ({ after with cmd := overlay device.cmd brought }, answer.result, brought,
    device.cmd.take kCswBytes)

def statusStage (drive : Drive) (device : MscBotDevice) : MscBotDevice × EspErr × Bytes × Bytes :=
  match statusTransfer drive device with
  | (device, .INVALID_RESPONSE, _) => statusTransfer drive (device.clearHalt drive.bulkIn)
  | stage => stage

/-- The end of `run_command`: the status wrapper of a command whose data stage
ended with `err`. -/
def finish (drive : Drive) (device : MscBotDevice) (exchange : Exchange) (err : EspErr) :
    MscBotDevice × Exchange :=
  let (device, status, brought, left) := statusStage drive device
  if status ≠ .OK then (massStorageReset drive device, { exchange with result := status })
  else
    let exchange := { exchange with wrapper := some brought, left }
    let csw := Csw.parse device.cmd
    if csw.signature ≠ kCswSignature ∨ csw.tag ≠ exchange.tag.toNat then
      (massStorageReset drive device, { exchange with result := .INVALID_RESPONSE })
    else if csw.status ≠ 0 ∨ csw.residue ≠ 0 then (device, { exchange with result := .FAIL })
    else (device, { exchange with result := err })

/-- `run_command` over the bytes of the caller's buffer. -/
def runCommand (drive : Drive) (device : MscBotDevice) (cb : Bytes) (place : Place) (data : Bytes)
    (read : Bool) : MscBotDevice × Bytes × Exchange :=
  let tag := device.tag + 1
  let started :=
    { device with tag, cmd := overlay device.cmd (cbw tag data.length read cb) }
  let exchange : Exchange := ⟨cb, tag, read, data.length, none, .OK, [], none, [], .FAIL⟩
  let (answer, device) := started.next
  if answer.result ≠ .OK then
    (if answer.result = .INVALID_RESPONSE then massStorageReset drive device else device,
      data, { exchange with result := answer.result })
  else if data.isEmpty then
    let (device, exchange) := finish drive device exchange .OK
    (device, data, exchange)
  else
    let (device, data, sent, received, err) := dataStage drive device place data read
    let exchange := { exchange with sent, received, data := err }
    if err ≠ .OK ∧ err ≠ .INVALID_RESPONSE then
      (massStorageReset drive device, data, { exchange with result := err })
    else
      let device :=
        if err = .INVALID_RESPONSE then
          device.clearHalt (if read then drive.bulkIn else drive.bulkOut)
        else device
      let (device, exchange) := finish drive device exchange err
      (device, data, exchange)

def readWrite10 (block count : ℕ) (read : Bool) : Bytes :=
  [if read then kScsiRead10 else kScsiWrite10, 0] ++ (toBytes 4 block).reverse ++ [0] ++
    (toBytes 2 count).reverse ++ [0]

def transferBlocks (drive : Drive) (device : MscBotDevice) (place : Place) (data : Bytes)
    (block count : ℕ) (read : Bool) : MscBotDevice × Bytes × Exchange :=
  runCommand drive device (readWrite10 block count read) place
    (data.take (count * drive.blockSize)) read

def pieceBlocks (drive : Drive) (place : Place) (count : ℕ) : ℕ :=
  let bounceBlocks := kBounceBytes / drive.blockSize
  let blocks := min count kMaxBlocksPerCommand
  if ¬ drive.borrowable place (blocks * drive.blockSize) ∧ bounceBlocks < blocks then bounceBlocks
  else blocks

/-- What a read or a write leaves: the device, the buffer, the commands in order
and the result. -/
structure Outcome where
  device : MscBotDevice
  buffer : Bytes
  log : List Exchange
  err : EspErr

/-- The loop of `transfer_chunked`; each pass takes a block at least. -/
def chunks (drive : Drive) (read : Bool) : ℕ → MscBotDevice → Place → Bytes → ℕ → ℕ → Outcome
  | 0, device, _, buffer, _, _ => ⟨device, buffer, [], .OK⟩
  | fuel + 1, device, place, buffer, block, count =>
    if count = 0 then ⟨device, buffer, [], .OK⟩
    else
      let blocks := pieceBlocks drive place count
      let bytes := blocks * drive.blockSize
      let (device, piece, exchange) := transferBlocks drive device place buffer block blocks read
      if exchange.result ≠ .OK then
        ⟨device, piece ++ buffer.drop bytes, [exchange], exchange.result⟩
      else
        let rest := chunks drive read fuel device (place.advance bytes) (buffer.drop bytes)
          (block + blocks) (count - blocks)
        ⟨rest.device, piece ++ rest.buffer, exchange :: rest.log, rest.err⟩

/-- `MscBotDevice::read` and `write`. -/
def transferChunked (drive : Drive) (device : MscBotDevice) (place : Place) (buffer : Bytes)
    (block count : ℕ) (read : Bool) : Outcome :=
  if place.address = 0 ∨ count = 0 then ⟨device, buffer, [], .INVALID_ARG⟩
  else if drive.blockCount < block ∨ drive.blockCount - block < count then
    ⟨device, buffer, [], .INVALID_SIZE⟩
  else if device.gone then ⟨device, buffer, [], .NOT_FOUND⟩
  else chunks drive read count device place buffer block count

/-- The numbers that `read` and `write` take have 32 bits. -/
def blockdevRead (drive : Drive) (device : MscBotDevice) (place : Place) (dst : Bytes) (addr len : ℕ) :
    Outcome :=
  if addr % drive.blockSize ≠ 0 ∨ len % drive.blockSize ≠ 0 ∨ dst.length < len then
    ⟨device, dst, [], .INVALID_ARG⟩
  else
    transferChunked drive device place dst (addr / drive.blockSize % 2 ^ 32)
      (len / drive.blockSize % 2 ^ 32) true

def blockdevWrite (drive : Drive) (device : MscBotDevice) (place : Place) (src : Bytes) (addr len : ℕ) :
    Outcome :=
  if addr % drive.blockSize ≠ 0 ∨ len % drive.blockSize ≠ 0 then
    ⟨device, src, [], .INVALID_ARG⟩
  else
    transferChunked drive device place src (addr / drive.blockSize % 2 ^ 32)
      (len / drive.blockSize % 2 ^ 32) false

end MscBotDevice

end EspDevkit.Usb.Msc
