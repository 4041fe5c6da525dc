import Mathlib.Algebra.Group.Nat.Defs
import Mathlib.Data.Int.Notation
import Mathlib.Data.List.Count
import Mathlib.Logic.Function.Basic

/-!
# The read-ahead buffer

A ring of chunks that one task fills from a file, and a bounce area, in one
arena.  A view pins the chunks it covers, or has them copied when they are not
in one piece.  What a task does to the state under the lock is one step, and so
is each read of the file and each copy outside of it; between two steps of one
task the others go on.
-/

namespace EspDevkit.Media

def arenaAlignment : ℕ := 64

def readAlignment : ℕ := 64

def chunkBytes : ℕ := 64 * 1024

def depthChunks : ℕ := 16

def windowMinBytes : ℕ := 8 * 1024

def windowBytes : ℕ := 64 * 1024

def alignDown (value : ℕ) : ℕ := value / chunkBytes * chunkBytes

def chunkOffset (value : ℕ) : ℕ := value % chunkBytes

def chunkIndex (value : ℕ) : ℕ := value / chunkBytes

def chunksUp (value : ℕ) : ℕ := (value + chunkBytes - 1) / chunkBytes

def bounceBytesFor (arenaBytes : ℕ) : ℕ := arenaBytes / 4 / chunkBytes * chunkBytes

structure File where
  size : ℕ
  byte : ℕ → UInt8

/-- `Arena`, with the address of its storage. -/
structure Arena where
  address : ℕ
  bytes : ℕ
  direct : Bool

structure Shared where
  file : File
  direct : Bool
  ringChunks : ℕ
  depth : ℕ
  bounceBytes : ℕ
  bounce_pos : 0 < bounceBytes
  depth_le : 2 * depth ≤ ringChunks
  bounce_le : 2 * (bounceBytes / chunkBytes + 1) ≤ ringChunks

/-- `Buffer::open`, on an arena that it takes. -/
def open' (file : File) (arena : Arena) : Option Shared :=
  let bounceBytes := bounceBytesFor arena.bytes
  let bounceChunks := bounceBytes / chunkBytes
  let ringChunks := (arena.bytes - bounceBytes) / chunkBytes
  let depth := min (ringChunks / 2) depthChunks
  let window := max (bounceChunks + 1) depth
  if unusable : arena.address % arenaAlignment ≠ 0 ∨ bounceChunks = 0 ∨ ringChunks < window * 2 then none
  else some
    { file, direct := arena.direct, ringChunks, depth, bounceBytes
      bounce_pos := Nat.pos_of_ne_zero fun empty =>
        unusable (.inr (.inl (by simp [bounceChunks, empty])))
      depth_le := by
        have := not_or.mp (not_or.mp unusable).2
        omega
      bounce_le := by
        have := not_or.mp (not_or.mp unusable).2
        omega }

namespace Shared

def chunk (slot : ℕ) : ℕ := slot * chunkBytes

def bounce (shared : Shared) : ℕ := shared.ringChunks * chunkBytes

def readAt (shared : Shared) (got offset len : ℕ) : ℕ := min got (min len (shared.file.size - offset))

end Shared

def pinSlots (pins : ℕ → ℕ) (slots : List ℕ) (slot : ℕ) : ℕ := (pins slot + slots.count slot) % 2 ^ 16

def unpinSlots (pins : ℕ → ℕ) (slots : List ℕ) (slot : ℕ) : ℕ :=
  (pins slot + (2 ^ 16 - 1) * slots.count slot) % 2 ^ 16

structure State where
  cursor : ℕ := 0
  base : ℕ := 0
  head : ℕ := 0
  filled : ℕ := 0
  want : ℕ := 0
  readahead : Bool := false
  winBase : ℕ := 0
  winLen : ℕ := 0
  winSize : ℕ := 0
  interrupted : Bool := false
  ioError : Bool := false
  pins : ℕ → ℕ := fun _ => 0
  bouncePins : ℕ := 0

namespace State

def restartWindow (s : State) (ringChunks : ℕ) : State :=
  { s with head := (s.head + s.filled) % ringChunks, filled := 0, base := alignDown s.cursor }

/-- The loop of `drop_consumed`, on the base, the head and the chunks filled. -/
def consume (ringChunks cursor : ℕ) : ℕ → ℕ → ℕ → ℕ × ℕ × ℕ
  | base, head, 0 => (base, head, 0)
  | base, head, filled + 1 =>
    if base + chunkBytes ≤ cursor then
      consume ringChunks cursor (base + chunkBytes) ((head + 1) % ringChunks) filled
    else (base, head, filled + 1)

def dropConsumed (s : State) (ringChunks : ℕ) : State :=
  if s.cursor < s.base then s.restartWindow ringChunks
  else
    let (base, head, filled) := consume ringChunks s.cursor s.base s.head s.filled
    { s with base := if filled = 0 then alignDown s.cursor else base, head, filled }

def filledEnd (s : State) : ℕ := s.base + s.filled * chunkBytes

/-- `seek`, to an offset in the file. -/
def seek (s : State) (ringChunks offset : ℕ) : State :=
  { s with cursor := offset, ioError := false }.dropConsumed ringChunks

end State

inductive Wait
  | ready
  | failed
  | again
  deriving DecidableEq

/-- One look of `wait_for`. -/
def State.waitFor (s : State) (ringChunks finish : ℕ) : Wait × State :=
  let s := s.dropConsumed ringChunks
  if finish ≤ s.filledEnd then (.ready, s)
  else if !s.readahead || s.ioError || s.interrupted then (.failed, s)
  else (.again, { s with want := max s.want (chunksUp (finish - s.base)) })

def State.span (s : State) (ringChunks start size : ℕ) : ℕ × ℕ :=
  let first := chunkIndex (start - s.base)
  let last := chunkIndex (start + size - 1 - s.base)
  ((s.head + first) % ringChunks, last - first + 1)

structure Fill where
  offset : ℕ
  slot : ℕ
  got : ℕ

/-- The first part of `fill_next`. -/
def State.fillTarget (s : State) (shared : Shared) : State × Option Fill :=
  if s.readahead && !s.ioError then
    let s := s.dropConsumed shared.ringChunks
    let depth := max s.want shared.depth
    let offset := s.filledEnd
    if s.filled < depth ∧ offset < shared.file.size then
      let next := (s.head + s.filled) % shared.ringChunks
      if s.pins next = 0 then (s, some ⟨offset, next, 0⟩) else (s, none)
    else (s, none)
  else (s, none)

def Shared.wanted (shared : Shared) (offset : ℕ) : ℕ := min chunkBytes (shared.file.size - offset)

/-- The second part of `fill_next`. -/
def State.fillDone (s : State) (shared : Shared) (fill : Fill) : State :=
  if s.readahead ∧ s.filledEnd = fill.offset ∧
      (s.head + s.filled) % shared.ringChunks = fill.slot then
    if fill.got = shared.wanted fill.offset then { s with filled := s.filled + 1 }
    else { s with ioError := true }
  else s

/-- `ptr::copy` to memory, byte by byte. -/
def put (memory : ℕ → UInt8) (start count : ℕ) (bytes : ℕ → UInt8) (address : ℕ) : UInt8 :=
  if start ≤ address ∧ address < start + count then bytes (address - start) else memory address

/-- `count` bytes from `start`. -/
def bytesAt (bytes : ℕ → UInt8) (start count : ℕ) : List UInt8 :=
  (List.range count).map fun i => bytes (start + i)

inductive Pin
  | chunks (slot count : ℕ)
  | bounce
  deriving DecidableEq

def Pin.slots : Pin → List ℕ
  | .chunks slot count => List.range' slot count
  | .bounce => []

structure View where
  data : ℕ
  len : ℕ
  pin : Pin
  start : ℕ
  deriving DecidableEq

/-- Where a view in the making is: in its first critical section, in `wait_for`,
or where it waits for the bounce area. -/
inductive Stage
  | entered
  | data
  | bounce
  deriving DecidableEq

/-- What the task that reads the file is at.  What is read counts from `start`,
the cursor at the call. -/
inductive Reader
  | idle
  /-- With read-ahead, waiting for it or in the loop under the lock. -/
  | reading (start size : ℕ) (out : List UInt8) (waiting : Bool)
  /-- Without read-ahead, outside the lock. -/
  | plain (start size : ℕ)
  /-- In `read_windowed`, under the lock. -/
  | windowed (start size : ℕ) (out : List UInt8)
  | viewing (start size : ℕ) (advance : Bool) (stage : Stage)
  | copying (start size : ℕ) (advance : Bool) (slot count base head done : ℕ)

def copySlots (ringChunks slot count : ℕ) : List ℕ :=
  (List.range count).map fun i => (slot + i) % ringChunks

structure World where
  shared : Shared
  state : State := {}
  memory : ℕ → UInt8
  filling : Option Fill := none
  reader : Reader := .idle
  views : List View := []
  /-- What the calls of `read` returned, and the cursor at each call. -/
  returned : List (ℕ × List UInt8) := []

namespace World

def locked (w : World) : Bool :=
  match w.reader with
  | .reading _ _ _ waiting => !waiting
  | .windowed _ _ _ => true
  | .viewing _ _ _ stage => decide (stage = .entered)
  | _ => false

def idle (w : World) : Bool :=
  match w.reader with
  | .idle => true
  | _ => false

def between (w : World) : Bool :=
  match w.reader with
  | .viewing _ _ _ stage => decide (stage ≠ .entered)
  | .copying _ _ _ _ _ _ _ _ => true
  | _ => false

/-- `read`, up to its loop. -/
def read (w : World) (asked : ℕ) : World :=
  let s := w.state
  if w.shared.file.size ≤ s.cursor then { w with returned := (s.cursor, []) :: w.returned }
  else
    let size := min asked (w.shared.file.size - s.cursor)
    if w.shared.direct then
      { w with
        state := { s with winSize := if s.winSize = 0 then windowMinBytes else s.winSize }
        reader := .windowed s.cursor size [] }
    else if !s.readahead then { w with reader := .plain s.cursor size }
    else { w with reader := .reading s.cursor size [] false }

def finishRead (w : World) (s : State) (start : ℕ) (out : List UInt8) : World :=
  { w with state := s, reader := .idle, returned := (start, out) :: w.returned }

/-- A turn of the loop of `read`. -/
def readPass (w : World) (start size : ℕ) (out : List UInt8) : World :=
  let s := w.state
  if size ≤ out.length then w.finishRead { s with want := 0 } start out
  else
    let finish := min (alignDown s.cursor + chunkBytes) (s.cursor + (size - out.length))
    match s.waitFor w.shared.ringChunks finish with
    | (.again, s) => { w with state := s, reader := .reading start size out true }
    | (.failed, s) => w.finishRead { s with want := 0 } start out
    | (.ready, s) =>
      let index := chunkIndex (s.cursor - s.base)
      let offset := chunkOffset (s.cursor - s.base)
      let take := finish - s.cursor
      let chunk := Shared.chunk ((s.head + index) % w.shared.ringChunks)
      { w with
        state := { s with cursor := s.cursor + take }
        reader := .reading start size (out ++ bytesAt w.memory (chunk + offset) take) false }

/-- The rest of `read` without read-ahead. -/
def plainRead (w : World) (start size got : ℕ) : World :=
  let got := w.shared.readAt got start size
  w.finishRead { w.state with cursor := w.state.cursor + got } start
    (bytesAt w.shared.file.byte start got)

/-- The bytes of the window from the cursor on, at the end of a turn of the loop
of `read_windowed`. -/
def windowTake (w : World) (s : State) (memory : ℕ → UInt8) (start size : ℕ) (out : List UInt8) :
    World :=
  let offset := s.cursor - s.winBase
  let take := min (s.winLen - offset) (size - out.length)
  { w with
    state := { s with cursor := s.cursor + take }
    memory
    reader := .windowed start size (out ++ bytesAt memory (w.shared.bounce + offset) take) }

/-- A turn of the loop of `read_windowed`. -/
def windowPass (w : World) (start size : ℕ) (out : List UInt8) (got : ℕ) : World :=
  let s := w.state
  let cap := min w.shared.bounceBytes windowBytes
  if size ≤ out.length then w.finishRead s start out
  else
    let window := min s.winSize cap
    if window ≤ size - out.length then
      let got := w.shared.readAt got s.cursor (size - out.length)
      w.finishRead { s with cursor := s.cursor + got } start
        (out ++ bytesAt w.shared.file.byte s.cursor got)
    else if s.winLen = 0 ∨ s.cursor < s.winBase ∨ s.winBase + s.winLen ≤ s.cursor then
      let sequential := s.winLen ≠ 0 ∧ s.cursor = s.winBase + s.winLen
      let winSize := if sequential ∧ window < cap then window * 2 else windowMinBytes
      let winBase := s.cursor / readAlignment * readAlignment
      let winLen := w.shared.readAt got winBase (min winSize cap)
      let memory := put w.memory w.shared.bounce winLen fun i => w.shared.file.byte (winBase + i)
      let s := { s with winSize, winBase, winLen }
      if winLen ≤ s.cursor - winBase then { w with memory }.finishRead s start out
      else w.windowTake s memory start size out
    else w.windowTake s w.memory start size out

def seek (w : World) (offset : ℤ) : World :=
  { w with state := w.state.seek w.shared.ringChunks (min offset.toNat w.shared.file.size) }

def setReadahead (w : World) (enabled : Bool) : World :=
  if w.shared.direct then w
  else
    let s := { w.state with readahead := enabled }
    { w with state := if enabled then s else s.restartWindow w.shared.ringChunks }

/-- `view`, up to `view_locked`. -/
def view (w : World) (size : ℕ) : World :=
  if size = 0 ∨ w.shared.bounceBytes < size ∨ w.shared.file.size < w.state.cursor + size then w
  else { w with reader := .viewing w.state.cursor size true .entered }

/-- `view_at`, up to `view_locked`. -/
def viewAt (w : World) (offset : ℤ) (size : ℕ) : World :=
  if offset < 0 ∨ size = 0 ∨ w.shared.bounceBytes < size ∨
      (w.shared.file.size : ℤ) < offset + size then w
  else
    let offset := offset.toNat
    let s := w.state
    { w with
      state :=
        if offset < s.cursor ∨
            alignDown s.cursor + w.shared.ringChunks / 2 * chunkBytes < offset + size then
          s.seek w.shared.ringChunks offset
        else s
      reader := .viewing offset size false .entered }

def failView (w : World) (s : State) : World :=
  { w with state := { s with want := 0 }, reader := .idle }

/-- `view_locked`, once the chunks from `start` on are there. -/
def viewReady (w : World) (s : State) (start size : ℕ) (advance : Bool) : World :=
  let (slot, count) := s.span w.shared.ringChunks start size
  if slot + count ≤ w.shared.ringChunks then
    { w with
      state :=
        { s with
          pins := pinSlots s.pins (List.range' slot count)
          cursor := if advance then start + size else s.cursor
          want := 0 }
      reader := .idle
      views :=
        { data := Shared.chunk slot + chunkOffset (start - s.base), len := size
          pin := .chunks (slot % 2 ^ 16) (count % 2 ^ 16), start } :: w.views }
  else if s.bouncePins = 0 then
    { w with
      state :=
        { s with
          bouncePins := 1, pins := pinSlots s.pins (copySlots w.shared.ringChunks slot count) }
      reader := .copying start size advance slot count s.base s.head 0 }
  else if s.interrupted then w.failView s
  else { w with state := s, reader := .viewing start size advance .bounce }

def viewPass (w : World) (start size : ℕ) (advance : Bool) (stage : Stage) : World :=
  if stage ≠ .data ∧ !w.state.readahead then w.failView w.state
  else
    match w.state.waitFor w.shared.ringChunks (start + size) with
    | (.again, s) => { w with state := s, reader := .viewing start size advance .data }
    | (.failed, s) => w.failView s
    | (.ready, s) =>
      if start < s.base then w.failView s else w.viewReady s start size advance

def copyPass (w : World) (start size : ℕ) (advance : Bool) (slot count base head done : ℕ) :
    World :=
  if done < size then
    let position := start + done
    let index := chunkIndex (position - base)
    let offset := chunkOffset (position - base)
    let take := min (chunkBytes - offset) (size - done)
    let chunk := Shared.chunk ((head + index) % w.shared.ringChunks)
    { w with
      memory := put w.memory (w.shared.bounce + done) take fun i => w.memory (chunk + offset + i)
      reader := .copying start size advance slot count base head (done + take) }
  else
    { w with
      state :=
        { w.state with
          pins := unpinSlots w.state.pins (copySlots w.shared.ringChunks slot count)
          cursor := if advance then start + size else w.state.cursor
          want := 0 }
      reader := .idle
      views := { data := w.shared.bounce, len := size, pin := .bounce, start } :: w.views }

/-- The task that reads the file goes on; a read of the file gets `got` bytes. -/
def resume (w : World) (got : ℕ) : Option World :=
  match w.reader with
  | .idle => none
  | .reading start size out _ => some (w.readPass start size out)
  | .plain start size => some (w.plainRead start size got)
  | .windowed start size out => some (w.windowPass start size out got)
  | .viewing start size advance stage => some (w.viewPass start size advance stage)
  | .copying start size advance slot count base head done =>
    some (w.copyPass start size advance slot count base head done)

def fill (w : World) : World :=
  let (state, filling) := w.state.fillTarget w.shared
  { w with state, filling }

def fillRead (w : World) (fill : Fill) (got : ℕ) : World :=
  let got := min got (w.shared.wanted fill.offset - fill.got)
  { w with
    memory := put w.memory (Shared.chunk fill.slot + fill.got) got fun i =>
      w.shared.file.byte (fill.offset + fill.got + i)
    filling := some { fill with got := fill.got + got } }

def fillEnd (w : World) (fill : Fill) : World :=
  { w with state := w.state.fillDone w.shared fill, filling := none }

/-- `release`, when a view is dropped. -/
def release (w : World) (view : View) : World :=
  { w with
    state :=
      match view.pin with
      | .bounce => { w.state with bouncePins := w.state.bouncePins - 1 }
      | .chunks _ _ => { w.state with pins := unpinSlots w.state.pins view.pin.slots }
    views := w.views.erase view }

def interrupt (w : World) (interrupted : Bool) : World :=
  { w with state := { w.state with interrupted } }

end World

inductive Act
  | read (asked : ℕ)
  | view (size : ℕ)
  | viewAt (offset : ℤ) (size : ℕ)
  | seek (offset : ℤ)
  | setReadahead (enabled : Bool)
  | resume (got : ℕ)
  | fill
  | fillRead (got : ℕ)
  | fillEnd
  | drop (view : View)
  /-- A `seek` by another task, in the middle of a view. -/
  | otherSeek (offset : ℤ)
  | interrupt (interrupted : Bool)

namespace World

def act (w : World) : Act → Option World
  | .read asked => if w.idle then some (w.read asked) else none
  | .view size => if w.idle then some (w.view size) else none
  | .viewAt offset size => if w.idle then some (w.viewAt offset size) else none
  | .seek offset => if w.idle then some (w.seek offset) else none
  | .setReadahead enabled => if w.idle then some (w.setReadahead enabled) else none
  | .resume got => w.resume got
  | .fill => if w.locked = false ∧ w.filling.isNone then some w.fill else none
  | .fillRead got => w.filling.map fun fill => w.fillRead fill got
  | .fillEnd => if w.locked then none else w.filling.map w.fillEnd
  | .drop view => if w.locked = false ∧ view ∈ w.views then some (w.release view) else none
  | .otherSeek offset => if w.between then some (w.seek offset) else none
  | .interrupt interrupted => if w.locked then none else some (w.interrupt interrupted)

/-- A buffer just opened, in an arena that holds anything. -/
inductive Initial : World → Prop
  | opened {file : File} {arena : Arena} {shared : Shared} (memory : ℕ → UInt8) :
      open' file arena = some shared → Initial { shared, memory }

end World

end EspDevkit.Media
