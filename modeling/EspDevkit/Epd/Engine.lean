import Mathlib.Logic.Function.Basic
import EspDevkit.Epd.Waveform

/-!
# The refresh engine of the e-paper panel

One task drives frames, any number of tasks draw, refresh, clear and wait.  A
mutex guards every write; the scan of a frame reads without it.  A section of a
caller that holds the mutex computes what it will leave and then writes it, so
that the scan in between sees each word as it was or as it will be.
-/

namespace EspDevkit.Epd

structure Panel where
  width : ℕ
  height : ℕ
  width_lt : width < 2 ^ 16
  quarters : width % 4 = 0
  fb_lt : height * width < 2 ^ 32

variable {panel : Panel} {Task : Type}

/-- What the mutex guards, of `epd_t`. -/
structure Data (panel : Panel) where
  wf : Fin 4 → Option Waveform
  state : Fin panel.height → Fin panel.width → Px
  rowNonidle : Fin panel.height → ℕ
  group : Fin 256 → ℕ
  activePx : ℕ
  frame : ℕ
  waiters : ℕ
  running : Bool

structure Area where
  x0 : ℤ
  y0 : ℤ
  x1 : ℤ
  y1 : ℤ

def Area.has (area : Area) (y x : ℕ) : Bool :=
  decide (area.y0 ≤ y ∧ y < area.y1 ∧ area.x0 ≤ x ∧ x < area.x1)

inductive Rotation where
  | R0
  | R90
  | R180
  | R270

/-- Where the pixel of row `dr` and column `dc` lies in the source. -/
def sourceIndex (rotation : Rotation) (w h dr dc : ℕ) : ℕ :=
  match rotation with
  | .R90 => dc * h + (h - 1 - dr)
  | .R270 => (w - 1 - dc) * h + dr
  | .R180 => (h - 1 - dr) * w + (w - 1 - dc)
  | .R0 => dr * w + dc

/-- What `draw_bitmap` is given. -/
structure Image where
  area : Area
  rotation : Rotation
  src : List UInt8

/-- `src[si] >> 4` for a pixel of the panel. -/
def Image.gray (image : Image) (y x : ℕ) : Fin 16 :=
  let area := image.area
  let si := sourceIndex image.rotation (area.x1 - area.x0).toNat (area.y1 - area.y0).toNat
    (y - area.y0).toNat (x - area.x0).toNat
  ⟨(image.src.getD si 0).toNat / 16, by
    have := (image.src.getD si 0).toNat_lt
    omega⟩

inductive Op where
  | draw (image : Image)
  | seed (image : Image)
  | refresh (area : Area) (slot : Fin 4) (all : Bool)
  | waitDraw
  | clear
  | swap (slot : Fin 4) (w : Waveform)

/-- How a section ends: in `wait_retire`, or done, having to wake the engine or
not. -/
inductive Outcome where
  | waits
  | done (wake : Bool)

namespace Data

variable (d : Data panel)

/-- How many pixels satisfy `p`. -/
def count (p : Px → Bool) : ℕ := ∑ y, ∑ x, if p (d.state y x) then 1 else 0

def areaHasActive (area : Area) : Bool :=
  (List.finRange panel.height).any fun y =>
    d.rowNonidle y ≠ 0 && (List.finRange panel.width).any fun x =>
      area.has y x && (d.state y x).isActive

def waitRetire : Data panel × Outcome := ({ d with waiters := d.waiters + 1 }, .waits)

/-- The walk of `op_draw_bitmap`, with whether it met a conflict. -/
def drawWalk (image : Image) : Data panel × Bool :=
  let stamp (y : Fin panel.height) (x : Fin panel.width) := drawPx (d.state y x) (image.gray y x)
  let gained (y : Fin panel.height) : ℕ :=
    ∑ x : Fin panel.width, if image.area.has y x ∧ (stamp y x).2.2 then 1 else 0
  ({ d with
      state := fun y x => if image.area.has y x then (stamp y x).1 else d.state y x
      rowNonidle := fun y => (d.rowNonidle y + gained y) % 2 ^ 16
      group := Function.update d.group EPD_B1_PENDING
        ((d.group EPD_B1_PENDING + ∑ y, gained y) % 2 ^ 32) },
    (List.finRange panel.height).any fun y => (List.finRange panel.width).any fun x =>
      image.area.has y x && (stamp y x).2.1)

/-- The walk of `seed_bitmap`. -/
def seedWalk (image : Image) : Data panel :=
  let subsumed (y : Fin panel.height) : ℕ :=
    ∑ x : Fin panel.width,
      if image.area.has y x ∧ (d.state y x).b1 = EPD_B1_PENDING then 1 else 0
  { d with
    state := fun y x =>
      if image.area.has y x then ⟨EPD_B1_IDLE, image.gray y x, image.gray y x⟩ else d.state y x
    rowNonidle := fun y => (d.rowNonidle y + 2 ^ 16 - subsumed y) % 2 ^ 16
    group := Function.update d.group EPD_B1_PENDING
      ((d.group EPD_B1_PENDING + 2 ^ 32 - ∑ y, subsumed y) % 2 ^ 32) }

/-- Whether `op_refresh` looks at a pixel. -/
def walks (area : Area) (all : Bool) (y : Fin panel.height) (x : Fin panel.width) : Bool :=
  area.has y x && (all || decide (d.rowNonidle y ≠ 0))

def armsPending (area : Area) (all : Bool) (y : Fin panel.height) (x : Fin panel.width) : Bool :=
  d.walks area all y x && decide ((d.state y x).b1 = EPD_B1_PENDING)

def armsIdle (area : Area) (all : Bool) (y : Fin panel.height) (x : Fin panel.width) : Bool :=
  d.walks area all y x && all && decide ((d.state y x).b1 = EPD_B1_IDLE)

/-- The walk of `op_refresh`. -/
def refreshWalk (area : Area) (slot : Fin 4) (all : Bool) : Data panel × Outcome :=
  let b1 := b1Armed slot d.frame
  let rowNewNonidle (y : Fin panel.height) : ℕ := ∑ x, if d.armsIdle area all y x then 1 else 0
  let fromPending : ℕ := ∑ y, ∑ x, if d.armsPending area all y x then 1 else 0
  let armed : ℕ := ∑ y, ∑ x, if d.armsPending area all y x || d.armsIdle area all y x then 1 else 0
  let group := Function.update d.group EPD_B1_PENDING
    ((d.group EPD_B1_PENDING + 2 ^ 32 - fromPending) % 2 ^ 32)
  let d' : Data panel :=
    { d with
      state := fun y x =>
        if d.armsPending area all y x || d.armsIdle area all y x then { d.state y x with b1 }
        else d.state y x
      rowNonidle := fun y => (d.rowNonidle y + rowNewNonidle y) % 2 ^ 16
      group }
  if armed = 0 then (d', .done false)
  else
    ({ d' with
        group := Function.update group b1 ((group b1 + armed) % 2 ^ 32)
        activePx := (d.activePx + armed) % 2 ^ 32
        running := true }, .done (!d.running))

/-- What `op_clear` does once no pixel is in flight. -/
def clearWalk : Data panel × Outcome :=
  let frame := if d.frame = 61 ∨ d.frame = 62 then 63 else d.frame
  let b1 := b1Armed 3 frame
  let fb := panel.height * panel.width % 2 ^ 32
  ({ d with
      state := fun y x => ⟨b1, (d.state y x).confirmed, 15⟩
      rowNonidle := fun _ => panel.width % 2 ^ 16
      group := Function.update (Function.update d.group EPD_B1_PENDING 0) b1 fb
      activePx := fb
      frame
      running := true }, .done (!d.running))

def attempt : Op → Data panel × Outcome
  | .draw image =>
    let (d, conflict) := d.drawWalk image
    if conflict then d.waitRetire else (d, .done false)
  | .seed image => if d.areaHasActive image.area then d.waitRetire else (d.seedWalk image, .done false)
  | .refresh area slot all =>
    if all && d.areaHasActive area then d.waitRetire else d.refreshWalk area slot all
  | .waitDraw => if d.activePx ≠ 0 then d.waitRetire else (d, .done false)
  | .clear => if d.activePx ≠ 0 then d.waitRetire else d.clearWalk
  | .swap slot w =>
    if d.activePx ≠ 0 then d.waitRetire
    else ({ d with wf := Function.update d.wf slot (some w) }, .done false)

end Data

def EPD_ACT_POOL : ℕ := 16

/-- What `run_one_frame` keeps of a frame: its tables, how it makes lines and
whether anything retires.  `start` is not in the code: the data when the frame
began. -/
structure Frame (panel : Panel) where
  rowsetTab : Fin 256 → RowPtr
  retireTab : Fin 256 → Bool
  actTabs : Fin 256 → Fin 256 → ℕ
  tabOk : Bool
  uniform : Option ℕ
  anyRetire : Bool
  start : Data panel

namespace Data

/-- The tables and the sweep of the live groups at the start of a frame. -/
def buildFrame (rows : Rows) (d : Data panel) : Data panel × Frame panel :=
  let d := { d with frame := (d.frame + 1) % 64 }
  let tab := frameTab rows d.wf d.frame (decide (0 < d.waiters))
  let live := (List.finRange 256).filter fun b1 => d.group b1 ≠ 0
  let only := (live.map fun b1 => (tab b1).1).head?
  let multiple := live.any fun b1 => some (tab b1).1 ≠ only
  let driving := live.filter fun b1 => (tab b1).1 ≠ none
  (d,
    { rowsetTab := fun b1 => (tab b1).1
      retireTab := fun b1 => (tab b1).2
      actTabs := fun b1 =>
        if b1 ∈ driving.take EPD_ACT_POOL then buildAct256 (rowset rows (tab b1).1) else fun _ => 0
      tabOk := decide (driving.length ≤ EPD_ACT_POOL)
      uniform :=
        match only with
        | some ptr =>
          if !multiple && decide (d.group EPD_B1_PENDING = 0) then rowsetUniform (rowset rows ptr)
          else none
        | none => none
      anyRetire := live.any fun b1 => (tab b1).2
      start := d })

def retirePass (d : Data panel) (retireTab : Fin 256 → Bool) : Data panel × ℕ :=
  let freed (y : Fin panel.height) : ℕ :=
    if d.rowNonidle y = 0 then 0
    else ∑ x : Fin panel.width, if retireTab (d.state y x).b1 then 1 else 0
  let freedTotal := ∑ y, freed y
  ({ d with
      state := fun y x =>
        if d.rowNonidle y = 0 then d.state y x else retirePx retireTab (d.state y x)
      rowNonidle := fun y => (d.rowNonidle y + 2 ^ 16 - freed y) % 2 ^ 16
      group := fun b1 => if retireTab b1 then 0 else d.group b1
      activePx := (d.activePx + 2 ^ 32 - freedTotal) % 2 ^ 32 },
    freedTotal)

end Data

def Frame.act (rows : Rows) (frame : Frame panel) (px : Px) : ℕ :=
  if frame.tabOk then frame.actTabs px.b1 px.low
  else action (rowset rows (frame.rowsetTab px.b1)) px.confirmed px.target

/-- How far the scan is with a row: before its first and its second look at
`row_nonidle`, or packing pixels. -/
inductive RowPart where
  | first
  | second (byte : ℕ)
  | pixels (actions : List ℕ)

/-- One step of the scan of a row, which reads `view`: the row goes on, or its
line is sent. -/
def Frame.scanRow (rows : Rows) (frame : Frame panel) (view : Data panel) (y : Fin panel.height) :
    RowPart → RowPart ⊕ List ℕ
  | .first =>
    if view.rowNonidle y = 0 then .inr (List.replicate (panel.width / 4) 0)
    else
      match frame.uniform with
      | some byte => .inl (.second byte)
      | none => .inl (.pixels [])
  | .second byte =>
    if view.rowNonidle y = panel.width % 2 ^ 16 then .inr (List.replicate (panel.width / 4) byte)
    else .inl (.pixels [])
  | .pixels actions =>
    if more : actions.length < panel.width then
      .inl (.pixels (actions ++ [frame.act rows (view.state y ⟨actions.length, more⟩)]))
    else .inr (pack actions)

/-- Where `refresh_task` stands. -/
inductive Engine (panel : Panel) where
  | deciding
  | sleeping
  | starting
  | scanning (frame : Frame panel) (y : ℕ) (part : RowPart) (sent : List (List ℕ))
  | retiring (frame : Frame panel)
  | posting (freed : ℕ)

/-- Where a caller stands: before the mutex, in `wait_retire` before and after
the event, before the notification, after the walk of a draw. -/
inductive Caller where
  | idle
  | entering (op : Op)
  | waiting (op : Op)
  | relocking (op : Op)
  | notifying
  | drawn (area : Area)

inductive BaseMode where
  | NONE
  | FAST
  | QUALITY
  | TEXT
  | SEED
  deriving DecidableEq

/-- `bsp_epd_mode_t`, the flag `BSP_EPD_MODE_ALL` apart. -/
structure Mode where
  base : BaseMode
  all : Bool

def modeToWf : BaseMode → Option (Fin 4)
  | .FAST => some 0
  | .QUALITY => some 1
  | .TEXT => some 2
  | _ => none

/-- A section that holds the mutex and has yet to write what it leaves. -/
structure Section (panel : Panel) (Task : Type) where
  task : Task
  op : Op
  result : Data panel
  outcome : Outcome

/-- `epd_t` with the tasks.  `played` is not in the code: the steps of its
waveform that a pixel has played since it was armed. -/
structure Driver (panel : Panel) (Task : Type) where
  data : Data panel
  writing : Option (Section panel Task)
  mode : Mode
  retireEvt : Bool
  notified : Bool
  engine : Engine panel
  callers : Task → Caller
  played : Fin panel.height → Fin panel.width → List ℕ

inductive Call where
  | drawBitmap (image : Image)
  | refresh (area : Area) (mode : Mode)
  | clear
  | waitDraw
  | swap (slot : Fin 4) (lut : Option ℕ) (steps : ℕ)

/-- The clipping of `op_refresh`. -/
def Area.clip (panel : Panel) (area : Area) : Area :=
  ⟨max area.x0 0, max area.y0 0, min area.x1 panel.width, min area.y1 panel.height⟩

/-- `op_refresh` up to the mutex. -/
def Data.enterRefresh (d : Data panel) (area : Area) (mode : Mode) : Option Op :=
  match modeToWf mode.base with
  | none => none
  | some slot =>
    if d.wf slot = none then none
    else
      let area := area.clip panel
      if area.x1 ≤ area.x0 ∨ area.y1 ≤ area.y0 then none else some (.refresh area slot mode.all)

inductive Action (Task : Type) where
  | setMode (mode : Mode)
  | call (task : Task) (call : Call)
  | lock (task : Task)
  | unlock
  | takeEvent (task : Task)
  | notify (task : Task)
  | refreshDrawn (task : Task)
  | decide
  | wake
  | begin
  | scan (fresh : Bool)
  | retire
  | post (fresh : Bool)

namespace Driver

variable [DecidableEq Task]

def view (epd : Driver panel Task) (fresh : Bool) : Data panel :=
  match epd.writing with
  | some writing => if fresh then writing.result else epd.data
  | none => epd.data

def move (epd : Driver panel Task) (task : Task) (caller : Caller) : Driver panel Task :=
  { epd with callers := Function.update epd.callers task caller }

/-- A call up to the mutex; `none` when it returns before. -/
def enter (rows : Rows) (epd : Driver panel Task) : Call → Option Op
  | .drawBitmap image =>
    let area := image.area
    if area.x0 < 0 ∨ area.y0 < 0 ∨ (panel.width : ℤ) < area.x1 ∨ (panel.height : ℤ) < area.y1 then
      none
    else if epd.mode.base = .SEED then some (.seed image)
    else some (.draw image)
  | .refresh area mode => epd.data.enterRefresh area mode
  | .clear => some .clear
  | .waitDraw => some .waitDraw
  | .swap slot lut steps => (Waveform.init rows lut steps).map (.swap slot)

def lockWith (epd : Driver panel Task) (task : Task) (op : Op) (d : Data panel) : Driver panel Task :=
  let (result, outcome) := d.attempt op
  { epd with
    writing := some ⟨task, op, result, outcome⟩
    played := fun y x =>
      if !(epd.data.state y x).isActive && (result.state y x).isActive then [] else epd.played y x }

def after (op : Op) : Outcome → Caller
  | .waits => .waiting op
  | .done true => .notifying
  | .done false =>
    match op with
    | .draw image => .drawn image.area
    | _ => .idle

/-- One action of a task; `none` when the task cannot take it. -/
def step (rows : Rows) (epd : Driver panel Task) : Action Task → Option (Driver panel Task)
  | .setMode mode => some { epd with mode }
  | .call task call =>
    match epd.callers task with
    | .idle =>
      match epd.enter rows call with
      | some op => some (epd.move task (.entering op))
      | none => some epd
    | _ => none
  | .lock task =>
    match epd.writing with
    | some _ => none
    | none =>
      match epd.callers task with
      | .entering op => some (epd.lockWith task op epd.data)
      | .relocking op =>
        some (epd.lockWith task op { epd.data with waiters := epd.data.waiters - 1 })
      | _ => none
  | .unlock =>
    match epd.writing with
    | some writing =>
      some ({ epd with data := writing.result, writing := none }.move writing.task
        (after writing.op writing.outcome))
    | none => none
  | .takeEvent task =>
    match epd.callers task with
    | .waiting op =>
      if epd.retireEvt then some ({ epd with retireEvt := false }.move task (.relocking op)) else none
    | _ => none
  | .notify task =>
    match epd.callers task with
    | .notifying => some ({ epd with notified := true }.move task .idle)
    | _ => none
  | .refreshDrawn task =>
    match epd.callers task with
    | .drawn area =>
      match epd.data.enterRefresh area epd.mode with
      | some op => some (epd.move task (.entering op))
      | none => some (epd.move task .idle)
    | _ => none
  | .decide =>
    match epd.writing, epd.engine with
    | none, .deciding =>
      if epd.data.activePx = 0 then
        some { epd with data := { epd.data with running := false }, engine := .sleeping }
      else some { epd with engine := .starting }
    | _, _ => none
  | .wake =>
    match epd.engine with
    | .sleeping =>
      if epd.notified then some { epd with notified := false, engine := .deciding } else none
    | _ => none
  | .begin =>
    match epd.writing, epd.engine with
    | none, .starting =>
      let (data, frame) := epd.data.buildFrame rows
      some { epd with
        data
        engine := .scanning frame 0 .first []
        played := fun y x =>
          let px := data.state y x
          if px.isActive && decide (stepAt data.frame px.b1 ≠ 63) then
            epd.played y x ++ [stepAt data.frame px.b1]
          else epd.played y x }
    | _, _ => none
  | .scan fresh =>
    match epd.engine with
    | .scanning frame y part sent =>
      if more : y < panel.height then
        match frame.scanRow rows (epd.view fresh) ⟨y, more⟩ part with
        | .inl part => some { epd with engine := .scanning frame y part sent }
        | .inr line => some { epd with engine := .scanning frame (y + 1) .first (sent ++ [line]) }
      else if frame.anyRetire then some { epd with engine := .retiring frame }
      else some { epd with engine := .posting 0 }
    | _ => none
  | .retire =>
    match epd.writing, epd.engine with
    | none, .retiring frame =>
      let (data, freed) := epd.data.retirePass frame.retireTab
      some { epd with data, engine := .posting freed }
    | _, _ => none
  | .post fresh =>
    match epd.engine with
    | .posting freed =>
      some { epd with
        retireEvt := epd.retireEvt || decide (freed ≠ 0) || decide (0 < (epd.view fresh).waiters)
        engine := .deciding }
    | _ => none

/-- What an action can do. -/
inductive Moves (rows : Rows) (epd : Driver panel Task) : Action Task → Driver panel Task → Prop
  | setMode {mode : Mode} : Moves rows epd (.setMode mode) { epd with mode }
  | called {task : Task} {call : Call} {op : Op} : epd.callers task = .idle →
    epd.enter rows call = some op → Moves rows epd (.call task call) (epd.move task (.entering op))
  | returned {task : Task} {call : Call} : Moves rows epd (.call task call) epd
  | locked {task : Task} {op : Op} : epd.callers task = .entering op →
    Moves rows epd (.lock task) (epd.lockWith task op epd.data)
  | relocked {task : Task} {op : Op} : epd.callers task = .relocking op →
    Moves rows epd (.lock task)
      (epd.lockWith task op { epd.data with waiters := epd.data.waiters - 1 })
  | unlocked {held : Section panel Task} : epd.writing = some held →
    Moves rows epd .unlock ({ epd with data := held.result, writing := none }.move held.task
      (after held.op held.outcome))
  | tookEvent {task : Task} {op : Op} : epd.callers task = .waiting op →
    Moves rows epd (.takeEvent task) ({ epd with retireEvt := false }.move task (.relocking op))
  | notified {task : Task} : epd.callers task = .notifying →
    Moves rows epd (.notify task) ({ epd with notified := true }.move task .idle)
  | refreshes {task : Task} {area : Area} {op : Op} : epd.callers task = .drawn area →
    epd.data.enterRefresh area epd.mode = some op →
      Moves rows epd (.refreshDrawn task) (epd.move task (.entering op))
  | refreshed {task : Task} {area : Area} : epd.callers task = .drawn area →
    Moves rows epd (.refreshDrawn task) (epd.move task .idle)
  | sleeps : epd.writing = none → epd.engine = .deciding →
    Moves rows epd .decide
      { epd with data := { epd.data with running := false }, engine := .sleeping }
  | starts : epd.writing = none → epd.engine = .deciding → epd.data.activePx ≠ 0 →
    Moves rows epd .decide { epd with engine := .starting }
  | woken : epd.engine = .sleeping →
    Moves rows epd .wake { epd with notified := false, engine := .deciding }
  | begins : epd.writing = none → epd.engine = .starting →
    Moves rows epd .begin
      { epd with
        data := (epd.data.buildFrame rows).1
        engine := .scanning (epd.data.buildFrame rows).2 0 .first []
        played := fun y x =>
          let px := (epd.data.buildFrame rows).1.state y x
          if px.isActive && decide (stepAt (epd.data.buildFrame rows).1.frame px.b1 ≠ 63) then
            epd.played y x ++ [stepAt (epd.data.buildFrame rows).1.frame px.b1]
          else epd.played y x }
  | scans {fresh : Bool} {frame : Frame panel} {y : ℕ} {part next : RowPart}
      {sent : List (List ℕ)} (more : y < panel.height) :
    epd.engine = .scanning frame y part sent →
      frame.scanRow rows (epd.view fresh) ⟨y, more⟩ part = .inl next →
        Moves rows epd (.scan fresh) { epd with engine := .scanning frame y next sent }
  | sends {fresh : Bool} {frame : Frame panel} {y : ℕ} {part : RowPart} {line : List ℕ}
      {sent : List (List ℕ)} (more : y < panel.height) :
    epd.engine = .scanning frame y part sent →
      frame.scanRow rows (epd.view fresh) ⟨y, more⟩ part = .inr line →
        Moves rows epd (.scan fresh)
          { epd with engine := .scanning frame (y + 1) .first (sent ++ [line]) }
  | scanned {fresh : Bool} {frame : Frame panel} {y : ℕ} {part : RowPart}
      {sent : List (List ℕ)} : epd.engine = .scanning frame y part sent →
    Moves rows epd (.scan fresh) { epd with engine := .retiring frame }
  | skipped {fresh : Bool} {frame : Frame panel} {y : ℕ} {part : RowPart}
      {sent : List (List ℕ)} : epd.engine = .scanning frame y part sent →
    ¬frame.anyRetire = true → Moves rows epd (.scan fresh) { epd with engine := .posting 0 }
  | retires {frame : Frame panel} : epd.writing = none → epd.engine = .retiring frame →
    Moves rows epd .retire
      { epd with
        data := (epd.data.retirePass frame.retireTab).1
        engine := .posting (epd.data.retirePass frame.retireTab).2 }
  | posts {fresh : Bool} {freed : ℕ} : epd.engine = .posting freed →
    Moves rows epd (.post fresh)
      { epd with
        retireEvt := epd.retireEvt || decide (freed ≠ 0) || decide (0 < (epd.view fresh).waiters)
        engine := .deciding }

theorem moves {rows : Rows} {epd after : Driver panel Task} {action : Action Task}
    (stepTo : epd.step rows action = some after) : epd.Moves rows action after := by
  revert stepTo
  fun_cases step rows epd action <;> intro stepTo <;> cases stepTo
  · exact .setMode
  · exact .called ‹_› ‹_›
  · exact .returned
  · exact .locked ‹_›
  · exact .relocked ‹_›
  · exact .unlocked ‹_›
  · exact .tookEvent ‹_›
  · exact .notified ‹_›
  · exact .refreshes ‹_› ‹_›
  · exact .refreshed ‹_›
  · exact .sleeps ‹_› ‹_›
  · exact .starts ‹_› ‹_› ‹_›
  · exact .woken ‹_›
  · rename_i starting free data frame built
    have begins := @Moves.begins _ _ _ rows epd free starting
    rwa [built] at begins
  · exact .scans ‹_› ‹_› ‹_›
  · exact .sends ‹_› ‹_› ‹_›
  · exact .scanned ‹_›
  · exact .skipped ‹_› ‹_›
  · rename_i frame retiring free data freed passed
    have retires := @Moves.retires _ _ _ rows epd frame free retiring
    rwa [passed] at retires
  · exact .posts ‹_›

def Next (rows : Rows) (before after : Driver panel Task) : Prop :=
  ∃ action, before.step rows action = some after

/-- What `epd_ll_create` binds to a slot: nothing when it is given nothing, and
`none` when the waveform is refused. -/
def bindWaveform (rows : Rows) (lut : Option ℕ) (steps : ℕ) : Option (Option Waveform) :=
  if lut = none ∨ steps = 0 then some none else (Waveform.init rows lut steps).map some

/-- `epd_ll_create`; CLEAR is mandatory. -/
def create (rows : Rows) (luts : Fin 4 → Option ℕ × ℕ) : Option (Driver panel Task) :=
  let bound (slot : Fin 4) := bindWaveform rows (luts slot).1 (luts slot).2
  let wf (slot : Fin 4) : Option Waveform := (bound slot).join
  if ((List.finRange 4).any fun slot => (bound slot).isNone) || (wf 3).isNone then none
  else
    some
      { data :=
          { wf
            state := fun _ _ => ⟨EPD_B1_IDLE, 15, 15⟩
            rowNonidle := fun _ => 0
            group := fun _ => 0
            activePx := 0
            frame := 0
            waiters := 0
            running := false }
        writing := none
        mode := ⟨.NONE, false⟩
        retireEvt := false
        notified := false
        engine := .deciding
        callers := fun _ => .idle
        played := fun _ _ => [] }

end Driver

end EspDevkit.Epd
