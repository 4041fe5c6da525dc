import EspDevkit.Gfx.Damage
import Mathlib.Algebra.Group.Int.Defs

/-!
# Drawing a display list

`draw_ops` walks a display list forward with a stack of clips, and draws the operations from
`first` on.  `start_op` walks it backward for an opaque operation that covers the whole area
under no clip, where drawing may start.  How a pixel is stored and blended, what the other
operations paint, and the corners of round clips are parameters: functions of what is there.
-/

namespace EspDevkit.Gfx

structure Color where
  r : UInt8
  g : UInt8
  b : UInt8
  a : UInt8
  deriving DecidableEq

/-- The formats that `DisplayList::image` takes. -/
inductive ImageFormat
  | l8
  | a8
  | rgb565
  | bgr888
  | argb8888
  deriving DecidableEq

structure Image where
  format : ImageFormat
  width : UInt16
  height : UInt16
  pixel : ℤ → ℤ → ℕ → UInt8

structure Pixel where
  Stored : Type
  native : ImageFormat
  pack : Color → Stored
  load : (ℕ → UInt8) → Stored
  blend : Stored → Stored → UInt8 → Stored
  blendMask : Stored → UInt8 → Stored → UInt8 → Stored

/-- The operations: fills, images, all others that paint, and clips. -/
inductive Op (Paint Corner : Type)
  | fill (rect : Rect) (color : Color)
  | image (x y : Int16) (source : Image) (tint : Color)
  | painted (bounds : Rect) (paint : Paint)
  | pushClip (rect : Rect)
  | popClip
  | pushRoundClip (rect : Rect) (corner : Corner)
  | popRoundClip

namespace Op

variable {Paint Corner : Type}

def imageRect (x y : Int16) (image : Image) : Rect :=
  ⟨x, y, image.width.toInt16, image.height.toInt16⟩

def bounds : Op Paint Corner → Rect
  | .fill rect _ => rect
  | .image x y source _ => imageRect x y source
  | .painted bounds _ => bounds
  | .pushClip rect | .pushRoundClip rect _ => rect
  | .popClip | .popRoundClip => ⟨0, 0, 0, 0⟩

def isOpaque : Op Paint Corner → Bool
  | .fill _ color => color.a == 255
  | .image _ _ source tint => tint.a == 255 && source.format != .argb8888 && source.format != .a8
  | _ => false

end Op

def Rect.contains (r other : Rect) : Bool :=
  r.x ≤ other.x && r.y ≤ other.y && r.right ≥ other.right && r.bottom ≥ other.bottom

/-- Writable pixels that cover `area`, or half of its rows and columns. -/
structure Surface where
  area : Rect
  shift : ℕ

namespace Surface

variable (s : Surface) {P : Pixel}

def cell (at_ origin : Int16) : ℤ := (at_ - origin).toInt / 2 ^ s.shift

def columns : ℕ := (s.cell s.area.right s.area.x).toNat

def rows : ℕ := (s.cell s.area.bottom s.area.y).toNat

abbrev Cell : Type := Fin s.columns × Fin s.rows

abbrev Pixels (P : Pixel) : Type := s.Cell → P.Stored

/-- The cells that `r` covers. -/
def covers (r : Rect) (c : s.Cell) : Bool :=
  s.cell r.x s.area.x ≤ c.1 && c.1 < s.cell r.right s.area.x &&
    s.cell r.y s.area.y ≤ c.2 && c.2 < s.cell r.bottom s.area.y

def logicalX (u : ℕ) : ℤ := s.area.x.toInt + u * 2 ^ s.shift + s.shift

def logicalY (v : ℕ) : ℤ := s.area.y.toInt + v * 2 ^ s.shift + s.shift

def fill (rect clip : Rect) (c : Color) (pixels : s.Pixels P) : s.Pixels P := fun cell =>
  if s.covers (rect.intersect clip) cell ∧ c.a ≠ 0 then
    if c.a = 255 then P.pack c else P.blend (pixels cell) (P.pack c) c.a
  else pixels cell

def mul8 (a b : UInt8) : UInt8 :=
  let v : UInt32 := a.toUInt32 * b.toUInt32 + 128
  ((v + (v >>> 8)) >>> 8).toUInt8

def colorOf (format : ImageFormat) (bytes : ℕ → UInt8) : Color :=
  match format with
  | .l8 => ⟨bytes 0, bytes 0, bytes 0, 255⟩
  | .a8 => ⟨0, 0, 0, bytes 0⟩
  | .rgb565 =>
    let v := (bytes 1).toUInt16 <<< 8 ||| (bytes 0).toUInt16
    let r := (v >>> 11).toUInt8
    let g := (v >>> 5).toUInt8 &&& 0x3f
    let b := v.toUInt8 &&& 0x1f
    ⟨r <<< 3 ||| r >>> 2, g <<< 2 ||| g >>> 4, b <<< 3 ||| b >>> 2, 255⟩
  | .bgr888 => ⟨bytes 2, bytes 1, bytes 0, 255⟩
  | .argb8888 => ⟨bytes 2, bytes 1, bytes 0, bytes 3⟩

/-- One pixel of `convert_row`. -/
def convert (format : ImageFormat) (bytes : ℕ → UInt8) (opacity : UInt8) (old : P.Stored) :
    P.Stored :=
  let c := colorOf format bytes
  let alpha := mul8 c.a opacity
  if alpha = 0 then old
  else if alpha = 255 then P.pack c
  else P.blend old (P.pack c) alpha

def image (x y : Int16) (source : Image) (clip : Rect) (tint : Color) (pixels : s.Pixels P) :
    s.Pixels P := fun cell =>
  if s.covers ((Op.imageRect x y source).intersect clip) cell then
    let bytes := source.pixel (s.logicalX cell.1 - x.toInt) (s.logicalY cell.2 - y.toInt)
    if source.format = .a8 then
      if tint.a = 0 then pixels cell
      else P.blendMask (pixels cell) (bytes 0) (P.pack tint) tint.a
    else if source.format = P.native ∧ tint.a = 255 then P.load bytes
    else convert source.format bytes tint.a (pixels cell)
  else pixels cell

end Surface

structure RoundClip (Corner : Type) where
  rect : Rect
  corner : Corner
  area : Rect
  start : ℕ

structure Painter (s : Surface) (P : Pixel) (Paint Corner : Type) where
  paint : Paint → Rect → s.Pixels P → s.Pixels P
  /-- The cells in the corners of a clip, in the order they are saved in, and their masks. -/
  corners : Rect → Corner → Rect → List (s.Cell × UInt8)
  /-- Whether the store can grow to so many pixels. -/
  reserves : ℕ → Bool

structure Drawing (s : Surface) (P : Pixel) (Corner : Type) where
  clips : List Rect
  rounds : ℕ → Option (RoundClip Corner)
  saved : List P.Stored
  pixels : s.Pixels P

namespace Drawing

variable {s : Surface} {P : Pixel} {Paint Corner : Type} (painter : Painter s P Paint Corner)
  (d : Drawing s P Corner)

def depth : ℕ := d.clips.length

def clip : Rect := d.clips.headD s.area

def pushClip (rect : Rect) : Drawing s P Corner :=
  { d with clips := d.clip.intersect rect :: d.clips }

def popClip : Drawing s P Corner := { d with clips := d.clips.tail }

/-- `open_round_clip` in the clip just pushed: the round clip, and the pixels it saves. -/
def openRoundClip (rect : Rect) (corner : Corner) : Option (RoundClip Corner × List P.Stored) :=
  let cells := painter.corners rect corner d.clip
  if cells.isEmpty || !painter.reserves (d.saved.length + cells.length) then none
  else some (⟨rect, corner, d.clip, d.saved.length⟩, cells.map fun cell => d.pixels cell.1)

def openRound (rect : Rect) (corner : Corner) : Drawing s P Corner :=
  match d.openRoundClip painter rect corner with
  | none => { d with rounds := Function.update d.rounds d.depth none }
  | some (round, more) =>
    { d with
      rounds := Function.update d.rounds d.depth (some round)
      saved := d.saved ++ more }

def restorePixel (mask : UInt8) (saved old : P.Stored) : P.Stored :=
  if 255 - mask = 0 then old
  else if 255 - mask = 255 then saved
  else P.blendMask old (255 - mask) saved 255

/-- `restore` for the cells of the corners, with what was saved of them. -/
def restore : List (s.Cell × UInt8) → List P.Stored → s.Pixels P → s.Pixels P
  | (cell, mask) :: cells, saved :: rest, pixels =>
    restore cells rest
      (Function.update pixels cell (restorePixel mask saved (pixels cell)))
  | _, _, pixels => pixels

/-- `close_round_clip` for the round clip at the current depth, if it is open. -/
def closeRound : Drawing s P Corner :=
  match d.rounds d.depth with
  | none => d
  | some round =>
    { d with
      rounds := Function.update d.rounds d.depth none
      saved := d.saved.take round.start
      pixels := restore (painter.corners round.rect round.corner round.area)
        (d.saved.drop round.start) d.pixels }

def skip (d : Drawing s P Corner) : Op Paint Corner → Drawing s P Corner
  | .pushClip rect | .pushRoundClip rect _ => d.pushClip rect
  | .popClip | .popRoundClip => d.popClip
  | _ => d

def step (d : Drawing s P Corner) (op : Op Paint Corner) : Drawing s P Corner :=
  match op with
  | .pushClip rect => d.pushClip rect
  | .popClip => d.popClip
  | .pushRoundClip rect corner => (d.pushClip rect).openRound painter rect corner
  | .popRoundClip => (d.closeRound painter).popClip
  | .fill rect color =>
    if rect.intersects d.clip then { d with pixels := s.fill rect d.clip color d.pixels } else d
  | .image x y source tint =>
    if (Op.imageRect x y source).intersects d.clip then
      { d with pixels := s.image x y source d.clip tint d.pixels }
    else d
  | .painted bounds paint =>
    if bounds.intersects d.clip then { d with pixels := painter.paint paint d.clip d.pixels }
    else d

/-- `draw_ops`, with operation `i` next. -/
def drawOps (first : ℕ) : ℕ → List (Op Paint Corner) → Drawing s P Corner → Drawing s P Corner
  | _, [], d => d
  | i, op :: ops, d =>
    if i < first then drawOps first (i + 1) ops (d.skip op)
    else drawOps first (i + 1) ops (d.step painter op)

def begin (s : Surface) (saved : List P.Stored) (pixels : s.Pixels P) : Drawing s P Corner :=
  ⟨[], fun _ => none, saved, pixels⟩

end Drawing

/-- Where the backward walk of `start_op` is: at a depth, or at the operation to start at. -/
inductive Walk
  | atDepth (depth : ℕ)
  | found (i : ℕ)
  deriving DecidableEq

def Walk.back {Paint Corner : Type} (area : Rect) (op : Op Paint Corner) (i : ℕ) : Walk → Walk
  | .found j => .found j
  | .atDepth depth =>
    match op with
    | .popClip | .popRoundClip => .atDepth (depth + 1)
    | .pushClip _ | .pushRoundClip _ _ => .atDepth (depth - 1)
    | op => if depth = 0 ∧ op.isOpaque ∧ op.bounds.contains area then .found i else .atDepth depth

/-- The backward walk to operation `i`, before which it has not looked. -/
def walk {Paint Corner : Type} (area : Rect) : ℕ → List (Op Paint Corner) → Walk
  | _, [] => .atDepth 0
  | i, op :: ops => (walk area (i + 1) ops).back area op i

def startOp {Paint Corner : Type} (ops : List (Op Paint Corner)) (area : Rect) : ℕ :=
  match walk area 0 ops with
  | .found i => i
  | .atDepth _ => 0

/-- Every clip that is pushed is popped, each by its own kind of pop. -/
inductive Balanced {Paint Corner : Type} : List (Op Paint Corner) → Prop
  | nil : Balanced []
  | fill {rest} (rect color) (balanced : Balanced rest) : Balanced (.fill rect color :: rest)
  | image {rest} (x y source tint) (balanced : Balanced rest) :
    Balanced (.image x y source tint :: rest)
  | painted {rest} (bounds paint) (balanced : Balanced rest) :
    Balanced (.painted bounds paint :: rest)
  | clip {inner rest} (rect) (inside : Balanced inner) (balanced : Balanced rest) :
    Balanced (.pushClip rect :: inner ++ .popClip :: rest)
  | round {inner rest} (rect corner) (inside : Balanced inner) (balanced : Balanced rest) :
    Balanced (.pushRoundClip rect corner :: inner ++ .popRoundClip :: rest)

end EspDevkit.Gfx
