import EspDevkit.Library.Shares

/-!
# Rows and columns

`solve_axis` sizes the children of a row or column along its main axis and `arrange_axis` puts
them one behind the other.  What a child measures within limits is a function of these.  Sums
are of 32 bits, and sizes, positions and cuts of 16: what does not fit gives `none`.
-/

namespace EspDevkit.Ui.Flex

open Shares

inductive Dimension
  | auto
  | px (size : ℕ)
  | fraction (n d : ℕ)
  deriving DecidableEq

inductive Align
  | stretch
  | start
  | center
  | «end»
  deriving DecidableEq

inductive Justify
  | start
  | center
  | «end»
  | spaceBetween
  deriving DecidableEq

structure ChildStyle where
  width : Dimension := .auto
  height : Dimension := .auto
  minWidth : ℕ := 0
  minHeight : ℕ := 0
  maxWidth : ℕ := 0
  maxHeight : ℕ := 0
  grow : ℕ := 0
  shrink : ℕ := 0
  alignSelf : Option Align := none

/-- A child in the flow, with the width and height it measures within limits. -/
structure Child where
  style : ChildStyle
  measure : ℕ → ℕ → ℕ × ℕ

structure BoxStyle where
  gapX : ℕ := 0
  gapY : ℕ := 0
  justify : Justify := .start
  align : Align := .stretch

structure Rect where
  x : ℤ
  y : ℤ
  w : ℤ
  h : ℤ
  deriving DecidableEq

def i16Max : ℕ := 2 ^ 15 - 1

def unbounded : ℕ := i16Max

def checked16 (n : ℕ) : Option ℕ := if n ≤ i16Max then some n else none

def checked32 (n : ℕ) : Option ℕ := if n < 2 ^ 31 then some n else none

def checkedCoord (z : ℤ) : Option ℤ := if -2 ^ 15 ≤ z ∧ z ≤ i16Max then some z else none

def mainOffer (dimension : Dimension) (main : ℕ) : ℕ :=
  match dimension with
  | .fraction _ _ => main
  | _ => unbounded

def clamp (size least most : ℕ) : ℕ := max (if 0 < most then min size most else size) least

/-- A call of `solve_axis`, but for the children. -/
structure Axis where
  gap : ℕ
  main : ℕ
  cross : ℕ
  vertical : Bool

/-- A child with its `flow_size` and `flow_resized`. -/
structure Solved where
  child : Child
  size : ℕ
  resized : Bool

namespace Axis

variable (axis : Axis) (children : List Child) (child : Child)

def along (size : ℕ × ℕ) : ℕ := if axis.vertical then size.2 else size.1

def across (size : ℕ × ℕ) : ℕ := if axis.vertical then size.1 else size.2

/-- The child measured with `offer` along the main axis. -/
def measure (offer : ℕ) : ℕ × ℕ :=
  if axis.vertical then child.measure axis.cross offer else child.measure offer axis.cross

/-- What the child wants: its own size, or a share of the parent's. -/
def offered : ℕ × ℕ :=
  axis.measure child
    (mainOffer (if axis.vertical then child.style.height else child.style.width) axis.main)

def minimum : ℕ := if axis.vertical then child.style.minHeight else child.style.minWidth

/-- The `flow_size` of the first pass. -/
def wanted : ℕ := if child.style.grow = 0 then axis.along (axis.offered child) else 0

def used : ℕ := (children.map axis.wanted).sum

def weight : ℕ := axis.wanted child * child.style.shrink

def shrinkTotal : ℕ := totalWeight axis.weight children

def growTotal (children : List Child) : ℕ := totalWeight (·.style.grow) children

def gaps : ℕ := axis.gap * (children.length - 1)

def bounded : Bool := axis.main != unbounded

def overflow : ℕ :=
  if axis.bounded then axis.used children + axis.gaps children - axis.main else 0

def free : ℕ := if axis.bounded then axis.main - axis.used children - axis.gaps children else 0

def cut : ℕ := shareUp (axis.shrinkTotal children) (axis.overflow children) (axis.weight child)

def grows : Bool := 0 < child.style.grow && axis.bounded

def shrinks : Bool :=
  !axis.grows child && 0 < axis.overflow children && 0 < child.style.shrink &&
    0 < axis.shrinkTotal children

def resize : Option Solved :=
  if axis.grows child then
    (checked16 (share (growTotal children) (axis.free children) child.style.grow)).map
      fun size => ⟨child, size, true⟩
  else if axis.shrinks children child then
    (checked16 (axis.cut children child)).map fun cut =>
      ⟨child, max (axis.wanted child - cut) (axis.minimum child), true⟩
  else
    some ⟨child, if 0 < child.style.grow then axis.along (axis.offered child)
      else axis.wanted child, false⟩

/-- What the child takes across, now that its size is known. -/
def taken (solved : Solved) : ℕ :=
  axis.across (if solved.resized then axis.measure solved.child solved.size
    else axis.offered solved.child)

def checkedUse (use : ℕ) : Option ℕ := if axis.bounded then checked32 use else some 0

/-- The children with their sizes, and the size of the flow along and across. -/
def solveAxis : Option (List Solved × ℕ × ℕ) := do
  let used ← checked32 (axis.used children)
  let gaps ← checked32 (axis.gaps children)
  let _ ← axis.checkedUse (used + gaps)
  let solved ← children.mapM (axis.resize children)
  let total ← checked32 (gaps + (solved.map Solved.size).sum)
  some (solved, min total i16Max, (solved.map axis.taken).foldl max 0)

end Axis

/-- A call of `arrange_axis`. -/
structure FlexBox where
  style : BoxStyle
  x : ℕ
  y : ℕ
  w : ℕ
  h : ℕ
  vertical : Bool
  children : List Child
  x_le : x ≤ i16Max
  y_le : y ≤ i16Max
  w_le : w ≤ i16Max
  h_le : h ≤ i16Max
  gapX_le : style.gapX ≤ i16Max
  gapY_le : style.gapY ≤ i16Max
  minimum_le : ∀ child ∈ children, child.style.minWidth ≤ i16Max ∧ child.style.minHeight ≤ i16Max
  measure_le : ∀ child ∈ children, ∀ w h,
    (child.measure w h).1 ≤ i16Max ∧ (child.measure w h).2 ≤ i16Max

namespace FlexBox

variable (box : FlexBox)

def axis : Axis where
  gap := if box.vertical then box.style.gapY else box.style.gapX
  main := if box.vertical then box.h else box.w
  cross := if box.vertical then box.w else box.h
  vertical := box.vertical

def startAlong : ℕ := if box.vertical then box.y else box.x

def startAcross : ℕ := if box.vertical then box.x else box.y

/-- The first position, and the space between two children beside the gap. -/
def justified (total : ℕ) : ℤ × ℕ :=
  let room : ℤ := box.axis.main - total
  let leftover := room.toNat
  match box.style.justify with
  | .start => (0, 0)
  | .center => (room.tdiv 2, 0)
  | .end => (leftover, 0)
  | .spaceBetween =>
    if 1 < box.children.length then (0, leftover / (box.children.length - 1)) else (0, 0)

/-- Where a child is across, from the start of the content, and how long it is there. -/
def aligned (solved : Solved) : ℤ × ℕ :=
  let style := solved.child.style
  let cross := box.axis.cross
  let wanted := box.axis.taken solved
  let crossStyle := if box.vertical then style.width else style.height
  let crossMax := if box.vertical then style.maxWidth else style.maxHeight
  match style.alignSelf.getD box.style.align with
  | .stretch => if crossStyle = .auto then (0, clamp cross 0 crossMax) else (0, wanted)
  | .start => (0, wanted)
  | .center => (((cross : ℤ) - wanted).tdiv 2, wanted)
  | .end => (cross - wanted, wanted)

def rectAt (along across : ℤ) (size length : ℕ) : Rect :=
  if box.vertical then ⟨across, along, length, size⟩ else ⟨along, across, size, length⟩

/-- The loop of `arrange_axis`. -/
def place (spacing : ℕ) : List Solved → ℤ → Option (List Rect)
  | [], _ => some []
  | solved :: rest, position => do
    let across ← checkedCoord (box.startAcross + (box.aligned solved).1)
    let along ← checkedCoord (box.startAlong + position)
    let step ← checked16 (solved.size + box.axis.gap)
    let step ← checked16 (step + spacing)
    let position ← checkedCoord (position + step)
    let rects ← place spacing rest position
    some (box.rectAt along across solved.size (box.aligned solved).2 :: rects)

def arrangeAxis : Option (List Solved × List Rect) := do
  let (solved, total, _) ← box.axis.solveAxis box.children
  let _ ← checked16 box.children.length
  let (position, spacing) := box.justified total
  let rects ← box.place spacing solved position
  some (solved, rects)

end FlexBox

end EspDevkit.Ui.Flex
