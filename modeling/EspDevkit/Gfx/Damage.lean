import EspDevkit.Library.SwapRemove

/-!
# Regions to repaint

`add` unites a rect with the regions it meets, and with the cheapest one when the array is
full.  Coordinates are of 16 bits and areas of 32, and wrap as theirs do; an index past the
array gives `none`.
-/

namespace EspDevkit.Gfx

@[ext]
structure Rect where
  x : Int16
  y : Int16
  w : Int16
  h : Int16
  deriving DecidableEq

namespace Rect

def isEmpty (r : Rect) : Bool := r.w ≤ 0 || r.h ≤ 0

def right (r : Rect) : Int16 := r.x + r.w

def bottom (r : Rect) : Int16 := r.y + r.h

/-- `w as u32 * h as u32`; the casts are of positive numbers. -/
def area (r : Rect) : UInt32 :=
  if r.isEmpty then 0 else .ofNat r.w.toInt.toNat * .ofNat r.h.toInt.toNat

def union (r other : Rect) : Rect :=
  if r.isEmpty then other
  else if other.isEmpty then r
  else
    let x := min r.x other.x
    let y := min r.y other.y
    ⟨x, y, max r.right other.right - x, max r.bottom other.bottom - y⟩

def intersect (r other : Rect) : Rect :=
  let x := max r.x other.x
  let y := max r.y other.y
  ⟨x, y, min r.right other.right - x, min r.bottom other.bottom - y⟩

def intersects (r other : Rect) : Bool := !(r.intersect other).isEmpty

end Rect

/-- `regions` are the first `count` of the array. -/
structure Damage where
  full : Rect
  regions : List Rect

def fullPercent : UInt32 := 75

/-- The first loop of `add`, at region `i`. -/
def absorb (regions : List Rect) (rect : Rect) (i : ℕ) : List Rect × Rect :=
  if _ : i < regions.length then
    if regions[i].intersects rect then
      absorb (swapRemove regions i) (rect.union regions[i]) 0
    else absorb regions rect (i + 1)
  else (regions, rect)
termination_by (regions.length, regions.length - i)
decreasing_by
  · have := (swapRemove_perm (by assumption : i < regions.length)).length_eq
    rw [List.length_cons] at this
    omega
  · omega

/-- What it costs to unite a region with `rect`. -/
def mergeCost (rect region : Rect) : UInt32 := (region.union rect).area - region.area - rect.area

def cheapest (regions : List Rect) (rect : Rect) : ℕ × UInt32 :=
  regions.zipIdx.foldl (fun (best, bestCost) (region, i) =>
    let cost := mergeCost rect region
    if cost < bestCost then (i, cost) else (best, bestCost)) (0, 0xFFFFFFFF)

/-- The loop of `merge_cheapest`, at region `i`. -/
def absorbMerged (merged : Rect) (regions : List Rect) (rect : Rect) (i : ℕ) :
    List Rect × Rect :=
  if _ : i < regions.length then
    if regions[i].intersects merged then
      absorbMerged merged (swapRemove regions i) (rect.union regions[i]) i
    else absorbMerged merged regions rect (i + 1)
  else (regions, rect)
termination_by regions.length - i
decreasing_by
  · have := (swapRemove_perm (by assumption : i < regions.length)).length_eq
    rw [List.length_cons] at this
    omega
  · omega

def mergeCheapest (regions : List Rect) (rect : Rect) : Option (List Rect × Rect) :=
  let best := (cheapest regions rect).1
  regions[best]?.map fun region =>
    let merged := rect.union region
    absorbMerged merged (swapRemove regions best) merged 0

/-- `add` up to where `rect` is written to the array of `n`. -/
def unite (n : ℕ) (regions : List Rect) (rect : Rect) : Option (List Rect × Rect) :=
  let absorbed := absorb regions rect 0
  if absorbed.1.length = n then mergeCheapest absorbed.1 absorbed.2 else some absorbed

namespace Damage

/-- The end of `add`: several regions that cover most of `full` become all of it. -/
def promote (s : Damage) : Damage :=
  let area := (s.regions.map Rect.area).foldl (· + ·) 0
  if 1 < s.regions.length ∧ s.full.area * fullPercent ≤ area * 100 then
    { s with regions := [s.full] }
  else s

/-- `add` with an array of `n`. -/
def add (n : ℕ) (s : Damage) (rect : Rect) : Option Damage :=
  let rect := rect.intersect s.full
  if rect.isEmpty then some s
  else (unite n s.regions rect).bind fun (regions, rect) =>
    if regions.length < n then some (promote { s with regions := regions ++ [rect] }) else none

end Damage

/-- The damage of `full` after the rects are added. -/
def damage (n : ℕ) (full : Rect) (rects : List Rect) : Option Damage :=
  rects.foldlM (Damage.add n) ⟨full, []⟩

end EspDevkit.Gfx
