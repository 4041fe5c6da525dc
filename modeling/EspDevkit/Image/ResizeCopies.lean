import EspDevkit.Image.Pixels
import EspDevkit.Library.Fallible

/-!
# Resizing row by row

Box-area average downscale and bilinear upscale, each axis on its own.  Source rows are pushed in
order, and the rows that each makes ready are popped before the next.  Memory that runs out is not
modelled, nor pictures that are turned on their way out.
-/

namespace EspDevkit.Image

def q16 : ℕ := 65536

def hrowFracBits : ℕ := 4

inductive Error
  | invalidArgument
  | invalidState
  | unsupported
  | tooLarge
  | decode
  deriving DecidableEq, Repr

inductive Fit
  | stretch
  | contain
  deriving DecidableEq, Repr

structure ResizeOptions where
  targetWidth : UInt16
  targetHeight : UInt16
  fit : Fit := .stretch
  format : Option ImageFormat := none

abbrev Outcome := Except (Stop Error)

def bounded (size : ℕ × ℕ) : Outcome (ℕ × ℕ) :=
  if 0xffff < size.1 ∨ 0xffff < size.2 then .error (.error .tooLarge) else .ok size

/-- `output_size` of a picture that is not turned. -/
def outputSize (srcW srcH : UInt16) (options : ResizeOptions) : Outcome (ℕ × ℕ) :=
  let (sw, sh) := (srcW.toNat, srcH.toNat)
  let (tw, th) := (options.targetWidth.toNat, options.targetHeight.toNat)
  if sw = 0 ∨ sh = 0 then .error (.error .invalidArgument)
  else
    match options.fit with
    | .stretch =>
      if tw = 0 ∨ th = 0 then .error (.error .invalidArgument) else bounded (tw, th)
    | .contain =>
      if tw = 0 ∧ th = 0 then bounded (sw, sh)
      else if th = 0 ∨ tw ≠ 0 ∧ tw * sh ≤ th * sw then
        bounded (tw, max ((sh * tw + sw / 2) / sw) 1)
      else bounded (max ((sw * th + sh / 2) / sh) 1, th)

structure Tap where
  src : ℕ
  weights : List ℕ

/-- Weights of a destination sample that spans `[u0, u1)` in `1 / d` source samples. -/
def boxWeights (s d u0 u1 : ℕ) : (cnt k cum wsum : ℕ) → List ℕ
  | 0, _, _, _ => []
  | cnt + 1, k, cum, wsum =>
    let (lo, hi) := (max u0 (k * d), min u1 (k * d + d))
    let cum := if lo < hi then cum + (hi - lo) else cum
    let ws := cum * q16 / s
    (ws - wsum) :: boxWeights s d u0 u1 cnt (k + 1) cum ws

/-- `BoxTable`, a tap for each destination sample. -/
def boxTable (s d : ℕ) : List Tap :=
  (List.range d).map fun x =>
    let sx0 := x * s / d
    let sx1 := max (min (((x + 1) * s + d - 1) / d) s) (sx0 + 1)
    { src := sx0, weights := boxWeights s d (x * s) ((x + 1) * s) (sx1 - sx0) sx0 0 0 }

structure Blend where
  lo : ℕ
  hi : ℕ
  blend : ℕ

/-- `Bilinear`, a blend for each destination sample. -/
def bilinear (s d : ℕ) : List Blend :=
  (List.range d).map fun x =>
    let (num, den) :=
      if s = 1 then (0, 1) else if d = 1 then (s - 1, 2) else (x * (s - 1), d - 1)
    let xl := num / den
    { lo := xl
      hi := if xl + 1 < s then xl + 1 else xl
      blend := (num % den * q16 + den / 2) / den }

def hreduceBox (row : List ℕ) (ch : ℕ) (taps : List Tap) (shift round : ℕ) : List ℕ :=
  taps.flatMap fun tap =>
    (List.range ch).map fun c =>
      let sum := tap.weights.zipIdx.foldl
        (fun s w => (s + row.getD ((tap.src + w.2) * ch + c) 0 * w.1) % 2 ^ 32) 0
      (sum + round) / 2 ^ shift % 2 ^ 16

def hexpandBilinear (row : List ℕ) (ch : ℕ) (blends : List Blend) (shift round : ℕ) : List ℕ :=
  blends.flatMap fun b =>
    (List.range ch).map fun c =>
      let (l, h) := (row.getD (b.lo * ch + c) 0, row.getD (b.hi * ch + c) 0)
      (l * (q16 - b.blend) + h * b.blend + round) / 2 ^ shift % 2 ^ 16

inductive Horizontal
  | reduce (taps : List Tap)
  | expand (blends : List Blend)

def Horizontal.pass (row : List ℕ) (ch : ℕ) (shift round : ℕ) : Horizontal → List ℕ
  | .reduce taps => hreduceBox row ch taps shift round
  | .expand blends => hexpandBilinear row ch blends shift round

structure VerticalUp where
  table : List Blend
  hrowPrev : List ℕ
  ready : ℕ

/-- The row being accumulated spans `[spanLo, spanHi)` in `1 / dh` source rows, from the start of
the source row about to be pushed. -/
structure VerticalDown where
  acc : List ℕ
  spanLo : ℤ
  spanHi : ℤ
  cum : ℕ
  wsum : ℕ
  accDstY : ℕ
  pending : List UInt8
  pendingAvail : Bool

inductive Vertical
  | up (up : VerticalUp)
  | down (down : VerticalDown)

structure Plan where
  sw : ℕ
  sh : ℕ
  dw : ℕ
  dh : ℕ
  srcFormat : ImageFormat
  dstFormat : ImageFormat
  ch : ℕ
  srcDirect : Bool
  srcBytes : ℕ
  dstBytes : ℕ
  hShift : ℕ
  hRound : ℕ
  horizontal : Horizontal

structure Core extends Plan where
  vertical : Vertical
  hrow : List ℕ
  srcY : ℕ
  dstY : ℕ
  finished : Bool

def voutShift : ℕ := 16 + hrowFracBits

def vCharge (down : VerticalDown) (hrow : List ℕ) (dh : ℤ) (sh : ℕ) : VerticalDown :=
  let lo := max down.spanLo 0
  let hi := min down.spanHi dh
  if hi ≤ lo then down
  else
    let cum := down.cum + (hi - lo).toNat
    let ws := cum * q16 / sh
    let wi := ws - down.wsum
    { down with
      cum
      wsum := ws
      acc := List.zipWith (fun a h => (a + h * wi) % 2 ^ 32) down.acc hrow }

namespace Core

def plan (info : ImageInfo) (options : ResizeOptions) (size : ℕ × ℕ) : Plan :=
  let (sw, sh) := (info.width.toNat, info.height.toNat)
  let dstFormat := options.format.getD info.format
  let ch := if info.format = .l8 ∧ dstFormat = .l8 then 1 else 3
  let hShift := if sh < size.2 then 16 else 16 - hrowFracBits
  { sw, sh, dw := size.1, dh := size.2, srcFormat := info.format, dstFormat, ch
    srcDirect := info.format = .rgb888 ∧ ch = 3 ∨ info.format = .l8 ∧ ch = 1
    srcBytes := info.format.rowBytes sw
    dstBytes := dstFormat.rowBytes size.1
    hShift
    hRound := 2 ^ (hShift - 1)
    horizontal :=
      if sw < size.1 then .expand (bilinear sw size.1) else .reduce (boxTable sw size.1) }

/-- `Core::new` for a picture that is not turned. -/
def new (info : ImageInfo) (options : ResizeOptions) : Outcome Core := do
  let size ← outputSize info.width info.height options
  let plan := plan info options size
  if ¬plan.srcFormat.isRowFormat ∨ ¬plan.dstFormat.isRowFormat then .error (.error .unsupported)
  else
    let empty := List.replicate (plan.dw * plan.ch) 0
    .ok
      { plan with
        vertical :=
          if plan.sh < plan.dh then
            .up { table := bilinear plan.sh plan.dh, hrowPrev := empty, ready := 0 }
          else
            .down
              { acc := empty, spanLo := 0, spanHi := plan.sh, cum := 0, wsum := 0, accDstY := 0
                pending := List.replicate plan.dstBytes 0, pendingAvail := false }
        hrow := empty
        srcY := 0
        dstY := 0
        finished := false }

def hpass (core : Plan) (srcRow : List UInt8) : List ℕ :=
  let row :=
    if core.srcDirect then srcRow.map UInt8.toNat
    else unpackRow srcRow core.sw core.srcFormat core.ch
  core.horizontal.pass row core.ch core.hShift core.hRound

/-- How many rows became ready, from `ready` on, with this source row. -/
def newlyReady (table : List Blend) (sy ready : ℕ) : ℕ :=
  ((table.drop ready).takeWhile fun b => b.hi ≤ sy).length

/-- The source row `hrow` for a shrinking vertical axis, and whether it completes a row. -/
def pushDown (core : Plan) (hrow : List ℕ) (down : VerticalDown) : VerticalDown × ℕ :=
  let (down, produced) :=
    if down.accDstY < core.dh then
      let down := vCharge down hrow core.dh core.sh
      if down.spanHi ≤ core.dh then
        let vtmp := down.acc.map fun a => (a + 2 ^ (voutShift - 1)) / 2 ^ voutShift % 2 ^ 16
        let down :=
          { down with
            pending := packRow vtmp core.dw core.dstFormat core.ch
            pendingAvail := true
            acc := List.replicate (core.dw * core.ch) 0
            accDstY := down.accDstY + 1
            spanLo := down.spanHi
            spanHi := down.spanHi + core.sh
            cum := 0
            wsum := 0 }
        (if down.accDstY < core.dh then vCharge down hrow core.dh core.sh else down, 1)
      else (down, 0)
    else (down, 0)
  ({ down with spanLo := down.spanLo - core.dh, spanHi := down.spanHi - core.dh }, produced)

def pushRow (core : Core) (srcRow : List UInt8) : Outcome (Core × ℕ) :=
  if core.finished ∨ core.sh ≤ core.srcY then .error (.error .invalidState)
  else if srcRow.length < core.srcBytes then .error (.error .invalidArgument)
  else
    let hrow := hpass core.toPlan srcRow
    match core.vertical with
    | .up up =>
      let newly := newlyReady up.table core.srcY up.ready
      .ok
        ({ core with
          vertical := .up { up with hrowPrev := core.hrow, ready := up.ready + newly }
          hrow
          srcY := core.srcY + 1 }, newly)
    | .down down =>
      let (down, produced) := pushDown core.toPlan hrow down
      .ok ({ core with vertical := .down down, hrow, srcY := core.srcY + 1 }, produced)

def pop (core : Core) : Option (Core × List UInt8) :=
  if core.dh ≤ core.dstY then none
  else
    match core.vertical with
    | .up up =>
      if up.ready ≤ core.dstY then none
      else
        let curr := core.srcY - 1
        let b := up.table.getD core.dstY { lo := 0, hi := 0, blend := 0 }
        let lo := if b.lo = curr then core.hrow else up.hrowPrev
        let hi := if b.hi = curr then core.hrow else up.hrowPrev
        let src :=
          if b.lo = b.hi ∨ b.blend = 0 then lo
          else if q16 ≤ b.blend then hi
          else
            List.zipWith
              (fun l h => (l * (q16 - b.blend) + h * b.blend + q16 / 2) / 2 ^ 16 % 2 ^ 16) lo hi
        some ({ core with dstY := core.dstY + 1 }, packRow src core.dw core.dstFormat core.ch)
    | .down down =>
      if down.pendingAvail then
        some
          ({ core with
            vertical := .down { down with pendingAvail := false }
            dstY := core.dstY + 1 }, down.pending.take core.dstBytes)
      else none

def finish (core : Core) : Core × ℕ :=
  if core.finished then (core, 0)
  else
    let core := { core with finished := true }
    match core.vertical with
    | .up _ => (core, 0)
    | .down down =>
      if core.dh ≤ down.accDstY ∨ down.wsum = 0 then (core, 0)
      else
        let den := down.wsum * 2 ^ hrowFracBits
        let vtmp := down.acc.map fun a => (a + den / 2) / den % 2 ^ 16
        ({ core with
          vertical := .down
            { down with
              pending := packRow vtmp core.dw core.dstFormat core.ch
              pendingAvail := true
              accDstY := down.accDstY + 1
              acc := List.replicate (core.dw * core.ch) 0
              wsum := 0
              cum := 0 } }, 1)

end Core

end EspDevkit.Image

/-!
## Resizing in place

`resize_in_place` writes rows over the picture that it reads.
-/

namespace EspDevkit.Image

open Splice

/-- `check_strides`: both strides and the bytes of a row of the output.  A stride of 0 is tight
packing. -/
def checkStrides (info : ImageInfo) (srcStride : ℕ) (dstFormat : ImageFormat) (dstW dstStride : ℕ) :
    Outcome (ℕ × ℕ × ℕ) :=
  let srcStride := if srcStride = 0 then info.rowBytes else srcStride
  let dstRow := dstFormat.rowBytes dstW
  if srcStride < info.rowBytes then .error (.error .invalidArgument)
  else
    let dstStride := if dstStride = 0 then dstRow else dstStride
    if dstStride < dstRow then .error (.error .invalidArgument)
    else .ok (srcStride, dstStride, dstRow)

/-- `OrientedResizer::pop_into`, for a picture that is not turned, as long as rows are ready. -/
def popInto (rows stride : ℕ) : (count : ℕ) → Core → List UInt8 → ℕ →
    Outcome (Core × List UInt8 × ℕ)
  | 0, core, dst, done => .ok (core, dst, done)
  | count + 1, core, dst, done =>
    if rows ≤ done then .ok (core, dst, done)
    else
      let rowBytes := core.dstFormat.rowBytes core.dw
      if stride < rowBytes ∨ dst.length < (core.dh - 1) * stride + rowBytes then
        .error (.error .invalidArgument)
      else if dst.length < core.dstY * stride + rowBytes then .error .fault
      else
        match core.pop with
        | none => .ok (core, dst, done)
        | some (core', row) =>
          popInto rows stride count core' (splice (core.dstY * stride) row dst) (done + 1)

/-- The source rows from `y` on. -/
def pushInto (src : List UInt8) (srcStride rows dstStride : ℕ) : (left y : ℕ) → Core → List UInt8 →
    ℕ → Outcome (Core × List UInt8 × ℕ)
  | 0, _, core, dst, done => .ok (core, dst, done)
  | left + 1, y, core, dst, done => do
    let (core, ready) ← core.pushRow (src.drop (y * srcStride))
    let (core, dst, done) ← popInto rows dstStride ready core dst done
    pushInto src srcStride rows dstStride left (y + 1) core dst done

/-- `resize_buffer` of a picture that is not turned. -/
def resizeBuffer (src : List UInt8) (info : ImageInfo) (srcStride : ℕ) (dst : List UInt8)
    (dstStride : ℕ) (options : ResizeOptions) : Outcome (List UInt8) := do
  let (dw, dh) ← outputSize info.width info.height options
  let format := options.format.getD info.format
  let (srcStride, dstStride, dstRow) ← checkStrides info srcStride format dw dstStride
  let last := info.height.toNat - 1
  if src.length < last * srcStride + info.rowBytes ∨ dst.length < (dh - 1) * dstStride + dstRow then
    .error (.error .invalidArgument)
  else
    let core ← Core.new info options
    let (core, dst, done) ← pushInto src srcStride dh dstStride (last + 1) 0 core dst 0
    let (core, finished) := core.finish
    let (_, dst, done) ← popInto dh dstStride finished core dst done
    if done = dh then .ok dst else .error (.error .decode)

/-- The rows that are ready, each into its place; the place of the row after them is taken as
well. -/
def popOver (dstStride dstRow : ℕ) : (count : ℕ) → Core → List UInt8 → ℕ →
    Outcome (Core × List UInt8 × ℕ)
  | count, core, buf, done =>
    if buf.length < done * dstStride + dstRow then .error .fault
    else
      match count with
      | 0 => .ok (core, buf, done)
      | count + 1 =>
        if dstRow < core.dstBytes then .error (.error .invalidArgument)
        else
          match core.pop with
          | none => .ok (core, buf, done)
          | some (core, row) =>
            popOver dstStride dstRow count core (splice (done * dstStride) row buf) (done + 1)

/-- The source rows from `y` on. -/
def pushOver (srcStride srcRow dstStride dstRow : ℕ) : (left y : ℕ) → Core → List UInt8 → ℕ →
    Outcome (Core × List UInt8 × ℕ)
  | 0, _, core, buf, done => .ok (core, buf, done)
  | left + 1, y, core, buf, done => do
    let (core, ready) ← core.pushRow (slice (y * srcStride) srcRow buf)
    let (core, buf, done) ← popOver dstStride dstRow ready core buf done
    pushOver srcStride srcRow dstStride dstRow left (y + 1) core buf done

def resizeInPlace (buf : List UInt8) (info : ImageInfo) (srcStride dstStride : ℕ)
    (options : ResizeOptions) : Outcome (List UInt8) := do
  let (dw, dh) ← outputSize info.width info.height options
  if info.width.toNat < dw ∨ info.height.toNat < dh then .error (.error .invalidArgument)
  else
    let format := options.format.getD info.format
    let (srcStride, dstStride, dstRow) ← checkStrides info srcStride format dw dstStride
    let last := info.height.toNat - 1
    if buf.length < last * srcStride + info.rowBytes ∨
        buf.length < (dh - 1) * dstStride + dstRow then
      .error (.error .invalidArgument)
    else
      let core ← Core.new info options
      let (core, buf, done) ← pushOver srcStride info.rowBytes dstStride dstRow (last + 1) 0 core
        buf 0
      let (core, finished) := core.finish
      let (_, buf, done) ← popOver dstStride dstRow finished core buf done
      if done = dh then .ok buf else .error (.error .decode)

def rowsOf (dh dstStride dstRow : ℕ) (buf : List UInt8) : List (List UInt8) :=
  (List.range dh).map fun y => slice (y * dstStride) dstRow buf

def pixels (info : ImageInfo) (srcStride dstStride : ℕ) (options : ResizeOptions)
    (buf : List UInt8) : Outcome (List (List UInt8)) := do
  let (dw, dh) ← outputSize info.width info.height options
  let (_, dstStride, dstRow) ←
    checkStrides info srcStride (options.format.getD info.format) dw dstStride
  .ok (rowsOf dh dstStride dstRow buf)

/-- No row that the source rows before `y` complete lies on source row `y`. -/
def RowsApart (info : ImageInfo) (srcStride dstStride : ℕ) (options : ResizeOptions) : Prop :=
  ∀ dw dh src dst row, outputSize info.width info.height options = .ok (dw, dh) →
    checkStrides info srcStride (options.format.getD info.format) dw dstStride =
        .ok (src, dst, row) →
      ∀ y < info.height.toNat, ∀ done < y * dh / info.height.toNat,
        Apart (done * dst) row (y * src) info.rowBytes

end EspDevkit.Image
