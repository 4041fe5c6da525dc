import EspDevkit.Audio.Mixer
import Mathlib.Data.Int.Bitwise
import Mathlib.Algebra.Order.Floor.Ring

/-!
# The sample-rate converter

A resampler keeps the frames that it still needs and steps through them by a fixed-point position.
Each call appends its input, puts out what is due and drops what is behind.  The sinc tables are
given: the sines and square roots they are designed with are not modelled.
-/

namespace EspDevkit.Audio

namespace F32

def exponent (q : ℚ) : ℤ :=
  let e : ℤ := q.num.toNat.log2 - q.den.log2
  if (2 : ℚ) ^ e ≤ q then e else e - 1

def nearest (q : ℚ) : ℤ :=
  let low := ⌊q⌋
  if q - low < 1 / 2 ∨ (q - low = 1 / 2 ∧ low % 2 = 0) then low else low + 1

/-- The closest single-precision number, as far as neither its exponent is too small nor too large
for one. -/
def round (q : ℚ) : ℚ :=
  if q = 0 then 0
  else
    let unit : ℚ := 2 ^ (exponent |q| - 23)
    nearest (q / unit) * unit

def mul (x y : ℚ) : ℚ := round (x * y)
def div (x y : ℚ) : ℚ := round (x / y)
def add (x y : ℚ) : ℚ := round (x + y)

/-- `as i64`, of a number that it has room for. -/
def toInt (x : ℚ) : ℤ := if 0 ≤ x then ⌊x⌋ else ⌈x⌉

end F32

/-- `ResamplerKind`. -/
inductive ResamplerKind
  | Cubic
  | Polyphase
  | Integer
  deriving DecidableEq, Repr

/-- `ResamplerConfig`. -/
structure ResamplerConfig where
  kind : ResamplerKind
  channels : ℕ
  inRate : ℕ
  outRate : ℕ
  maxInFrames : ℕ
  taps : ℕ
  phases : ℕ

def defaultMaxIn : ℕ := 1024
def defaultTaps : ℕ := 48
def defaultPhases : ℕ := 64
def maxPhases : ℕ := 1024
def coeffQ : ℕ := 30
def coeffHalf : ℤ := 1 <<< (coeffQ - 1)
def muBits : ℕ := 16

/-- What of `Core` stays as it was made. -/
structure Plan where
  kind : ResamplerKind
  channels : ℕ
  inRate : ℕ
  outRate : ℕ
  maxIn : ℕ
  left : ℕ
  right : ℕ
  cap : ℕ
  nominalStep : ℕ
  taps : List ℤ
  ntaps : ℕ
  phaseBits : ℕ
  upL : ℕ
  downM : ℕ

/-- What of `Core` a call changes, and the adjustment that its controls share. -/
structure Core where
  /-- The frames of `buf` that are filled. -/
  buf : List (List ℤ)
  pos : ℕ
  frac : ℕ
  stepInt : ℕ
  stepFrac : ℕ
  adjustPpb : ℤ
  appliedPpb : ℤ
  latched : Bool
  phase : ℕ

abbrev Design : Type := ℕ → ℕ → ResamplerConfig → List ℤ

def isPowerOfTwo (n : ℕ) : Bool := n ≠ 0 && 2 ^ n.log2 = n

def evenTaps (config : ResamplerConfig) : ℕ :=
  let taps := if config.taps = 0 then defaultTaps else config.taps
  (taps + 1) / 2 * 2

/-- The taps of a `Polyphase` row are stretched where the rate falls. -/
def polyphaseScale (config : ResamplerConfig) : ℕ :=
  let ratio := F32.div (F32.round config.outRate) (F32.round config.inRate)
  if ratio < 1 then ⌈F32.div 1 ratio⌉.toNat else 1

/-- What `Core::new` makes of a configuration and the part that depends on its kind. -/
def Plan.make (config : ResamplerConfig) (design : Design)
    (left right ntaps phaseBits upL downM rows : ℕ) : Plan :=
  let maxIn := if config.maxInFrames = 0 then defaultMaxIn else config.maxInFrames
  let nominalStep := (config.inRate <<< 32) / config.outRate
  { kind := config.kind, channels := config.channels, inRate := config.inRate
    outRate := config.outRate, maxIn, left, right
    cap := left + right + maxIn + nominalStep >>> 32 + 2, nominalStep
    taps := design rows ntaps config, ntaps, phaseBits, upL, downM }

/-- `Core::new`, apart from the part that calls change. -/
def Plan.new (config : ResamplerConfig) (design : Design) : Except Error Plan :=
  if config.inRate = 0 ∨ config.outRate = 0 then .error .InvalidArg
  else if config.channels < 1 ∨ MAX_CHANNELS < config.channels then .error .InvalidArg
  else
    match config.kind with
    | .Cubic => .ok (make config design 1 2 0 0 0 0 0)
    | .Polyphase =>
      let phases := if config.phases = 0 then defaultPhases else config.phases
      if maxPhases < phases ∨ isPowerOfTwo phases = false then .error .InvalidArg
      else
        let ntaps := evenTaps config * polyphaseScale config
        .ok (make config design (ntaps / 2 - 1) (ntaps / 2) ntaps phases.log2 0 0 (phases + 1))
    | .Integer =>
      if config.outRate % config.inRate = 0 then
        let l := config.outRate / config.inRate
        let ntaps := evenTaps config
        .ok (make config design (ntaps / 2 - 1) (ntaps / 2) ntaps 0 l 1 l)
      else if config.inRate % config.outRate = 0 then
        let m := config.inRate / config.outRate
        let ntaps := evenTaps config * m
        .ok (make config design (ntaps / 2 - 1) (ntaps / 2) ntaps 0 1 m 1)
      else .error .InvalidArg

namespace Plan

variable (plan : Plan)

/-- `update_step`'s step at an adjustment. -/
def stepAt (ppb : ℤ) : ℕ :=
  if ppb = 0 then plan.nominalStep
  else
    let delta := F32.toInt (F32.mul (F32.round plan.nominalStep)
      (F32.mul (F32.round ppb) (F32.round (1 / 10 ^ 9))))
    ((plan.nominalStep + delta) % 2 ^ 64).toNat

/-- `update_step`. -/
def updateStep (core : Core) : Core :=
  { core with
    appliedPpb := core.adjustPpb
    stepInt := plan.stepAt core.adjustPpb >>> 32
    stepFrac := plan.stepAt core.adjustPpb % 2 ^ 32 }

/-- `refresh_step`. -/
def refreshStep (core : Core) : Core :=
  if core.latched = false ∧ core.adjustPpb ≠ core.appliedPpb then plan.updateStep core else core

def silent : List ℤ := List.replicate plan.channels 0

/-- `reset`. -/
def reset (core : Core) : Core :=
  { core with
    buf := List.replicate plan.left plan.silent, pos := plan.left, frac := 0, phase := 0
    latched := false }

def fresh : Core where
  buf := List.replicate plan.left plan.silent
  pos := plan.left
  frac := 0
  stepInt := plan.nominalStep >>> 32
  stepFrac := plan.nominalStep % 2 ^ 32
  adjustPpb := 0
  appliedPpb := 0
  latched := false
  phase := 0

/-- `dot`. -/
def dot (x h : List ℤ) : ℤ := (List.zipWith (· * ·) x h).sum

/-- `cubic`. -/
def cubic (x : List ℤ) (frac : ℕ) : ℤ :=
  let xm1 := x.getD 0 0
  let x0 := x.getD 1 0
  let x1 := x.getD 2 0
  let x2 := x.getD 3 0
  let t : ℤ := frac >>> 16
  let a := -xm1 + 3 * x0 - 3 * x1 + x2
  let b := 2 * xm1 - 5 * x0 + 4 * x1 - x2
  let c := x1 - xm1
  let v := ((a * t) >>> 16) + b
  let v := ((v * t) >>> 16) + c
  let v := ((v * t) >>> 16) + 2 * x0
  v >>> 1

def row (k : ℕ) : List ℤ := (plan.taps.drop (k * plan.ntaps)).take plan.ntaps

/-- One channel of a frame, from the frames around its position and how far it is between them:
`frac`, or the phase of an `Integer` one. -/
def value (x : List ℤ) (between : ℕ) : ℤ :=
  match plan.kind with
  | .Cubic => cubic x between
  | .Polyphase =>
    let k := if plan.phaseBits ≠ 0 then between >>> (32 - plan.phaseBits) else 0
    let mu : ℤ := ((between <<< plan.phaseBits) % 2 ^ 32) >>> (32 - muBits)
    let y0 := (dot x (plan.row k) + coeffHalf) >>> coeffQ
    let y1 := (dot x (plan.row (k + 1)) + coeffHalf) >>> coeffQ
    y0 + (((y1 - y0) * mu) >>> muBits)
  | .Integer => (dot x (plan.row between) + coeffHalf) >>> coeffQ

def frame (format : Format) (buf : List (List ℤ)) (pos between : ℕ) : List (Sample format) :=
  (List.range plan.channels).map fun ch =>
    let x := ((buf.drop (pos - plan.left)).take (plan.left + plan.right + 1)).map (·.getD ch 0)
    Sample.store format (plan.value x between)

def between (core : Core) : ℕ :=
  match plan.kind with
  | .Integer => core.phase
  | _ => core.frac

def advance (core : Core) : Core :=
  match plan.kind with
  | .Integer =>
    let phase := core.phase + plan.downM
    { core with pos := core.pos + phase / plan.upL, phase := phase % plan.upL }
  | _ =>
    let frac := core.frac + core.stepFrac
    { core with pos := core.pos + (core.stepInt + frac / 2 ^ 32), frac := frac % 2 ^ 32 }

/-- `generate`, into so much room. -/
def generate (format : Format) : ℕ → Core → Core × List (List (Sample format))
  | 0, core => (core, [])
  | room + 1, core =>
    if core.pos + plan.right < core.buf.length then
      let frame := plan.frame format core.buf core.pos (plan.between core)
      let (core, frames) := generate format room (plan.advance core)
      (core, frame :: frames)
    else (core, [])

/-- `compact`. -/
def compact (core : Core) : Core :=
  let drop := min (core.pos - plan.left) core.buf.length
  { core with buf := core.buf.drop drop, pos := core.pos - drop }

/-- The loop of `process`: whether it took all of the input. -/
def processLoop (format : Format) :
    ℕ → Core → List (List ℤ) → ℕ → Core × List (List (Sample format)) × Bool
  | 0, core, _, _ => (core, [], false)
  | fuel + 1, core, input, room =>
    let n := min input.length (plan.cap - core.buf.length)
    let (core, frames) := plan.generate format room { core with buf := core.buf ++ input.take n }
    let core := plan.compact core
    if input.drop n = [] then (core, frames, true)
    else if core.buf.length = plan.cap then (core, frames, false)
    else
      let (core, more, ok) := processLoop format fuel core (input.drop n) (room - frames.length)
      (core, frames ++ more, ok)

/-- `process`: the frames that are written, and whether it was not refused. -/
def process (format : Format) (core : Core) (input : List (List (Sample format))) (room : ℕ) :
    Core × List (List (Sample format)) × Bool :=
  if plan.maxIn < input.length then (core, [], false)
  else
    plan.processLoop format (input.length + 1) { plan.refreshStep core with latched := false }
      (input.map (·.map Sample.load)) room

/-- `last_index`, in words of so many bits. -/
def lastIndex (usizeBits : ℕ) (core : Core) (outFrames : ℕ) : ℕ :=
  let k := outFrames - 1
  match plan.kind with
  | .Integer =>
    (core.pos + (core.phase + k * plan.downM % 2 ^ usizeBits) % 2 ^ usizeBits / plan.upL) %
      2 ^ usizeBits
  | _ =>
    let step := core.stepInt <<< 32 ||| core.stepFrac
    (core.pos + (((core.frac + k * step % 2 ^ 64) % 2 ^ 64) >>> 32) % 2 ^ usizeBits) % 2 ^ usizeBits

/-- `frames_needed`. -/
def framesNeeded (usizeBits : ℕ) (core : Core) (outFrames : ℕ) : ℕ × Core :=
  if outFrames = 0 then (0, core)
  else
    let core := { plan.refreshStep { core with latched := false } with latched := true }
    ((plan.lastIndex usizeBits core outFrames + plan.right + 1) % 2 ^ usizeBits - core.buf.length,
      core)

/-- `max_out`. -/
def maxOut (inFrames : ℕ) : ℕ :=
  let ratio := F32.mul (F32.div (F32.round plan.outRate) (F32.round plan.inRate))
    (F32.add 1 (F32.mul 10000 (F32.round (1 / 10 ^ 6))))
  ⌈F32.mul (F32.round ((inFrames + plan.left + plan.right + 2 : ℕ) : ℚ)) ratio⌉.toNat + 2

end Plan

/-- `set_adjust`, with what the trim is rounded to; `Integer` has none. -/
def Plan.setAdjust (plan : Plan) (core : Core) (ppb : ℤ) : Core :=
  if plan.kind = .Integer then core else { core with adjustPpb := ppb }

end EspDevkit.Audio
