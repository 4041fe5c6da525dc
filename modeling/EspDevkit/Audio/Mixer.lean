import EspDevkit.Audio.FrameFifo
import EspDevkit.Library.Register
import EspDevkit.Library.Splice
import Mathlib.Algebra.Order.Round
import Mathlib.Data.Rat.Floor
import Mathlib.Data.List.Zip

/-!
# Mixing

A mixer adds up its inputs, each through a matrix of coefficients, in 64 bits for each sample that
it puts out.
-/

namespace EspDevkit.Audio

open Register (Sum Fits Runs)
open Splice (splice)

/-- `Format`. -/
inductive Format
  | S16
  /-- 24-bit PCM with 8 bits of headroom. -/
  | S32
  deriving DecidableEq, Repr

namespace Format

def bits : Format → ℕ
  | S16 => 16
  | S32 => 32

end Format

abbrev Sample (format : Format) : Type := { x : ℤ // Fits format.bits x }

/-- An `i32` of a matrix. -/
abbrev Coefficient : Type := { q : ℤ // Fits 32 q }

namespace Sample

variable {format : Format}

def s16Shift : ℕ := 8

/-- The working value: S16 scaled up to the S32 full scale. -/
def load (x : Sample format) : ℤ :=
  match format with
  | .S16 => x.val * (1 <<< s16Shift)
  | .S32 => x.val

def saturate (format : Format) (v : ℤ) : Sample format :=
  ⟨max (-2 ^ (format.bits - 1)) (min v (2 ^ (format.bits - 1) - 1)), by
    unfold Fits
    cases format <;> simp only [Format.bits] <;> omega⟩

def store (format : Format) (v : ℤ) : Sample format :=
  match format with
  | .S16 => saturate .S16 ((v + 1 <<< (s16Shift - 1)) >>> s16Shift)
  | .S32 => saturate .S32 v

theorem round_shift (v : ℤ) (n : ℕ) :
    round ((v : ℚ) / 2 ^ (n + 1)) = (v + 1 <<< n) >>> (n + 1) := by
  rw [round_eq, Int.shiftRight_eq_div_pow, Nat.shiftLeft_eq, one_mul]
  have half : (v : ℚ) / 2 ^ (n + 1) + 1 / 2 =
      ((v + (2 ^ n : ℕ) : ℤ) : ℚ) / ((2 ^ (n + 1) : ℕ) : ℚ) := by
    push_cast
    field_simp
    ring
  rw [half, Rat.floor_intCast_div_natCast]

theorem saturate_of_fits {v : ℤ} (fits : Fits format.bits v) : saturate format v = ⟨v, fits⟩ := by
  apply Subtype.ext
  have bounds := fits
  unfold Fits at bounds
  simp only [saturate]
  omega

theorem store_load (x : Sample format) : store format x.load = x := by
  cases format with
  | S16 =>
    have same : (x.val * (1 <<< s16Shift) + 1 <<< (s16Shift - 1)) >>> s16Shift = x.val := by
      rw [Int.shiftRight_eq_div_pow]
      simp only [s16Shift]
      omega
    simp only [store, load, same]
    exact saturate_of_fits x.property
  | S32 => exact saturate_of_fits x.property

end Sample

def mixQ : ℕ := 24
def mixUnity : ℤ := 1 <<< mixQ
def mixHalf : ℤ := 1 <<< (mixQ - 1)

def isIdentity (m : List Coefficient) (outCh inCh : ℕ) : Bool :=
  outCh = inCh && (List.range outCh).all fun o => (List.range inCh).all fun i =>
    m[o * inCh + i]?.elim 0 Subtype.val = if o = i then mixUnity else 0

def defaultMatrix (outCh inCh : ℕ) : List Coefficient :=
  (List.range (outCh * inCh)).map fun n =>
    if inCh = 1 then ⟨mixUnity, by decide⟩
    else if outCh = 1 then
      ⟨mixUnity / inCh, by
        have positive : 0 ≤ mixUnity / (inCh : ℤ) := Int.ediv_nonneg (by decide) (by omega)
        have less : mixUnity / (inCh : ℤ) ≤ mixUnity := Int.ediv_le_self _ (by decide)
        have unity : mixUnity = 2 ^ 24 := by decide
        unfold Fits
        omega⟩
    else if n / inCh = n % inCh then ⟨mixUnity, by decide⟩ else ⟨0, by decide⟩

/-- `Input`: its matrix row by row. -/
structure Input (outChannels : ℕ) where
  channels : ℕ
  few : 1 ≤ channels ∧ channels ≤ MAX_CHANNELS
  active : List Coefficient
  shape : active.length = outChannels * channels
  identity : Bool
  identity_eq : identity = isIdentity active outChannels channels

/-- `Mixer` and what it shares with its control. -/
structure Mixer where
  outChannels : ℕ
  few : 1 ≤ outChannels ∧ outChannels ≤ MAX_CHANNELS
  inputs : List (Input outChannels)
  pending : List (List Coefficient)
  dirty : Bool

section Inputs

variable {outChannels : ℕ}

/-- `copy_from_slice` and the flag beside it. -/
def Input.adopt (input : Input outChannels) (m : List Coefficient) : Input outChannels :=
  if shape : m.length = outChannels * input.channels then
    { input with
      active := m, shape, identity := isIdentity m outChannels input.channels, identity_eq := rfl }
  else input

def Input.coefficient (input : Input outChannels) (o i : ℕ) : ℤ :=
  input.active[o * input.channels + i]?.elim 0 Subtype.val

end Inputs

/-- An input of `Mixer::new`. -/
def Input.new (outChannels channels : ℕ) (few : 1 ≤ channels ∧ channels ≤ MAX_CHANNELS) :
    Input outChannels where
  channels := channels
  few := few
  active := defaultMatrix outChannels channels
  shape := by rw [defaultMatrix, List.length_map, List.length_range]
  identity := isIdentity (defaultMatrix outChannels channels) outChannels channels
  identity_eq := rfl

/-- `Mixer::new`. -/
def Mixer.new (outChannels : ℕ) (inChannels : List ℕ) : Except Error Mixer :=
  if inChannels = [] ∨ 255 < inChannels.length then .error .InvalidArg
  else if few : 1 ≤ outChannels ∧ outChannels ≤ MAX_CHANNELS then
    if all : ∀ ch ∈ inChannels, 1 ≤ ch ∧ ch ≤ MAX_CHANNELS then
      .ok
        { outChannels, few
          inputs := inChannels.attach.map fun ch => .new outChannels ch.val (all ch.val ch.property)
          pending := inChannels.map (defaultMatrix outChannels), dirty := false }
    else .error .InvalidArg
  else .error .InvalidArg

/-- `MixerControl::set_matrix`, with what a coefficient is rounded to. -/
def Mixer.setMatrix {C : Type} (mixer : Mixer) (coeffToQ : C → Coefficient) (input : ℕ)
    (matrix : List C) : Mixer :=
  match mixer.pending[input]? with
  | none => { mixer with dirty := true }
  | some pending =>
    if matrix.length ≠ pending.length then { mixer with dirty := true }
    else { mixer with pending := mixer.pending.set input (matrix.map coeffToQ), dirty := true }

/-- `adopt`, which does not wait for a setter that has the lock. -/
def Mixer.adopt (mixer : Mixer) (locked : Bool) : Mixer :=
  { mixer with
    dirty := mixer.dirty && locked
    inputs :=
      if mixer.dirty ∧ locked = false then
        mixer.inputs.zipWith Input.adopt mixer.pending ++ mixer.inputs.drop mixer.pending.length
      else mixer.inputs }

variable {format : Format} {outChannels : ℕ}

def Input.terms (input : Input outChannels) (p : List (Sample format)) (f o : ℕ) : List ℤ :=
  (List.range input.channels).map fun i =>
    input.coefficient o i * p[f * input.channels + i]?.elim 0 Sample.load

def mixFrame (inputs : List (Input outChannels)) (sources : List (Option (List (Sample format))))
    (f : ℕ) : List Sum :=
  (inputs.zip sources).foldl
    (fun acc (input, source) =>
      match source with
      | none => acc
      | some p => acc.mapIdx fun o a => a.addAll 64 (input.terms p f o))
    (List.replicate outChannels Sum.zero)

/-- What one accumulator puts out, and whether rounding it overflows. -/
def finish (format : Format) (acc : Sum) : Sample format × Bool :=
  let sum := acc.add 64 mixHalf
  (Sample.store format (sum.value >>> mixQ), sum.overflowed)

/-- The output as far as it is written, and whether an addition left 64 bits. -/
@[ext]
structure Mixed (format : Format) where
  output : List (Sample format)
  overflowed : Bool

/-- `mix`: what each source has may depend on what is written already. -/
def mix (inputs : List (Input outChannels))
    (sources : List (Sample format) → List (Option (List (Sample format))))
    (output : List (Sample format)) (frames : ℕ) : Mixed format :=
  (List.range frames).foldl
    (fun mixed f =>
      let done := (mixFrame inputs (sources mixed.output) f).map (finish format)
      { output := splice (f * outChannels) (done.map Prod.fst) mixed.output
        overflowed := mixed.overflowed || done.any Prod.snd })
    { output, overflowed := false }

namespace Mixer

def enough (mixer : Mixer) (inputs : List (Option (List (Sample format)))) (frames : ℕ) : Bool :=
  inputs.length = mixer.inputs.length &&
    (inputs.zip mixer.inputs).all fun (input, mi) =>
      input.all fun input => frames * mi.channels ≤ input.length

def through (mixer : Mixer) (inputs : List (Option (List (Sample format)))) :
    Option (List (Sample format)) :=
  match mixer.inputs, inputs with
  | [mi], [some input] => if mi.identity then some input else none
  | _, _ => none

/-- `process`, or nothing where an assert or a slice fails. -/
def process (mixer : Mixer) (locked : Bool) (inputs : List (Option (List (Sample format))))
    (output : List (Sample format)) : Option (Mixed format) :=
  let frames := output.length / mixer.outChannels
  if mixer.enough inputs frames then
    let mixer := mixer.adopt locked
    match mixer.through inputs with
    | some input =>
      if output.length ≤ input.length then
        some { output := input.take output.length, overflowed := false }
      else none
    | none => some (mix mixer.inputs (fun _ => inputs) output frames)
  else none

/-- `process_in_place`: the first input is where the output goes. -/
def processInPlace (mixer : Mixer) (locked : Bool) (pcm : List (Sample format))
    (rest : List (Option (List (Sample format)))) : Option (Mixed format) :=
  match mixer.inputs with
  | [] => none
  | first :: _ =>
    let frames := pcm.length / first.channels
    if mixer.outChannels ≤ first.channels ∧ mixer.enough (some pcm :: rest) frames then
      let mixer := mixer.adopt locked
      match mixer.through (some pcm :: rest) with
      | some input => some { output := input, overflowed := false }
      | none => some (mix mixer.inputs (fun written => some written :: rest) pcm frames)
    else none

end Mixer

end EspDevkit.Audio
