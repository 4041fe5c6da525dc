import EspDevkit.Audio.Mixer
import Mathlib.Algebra.BigOperators.Group.Finset.Piecewise

/-!
# Mixing is exact

What a mixer puts out is the sum of coefficient times sample, rounded and saturated, exactly where
no running sum of the products leaves 64 bits.
-/

namespace EspDevkit.Audio

open List

open Register (Sum Fits Runs)
open Splice (splice)

variable {format : Format} {outChannels : ℕ}

def exactSum (inputs : List (Input outChannels)) (sources : List (Option (List (Sample format))))
    (f o : ℕ) : ℤ :=
  ((inputs.zip sources).map fun (input, source) =>
    source.elim 0 fun p =>
      ∑ i ∈ Finset.range input.channels,
        input.coefficient o i * p[f * input.channels + i]?.elim 0 Sample.load).sum

def Format.scale : Format → ℕ
  | .S16 => 8
  | .S32 => 0

/-- A sum rounded to a working value, and that rounded and saturated to the format. -/
def exactSample (format : Format) (sum : ℤ) : Sample format :=
  Sample.saturate format
    (round ((round ((sum : ℚ) / 2 ^ mixQ) : ℚ) / 2 ^ format.scale))

def mixTerms (inputs : List (Input outChannels)) (sources : List (Option (List (Sample format))))
    (f o : ℕ) : List ℤ :=
  (inputs.zip sources).flatMap fun (input, source) => source.elim [] fun p => input.terms p f o

theorem sum_mixTerms (inputs : List (Input outChannels))
    (sources : List (Option (List (Sample format)))) (f o : ℕ) :
    (mixTerms inputs sources f o).sum = exactSum inputs sources f o := by
  unfold mixTerms exactSum
  rw [flatMap_def, sum_flatten, map_map]
  congr 1
  apply map_congr_left
  rintro ⟨input, source⟩ _
  cases source with
  | none => rfl
  | some p => rfl

theorem store_eq (v : ℤ) :
    Sample.store format v = Sample.saturate format (round ((v : ℚ) / 2 ^ format.scale)) := by
  cases format with
  | S16 =>
    have rounded := Sample.round_shift v 7
    simp only [Sample.store, Format.scale, Sample.s16Shift]
    rw [rounded]
  | S32 => simp [Sample.store, Format.scale]

theorem exactSample_eq (sum : ℤ) :
    exactSample format sum = Sample.store format ((sum + mixHalf) >>> mixQ) := by
  have rounded := Sample.round_shift sum 23
  rw [store_eq, exactSample]
  simp only [mixQ, mixHalf] at rounded ⊢
  rw [rounded]

theorem mixFrame_eq (inputs : List (Input outChannels))
    (sources : List (Option (List (Sample format)))) (f : ℕ) :
    mixFrame inputs sources f = (List.range outChannels).map fun o =>
      Sum.zero.addAll 64 (mixTerms inputs sources f o) := by
  have general : ∀ (mix : List Sum → Input outChannels × Option (List (Sample format)) → List Sum)
      (_ : ∀ acc input, mix acc (input, none) = acc)
      (_ : ∀ acc input p, mix acc (input, some p) =
        acc.mapIdx fun o a => a.addAll 64 (input.terms p f o))
      (pairs : List (Input outChannels × Option (List (Sample format)))) (start : ℕ → Sum),
      pairs.foldl mix ((List.range outChannels).map start) =
        (List.range outChannels).map fun o =>
          (start o).addAll 64
            (pairs.flatMap fun pair => pair.2.elim [] fun p => pair.1.terms p f o) := by
    intro mix silent mixed pairs
    induction pairs with
    | nil => intro start; rfl
    | cons pair pairs ih =>
      intro start
      obtain ⟨input, source⟩ := pair
      cases source with
      | none =>
        rw [foldl_cons, silent]
        exact ih start
      | some p =>
        rw [foldl_cons, mixed]
        have step : ((List.range outChannels).map start).mapIdx
              (fun o a => a.addAll 64 (input.terms p f o)) =
            (List.range outChannels).map fun o => (start o).addAll 64 (input.terms p f o) := by
          apply ext_getElem?
          intro o
          rw [List.getElem?_mapIdx, List.getElem?_map, List.getElem?_map]
          by_cases small : o < outChannels
          · rw [List.getElem?_range small]
            rfl
          · rw [List.getElem?_eq_none (by rw [length_range]; omega)]
            rfl
        rw [step, ih]
        apply map_congr_left
        intro o _
        rw [flatMap_cons, Register.addAll_append]
        rfl
  have zeros : List.replicate outChannels Sum.zero =
      (List.range outChannels).map fun _ => Sum.zero := by
    rw [map_const', length_range]
  unfold mixFrame
  rw [zeros]
  exact general _ (fun _ _ => rfl) (fun _ _ _ => rfl) _ _

/-- One accumulator is exact if no running sum leaves 64 bits, and notices if one does. -/
theorem finish_addAll {terms : List ℤ} :
    (finish format (Sum.zero.addAll 64 terms)).2 = false ↔ Runs 64 0 (terms ++ [mixHalf]) := by
  have whole : (Sum.zero.addAll 64 terms).add 64 mixHalf =
      Sum.zero.addAll 64 (terms ++ [mixHalf]) := by
    rw [Register.addAll_append]
    rfl
  constructor
  · intro clean
    apply Register.runs_of_addAll Sum.zero (by decide)
    rw [← whole]
    exact clean
  · intro runs
    change ((Sum.zero.addAll 64 terms).add 64 mixHalf).overflowed = false
    rw [whole, Register.addAll_of_runs (by decide) runs]
    rfl

theorem finish_exact {terms : List ℤ} (runs : Runs 64 0 (terms ++ [mixHalf])) :
    (finish format (Sum.zero.addAll 64 terms)).1 = exactSample format terms.sum := by
  have whole : (Sum.zero.addAll 64 terms).add 64 mixHalf =
      Sum.zero.addAll 64 (terms ++ [mixHalf]) := by
    rw [Register.addAll_append]
    rfl
  unfold finish
  rw [whole, Register.addAll_of_runs (by decide) runs, exactSample_eq]
  simp [Sum.zero]

theorem mix_eq {inputs : List (Input outChannels)}
    {sources : List (Sample format) → List (Option (List (Sample format)))}
    {output : List (Sample format)} {frames : ℕ} (frame : ℕ → List Sum)
    (width : ∀ f, (frame f).length = outChannels) (room : frames * outChannels ≤ output.length)
    (reads : ∀ f < frames, ∀ written,
      written.drop (f * outChannels) = output.drop (f * outChannels) →
        mixFrame inputs (sources written) f = frame f) :
    mix inputs sources output frames =
      { output :=
          ((List.range frames).flatMap fun f => ((frame f).map (finish format)).map Prod.fst) ++
            output.drop (frames * outChannels)
        overflowed := (List.range frames).any fun f =>
          ((frame f).map (finish format)).any Prod.snd } := by
  induction frames with
  | zero => simp [mix]
  | succ frames ih =>
    rw [Nat.succ_mul] at room
    have before := ih (by omega) fun f small => reads f (by omega)
    unfold mix at before ⊢
    rw [range_succ, foldl_append, before, foldl_cons, foldl_nil]
    have length : ((List.range frames).flatMap fun f =>
        ((frame f).map (finish format)).map Prod.fst).length = frames * outChannels := by
      rw [length_flatMap]
      simp [width]
    rw [reads frames (Nat.lt_succ_self _) _ (drop_left' length)]
    have size : (((frame frames).map (finish format)).map Prod.fst).length = outChannels := by
      rw [length_map, length_map, width]
    apply Mixed.ext
    · change splice (frames * outChannels)
        (((frame frames).map (finish format)).map Prod.fst) _ = _
      rw [splice, take_left' length, size, ← drop_drop, drop_left' length,
        drop_drop, flatMap_append, flatMap_singleton, Nat.succ_mul]
    · change (_ || ((frame frames).map (finish format)).any Prod.snd) = _
      rw [any_append, any_cons, any_nil, Bool.or_false]

theorem mix_spec {inputs : List (Input outChannels)}
    {sources : List (Sample format) → List (Option (List (Sample format)))}
    {output : List (Sample format)} {frames : ℕ} (given : List (Option (List (Sample format))))
    (room : frames * outChannels ≤ output.length)
    (reads : ∀ f < frames, ∀ written,
      written.drop (f * outChannels) = output.drop (f * outChannels) →
        mixFrame inputs (sources written) f = mixFrame inputs given f) :
    mix inputs sources output frames =
      { output := ((List.range frames).flatMap fun f => (List.range outChannels).map fun o =>
          (finish format (Sum.zero.addAll 64 (mixTerms inputs given f o))).1) ++
            output.drop (frames * outChannels)
        overflowed := (List.range frames).any fun f => (List.range outChannels).any fun o =>
          (finish format (Sum.zero.addAll 64 (mixTerms inputs given f o))).2 } := by
  have whole := mix_eq (mixFrame inputs given) (fun f => by
    rw [mixFrame_eq, length_map, length_range]) room reads
  rw [whole]
  apply Mixed.ext
  · dsimp only
    congr 2
    funext f
    rw [mixFrame_eq, map_map, map_map]
    rfl
  · dsimp only
    congr 1
    funext f
    rw [mixFrame_eq, map_map, any_map]
    rfl

theorem length_frames {α : Type} {frames width : ℕ} (sample : ℕ → ℕ → α) :
    ((List.range frames).flatMap fun f => (List.range width).map (sample f)).length =
      frames * width := by
  rw [length_flatMap]
  simp

theorem getElem?_frames {α : Type} {frames width f o : ℕ} (small : f < frames) (less : o < width)
    (sample : ℕ → ℕ → α) (rest : List α) :
    (((List.range frames).flatMap fun f => (List.range width).map (sample f)) ++
      rest)[f * width + o]? = some (sample f o) := by
  obtain ⟨later, rfl⟩ := Nat.exists_eq_add_of_lt small
  have front : ((List.range f).flatMap fun f => (List.range width).map (sample f)).length =
      f * width := length_frames sample
  rw [add_assoc, range_add, flatMap_append, append_assoc,
    List.getElem?_append_right (by omega), front, Nat.add_sub_cancel_left, range_succ_eq_map,
    map_cons, flatMap_cons, add_zero, append_assoc,
    List.getElem?_append_left (by rw [length_map, length_range]; exact less),
    List.getElem?_map, List.getElem?_range less]
  rfl

theorem exactSample_unity (x : Sample format) : exactSample format (mixUnity * x.load) = x := by
  have rounded : (mixUnity * x.load + mixHalf) >>> mixQ = x.load := by
    have unity : mixUnity = 2 ^ 24 := by decide
    have half : mixHalf = 2 ^ 23 := by decide
    rw [Int.shiftRight_eq_div_pow, unity, half, mixQ]
    omega
  rw [exactSample_eq, rounded, Sample.store_load]

theorem load_small (x : Sample format) : |x.load| ≤ 2 ^ 31 := by
  have fits := x.property
  rw [abs_le]
  cases format with
  | S16 =>
    have scaled : x.load = x.val * 256 := rfl
    simp only [Fits, Format.bits] at fits
    omega
  | S32 =>
    have same : x.load = x.val := rfl
    simp only [Fits, Format.bits] at fits
    omega

section Through

variable {input : Input outChannels} {p : List (Sample format)} {f o : ℕ}

theorem coefficient_of_identity (passes : input.identity = true) (less : o < outChannels) :
    input.channels = outChannels ∧
      ∀ i < input.channels, input.coefficient o i = if o = i then mixUnity else 0 := by
  rw [input.identity_eq, isIdentity, Bool.and_eq_true, decide_eq_true_eq] at passes
  obtain ⟨same, entries⟩ := passes
  refine ⟨same.symm, fun i small => ?_⟩
  have row := all_eq_true.mp entries o (mem_range.mpr less)
  have entry := all_eq_true.mp row i (mem_range.mpr small)
  exact of_decide_eq_true entry

theorem terms_of_identity (passes : input.identity = true) (less : o < outChannels) :
    input.terms p f o = (List.range input.channels).map fun i =>
      if o = i then mixUnity * p[f * input.channels + o]?.elim 0 Sample.load else 0 := by
  apply map_congr_left
  intro i member
  rw [(coefficient_of_identity passes less).2 i (mem_range.mp member)]
  split
  · next same => rw [same]
  · rw [zero_mul]

theorem sum_of_identity (passes : input.identity = true) (less : o < outChannels) :
    (input.terms p f o).sum = mixUnity * p[f * input.channels + o]?.elim 0 Sample.load := by
  have same := (coefficient_of_identity passes less).1
  rw [terms_of_identity passes less]
  have whole := Finset.sum_ite_eq (Finset.range input.channels) o
    fun _ => mixUnity * p[f * input.channels + o]?.elim 0 Sample.load
  rw [if_pos (Finset.mem_range.mpr (less.trans_eq same.symm))] at whole
  exact whole

theorem runs_of_identity (passes : input.identity = true) (less : o < outChannels) :
    Runs 64 0 (input.terms p f o ++ [mixHalf]) := by
  have few : input.channels ≤ 8 := input.few.2
  apply Register.runs_of_small (2 ^ 55)
  · intro term member
    rw [terms_of_identity passes less] at member
    rcases mem_append.mp member with product | half
    · obtain ⟨i, -, rfl⟩ := mem_map.mp product
      split
      · have unity : mixUnity = 2 ^ 24 := by decide
        have small : |p[f * input.channels + o]?.elim 0 Sample.load| ≤ 2 ^ 31 := by
          cases p[f * input.channels + o]? with
          | none => exact (abs_zero (α := ℤ)).trans_le (by norm_num)
          | some x => exact load_small x
        rw [abs_mul, unity]
        calc |(2 : ℤ) ^ 24| * |p[f * input.channels + o]?.elim 0 Sample.load| ≤ 2 ^ 24 * 2 ^ 31 :=
              mul_le_mul (by norm_num) small (abs_nonneg _) (by norm_num)
          _ = 2 ^ 55 := by norm_num
      · norm_num
    · rw [mem_singleton.mp half]
      decide
  · rw [length_append, Input.terms, length_map, length_range, abs_zero, zero_add]
    have count : ((input.channels + [mixHalf].length : ℕ) : ℤ) ≤ 9 := by
      rw [length_singleton]
      omega
    calc ((input.channels + [mixHalf].length : ℕ) : ℤ) * 2 ^ 55 ≤ 9 * 2 ^ 55 :=
          mul_le_mul_of_nonneg_right count (by norm_num)
      _ < 2 ^ (64 - 1) := by norm_num

end Through

namespace Mixer

variable {mixer : Mixer} {inputs rest : List (Option (List (Sample format)))}
  {output pcm : List (Sample format)}

def Exact (mixer : Mixer) (inputs : List (Option (List (Sample format)))) (frames : ℕ)
    (mixed : Mixed format) : Prop :=
  mixed.overflowed = false ∧ ∀ f < frames, ∀ o < mixer.outChannels,
    mixed.output[f * mixer.outChannels + o]? =
      some (exactSample format (exactSum mixer.inputs inputs f o))

/-- The sums of the products stay within 64 bits as they are added up, and with the half that is
added last; and an input that passes through is as long as the output. -/
def Roomy (mixer : Mixer) (inputs : List (Option (List (Sample format))))
    (output : List (Sample format)) : Prop :=
  (∀ input, mixer.through inputs = some input → output.length ≤ input.length) ∧
    ∀ f < output.length / mixer.outChannels, ∀ o < mixer.outChannels,
      Runs 64 0 (mixTerms mixer.inputs inputs f o ++ [mixHalf])

def SameInPlace (mixer : Mixer) (locked : Bool) (inputs : List (Option (List (Sample format))))
    (output : List (Sample format)) : Prop :=
  ∀ pcm rest first more, inputs = some pcm :: rest → mixer.inputs = first :: more →
    mixer.outChannels ≤ first.channels →
      output = pcm.take (pcm.length / first.channels * mixer.outChannels) →
        ∃ placed mixed, mixer.processInPlace locked pcm rest = some placed ∧
          mixer.process locked inputs output = some mixed ∧
          placed.output.take output.length = mixed.output ∧ placed.overflowed = mixed.overflowed

theorem through_eq {input : List (Sample format)} (passes : mixer.through inputs = some input) :
    ∃ mi, mixer.inputs = [mi] ∧ inputs = [some input] ∧ mi.identity = true := by
  unfold through at passes
  split at passes
  · next mi given single =>
      split at passes
      · next identity =>
          cases passes
          exact ⟨mi, single, rfl, identity⟩
      · cases passes
  · cases passes

theorem mixTerms_single {mi : Input outChannels} {p : List (Sample format)} {f o : ℕ} :
    mixTerms [mi] [some p] f o = mi.terms p f o := by
  simp [mixTerms]

theorem room_frames (mixer : Mixer) (output : List (Sample format)) :
    output.length / mixer.outChannels * mixer.outChannels ≤ output.length :=
  Nat.div_mul_le_self _ _

theorem mix_exact :
    Exact mixer inputs (output.length / mixer.outChannels)
        (mix mixer.inputs (fun _ => inputs) output (output.length / mixer.outChannels)) ↔
      ∀ f < output.length / mixer.outChannels, ∀ o < mixer.outChannels,
        Runs 64 0 (mixTerms mixer.inputs inputs f o ++ [mixHalf]) := by
  unfold Exact
  rw [mix_spec inputs (room_frames mixer output) fun _ _ _ _ => rfl]
  constructor
  · rintro ⟨clean, -⟩ f small o less
    rw [any_eq_false] at clean
    have row := clean f (mem_range.mpr small)
    rw [Bool.not_eq_true, any_eq_false] at row
    have one := row o (mem_range.mpr less)
    rw [Bool.not_eq_true] at one
    exact finish_addAll.mp one
  · intro runs
    constructor
    · rw [any_eq_false]
      intro f small
      rw [Bool.not_eq_true, any_eq_false]
      intro o less
      rw [Bool.not_eq_true]
      exact finish_addAll.mpr (runs f (mem_range.mp small) o (mem_range.mp less))
    · intro f small o less
      rw [getElem?_frames small less fun f o =>
        (finish format (Sum.zero.addAll 64 (mixTerms mixer.inputs inputs f o))).1,
        finish_exact (runs f small o less), sum_mixTerms]

theorem through_exact {input : List (Sample format)} (passes : mixer.through inputs = some input)
    (long : output.length ≤ input.length) :
    Exact mixer inputs (output.length / mixer.outChannels)
        { output := input.take output.length, overflowed := false } ∧
      ∀ f < output.length / mixer.outChannels, ∀ o < mixer.outChannels,
        Runs 64 0 (mixTerms mixer.inputs inputs f o ++ [mixHalf]) := by
  obtain ⟨mi, single, rfl, identity⟩ := through_eq passes
  have inside {f o : ℕ} (small : f < output.length / mixer.outChannels)
      (less : o < mixer.outChannels) : f * mixer.outChannels + o < output.length := by
    have whole := room_frames mixer output
    have next := Nat.mul_le_mul_right mixer.outChannels (Nat.succ_le_of_lt small)
    rw [Nat.succ_mul] at next
    omega
  refine ⟨⟨rfl, fun f small o less => ?_⟩, fun f small o less => ?_⟩
  · have place := inside small less
    have there : input[f * mixer.outChannels + o]? = some (input[f * mixer.outChannels + o]) :=
      List.getElem?_eq_getElem (place.trans_le long)
    rw [← sum_mixTerms, single, mixTerms_single, sum_of_identity identity less,
      (coefficient_of_identity identity less).1, List.getElem?_take_of_lt place, there,
      Option.elim_some, exactSample_unity]
  · rw [single, mixTerms_single]
    exact runs_of_identity identity less

theorem mixFrame_in_place {first : Input outChannels} {more : List (Input outChannels)} {f : ℕ}
    {written : List (Sample format)} (narrow : outChannels ≤ first.channels)
    (same : written.drop (f * outChannels) = pcm.drop (f * outChannels)) :
    mixFrame (first :: more) (some written :: rest) f =
      mixFrame (first :: more) (some pcm :: rest) f := by
  have read (i : ℕ) : written[f * first.channels + i]? = pcm[f * first.channels + i]? := by
    have before := Nat.mul_le_mul_left f narrow
    have behind := congrArg (·[f * first.channels + i - f * outChannels]?) same
    simp only [List.getElem?_drop] at behind
    rwa [show f * outChannels + (f * first.channels + i - f * outChannels) =
      f * first.channels + i by omega] at behind
  have terms (o : ℕ) : first.terms written f o = first.terms pcm f o := by
    unfold Input.terms
    simp only [read]
  rw [mixFrame_eq, mixFrame_eq]
  apply map_congr_left
  intro o _
  simp only [mixTerms, zip_cons_cons, flatMap_cons, Option.elim_some, terms]

theorem sameInPlace (mixer : Mixer) (locked : Bool) (inputs : List (Option (List (Sample format))))
    (output : List (Sample format))
    (asserts : mixer.enough inputs (output.length / mixer.outChannels) = true) :
    mixer.SameInPlace locked inputs output := by
  rintro pcm rest first more rfl list narrow rfl
  have fits : pcm.length / first.channels * mixer.outChannels ≤ pcm.length :=
    (Nat.mul_le_mul_left _ narrow).trans (Nat.div_mul_le_self _ _)
  have length : (pcm.take (pcm.length / first.channels * mixer.outChannels)).length =
      pcm.length / first.channels * mixer.outChannels := by
    rw [length_take, min_eq_left fits]
  have frames : pcm.length / first.channels * mixer.outChannels / mixer.outChannels =
      pcm.length / first.channels := Nat.mul_div_cancel _ mixer.few.1
  rw [length, frames] at asserts
  unfold processInPlace process
  rw [list]
  dsimp only
  rw [if_pos ⟨narrow, asserts⟩, length, frames, if_pos asserts]
  cases passes : (mixer.adopt locked).through (some pcm :: rest) with
  | some input =>
    obtain ⟨mi, -, same, -⟩ := through_eq passes
    cases same
    dsimp only
    rw [if_pos fits]
    exact ⟨_, _, rfl, rfl, rfl, rfl⟩
  | none =>
    refine ⟨_, _, rfl, rfl, ?_⟩
    obtain ⟨first', more', list', channels⟩ :
        ∃ first' more', (mixer.adopt locked).inputs = first' :: more' ∧
          first'.channels = first.channels := by
      unfold adopt
      dsimp only
      rw [list]
      split
      · cases mixer.pending with
        | nil => exact ⟨first, more, rfl, rfl⟩
        | cons m ms =>
          refine ⟨first.adopt m, _, rfl, ?_⟩
          unfold Input.adopt
          split <;> rfl
      · exact ⟨first, more, rfl, rfl⟩
    let adopted := mixer.adopt locked
    have placed : mix adopted.inputs (fun written => some written :: rest) pcm
        (pcm.length / first.channels) = _ :=
      mix_spec (some pcm :: rest) fits fun f _ written same => by
        rw [show adopted.inputs = first' :: more' from list']
        exact mixFrame_in_place (channels.symm ▸ narrow) same
    have copied : mix adopted.inputs (fun _ => some pcm :: rest)
        (pcm.take (pcm.length / first.channels * mixer.outChannels))
        (pcm.length / first.channels) = _ :=
      mix_spec (some pcm :: rest) length.ge fun _ _ _ _ => rfl
    rw [placed, copied]
    refine ⟨?_, rfl⟩
    change List.take (pcm.length / first.channels * mixer.outChannels) (_ ++ _) =
      _ ++ (pcm.take (pcm.length / first.channels * mixer.outChannels)).drop
        (pcm.length / first.channels * mixer.outChannels)
    rw [drop_of_length_le length.le, append_nil]
    exact take_left' (length_frames _)

/-- Where the inputs and the output hold the frames that are asked for, each sample that is put out
is the exact sum of coefficient times sample, rounded and saturated, and no addition overflows, if
and only if the sums have room in 64 bits; in place the output is what it is on a copy. -/
theorem process_exact (mixer : Mixer) (locked : Bool)
    (inputs : List (Option (List (Sample format)))) (output : List (Sample format))
    (asserts : mixer.enough inputs (output.length / mixer.outChannels) = true) :
    ((∃ mixed, mixer.process locked inputs output = some mixed ∧
        (mixer.adopt locked).Exact inputs (output.length / mixer.outChannels) mixed) ∧
      mixer.SameInPlace locked inputs output) ↔ (mixer.adopt locked).Roomy inputs output := by
  rw [and_iff_left (mixer.sameInPlace locked inputs output asserts)]
  unfold process
  dsimp only
  rw [if_pos asserts]
  cases passes : (mixer.adopt locked).through inputs with
  | some input =>
    dsimp only
    constructor
    · rintro ⟨mixed, result, -⟩
      split at result
      · next long =>
          refine ⟨?_, (through_exact passes long).2⟩
          rintro _ same
          cases passes.symm.trans same
          exact long
      · cases result
    · rintro ⟨long, -⟩
      have long := long input passes
      rw [if_pos long]
      exact ⟨_, rfl, (through_exact passes long).1⟩
  | none =>
    dsimp only
    constructor
    · rintro ⟨mixed, ⟨⟩, exact_⟩
      exact ⟨fun _ same => (nomatch passes.symm.trans same), mix_exact.mp exact_⟩
    · rintro ⟨-, runs⟩
      exact ⟨_, rfl, mix_exact.mpr runs⟩

/-- Two inputs of a stereo mixer, of two channels and of one. -/
def duet : Mixer where
  outChannels := 2
  few := by decide
  inputs := [.new 2 2 (by decide), .new 2 1 (by decide)]
  pending := [defaultMatrix 2 2, defaultMatrix 2 1]
  dirty := false

def duetInputs : List (Option (List (Sample .S16))) :=
  [some [⟨100, by decide⟩, ⟨200, by decide⟩], some [⟨10, by decide⟩]]

def silence (format : Format) (length : ℕ) : List (Sample format) :=
  List.replicate length ⟨0, by cases format <;> decide⟩

def chorus : Mixer where
  outChannels := 1
  few := by decide
  inputs := [.new 1 3 (by decide)]
  pending := [defaultMatrix 1 3]
  dirty := false

theorem process_exact_duet :
    (∃ mixed, duet.process false duetInputs (silence .S16 2) = some mixed ∧
      (duet.adopt false).Exact duetInputs 1 mixed) ∧
        duet.SameInPlace false duetInputs (silence .S16 2) :=
  (process_exact duet false duetInputs (silence .S16 2) (by decide)).mpr
    ⟨nofun, by decide +kernel⟩

/-- Three samples at full scale, each 127-fold: the sum wraps to a negative one. -/
theorem chorus_wraps :
    let full : Sample .S32 := ⟨2 ^ 31 - 1, by decide⟩
    let loud := chorus.setMatrix id 0 (List.replicate 3 ⟨127 * 2 ^ 24, by decide⟩)
    ∃ mixed, loud.process false [some [full, full, full]] (silence .S32 1) = some mixed ∧
      mixed.overflowed = true ∧ mixed.output = [⟨-2 ^ 31, by decide⟩] ∧
      exactSample .S32 (exactSum (loud.adopt false).inputs [some [full, full, full]] 0 0) = full :=
  ⟨_, rfl, by decide +kernel, by decide +kernel, by
    rw [exactSample_eq]
    decide +kernel⟩

end Mixer

end EspDevkit.Audio
