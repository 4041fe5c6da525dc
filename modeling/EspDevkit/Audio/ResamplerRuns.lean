import EspDevkit.Audio.ResamplerBlocks

/-!
# Runs of a resampler

The division of a stream into calls does not show, as long as each call has room for what is due,
and what is asked for comes out.
-/

namespace EspDevkit.Audio

open List

namespace Plan

variable {plan : Plan} {core core' : Core} {format : Format} {hist : List (List ℤ)} {time : ℕ}

inductive Call (format : Format)
  | process (input : List (List (Sample format))) (room : ℕ)
  | framesNeeded (outFrames : ℕ)
  | setAdjust (ppb : ℤ)
  | reset

def call (plan : Plan) (usizeBits : ℕ) (core : Core) : Call format → Core
  | .process input room => (plan.process format core input room).1
  | .framesNeeded outFrames => (plan.framesNeeded usizeBits core outFrames).2
  | .setAdjust ppb => plan.setAdjust core ppb
  | .reset => plan.reset core

def reached (plan : Plan) (usizeBits : ℕ) (calls : List (Call format)) : Core :=
  calls.foldl (plan.call usizeBits) plan.fresh

structure Valid (plan : Plan) : Prop where
  counts : 0 < plan.unit
  wide : plan.left + plan.right + plan.maxIn < plan.cap

theorem make_wide (config : ResamplerConfig) (design : Design)
    (left right ntaps phaseBits upL downM rows : ℕ) :
    let plan := make config design left right ntaps phaseBits upL downM rows
    plan.left + plan.right + plan.maxIn < plan.cap := by
  simp only [make]
  generalize (config.inRate <<< 32 / config.outRate) >>> 32 = step
  omega

theorem unit_of_ne (other : plan.kind ≠ .Integer) : plan.unit = 2 ^ 32 := by
  unfold unit
  split
  · next kind => exact absurd kind other
  · rfl

theorem unit_of_eq (integer : plan.kind = .Integer) : plan.unit = plan.upL := by
  unfold unit
  rw [integer]

theorem new_valid {config : ResamplerConfig} {design : Design}
    (made : Plan.new config design = .ok plan) : plan.Valid := by
  unfold Plan.new at made
  split at made
  · cases made
  · next rates =>
      split at made
      · cases made
      · split at made
        · next kind =>
            cases made
            refine ⟨?_, make_wide ..⟩
            rw [unit_of_ne (by simp only [make, kind]; nofun)]
            exact Nat.two_pow_pos 32
        · next kind =>
            dsimp only at made
            by_cases refused : maxPhases <
              (if config.phases = 0 then defaultPhases else config.phases) ∨
                isPowerOfTwo (if config.phases = 0 then defaultPhases else config.phases) = false
            · rw [if_pos refused] at made
              cases made
            · rw [if_neg refused] at made
              cases made
              refine ⟨?_, make_wide ..⟩
              rw [unit_of_ne (by simp only [make, kind]; nofun)]
              exact Nat.two_pow_pos 32
        · next kind =>
            split at made
            · next whole =>
                cases made
                refine ⟨?_, make_wide ..⟩
                rw [unit_of_eq kind]
                have divides := Nat.dvd_of_mod_eq_zero whole
                exact Nat.div_pos (Nat.le_of_dvd (by omega) divides) (by omega)
            · split at made
              · cases made
                refine ⟨?_, make_wide ..⟩
                rw [unit_of_eq kind]
                exact Nat.one_pos
              · cases made

theorem refreshStep_stepped (plan : Plan) (core : Core) (stepped : core.stepFrac < 2 ^ 32) :
    (plan.refreshStep core).stepFrac < 2 ^ 32 := by
  unfold refreshStep
  split
  · exact Nat.mod_lt _ (Nat.two_pow_pos 32)
  · exact stepped

theorem fresh_stepped (valid : plan.Valid) : plan.Stepped plan.fresh := by
  refine ⟨⟨le_rfl, ?_, ?_⟩, Nat.mod_lt _ (Nat.two_pow_pos 32)⟩
  · have none_ : plan.between plan.fresh = 0 := by
      unfold between fresh
      split <;> rfl
    rw [none_]
    exact valid.counts
  · simp only [fresh, length_replicate]
    have := valid.wide
    omega

theorem call_stepped (usizeBits : ℕ) (valid : plan.Valid) (stepped : plan.Stepped core)
    (call : Call format) : plan.Stepped (plan.call usizeBits core call) := by
  obtain ⟨sound, fraction⟩ := stepped
  cases call with
  | process input room =>
    change plan.Stepped (plan.process format core input room).1
    unfold process
    split
    · exact ⟨sound, fraction⟩
    · obtain ⟨sound', kept⟩ := processLoop_sound format (input.length + 1) room
        (input.map (·.map Sample.load)) ((settle_same plan core).2.2.2.mpr sound)
      refine ⟨sound', ?_⟩
      have same : (plan.processLoop format (input.length + 1) (plan.settle core)
          (input.map (·.map Sample.load)) room).1.stepFrac = (plan.settle core).stepFrac := by
        rw [kept]
      exact same.trans_lt (refreshStep_stepped plan _ fraction)
  | framesNeeded outFrames =>
    change plan.Stepped (plan.framesNeeded usizeBits core outFrames).2
    unfold framesNeeded
    split
    · exact ⟨sound, fraction⟩
    · refine ⟨?_, ?_⟩
      · dsimp only
        unfold refreshStep
        split <;> exact ⟨sound.behind, sound.small, sound.fits⟩
      · exact refreshStep_stepped plan { core with latched := false } fraction
  | setAdjust ppb =>
    change plan.Stepped (plan.setAdjust core ppb)
    unfold setAdjust
    split
    · exact ⟨sound, fraction⟩
    · exact ⟨⟨sound.behind, sound.small, sound.fits⟩, fraction⟩
  | reset =>
    have fresh := fresh_stepped valid
    refine ⟨⟨le_rfl, ?_, ?_⟩, fraction⟩
    · have none_ : plan.between (plan.reset core) = 0 := by
        unfold between reset
        split <;> rfl
      change plan.between (plan.reset core) < plan.unit
      rw [none_]
      exact valid.counts
    · change (List.replicate plan.left plan.silent).length ≤ plan.cap
      exact fresh.1.fits

theorem reached_stepped (usizeBits : ℕ) (valid : plan.Valid) (calls : List (Call format)) :
    plan.Stepped (plan.reached usizeBits calls) := by
  unfold reached
  have start := fresh_stepped valid
  generalize plan.fresh = core at start
  induction calls generalizing core with
  | nil => exact start
  | cons call calls ih => exact ih _ (call_stepped usizeBits valid start call)

/-- The numbers that `last_index` counts with have room. -/
def InRange (plan : Plan) (usizeBits : ℕ) (core : Core) (outFrames : ℕ) : Prop :=
  let stride := plan.stride (plan.settle { core with latched := false })
  let bits := if plan.kind = .Integer then usizeBits else 64
  plan.between core + (outFrames - 1) * stride < 2 ^ bits ∧
    (plan.clock core + (outFrames - 1) * stride) / plan.unit + plan.right + 1 < 2 ^ usizeBits

theorem lastIndex_eq (usizeBits outFrames : ℕ) (sound : plan.Sound core)
    (fraction : core.stepFrac < 2 ^ 32)
    (inWord : plan.between core + (outFrames - 1) * plan.stride core <
      2 ^ (if plan.kind = .Integer then usizeBits else 64))
    (inRange : (plan.clock core + (outFrames - 1) * plan.stride core) / plan.unit <
      2 ^ usizeBits) :
    plan.lastIndex usizeBits core outFrames =
      (plan.clock core + (outFrames - 1) * plan.stride core) / plan.unit := by
  have some_ : 0 < plan.unit := Nat.zero_lt_of_lt sound.small
  have parts : (plan.clock core + (outFrames - 1) * plan.stride core) / plan.unit =
      core.pos + (plan.between core + (outFrames - 1) * plan.stride core) / plan.unit := by
    rw [clock, Nat.add_assoc, Nat.add_comm, Nat.add_mul_div_right _ _ some_, Nat.add_comm]
  rw [parts] at inRange ⊢
  unfold lastIndex
  unfold between stride unit at *
  have fixed (last : ℕ) (word : core.frac + last < 2 ^ 64)
      (index : core.pos + (core.frac + last) / 2 ^ 32 < 2 ^ usizeBits) :
      (core.pos + (((core.frac + last % 2 ^ 64) % 2 ^ 64) >>> 32) % 2 ^ usizeBits) % 2 ^ usizeBits =
        core.pos + (core.frac + last) / 2 ^ 32 := by
    rw [Nat.mod_eq_of_lt ((Nat.le_add_left _ _).trans_lt word), Nat.mod_eq_of_lt word,
      Nat.shiftRight_eq_div_pow, Nat.mod_eq_of_lt ((Nat.le_add_left _ _).trans_lt index),
      Nat.mod_eq_of_lt index]
  have step : core.stepInt <<< 32 ||| core.stepFrac = core.stepInt * 2 ^ 32 + core.stepFrac := by
    rw [← Nat.shiftLeft_add_eq_or_of_lt fraction, Nat.shiftLeft_eq]
  cases kind : plan.kind with
  | Integer =>
    simp only [kind, if_true] at *
    rw [Nat.mod_eq_of_lt ((Nat.le_add_left _ _).trans_lt inWord), Nat.mod_eq_of_lt inWord,
      Nat.mod_eq_of_lt inRange]
  | Cubic =>
    simp only [kind, reduceCtorEq, if_false] at *
    rw [step]
    exact fixed _ inWord inRange
  | Polyphase =>
    simp only [kind, reduceCtorEq, if_false] at *
    rw [step]
    exact fixed _ inWord inRange

theorem framesNeeded_eq {usizeBits outFrames : ℕ} (stepped : plan.Stepped core)
    (some_ : outFrames ≠ 0) (inRange : plan.InRange usizeBits core outFrames) :
    ∃ core', plan.framesNeeded usizeBits core outFrames =
        ((plan.clock core + (outFrames - 1) * plan.stride core') / plan.unit + plan.right + 1 -
          core.buf.length, core') ∧
      core'.latched = true ∧ core'.buf = core.buf ∧ plan.clock core' = plan.clock core ∧
      plan.Sound core' ∧
      plan.stride core' = plan.stride (plan.settle { core with latched := false }) := by
  obtain ⟨sound, fraction⟩ := stepped
  obtain ⟨inWord, inIndex⟩ := inRange
  let latched : Core := { plan.refreshStep { core with latched := false } with latched := true }
  obtain ⟨buf, clock, -, sound'⟩ := settle_same plan { core with latched := false }
  have between : plan.between latched = plan.between core := by
    simp only [latched, refreshStep]
    split <;> rfl
  have sound_latched : plan.Sound latched := by
    have open_ : plan.Sound (plan.settle { core with latched := false }) :=
      sound'.mpr ⟨sound.behind, sound.small, sound.fits⟩
    exact ⟨open_.behind, open_.small, open_.fits⟩
  have last := lastIndex_eq usizeBits outFrames sound_latched (refreshStep_stepped plan _ fraction)
    (by
      rw [between]
      exact inWord) (Nat.lt_of_le_of_lt (by
        rw [show plan.clock latched = plan.clock core from clock]
        exact (Nat.le_add_right _ _).trans (Nat.le_add_right _ _)) inIndex)
  have stride : plan.stride latched = plan.stride (plan.settle { core with latched := false }) :=
    rfl
  refine ⟨latched, ?_, rfl, buf, clock, sound_latched, stride⟩
  unfold framesNeeded
  rw [if_neg some_]
  change ((plan.lastIndex usizeBits latched outFrames + plan.right + 1) % 2 ^ usizeBits -
    latched.buf.length, latched) = _
  rw [last, show plan.clock latched = plan.clock core from clock,
    show latched.buf = core.buf from buf, stride, Nat.mod_eq_of_lt inIndex]

theorem foldl_setAdjust (plan : Plan) (core : Core) (ppbs : List ℤ) :
    ∃ ppb, ppbs.foldl plan.setAdjust core = { core with adjustPpb := ppb } := by
  induction ppbs generalizing core with
  | nil => exact ⟨core.adjustPpb, rfl⟩
  | cons ppb ppbs ih =>
    obtain ⟨last, set⟩ := ih (plan.setAdjust core ppb)
    refine ⟨last, set.trans ?_⟩
    unfold setAdjust
    split <;> rfl

/-- After `frames_needed` a call with that many frames gives what was asked for, whatever is set in
between. -/
theorem process_needed {usizeBits outFrames : ℕ} (valid : plan.Valid) (stepped : plan.Stepped core)
    (moves : 0 < plan.stride (plan.settle { core with latched := false }))
    (inRange : plan.InRange usizeBits core outFrames) (ppbs : List ℤ)
    {input : List (List (Sample format))}
    (length : input.length = (plan.framesNeeded usizeBits core outFrames).1)
    (few : input.length ≤ plan.maxIn) :
    let asked := (plan.framesNeeded usizeBits core outFrames).2
    (plan.process format (ppbs.foldl plan.setAdjust asked) input outFrames).2.1.length =
        outFrames ∧
      (plan.process format (ppbs.foldl plan.setAdjust asked) input outFrames).2.2 = true := by
  dsimp only
  by_cases none_ : outFrames = 0
  · subst none_
    rw [framesNeeded, if_pos rfl] at length ⊢
    obtain rfl := eq_nil_of_length_eq_zero length
    unfold process
    rw [if_neg (Nat.not_lt.mpr few)]
    exact ⟨rfl, rfl⟩
  · obtain ⟨asked, needed, latched, buf, clock, sound, stride⟩ :=
      framesNeeded_eq stepped none_ inRange
    rw [needed] at length ⊢
    dsimp only at length ⊢
    obtain ⟨adjusted, keeps⟩ := foldl_setAdjust plan asked ppbs
    rw [keeps]
    have settled : plan.settle { asked with adjustPpb := adjusted } =
        { asked with adjustPpb := adjusted, latched := false } := by
      have stays : ¬(asked.latched = false ∧ adjusted ≠ asked.appliedPpb) := by
        rw [latched]
        exact fun changes => Bool.noConfusion changes.1
      unfold settle refreshStep
      rw [if_neg stays]
    have same :
        plan.stride (plan.settle { asked with adjustPpb := adjusted }) = plan.stride asked := by
      rw [settled]
      rfl
    have some_ : 0 < plan.unit := Nat.zero_lt_of_lt sound.small
    have moves : 0 < plan.stride asked := moves.trans_eq stride.symm
    have last := lt_due some_ moves (asked.buf.length + input.length) (plan.clock asked)
      (outFrames - 1)
    have before := lt_due some_ moves (asked.buf.length + input.length - 1) (plan.clock asked)
      (outFrames - 1)
    rw [clock, buf] at last before
    obtain ⟨core', result, -⟩ := process_spec plan outFrames
      (by have := valid.wide; omega)
      (⟨sound.behind, sound.small, sound.fits⟩ :
        plan.Sound { asked with adjustPpb := adjusted }) (Follows.self _) same moves few
      (by
        intro some_input
        have more : 0 < input.length := length_pos_iff.mpr some_input
        change plan.due (asked.buf.length + input.length - 1) (plan.clock asked) _ ≤ outFrames
        rw [clock, buf]
        omega) rfl
    rw [result]
    refine ⟨?_, rfl⟩
    rw [framesFrom, length_map, length_range]
    change min outFrames (plan.due (asked.buf.length + input.length) (plan.clock asked) _) =
      outFrames
    rw [clock, buf]
    omega

abbrev Block (format : Format) : Type := List (List (Sample format)) × ℕ

def feed (plan : Plan) : Core → List (Block format) → Core × List (List (Sample format)) × Bool
  | core, [] => (core, [], true)
  | core, (input, room) :: blocks =>
    let (core, frames, ok) := plan.process format core input room
    let (core, more, all) := feed plan core blocks
    (core, frames ++ more, ok && all)

/-- How many frames a call with so much input may put out. -/
def dueWith (plan : Plan) (core : Core) (inFrames : ℕ) : ℕ :=
  plan.due (core.buf.length + inFrames) (plan.clock core) (plan.stride (plan.settle core))

/-- Each call is within `max_in_frames` and has the room that `max_out` says, which is enough for
what is due. -/
def Roomy (plan : Plan) : Core → List (Block format) → Prop
  | _, [] => True
  | core, (input, room) :: blocks =>
    input.length ≤ plan.maxIn ∧ plan.maxOut input.length ≤ room ∧
      plan.dueWith core input.length ≤ plan.maxOut input.length ∧
      Roomy plan (plan.process format core input room).1 blocks

def Settled (core : Core) : Prop := core.latched = false ∨ core.adjustPpb = core.appliedPpb

theorem Settled.settle (settled : Settled core) :
    (plan.settle core).adjustPpb = (plan.settle core).appliedPpb := by
  unfold Plan.settle refreshStep
  split
  · rfl
  · next stays =>
      rcases settled with idle | same
      · by_contra other
        exact stays ⟨idle, other⟩
      · exact same

theorem settle_of_kept {core core' : Core} (settled : Settled core)
    (kept : Kept (plan.settle core) core') :
    Settled core' ∧ plan.stride (plan.settle core') = plan.stride (plan.settle core) := by
  have same : core'.adjustPpb = core'.appliedPpb := by
    rw [kept]
    exact settled.settle
  refine ⟨.inr same, ?_⟩
  have stays : ¬(core'.latched = false ∧ core'.adjustPpb ≠ core'.appliedPpb) :=
    fun changes => changes.2 same
  rw [← kept.stride plan]
  unfold Plan.settle refreshStep
  rw [if_neg stays]
  rfl

theorem feed_spec {blocks : List (Block format)} (wide : plan.left + plan.right < plan.cap)
    (sound : plan.Sound core) (follows : plan.Follows hist time core) (settled : Settled core)
    {stride : ℕ} (same : plan.stride (plan.settle core) = stride) (moves : 0 < stride)
    (roomy : plan.Roomy core blocks)
    (some_ : blocks = [] → plan.due hist.length time stride = 0) :
    ∃ core', plan.feed core blocks =
      (core', plan.framesFrom format (hist ++ loads (blocks.flatMap Prod.fst)) time stride
        (plan.due (hist.length + (blocks.flatMap Prod.fst).length) time stride), true) := by
  induction blocks generalizing core hist time with
  | nil =>
    rw [flatMap_nil, length_nil, Nat.add_zero, some_ rfl]
    exact ⟨core, rfl⟩
  | cons block blocks ih =>
    obtain ⟨input, room⟩ := block
    obtain ⟨few, enough, due, rest⟩ := roomy
    have counts : 0 < plan.unit := Nat.zero_lt_of_lt sound.small
    have all : plan.due (hist.length + input.length) time stride ≤ room := by
      have there := (follows.append (loads input)).due stride
      simp only [length_append, loads, length_map] at there
      rw [dueWith, same] at due
      exact (there.symm.trans_le due).trans enough
    obtain ⟨core', result, sound', follows', kept⟩ :=
      process_spec plan room wide sound follows same moves few
        (fun _ => (due_mono (Nat.sub_le _ _)).trans all) (Nat.min_eq_right all).symm
    obtain ⟨settled', same'⟩ := settle_of_kept settled kept
    rw [result] at rest
    have length : (hist ++ loads input).length = hist.length + input.length := by
      rw [length_append, loads, length_map]
    obtain ⟨core'', others⟩ := ih sound' follows' settled' (same'.trans same) rest (by
      intro _
      rw [length, due_later counts moves, Nat.sub_self])
    refine ⟨core'', ?_⟩
    rw [feed, result]
    dsimp only
    rw [others]
    have whole : hist ++ loads input ++ loads (blocks.flatMap Prod.fst) =
        hist ++ loads (((input, room) :: blocks).flatMap Prod.fst) := by
      rw [append_assoc, flatMap_cons, loads, loads, loads, ← map_append]
    have total : hist.length + input.length + (blocks.flatMap Prod.fst).length =
        hist.length + (((input, room) :: blocks).flatMap Prod.fst).length := by
      rw [flatMap_cons, length_append, Nat.add_assoc]
    have order : plan.due (hist.length + input.length) time stride ≤
        plan.due (hist.length + input.length + (blocks.flatMap Prod.fst).length) time stride :=
      due_mono (Nat.le_add_right _ _)
    have first : plan.framesFrom format (hist ++ loads input) time stride
          (plan.due (hist.length + input.length) time stride) =
        plan.framesFrom format (hist ++ loads (((input, room) :: blocks).flatMap Prod.fst)) time
          stride (plan.due (hist.length + input.length) time stride) := by
      rw [← whole]
      exact (framesFrom_append counts moves (follows.behind sound) (length ▸ le_rfl)).symm
    rw [first, whole, length, due_later counts moves, ← framesFrom_add,
      Nat.add_sub_cancel' order, total]
    rfl

def widened (plan : Plan) (frames : ℕ) : Plan :=
  { plan with maxIn := frames, cap := plan.cap + frames }

theorem widened_due (frames length : ℕ) :
    (plan.widened frames).due length ((plan.widened frames).clock core)
        ((plan.widened frames).stride ((plan.widened frames).settle core)) =
      plan.due length (plan.clock core) (plan.stride (plan.settle core)) := rfl

theorem process_whole {stream : List (List (Sample format))} (room : ℕ)
    (wide : plan.left + plan.right < plan.cap) (sound : plan.Sound core) {stride : ℕ}
    (same : plan.stride (plan.settle core) = stride) (moves : 0 < stride)
    (enough : plan.due (core.buf.length + stream.length) (plan.clock core) stride ≤ room) :
    ∃ core', (plan.widened stream.length).process format core stream room =
      (core', plan.framesFrom format (core.buf ++ loads stream) (plan.clock core) stride
        (plan.due (core.buf.length + stream.length) (plan.clock core) stride), true) := by
  have sound' : (plan.widened stream.length).Sound core :=
    ⟨sound.behind, sound.small, sound.fits.trans (Nat.le_add_right _ _)⟩
  obtain ⟨core', result, -⟩ := process_spec (plan.widened stream.length) room
    (wide.trans_le (Nat.le_add_right _ _)) sound' (Follows.self core) same moves le_rfl
    (fun _ => (due_mono (Nat.sub_le _ _)).trans enough) (Nat.min_eq_right enough).symm
  exact ⟨core', result⟩

def plain : ResamplerConfig :=
  { kind := .Cubic, channels := 1, inRate := 48000, outRate := 48000, maxInFrames := 200000
    taps := 0, phases := 0 }

def noTaps : Design := fun _ _ _ => []

def plainPlan : Plan := make plain noTaps 1 2 0 0 0 0 0

def hush (frames : ℕ) : List (List (Sample .S16)) := List.replicate frames [⟨0, by decide⟩]

def trimmed : Core := plainPlan.reached 32 [(.setAdjust (-10 ^ 7) : Call .S16)]

theorem due_trimmed : plainPlan.due (trimmed.buf.length + 200000) (plainPlan.clock trimmed)
    (plainPlan.stride (plainPlan.settle trimmed)) = 202019 := by decide +kernel

end Plan

end EspDevkit.Audio
