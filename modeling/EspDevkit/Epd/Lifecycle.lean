import EspDevkit.Library.Transition
import EspDevkit.Epd.Sections

/-!
# The life of a pixel

A pixel that is armed plays one step of its waveform a frame, from the first to
the last, with its word unchanged.
-/

namespace EspDevkit.Epd

open Transition

variable {panel : Panel} {Task : Type} {rows : Rows} {d d' : Data panel}

@[simp]
theorem stepAt_b1Armed_self (slot : Fin 4)
    (frame : ℕ) : stepAt frame (b1Armed slot frame) = 63 := by
  simp only [stepAt, b1Armed]
  omega

theorem Px.isActive_iff {px : Px} : px.isActive = true ↔ Data.IsArmed px.b1 :=
  decide_eq_true_iff

def Engine.frame : Engine panel → Option (Frame panel)
  | .scanning frame _ _ _ => some frame
  | .retiring frame => some frame
  | _ => none

def Caller.op : Caller → Option Op
  | .entering op => some op
  | .waiting op => some op
  | .relocking op => some op
  | _ => none

structure Frame.Underway (rows : Rows) (frame : Frame panel) (d : Data panel) : Prop where
  built : ∃ before : Data panel, before.Sound rows ∧ frame = (before.buildFrame rows).2
  replays : ∀ y x, (frame.start.state y x).isActive = true →
    ∃ w, frame.start.wf (slotOf (frame.start.state y x).b1) = some w ∧
      stepAt frame.start.frame (frame.start.state y x).b1 < w.steps
  wf : d.wf = frame.start.wf
  number : d.frame = frame.start.frame
  flying : ∀ y x, (frame.start.state y x).isActive = true → d.state y x = frame.start.state y x
  others : ∀ y x, (frame.start.state y x).isActive = false → (d.state y x).isActive = true →
    stepAt d.frame (d.state y x).b1 = 63
  busy : d.activePx ≠ 0

namespace Driver

/-- A pixel in flight has played the steps up to the one it is due. -/
def Replays (epd : Driver panel Task) (d : Data panel) (y : Fin panel.height)
    (x : Fin panel.width) : Prop :=
  ∃ w, d.wf (slotOf (d.state y x).b1) = some w ∧
    epd.played y x = List.range (stepAt (d.frame + 1) (d.state y x).b1) ∧
    stepAt (d.frame + 1) (d.state y x).b1 ≤ w.steps ∧
    (epd.engine.frame = none → stepAt (d.frame + 1) (d.state y x).b1 < w.steps)

structure Fits (rows : Rows) (epd : Driver panel Task) (d : Data panel) : Prop where
  sound : d.Sound rows
  replay : ∀ y x, (d.state y x).isActive = true → epd.Replays d y x
  underway : ∀ frame, epd.engine.frame = some frame → frame.Underway rows d
  starting : epd.engine = .starting → d.activePx ≠ 0
  callers : ∀ task op, (epd.callers task).op = some op → op.Ok rows d

structure Inv (rows : Rows) (epd : Driver panel Task) : Prop where
  now : epd.Fits rows epd.data
  next : ∀ held, epd.writing = some held → epd.Fits rows held.result
  leads : ∀ held, epd.writing = some held → epd.data.Leads held.result
  op : ∀ held, epd.writing = some held → held.op.Ok rows held.result

namespace Fits

variable {epd epd' : Driver panel Task}

theorem keep (fits : epd.Fits rows d) (played : epd'.played = epd.played)
    (frame : epd'.engine.frame = epd.engine.frame)
    (starting : epd'.engine = .starting → d.activePx ≠ 0)
    (callers : ∀ task op, (epd'.callers task).op = some op → op.Ok rows d) : epd'.Fits rows d where
  sound := fits.sound
  replay y x flies := by
    obtain ⟨w, bound, steps, le, lt⟩ := fits.replay y x flies
    exact ⟨w, bound, by rw [played, steps], le, fun none => lt (frame ▸ none)⟩
  underway other held := fits.underway other (frame ▸ held)
  starting := starting
  callers := callers

theorem adjust (fits : epd.Fits rows d) (waiters : ℕ) (running : Bool) :
    epd.Fits rows { d with waiters, running } where
  sound :=
    { counted := fits.sound.counted.of_eq rfl rfl rfl rfl
      untracked := fits.sound.untracked
      frame_lt := fits.sound.frame_lt
      valid := fits.sound.valid
      clear := fits.sound.clear
      idle := fits.sound.idle }
  replay := fits.replay
  underway frame held :=
    let under := fits.underway frame held
    ⟨under.built, under.replays, under.wf, under.number, under.flying, under.others, under.busy⟩
  starting := fits.starting
  callers task op held := (fits.callers task op held).mono fun _ bound => bound

theorem section_result (fits : epd.Fits rows d) (sound : d'.Sound rows) (leads : d.Leads d')
    (engine : epd'.engine = epd.engine) (callers : epd'.callers = epd.callers)
    (played : ∀ y x, epd'.played y x =
      if !(d.state y x).isActive && (d'.state y x).isActive then [] else epd.played y x) :
    epd'.Fits rows d' where
  sound := sound
  replay y x flies := by
    cases old : (d.state y x).isActive with
    | true =>
      obtain ⟨w, bound, steps, le, lt⟩ := fits.replay y x old
      obtain ⟨wf, frame⟩ := leads.busy (fits.sound.counted.busy_of_active old)
      refine ⟨w, ?_, ?_, ?_, ?_⟩
      · rw [wf, leads.flying y x old, bound]
      · rw [played, old, frame, leads.flying y x old, ← steps]
        rfl
      · rw [frame, leads.flying y x old]
        exact le
      · rw [engine, frame, leads.flying y x old]
        exact lt
    | false =>
      obtain ⟨slot, bound, armed⟩ := leads.armed y x old flies
      obtain ⟨w, held⟩ := Option.ne_none_iff_exists'.mp bound
      have pos := (sound.valid slot w held).steps_pos
      refine ⟨w, ?_, ?_, ?_, fun _ => ?_⟩
      · rw [armed, slotOf_b1Armed, held]
      · rw [played, old, flies, armed, stepAt_b1Armed]
        rfl
      · rw [armed, stepAt_b1Armed]
        exact Nat.zero_le _
      · rw [armed, stepAt_b1Armed]
        exact pos
  underway frame held := by
    rw [engine] at held
    have under := fits.underway frame held
    obtain ⟨wf, number⟩ := leads.busy under.busy
    exact
      { built := under.built
        replays := under.replays
        wf := wf.trans under.wf
        number := number.trans under.number
        flying := fun y x flies => by
          rw [← under.flying y x flies]
          apply leads.flying
          rw [under.flying y x flies]
          exact flies
        others := fun y x rests flies => by
          cases old : (d.state y x).isActive with
          | true =>
            rw [number, leads.flying y x old]
            exact under.others y x rests old
          | false =>
            obtain ⟨slot, _, armed⟩ := leads.armed y x old flies
            rw [armed, stepAt_b1Armed_self]
        busy := leads.busy_after fits.sound.counted sound.counted under.busy }
  starting starts := by
    rw [engine] at starts
    exact leads.busy_after fits.sound.counted sound.counted (fits.starting starts)
  callers task op held := by
    rw [callers] at held
    exact (fits.callers task op held).mono leads.bound

end Fits

end Driver

namespace Frame

variable {frame : Frame panel}

def Finishes (rows : Rows) (frame : Frame panel) (w : Waveform) (played : ℕ) : Prop :=
  played = w.steps ∨
    (0 < frame.start.waiters ∧
      ∀ step, played ≤ step → step < w.steps → settles (rows (w.lut + step)) = true)

namespace Underway

theorem retireTab (under : frame.Underway rows d) (b1 : Fin 256) :
    frame.retireTab b1 =
      (frameTab rows frame.start.wf frame.start.frame (decide (0 < frame.start.waiters)) b1).2 := by
  obtain ⟨before, _, rfl⟩ := under.built
  rfl

theorem flying_of_retires (under : frame.Underway rows d) {b1 : Fin 256}
    (retires : frame.retireTab b1 = true) : Data.IsArmed b1 := by
  by_contra reserved
  have past : ¬ b1.val < EPD_B1_PENDING.val := reserved
  rw [under.retireTab, frameTab, if_neg past] at retires
  cases retires

theorem retireTab_step (under : frame.Underway rows d) {b1 : Fin 256} {w : Waveform}
    (flies : Data.IsArmed b1) (bound : frame.start.wf (slotOf b1) = some w)
    (lt : stepAt frame.start.frame b1 < w.steps) :
    frame.retireTab b1 = (decide (w.steps ≤ stepAt frame.start.frame b1 + 1) ||
      decide (0 < frame.start.waiters) &&
        decide (w.firstSkippable ≤ stepAt frame.start.frame b1 + 1)) := by
  have below : b1.val < EPD_B1_PENDING.val := flies
  rw [under.retireTab, frameTab, if_pos below]
  simp only [bound, if_pos lt]

theorem stays_of_quiet (under : frame.Underway rows d) (quiet : frame.anyRetire = false)
    {y : Fin panel.height} {x : Fin panel.width}
    (flies : (frame.start.state y x).isActive = true) :
    frame.retireTab (frame.start.state y x).b1 = false := by
  obtain ⟨before, sound, rfl⟩ := under.built
  have armed : Data.IsArmed (before.state y x).b1 := Px.isActive_iff.mp flies
  have live : before.group (before.state y x).b1 ≠ 0 := by
    rw [sound.counted.group _ armed.ne.2]
    exact Data.count_pos (y := y) (x := x) (decide_eq_true rfl)
  rw [Bool.eq_false_iff]
  intro retires
  have any : (before.buildFrame rows).2.anyRetire = true :=
    List.any_eq_true.mpr ⟨(before.state y x).b1,
      List.mem_filter.mpr ⟨List.mem_finRange _, decide_eq_true live⟩, retires⟩
  rw [quiet] at any
  cases any

theorem stays_of_late (under : frame.Underway rows d) (sound : d.Sound rows) {b1 : Fin 256}
    (late : stepAt d.frame b1 = 63) : frame.retireTab b1 = false := by
  rw [under.retireTab, frameTab, ← under.number, late]
  by_cases flies : b1.val < EPD_B1_PENDING.val
  · rw [if_pos flies]
    dsimp only
    split
    · rename_i w bound
      have le := (sound.valid _ w (by rw [under.wf]; exact bound)).steps_le
      have most : EPD_WF_STEP_MAX = 62 := rfl
      rw [if_neg (by omega)]
      rfl
    · rfl
  · rw [if_neg flies]

end Underway

end Frame

namespace Driver

namespace Fits

variable {epd epd' : Driver panel Task}

theorem begins (fits : epd.Fits rows d) (epd' : Driver panel Task) (starts : epd.engine = .starting)
    (engine : epd'.engine.frame = some (d.buildFrame rows).2) (callers : epd'.callers = epd.callers)
    (played : ∀ y x, epd'.played y x =
      if (d.state y x).isActive && decide (stepAt ((d.frame + 1) % 64) (d.state y x).b1 ≠ 63) then
        epd.played y x ++ [stepAt ((d.frame + 1) % 64) (d.state y x).b1]
      else epd.played y x) :
    epd'.Fits rows (d.buildFrame rows).1 ∧
      ∀ y x, (d.state y x).isActive = true →
        epd'.played y x = epd.played y x ++ [(epd.played y x).length] := by
  have idle : epd.engine.frame = none := by
    rw [starts]
    rfl
  have sound : (d.buildFrame rows).1.Sound rows :=
    { counted := fits.sound.counted.of_eq rfl rfl rfl rfl
      untracked := fits.sound.untracked
      frame_lt := Nat.mod_lt _ (by decide)
      valid := fits.sound.valid
      clear := fits.sound.clear
      idle := fits.sound.idle }
  have due : ∀ y x, (d.state y x).isActive = true → ∃ w,
      d.wf (slotOf (d.state y x).b1) = some w ∧
      epd.played y x = List.range (stepAt ((d.frame + 1) % 64) (d.state y x).b1) ∧
      stepAt ((d.frame + 1) % 64) (d.state y x).b1 < w.steps ∧ w.steps ≤ 62 := by
    intro y x flies
    obtain ⟨w, bound, steps, _, lt⟩ := fits.replay y x flies
    rw [stepAt_mod]
    exact ⟨w, bound, steps, lt idle, (fits.sound.valid _ w bound).steps_le⟩
  have appended : ∀ y x, (d.state y x).isActive = true → epd'.played y x =
      epd.played y x ++ [stepAt ((d.frame + 1) % 64) (d.state y x).b1] := by
    intro y x flies
    obtain ⟨w, _, _, lt, le⟩ := due y x flies
    rw [played, flies, if_pos]
    simp only [Bool.true_and, decide_eq_true_eq]
    omega
  refine ⟨{ sound, replay := ?_, underway := ?_, starting := ?_, callers := ?_ }, ?_⟩
  · intro y x flies
    obtain ⟨w, bound, steps, lt, le⟩ := due y x flies
    have next : stepAt ((d.frame + 1) % 64 + 1) (d.state y x).b1 =
        stepAt ((d.frame + 1) % 64) (d.state y x).b1 + 1 := by
      rw [stepAt_succ, Nat.mod_eq_of_lt (by omega)]
    refine ⟨w, bound, ?_, ?_, fun none => ?_⟩
    · show epd'.played y x = List.range (stepAt ((d.frame + 1) % 64 + 1) (d.state y x).b1)
      rw [appended y x flies, next, List.range_succ, ← steps]
    · show stepAt ((d.frame + 1) % 64 + 1) (d.state y x).b1 ≤ w.steps
      rw [next]
      exact lt
    · rw [engine] at none
      cases none
  · intro frame held
    rw [engine] at held
    cases held
    exact
      { built := ⟨d, fits.sound, rfl⟩
        replays := fun y x flies => by
          obtain ⟨w, bound, _, lt, _⟩ := due y x flies
          exact ⟨w, bound, lt⟩
        wf := rfl
        number := rfl
        flying := fun _ _ _ => rfl
        others := fun y x rests flies => by
          have same : ((d.buildFrame rows).2.start.state y x).isActive =
            ((d.buildFrame rows).1.state y x).isActive := rfl
          rw [same, flies] at rests
          cases rests
        busy := fits.starting starts }
  · intro starting
    rw [starting] at engine
    cases engine
  · intro task op held
    rw [callers] at held
    exact (fits.callers task op held).mono fun _ bound => bound
  · intro y x flies
    obtain ⟨_, _, steps, _, _⟩ := due y x flies
    rw [appended y x flies, steps, List.length_range]

theorem finished (fits : epd.Fits rows d) {frame : Frame panel}
    (held : epd.engine.frame = some frame) {y : Fin panel.height} {x : Fin panel.width}
    (flies : (d.state y x).isActive = true) : ∃ w, d.wf (slotOf (d.state y x).b1) = some w ∧
      epd.played y x = List.range (stepAt (d.frame + 1) (d.state y x).b1) ∧
      (frame.retireTab (d.state y x).b1 = true →
        frame.Finishes rows w (stepAt (d.frame + 1) (d.state y x).b1)) ∧
      (frame.retireTab (d.state y x).b1 = false →
        stepAt (d.frame + 1) (d.state y x).b1 < w.steps) := by
  have under := fits.underway frame held
  obtain ⟨w, bound, steps, le, _⟩ := fits.replay y x flies
  have valid := fits.sound.valid _ w bound
  refine ⟨w, bound, steps, ?_⟩
  cases old : (frame.start.state y x).isActive with
  | true =>
    obtain ⟨w', bound', lt⟩ := under.replays y x old
    rw [← under.flying y x old, ← under.wf, bound] at bound'
    cases bound'
    rw [← under.flying y x old, ← under.number] at lt
    have most : EPD_WF_STEP_MAX = 62 := rfl
    have next : stepAt (d.frame + 1) (d.state y x).b1 =
        stepAt d.frame (d.state y x).b1 + 1 := by
      rw [stepAt_succ, Nat.mod_eq_of_lt (by have := valid.steps_le; omega)]
    have retires := under.retireTab_step (Px.isActive_iff.mp flies) (by rw [← under.wf, bound])
      (by rw [← under.number]; exact lt)
    rw [← under.number, ← next] at retires
    rw [retires]
    constructor
    · intro ends
      rw [Bool.or_eq_true, Bool.and_eq_true, decide_eq_true_eq, decide_eq_true_eq,
        decide_eq_true_eq] at ends
      rcases ends with last | ⟨waits, tail⟩
      · exact .inl (Nat.le_antisymm le last)
      · refine .inr ⟨waits, fun step from_ below => ?_⟩
        exact valid.whole step below (valid.tail step (tail.trans from_) below)
    · intro stays
      rw [Bool.or_eq_false_iff, decide_eq_false_iff_not] at stays
      exact Nat.not_le.mp stays.1
  | false =>
    have late := under.others y x old flies
    have stays := under.stays_of_late fits.sound late
    rw [stays]
    refine ⟨fun retires => absurd retires Bool.false_ne_true, fun _ => ?_⟩
    rw [stepAt_succ, late]
    exact valid.steps_pos

theorem none_retires (fits : epd.Fits rows d) {frame : Frame panel}
    (held : epd.engine.frame = some frame) (quiet : frame.anyRetire = false)
    (engine : epd'.engine.frame = none) (notStarting : epd'.engine ≠ .starting)
    (callers : epd'.callers = epd.callers) (played : epd'.played = epd.played) :
    epd'.Fits rows d where
  sound := fits.sound
  replay y x flies := by
    have under := fits.underway frame held
    obtain ⟨w, bound, steps, _, stays⟩ := fits.finished held flies
    have lt : stepAt (d.frame + 1) (d.state y x).b1 < w.steps := by
      apply stays
      cases old : (frame.start.state y x).isActive with
      | true =>
        rw [under.flying y x old]
        exact under.stays_of_quiet quiet old
      | false => exact under.stays_of_late fits.sound (under.others y x old flies)
    exact ⟨w, bound, by rw [played, steps], lt.le, fun _ => lt⟩
  underway other held := by
    rw [engine] at held
    cases held
  starting starts := absurd starts notStarting
  callers task op held := by
    rw [callers] at held
    exact fits.callers task op held

/-- The retire pass: what finishes is idle and shows its target. -/
theorem retires (fits : epd.Fits rows d) (epd' : Driver panel Task) {frame : Frame panel}
    (held : epd.engine.frame = some frame)
    (engine : epd'.engine.frame = none) (notStarting : epd'.engine ≠ .starting)
    (callers : epd'.callers = epd.callers) (played : epd'.played = epd.played) :
    epd'.Fits rows (d.retirePass frame.retireTab).1 ∧
      ∀ y x, (d.retirePass frame.retireTab).1.state y x =
        retirePx frame.retireTab (d.state y x) := by
  have under := fits.underway frame held
  have flying : ∀ b1, frame.retireTab b1 = true → Data.IsArmed b1 :=
    fun _ => under.flying_of_retires
  obtain ⟨state, _⟩ := fits.sound.counted.retirePass_eq flying
  have kept : frame.retireTab EPD_B1_IDLE = false := by
    rw [Bool.eq_false_iff]
    exact fun retires => (flying _ retires).ne.2 rfl
  refine ⟨{ sound := ?_, replay := ?_, underway := ?_, starting := ?_, callers := ?_ }, state⟩
  · exact
      { counted := fits.sound.counted.retirePass flying
        untracked := by
          simp only [Data.retirePass, kept]
          exact fits.sound.untracked
        frame_lt := fits.sound.frame_lt
        valid := fits.sound.valid
        clear := fits.sound.clear
        idle := fun y x idle => by
          rw [state, retirePx] at idle ⊢
          split at idle
          · rename_i goes
            rw [if_pos goes]
          · rename_i stays
            rw [if_neg stays]
            exact fits.sound.idle y x idle }
  · intro y x flies
    rw [Replays, state]
    rw [state] at flies
    cases goes : frame.retireTab (d.state y x).b1 with
    | true =>
      rw [retirePx, if_pos goes] at flies
      cases flies
    | false =>
      have same : retirePx frame.retireTab (d.state y x) = d.state y x := by
        rw [retirePx, if_neg (by simp [goes])]
      rw [same] at flies ⊢
      obtain ⟨w, bound, steps, _, stays⟩ := fits.finished held flies
      have lt := stays goes
      exact ⟨w, bound, by rw [played]; exact steps, lt.le, fun _ => lt⟩
  · intro other held
    rw [engine] at held
    cases held
  · exact fun starts => absurd starts notStarting
  · intro task op held
    rw [callers] at held
    exact (fits.callers task op held).mono fun _ bound => bound

end Fits

end Driver

end EspDevkit.Epd
