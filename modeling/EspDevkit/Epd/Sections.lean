import EspDevkit.Epd.Counters

/-!
# The sections of the callers

A section leaves every pixel in flight alone, arms the others for the frame to
come, and moves the frame counter and the waveforms only when nothing flies.
-/

namespace EspDevkit.Epd

open Function

variable {panel : Panel} {rows : Rows} {d d' : Data panel}

namespace Data

structure Sound (rows : Rows) (d : Data panel) : Prop where
  counted : d.Counted
  untracked : d.group EPD_B1_IDLE = 0
  frame_lt : d.frame < 64
  valid : ∀ slot w, d.wf slot = some w → w.Valid rows
  clear : d.wf 3 ≠ none
  idle : ∀ y x, (d.state y x).b1 = EPD_B1_IDLE → (d.state y x).confirmed = (d.state y x).target

structure Leads (d d' : Data panel) : Prop where
  flying : ∀ y x, (d.state y x).isActive = true → d'.state y x = d.state y x
  armed : ∀ y x, (d.state y x).isActive = false → (d'.state y x).isActive = true →
    ∃ slot, d'.wf slot ≠ none ∧ (d'.state y x).b1 = b1Armed slot d'.frame
  busy : d.activePx ≠ 0 → d'.wf = d.wf ∧ d'.frame = d.frame
  bound : ∀ slot, d.wf slot ≠ none → d'.wf slot ≠ none

end Data

def Op.Ok (rows : Rows) (d : Data panel) : Op → Prop
  | .refresh _ slot _ => slot ≠ 3 ∧ d.wf slot ≠ none
  | .swap _ w => w.Valid rows
  | _ => True

theorem Op.Ok.mono {op : Op} (ok : op.Ok rows d)
    (bound : ∀ slot, d.wf slot ≠ none → d'.wf slot ≠ none) : op.Ok rows d' := by
  cases op with
  | refresh area slot all => exact ⟨ok.1, bound slot ok.2⟩
  | swap slot w => exact ok
  | draw image => trivial
  | seed image => trivial
  | waitDraw => trivial
  | clear => trivial

namespace Data

namespace Leads

theorem refl (d : Data panel) : d.Leads d where
  flying _ _ _ := rfl
  armed y x rests flies := by
    rw [rests] at flies
    cases flies
  busy _ := ⟨rfl, rfl⟩
  bound _ held := held

theorem of_still (wf : d'.wf = d.wf) (frame : d'.frame = d.frame)
    (flying : ∀ y x, (d.state y x).isActive = true → d'.state y x = d.state y x)
    (rests : ∀ y x, (d.state y x).isActive = false → (d'.state y x).isActive = false) :
    d.Leads d' where
  flying := flying
  armed y x old new := by
    rw [rests y x old] at new
    cases new
  busy _ := ⟨wf, frame⟩
  bound slot held := by
    rw [wf]
    exact held

theorem waits (leads : d.Leads d') : d.Leads d'.waitRetire.1 :=
  ⟨leads.flying, leads.armed, leads.busy, leads.bound⟩

end Leads

namespace Sound

theorem waits (sound : d.Sound rows) : d.waitRetire.1.Sound rows where
  counted := sound.counted.of_eq rfl rfl rfl rfl
  untracked := sound.untracked
  frame_lt := sound.frame_lt
  valid := sound.valid
  clear := sound.clear
  idle := sound.idle

theorem back (sound : d.Sound rows)
    (waiters : ℕ) : ({ d with waiters } : Data panel).Sound rows where
  counted := sound.counted.of_eq rfl rfl rfl rfl
  untracked := sound.untracked
  frame_lt := sound.frame_lt
  valid := sound.valid
  clear := sound.clear
  idle := sound.idle

theorem drawWalk (sound : d.Sound rows) (image : Image) :
    (d.drawWalk image).1.Sound rows ∧ d.Leads (d.drawWalk image).1 := by
  have pendingIdle : EPD_B1_IDLE ≠ EPD_B1_PENDING := by decide
  constructor
  · exact
      { counted := sound.counted.drawWalk
        untracked := by
          simp only [Data.drawWalk, update_of_ne pendingIdle]
          exact sound.untracked
        frame_lt := sound.frame_lt
        valid := sound.valid
        clear := sound.clear
        idle := fun y x idle => by
          rcases drawWalk_state d image y x with ⟨same, _⟩ | ⟨_, stamped, _⟩
          · rw [same] at idle ⊢
            exact sound.idle y x idle
          · rw [stamped] at idle
            exact absurd idle.symm pendingIdle }
  · refine .of_still rfl rfl (fun y x flies => ?_) (fun y x rests => ?_)
    · rcases drawWalk_state d image y x with ⟨same, _⟩ | ⟨inactive, _⟩
      · exact same
      · rw [flies] at inactive
        cases inactive
    · rcases drawWalk_state d image y x with ⟨same, _⟩ | ⟨_, stamped, _⟩
      · rw [same]
        exact rests
      · rw [stamped]
        rfl

theorem seedWalk (sound : d.Sound rows) {image : Image}
    (free : d.areaHasActive image.area = false) :
    (d.seedWalk image).Sound rows ∧ d.Leads (d.seedWalk image) := by
  have pendingIdle : EPD_B1_IDLE ≠ EPD_B1_PENDING := by decide
  have cells : ∀ (y : Fin panel.height) (x : Fin panel.width),
      (d.seedWalk image).state y x = if image.area.has y x then
        ⟨EPD_B1_IDLE, image.gray y x, image.gray y x⟩ else d.state y x := fun _ _ => rfl
  constructor
  · exact
      { counted := sound.counted.seedWalk free
        untracked := by
          simp only [Data.seedWalk, update_of_ne pendingIdle]
          exact sound.untracked
        frame_lt := sound.frame_lt
        valid := sound.valid
        clear := sound.clear
        idle := fun y x idle => by
          rw [cells] at idle ⊢
          split at idle
          · rename_i has
            rw [if_pos has]
          · rename_i out
            rw [if_neg out]
            exact sound.idle y x idle }
  · refine .of_still rfl rfl (fun y x flies => ?_) (fun y x rests => ?_)
    · rw [cells, if_neg]
      intro has
      rw [sound.counted.inactive_of_free free has] at flies
      cases flies
    · rw [cells]
      split
      · rfl
      · exact rests

theorem refreshWalk (sound : d.Sound rows) {area : Area} {slot : Fin 4} {all : Bool}
    (notClear : slot ≠ 3) (bound : d.wf slot ≠ none) :
    (d.refreshWalk area slot all).1.Sound rows ∧ d.Leads (d.refreshWalk area slot all).1 := by
  have safe : IsArmed (b1Armed slot d.frame) := isArmed_b1Armed (.inl notClear)
  have wf : (d.refreshWalk area slot all).1.wf = d.wf := by
    simp only [Data.refreshWalk]
    split <;> rfl
  have frame : (d.refreshWalk area slot all).1.frame = d.frame := by
    simp only [Data.refreshWalk]
    split <;> rfl
  have cells := refreshWalk_state d area slot all
  constructor
  · exact
      { counted := sound.counted.refreshWalk safe
        untracked := by
          have pendingIdle : EPD_B1_IDLE ≠ EPD_B1_PENDING := by decide
          simp only [Data.refreshWalk]
          split
          · simp only [update_of_ne pendingIdle]
            exact sound.untracked
          · simp only [update_of_ne safe.ne.2.symm, update_of_ne pendingIdle]
            exact sound.untracked
        frame_lt := by
          rw [frame]
          exact sound.frame_lt
        valid := by
          rw [wf]
          exact sound.valid
        clear := by
          rw [wf]
          exact sound.clear
        idle := fun y x idle => by
          rcases cells y x with ⟨_, _, _, now⟩ | ⟨_, _, _, now⟩ | ⟨_, _, now⟩
          · rw [now] at idle
            exact absurd idle safe.ne.2
          · rw [now] at idle
            exact absurd idle safe.ne.2
          · rw [now] at idle ⊢
            exact sound.idle y x idle }
  · exact
      { flying := fun y x flies => by
          rcases cells y x with ⟨_, _, old, _⟩ | ⟨_, _, old, _⟩ | ⟨_, _, now⟩
          · rw [Px.isActive, old] at flies
            cases flies
          · rw [Px.isActive, old] at flies
            cases flies
          · exact now
        armed := fun y x rests flies => by
          refine ⟨slot, by rwa [wf], ?_⟩
          rw [frame]
          rcases cells y x with ⟨_, _, _, now⟩ | ⟨_, _, _, now⟩ | ⟨_, _, now⟩
          · rw [now]
          · rw [now]
          · rw [now, rests] at flies
            cases flies
        busy := fun _ => ⟨wf, frame⟩
        bound := fun other held => by rwa [wf] }

theorem clearWalk (sound : d.Sound rows) (free : d.activePx = 0) :
    d.clearWalk.1.Sound rows ∧ d.Leads d.clearWalk.1 := by
  have safe := isArmed_clear sound.frame_lt
  constructor
  · exact
      { counted := sound.counted.clearWalk sound.frame_lt free
        untracked := by
          have pendingIdle : EPD_B1_IDLE ≠ EPD_B1_PENDING := by decide
          simp only [Data.clearWalk, update_of_ne safe.ne.2.symm,
            update_of_ne pendingIdle]
          exact sound.untracked
        frame_lt := by
          have lt := sound.frame_lt
          simp only [Data.clearWalk]
          split <;> omega
        valid := sound.valid
        clear := sound.clear
        idle := fun y x idle => absurd idle safe.ne.2 }
  · exact
      { flying := fun y x flies => by
          rw [sound.counted.none_active free y x] at flies
          cases flies
        armed := fun y x _ _ => ⟨3, sound.clear, rfl⟩
        busy := fun busy => absurd free busy
        bound := fun _ held => held }

theorem swap (sound : d.Sound rows) (free : d.activePx = 0) (slot : Fin 4) {w : Waveform}
    (valid : w.Valid rows) :
    ({ d with wf := Function.update d.wf slot (some w) } : Data panel).Sound rows ∧
      d.Leads { d with wf := Function.update d.wf slot (some w) } := by
  have bound : ∀ other, d.wf other ≠ none →
      (Function.update d.wf slot (some w)) other ≠ none := by
    intro other held
    by_cases same : other = slot
    · rw [same, update_self]
      simp
    · rwa [update_of_ne same]
  constructor
  · exact
      { counted := sound.counted.of_eq rfl rfl rfl rfl
        untracked := sound.untracked
        frame_lt := sound.frame_lt
        valid := fun other v held => by
          by_cases same : other = slot
          · dsimp only at held
            rw [same, update_self] at held
            cases held
            exact valid
          · dsimp only at held
            rw [update_of_ne same] at held
            exact sound.valid other v held
        clear := bound 3 sound.clear
        idle := sound.idle }
  · exact
      { flying := fun _ _ _ => rfl
        armed := fun y x rests flies => by
          dsimp only at flies
          rw [rests] at flies
          cases flies
        busy := fun busy => absurd free busy
        bound := bound }

theorem attempt (sound : d.Sound rows) {op : Op} (ok : op.Ok rows d) :
    (d.attempt op).1.Sound rows ∧ d.Leads (d.attempt op).1 := by
  cases op with
  | draw image =>
    obtain ⟨kept, leads⟩ := sound.drawWalk image
    simp only [Data.attempt]
    split
    · exact ⟨kept.waits, leads.waits⟩
    · exact ⟨kept, leads⟩
  | seed image =>
    simp only [Data.attempt]
    split
    · exact ⟨sound.waits, (Leads.refl d).waits⟩
    · rename_i free
      exact sound.seedWalk (Bool.eq_false_iff.mpr free)
  | refresh area slot all =>
    simp only [Data.attempt]
    split
    · exact ⟨sound.waits, (Leads.refl d).waits⟩
    · exact sound.refreshWalk ok.1 ok.2
  | waitDraw =>
    simp only [Data.attempt]
    split
    · exact ⟨sound.waits, (Leads.refl d).waits⟩
    · exact ⟨sound, Leads.refl d⟩
  | clear =>
    simp only [Data.attempt]
    split
    · exact ⟨sound.waits, (Leads.refl d).waits⟩
    · rename_i free
      exact sound.clearWalk (not_not.mp free)
  | swap slot w =>
    simp only [Data.attempt]
    split
    · exact ⟨sound.waits, (Leads.refl d).waits⟩
    · rename_i free
      exact sound.swap (not_not.mp free) slot ok

end Sound

theorem Sound.attempt_waiters (sound : d.Sound rows) (op : Op) :
    ((d.attempt op).2 = .waits → d.activePx ≠ 0 ∧ (d.attempt op).1.waiters = d.waiters + 1) ∧
      ((d.attempt op).2 ≠ .waits → (d.attempt op).1.waiters = d.waiters) := by
  have busy : ∀ {area : Area}, d.areaHasActive area = true → d.activePx ≠ 0 := by
    intro area active
    obtain ⟨y, x, _, flies⟩ := sound.counted.areaHasActive.mp active
    exact sound.counted.busy_of_active flies
  cases op with
  | draw image =>
    simp only [Data.attempt]
    split
    · rename_i conflict
      refine ⟨fun _ => ⟨?_, rfl⟩, fun none => absurd rfl none⟩
      obtain ⟨y, _, row⟩ := List.any_eq_true.mp conflict
      obtain ⟨x, _, cell⟩ := List.any_eq_true.mp row
      rw [Bool.and_eq_true] at cell
      dsimp only at cell
      refine sound.counted.busy_of_active (y := y) (x := x) ?_
      rcases drawPx_cases (d.state y x) (image.gray y x) with _ | ⟨_, stamped⟩
      · by_contra rests
        rw [Bool.not_eq_true] at rests
        have quiet : (drawPx (d.state y x) (image.gray y x)).2.1 = false := by
          rw [drawPx, if_neg (by simp [rests])]
          split <;> rfl
        rw [quiet] at cell
        exact Bool.false_ne_true cell.2
      · rw [stamped] at cell
        exact absurd cell.2 Bool.false_ne_true
    · exact ⟨by rintro ⟨⟩, fun _ => rfl⟩
  | seed image =>
    simp only [Data.attempt]
    split
    · rename_i active
      exact ⟨fun _ => ⟨busy active, rfl⟩, fun none => absurd rfl none⟩
    · exact ⟨by rintro ⟨⟩, fun _ => rfl⟩
  | refresh area slot all =>
    simp only [Data.attempt]
    split
    · rename_i active
      rw [Bool.and_eq_true] at active
      exact ⟨fun _ => ⟨busy active.2, rfl⟩, fun none => absurd rfl none⟩
    · simp only [Data.refreshWalk]
      split
      · exact ⟨by rintro ⟨⟩, fun _ => rfl⟩
      · exact ⟨by rintro ⟨⟩, fun _ => rfl⟩
  | waitDraw =>
    simp only [Data.attempt]
    split
    · rename_i active
      exact ⟨fun _ => ⟨active, rfl⟩, fun none => absurd rfl none⟩
    · exact ⟨by rintro ⟨⟩, fun _ => rfl⟩
  | clear =>
    simp only [Data.attempt]
    split
    · rename_i active
      exact ⟨fun _ => ⟨active, rfl⟩, fun none => absurd rfl none⟩
    · exact ⟨by rintro ⟨⟩, fun _ => rfl⟩
  | swap slot w =>
    simp only [Data.attempt]
    split
    · rename_i active
      exact ⟨fun _ => ⟨active, rfl⟩, fun none => absurd rfl none⟩
    · exact ⟨by rintro ⟨⟩, fun _ => rfl⟩

theorem Leads.busy_after (leads : d.Leads d') (sound : d.Counted) (sound' : d'.Counted)
    (busy : d.activePx ≠ 0) : d'.activePx ≠ 0 := by
  obtain ⟨y, x, flies⟩ := sound.exists_active busy
  refine sound'.busy_of_active (y := y) (x := x) ?_
  rw [leads.flying y x flies]
  exact flies

end Data

end EspDevkit.Epd
