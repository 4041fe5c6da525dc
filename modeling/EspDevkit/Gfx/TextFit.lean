import EspDevkit.Gfx.TextLayout

/-!
# Where wrapped text fits

A line that is too wide with more than one unit stays so until it is finished, whatever
follows.
-/

namespace EspDevkit.Gfx

open List Option

variable {maxWidth limit : ℤ} {s t : Flow} {text rest : List TextUnit} {unit : TextUnit}

/-- There is room for `unit`: for the pen behind it, for a space next to a unit that is on its
line alone, and for the units that go to the next line with it. -/
def Room (maxWidth : ℤ) (s : Flow) (unit : TextUnit) : Prop :=
  match unit.kind with
  | .missing => True
  | .newline => s.units = [] → 0 ≤ maxWidth
  | .space =>
    s.line.pen + unit.advance < 2 ^ 31 ∧ (s.units.length = 1 → px s.line.ink ≤ maxWidth)
  | .wide | .other =>
    s.line.pen + unit.advance < 2 ^ 31 ∧
      (maxWidth * 16 < (s.line.pen + unit.advance : ℕ) →
        let s := s.beforeUnit unit
        if 0 < s.line.breakPen then
          s.breakUnits < s.units.length →
            px (s.line.pen - s.line.breakPen + unit.advance) ≤ maxWidth
        else s.units = [] → 0 ≤ maxWidth)

def HasRoom (maxWidth : ℤ) : Flow → List TextUnit → Prop
  | s, [] => s.units = [] → 0 ≤ maxWidth
  | s, unit :: rest =>
    Room maxWidth s unit ∧ ∀ t, s.step (maxWidth * 16) unit = some t → HasRoom maxWidth t rest

def FinishedLine.Fits (maxWidth : ℤ) (line : FinishedLine) : Prop :=
  line.units.length ≠ 1 → px line.ink ≤ maxWidth

structure Fitting (maxWidth : ℤ) (s : Flow) : Prop where
  lines : ∀ line ∈ s.lines, line.Fits maxWidth
  line : 2 ≤ s.units.length → px s.line.ink ≤ maxWidth
  before : 2 ≤ s.breakUnits → px s.line.breakInk ≤ maxWidth

def Overfull (maxWidth : ℤ) (s : Flow) : Prop :=
  (∃ line ∈ s.lines, ¬ line.Fits maxWidth) ∨
    2 ≤ s.units.length ∧ maxWidth < px s.line.ink ∧
      (0 < s.line.breakPen → 2 ≤ s.breakUnits ∧ maxWidth < px s.line.breakInk)

theorem px_ink_of_empty (laid : Laid text s) (empty : s.units = []) : px s.line.ink = 0 := by
  rw [laid.ink, empty]
  rfl

theorem breakUnits_pos (laid : Laid text s) (broken : 0 < s.line.breakPen) :
    0 < s.breakUnits := by
  by_contra none
  have zero : s.breakUnits = 0 := by omega
  have pen := laid.breakPen
  rw [zero] at pen
  exact Nat.ne_of_gt broken pen

theorem newline_lines : s.newline.lines =
    s.lines ++ [⟨s.line.start, s.glyphs.length, s.line.ink, s.units⟩] := by
  simp [Flow.newline, Flow.startNext, Flow.finish]

theorem newline_units : s.newline.units = [] := by
  simp [Flow.newline, Flow.startNext, Flow.finish]

theorem wrap_broken (broken : 0 < s.line.breakPen) : s.wrap =
    (s.finish s.line.breakGlyph s.line.breakInk s.breakUnits).startNext s.line.breakPen :=
  if_pos broken

theorem wrap_whole (whole : ¬ 0 < s.line.breakPen) : s.wrap =
    (s.finish s.glyphs.length s.line.ink s.units.length).startNext s.line.pen :=
  if_neg whole

theorem whole_fits (laid : Laid text s) (fitting : Fitting maxWidth s)
    (empty : s.units = [] → 0 ≤ maxWidth) (first last : ℕ) :
    FinishedLine.Fits maxWidth ⟨first, last, s.line.ink, s.units⟩ := by
  intro not_single
  by_cases none : s.units = []
  · exact (px_ink_of_empty laid none).trans_le (empty none)
  · have := length_pos_iff.mpr none
    have not_single : s.units.length ≠ 1 := not_single
    exact fitting.line (by omega)

theorem empty_unfit (laid : Laid text s) (none : s.units = []) (negative : maxWidth < 0)
    (first last : ℕ) : ¬ FinishedLine.Fits maxWidth ⟨first, last, s.line.ink, s.units⟩ := by
  intro fits
  have le : px s.line.ink ≤ maxWidth := fits (by simp [none])
  rw [px_ink_of_empty laid none] at le
  omega

theorem overfull_unfit (line : 2 ≤ s.units.length) (wide : maxWidth < px s.line.ink)
    (first last : ℕ) : ¬ FinishedLine.Fits maxWidth ⟨first, last, s.line.ink, s.units⟩ := by
  intro fits
  have le : px s.line.ink ≤ maxWidth := fits (show s.units.length ≠ 1 by omega)
  omega

theorem broken_fits (laid : Laid text s) (broken : 0 < s.line.breakPen)
    (before : 2 ≤ s.breakUnits → px s.line.breakInk ≤ maxWidth) (first last : ℕ) :
    FinishedLine.Fits maxWidth ⟨first, last, s.line.breakInk, s.units.take s.breakUnits⟩ := by
  intro not_single
  have pos := breakUnits_pos laid broken
  have not_single : (s.units.take s.breakUnits).length ≠ 1 := not_single
  rw [length_take_of_le laid.breakUnits] at not_single
  exact before (by omega)

theorem broken_unfit (laid : Laid text s) (before : 2 ≤ s.breakUnits)
    (wide : maxWidth < px s.line.breakInk) (first last : ℕ) :
    ¬ FinishedLine.Fits maxWidth ⟨first, last, s.line.breakInk, s.units.take s.breakUnits⟩ := by
  intro fits
  have le : px s.line.breakInk ≤ maxWidth := by
    refine fits (show (s.units.take s.breakUnits).length ≠ 1 from ?_)
    rw [length_take_of_le laid.breakUnits]
    omega
  omega

theorem Fitting.beforeUnit (fitting : Fitting maxWidth s) :
    Fitting maxWidth (s.beforeUnit unit) := by
  unfold Flow.beforeUnit
  split
  · exact ⟨fitting.lines, fitting.line, fitting.line⟩
  · exact fitting

theorem lines_fit {line : FinishedLine} (fitting : Fitting maxWidth s)
    (fits : line.Fits maxWidth) : ∀ other ∈ s.lines ++ [line], other.Fits maxWidth := by
  intro other member
  rcases mem_append.mp member with before | now
  · exact fitting.lines other before
  · rwa [mem_singleton.mp now]

theorem room_unit (kind : unit.kind = .wide ∨ unit.kind = .other) : Room maxWidth s unit ↔
    s.line.pen + unit.advance < 2 ^ 31 ∧
      (maxWidth * 16 < ((s.beforeUnit unit).line.pen + unit.advance : ℕ) →
        if 0 < (s.beforeUnit unit).line.breakPen then
          (s.beforeUnit unit).breakUnits < (s.beforeUnit unit).units.length →
            px ((s.beforeUnit unit).line.pen - (s.beforeUnit unit).line.breakPen + unit.advance) ≤
              maxWidth
        else (s.beforeUnit unit).units = [] → 0 ≤ maxWidth) := by
  rcases kind with wide | other
  · simp only [Room, wide, Flow.beforeUnit_pen]
  · simp only [Room, other, Flow.beforeUnit_pen]

theorem Fitting.stepUnit (laid : Laid text s) (fitting : Fitting maxWidth s)
    (kind : unit.kind = .wide ∨ unit.kind = .other) (room : Room maxWidth s unit) :
    Fitting maxWidth ((s.lineFor (maxWidth * 16) unit).put unit
      ((s.lineFor (maxWidth * 16) unit).line.pen + unit.advance)) := by
  replace room := ((room_unit kind).mp room).2
  have laid : Laid text (s.beforeUnit unit) := laid.beforeUnit
  have fitting : Fitting maxWidth (s.beforeUnit unit) := fitting.beforeUnit
  unfold Flow.lineFor
  generalize s.beforeUnit unit = s at *
  split
  · rename_i wide
    specialize room wide
    by_cases broken : 0 < s.line.breakPen
    · rw [if_pos broken] at room
      rw [wrap_broken broken]
      refine ⟨lines_fit fitting (broken_fits laid broken fitting.before _ _), ?_, nofun⟩
      intro several
      change 2 ≤ (s.units.drop s.breakUnits ++ [unit]).length at several
      rw [length_append, length_drop, length_singleton] at several
      exact room (by omega)
    · rw [if_neg broken] at room
      rw [wrap_whole broken]
      refine ⟨lines_fit fitting ?_, ?_, nofun⟩
      · rw [take_length]
        exact whole_fits laid fitting room _ _
      · intro several
        change 2 ≤ (s.units.drop s.units.length ++ [unit]).length at several
        rw [length_append, length_drop, length_singleton] at several
        omega
  · rename_i narrow
    exact ⟨fitting.lines, fun _ => px_le (Int.not_lt.mp narrow), fitting.before⟩

theorem Fitting.step (laid : Laid text s) (fitting : Fitting maxWidth s)
    (room : Room maxWidth s unit) :
    ∃ t, s.step (maxWidth * 16) unit = some t ∧ Fitting maxWidth t := by
  cases kind : unit.kind with
  | newline =>
    refine ⟨_, Flow.step_newline kind, ?_, ?_, nofun⟩
    · rw [Room, kind] at room
      rw [newline_lines]
      exact lines_fit fitting (whole_fits laid fitting room _ _)
    · rw [newline_units]
      exact nofun
  | missing => exact ⟨_, Flow.step_missing kind, fitting⟩
  | space =>
    rw [Room, kind] at room
    refine ⟨_, (Flow.step_space kind).trans (if_pos room.1), fitting.lines, ?_, ?_⟩
    all_goals
      intro several
      change 2 ≤ (s.units ++ [unit]).length at several
      rw [length_append, length_singleton] at several
      change px s.line.ink ≤ maxWidth
      by_cases single : s.units.length = 1
      · exact room.2 single
      · exact fitting.line (by omega)
  | wide | other =>
    all_goals
      have small : s.line.pen + unit.advance < 2 ^ 31 := by
        rw [Room, kind] at room
        exact room.1
      exact ⟨_, (Flow.step_unit (by simp [kind])).trans (if_pos small),
        fitting.stepUnit laid (by simp [kind]) room⟩

theorem unfit_appended {line : FinishedLine} (lines : List FinishedLine)
    (unfit : ¬ line.Fits maxWidth) : ∃ other ∈ lines ++ [line], ¬ other.Fits maxWidth :=
  ⟨line, mem_append_right _ (mem_singleton_self line), unfit⟩

theorem Fitting.stepUnit_overfull (laid : Laid text s)
    (kind : unit.kind = .wide ∨ unit.kind = .other)
    (small : s.line.pen + unit.advance < 2 ^ 31) (no_room : ¬ Room maxWidth s unit) :
    Overfull maxWidth ((s.lineFor (maxWidth * 16) unit).put unit
      ((s.lineFor (maxWidth * 16) unit).line.pen + unit.advance)) := by
  rw [room_unit kind, not_and, Classical.not_imp] at no_room
  obtain ⟨wide, no_room⟩ := no_room small
  have laid : Laid text (s.beforeUnit unit) := laid.beforeUnit
  unfold Flow.lineFor
  rw [if_pos wide]
  generalize s.beforeUnit unit = s at *
  by_cases broken : 0 < s.line.breakPen
  · rw [if_pos broken, Classical.not_imp, Int.not_le] at no_room
    obtain ⟨carried, wide⟩ := no_room
    rw [wrap_broken broken]
    refine .inr ⟨?_, wide, nofun⟩
    change 2 ≤ (s.units.drop s.breakUnits ++ [unit]).length
    rw [length_append, length_drop, length_singleton]
    omega
  · rw [if_neg broken, Classical.not_imp, Int.not_le] at no_room
    obtain ⟨none, negative⟩ := no_room
    rw [wrap_whole broken]
    refine .inl (unfit_appended s.lines ?_)
    rw [take_length]
    exact empty_unfit laid none negative _ _

theorem overfull_of_no_room (laid : Laid text s) (no_room : ¬ Room maxWidth s unit)
    (step : s.step (maxWidth * 16) unit = some t) : Overfull maxWidth t := by
  cases kind : unit.kind with
  | newline =>
    rw [Flow.step_newline kind] at step
    cases step
    rw [Room, kind, Classical.not_imp, Int.not_le] at no_room
    refine .inl ?_
    rw [newline_lines]
    exact unfit_appended s.lines (empty_unfit laid no_room.1 no_room.2 _ _)
  | missing =>
    rw [Room, kind] at no_room
    exact absurd trivial no_room
  | space =>
    rw [Flow.step_space kind] at step
    split at step
    · rename_i small
      cases step
      rw [Room, kind, not_and, Classical.not_imp, Int.not_le] at no_room
      obtain ⟨single, wide⟩ := no_room small
      have several : 2 ≤ (s.units ++ [unit]).length := by
        rw [length_append, single]
        exact Nat.le_refl 2
      exact .inr ⟨several, wide, fun _ => ⟨several, wide⟩⟩
    · cases step
  | wide | other =>
    all_goals
      rw [Flow.step_unit (by simp [kind])] at step
      split at step
      · rename_i small
        cases step
        exact Fitting.stepUnit_overfull laid (by simp [kind]) small no_room
      · cases step

theorem unfit_kept {more : List FinishedLine} (unfit : ∃ line ∈ s.lines, ¬ line.Fits maxWidth) :
    ∃ line ∈ s.lines ++ more, ¬ line.Fits maxWidth :=
  unfit.imp fun _ is => ⟨mem_append_left _ is.1, is.2⟩

theorem Overfull.beforeUnit (overfull : Overfull maxWidth s) :
    Overfull maxWidth (s.beforeUnit unit) := by
  unfold Flow.beforeUnit
  split
  · rcases overfull with unfit | ⟨line, wide, -⟩
    · exact .inl unfit
    · exact .inr ⟨line, wide, fun _ => ⟨line, wide⟩⟩
  · exact overfull

theorem past_limit (laid : Laid text s) (wide : maxWidth < px s.line.ink) (advance : ℕ) :
    maxWidth * 16 < (s.line.pen + advance : ℕ) := by
  by_contra within
  have le := laid.ink_le
  have narrow : px s.line.ink ≤ maxWidth := px_le (by omega)
  omega

theorem Overfull.wrap (laid : Laid text s) (overfull : Overfull maxWidth s) :
    ∃ line ∈ s.wrap.lines, ¬ line.Fits maxWidth := by
  by_cases broken : 0 < s.line.breakPen
  · rw [wrap_broken broken]
    rcases overfull with unfit | ⟨line, wide, before⟩
    · exact unfit_kept unfit
    · exact unfit_appended s.lines (broken_unfit laid (before broken).1 (before broken).2 _ _)
  · rw [wrap_whole broken]
    rcases overfull with unfit | ⟨line, wide, -⟩
    · exact unfit_kept unfit
    · refine unfit_appended s.lines ?_
      rw [take_length]
      exact overfull_unfit line wide _ _

theorem Overfull.stepUnit (laid : Laid text s) (overfull : Overfull maxWidth s) :
    Overfull maxWidth ((s.lineFor (maxWidth * 16) unit).put unit
      ((s.lineFor (maxWidth * 16) unit).line.pen + unit.advance)) := by
  have laid : Laid text (s.beforeUnit unit) := laid.beforeUnit
  have overfull : Overfull maxWidth (s.beforeUnit unit) := overfull.beforeUnit
  unfold Flow.lineFor
  generalize s.beforeUnit unit = s at *
  split
  · exact .inl (overfull.wrap laid)
  · rename_i narrow
    rcases overfull with unfit | ⟨line, wide, -⟩
    · exact .inl unfit
    · exact absurd (past_limit laid wide unit.advance) narrow

theorem Overfull.step (laid : Laid text s) (overfull : Overfull maxWidth s)
    (step : s.step (maxWidth * 16) unit = some t) : Overfull maxWidth t := by
  cases kind : unit.kind with
  | newline =>
    rw [Flow.step_newline kind] at step
    cases step
    refine .inl ?_
    rw [newline_lines]
    rcases overfull with unfit | ⟨line, wide, -⟩
    · exact unfit_kept unfit
    · exact unfit_appended s.lines (overfull_unfit line wide _ _)
  | missing =>
    rw [Flow.step_missing kind] at step
    cases step
    exact overfull
  | space =>
    rw [Flow.step_space kind] at step
    split at step
    · cases step
      rcases overfull with unfit | ⟨line, wide, -⟩
      · exact .inl unfit
      · have several : 2 ≤ (s.units ++ [unit]).length := by
          rw [length_append]
          omega
        exact .inr ⟨several, wide, fun _ => ⟨several, wide⟩⟩
    · cases step
  | wide | other =>
    all_goals
      rw [Flow.step_unit (by simp [kind])] at step
      split at step
      · cases step
        exact overfull.stepUnit laid
      · cases step

theorem close_lines : s.close.lines =
    s.lines ++ [⟨s.line.start, s.glyphs.length, s.line.ink, s.units⟩] := by
  simp [Flow.close, Flow.finish]

theorem Overfull.close (overfull : Overfull maxWidth s) :
    ∃ line ∈ s.close.lines, ¬ line.Fits maxWidth := by
  rw [close_lines]
  rcases overfull with unfit | ⟨line, wide, -⟩
  · exact unfit_kept unfit
  · exact unfit_appended s.lines (overfull_unfit line wide _ _)

theorem Overfull.run (laid : Laid text s) (overfull : Overfull maxWidth s)
    (run : rest.foldlM (Flow.step (maxWidth * 16)) s = some t) : Overfull maxWidth t := by
  induction rest generalizing text s with
  | nil =>
    cases run
    exact overfull
  | cons unit rest ih =>
    obtain ⟨next, step, run⟩ := bind_eq_some_iff.mp run
    exact ih (laid.step step) (overfull.step laid step) run

/-- The rest of a text is laid out in lines that fit exactly if there is room at each step. -/
theorem fits_iff (laid : Laid text s) (fitting : Fitting maxWidth s) :
    (∃ t, rest.foldlM (Flow.step (maxWidth * 16)) s = some t ∧
      ∀ line ∈ t.close.lines, line.Fits maxWidth) ↔ HasRoom maxWidth s rest := by
  induction rest generalizing text s with
  | nil =>
    constructor
    · rintro ⟨t, run, fits⟩ none
      cases run
      by_contra negative
      rw [close_lines] at fits
      obtain ⟨line, member, unfit⟩ :=
        unfit_appended s.lines (empty_unfit laid none (Int.not_le.mp negative) _ _)
      exact unfit (fits line member)
    · intro room
      refine ⟨s, rfl, ?_⟩
      rw [close_lines]
      exact lines_fit fitting (whole_fits laid fitting room _ _)
  | cons unit rest ih =>
    constructor
    · rintro ⟨t, run, fits⟩
      obtain ⟨next, step, run⟩ := bind_eq_some_iff.mp run
      have room : Room maxWidth s unit := by
        by_contra no_room
        have overfull := (overfull_of_no_room laid no_room step).run (laid.step step) run
        obtain ⟨line, member, unfit⟩ := overfull.close
        exact unfit (fits line member)
      refine ⟨room, fun other stepped => ?_⟩
      obtain ⟨same, stepped', fitting⟩ := fitting.step laid room
      cases step.symm.trans stepped
      cases step.symm.trans stepped'
      exact (ih (laid.step step) fitting).mp ⟨t, run, fits⟩
    · rintro ⟨room, more⟩
      obtain ⟨next, step, fitting⟩ := fitting.step laid room
      obtain ⟨t, run, fits⟩ := (ih (laid.step step) fitting).mpr (more next step)
      exact ⟨t, bind_eq_some_iff.mpr ⟨next, step, run⟩, fits⟩

theorem Laid.close (laid : Laid text s) (fits : ∀ line ∈ s.close.lines, line.Fits maxWidth) :
    Wrapped maxWidth text s.close where
  units := by
    rw [close_lines, flatMap_append, flatMap_singleton, laid.units]
  glyphs := laid.glyphs
  shown := by
    intro line member
    rw [close_lines] at member
    rcases mem_append.mp member with before | now
    · exact (laid.lines line before).2.2
    · rw [mem_singleton.mp now]
      change (s.glyphs.take s.glyphs.length).drop s.line.start = _
      rw [take_length, laid.shown]
  ink := by
    intro line member
    rw [close_lines] at member
    rcases mem_append.mp member with before | now
    · exact (laid.lines line before).2.1
    · rw [mem_singleton.mp now]
      exact laid.ink
  fits := fits

end EspDevkit.Gfx
