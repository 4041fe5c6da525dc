import Mathlib.Algebra.GroupWithZero.Nat
import Mathlib.Data.List.Basic
import Mathlib.Data.Int.Notation
import Mathlib.Algebra.BigOperators.Group.List.Basic

/-!
# Wrapped text

`flow` places the units of a text one after the other and breaks a line where a unit does not
fit: at the last opportunity on the line, or in front of the unit.  This is the flow with
wrapping and without a limit of lines.  Pens are in 1/16 px; one past 31 bits gives `none`.
-/

namespace EspDevkit.Gfx

inductive Kind
  | newline
  | space
  | wide
  | other
  | missing
  deriving DecidableEq

structure TextUnit where
  kind : Kind
  advance : ℕ
  /-- The width of its glyph, which is drawn unless it is zero, as it is without a glyph. -/
  width : ℕ
  deriving DecidableEq

def TextUnit.drawn (unit : TextUnit) : Bool := unit.width != 0

structure Line where
  start : ℕ := 0
  pen : ℕ := 0
  ink : ℕ := 0
  breakGlyph : ℕ := 0
  breakPen : ℕ := 0
  breakInk : ℕ := 0

/-- A line from glyph `first` up to `last`, with the units it was given. -/
structure FinishedLine where
  first : ℕ
  last : ℕ
  ink : ℕ
  units : List TextUnit
  deriving DecidableEq

/-- What `flow` has laid out.  Beside the glyphs it keeps the units on the line under way, of
which `breakUnits` stand before the opportunity to break it. -/
structure Flow where
  line : Line := {}
  glyphs : List TextUnit := []
  lines : List FinishedLine := []
  units : List TextUnit := []
  breakUnits : ℕ := 0

def px (pen : ℕ) : ℤ := (((pen + 8) / 16 : ℕ) : ℤ).bmod (2 ^ 16)

def checked (pen : ℕ) : Option ℕ := if pen < 2 ^ 31 then some pen else none

namespace Flow

variable (s : Flow)

/-- `finish`, with `count` of the units. -/
def finish (last ink count : ℕ) : Flow :=
  { s with
    lines := s.lines ++ [⟨s.line.start, last, ink, s.units.take count⟩]
    units := s.units.drop count
    line := { s.line with start := last } }

def startNext (fromPen : ℕ) : Flow :=
  { s with
    line :=
      { s.line with
        pen := s.line.pen - fromPen
        ink := s.line.ink - fromPen
        breakGlyph := s.line.start
        breakPen := 0
        breakInk := 0 }
    breakUnits := 0 }

def newline : Flow :=
  let s := s.finish s.glyphs.length s.line.ink s.units.length
  let s := { s with line := { s.line with pen := 0 } }
  let s := s.startNext 0
  { s with line := { s.line with ink := 0 } }

def markBreak : Flow :=
  { s with
    line :=
      { s.line with
        breakGlyph := s.glyphs.length
        breakPen := s.line.pen
        breakInk := s.line.ink }
    breakUnits := s.units.length }

def place (unit : TextUnit) : Option Flow :=
  (checked (s.line.pen + unit.advance)).map fun pen =>
    { s with
      glyphs := if unit.drawn then s.glyphs ++ [unit] else s.glyphs
      line := { s.line with pen }
      units := s.units ++ [unit] }

def wrap : Flow :=
  if 0 < s.line.breakPen then
    (s.finish s.line.breakGlyph s.line.breakInk s.breakUnits).startNext s.line.breakPen
  else (s.finish s.glyphs.length s.line.ink s.units.length).startNext s.line.pen

def beforeUnit (unit : TextUnit) : Flow :=
  if unit.kind = .wide ∧ 0 < s.line.pen then s.markBreak else s

def step (limit : ℤ) (s : Flow) (unit : TextUnit) : Option Flow :=
  match unit.kind with
  | .newline => some s.newline
  | .missing => some s
  | .space => (s.place unit).map markBreak
  | .wide | .other =>
    let s := s.beforeUnit unit
    (checked (s.line.pen + unit.advance)).bind fun pen =>
      let s := if limit < pen then s.wrap else s
      (s.place unit).map fun s => { s with line := { s.line with ink := s.line.pen } }

/-- The end of `flow`. -/
def close : Flow := s.finish s.glyphs.length s.line.ink s.units.length

end Flow

/-- `flow` to a width of `maxWidth` pixels. -/
def flow (maxWidth : ℤ) (text : List TextUnit) : Option Flow :=
  (text.foldlM (Flow.step (maxWidth * 16)) {}).map Flow.close

def placed (text : List TextUnit) : List TextUnit :=
  text.filter fun unit => unit.kind != .newline && unit.kind != .missing

def advances (units : List TextUnit) : ℕ := (units.map TextUnit.advance).sum

def inked : List TextUnit → ℕ
  | [] => 0
  | unit :: units =>
    if (unit :: units).all (·.kind == .space) then 0 else unit.advance + inked units

def FinishedLine.shown (line : FinishedLine) (glyphs : List TextUnit) : List TextUnit :=
  (glyphs.take line.last).drop line.first

/-- The lines have each unit of the text once and in its order, with the glyphs it has, and are
as wide as they are given; only a single unit may be wider than `maxWidth`. -/
structure Wrapped (maxWidth : ℤ) (text : List TextUnit) (result : Flow) : Prop where
  units : result.lines.flatMap FinishedLine.units = placed text
  glyphs : result.glyphs = (placed text).filter TextUnit.drawn
  shown : ∀ line ∈ result.lines, line.shown result.glyphs = line.units.filter TextUnit.drawn
  ink : ∀ line ∈ result.lines, line.ink = inked line.units
  fits : ∀ line ∈ result.lines, line.units.length ≠ 1 → px line.ink ≤ maxWidth

def Wraps (maxWidth : ℤ) (text : List TextUnit) : Prop :=
  ∃ result, flow maxWidth text = some result ∧ Wrapped maxWidth text result

end EspDevkit.Gfx

/-!
## The lines of a wrapped text

A line broken at an opportunity takes along the units that stood behind it, and the unit that
did not fit is placed next to them without another look at the width.
-/

namespace EspDevkit.Gfx

open List

variable {maxWidth limit : ℤ} {s t : Flow} {text rest : List TextUnit} {unit : TextUnit}

theorem px_le {pen : ℕ} (le : (pen : ℤ) ≤ maxWidth * 16) : px pen ≤ maxWidth := by
  unfold px
  rw [Int.bmod_def]
  omega

@[simp]
theorem advances_append (first second : List TextUnit) :
    advances (first ++ second) = advances first + advances second := by
  simp [advances]

theorem placed_append (first second : List TextUnit) :
    placed (first ++ second) = placed first ++ placed second :=
  filter_append _ _

theorem advances_split (count : ℕ) (units : List TextUnit) :
    advances (units.take count) + advances (units.drop count) = advances units := by
  rw [← advances_append, take_append_drop]

theorem inked_nil : inked [] = 0 := rfl

theorem inked_cons (unit : TextUnit) (units : List TextUnit) :
    inked (unit :: units) =
      if (unit :: units).all (·.kind == .space) then 0 else unit.advance + inked units := rfl

theorem inked_le (units : List TextUnit) : inked units ≤ advances units := by
  induction units with
  | nil => exact Nat.le_refl 0
  | cons unit units ih =>
    change _ ≤ unit.advance + advances units
    rw [inked_cons]
    split <;> omega

theorem inked_spaces {units : List TextUnit} (spaces : units.all (·.kind == .space)) :
    inked units = 0 := by
  cases units with
  | nil => rfl
  | cons unit units => exact if_pos spaces

theorem inked_tail (first second : List TextUnit) :
    inked (first ++ second) - advances first = inked second := by
  by_cases spaces : second.all (·.kind == .space)
  · have le : inked (first ++ second) ≤ advances first := by
      induction first with
      | nil => exact Nat.le_of_eq (inked_spaces spaces)
      | cons unit first ih =>
        change _ ≤ unit.advance + advances first
        rw [cons_append]
        rw [inked_cons]
        split <;> omega
    rw [inked_spaces spaces, Nat.sub_eq_zero_of_le le]
  · have eq : inked (first ++ second) = advances first + inked second := by
      induction first with
      | nil => exact (Nat.zero_add _).symm
      | cons unit first ih =>
        change _ = unit.advance + advances first + _
        rw [cons_append, inked_cons, if_neg, ih, Nat.add_assoc]
        rw [all_cons, all_append, Bool.and_eq_true, Bool.and_eq_true]
        exact fun all => spaces all.2.2
    rw [eq, Nat.add_sub_cancel_left]

theorem inked_space (units : List TextUnit) (space : unit.kind = .space) :
    inked (units ++ [unit]) = inked units := by
  induction units with
  | nil => simp [inked_cons, inked_nil, space]
  | cons first units ih =>
    rw [cons_append, inked_cons, inked_cons, ih]
    simp [space]

theorem inked_unit (units : List TextUnit) (not_space : unit.kind ≠ .space) :
    inked (units ++ [unit]) = advances (units ++ [unit]) := by
  induction units with
  | nil => simp [inked_cons, inked_nil, advances, not_space]
  | cons first units ih =>
    rw [cons_append, inked_cons, if_neg (by simp [not_space]), ih]
    rfl

namespace Flow

/-- `unit` is placed, and the ink ends at `ink`. -/
def put (s : Flow) (unit : TextUnit) (ink : ℕ) : Flow :=
  { s with
    glyphs := if unit.drawn then s.glyphs ++ [unit] else s.glyphs
    line := { s.line with pen := s.line.pen + unit.advance, ink }
    units := s.units ++ [unit] }

theorem place_eq (small : s.line.pen + unit.advance < 2 ^ 31) :
    s.place unit = some (s.put unit s.line.ink) := by
  rw [place, checked, if_pos small]
  rfl

/-- The line `unit` is placed on. -/
def lineFor (limit : ℤ) (s : Flow) (unit : TextUnit) : Flow :=
  if limit < ((s.beforeUnit unit).line.pen + unit.advance : ℕ) then (s.beforeUnit unit).wrap
  else s.beforeUnit unit

theorem wrap_pen_le : s.wrap.line.pen ≤ s.line.pen := by
  unfold wrap
  split <;> exact Nat.sub_le _ _

theorem lineFor_pen_le : (lineFor limit s unit).line.pen ≤ (s.beforeUnit unit).line.pen := by
  unfold lineFor
  split
  · exact wrap_pen_le
  · exact Nat.le_refl _

@[simp]
theorem beforeUnit_pen : (s.beforeUnit unit).line.pen = s.line.pen := by
  unfold beforeUnit
  split <;> rfl

theorem step_newline (newline : unit.kind = .newline) : step limit s unit = some s.newline := by
  rw [step, newline]

theorem step_missing (missing : unit.kind = .missing) : step limit s unit = some s := by
  rw [step, missing]

theorem step_space (space : unit.kind = .space) : step limit s unit =
    if s.line.pen + unit.advance < 2 ^ 31 then some (s.put unit s.line.ink).markBreak
    else none := by
  have eq : step limit s unit = (s.place unit).map markBreak := by rw [step, space]
  by_cases small : s.line.pen + unit.advance < 2 ^ 31
  · rw [eq, place_eq small, if_pos small, Option.map_some]
  · rw [eq, place, checked, if_neg small, if_neg small]
    rfl

theorem step_unit (kind : unit.kind = .wide ∨ unit.kind = .other) : step limit s unit =
    if s.line.pen + unit.advance < 2 ^ 31 then
      some ((lineFor limit s unit).put unit ((lineFor limit s unit).line.pen + unit.advance))
    else none := by
  have eq : step limit s unit = (checked ((s.beforeUnit unit).line.pen + unit.advance)).bind
      fun pen => ((if limit < pen then (s.beforeUnit unit).wrap else s.beforeUnit unit).place
        unit).map fun s => { s with line := { s.line with ink := s.line.pen } } := by
    rcases kind with wide | other
    · rw [step, wide]
    · rw [step, other]
  rw [eq, checked, beforeUnit_pen]
  split
  · rename_i small
    have le : (lineFor limit s unit).line.pen ≤ (s.beforeUnit unit).line.pen := lineFor_pen_le
    rw [beforeUnit_pen] at le
    have place : (lineFor limit s unit).place unit =
        some ((lineFor limit s unit).put unit (lineFor limit s unit).line.ink) :=
      place_eq (by omega)
    unfold lineFor at place ⊢
    rw [beforeUnit_pen] at place ⊢
    rw [Option.bind_some, place]
    rfl
  · rfl

end Flow

/-- The line under way and the finished ones have all units of `text`, and the pens and the
places in the glyphs are theirs. -/
structure Laid (text : List TextUnit) (s : Flow) : Prop where
  pen : s.line.pen = advances s.units
  ink : s.line.ink = inked s.units
  breakUnits : s.breakUnits ≤ s.units.length
  breakPen : s.line.breakPen = advances (s.units.take s.breakUnits)
  breakInk : s.line.breakInk = inked (s.units.take s.breakUnits)
  breakGlyph :
    s.line.breakGlyph = s.line.start + ((s.units.take s.breakUnits).filter TextUnit.drawn).length
  start : s.line.start ≤ s.glyphs.length
  shown : s.glyphs.drop s.line.start = s.units.filter TextUnit.drawn
  glyphs : s.glyphs = (placed text).filter TextUnit.drawn
  units : s.lines.flatMap FinishedLine.units ++ s.units = placed text
  lines : ∀ line ∈ s.lines, line.last ≤ s.glyphs.length ∧ line.ink = inked line.units ∧
    line.shown s.glyphs = line.units.filter TextUnit.drawn

namespace Laid

theorem init : Laid [] {} where
  pen := rfl
  ink := rfl
  breakUnits := Nat.zero_le _
  breakPen := rfl
  breakInk := rfl
  breakGlyph := rfl
  start := Nat.zero_le _
  shown := rfl
  glyphs := rfl
  units := rfl
  lines := nofun

theorem ink_le (laid : Laid text s) : s.line.ink ≤ s.line.pen := by
  rw [laid.pen, laid.ink]
  exact inked_le s.units

theorem length_glyphs (laid : Laid text s) :
    s.glyphs.length = s.line.start + (s.units.filter TextUnit.drawn).length := by
  rw [← laid.shown, length_drop, Nat.add_sub_cancel' laid.start]

theorem cut (laid : Laid text s) {count last ink fromPen : ℕ}
    (last_eq : last = s.line.start + ((s.units.take count).filter TextUnit.drawn).length)
    (ink_eq : ink = inked (s.units.take count))
    (from_eq : fromPen = advances (s.units.take count)) :
    Laid text ((s.finish last ink count).startNext fromPen) := by
  have split := take_append_drop count s.units
  have drawn : s.units.filter TextUnit.drawn =
      (s.units.take count).filter TextUnit.drawn ++ (s.units.drop count).filter TextUnit.drawn := by
    rw [← filter_append, split]
  have length := laid.length_glyphs
  rw [drawn, length_append] at length
  refine
    { pen := ?_
      ink := ?_
      breakUnits := Nat.zero_le _
      breakPen := rfl
      breakInk := rfl
      breakGlyph := rfl
      start := ?_
      shown := ?_
      glyphs := laid.glyphs
      units := ?_
      lines := ?_ }
  · change s.line.pen - fromPen = advances (s.units.drop count)
    rw [laid.pen, from_eq, ← advances_split count s.units, Nat.add_sub_cancel_left]
  · change s.line.ink - fromPen = inked (s.units.drop count)
    have tail := inked_tail (s.units.take count) (s.units.drop count)
    rwa [split, ← laid.ink, ← from_eq] at tail
  · change last ≤ s.glyphs.length
    omega
  · change s.glyphs.drop last = (s.units.drop count).filter TextUnit.drawn
    rw [last_eq, ← drop_drop, laid.shown, drawn, drop_left]
  · change (s.lines ++ [_]).flatMap FinishedLine.units ++ s.units.drop count = placed text
    rw [flatMap_append, flatMap_singleton, append_assoc, split, laid.units]
  · intro line member
    rcases mem_append.mp member with before | now
    · exact laid.lines line before
    · rw [mem_singleton] at now
      subst now
      refine ⟨?_, ink_eq, ?_⟩
      · change last ≤ s.glyphs.length
        omega
      · change (s.glyphs.take last).drop s.line.start = (s.units.take count).filter TextUnit.drawn
        rw [drop_take, laid.shown, drawn, last_eq, Nat.add_sub_cancel_left, take_left]

theorem wrap (laid : Laid text s) : Laid text s.wrap := by
  unfold Flow.wrap
  split
  · exact laid.cut laid.breakGlyph laid.breakInk laid.breakPen
  · refine laid.cut ?_ ?_ ?_ <;> rw [take_length]
    · exact laid.length_glyphs
    · exact laid.ink
    · exact laid.pen

theorem newline_eq (laid : Laid text s) : s.newline =
    (s.finish s.glyphs.length s.line.ink s.units.length).startNext s.line.pen := by
  have ink := Nat.sub_eq_zero_of_le laid.ink_le
  simp [Flow.newline, Flow.startNext, Flow.finish, ink]

theorem newline (laid : Laid text s) : Laid text s.newline := by
  rw [laid.newline_eq]
  refine laid.cut ?_ ?_ ?_ <;> rw [take_length]
  · exact laid.length_glyphs
  · exact laid.ink
  · exact laid.pen

theorem markBreak (laid : Laid text s) : Laid text s.markBreak :=
  { laid with
    breakUnits := Nat.le_refl _
    breakPen := laid.pen.trans (congrArg advances take_length.symm)
    breakInk := laid.ink.trans (congrArg inked take_length.symm)
    breakGlyph := by
      change s.glyphs.length = s.line.start + ((s.units.take s.units.length).filter _).length
      rw [take_length, laid.length_glyphs] }

theorem beforeUnit (laid : Laid text s) : Laid text (s.beforeUnit unit) := by
  unfold Flow.beforeUnit
  split
  · exact laid.markBreak
  · exact laid

theorem place (laid : Laid text s) (is_placed : placed [unit] = [unit]) {ink : ℕ}
    (ink_eq : ink = inked (s.units ++ [unit])) : Laid (text ++ [unit]) (s.put unit ink) := by
  have all : placed (text ++ [unit]) = placed text ++ [unit] := by
    rw [placed_append, is_placed]
  have glyphs : (if unit.drawn then s.glyphs ++ [unit] else s.glyphs) =
      s.glyphs ++ [unit].filter TextUnit.drawn := by
    cases drawn : unit.drawn <;> simp [drawn]
  have take : (s.units ++ [unit]).take s.breakUnits = s.units.take s.breakUnits :=
    take_append_of_le_length laid.breakUnits
  unfold Flow.put
  rw [glyphs]
  refine
    { pen := ?_
      ink := ink_eq
      breakUnits := ?_
      breakPen := ?_
      breakInk := ?_
      breakGlyph := ?_
      start := ?_
      shown := ?_
      glyphs := ?_
      units := ?_
      lines := ?_ }
  · change s.line.pen + unit.advance = advances (s.units ++ [unit])
    rw [laid.pen, advances_append]
    rfl
  · change s.breakUnits ≤ (s.units ++ [unit]).length
    have := laid.breakUnits
    rw [length_append]
    omega
  · exact laid.breakPen.trans (congrArg advances take.symm)
  · exact laid.breakInk.trans (congrArg inked take.symm)
  · change s.line.breakGlyph =
      s.line.start + (((s.units ++ [unit]).take s.breakUnits).filter _).length
    rw [take, laid.breakGlyph]
  · change s.line.start ≤ (s.glyphs ++ _).length
    have := laid.start
    rw [length_append]
    omega
  · change (s.glyphs ++ _).drop s.line.start = (s.units ++ [unit]).filter _
    rw [drop_append_of_le_length laid.start, laid.shown, filter_append]
  · change s.glyphs ++ _ = (placed (text ++ [unit])).filter _
    rw [all, laid.glyphs, filter_append]
  · change s.lines.flatMap FinishedLine.units ++ (s.units ++ [unit]) = placed (text ++ [unit])
    rw [all, ← append_assoc, laid.units]
  · intro line member
    obtain ⟨le, ink, shown⟩ := laid.lines line member
    refine ⟨?_, ink, ?_⟩
    · change line.last ≤ (s.glyphs ++ _).length
      rw [length_append]
      omega
    · change ((s.glyphs ++ _).take line.last).drop line.first = _
      rw [take_append_of_le_length le]
      exact shown

theorem lineFor (laid : Laid text s) : Laid text (s.lineFor limit unit) := by
  unfold Flow.lineFor
  split
  · exact laid.beforeUnit.wrap
  · exact laid.beforeUnit

theorem step (laid : Laid text s) (step : Flow.step limit s unit = some t) :
    Laid (text ++ [unit]) t := by
  have skipped (skip : placed [unit] = []) : placed (text ++ [unit]) = placed text := by
    rw [placed_append, skip, append_nil]
  cases kind : unit.kind with
  | newline =>
    rw [Flow.step_newline kind] at step
    cases step
    have same := skipped (by simp [placed, kind])
    exact { laid.newline with
      glyphs := laid.newline.glyphs.trans (congrArg _ same.symm)
      units := laid.newline.units.trans same.symm }
  | missing =>
    rw [Flow.step_missing kind] at step
    cases step
    have same := skipped (by simp [placed, kind])
    exact { laid with
      glyphs := laid.glyphs.trans (congrArg _ same.symm)
      units := laid.units.trans same.symm }
  | space =>
    rw [Flow.step_space kind] at step
    split at step
    · cases step
      refine (laid.place (by simp [placed, kind]) ?_).markBreak
      rw [inked_space _ kind, laid.ink]
    · cases step
  | wide | other =>
    all_goals
      rw [Flow.step_unit (by simp [kind])] at step
      split at step
      · cases step
        refine laid.lineFor.place (by simp [placed, kind]) ?_
        rw [inked_unit _ (by simp [kind]), laid.lineFor.pen, advances_append]
        rfl
      · cases step

theorem run (laid : Laid text s) (run : rest.foldlM (Flow.step limit) s = some t) :
    Laid (text ++ rest) t := by
  induction rest generalizing text s with
  | nil =>
    cases run
    rwa [append_nil]
  | cons unit rest ih =>
    obtain ⟨next, step, run⟩ := Option.bind_eq_some_iff.mp run
    simpa using ih (laid.step step) run

end Laid

end EspDevkit.Gfx
