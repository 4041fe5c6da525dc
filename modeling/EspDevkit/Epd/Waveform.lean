import Mathlib.Algebra.GroupWithZero.Nat
import Mathlib.Data.Fintype.BigOperators
import Mathlib.Data.List.FinRange

/-!
# Waveforms of the e-paper panel

The pure core of the refresh: the words of pixels, the look-up tables that say
what each frame drives, and the tables and lines that a frame is made of.
-/

namespace EspDevkit.Epd

/-- The numbers of tasks, slots and grays are read as literals with these. -/
scoped instance tasks : NeZero 3 := ⟨by decide⟩

scoped instance slots : NeZero 4 := ⟨by decide⟩

scoped instance grays : NeZero 16 := ⟨by decide⟩

def EPD_WF_SLOTS : ℕ := 4

def EPD_WF_STEP_MAX : ℕ := 62

def EPD_B1_IDLE : Fin 256 := 255

def EPD_B1_PENDING : Fin 256 := 254

def EPD_SETTLE_WORD : UInt32 := 0xFFFFFFFF

/-- One frame of a LUT: for each `from` a word of actions for each `to`. -/
abbrev Row := Fin 16 → UInt32

abbrev Rows := ℕ → Row

/-- A pointer to a row, `none` for `epd_hold_rowset`. -/
abbrev RowPtr := Option ℕ

/-- The word of a pixel: the high byte `b1`, then confirmed and target gray. -/
structure Px where
  b1 : Fin 256
  confirmed : Fin 16
  target : Fin 16
  deriving DecidableEq

/-- `epd_waveform_t` of a slot that has one; `lut` is where its first row lies. -/
structure Waveform where
  lut : ℕ
  steps : ℕ
  firstSkippable : ℕ
  deriving DecidableEq

def settles (row : Row) : Bool := (List.finRange 16).all fun i => row i = EPD_SETTLE_WORD

def settleStart (rows : Rows) (lut : ℕ) : ℕ → ℕ
  | 0 => 0
  | fs + 1 => if rows (lut + fs) 0 = EPD_SETTLE_WORD then settleStart rows lut fs else fs + 1

/-- `epd_waveform_init`. -/
def Waveform.init (rows : Rows) (lut : Option ℕ) (steps : ℕ) : Option Waveform :=
  match lut with
  | none => none
  | some lut =>
    if steps = 0 ∨ EPD_WF_STEP_MAX < steps then none
    else if (List.range steps).all fun f => (List.finRange 16).all fun i =>
        (rows (lut + f) i = EPD_SETTLE_WORD) = (rows (lut + f) 0 = EPD_SETTLE_WORD) then
      some ⟨lut, steps, settleStart rows lut steps⟩
    else none

/-- `epd_px_is_active`. -/
def Px.isActive (px : Px) : Bool := px.b1.val < EPD_B1_PENDING.val

def slotOf (b1 : Fin 256) : Fin 4 := ⟨b1.val / 64, by omega⟩

/-- `(frame - b1) & 63`. -/
def stepAt (frame : ℕ) (b1 : Fin 256) : ℕ := (frame + 256 - b1.val) % 64

/-- `epd_b1_armed`. -/
def b1Armed (slot : Fin 4) (frame : ℕ) : Fin 256 := ⟨slot.val * 64 + (frame + 1) % 64, by omega⟩

/-- `epd_draw_px`: the new word, whether it conflicts, and whether the pixel is
now no longer idle. -/
def drawPx (px : Px) (gray : Fin 16) : Px × Bool × Bool :=
  if px.isActive then (px, decide (px.target ≠ gray), false)
  else if px.target = gray then (px, false, false)
  else ({ px with b1 := EPD_B1_PENDING, target := gray }, false, decide (px.b1 = EPD_B1_IDLE))

def holdRowset : Row := fun _ => 0

def rowset (rows : Rows) : RowPtr → Row
  | none => holdRowset
  | some row => rows row

/-- `epd_build_frame_tab` at one `b1`. -/
def frameTab (rows : Rows) (wf : Fin 4 → Option Waveform) (frame : ℕ) (skipSettle : Bool)
    (b1 : Fin 256) : RowPtr × Bool :=
  if b1.val < EPD_B1_PENDING.val then
    let step := stepAt frame b1
    match wf (slotOf b1) with
    | some w =>
      if step < w.steps then
        (if rows (w.lut + step) 0 ≠ EPD_SETTLE_WORD then some (w.lut + step) else none,
          decide (w.steps ≤ step + 1) || skipSettle && decide (w.firstSkippable ≤ step + 1))
      else (none, decide (step ≠ 63))
    | none => (none, decide (step ≠ 63))
  else (none, false)

/-- `EPD_ACT` on a word of a LUT. -/
def action (row : Row) (confirmed target : Fin 16) : ℕ :=
  (row confirmed).toNat / 4 ^ target.val % 4

/-- `epd_build_act256`: the table is keyed by the low byte of a pixel. -/
def buildAct256 (row : Row) (low : Fin 256) : ℕ :=
  (row ⟨low.val / 16, by omega⟩).toNat / 4 ^ (low.val % 16) % 4

def Px.low (px : Px) : Fin 256 := ⟨px.confirmed.val * 16 + px.target.val, by omega⟩

/-- Four actions a byte, the leftmost in the high pair; the width is a multiple
of four. -/
def pack : List ℕ → List ℕ
  | a0 :: a1 :: a2 :: a3 :: rest => (a0 * 64 + a1 * 16 + a2 * 4 + a3) :: pack rest
  | _ => []

/-- `epd_retire_row` on one pixel. -/
def retirePx (retireTab : Fin 256 → Bool) (px : Px) : Px :=
  if retireTab px.b1 then ⟨EPD_B1_IDLE, px.target, px.target⟩ else px

/-- `epd_rowset_uniform`: the byte that every line then consists of. -/
def rowsetUniform (row : Row) : Option ℕ :=
  let w := row 0
  if w ≠ 0 ∧ w ≠ 0x55555555 ∧ w ≠ 0xAAAAAAAA then none
  else if (List.finRange 16).all fun i => row i = w then some (w.toNat % 256)
  else none

section

variable {rows : Rows} {lut : Option ℕ} {steps : ℕ} {w : Waveform}

theorem settle_of_settleStart {lut steps step : ℕ} (le : settleStart rows lut steps ≤ step)
    (lt : step < steps) : rows (lut + step) 0 = EPD_SETTLE_WORD := by
  induction steps with
  | zero => omega
  | succ steps ih =>
    rw [settleStart] at le
    split at le
    · rename_i settle
      by_cases last : step = steps
      · rw [last]
        exact settle
      · exact ih le (by omega)
    · omega

/-- What `epd_waveform_init` accepts. -/
structure Waveform.Valid (rows : Rows) (w : Waveform) : Prop where
  steps_pos : 0 < w.steps
  steps_le : w.steps ≤ EPD_WF_STEP_MAX
  whole : ∀ step < w.steps, rows (w.lut + step) 0 = EPD_SETTLE_WORD →
    settles (rows (w.lut + step)) = true
  tail : ∀ step, w.firstSkippable ≤ step → step < w.steps →
    rows (w.lut + step) 0 = EPD_SETTLE_WORD

theorem Waveform.valid_of_init (result : Waveform.init rows lut steps = some w) :
    w.Valid rows := by
  unfold Waveform.init at result
  split at result
  · cases result
  · split at result
    · cases result
    · split at result
      · rename_i lut bounds same
        cases result
        have pure : ∀ step < steps, ∀ i, (rows (lut + step) i = EPD_SETTLE_WORD) =
            (rows (lut + step) 0 = EPD_SETTLE_WORD) := by
          intro step lt i
          have row := List.all_eq_true.mp same step (List.mem_range.mpr lt)
          exact of_decide_eq_true (List.all_eq_true.mp row i (List.mem_finRange i))
        exact
          { steps_pos := by
              dsimp only
              omega
            steps_le := by
              dsimp only
              omega
            whole := fun step lt settle => List.all_eq_true.mpr fun i _ => by
              rw [decide_eq_true_iff, pure step lt i]
              exact settle
            tail := fun step le lt => settle_of_settleStart le lt }
      · cases result

end

section

variable (slot : Fin 4) (frame : ℕ)

@[simp]
theorem slotOf_b1Armed : slotOf (b1Armed slot frame) = slot := by
  apply Fin.ext
  simp only [slotOf, b1Armed]
  omega

@[simp]
theorem stepAt_b1Armed : stepAt (frame + 1) (b1Armed slot frame) = 0 := by
  simp only [stepAt, b1Armed]
  omega

theorem stepAt_succ (b1 : Fin 256) : stepAt (frame + 1) b1 = (stepAt frame b1 + 1) % 64 := by
  simp only [stepAt]
  omega

theorem stepAt_mod (b1 : Fin 256) : stepAt (frame % 64) b1 = stepAt frame b1 := by
  simp only [stepAt]
  omega

end

theorem buildAct256_low (row : Row) (px : Px) :
    buildAct256 row px.low = action row px.confirmed px.target := by
  have first : (px.confirmed.val * 16 + px.target.val) / 16 = px.confirmed.val := by omega
  have second : (px.confirmed.val * 16 + px.target.val) % 16 = px.target.val := by omega
  simp only [buildAct256, action, Px.low, first, second]

end EspDevkit.Epd
