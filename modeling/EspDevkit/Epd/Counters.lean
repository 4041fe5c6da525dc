import Mathlib.Algebra.Order.BigOperators.Group.Finset
import EspDevkit.Epd.Engine

/-!
# The counters of the refresh engine

The counters say how many pixels there are of each kind.  Every section adds
and takes away what it changes, so they never wrap.
-/

namespace EspDevkit.Epd

open Function

variable {panel : Panel}

section

variable {f g h : Fin panel.height → Fin panel.width → ℕ}

theorem total_add (pointwise : ∀ y x, f y x = g y x + h y x) :
    ∑ y, ∑ x, f y x = ∑ y, ∑ x, g y x + ∑ y, ∑ x, h y x := by
  simp only [pointwise, Finset.sum_add_distrib]

theorem row_add {f g h : Fin panel.width → ℕ} (pointwise : ∀ x, f x = g x + h x) :
    ∑ x, f x = ∑ x, g x + ∑ x, h x := by
  simp only [pointwise, Finset.sum_add_distrib]

theorem row_le (p : Fin panel.width → Prop) [DecidablePred p] :
    (∑ x, if p x then 1 else 0) ≤ panel.width := by
  calc (∑ x, if p x then 1 else 0) ≤ ∑ _x : Fin panel.width, 1 :=
        Finset.sum_le_sum fun x _ => by split <;> omega
    _ = panel.width := by simp

theorem total_le (p : Fin panel.height → Fin panel.width → Prop) [∀ y x, Decidable (p y x)] :
    (∑ y, ∑ x, if p y x then 1 else 0) ≤ panel.height * panel.width := by
  calc (∑ y, ∑ x, if p y x then 1 else 0) ≤ ∑ _y : Fin panel.height, panel.width :=
        Finset.sum_le_sum fun y _ => row_le (p y)
    _ = panel.height * panel.width := by simp

theorem exists_of_total_pos {p : Fin panel.height → Fin panel.width → Prop}
    [∀ y x, Decidable (p y x)] (pos : (∑ y, ∑ x, if p y x then 1 else 0) ≠ 0) : ∃ y x, p y x := by
  by_contra none
  push Not at none
  exact pos (Finset.sum_eq_zero fun y _ => Finset.sum_eq_zero fun x _ => if_neg (none y x))

theorem row_pos {p : Fin panel.width → Prop} [DecidablePred p] {x : Fin panel.width} (holds : p x) :
    (∑ x, if p x then 1 else 0) ≠ 0 := by
  have one : (if p x then 1 else 0) ≤ ∑ x, if p x then 1 else 0 :=
    Finset.single_le_sum (f := fun x => if p x then 1 else 0) (fun _ _ => Nat.zero_le _)
      (Finset.mem_univ x)
  rw [if_pos holds] at one
  omega

end

namespace Data

variable {d : Data panel}

def rowCount (d : Data panel) (y : Fin panel.height) (p : Px → Bool) : ℕ :=
  ∑ x, if p (d.state y x) then 1 else 0

structure Counted (d : Data panel) : Prop where
  group : ∀ b1, b1 ≠ EPD_B1_IDLE → d.group b1 = d.count fun px => px.b1 = b1
  active : d.activePx = d.count Px.isActive
  rows : ∀ y, d.rowNonidle y = d.rowCount y fun px => px.b1 ≠ EPD_B1_IDLE

theorem count_lt (d : Data panel) (p : Px → Bool) : d.count p < 2 ^ 32 :=
  (total_le _).trans_lt panel.fb_lt

theorem rowCount_lt (d : Data panel) (y : Fin panel.height) (p : Px → Bool) :
    d.rowCount y p < 2 ^ 16 :=
  (row_le _).trans_lt panel.width_lt

theorem exists_of_count {p : Px → Bool} (pos : d.count p ≠ 0) : ∃ y x, p (d.state y x) = true :=
  exists_of_total_pos pos

theorem count_pos {p : Px → Bool} {y : Fin panel.height} {x : Fin panel.width}
    (holds : p (d.state y x) = true) : d.count p ≠ 0 := by
  intro zero
  have row := Finset.sum_eq_zero_iff.mp zero y (Finset.mem_univ y)
  exact row_pos holds row

namespace Counted

theorem of_eq (counted : d.Counted) {other : Data panel} (group : other.group = d.group)
    (active : other.activePx = d.activePx) (rows : other.rowNonidle = d.rowNonidle)
    (state : other.state = d.state) : other.Counted where
  group b1 tracked := by
    rw [group, counted.group b1 tracked, count, count, state]
  active := by rw [active, counted.active, count, count, state]
  rows y := by rw [rows, counted.rows, rowCount, rowCount, state]

theorem none_active (counted : d.Counted) (idle : d.activePx = 0) (y : Fin panel.height)
    (x : Fin panel.width) : (d.state y x).isActive = false := by
  rw [Bool.eq_false_iff]
  intro active
  rw [counted.active] at idle
  exact count_pos active idle

theorem exists_active (counted : d.Counted) (busy : d.activePx ≠ 0) :
    ∃ y x, (d.state y x).isActive = true := by
  rw [counted.active] at busy
  exact exists_of_count busy

theorem busy_of_active (counted : d.Counted) {y : Fin panel.height} {x : Fin panel.width}
    (active : (d.state y x).isActive = true) : d.activePx ≠ 0 := by
  rw [counted.active]
  exact count_pos active

theorem row_idle (counted : d.Counted) {y : Fin panel.height} (none : d.rowNonidle y = 0)
    (x : Fin panel.width) : (d.state y x).b1 = EPD_B1_IDLE := by
  by_contra nonidle
  rw [counted.rows, rowCount] at none
  exact row_pos (decide_eq_true nonidle) none

theorem areaHasActive (counted : d.Counted) {area : Area} :
    d.areaHasActive area = true ↔ ∃ (y : Fin panel.height) (x : Fin panel.width),
      area.has y x = true ∧ (d.state y x).isActive = true := by
  unfold Data.areaHasActive
  simp only [List.any_eq_true, Bool.and_eq_true, decide_eq_true_eq, List.mem_finRange, true_and]
  constructor
  · rintro ⟨y, _, x, has, active⟩
    exact ⟨y, x, has, active⟩
  · rintro ⟨y, x, has, active⟩
    refine ⟨y, fun none => ?_, x, has, active⟩
    rw [Px.isActive, counted.row_idle none x] at active
    cases active

end Counted

theorem counted_of_added {after : Data panel}
    (group : ∀ b1, b1 ≠ EPD_B1_IDLE → after.group b1 = after.count (fun px => px.b1 = b1) % 2 ^ 32)
    (active : after.activePx = after.count Px.isActive % 2 ^ 32)
    (rows : ∀ y, after.rowNonidle y =
      after.rowCount y (fun px => px.b1 ≠ EPD_B1_IDLE) % 2 ^ 16) : after.Counted where
  group b1 tracked := (group b1 tracked).trans (Nat.mod_eq_of_lt (count_lt _ _))
  active := active.trans (Nat.mod_eq_of_lt (count_lt _ _))
  rows y := (rows y).trans (Nat.mod_eq_of_lt (rowCount_lt _ _ _))

theorem sub_mod {total part left size : ℕ} (whole : total = left + part) :
    (total + size - part) % size = left % size := by
  have shifted : total + size - part = left + size := by omega
  rw [shifted, Nat.add_mod_right]

variable {image : Image}

theorem drawPx_cases (px : Px) (gray : Fin 16) :
    ((drawPx px gray).1 = px ∧ (drawPx px gray).2.2 = false) ∨
      (px.isActive = false ∧
        drawPx px gray = (⟨EPD_B1_PENDING, px.confirmed, gray⟩, false, decide (px.b1 = EPD_B1_IDLE))) := by
  unfold drawPx
  cases active : px.isActive with
  | true => exact .inl ⟨rfl, rfl⟩
  | false =>
    by_cases same : px.target = gray
    · simp [same]
    · right
      simp [same]

theorem b1_of_inactive {px : Px} (inactive : px.isActive = false) :
    px.b1 = EPD_B1_PENDING ∨ px.b1 = EPD_B1_IDLE := by
  have bound := px.b1.isLt
  rw [Px.isActive, decide_eq_false_iff_not] at inactive
  have low : EPD_B1_PENDING.val = 254 := rfl
  by_cases pending : px.b1.val = 254
  · exact .inl (Fin.ext pending)
  · exact .inr (Fin.ext (by
      show px.b1.val = 255
      omega))

/-- A pixel that a draw stamps becomes pending; whether it was idle is what the
draw counts. -/
theorem drawWalk_state (d : Data panel) (image : Image) (y : Fin panel.height)
    (x : Fin panel.width) :
    ((d.drawWalk image).1.state y x = d.state y x ∧
        ¬ (image.area.has y x = true ∧ (drawPx (d.state y x) (image.gray y x)).2.2 = true)) ∨
      ((d.state y x).isActive = false ∧
        (d.drawWalk image).1.state y x = ⟨EPD_B1_PENDING, (d.state y x).confirmed, image.gray y x⟩ ∧
        ((image.area.has y x = true ∧ (drawPx (d.state y x) (image.gray y x)).2.2 = true) ↔
          (d.state y x).b1 = EPD_B1_IDLE)) := by
  simp only [Data.drawWalk]
  cases has : image.area.has y x with
  | false => exact .inl ⟨by simp, by simp⟩
  | true =>
    rcases drawPx_cases (d.state y x) (image.gray y x) with ⟨same, kept⟩ | ⟨inactive, stamped⟩
    · exact .inl ⟨by simp [same], by simp [kept]⟩
    · exact .inr ⟨inactive, by simp [stamped], by simp [stamped]⟩

theorem Counted.drawWalk (counted : d.Counted) : (d.drawWalk image).1.Counted := by
  have pendingIdle : EPD_B1_PENDING ≠ EPD_B1_IDLE := by decide
  apply counted_of_added
  · intro b1 tracked
    have total : (d.drawWalk image).1.count (fun px => px.b1 = b1) =
        d.count (fun px => px.b1 = b1) + ∑ y : Fin panel.height, ∑ x : Fin panel.width,
          if b1 = EPD_B1_PENDING ∧ image.area.has y x = true ∧
            (drawPx (d.state y x) (image.gray y x)).2.2 = true then 1 else 0 := by
      refine total_add fun y x => ?_
      rcases drawWalk_state d image y x with ⟨same, kept⟩ | ⟨inactive, stamped, gains⟩
      · simp only [same, kept, and_false, if_false, Nat.add_zero]
      · simp only [stamped, gains, decide_eq_true_eq]
        rcases b1_of_inactive inactive with old | old
        · simp only [old, pendingIdle, and_false, if_false, Nat.add_zero]
        · simp only [old, tracked.symm, if_false, and_true, Nat.zero_add, eq_comm]
    rw [total]
    by_cases same : b1 = EPD_B1_PENDING
    · subst same
      simp only [Data.drawWalk, update_self, true_and, counted.group _ tracked]
    · have small := Nat.mod_eq_of_lt (count_lt d fun px => px.b1 = b1)
      simp only [Data.drawWalk, update_of_ne same, same, false_and, if_false,
        Finset.sum_const_zero, Nat.add_zero, counted.group _ tracked, small]
  · have total : (d.drawWalk image).1.count Px.isActive = d.count Px.isActive := by
      refine Finset.sum_congr rfl fun y _ => Finset.sum_congr rfl fun x _ => ?_
      rcases drawWalk_state d image y x with ⟨same, _⟩ | ⟨inactive, stamped, _⟩
      · rw [same]
      · have pending : (⟨EPD_B1_PENDING, (d.state y x).confirmed, image.gray y x⟩ : Px).isActive =
            false := rfl
        rw [stamped, inactive, pending]
    rw [total, Nat.mod_eq_of_lt (count_lt _ _)]
    exact counted.active
  · intro y
    have total : (d.drawWalk image).1.rowCount y (fun px => px.b1 ≠ EPD_B1_IDLE) =
        d.rowCount y (fun px => px.b1 ≠ EPD_B1_IDLE) + ∑ x : Fin panel.width,
          if image.area.has y x = true ∧
            (drawPx (d.state y x) (image.gray y x)).2.2 = true then 1 else 0 := by
      refine row_add fun x => ?_
      rcases drawWalk_state d image y x with ⟨same, kept⟩ | ⟨inactive, stamped, gains⟩
      · rw [same, if_neg kept, Nat.add_zero]
      · rw [stamped]
        simp only [gains, decide_eq_true_eq]
        rcases b1_of_inactive inactive with old | old
        · simp [old, pendingIdle]
        · simp [old, pendingIdle]
    rw [total, ← counted.rows]
    rfl

theorem Counted.inactive_of_free (counted : d.Counted) {area : Area}
    (free : d.areaHasActive area = false) {y : Fin panel.height} {x : Fin panel.width}
    (has : area.has y x = true) : (d.state y x).isActive = false := by
  rw [Bool.eq_false_iff]
  intro active
  rw [counted.areaHasActive.mpr ⟨y, x, has, active⟩] at free
  cases free

theorem Counted.seedWalk (counted : d.Counted) (free : d.areaHasActive image.area = false) :
    (d.seedWalk image).Counted := by
  have pendingIdle : EPD_B1_PENDING ≠ EPD_B1_IDLE := by decide
  have seeded : ∀ (y : Fin panel.height) (x : Fin panel.width), (image.area.has y x = true ∧ (d.seedWalk image).state y x =
      ⟨EPD_B1_IDLE, image.gray y x, image.gray y x⟩) ∨
      (image.area.has y x = false ∧ (d.seedWalk image).state y x = d.state y x) := by
    intro y x
    simp only [Data.seedWalk]
    cases has : image.area.has y x with
    | true => exact .inl ⟨rfl, rfl⟩
    | false => exact .inr ⟨rfl, rfl⟩
  apply counted_of_added
  · intro b1 tracked
    have total : d.count (fun px => px.b1 = b1) = (d.seedWalk image).count (fun px => px.b1 = b1) +
        ∑ y : Fin panel.height, ∑ x : Fin panel.width,
          if b1 = EPD_B1_PENDING ∧ image.area.has y x = true ∧
            (d.state y x).b1 = EPD_B1_PENDING then 1 else 0 := by
      refine total_add fun y x => ?_
      rcases seeded y x with ⟨has, now⟩ | ⟨out, same⟩
      · simp only [now, has, decide_eq_true_eq, true_and, tracked.symm, if_false, Nat.zero_add]
        rcases b1_of_inactive (counted.inactive_of_free free has) with old | old
        · simp only [old, and_true, eq_comm]
        · simp only [old, tracked.symm, pendingIdle.symm, and_false, if_false]
      · simp only [same, out, Bool.false_eq_true, false_and, and_false, if_false, Nat.add_zero]
    by_cases same : b1 = EPD_B1_PENDING
    · subst same
      simp only [true_and] at total
      simp only [Data.seedWalk, update_self]
      exact sub_mod ((counted.group _ tracked).trans total)
    · simp only [same, false_and, if_false, Finset.sum_const_zero, Nat.add_zero] at total
      rw [← total, Nat.mod_eq_of_lt (count_lt _ _), ← counted.group _ tracked]
      simp only [Data.seedWalk, update_of_ne same]
  · have total : (d.seedWalk image).count Px.isActive = d.count Px.isActive := by
      refine Finset.sum_congr rfl fun y _ => Finset.sum_congr rfl fun x _ => ?_
      rcases seeded y x with ⟨has, now⟩ | ⟨_, same⟩
      · have idle : (⟨EPD_B1_IDLE, image.gray y x, image.gray y x⟩ : Px).isActive = false := rfl
        rw [now, idle, counted.inactive_of_free free has]
      · rw [same]
    rw [total, Nat.mod_eq_of_lt (count_lt _ _)]
    exact counted.active
  · intro y
    have total : d.rowCount y (fun px => px.b1 ≠ EPD_B1_IDLE) =
        (d.seedWalk image).rowCount y (fun px => px.b1 ≠ EPD_B1_IDLE) + ∑ x : Fin panel.width,
          if image.area.has y x = true ∧ (d.state y x).b1 = EPD_B1_PENDING then 1 else 0 := by
      refine row_add fun x => ?_
      rcases seeded y x with ⟨has, now⟩ | ⟨out, same⟩
      · simp only [now, has, decide_eq_true_eq, true_and, ne_eq, not_true_eq_false, if_false,
          Nat.zero_add]
        rcases b1_of_inactive (counted.inactive_of_free free has) with old | old
        · simp only [old, pendingIdle, not_false_eq_true]
        · simp only [old, pendingIdle.symm, not_true_eq_false]
      · simp only [same, out, Bool.false_eq_true, false_and, if_false, Nat.add_zero]
    exact sub_mod ((counted.rows y).trans total)

def IsArmed (b1 : Fin 256) : Prop := b1.val < EPD_B1_PENDING.val

theorem isArmed_b1Armed {slot : Fin 4} {frame : ℕ}
    (safe : slot ≠ 3 ∨ (frame + 1) % 64 < 62) : IsArmed (b1Armed slot frame) := by
  have pending : EPD_B1_PENDING.val = 254 := rfl
  have slotLt := slot.isLt
  rw [IsArmed, pending]
  simp only [b1Armed]
  rcases safe with safe | safe
  · have notThree : slot.val ≠ 3 := fun three => safe (Fin.ext three)
    omega
  · omega

theorem IsArmed.ne {b1 : Fin 256} (armed : IsArmed b1) :
    b1 ≠ EPD_B1_PENDING ∧ b1 ≠ EPD_B1_IDLE := by
  have pending : EPD_B1_PENDING.val = 254 := rfl
  have idle : EPD_B1_IDLE.val = 255 := rfl
  rw [IsArmed] at armed
  exact ⟨fun same => by subst same; omega, fun same => by subst same; omega⟩

theorem refreshWalk_state (d : Data panel) (area : Area) (slot : Fin 4) (all : Bool)
    (y : Fin panel.height) (x : Fin panel.width) :
    (d.armsPending area all y x = true ∧ d.armsIdle area all y x = false ∧
        (d.state y x).b1 = EPD_B1_PENDING ∧ (d.refreshWalk area slot all).1.state y x =
          { d.state y x with b1 := b1Armed slot d.frame }) ∨
      (d.armsPending area all y x = false ∧ d.armsIdle area all y x = true ∧
        (d.state y x).b1 = EPD_B1_IDLE ∧ (d.refreshWalk area slot all).1.state y x =
          { d.state y x with b1 := b1Armed slot d.frame }) ∨
      (d.armsPending area all y x = false ∧ d.armsIdle area all y x = false ∧
        (d.refreshWalk area slot all).1.state y x = d.state y x) := by
  have state : (d.refreshWalk area slot all).1.state y x =
      if d.armsPending area all y x || d.armsIdle area all y x then
        { d.state y x with b1 := b1Armed slot d.frame }
      else d.state y x := by
    simp only [Data.refreshWalk]
    split <;> rfl
  rw [state]
  cases pending : d.armsPending area all y x with
  | true =>
    have old : (d.state y x).b1 = EPD_B1_PENDING := by
      simp only [Data.armsPending, Bool.and_eq_true, decide_eq_true_eq] at pending
      exact pending.2
    have notIdle : d.armsIdle area all y x = false := by
      simp only [Data.armsIdle, old]
      exact Bool.and_false _
    exact .inl ⟨rfl, notIdle, old, by simp⟩
  | false =>
    cases idle : d.armsIdle area all y x with
    | true =>
      have old : (d.state y x).b1 = EPD_B1_IDLE := by
        simp only [Data.armsIdle, Bool.and_eq_true, decide_eq_true_eq] at idle
        exact idle.2
      exact .inr (.inl ⟨rfl, rfl, old, by simp⟩)
    | false => exact .inr (.inr ⟨rfl, rfl, by simp⟩)

theorem Counted.refreshWalk (counted : d.Counted) {area : Area} {slot : Fin 4} {all : Bool}
    (safe : IsArmed (b1Armed slot d.frame)) : (d.refreshWalk area slot all).1.Counted := by
  have pendingIdle : EPD_B1_PENDING ≠ EPD_B1_IDLE := by decide
  obtain ⟨notPending, notIdle⟩ := safe.ne
  generalize byte : b1Armed slot d.frame = b1 at notPending notIdle
  have cells := refreshWalk_state d area slot all
  rw [byte] at cells
  have fromPending : d.count (fun px => px.b1 = EPD_B1_PENDING) =
      (d.refreshWalk area slot all).1.count (fun px => px.b1 = EPD_B1_PENDING) +
        ∑ y, ∑ x, if d.armsPending area all y x then 1 else 0 := by
    refine total_add fun y x => ?_
    rcases cells y x with ⟨pending, _, old, now⟩ | ⟨pending, _, old, now⟩ | ⟨pending, _, now⟩
    · simp [now, pending, old, notPending]
    · simp [now, pending, old, notPending, pendingIdle.symm]
    · simp [now, pending]
  have armed : ∀ kind : Fin 256, kind ≠ EPD_B1_IDLE → kind ≠ EPD_B1_PENDING →
      (d.refreshWalk area slot all).1.count (fun px => px.b1 = kind) =
        d.count (fun px => px.b1 = kind) + ∑ y, ∑ x,
          if b1 = kind ∧ (d.armsPending area all y x || d.armsIdle area all y x) = true then 1
          else 0 := by
    intro kind tracked other
    refine total_add fun y x => ?_
    rcases cells y x with ⟨pending, idle, old, now⟩ | ⟨pending, idle, old, now⟩ |
        ⟨pending, idle, now⟩
    · simp [now, pending, idle, old, other.symm]
    · simp [now, pending, idle, old, tracked.symm]
    · simp [now, pending, idle]
  have active : (d.refreshWalk area slot all).1.count Px.isActive =
      d.count Px.isActive +
        ∑ y, ∑ x, if d.armsPending area all y x || d.armsIdle area all y x then 1 else 0 := by
    have flies : ∀ px : Px, ({ px with b1 } : Px).isActive = true := fun px =>
      decide_eq_true (byte ▸ safe)
    have pendingRests : ∀ px : Px, px.b1 = EPD_B1_PENDING → px.isActive = false := fun px old => by
      rw [Px.isActive, old]
      rfl
    have idleRests : ∀ px : Px, px.b1 = EPD_B1_IDLE → px.isActive = false := fun px old => by
      rw [Px.isActive, old]
      rfl
    refine total_add fun y x => ?_
    rcases cells y x with ⟨pending, idle, old, now⟩ | ⟨pending, idle, old, now⟩ |
        ⟨pending, idle, now⟩
    · simp [now, pending, flies, pendingRests _ old]
    · simp [now, idle, flies, idleRests _ old]
    · simp [now, pending, idle]
  have rows : ∀ y, (d.refreshWalk area slot all).1.rowCount y (fun px => px.b1 ≠ EPD_B1_IDLE) =
      d.rowCount y (fun px => px.b1 ≠ EPD_B1_IDLE) +
        ∑ x, if d.armsIdle area all y x then 1 else 0 := by
    intro y
    refine row_add fun x => ?_
    rcases cells y x with ⟨_, idle, old, now⟩ | ⟨_, idle, old, now⟩ | ⟨_, idle, now⟩
    · simp [now, idle, old, notIdle, pendingIdle]
    · simp [now, idle, old, notIdle]
    · simp [now, idle]
  generalize total : (∑ y, ∑ x, if d.armsPending area all y x || d.armsIdle area all y x then 1
    else 0) = arms at active
  apply counted_of_added
  · intro kind tracked
    by_cases pending : kind = EPD_B1_PENDING
    · subst pending
      have group : (d.refreshWalk area slot all).1.group EPD_B1_PENDING =
          (d.group EPD_B1_PENDING + 2 ^ 32 -
            ∑ y, ∑ x, if d.armsPending area all y x then 1 else 0) % 2 ^ 32 := by
        simp only [Data.refreshWalk, byte]
        split
        · simp only [update_self]
        · simp only [update_of_ne notPending.symm, update_self]
      rw [group]
      exact sub_mod ((counted.group _ pendingIdle).trans fromPending)
    · have small := Nat.mod_eq_of_lt (count_lt d fun px => px.b1 = kind)
      rw [armed kind tracked pending]
      simp only [Data.refreshWalk, byte, total]
      by_cases same : kind = b1
      · subst same
        simp only [true_and, total, ← counted.group _ tracked]
        split
        · rename_i none
          simp only [update_of_ne pending, none, Nat.add_zero, counted.group _ tracked, small]
        · simp only [update_self, update_of_ne pending]
      · have none : ∀ P : Prop, ¬ (b1 = kind ∧ P) := fun _ both => same both.1.symm
        simp only [none, if_false, Finset.sum_const_zero, Nat.add_zero, small]
        split
        · simp only [update_of_ne pending, counted.group _ tracked]
        · simp only [update_of_ne same, update_of_ne pending,
            counted.group _ tracked]
  · rw [active]
    simp only [Data.refreshWalk, total]
    split
    · rename_i none
      rw [none, Nat.add_zero, Nat.mod_eq_of_lt (count_lt _ _)]
      exact counted.active
    · rw [counted.active]
  · intro y
    rw [rows, ← counted.rows]
    simp only [Data.refreshWalk]
    split <;> rfl

theorem isArmed_clear {frame : ℕ} (lt : frame < 64) :
    IsArmed (b1Armed 3 (if frame = 61 ∨ frame = 62 then 63 else frame)) := by
  apply isArmed_b1Armed
  right
  split <;> omega

theorem Counted.clearWalk (counted : d.Counted) (lt : d.frame < 64) (free : d.activePx = 0) :
    d.clearWalk.1.Counted := by
  have safe := isArmed_clear lt
  simp only [Data.clearWalk]
  generalize byte : b1Armed 3 (if d.frame = 61 ∨ d.frame = 62 then 63 else d.frame) = b1 at safe
  obtain ⟨notPending, notIdle⟩ := safe.ne
  have whole : ∀ p : Px → Bool, (∀ px : Px, p ⟨b1, px.confirmed, 15⟩ = true) →
      (∑ y, ∑ x, if p ⟨b1, (d.state y x).confirmed, 15⟩ then 1 else 0) =
        panel.height * panel.width := by
    intro p all
    simp [all]
  apply counted_of_added
  · intro kind tracked
    by_cases same : kind = b1
    · subst same
      dsimp only [count]
      rw [update_self, whole (fun px => px.b1 = kind) fun _ => decide_eq_true rfl]
    · have none : ∀ px : Px, decide ((⟨b1, px.confirmed, 15⟩ : Px).b1 = kind) = false :=
        fun _ => decide_eq_false (Ne.symm same)
      dsimp only [count]
      rw [update_of_ne same]
      simp only [none, Bool.false_eq_true, if_false, Finset.sum_const_zero, Nat.zero_mod]
      by_cases pending : kind = EPD_B1_PENDING
      · rw [pending, update_self]
      · rw [update_of_ne pending, counted.group _ tracked]
        refine Finset.sum_eq_zero fun y _ => Finset.sum_eq_zero fun x _ => if_neg fun old => ?_
        rw [decide_eq_true_eq] at old
        rcases b1_of_inactive (counted.none_active free y x) with rest | rest
        · exact pending (old.symm.trans rest)
        · exact tracked (old.symm.trans rest)
  · dsimp only [count]
    rw [whole Px.isActive fun _ => decide_eq_true safe]
  · intro y
    have all : ∀ px : Px, decide ((⟨b1, px.confirmed, 15⟩ : Px).b1 ≠ EPD_B1_IDLE) = true :=
      fun _ => decide_eq_true notIdle
    simp [rowCount, all]

/-- Rows without a non-idle pixel have nothing to retire, so that skipping them
changes nothing. -/
theorem Counted.retirePass_eq (counted : d.Counted) {retireTab : Fin 256 → Bool}
    (flying : ∀ b1, retireTab b1 = true → IsArmed b1) :
    (∀ y x, (d.retirePass retireTab).1.state y x = retirePx retireTab (d.state y x)) ∧
      (∀ y, (if d.rowNonidle y = 0 then 0
        else ∑ x : Fin panel.width, if retireTab (d.state y x).b1 then 1 else 0) =
          ∑ x : Fin panel.width, if retireTab (d.state y x).b1 then 1 else 0) := by
  have kept : retireTab EPD_B1_IDLE = false := by
    rw [Bool.eq_false_iff]
    exact fun retires => (flying _ retires).ne.2 rfl
  constructor
  · intro y x
    simp only [Data.retirePass]
    split
    · rename_i none
      rw [retirePx, counted.row_idle none x, kept, if_neg Bool.false_ne_true]
    · rfl
  · intro y
    split
    · rename_i none
      refine (Finset.sum_eq_zero fun x _ => ?_).symm
      rw [counted.row_idle none x, kept, if_neg Bool.false_ne_true]
    · rfl

theorem Counted.retirePass (counted : d.Counted) {retireTab : Fin 256 → Bool}
    (flying : ∀ b1, retireTab b1 = true → IsArmed b1) : (d.retirePass retireTab).1.Counted := by
  obtain ⟨state, freed⟩ := counted.retirePass_eq flying
  have idle : ∀ px : Px, (⟨EPD_B1_IDLE, px.target, px.target⟩ : Px).isActive = false := fun _ => rfl
  apply counted_of_added
  · intro kind tracked
    simp only [count, state]
    have notIdle : EPD_B1_IDLE ≠ kind := tracked.symm
    cases retires : retireTab kind with
    | true =>
      have none : ∀ px : Px, decide ((retirePx retireTab px).b1 = kind) = false := fun px => by
        rw [decide_eq_false_iff_not, retirePx]
        split
        · exact notIdle
        · rename_i stays
          intro same
          exact stays (same ▸ retires)
      simp [Data.retirePass, retires, none]
    | false =>
      have same : ∀ px : Px, decide ((retirePx retireTab px).b1 = kind) = decide (px.b1 = kind) :=
        fun px => by
          rw [retirePx]
          split
          · rename_i goes
            have other : px.b1 ≠ kind := fun same => by
              rw [same, retires] at goes
              cases goes
            simp [notIdle, other]
          · rfl
      simp only [Data.retirePass, retires, Bool.false_eq_true, if_false, same]
      rw [counted.group _ tracked]
      exact (Nat.mod_eq_of_lt (count_lt d _)).symm
  · have total : d.count Px.isActive = (d.retirePass retireTab).1.count Px.isActive +
        ∑ y : Fin panel.height, ∑ x : Fin panel.width,
          if retireTab (d.state y x).b1 then 1 else 0 := by
      refine total_add fun y x => ?_
      rw [state, retirePx]
      cases retires : retireTab (d.state y x).b1 with
      | true =>
        have active : (d.state y x).isActive = true := decide_eq_true (flying _ retires)
        simp [active, idle]
      | false => simp
    have passed : (d.activePx + 2 ^ 32 - ∑ y : Fin panel.height, ∑ x : Fin panel.width,
        if retireTab (d.state y x).b1 then 1 else 0) % 2 ^ 32 =
          (d.retirePass retireTab).1.count Px.isActive % 2 ^ 32 :=
      sub_mod (counted.active.trans total)
    rw [← passed]
    simp only [Data.retirePass, freed]
  · intro y
    have total : d.rowCount y (fun px => px.b1 ≠ EPD_B1_IDLE) =
        (d.retirePass retireTab).1.rowCount y (fun px => px.b1 ≠ EPD_B1_IDLE) +
          ∑ x : Fin panel.width, if retireTab (d.state y x).b1 then 1 else 0 := by
      refine row_add fun x => ?_
      rw [state, retirePx]
      cases retires : retireTab (d.state y x).b1 with
      | true => simp [(flying _ retires).ne.2]
      | false => simp
    have passed : (d.rowNonidle y + 2 ^ 16 - ∑ x : Fin panel.width,
        if retireTab (d.state y x).b1 then 1 else 0) % 2 ^ 16 =
          (d.retirePass retireTab).1.rowCount y (fun px => px.b1 ≠ EPD_B1_IDLE) % 2 ^ 16 :=
      sub_mod ((counted.rows y).trans total)
    rw [← passed]
    simp only [Data.retirePass, freed]

end Data

end EspDevkit.Epd
