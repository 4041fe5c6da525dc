import Mathlib.Data.BitVec
import Mathlib.Tactic.Ring

/-!
# Serial number arithmetic

Serial numbers of a fixed width wrap around, so they have no order of their
own.
-/

namespace SerialNumber

variable {w : Nat}

/-- The comparison `(a - b) < 0` of the wrapped difference as a signed number. -/
def lt (a b : BitVec w) : Bool :=
  decide ((a - b).toInt < 0)

/-- The comparison `(a - b) ≤ 0` of the wrapped difference as a signed number. -/
def le (a b : BitVec w) : Bool :=
  decide ((a - b).toInt ≤ 0)

/-- How many steps forwards lead from `a` to `b`. -/
def ahead (a b : BitVec w) : Nat :=
  (b - a).toNat

/-- The serial number of the position `count` places past `origin`. -/
def place (origin : BitVec w) (count : Nat) : BitVec w :=
  origin + BitVec.ofNat w count

theorem ahead_lt (a b : BitVec w) : ahead a b < 2 ^ w :=
  (b - a).isLt

@[simp]
theorem ahead_self (a : BitVec w) : ahead a a = 0 := by
  simp [ahead]

theorem ahead_eq_zero {a b : BitVec w} : ahead a b = 0 ↔ a = b := by
  constructor
  · intro zero
    have difference : b - a = 0#w := BitVec.eq_of_toNat_eq (by simpa [ahead] using zero)
    have := congrArg (· + a) difference
    simpa using this.symm
  · rintro rfl
    exact ahead_self a

@[simp]
theorem place_zero (origin : BitVec w) : place origin 0 = origin := by
  simp [place]

theorem place_place (origin : BitVec w) (first second : Nat) :
    place (place origin first) second = place origin (first + second) := by
  simp [place, BitVec.ofNat_add, BitVec.add_assoc]

/-- Walking forwards as far as `b` lies ahead reaches `b`. -/
theorem place_ahead (a b : BitVec w) : place a (ahead a b) = b := by
  simp only [place, ahead, BitVec.ofNat_toNat, BitVec.setWidth_eq]
  rw [BitVec.add_comm, BitVec.sub_add_cancel]

theorem ahead_place_mod (origin : BitVec w) (first steps : Nat) :
    ahead (place origin first) (place origin (first + steps)) = steps % 2 ^ w := by
  have difference :
      place origin (first + steps) - place origin first = BitVec.ofNat w steps := by
    simp only [place, BitVec.ofNat_add]
    ring
  simp [ahead, difference]

theorem ahead_place {steps : Nat} (origin : BitVec w) (fits : steps < 2 ^ w) :
    ahead origin (place origin steps) = steps := by
  have walk := ahead_place_mod origin 0 steps
  simpa [Nat.mod_eq_of_lt fits] using walk

theorem ahead_reverse {a b : BitVec w} (apart : a ≠ b) :
    ahead b a = 2 ^ w - ahead a b := by
  have nonzero : ahead a b ≠ 0 := fun zero => apart (ahead_eq_zero.mp zero)
  have bound := ahead_lt a b
  have walk : place b (2 ^ w - ahead a b) = a := by
    calc
      place b (2 ^ w - ahead a b) =
          place (place a (ahead a b)) (2 ^ w - ahead a b) := by
        rw [place_ahead]
      _ = place a (2 ^ w) := by
        rw [place_place, Nat.add_sub_cancel' bound.le]
      _ = a := by
        have full : BitVec.ofNat w (2 ^ w) = 0#w :=
          BitVec.eq_of_toNat_eq (by rw [BitVec.toNat_ofNat, Nat.mod_self, BitVec.toNat_zero])
        simp [place, full]
  have fits : 2 ^ w - ahead a b < 2 ^ w := by omega
  rw [← ahead_place b fits, walk]

theorem lt_iff_half_le (a b : BitVec w) :
    lt a b = true ↔ 2 ^ w ≤ 2 * ahead b a := by
  simp only [lt, decide_eq_true_eq, ahead, BitVec.toInt_eq_toNat_cond]
  have bound := (a - b).isLt
  have cast : ((2 ^ w : Nat) : Int) = 2 ^ w := by simp
  split <;> rename_i small <;> constructor <;> intro _ <;> omega

theorem le_iff (a b : BitVec w) : le a b = true ↔ a = b ∨ lt a b = true := by
  simp only [le, lt, decide_eq_true_eq]
  constructor
  · intro nonpositive
    by_cases same : a = b
    · exact Or.inl same
    · refine Or.inr (lt_of_le_of_ne nonpositive fun zero => same ?_)
      have difference : a - b = 0#w := BitVec.eq_of_toInt_eq (by simpa using zero)
      have := congrArg (· + b) difference
      simpa using this
  · rintro (rfl | negative)
    · simp
    · exact negative.le

/-- Strict order in steps forwards: `b` is ahead of `a`, at most half of the
range. -/
theorem lt_iff_ahead (positive : 0 < w) (a b : BitVec w) :
    lt a b = true ↔ 0 < ahead a b ∧ ahead a b ≤ 2 ^ (w - 1) := by
  have halves : 2 ^ w = 2 * 2 ^ (w - 1) := by
    rw [← pow_succ', Nat.sub_add_cancel positive]
  rw [lt_iff_half_le]
  by_cases same : a = b
  · subst same
    simp
  · have reverse := ahead_reverse same
    have bound := ahead_lt a b
    have nonzero : ahead a b ≠ 0 := fun zero => same (ahead_eq_zero.mp zero)
    omega

theorem le_iff_ahead (positive : 0 < w) (a b : BitVec w) :
    le a b = true ↔ ahead a b ≤ 2 ^ (w - 1) := by
  rw [le_iff, lt_iff_ahead positive]
  constructor
  · rintro (rfl | ⟨_, bound⟩)
    · simp
    · exact bound
  · intro bound
    by_cases same : a = b
    · exact Or.inl same
    · exact Or.inr ⟨Nat.pos_of_ne_zero fun zero => same (ahead_eq_zero.mp zero), bound⟩

/-- Serial numbers of positions at most half of the range apart compare as the
positions do; the first may not be half of the range past the second. -/
theorem lt_place_iff {first second : Nat} (origin : BitVec w)
    (near : 2 * (first - second) < 2 ^ w) (near' : 2 * (second - first) ≤ 2 ^ w) :
    lt (place origin first) (place origin second) = true ↔ first < second := by
  rw [lt_iff_half_le]
  rcases Nat.le_total first second with ordered | ordered
  · obtain ⟨steps, rfl⟩ := Nat.exists_eq_add_of_le ordered
    have forwards := ahead_place_mod origin first steps
    have small : steps < 2 ^ w := by
      have := Nat.two_pow_pos w
      omega
    rw [Nat.mod_eq_of_lt small] at forwards
    by_cases same : steps = 0
    · subst same
      simp
    · have apart : place origin first ≠ place origin (first + steps) := by
        intro equal
        rw [equal, ahead_self] at forwards
        exact same forwards.symm
      rw [ahead_reverse apart, forwards]
      omega
  · obtain ⟨steps, rfl⟩ := Nat.exists_eq_add_of_le ordered
    have small : steps < 2 ^ w := by omega
    rw [ahead_place_mod, Nat.mod_eq_of_lt small]
    omega

theorem place_inj {first second : Nat} {origin : BitVec w}
    (near : first - second < 2 ^ w) (near' : second - first < 2 ^ w) :
    place origin first = place origin second ↔ first = second := by
  constructor
  · intro equal
    rcases Nat.le_total first second with ordered | ordered
    · obtain ⟨steps, rfl⟩ := Nat.exists_eq_add_of_le ordered
      have walk := ahead_place_mod origin first steps
      rw [← equal, ahead_self, Nat.mod_eq_of_lt (by omega)] at walk
      omega
    · obtain ⟨steps, rfl⟩ := Nat.exists_eq_add_of_le ordered
      have walk := ahead_place_mod origin second steps
      rw [equal, ahead_self, Nat.mod_eq_of_lt (by omega)] at walk
      omega
  · rintro rfl
    rfl

theorem le_place_iff {first second : Nat} (origin : BitVec w)
    (near : 2 * (first - second) < 2 ^ w) (near' : 2 * (second - first) ≤ 2 ^ w) :
    le (place origin first) (place origin second) = true ↔ first ≤ second := by
  have positive := Nat.two_pow_pos w
  rw [le_iff, lt_place_iff origin near near', place_inj (by omega) (by omega)]
  omega

theorem max_place {first second : Nat} (origin : BitVec w)
    (near : 2 * (first - second) < 2 ^ w) (near' : 2 * (second - first) ≤ 2 ^ w) :
    (if lt (place origin first) (place origin second) then place origin second
      else place origin first) = place origin (max first second) := by
  by_cases before : first < second
  · rw [if_pos ((lt_place_iff origin near near').mpr before), Nat.max_eq_right before.le]
  · rw [if_neg fun less => before ((lt_place_iff origin near near').mp less),
      Nat.max_eq_left (by omega)]

theorem add_ofNat (origin : BitVec w) (count : Nat) :
    origin + BitVec.ofNat w count = place origin count := rfl

theorem place_sub_place {first second : Nat} {origin : BitVec w} (ordered : first ≤ second)
    (near : second - first < 2 ^ w) :
    (place origin second - place origin first).toNat = second - first := by
  obtain ⟨steps, rfl⟩ := Nat.exists_eq_add_of_le ordered
  have walk := ahead_place_mod origin first steps
  rw [Nat.mod_eq_of_lt (by omega)] at walk
  simpa [ahead] using walk

theorem place_sub_self {count : Nat} {origin : BitVec w} (near : count < 2 ^ w) :
    (place origin count - origin).toNat = count := by
  simpa [ahead] using ahead_place origin near

/-- The signed difference of positions at most half of the range apart. -/
theorem toInt_place_sub_place {first second : Nat} {origin : BitVec w}
    (near : 2 * (first - second) < 2 ^ w) (near' : 2 * (second - first) ≤ 2 ^ w) :
    (place origin first - place origin second).toInt = (first : Int) - second := by
  have positive := Nat.two_pow_pos w
  have cast : ((2 ^ w : Nat) : Int) = 2 ^ w := by simp
  rw [BitVec.toInt_eq_toNat_cond]
  rcases Nat.lt_or_ge first second with ordered | ordered
  · have apart : place origin first ≠ place origin second := by
      intro same
      have := (place_inj (by omega) (by omega)).mp same
      omega
    have reverse := ahead_reverse apart
    simp only [ahead] at reverse
    rw [place_sub_place ordered.le (by omega)] at reverse
    rw [reverse, if_neg (by omega)]
    omega
  · rw [place_sub_place ordered (by omega), if_pos near]
    omega

/-- Walking forwards from `b` takes as much off the signed way to `a`. -/
theorem toInt_sub_place {a b : BitVec w} {count : Nat}
    (near : -(2 ^ w : Int) ≤ 2 * ((a - b).toInt - count)) :
    (a - place b count).toInt = (a - b).toInt - count := by
  have below := @BitVec.two_mul_toInt_lt w (a - b)
  have cast : ((2 ^ w : Nat) : Int) = 2 ^ w := by simp
  have walk : a - place b count = a - b - BitVec.ofNat w count := by
    simp only [place]
    ring
  rw [walk, BitVec.toInt_sub, BitVec.toInt_ofNat', Int.sub_bmod_bmod]
  exact Int.bmod_eq_of_le (by omega) (by omega)

end SerialNumber
