import EspDevkit.Crypto.CertificateBuilder
import Mathlib.Tactic.IntervalCases
import Mathlib.Tactic.NormNum

/-!
# Dates

The builder takes a day apart into its date and the reader puts the date together again.
-/

namespace EspDevkit.Crypto.X509

/-- In a century that is not the last day of its era, counted from its first day. -/
theorem year_of_century {k t yoc : ℤ} (first : 0 ≤ k) (last : k ≤ 3) (low : 0 ≤ t)
    (high : t < 36524) (yoc_eq : yoc = (t + 25 * k - (36524 * k + t) / 1460) / 365) :
    0 ≤ yoc ∧ yoc < 100 ∧ 0 ≤ t - (365 * yoc + yoc / 4) ∧ t - (365 * yoc + yoc / 4) < 366 := by
  interval_cases k <;> omega

theorem year_of_era {doe yoe : ℤ} (low : 0 ≤ doe) (high : doe < 146097)
    (yoe_eq : yoe = (doe - doe / 1460 + doe / 36524 - doe / 146096) / 365) :
    0 ≤ yoe ∧ yoe < 400 ∧ 0 ≤ doe - (365 * yoe + yoe / 4 - yoe / 100) ∧
      doe - (365 * yoe + yoe / 4 - yoe / 100) < 366 := by
  by_cases last : doe = 146096
  · subst last yoe_eq
    decide
  · obtain ⟨k, t, rfl, low', high'⟩ : ∃ k t, doe = 36524 * k + t ∧ 0 ≤ t ∧ t < 36524 :=
      ⟨doe / 36524, doe % 36524, by omega, by omega, by omega⟩
    have centuries : 0 ≤ k ∧ k ≤ 3 := by omega
    have century : (36524 * k + t) / 36524 = k := by omega
    have era : (36524 * k + t) / 146096 = 0 := by omega
    have bounds := year_of_century centuries.1 centuries.2 low' high' rfl
    have split : yoe = 100 * k + (t + 25 * k - (36524 * k + t) / 1460) / 365 := by
      rw [century, era] at yoe_eq
      omega
    generalize (t + 25 * k - (36524 * k + t) / 1460) / 365 = yoc at bounds split
    subst split
    have hundreds : (100 * k + yoc) / 100 = k := by omega
    have fours : (100 * k + yoc) / 4 = 25 * k + yoc / 4 := by omega
    rw [hundreds, fours]
    omega

theorem month_of_year {doy mp : ℤ} (low : 0 ≤ doy) (high : doy < 366)
    (mp_eq : mp = (5 * doy + 2) / 153) :
    0 ≤ mp ∧ mp ≤ 11 ∧ 1 ≤ doy - (153 * mp + 2) / 5 + 1 ∧ doy - (153 * mp + 2) / 5 + 1 ≤ 31 := by
  omega

structure Civil (z y m d : ℤ) : Prop where
  month : 1 ≤ m ∧ m ≤ 12
  day : 1 ≤ d ∧ d ≤ 31
  back : daysFromCivil y m d = z

theorem civilFromDays_civil (z : ℤ) :
    Civil z (civilFromDays z).1 (civilFromDays z).2.1 (civilFromDays z).2.2 := by
  unfold civilFromDays
  dsimp only
  obtain ⟨era, doe, all, low, high⟩ :
      ∃ era doe, z + 719468 = era * 146097 + doe ∧ 0 ≤ doe ∧ doe < 146097 :=
    ⟨(z + 719468) / 146097, (z + 719468) % 146097, by omega, by omega, by omega⟩
  have era_eq : (z + 719468) / 146097 = era := by omega
  have doe_eq : z + 719468 - era * 146097 = doe := by omega
  rw [era_eq, doe_eq]
  have year := year_of_era low high rfl
  generalize (doe - doe / 1460 + doe / 36524 - doe / 146096) / 365 = yoe at year
  obtain ⟨first, last, low', high'⟩ := year
  obtain ⟨doy, doy_eq⟩ : ∃ doy, doy = doe - (365 * yoe + yoe / 4 - yoe / 100) := ⟨_, rfl⟩
  rw [← doy_eq] at low' high' ⊢
  have month := month_of_year low' high' rfl
  generalize (5 * doy + 2) / 153 = mp at month
  obtain ⟨spring, winter, day⟩ := month
  refine ⟨by split <;> omega, day, ?_⟩
  have march : (if (if mp < 10 then mp + 3 else mp - 9) ≤ 2 then
      yoe + era * 400 + (if (if mp < 10 then mp + 3 else mp - 9) ≤ 2 then 1 else 0) - 1
    else yoe + era * 400 + (if (if mp < 10 then mp + 3 else mp - 9) ≤ 2 then 1 else 0)) =
      yoe + era * 400 := by
    split <;> omega
  have months : ((if mp < 10 then mp + 3 else mp - 9) + 9) % 12 = mp := by
    split <;> omega
  have eras : (yoe + era * 400) / 400 = era := by omega
  have years : yoe + era * 400 - era * 400 = yoe := by omega
  unfold daysFromCivil
  dsimp only
  rw [march, months, eras, years]
  omega

theorem march_of_era {yoe : ℤ} (low : 0 ≤ yoe) (high : yoe < 400) :
    yoe * 365 ≤ yoe * 365 + yoe / 4 - yoe / 100 ∧
      yoe * 365 + yoe / 4 - yoe / 100 ≤ yoe * 365 + 96 ∧
        (yoe = 399 → yoe * 365 + yoe / 4 - yoe / 100 = yoe * 365 + 96) := by
  omega

theorem year_of_days {y m d : ℤ} (month : 1 ≤ m ∧ m ≤ 12) (day : 1 ≤ d ∧ d ≤ 31)
    (after : daysFromCivil 0 1 1 ≤ daysFromCivil y m d)
    (before : daysFromCivil y m d < daysFromCivil 10000 1 1) : 0 ≤ y ∧ y < 10000 := by
  have begins : daysFromCivil 0 1 1 = -719528 := by decide
  have ends : daysFromCivil 10000 1 1 = 2932897 := by decide
  rw [begins] at after
  rw [ends] at before
  unfold daysFromCivil at after before
  dsimp only at after before
  obtain ⟨march, march_eq⟩ : ∃ march, march = if m ≤ 2 then y - 1 else y := ⟨_, rfl⟩
  rw [← march_eq] at after before
  obtain ⟨era, yoe, rfl, low, high⟩ : ∃ era yoe, march = era * 400 + yoe ∧ 0 ≤ yoe ∧ yoe < 400 :=
    ⟨march / 400, march % 400, by omega, by omega, by omega⟩
  have era_eq : (era * 400 + yoe) / 400 = era := by omega
  have yoe_eq : era * 400 + yoe - era * 400 = yoe := by omega
  rw [era_eq, yoe_eq] at after before
  have bounds := march_of_era low high
  generalize yoe * 365 + yoe / 4 - yoe / 100 = days at after before bounds
  by_cases winter : m ≤ 2
  · rw [if_pos winter] at march_eq
    have months : (m + 9) % 12 = m + 9 := by omega
    have first : 306 ≤ (153 * (m + 9) + 2) / 5 := by omega
    have last : (153 * (m + 9) + 2) / 5 ≤ 337 := by omega
    rw [months] at after before
    generalize (153 * (m + 9) + 2) / 5 = passed at after before first last
    have eras : -1 ≤ era ∧ era ≤ 24 := by omega
    omega
  · rw [if_neg winter] at march_eq
    have months : (m + 9) % 12 = m - 3 := by omega
    have first : 0 ≤ (153 * (m - 3) + 2) / 5 := by omega
    have last : (153 * (m - 3) + 2) / 5 ≤ 275 := by omega
    rw [months] at after before
    generalize (153 * (m - 3) + 2) / 5 = passed at after before first last
    have eras : 0 ≤ era ∧ era ≤ 24 := by omega
    omega

end EspDevkit.Crypto.X509

/-!
## The times of a validity

Dates before 1950 and from 2050 on are written with the four digits of their year, the others with
two of them; both are read back to the second.
-/

namespace EspDevkit.Crypto.X509

open Der List

theorem digits_snoc {s : Bytes} {n : ℤ} {k : ℕ} (front : digits s = .ok n) (small : k < 10) :
    digits (s ++ [UInt8.ofNat (48 + k)]) = .ok (n * 10 + k) := by
  have value : (UInt8.ofNat (48 + k)).toNat = 48 + k := by
    rw [UInt8.toNat_ofNat']
    omega
  have digit : 48 ≤ UInt8.ofNat (48 + k) ∧ UInt8.ofNat (48 + k) ≤ 57 := by
    constructor
    · rw [UInt8.le_iff_toNat_le, value]
      exact Nat.le_add_right 48 k
    · rw [UInt8.le_iff_toNat_le, value]
      change 48 + k ≤ 57
      omega
  rw [digits] at front
  rw [digits, foldlM_append, front]
  simp only [bind, Except.bind, foldlM_cons, foldlM_nil, if_pos digit, value,
    Nat.add_sub_cancel_left]
  rfl

theorem digits_decimal {places n : ℕ} (few : n < 10 ^ places) (some_ : places ≠ 0) :
    digits (decimal places n) = .ok n := by
  induction places generalizing n with
  | zero => exact absurd rfl some_
  | succ places ih =>
    rw [decimal]
    split
    · next small =>
        have digit := @digits_snoc [] 0 n rfl small
        rwa [Int.zero_mul, Int.zero_add] at digit
    · next large =>
        have positive : places ≠ 0 := by
          rintro rfl
          rw [Nat.zero_add, Nat.pow_one] at few
          exact large few
        have rest : n / 10 < 10 ^ places := by
          rw [Nat.pow_succ] at few
          omega
        rw [digits_snoc (ih rest positive) (Nat.mod_lt n (by decide))]
        congr 1
        omega

theorem length_decimal {places n width : ℕ} (few : n < 10 ^ width) (some_ : width ≠ 0) :
    (decimal places n).length ≤ width := by
  induction places generalizing n width with
  | zero => exact Nat.zero_le width
  | succ places ih =>
    rw [decimal]
    split
    · exact Nat.one_le_iff_ne_zero.mpr some_
    · next large =>
        obtain ⟨width, rfl⟩ := Nat.exists_eq_succ_of_ne_zero some_
        have positive : width ≠ 0 := by
          rintro rfl
          rw [Nat.succ_eq_add_one, Nat.zero_add, Nat.pow_one] at few
          exact large few
        have rest : n / 10 < 10 ^ width := by
          rw [Nat.pow_succ] at few
          omega
        rw [length_append, length_singleton]
        exact Nat.succ_le_succ (ih rest positive)

theorem digits_zeros (count : ℕ) (s : Bytes) :
    digits (List.replicate count 0x30 ++ s) = digits s := by
  induction count with
  | zero => rfl
  | succ count ih => exact ih

section Padded

variable {n : ℤ} {width : ℕ}

theorem padded_eq (low : 0 ≤ n) :
    padded width n =
      List.replicate (width - (decimal 19 n.natAbs).length) 0x30 ++ decimal 19 n.natAbs := by
  simp only [padded, if_neg (Int.not_lt.mpr low), nil_append, length_nil, Nat.sub_zero]

theorem length_padded (low : 0 ≤ n) (high : n < 10 ^ width) (some_ : width ≠ 0) :
    (padded width n).length = width := by
  obtain ⟨n, rfl⟩ := Int.eq_ofNat_of_zero_le low
  have few : n < 10 ^ width := by exact_mod_cast high
  have short := @length_decimal 19 n width few some_
  rw [padded_eq low, Int.natAbs_natCast, length_append, length_replicate,
    Nat.sub_add_cancel short]

theorem digits_padded (low : 0 ≤ n) (high : n < 10 ^ 19) : digits (padded width n) = .ok n := by
  obtain ⟨n, rfl⟩ := Int.eq_ofNat_of_zero_le low
  have few : n < 10 ^ 19 := by exact_mod_cast high
  rw [padded_eq low, Int.natAbs_natCast, digits_zeros, digits_decimal few (by decide)]

end Padded

theorem two_digits {n : ℤ} (low : 0 ≤ n) (high : n < 100) :
    ∃ a b, padded 2 n = [a, b] ∧ digits [a, b] = .ok n := by
  have number : digits (padded 2 n) = .ok n := digits_padded low (by omega)
  obtain ⟨a, b, both⟩ := length_eq_two.mp (length_padded low high (by decide))
  exact ⟨a, b, both, both ▸ number⟩

theorem four_digits {n : ℤ} (low : 0 ≤ n) (high : n < 10000) :
    ∃ a b c d, padded 4 n = [a, b, c, d] ∧ digits [a, b, c, d] = .ok n := by
  have number : digits (padded 4 n) = .ok n := digits_padded low (by omega)
  have four : (padded 4 n).length = 4 := length_padded low high (by decide)
  match same : padded 4 n, four with
  | [a, b, c, d], _ => exact ⟨a, b, c, d, rfl, same ▸ number⟩

def InYears (unix : ℤ) : Prop :=
  daysFromCivil 0 1 1 * 86400 ≤ unix ∧ unix < daysFromCivil 10000 1 1 * 86400

def timeTlv (unix : ℤ) : UInt8 × Bytes :=
  let (y, m, d) := civilFromDays (unix / 86400)
  if 1950 ≤ y ∧ y < 2050 then (utcTime, padded 2 (y % 100) ++ timeText m d (unix % 86400))
  else (generalizedTime, padded 4 y ++ timeText m d (unix % 86400))

theorem writeTime_eq (w : Writer) (unix : ℤ) :
    writeTime w unix = w.tlv (timeTlv unix).1 (timeTlv unix).2 := by
  unfold writeTime timeTlv
  dsimp only
  split
  · rfl
  · rfl

theorem timeText_eq {m d secs : ℤ} (month : 0 ≤ m ∧ m < 100) (day : 0 ≤ d ∧ d < 100)
    (low : 0 ≤ secs) (high : secs < 86400) :
    ∃ m₁ m₂ d₁ d₂ h₁ h₂ n₁ n₂ s₁ s₂,
      timeText m d secs = [m₁, m₂, d₁, d₂, h₁, h₂, n₁, n₂, s₁, s₂, 0x5a] ∧
        digits [m₁, m₂] = .ok m ∧ digits [d₁, d₂] = .ok d ∧
          digits [h₁, h₂] = .ok (secs / 3600) ∧ digits [n₁, n₂] = .ok (secs / 60 % 60) ∧
            digits [s₁, s₂] = .ok (secs % 60) := by
  obtain ⟨m₁, m₂, m_eq, months⟩ := two_digits month.1 month.2
  obtain ⟨d₁, d₂, d_eq, days⟩ := two_digits day.1 day.2
  obtain ⟨h₁, h₂, h_eq, hours⟩ := @two_digits (secs / 3600) (by omega) (by omega)
  obtain ⟨n₁, n₂, n_eq, minutes⟩ := @two_digits (secs / 60 % 60) (by omega) (by omega)
  obtain ⟨s₁, s₂, s_eq, seconds⟩ := @two_digits (secs % 60) (by omega) (by omega)
  refine ⟨m₁, m₂, d₁, d₂, h₁, h₂, n₁, n₂, s₁, s₂, ?_, months, days, hours, minutes, seconds⟩
  rw [timeText, m_eq, d_eq, h_eq, n_eq, s_eq]
  rfl

theorem readAny_encode {tag : UInt8} {content : Bytes} (short : tag &&& 0x1f ≠ 0x1f)
    (fits : content.length < 2 ^ 32) (rest : Bytes) :
    readAny (encode tag content ++ rest) =
      .ok ({ tag, content, whole := encode tag content }, rest) :=
  @readAny_whole { tag, content, whole := encode tag content } ⟨short, fits, rfl⟩ rest

theorem time_encode {unix : ℤ} (years : InYears unix) (rest : Bytes) :
    time (encode (timeTlv unix).1 (timeTlv unix).2 ++ rest) = .ok (unix, rest) := by
  obtain ⟨after, before⟩ := years
  obtain ⟨month, day, back⟩ := civilFromDays_civil (unix / 86400)
  unfold timeTlv
  generalize civilFromDays (unix / 86400) = civil at month day back
  obtain ⟨y, m, d⟩ := civil
  dsimp only at month day back ⊢
  have year := year_of_days month day (by rw [back]; omega) (by rw [back]; omega)
  obtain ⟨m₁, m₂, d₁, d₂, h₁, h₂, n₁, n₂, s₁, s₂, text, months, days, hours, minutes, seconds⟩ :=
    @timeText_eq m d (unix % 86400) (by omega) (by omega) (by omega) (by omega)
  have inRange : ¬(m < 1 ∨ 12 < m ∨ d < 1 ∨ 31 < d ∨ 23 < unix % 86400 / 3600 ∨
      59 < unix % 86400 / 60 % 60 ∨ 60 < unix % 86400 % 60) := by omega
  have sum : daysFromCivil y m d * 86400 + unix % 86400 / 3600 * 3600 +
      unix % 86400 / 60 % 60 * 60 + unix % 86400 % 60 = unix := by
    rw [back]
    omega
  rw [text]
  split
  · next century =>
      obtain ⟨y₁, y₂, y_eq, digits_y⟩ := @two_digits (y % 100) (by omega) (by omega)
      have whole : (if y % 100 < 50 then 2000 + y % 100 else 1900 + y % 100) = y := by
        split <;> omega
      rw [y_eq]
      have value := @readAny_encode utcTime
        [y₁, y₂, m₁, m₂, d₁, d₂, h₁, h₂, n₁, n₂, s₁, s₂, 0x5a] (by decide) (by decide : 13 < 2 ^ 32)
        rest
      have last : [m₁, m₂, d₁, d₂, h₁, h₂, n₁, n₂, s₁, s₂, (0x5a : UInt8)][10]? = some 0x5a := rfl
      simp only [cons_append, nil_append]
      simp only [time, bind, Except.bind, value, length_cons, length_nil, Nat.reduceAdd,
        and_self, if_true, take_succ_cons, take_zero, drop_succ_cons, drop_zero,
        digits_y, whole, last, ne_eq, not_true_eq_false, if_false, months, days, hours, minutes,
        seconds, if_neg inRange, sum]
  · next other =>
      obtain ⟨y₁, y₂, y₃, y₄, y_eq, digits_y⟩ := @four_digits y year.1 year.2
      rw [y_eq]
      have value := @readAny_encode generalizedTime
        [y₁, y₂, y₃, y₄, m₁, m₂, d₁, d₂, h₁, h₂, n₁, n₂, s₁, s₂, 0x5a] (by decide)
        (by decide : 15 < 2 ^ 32) rest
      have last : [m₁, m₂, d₁, d₂, h₁, h₂, n₁, n₂, s₁, s₂, (0x5a : UInt8)][10]? = some 0x5a := rfl
      have tag : generalizedTime ≠ utcTime := by decide
      simp only [cons_append, nil_append]
      simp only [time, bind, Except.bind, value, length_cons, length_nil, Nat.reduceAdd,
        tag, false_and, and_self, if_false, if_true, take_succ_cons, take_zero,
        drop_succ_cons, drop_zero, digits_y, last, ne_eq, not_true_eq_false, months, days,
        hours, minutes, seconds, if_neg inRange, sum]

end EspDevkit.Crypto.X509
