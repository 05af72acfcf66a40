import Mathlib.Tactic.Common
import Mathlib.Tactic.IntervalCases
import Mathlib.Order.Monotone.Basic

/-!
# The proleptic Gregorian calendar

Days are counted from `0001-01-01` (day `1`) to `9999-12-31` (`maxOrdinal`).  A `Datetime` is a day
and a microsecond of that day, always in UTC.

* `ymd2ord y m d`                      the day of a civil date;
* `yearOf`, `monthOf`, `dayOf`         the civil date of a day, `ymd2ord_civil` its inverse;
* `isoYearWeek n`                      the ISO year and week of a day;
* `Datetime.subDays`                   `k` days earlier, if the calendar reaches back that far.
-/

namespace Calendar

def isLeap (y : ℕ) : Bool := y % 4 == 0 && (y % 100 != 0 || y % 400 == 0)

def leapDay (y : ℕ) : ℕ := if isLeap y then 1 else 0

def daysBeforeYear (y : ℕ) : ℕ := (y - 1) * 365 + (y - 1) / 4 - (y - 1) / 100 + (y - 1) / 400

/-- days of the year `y` before the month `m` -/
def daysBeforeMonth (y m : ℕ) : ℕ :=
  match m with
  | 0 | 1 => 0
  | 2 => 31
  | 3 => 59 + leapDay y
  | 4 => 90 + leapDay y
  | 5 => 120 + leapDay y
  | 6 => 151 + leapDay y
  | 7 => 181 + leapDay y
  | 8 => 212 + leapDay y
  | 9 => 243 + leapDay y
  | 10 => 273 + leapDay y
  | 11 => 304 + leapDay y
  | 12 => 334 + leapDay y
  | _ => 365 + leapDay y

def daysInMonth (y m : ℕ) : ℕ := daysBeforeMonth y (m + 1) - daysBeforeMonth y m

def ymd2ord (y m d : ℕ) : ℕ := daysBeforeYear y + daysBeforeMonth y m + d

def maxYear : ℕ := 9999

def maxOrdinal : ℕ := daysBeforeYear (maxYear + 1)

/-! ## the civil date of a day -/

/-- the year of day `n`: an estimate from the mean length of a year, at most one off -/
def yearOf (n : ℕ) : ℕ :=
  let y := (n - 1) * 400 / 146097 + 1
  if n ≤ daysBeforeYear y then y - 1 else if daysBeforeYear (y + 1) < n then y + 1 else y

def dayOfYear (n : ℕ) : ℕ := n - daysBeforeYear (yearOf n)

/-- the greatest month up to `m` that begins before the day `r` of the year `y` -/
def monthUpto (y r : ℕ) : ℕ → ℕ
  | 0 => 1
  | m + 1 => if daysBeforeMonth y (m + 1) < r then m + 1 else monthUpto y r m

def monthOf (n : ℕ) : ℕ := monthUpto (yearOf n) (dayOfYear n) 12

def dayOf (n : ℕ) : ℕ := dayOfYear n - daysBeforeMonth (yearOf n) (monthOf n)

theorem leapDay_le (y : ℕ) : leapDay y ≤ 1 := by
  unfold leapDay; split <;> omega

theorem daysBeforeYear_succ (y : ℕ) (hy : 0 < y) :
    daysBeforeYear (y + 1) = daysBeforeYear y + 365 + leapDay y := by
  obtain ⟨z, rfl⟩ : ∃ z, y = z + 1 := ⟨y - 1, by omega⟩
  have h4 : (z + 1) / 4 = z / 4 + if (z + 1) % 4 = 0 then 1 else 0 := by split <;> omega
  have h100 : (z + 1) / 100 = z / 100 + if (z + 1) % 100 = 0 then 1 else 0 := by
    split <;> omega
  have h400 : (z + 1) / 400 = z / 400 + if (z + 1) % 400 = 0 then 1 else 0 := by
    split <;> omega
  have hle : z / 100 ≤ z / 4 := by omega
  have hb : (if (z + 1) % 100 = 0 then 1 else 0) ≤ 1 := by split <;> omega
  have hleap : leapDay (z + 1) + (if (z + 1) % 100 = 0 then 1 else 0)
      = (if (z + 1) % 4 = 0 then 1 else 0) + if (z + 1) % 400 = 0 then 1 else 0 := by
    unfold leapDay isLeap
    simp only [Bool.and_eq_true, Bool.or_eq_true, beq_iff_eq, bne_iff_ne, ne_eq]
    split_ifs <;> omega
  show (z + 1) * 365 + (z + 1) / 4 - (z + 1) / 100 + (z + 1) / 400
    = z * 365 + z / 4 - z / 100 + z / 400 + 365 + leapDay (z + 1)
  rw [h4, h100, h400]
  generalize leapDay (z + 1) = l at hleap ⊢
  generalize (if (z + 1) % 4 = 0 then 1 else 0) = a at hleap ⊢
  generalize (if (z + 1) % 100 = 0 then 1 else 0) = b at hleap hb ⊢
  generalize (if (z + 1) % 400 = 0 then 1 else 0) = c at hleap ⊢
  omega

theorem daysBeforeYear_mono {y z : ℕ} (h : y ≤ z) : daysBeforeYear y ≤ daysBeforeYear z := by
  refine monotone_nat_of_le_succ (fun n => ?_) h
  cases n with
  | zero => exact Nat.le_refl _
  | succ n => rw [daysBeforeYear_succ (n + 1) (Nat.succ_pos n)]; omega

/-- 400 years have 146097 days, and no year runs two of them ahead or behind -/
theorem daysBeforeYear_mean (z : ℕ) : 146097 * z ≤ 400 * daysBeforeYear (z + 1) + 700 ∧
    400 * daysBeforeYear (z + 1) ≤ 146097 * z + 400 := by
  show _ ≤ 400 * (z * 365 + z / 4 - z / 100 + z / 400) + 700 ∧
    400 * (z * 365 + z / 4 - z / 100 + z / 400) ≤ _
  have h4 := Nat.div_add_mod z 4
  have h100 := Nat.div_add_mod z 100
  have h400 := Nat.div_add_mod z 400
  have h4' := Nat.mod_lt z (show 0 < 4 by omega)
  have h100' := Nat.mod_lt z (show 0 < 100 by omega)
  have h400' := Nat.mod_lt z (show 0 < 400 by omega)
  generalize z / 4 = a, z % 4 = a' at *
  generalize z / 100 = b, z % 100 = b' at *
  generalize z / 400 = c, z % 400 = c' at *
  omega

theorem yearOf_spec (n : ℕ) (hn : 0 < n) :
    0 < yearOf n ∧ daysBeforeYear (yearOf n) < n ∧ n ≤ daysBeforeYear (yearOf n + 1) := by
  unfold yearOf
  obtain ⟨z, hz⟩ : ∃ z, (n - 1) * 400 / 146097 = z := ⟨_, rfl⟩
  have hlow : 146097 * z ≤ (n - 1) * 400 := by omega
  have hupp : (n - 1) * 400 < 146097 * (z + 1) := by omega
  have h0 := daysBeforeYear_mean z
  have h1 := daysBeforeYear_mean (z + 1)
  have h2 := daysBeforeYear_mean (z + 1 + 1)
  rw [hz]
  clear hz
  simp only
  split_ifs with hle hlt
  · -- the estimate is one too late
    have hone : daysBeforeYear (0 + 1) = 0 := rfl
    obtain ⟨y, rfl⟩ : ∃ y, z = y + 1 := Nat.exists_eq_succ_of_ne_zero (by rintro rfl; omega)
    have hprev := daysBeforeYear_mean y
    rw [Nat.add_sub_cancel]
    exact ⟨by omega, by omega, hle⟩
  · exact ⟨by omega, hlt, by omega⟩
  · exact ⟨by omega, by omega, by omega⟩

theorem yearOf_le (n : ℕ) (hn : 0 < n) (h : n ≤ maxOrdinal) : yearOf n ≤ maxYear := by
  by_contra hlt
  obtain ⟨_, h1, _⟩ := yearOf_spec n hn
  have := daysBeforeYear_mono (show maxYear + 1 ≤ yearOf n by omega)
  unfold maxOrdinal at h
  omega

theorem dayOfYear_spec (n : ℕ) (hn : 0 < n) :
    0 < dayOfYear n ∧ dayOfYear n ≤ 365 + leapDay (yearOf n) ∧
      n = daysBeforeYear (yearOf n) + dayOfYear n := by
  obtain ⟨h0, h1, h2⟩ := yearOf_spec n hn
  rw [daysBeforeYear_succ _ h0] at h2
  unfold dayOfYear
  omega

theorem monthUpto_spec (y r : ℕ) (hr : 0 < r) (m : ℕ) (h : r ≤ daysBeforeMonth y (m + 1)) :
    (1 ≤ monthUpto y r m ∧ monthUpto y r m ≤ m) ∧ daysBeforeMonth y (monthUpto y r m) < r ∧
      r ≤ daysBeforeMonth y (monthUpto y r m + 1) := by
  induction m with
  | zero => exact absurd h (by simp only [daysBeforeMonth]; omega)
  | succ m ih =>
    unfold monthUpto
    split
    · exact ⟨by omega, by assumption, h⟩
    · obtain ⟨h1, h2, h3⟩ := ih (by omega)
      exact ⟨by omega, h2, h3⟩

theorem monthOf_spec (n : ℕ) (hn : 0 < n) :
    (1 ≤ monthOf n ∧ monthOf n ≤ 12) ∧ daysBeforeMonth (yearOf n) (monthOf n) < dayOfYear n ∧
      dayOfYear n ≤ daysBeforeMonth (yearOf n) (monthOf n + 1) := by
  obtain ⟨h0, h1, -⟩ := dayOfYear_spec n hn
  exact monthUpto_spec _ _ h0 12 h1

theorem dayOf_spec (n : ℕ) (hn : 0 < n) :
    1 ≤ dayOf n ∧ dayOf n ≤ daysInMonth (yearOf n) (monthOf n) := by
  obtain ⟨-, h1, h2⟩ := monthOf_spec n hn
  unfold dayOf daysInMonth
  omega

/-- **The civil date of a day is a date of that day.** -/
theorem ymd2ord_civil (n : ℕ) (hn : 0 < n) : ymd2ord (yearOf n) (monthOf n) (dayOf n) = n := by
  obtain ⟨-, -, h⟩ := dayOfYear_spec n hn
  obtain ⟨-, h1, -⟩ := monthOf_spec n hn
  unfold ymd2ord dayOf
  omega

/-! ## ISO weeks -/

/-- the Monday of week 1 of the ISO year `y`, which for year 1 is day 1 -/
def isoWeek1Monday (y : ℕ) : ℕ :=
  let firstday := ymd2ord y 1 1
  let firstweekday := (firstday + 6) % 7
  let week1monday := firstday - firstweekday
  if firstweekday > 3 then week1monday + 7 else week1monday

/-- ISO year and week of day `n` -/
def isoYearWeek (n : ℕ) : ℕ × ℕ :=
  let y := yearOf n
  if n < isoWeek1Monday y then (y - 1, (n - isoWeek1Monday (y - 1)) / 7 + 1)
  else
    let week := (n - isoWeek1Monday y) / 7
    if week ≥ 52 ∧ n ≥ isoWeek1Monday (y + 1) then (y + 1, 1) else (y, week + 1)

/-! ## points in time -/

def microsPerDay : ℕ := 24 * 60 * 60 * 1000000

/-- a point in time (UTC): a day of the calendar and a microsecond of that day -/
structure Datetime where
  day : ℕ
  micro : ℕ
  day_pos : 0 < day
  day_le : day ≤ maxOrdinal
  micro_lt : micro < microsPerDay
deriving DecidableEq

namespace Datetime

def hour (t : Datetime) : ℕ := t.micro / 3600000000
def minute (t : Datetime) : ℕ := t.micro / 60000000 % 60
def second (t : Datetime) : ℕ := t.micro / 1000000 % 60

/-- earlier in time -/
def Before (s t : Datetime) : Prop := s.day < t.day ∨ (s.day = t.day ∧ s.micro < t.micro)

instance (s t : Datetime) : Decidable (Before s t) :=
  inferInstanceAs (Decidable (_ ∨ _ ∧ _))

/-- not later in time -/
def Upto (s t : Datetime) : Prop := ¬ t.Before s

instance (s t : Datetime) : Decidable (Upto s t) := inferInstanceAs (Decidable (¬ _))

theorem Upto.refl (t : Datetime) : t.Upto t := by unfold Upto Before; omega

theorem Before.upto {s t : Datetime} (h : s.Before t) : s.Upto t := by
  unfold Upto; unfold Before at *; omega

theorem Before.of_upto {s t u : Datetime} (h : s.Before t) (h' : t.Upto u) : s.Before u := by
  unfold Upto at h'; unfold Before at *; omega

theorem Upto.before {s t u : Datetime} (h : s.Upto t) (h' : t.Before u) : s.Before u := by
  unfold Upto at h; unfold Before at *; omega

/-- `k` days earlier; none if that is before day 1 -/
def subDays (t : Datetime) (k : ℕ) : Option Datetime :=
  if h : k < t.day then
    some ⟨t.day - k, t.micro, by omega, by have := t.day_le; omega, t.micro_lt⟩
  else none

theorem subDays_spec {t c : Datetime} {k : ℕ} (h : t.subDays k = some c) :
    c.day + k = t.day ∧ c.micro = t.micro := by
  unfold subDays at h
  split at h
  · obtain rfl := Option.some.inj h
    exact ⟨by simp only; omega, rfl⟩
  · simp at h

theorem subDays_isSome {t t' c : Datetime} {k : ℕ} (h : t.subDays k = some c) (ht : t.Upto t') :
    ∃ c', t'.subDays k = some c' := by
  obtain ⟨h1, -⟩ := subDays_spec h
  have hk : k < t'.day := by
    have := c.day_pos
    unfold Upto Before at ht
    omega
  exact ⟨_, dif_pos hk⟩

theorem subDays_upto {t t' c c' : Datetime} {k : ℕ} (h : t.subDays k = some c)
    (h' : t'.subDays k = some c') (ht : t.Upto t') : c.Upto c' := by
  obtain ⟨h1, h2⟩ := subDays_spec h
  obtain ⟨h3, h4⟩ := subDays_spec h'
  unfold Upto Before at *
  omega

end Datetime
end Calendar
