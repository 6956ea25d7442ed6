import Mathlib.Data.Int.Notation
import Mathlib.Data.Nat.Notation

/-!
The proleptic Gregorian calendar on day numbers. Day 0 is January 1 of year 1;
months are numbered by one integer, twelve to a year. Every day lies in exactly
one month, month starts strictly increase, and a day number is recovered from its
year, month and day.
-/

namespace KnowledgeEngine.Calendar

def isLeap (year : ℤ) : Bool := year % 4 = 0 && (year % 100 ≠ 0 || year % 400 = 0)

/-- Days before January 1 of a year. -/
def daysBeforeYear (year : ℤ) : ℤ :=
  365 * (year - 1) + (year - 1) / 4 - (year - 1) / 100 + (year - 1) / 400

/-- Days of a year before the first of its month, January being month 0. From
March on the month lengths repeat 31, 30, 31, 30, 31. -/
def daysBeforeMonth (leap : Bool) (month : ℤ) : ℤ :=
  if month < 2 then 31 * month
  else (if leap then 60 else 59) + (153 * (month - 2) + 2) / 5

def monthStart (month : ℤ) : ℤ :=
  daysBeforeYear (month / 12) + daysBeforeMonth (isLeap (month / 12)) (month % 12)

/-- The day number of a date; the month may be out of range and carries into the
year, the day counts from the first of the month. -/
def date (year month day : ℤ) : ℤ := monthStart (12 * year + month - 1) + day - 1

def cycles400 (day : ℤ) : ℤ := day / 146097

def cycles100 (day : ℤ) : ℤ := min (day % 146097 / 36524) 3

def cycles4 (day : ℤ) : ℤ := (day % 146097 - 36524 * cycles100 day) / 1461

def cycles1 (day : ℤ) : ℤ :=
  min ((day % 146097 - 36524 * cycles100 day - 1461 * cycles4 day) / 365) 3

def yearOf (day : ℤ) : ℤ :=
  400 * cycles400 day + 100 * cycles100 day + 4 * cycles4 day + cycles1 day + 1

/-- The month of a day of the year. -/
def monthOfYearDay (leap : Bool) (yearDay : ℤ) : ℤ :=
  let march := if leap then 60 else 59
  if yearDay < march then yearDay / 31 else 2 + (5 * (yearDay - march) + 2) / 153

def monthIndex (day : ℤ) : ℤ :=
  12 * yearOf day + monthOfYearDay (isLeap (yearOf day)) (day - daysBeforeYear (yearOf day))

structure Civil where
  year : ℤ
  month : ℤ
  day : ℤ
deriving DecidableEq

/-- Year, month from 1 and day from 1 of a day number. -/
def civil (day : ℤ) : Civil :=
  ⟨monthIndex day / 12, monthIndex day % 12 + 1, day - monthStart (monthIndex day) + 1⟩

theorem daysBeforeYear_succ (year : ℤ) :
    daysBeforeYear (year + 1) = daysBeforeYear year + (if isLeap year then 366 else 365) := by
  unfold daysBeforeYear isLeap
  simp only [Bool.and_eq_true, Bool.or_eq_true, decide_eq_true_eq]
  split <;> omega

theorem cycles_bounds {day : ℤ} :
    0 ≤ cycles100 day ∧ cycles100 day ≤ 3 ∧ 0 ≤ cycles4 day ∧ cycles4 day ≤ 24 ∧
      0 ≤ cycles1 day ∧ cycles1 day ≤ 3 := by
  have h100 : 0 ≤ cycles100 day ∧ cycles100 day ≤ 3 ∧
      0 ≤ day % 146097 - 36524 * cycles100 day ∧
      day % 146097 - 36524 * cycles100 day ≤ 36524 := by
    unfold cycles100
    omega
  have h4 : 0 ≤ cycles4 day ∧ cycles4 day ≤ 24 ∧
      0 ≤ day % 146097 - 36524 * cycles100 day - 1461 * cycles4 day := by
    unfold cycles4
    omega
  have h1 : 0 ≤ cycles1 day ∧ cycles1 day ≤ 3 := by
    unfold cycles1
    omega
  omega

variable (leap : Bool) (day : ℤ) (month : ℤ)

/-- The first day of a year from its cycles of 400, 100, 4 and single years. -/
theorem daysBeforeYear_yearOf :
    daysBeforeYear (yearOf day) =
      146097 * cycles400 day + 36524 * cycles100 day + 1461 * cycles4 day + 365 * cycles1 day := by
  obtain ⟨h100, h100', h4, h4', h1, h1'⟩ := cycles_bounds
  unfold daysBeforeYear yearOf
  generalize cycles400 day = a, cycles100 day = b, cycles4 day = c, cycles1 day = d at *
  have hquarter : (400 * a + 100 * b + 4 * c + d + 1 - 1) / 4 = 100 * a + 25 * b + c := by omega
  have hcentury : (400 * a + 100 * b + 4 * c + d + 1 - 1) / 100 = 4 * a + b := by omega
  have hcycle : (400 * a + 100 * b + 4 * c + d + 1 - 1) / 400 = a := by omega
  rw [hquarter, hcentury, hcycle]
  omega

theorem isLeap_yearOf :
    isLeap (yearOf day) = true ↔
      cycles1 day = 3 ∧ (cycles4 day ≠ 24 ∨ cycles100 day = 3) := by
  obtain ⟨h100, h100', h4, h4', h1, h1'⟩ := cycles_bounds
  unfold isLeap yearOf
  simp only [Bool.and_eq_true, Bool.or_eq_true, decide_eq_true_eq]
  generalize cycles400 day = a, cycles100 day = b, cycles4 day = c, cycles1 day = d at *
  omega

theorem daysBeforeYear_yearOf_le : daysBeforeYear (yearOf day) ≤ day := by
  rw [daysBeforeYear_yearOf]
  unfold cycles1 cycles4 cycles400
  omega

/-- The day after the last of a year starts the next year. -/
theorem lt_daysBeforeYear_yearOf : day < daysBeforeYear (yearOf day + 1) := by
  have hleap := isLeap_yearOf day
  rw [daysBeforeYear_succ, daysBeforeYear_yearOf]
  by_cases hl : isLeap (yearOf day) = true
  · rw [if_pos hl]
    unfold cycles1 cycles4 cycles100 cycles400
    omega
  · rw [if_neg hl]
    rw [hleap] at hl
    unfold cycles1 cycles4 cycles100 at hl
    unfold cycles1 cycles4 cycles100 cycles400
    omega

theorem monthOfYearDay_bounds (yearDay : ℤ) (hday : 0 ≤ yearDay)
    (hyear : yearDay < if leap then 366 else 365) :
    0 ≤ monthOfYearDay leap yearDay ∧ monthOfYearDay leap yearDay ≤ 11 := by
  unfold monthOfYearDay
  cases leap <;> simp only [Bool.false_eq_true, if_false, if_true] at hyear ⊢ <;> split <;> omega

/-- A day of the year lies in its month. -/
theorem monthOfYearDay_spec (yearDay : ℤ) (hday : 0 ≤ yearDay) :
    daysBeforeMonth leap (monthOfYearDay leap yearDay) ≤ yearDay ∧
      yearDay < daysBeforeMonth leap (monthOfYearDay leap yearDay + 1) := by
  unfold monthOfYearDay daysBeforeMonth
  cases leap <;> simp only [Bool.false_eq_true, if_false, if_true] <;> split <;> split <;>
    split <;> omega

theorem daysBeforeMonth_lt_succ :
    daysBeforeMonth leap month < daysBeforeMonth leap (month + 1) ∧
      daysBeforeMonth leap (month + 1) ≤ daysBeforeMonth leap month + 31 := by
  unfold daysBeforeMonth
  cases leap <;> simp only [Bool.false_eq_true, if_false, if_true] <;> split <;> split <;> omega

/-- December ends with the year. -/
theorem monthStart_succ :
    monthStart (month + 1) =
      daysBeforeYear (month / 12) + daysBeforeMonth (isLeap (month / 12)) (month % 12 + 1) := by
  unfold monthStart
  by_cases hdecember : month % 12 = 11
  · have hyear : (month + 1) / 12 = month / 12 + 1 := by omega
    have hmonth : (month + 1) % 12 = 0 := by omega
    rw [hyear, hmonth, hdecember, daysBeforeYear_succ]
    cases isLeap (month / 12) <;> simp [daysBeforeMonth]
  · have hyear : (month + 1) / 12 = month / 12 := by omega
    have hmonth : (month + 1) % 12 = month % 12 + 1 := by omega
    rw [hyear, hmonth]

theorem monthStart_lt_succ :
    monthStart month < monthStart (month + 1) ∧ monthStart (month + 1) ≤ monthStart month + 31 := by
  have hmonth := daysBeforeMonth_lt_succ (isLeap (month / 12)) (month % 12)
  rw [monthStart_succ]
  unfold monthStart
  omega

theorem monthIndex_split :
    monthIndex day / 12 = yearOf day ∧
      monthIndex day % 12 =
        monthOfYearDay (isLeap (yearOf day)) (day - daysBeforeYear (yearOf day)) := by
  have hle := daysBeforeYear_yearOf_le day
  have hlt := lt_daysBeforeYear_yearOf day
  rw [daysBeforeYear_succ] at hlt
  obtain ⟨hlow, hhigh⟩ := monthOfYearDay_bounds (isLeap (yearOf day))
    (day - daysBeforeYear (yearOf day)) (by omega) (by omega)
  unfold monthIndex
  omega

/-- Every day lies in its month. -/
theorem monthIndex_spec :
    monthStart (monthIndex day) ≤ day ∧ day < monthStart (monthIndex day + 1) := by
  obtain ⟨hyear, hmonth⟩ := monthIndex_split day
  have hle := daysBeforeYear_yearOf_le day
  have hspec := monthOfYearDay_spec (isLeap (yearOf day))
    (day - daysBeforeYear (yearOf day)) (by omega)
  rw [monthStart_succ]
  unfold monthStart
  rw [hyear, hmonth]
  omega

theorem date_civil : date (civil day).year (civil day).month (civil day).day = day := by
  have hindex : 12 * (monthIndex day / 12) + (monthIndex day % 12 + 1) - 1 = monthIndex day := by
    omega
  unfold date civil
  simp only [hindex]
  omega

theorem civil_bounds :
    1 ≤ (civil day).month ∧ (civil day).month ≤ 12 ∧ 1 ≤ (civil day).day ∧
      (civil day).day ≤ 31 := by
  have hspec := monthIndex_spec day
  have hlength := monthStart_lt_succ (monthIndex day)
  unfold civil
  dsimp only
  omega

end KnowledgeEngine.Calendar
