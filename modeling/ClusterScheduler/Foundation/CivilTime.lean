import Mathlib.Tactic.IntervalCases
import Mathlib.Tactic.Linarith
import Mathlib.Tactic.Ring
import Mathlib.Order.Monotone.Basic

/-!
# Civil time

The proleptic Gregorian calendar over the integers and the two conversions between a
count of seconds and a broken-down time in a zone of constant offset.

* `daysOfDate` numbers the days; it accepts any month and any day of the month and
  carries the excess over, as a calendar does that normalises its argument.
* `dateOfDays` reads a day number back; `daysOfDate_dateOfDays` says that nothing is
  lost on the way.
* `ofSeconds` and `toSeconds` add the time of day.
-/

namespace ClusterScheduler.Foundation.CivilTime

/-! ## Years -/

def daysBeforeYear (year : ℤ) : ℤ :=
  365 * (year - 1) + (year - 1) / 4 - (year - 1) / 100 + (year - 1) / 400

/-- `year` has a 29th of February. -/
def isLeap (year : ℤ) : Bool :=
  year % 4 = 0 && (year % 100 ≠ 0 || year % 400 = 0)

/-- Days of `year`. -/
def yearLength (year : ℤ) : ℤ := if isLeap year then 366 else 365

theorem daysBeforeYear_succ (year : ℤ) :
    daysBeforeYear (year + 1) = daysBeforeYear year + yearLength year := by
  unfold daysBeforeYear yearLength isLeap
  simp only [ne_eq, decide_not, Bool.and_eq_true, decide_eq_true_eq, Bool.or_eq_true,
    Bool.not_eq_eq_eq_not, Bool.not_true, decide_eq_false_iff_not]
  split <;> omega

/-- The year of a day: the mean length of a year gives it up to one. -/
def yearOfDays (days : ℤ) : ℤ :=
  let year := 400 * days / 146097 + 1
  if days < daysBeforeYear year then year - 1
  else if daysBeforeYear (year + 1) ≤ days then year + 1
  else year

theorem daysBeforeYear_yearOfDays_le (days : ℤ) : daysBeforeYear (yearOfDays days) ≤ days := by
  unfold yearOfDays daysBeforeYear
  dsimp only
  split
  · omega
  · split <;> omega

theorem lt_daysBeforeYear_yearOfDays (days : ℤ) : days < daysBeforeYear (yearOfDays days + 1) := by
  unfold yearOfDays daysBeforeYear
  dsimp only
  split
  · omega
  · split <;> omega

/-! ## Months -/

def daysBeforeMonth (leap : Bool) (mon : ℤ) : ℤ :=
  [0, 31, 59, 90, 120, 151, 181, 212, 243, 273, 304, 334].getD mon.toNat 0 +
    if leap = true ∧ 2 ≤ mon then 1 else 0

/-- Days of month `mon` (0 to 11) of a year. -/
def monthLength (leap : Bool) (mon : ℤ) : ℤ :=
  [31, 28, 31, 30, 31, 30, 31, 31, 30, 31, 30, 31].getD mon.toNat 31 +
    if leap = true ∧ mon = 1 then 1 else 0

variable {mon : ℤ}

theorem daysBeforeMonth_succ (leap : Bool) (h0 : 0 ≤ mon) (h11 : mon < 11) :
    daysBeforeMonth leap (mon + 1) = daysBeforeMonth leap mon + monthLength leap mon := by
  cases leap <;> interval_cases mon <;> decide

theorem monthLength_pos (leap : Bool) (h0 : 0 ≤ mon) (h12 : mon < 12) :
    0 < monthLength leap mon := by
  cases leap <;> interval_cases mon <;> decide

theorem daysBeforeMonth_nonneg (leap : Bool) (h0 : 0 ≤ mon) (h12 : mon < 12) :
    0 ≤ daysBeforeMonth leap mon := by
  cases leap <;> interval_cases mon <;> decide

theorem daysBeforeMonth_last (year : ℤ) :
    daysBeforeMonth (isLeap year) 11 + monthLength (isLeap year) 11 = yearLength year := by
  unfold yearLength
  cases isLeap year <;> decide

/-- The month of a day of the year, looked for in the last `left` months and December. -/
def monthFrom (leap : Bool) (yday : ℤ) : ℕ → ℤ
  | 0 => 11
  | left + 1 =>
    let mon : ℤ := 10 - left
    if yday < daysBeforeMonth leap mon + monthLength leap mon then mon
    else monthFrom leap yday left

def monthOfDay (leap : Bool) (yday : ℤ) : ℤ := monthFrom leap yday 11

variable {leap : Bool} {yday : ℤ}

theorem monthFrom_spec {left : ℕ} (h11 : left ≤ 11) (h0 : daysBeforeMonth leap (11 - left) ≤ yday)
    (hlt : yday < daysBeforeMonth leap 11 + monthLength leap 11) :
    0 ≤ monthFrom leap yday left ∧ monthFrom leap yday left < 12 ∧
      daysBeforeMonth leap (monthFrom leap yday left) ≤ yday ∧
      yday < daysBeforeMonth leap (monthFrom leap yday left)
        + monthLength leap (monthFrom leap yday left) := by
  induction left with
  | zero =>
    have h0' : daysBeforeMonth leap 11 ≤ yday := by simpa using h0
    exact ⟨by simp [monthFrom], by simp [monthFrom], h0', hlt⟩
  | succ left ih =>
    have hmon : (11 : ℤ) - (left + 1 : ℕ) = 10 - left := by omega
    rw [hmon] at h0
    simp only [monthFrom]
    split
    · rename_i h
      exact ⟨by omega, by omega, h0, h⟩
    · rename_i h
      have hsucc := daysBeforeMonth_succ leap (show 0 ≤ 10 - (left : ℤ) by omega) (by omega)
      have hnext : (10 : ℤ) - left + 1 = 11 - left := by omega
      rw [hnext] at hsucc
      exact ih (by omega) (by omega)

theorem monthOfDay_spec (h0 : 0 ≤ yday)
    (hlt : yday < daysBeforeMonth leap 11 + monthLength leap 11) :
    0 ≤ monthOfDay leap yday ∧ monthOfDay leap yday < 12 ∧
      daysBeforeMonth leap (monthOfDay leap yday) ≤ yday ∧
      yday < daysBeforeMonth leap (monthOfDay leap yday)
        + monthLength leap (monthOfDay leap yday) := by
  refine monthFrom_spec le_rfl ?_ hlt
  cases leap <;> simpa [daysBeforeMonth] using h0

/-! ## Dates -/

/-- A date of the calendar; months count from 0, days of the month from 1. -/
structure Date where
  year : ℤ
  mon : ℤ
  mday : ℤ
deriving DecidableEq, Repr

/-- The date exists. -/
def Date.Valid (d : Date) : Prop :=
  0 ≤ d.mon ∧ d.mon < 12 ∧ 1 ≤ d.mday ∧ d.mday ≤ monthLength (isLeap d.year) d.mon

def daysOfDate (d : Date) : ℤ :=
  let year := d.year + d.mon / 12
  daysBeforeYear year + daysBeforeMonth (isLeap year) (d.mon % 12) + (d.mday - 1)

def dateOfDays (days : ℤ) : Date :=
  let year := yearOfDays days
  let yday := days - daysBeforeYear year
  let mon := monthOfDay (isLeap year) yday
  { year, mon, mday := yday - daysBeforeMonth (isLeap year) mon + 1 }

/-- A later day of the month is so many days later, whether the month has it or not. -/
theorem daysOfDate_mday (d : Date) (mday : ℤ) :
    daysOfDate { d with mday } = daysOfDate d + (mday - d.mday) := by
  simp only [daysOfDate]
  omega

variable {d : Date}

theorem daysOfDate_of_mon (h0 : 0 ≤ d.mon) (h12 : d.mon < 12) :
    daysOfDate d = daysBeforeYear d.year + daysBeforeMonth (isLeap d.year) d.mon
      + (d.mday - 1) := by
  unfold daysOfDate
  rw [Int.ediv_eq_zero_of_lt h0 h12, Int.emod_eq_of_lt h0 h12, add_zero]

theorem yday_bounds (days : ℤ) :
    0 ≤ days - daysBeforeYear (yearOfDays days) ∧
      days - daysBeforeYear (yearOfDays days) < daysBeforeMonth (isLeap (yearOfDays days)) 11
          + monthLength (isLeap (yearOfDays days)) 11 := by
  have hle := daysBeforeYear_yearOfDays_le days
  have hlt := lt_daysBeforeYear_yearOfDays days
  rw [daysBeforeYear_succ] at hlt
  rw [daysBeforeMonth_last]
  omega

theorem dateOfDays_valid (days : ℤ) : (dateOfDays days).Valid := by
  obtain ⟨h0, hlt⟩ := yday_bounds days
  have hs := monthOfDay_spec h0 hlt
  simp only [dateOfDays, Date.Valid]
  omega

/-- Reading a day's date and numbering it again gives the day. -/
@[simp] theorem daysOfDate_dateOfDays (days : ℤ) : daysOfDate (dateOfDays days) = days := by
  obtain ⟨h0, h12, -, -⟩ := dateOfDays_valid days
  rw [daysOfDate_of_mon h0 h12]
  simp only [dateOfDays]
  omega

/-! ## The order of dates -/

/-- `a` is an earlier date than `b`, by year, month and day of the month. -/
def Date.Before (a b : Date) : Prop :=
  a.year < b.year ∨ a.year = b.year ∧
    (a.mon < b.mon ∨ a.mon = b.mon ∧ a.mday < b.mday)

variable {a b : ℤ}

theorem daysBeforeYear_mono (h : a ≤ b) : daysBeforeYear a ≤ daysBeforeYear b := by
  unfold daysBeforeYear
  omega

theorem daysBeforeMonth_mono (leap : Bool) (h0 : 0 ≤ a) (h : a < b)
    (h12 : b < 12) : daysBeforeMonth leap a + monthLength leap a ≤ daysBeforeMonth leap b := by
  have hb0 : 0 ≤ b := by omega
  cases leap <;> interval_cases b <;> interval_cases a <;> decide

theorem Date.Valid.yday_lt (h : d.Valid) :
    daysBeforeMonth (isLeap d.year) d.mon + (d.mday - 1) < yearLength d.year := by
  obtain ⟨h0, h12, h1, hm⟩ := h
  rw [← daysBeforeMonth_last]
  by_cases hl : d.mon = 11
  · rw [hl] at hm ⊢
    omega
  · have := daysBeforeMonth_mono (isLeap d.year) h0
      (show d.mon < 11 by omega) (by decide)
    have := monthLength_pos (isLeap d.year) (show 0 ≤ (11 : ℤ) by decide) (by decide)
    omega

/-- An earlier date that exists has a smaller number, whatever day of a month the later
one names. -/
theorem daysOfDate_lt_of_before {a b : Date} (ha : a.Valid) (hb0 : 0 ≤ b.mon)
    (hb12 : b.mon < 12) (hb1 : 1 ≤ b.mday) (h : a.Before b) : daysOfDate a < daysOfDate b := by
  rw [daysOfDate_of_mon ha.1 ha.2.1, daysOfDate_of_mon hb0 hb12]
  rcases h with hy | ⟨hy, hm | ⟨hm, hd⟩⟩
  · have hyear := daysBeforeYear_mono (show a.year + 1 ≤ b.year by omega)
    have hend := ha.yday_lt
    have hmon := daysBeforeMonth_nonneg (isLeap b.year) hb0 hb12
    rw [daysBeforeYear_succ] at hyear
    omega
  · have hmon := daysBeforeMonth_mono (isLeap a.year) ha.1 hm hb12
    have hlen := ha.2.2.2
    rw [← hy]
    omega
  · rw [← hy, ← hm]
    omega

/-! ## Times of day -/

def secondsPerDay : ℤ := 86400

/-- A broken-down time: the time of day, the date (years count from 1900) and the day of
the week, Sunday first. -/
structure Tm where
  sec : ℤ
  min : ℤ
  hour : ℤ
  mday : ℤ
  mon : ℤ
  year : ℤ
  wday : ℤ
deriving DecidableEq, Repr

def Tm.date (tm : Tm) : Date := { year := tm.year + 1900, mon := tm.mon, mday := tm.mday }

def Tm.daySeconds (tm : Tm) : ℤ := tm.hour * 3600 + tm.min * 60 + tm.sec

def epochDay : ℤ := 719162

def weekday (days : ℤ) : ℤ := (days + 1) % 7

/-- The broken-down time of second `t`, `zone` seconds ahead of the time the seconds are
counted in. -/
def ofSeconds (zone t : ℤ) : Tm :=
  let days := (t + zone) / secondsPerDay + epochDay
  let rest := (t + zone) % secondsPerDay
  let date := dateOfDays days
  { sec := rest % 60, min := rest / 60 % 60, hour := rest / 3600
    mday := date.mday, mon := date.mon, year := date.year - 1900, wday := weekday days }

def toSeconds (zone : ℤ) (tm : Tm) : ℤ :=
  (daysOfDate tm.date - epochDay) * secondsPerDay + tm.daySeconds - zone

def dayOf (zone t : ℤ) : ℤ := (t + zone) / secondsPerDay + epochDay

def dayStart (zone day : ℤ) : ℤ := (day - epochDay) * secondsPerDay - zone

theorem toSeconds_eq_dayStart_add (zone : ℤ) (tm : Tm) :
    toSeconds zone tm = dayStart zone (daysOfDate tm.date) + tm.daySeconds := by
  simp only [toSeconds, dayStart]
  ring

@[simp] theorem date_ofSeconds (zone t : ℤ) :
    (ofSeconds zone t).date = dateOfDays (dayOf zone t) := by
  simp [ofSeconds, Tm.date, dayOf]

@[simp] theorem wday_ofSeconds (zone t : ℤ) :
    (ofSeconds zone t).wday = weekday (dayOf zone t) := rfl

theorem daySeconds_ofSeconds (zone t : ℤ) :
    (ofSeconds zone t).daySeconds = (t + zone) % secondsPerDay := by
  simp only [ofSeconds, Tm.daySeconds, secondsPerDay]
  omega

theorem daySeconds_bounds (zone t : ℤ) :
    0 ≤ (ofSeconds zone t).daySeconds ∧ (ofSeconds zone t).daySeconds < secondsPerDay := by
  rw [daySeconds_ofSeconds]
  exact ⟨Int.emod_nonneg _ (by decide), Int.emod_lt_of_pos _ (by decide)⟩

variable {day : ℤ}

theorem daySeconds_ofSeconds_dayStart_add {zone sec : ℤ} (h0 : 0 ≤ sec)
    (hlt : sec < secondsPerDay) : (ofSeconds zone (dayStart zone day + sec)).daySeconds = sec := by
  rw [daySeconds_ofSeconds]
  simp only [dayStart, secondsPerDay] at *
  omega

theorem eq_dayStart_add (zone t : ℤ) :
    t = dayStart zone (dayOf zone t) + (ofSeconds zone t).daySeconds := by
  rw [daySeconds_ofSeconds]
  simp only [dayStart, dayOf, secondsPerDay]
  omega

theorem lt_dayStart (zone : ℤ) {t : ℤ} (h : dayOf zone t < day) : t < dayStart zone day := by
  simp only [dayStart, dayOf, secondsPerDay] at *
  omega

theorem toSeconds_setTime (zone t hour min sec : ℤ) :
    toSeconds zone { ofSeconds zone t with hour, min, sec } =
      dayStart zone (dayOf zone t) + (hour * 3600 + min * 60 + sec) := by
  have hdate : ({ ofSeconds zone t with hour, min, sec } : Tm).date
      = dateOfDays (dayOf zone t) := date_ofSeconds zone t
  rw [toSeconds_eq_dayStart_add, hdate, daysOfDate_dateOfDays]
  rfl

end ClusterScheduler.Foundation.CivilTime
