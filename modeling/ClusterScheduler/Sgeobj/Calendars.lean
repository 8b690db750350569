import ClusterScheduler.Foundation.CivilTime

/-!
# Calendars

The parsed form of a calendar and the comparisons the calendar code rests on.

* `TimeRange` is an element of a `TMR_Type` list, `CalendarEntry` one of a `CA_Type`
  list.
* `tmYdayCmp`, `tmWdayCmp` and `tmDaytimeCmp` order times by date, by day of the week and
  by time of day; `inRange` and `inRangeList` are taken with one of them.
* `CalendarEntry.coversYear` and `CalendarEntry.coversWeek` say that a time lies in the days and the
  daytimes of an entry.
-/

namespace ClusterScheduler.Sgeobj.Calendar

open Foundation.CivilTime

/-! ## Queue states -/

def qiDoNothing : ℕ := 0

def qiDoDisable : ℕ := 0x4

def qiDoEnable : ℕ := 0x8

def qiDoSuspend : ℕ := 0x100

/-! ## Ranges -/

/-- A `TM_Type` element with no field set. -/
def emptyTm : Tm := { sec := 0, min := 0, hour := 0, mday := 0, mon := 0, year := 0, wday := 0 }

/-- A `TMR_Type` element. The list `TMR_begin` holds one time, `TMR_end` one or none. -/
structure TimeRange where
  tmrBegin : Tm
  tmrEnd : Option Tm
deriving DecidableEq, Repr

/-- How two times compare: negative, zero or positive. -/
abbrev CmpFunc := Tm → Tm → ℤ

def tmYdayCmp (t1 t2 : Tm) : ℤ :=
  if t1.year - t2.year ≠ 0 then t1.year - t2.year
  else if t1.mon - t2.mon ≠ 0 then t1.mon - t2.mon
  else t1.mday - t2.mday

def tmWdayCmp (t1 t2 : Tm) : ℤ := t1.wday - t2.wday

def tmDaytimeCmp (t1 t2 : Tm) : ℤ :=
  if t1.hour - t2.hour ≠ 0 then t1.hour - t2.hour
  else if t1.min - t2.min ≠ 0 then t1.min - t2.min
  else t1.sec - t2.sec

/-- `in_range()`: both ends belong to a range, and one without an end is its begin. -/
def inRange (tm : Tm) (r : TimeRange) (cmpFunc : CmpFunc) : Bool :=
  match r.tmrEnd with
  | some t2 => cmpFunc r.tmrBegin tm ≤ 0 && cmpFunc tm t2 ≤ 0
  | none => cmpFunc r.tmrBegin tm = 0

def inRangeList (tm : Tm) (rl : Option (List TimeRange)) (cmpFunc : CmpFunc) : Bool :=
  match rl with
  | none => true
  | some rl => rl.any fun r => inRange tm r cmpFunc

/-! ## Entries -/

/-- A `CA_Type` element: an entry of a parsed `year` or `week` specification. -/
structure CalendarEntry where
  ydayRangeList : Option (List TimeRange)
  wdayRangeList : Option (List TimeRange)
  daytimeRangeList : Option (List TimeRange)
  state : ℕ
deriving DecidableEq, Repr

def CalendarEntry.coversYear (ca : CalendarEntry) (tm : Tm) : Bool :=
  inRangeList tm ca.ydayRangeList tmYdayCmp &&
    inRangeList tm ca.daytimeRangeList tmDaytimeCmp

def CalendarEntry.coversWeek (ca : CalendarEntry) (tm : Tm) : Bool :=
  inRangeList tm ca.wdayRangeList tmWdayCmp &&
    inRangeList tm ca.daytimeRangeList tmDaytimeCmp

/-! ## The comparison of daytimes -/

/-- The fields of a time of day are in their ranges; 24 o'clock is one. -/
def IsDaytime (tm : Tm) : Prop :=
  0 ≤ tm.hour ∧ 0 ≤ tm.min ∧ tm.min < 60 ∧ 0 ≤ tm.sec ∧ tm.sec < 60 ∧
    tm.daySeconds ≤ secondsPerDay

variable {t1 t2 : Tm}

theorem tmDaytimeCmp_le_iff (h1 : IsDaytime t1) (h2 : IsDaytime t2) :
    tmDaytimeCmp t1 t2 ≤ 0 ↔ t1.daySeconds ≤ t2.daySeconds := by
  unfold IsDaytime at h1 h2
  unfold tmDaytimeCmp
  simp only [Tm.daySeconds] at *
  split_ifs <;> omega

theorem tmDaytimeCmp_pos_iff (h1 : IsDaytime t1) (h2 : IsDaytime t2) :
    0 < tmDaytimeCmp t1 t2 ↔ t2.daySeconds < t1.daySeconds := by
  rw [← not_le, tmDaytimeCmp_le_iff h1 h2, not_le]

theorem tmDaytimeCmp_swap_pos (t1 t2 : Tm) : 0 < tmDaytimeCmp t1 t2 ↔ tmDaytimeCmp t2 t1 < 0 := by
  unfold tmDaytimeCmp
  split_ifs <;> omega

theorem isDaytime_ofSeconds (zone t : ℤ) : IsDaytime (ofSeconds zone t) := by
  have h := daySeconds_bounds zone t
  refine ⟨?_, ?_, ?_, ?_, ?_, h.2.le⟩ <;>
    simp only [ofSeconds, secondsPerDay] <;> omega

end ClusterScheduler.Sgeobj.Calendar
