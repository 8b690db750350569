import ClusterScheduler.Sgeobj.CalendarParser

/-!
# The state of a calendar

`state_at()`: the state of a calendar at a time, computed together with the time at which
it has to be looked at again.

* `computeLimit` is the next change of one entry, or the end of the day.
* `isYearEntryActive` and `isWeekEntryActive` look at the following day when the end of the
  day was reached. Their `fuel` bounds the calls; `none` is a call too many or an abort.
* `stateAt` combines the entries.

The local time is `zone` seconds ahead of the time the seconds are counted in.
-/

namespace ClusterScheduler.Sgeobj.Calendar

open Foundation.CivilTime

/-! ## The limit of an entry -/

/-- The nearest begin of a range among those `admits` lets in. -/
def nearestBegin (cmpFunc : CmpFunc) (admits : Tm → Bool) (rl : List TimeRange) : Option Tm :=
  rl.foldl (fun lep r =>
    if admits r.tmrBegin && lep.all (fun l => 0 < cmpFunc l r.tmrBegin) then some r.tmrBegin
    else lep) none

/-- What the first part of `compute_limit()` finds, for whole days and for a change that is
not today. -/
inductive LimitDay where
  /-- The entry holds the whole week: the function returns 0. -/
  | always
  /-- `is_new_cal_entry` is false: no change is ahead. -/
  | noEntry
  /-- The time in `lep`, and whether the day's last second is meant. -/
  | day (lep : Tm) (endOfDay : Bool)

/-- The end of the range of weekdays `now` lies in, and `is_allways_inactive`. -/
def weekRangeEnd (isFullDay : Bool) (now : Tm) : Bool → List TimeRange → Option Tm × Bool
  | always, [] => (none, always)
  | always, r :: rest =>
    let always := always && (isFullDay && r.tmrEnd.any fun t => t.wday - r.tmrBegin.wday = 6)
    if inRange now r tmWdayCmp then
      (some { now with mday := now.mday + ((r.tmrEnd.getD r.tmrBegin).wday - now.wday) }, always)
    else weekRangeEnd isFullDay now always rest

/-- The branches for an active entry. -/
def activeLimitDay (isFullDay : Bool) (yearTime weekTime : Option (List TimeRange)) (now : Tm) :
    Option LimitDay :=
  let lastSecond (lep : Tm) : LimitDay := .day { lep with sec := 59, min := 59, hour := 23 } true
  match yearTime, weekTime with
  | some yearTime, _ =>
    (yearTime.find? fun r => inRange now r tmYdayCmp).map fun r =>
      lastSecond (r.tmrEnd.getD r.tmrBegin)
  | none, some weekTime =>
    match weekRangeEnd isFullDay now true weekTime with
    | (_, true) => some .always
    | (lep, false) => lep.map lastSecond
  | none, none => none

/-- The branches for an inactive entry. -/
def inactiveLimitDay (yearTime weekTime : Option (List TimeRange)) (now : Tm) :
    Option LimitDay :=
  match yearTime, weekTime with
  | some yearTime, _ =>
    match nearestBegin tmYdayCmp (fun t => tmYdayCmp now t < 0) yearTime with
    | some lep => some (.day lep false)
    | none => some .noEntry
  | none, some weekTime =>
    match nearestBegin tmWdayCmp (fun t => tmWdayCmp now t < 0) weekTime with
    | some lep =>
      some (.day { lep with
        mday := now.mday + (lep.wday - now.wday), mon := now.mon, year := now.year } false)
    | none =>
      (nearestBegin tmWdayCmp (fun _ => true) weekTime).map fun lep =>
        .day { lep with
          mday := now.mday + ((7 - now.wday) + lep.wday), mon := now.mon, year := now.year } false
  | none, none => none

/-- The last part of `compute_limit()`: the change during the day of `newNow`, and
`is_end_of_day_reached`. -/
def daytimeLimit (zone : ℤ) (active : Bool) (dayTime : List TimeRange) (newNow : Tm) : ℤ × Bool :=
  let lep :=
    if active then (dayTime.find? fun r => inRange newNow r tmDaytimeCmp).bind (·.tmrEnd)
    else nearestBegin tmDaytimeCmp (fun t => tmDaytimeCmp newNow t ≤ 0) dayTime
  let time := lep.getD { newNow with hour := 24, min := 0, sec := 0 }
  let endOfDay := time.hour = 24
  let time := if endOfDay then { time with hour := 23, min := 59, sec := 59 } else time
  let tmLimit := { newNow with hour := time.hour, min := time.min, sec := time.sec }
  (toSeconds zone tmLimit + (if endOfDay then 1 else 0), lep.isNone)

/-- The first daytime range is the whole day. A range without an end aborts. -/
def isFullDay (dayTime : List TimeRange) : Option Bool := do
  let time ← dayTime.head?
  let tmEnd ← time.tmrEnd
  some (tmEnd.sec = 0 && tmEnd.min = 0 && tmEnd.hour = 24 &&
    time.tmrBegin.sec = 0 && time.tmrBegin.min = 0 && time.tmrBegin.hour = 0)

/-- `compute_limit()`: the limit and `is_end_of_day_reached`, which callers pass as
false. -/
def computeLimit (zone : ℤ) (today active : Bool)
    (yearTime weekTime dayTime : Option (List TimeRange)) (now : Tm) : Option (ℤ × Bool) :=
  match dayTime with
  | none => some (0, false)
  | some dayTime =>
    if yearTime.isSome = weekTime.isSome then some (0, false)
    else (isFullDay dayTime).bind fun full =>
      if full || !today then
        (if active then activeLimitDay full yearTime weekTime now
         else inactiveLimitDay yearTime weekTime now).map fun
          | .always => (0, false)
          | .noEntry => (0, false)
          | .day lep endOfDay =>
            if full then (toSeconds zone lep + (if endOfDay then 1 else 0), false)
            else daytimeLimit zone active dayTime lep
      else some (daytimeLimit zone active dayTime now)

/-! ## One entry -/

def isYearEntryActive (zone : ℤ) : ℕ → Tm → CalendarEntry → Option (ℕ × ℤ)
  | 0, _, _ => none
  | fuel + 1, tm, ca =>
    let inYdayRange := inRangeList tm ca.ydayRangeList tmYdayCmp
    let inDaytimeRange := inYdayRange && inRangeList tm ca.daytimeRangeList tmDaytimeCmp
    let state :=
      if inYdayRange && inDaytimeRange then ca.state
      else if inDaytimeRange then qiDoEnable else qiDoNothing
    (computeLimit zone inYdayRange inDaytimeRange ca.ydayRangeList none
      ca.daytimeRangeList tm).bind fun
      | (limit, false) => some (state, limit)
      | (limit, true) =>
        let nextDay := limit + 1
        (isYearEntryActive zone fuel (ofSeconds zone nextDay) ca).map fun next =>
          if next.1 ≠ state then (state, nextDay) else next

/-- `is_week_entry_active()`: the state, the limit and `next_state`. The recursive call gets
the old value of `rec_count`, which therefore never grows. -/
def isWeekEntryActive (zone : ℤ) :
    ℕ → Tm → CalendarEntry → (recCount : ℕ) → Option (ℕ × ℤ × ℕ)
  | 0, _, _, _ => none
  | fuel + 1, tm, ca, recCount =>
    let inWdayRange := inRangeList tm ca.wdayRangeList tmWdayCmp
    let inDaytimeRange := inWdayRange && inRangeList tm ca.daytimeRangeList tmDaytimeCmp
    let state := if inWdayRange && inDaytimeRange then ca.state else qiDoNothing
    let nextState := if inWdayRange && inDaytimeRange then qiDoNothing else ca.state
    let atLimit (state : ℕ) (limit : ℤ) (nextState : ℕ) : ℕ × ℤ × ℕ :=
      (state, limit, if limit = 0 then qiDoNothing else nextState)
    (computeLimit zone inWdayRange inDaytimeRange none ca.wdayRangeList
      ca.daytimeRangeList tm).bind fun
      | (limit, false) => some (atLimit state limit nextState)
      | (limit, true) =>
        let limit := limit + 1
        if recCount < 4 then
          (isWeekEntryActive zone fuel (ofSeconds zone limit) ca recCount).map
            fun (state, limit, nextState) => atLimit state limit nextState
        else some (atLimit state limit nextState)

/-! ## All entries -/

/-- One turn of the loop over the year entries, on the state and the next event. -/
def yearTurn (zone : ℤ) (fuel : ℕ) (tm : Tm) (s : ℕ × ℤ) (yc : CalendarEntry) :
    Option (ℕ × ℤ) :=
  (isYearEntryActive zone fuel tm yc).map fun (yIsActive, limit) =>
    if s.1 ≠ yIsActive ∨ s.1 = qiDoNothing then
      (s.1 ||| yIsActive, if s.2 = 0 ∨ limit ≠ 0 ∧ limit < s.2 then limit else s.2)
    else (s.1, if s.2 = 0 ∨ limit ≠ 0 ∧ s.2 < limit then limit else s.2)

/-- The variables of the loops over the week entries. -/
structure WeekLoop where
  tm : Tm
  state : ℕ
  tempNextEvent : ℤ
  visited : List Bool
  isOverlapping : Bool
deriving DecidableEq, Repr

/-- The end of a turn: the next event becomes the limit of the entry. -/
def WeekLoop.take (s : WeekLoop) (limit : ℤ) (nextState : ℕ) : WeekLoop :=
  if s.state ≠ nextState ∧ (s.tempNextEvent = 0 ∨ limit ≠ 0 ∧ limit < s.tempNextEvent) then
    { s with tempNextEvent := limit }
  else s

/-- The condition of the branch for overlapping ranges: the entry starts before the next
event without a change of the state. -/
def WeekLoop.Overlaps (s : WeekLoop) (limit : ℤ) (nextState : ℕ) : Prop :=
  limit ≠ 0 ∧ s.state = nextState ∧ limit ≤ s.tempNextEvent

instance (s : WeekLoop) (limit : ℤ) (nextState : ℕ) : Decidable (s.Overlaps limit nextState) :=
  inferInstanceAs (Decidable (_ ∧ _))

/-- One turn of the loop over the week entries; `false` is a `break`. An entry that
overlaps is looked at again behind the next event, and the time stays there. -/
def weekTurn (zone : ℤ) (fuel : ℕ) (counter : ℕ) (s : WeekLoop) (wc : CalendarEntry) :
    Option (WeekLoop × Bool) :=
  (isWeekEntryActive zone fuel s.tm wc 0).bind fun (wIsActive, limit, nextState) =>
    let s := { s with state := s.state ||| wIsActive }
    if s.Overlaps limit nextState then
      if s.visited.getD counter false then
        some ({ s with tempNextEvent := 0, isOverlapping := false }, false)
      else
        let tm := ofSeconds zone (s.tempNextEvent + 1)
        (isWeekEntryActive zone fuel tm wc 0).map fun (wIsActive, limit, nextState) =>
          let s := { s with
            tm, state := s.state ||| wIsActive, tempNextEvent := 0
            visited := s.visited.set counter true, isOverlapping := true }
          (s.take limit nextState, true)
    else some (s.take limit nextState, true)

/-- The loop over the week entries. -/
def weekFor (zone : ℤ) (fuel : ℕ) : ℕ → WeekLoop → List CalendarEntry → Option WeekLoop
  | _, s, [] => some s
  | counter, s, wc :: rest =>
    (weekTurn zone fuel counter s wc).bind fun
      | (s, true) => weekFor zone fuel (counter + 1) s rest
      | (s, false) => some s

/-- The loop around it, at most `turns` times. -/
def weekWhile (zone : ℤ) (fuel : ℕ) (wcal : List CalendarEntry) : ℕ → WeekLoop → Option WeekLoop
  | 0, _ => none
  | turns + 1, s =>
    (weekFor zone fuel 0 { s with isOverlapping := false } wcal).bind fun s =>
      if s.isOverlapping then weekWhile zone fuel wcal turns s else some s

/-- The variables before the loops. -/
def weekStart (tm : Tm) (tempNextEvent : ℤ) (wcal : List CalendarEntry) : WeekLoop where
  tm := tm
  state := qiDoNothing
  tempNextEvent := tempNextEvent
  visited := wcal.map fun _ => false
  isOverlapping := false

/-- The week part of `state_at()`. Every turn of the outer loop but the last marks an entry
as visited, so there are at most as many as entries, and one. -/
def weekState (zone : ℤ) (fuel : ℕ) (tm : Tm) (tempNextEvent : ℤ) (wcal : List CalendarEntry) :
    Option (ℕ × ℤ) :=
  (weekWhile zone fuel wcal (wcal.length + 1) (weekStart tm tempNextEvent wcal)).map fun s =>
    (s.state, s.tempNextEvent)

/-- The state returned for the states collected. -/
def strongestState (state : ℕ) : ℕ :=
  if state &&& qiDoEnable ≠ 0 then qiDoEnable
  else if state &&& qiDoSuspend ≠ 0 then qiDoSuspend
  else if state &&& qiDoDisable ≠ 0 then qiDoDisable
  else qiDoEnable

/-- `state_at()`: the state and the next event. -/
def stateAt (zone : ℤ) (fuel : ℕ) (now : ℤ) (ycal wcal : List CalendarEntry) :
    Option (ℕ × ℤ) :=
  let tm := ofSeconds zone now
  (ycal.foldlM (yearTurn zone fuel tm) (qiDoNothing, 0)).bind fun (state, tempNextEvent) =>
    if state = qiDoNothing then
      (weekState zone fuel tm tempNextEvent wcal).map fun (state, nextEvent) =>
        (strongestState state, nextEvent)
    else some (strongestState state, tempNextEvent)

end ClusterScheduler.Sgeobj.Calendar
