import ClusterScheduler.Sgeobj.CalendarStateAt

/-!
# The next change of a calendar

`state_at()` names the next change with the state.

* `ChangeFrom` says where a next change can lie: behind the time asked for, or at that very
  second when one of the daytimes ends with it.
* `isYearEntryActive_changeFrom` and `isWeekEntryActive_changeFrom` are about one entry.
* `weekWhile_ok` — the loop over the entries of the week ends.
* `stateAt_changeFrom` — so there is an answer, and where the next change lies.
-/

namespace ClusterScheduler.Sgeobj.Calendar

open Foundation.CivilTime

/-- There is no change, or it is later than second `t`, or it is second `t` in case `now`. -/
def ChangeFrom (t : ℤ) (now : Prop) (limit : ℤ) : Prop := limit = 0 ∨ t < limit ∨ limit = t ∧ now

variable {t limit : ℤ} {now : Prop}

variable {now' : Prop}

theorem ChangeFrom.mono (h : ChangeFrom t now limit)
    (himp : now → now') : ChangeFrom t now' limit :=
  h.imp_right (.imp_right (.imp_right himp))

variable {u : ℤ}

theorem ChangeFrom.of_later (h : ChangeFrom u now limit)
    (htu : t < u) : ChangeFrom t now' limit := by
  rcases h with h | h | ⟨h, -⟩
  · exact .inl h
  · exact .inr (.inl (htu.trans h))
  · exact .inr (.inl (h ▸ htu))

def CalendarEntry.endsDaytime (ca : CalendarEntry) (tm : Tm) : Bool :=
  (ca.daytimeRangeList.getD []).any fun r =>
    inRange tm r tmDaytimeCmp && r.endSeconds = tm.daySeconds

/-! ## Changes during a day -/

theorem toSeconds_daytime (zone : ℤ) (newNow : Tm) {time : Tm} (h : IsDaytime time) :
    (let endOfDay := time.hour = 24
      let time := if endOfDay then { time with hour := 23, min := 59, sec := 59 } else time
      toSeconds zone { newNow with hour := time.hour, min := time.min, sec := time.sec } +
        (if endOfDay then 1 else 0)) =
      dayStart zone (daysOfDate newNow.date) + time.daySeconds := by
  have hdate : ∀ hour min sec : ℤ,
      ({ newNow with hour, min, sec } : Tm).date = newNow.date := fun _ _ _ => rfl
  unfold IsDaytime at h
  simp only [toSeconds_eq_dayStart_add, hdate, Tm.daySeconds, secondsPerDay] at *
  split
  · dsimp only
    omega
  · omega

variable {dtrl : List TimeRange}

variable {tm : Tm}

theorem daytimeLimit_active_fst (zone : ℤ)
    (h : DaytimesOk dtrl) (hin : inRangeList tm (some dtrl) tmDaytimeCmp = true) :
    ∃ r ∈ dtrl, inRange tm r tmDaytimeCmp = true ∧
      (daytimeLimit zone true dtrl tm).1 = dayStart zone (daysOfDate tm.date) + r.endSeconds := by
  have hsome : (dtrl.find? fun r => inRange tm r tmDaytimeCmp).isSome = true := by
    rw [List.find?_isSome]
    simpa [inRangeList] using hin
  obtain ⟨r, hr⟩ := Option.isSome_iff_exists.mp hsome
  have hmem := List.mem_of_find?_eq_some hr
  obtain ⟨-, t, ht, htd, -⟩ := h.1 r hmem
  refine ⟨r, hmem, List.find?_some (p := fun r => inRange tm r tmDaytimeCmp) hr, ?_⟩
  have hseconds := toSeconds_daytime zone tm htd
  simp only [daytimeLimit, if_true, hr, Option.bind_some, ht, Option.getD_some,
    TimeRange.endSeconds]
  exact hseconds

theorem daytimeLimit_inactive_cases (zone : ℤ) (tm : Tm) (h : DaytimesOk dtrl) :
    ∃ sec, (daytimeLimit zone false dtrl tm).1 = dayStart zone (daysOfDate tm.date) + sec ∧
      (sec = secondsPerDay ∨
        ∃ r ∈ dtrl, tmDaytimeCmp tm r.tmrBegin ≤ 0 ∧ sec = r.tmrBegin.daySeconds) := by
  cases hlep : nearestBegin tmDaytimeCmp (fun t => tmDaytimeCmp tm t ≤ 0) dtrl with
  | none =>
    have hday : IsDaytime { tm with hour := 24, min := 0, sec := 0 } := by
      simp [IsDaytime, Tm.daySeconds, secondsPerDay]
    refine ⟨_, ?_, .inl rfl⟩
    have hseconds := toSeconds_daytime zone tm hday
    simp only [daytimeLimit, Bool.false_eq_true, if_false, hlep, Option.getD_none]
    exact hseconds
  | some lep =>
    obtain ⟨r, hr, rfl, hle⟩ := nearestBegin_mem hlep
    have hseconds := toSeconds_daytime zone tm (h.1 r hr).1
    refine ⟨_, ?_, .inr ⟨r, hr, of_decide_eq_true hle, rfl⟩⟩
    simp only [daytimeLimit, Bool.false_eq_true, if_false, hlep, Option.getD_some]
    exact hseconds

/-- A change is not in front of the day it is looked for in. -/
theorem dayStart_le_daytimeLimit (zone : ℤ) (tm : Tm) (h : DaytimesOk dtrl) :
    dayStart zone (daysOfDate tm.date) ≤ (daytimeLimit zone false dtrl tm).1 := by
  obtain ⟨sec, hsec, rfl | ⟨r, hr, -, rfl⟩⟩ := daytimeLimit_inactive_cases zone tm h
  · rw [hsec]
    exact le_add_of_nonneg_right (by decide)
  · have hday := (h.1 r hr).1
    unfold IsDaytime at hday
    simp only [Tm.daySeconds] at *
    omega

/-! ## The limit of an entry -/

variable {zone : ℤ} {lep : Tm}

theorem lt_toSeconds_lastSecond (hday : dayOf zone t ≤ daysOfDate lep.date)
    (hlep : lep.daySeconds = secondsPerDay - 1) : t < toSeconds zone lep + 1 := by
  have hlater := lt_dayStart zone (Int.lt_add_one_of_le hday)
  rw [toSeconds_eq_dayStart_add, hlep]
  simp only [dayStart, secondsPerDay] at *
  omega

/-- Outside the daytimes a begin that is today is later than the time, which no range that
begins at the time excludes. -/
theorem lt_daytimeLimit_inactive (hd : DaytimesOk dtrl)
    (hnot : inRangeList (ofSeconds zone t) (some dtrl) tmDaytimeCmp = false) :
    t < (daytimeLimit zone false dtrl (ofSeconds zone t)).1 := by
  have hnow := eq_dayStart_add zone t
  have htm := isDaytime_ofSeconds zone t
  obtain ⟨sec, hsec, hcases⟩ := daytimeLimit_inactive_cases zone (ofSeconds zone t) hd
  rw [hsec, date_ofSeconds, daysOfDate_dateOfDays]
  rcases hcases with rfl | ⟨r, hr, hle, rfl⟩
  · have hbound := (daySeconds_bounds zone t).2
    omega
  · have hrok := hd.1 r hr
    rw [tmDaytimeCmp_le_iff htm hrok.1] at hle
    have hout : ¬ inRange (ofSeconds zone t) r tmDaytimeCmp = true := by
      simp only [inRangeList, List.any_eq_false] at hnot
      exact hnot r hr
    rw [inRange_daytime_iff htm hrok] at hout
    obtain ⟨-, e, he, -, hbe⟩ := hrok
    simp only [TimeRange.endSeconds, he, Option.getD_some] at hout
    omega

variable {rolls : Bool}

theorem computeLimit_changeFrom {inDays : Bool} {yearTime weekTime : Option (List TimeRange)}
    (hd : DaytimesOk dtrl) (hactive : ∀ full lep e,
      activeLimitDay full yearTime weekTime (ofSeconds zone t) = some (.day lep e) →
        e = true ∧ lep.daySeconds = secondsPerDay - 1 ∧ dayOf zone t ≤ daysOfDate lep.date)
    (hinactive : ∀ lep e,
      inactiveLimitDay yearTime weekTime (ofSeconds zone t) = some (.day lep e) →
        e = false ∧ lep.daySeconds = 0 ∧ dayOf zone t < daysOfDate lep.date)
    (h : computeLimit zone inDays
      (inDays && inRangeList (ofSeconds zone t) (some dtrl) tmDaytimeCmp) yearTime weekTime
      (some dtrl) (ofSeconds zone t) = some (limit, rolls)) :
    ChangeFrom t (inDays = true ∧ ∃ r ∈ dtrl, inRange (ofSeconds zone t) r tmDaytimeCmp = true ∧
      r.endSeconds = (ofSeconds zone t).daySeconds) limit := by
  obtain ⟨full, hfull⟩ := isFullDay_isSome hd
  simp only [computeLimit, hfull, Option.bind_some] at h
  split at h
  · cases h
    exact .inl rfl
  cases hact : inDays && inRangeList (ofSeconds zone t) (some dtrl) tmDaytimeCmp with
  | true =>
    obtain ⟨rfl, hin⟩ := Bool.and_eq_true_iff.mp hact
    simp only [hin, Bool.and_self, Bool.not_true, Bool.or_false, if_true] at h
    cases full with
    | true =>
      -- whole days: the end of the last of them
      obtain ⟨d, hd', hlimit⟩ := Option.map_eq_some_iff.mp h
      cases d with
      | always => cases hlimit; exact .inl rfl
      | noEntry => cases hlimit; exact .inl rfl
      | day lep e =>
        obtain ⟨rfl, hlep, hle⟩ := hactive _ _ _ hd'
        cases hlimit
        exact .inr (.inl (lt_toSeconds_lastSecond hle hlep))
    | false =>
      -- the end of the daytime, which may be now
      obtain ⟨r, hr, hrin, hend⟩ := daytimeLimit_active_fst zone hd hin
      have hnow := eq_dayStart_add zone t
      have hge := ((inRange_daytime_iff (isDaytime_ofSeconds zone t) (hd.1 r hr)).mp hrin).2
      rw [date_ofSeconds, daysOfDate_dateOfDays] at hend
      obtain rfl : (daytimeLimit zone true dtrl (ofSeconds zone t)).1 = limit := by
        simpa using congrArg (fun o => o.map Prod.fst) h
      rw [hend]
      rcases hge.lt_or_eq with hlt | heq
      · exact .inr (.inl (by omega))
      · exact .inr (.inr ⟨by omega, rfl, r, hr, hrin, heq.symm⟩)
  | false =>
    simp only [hact, Bool.false_eq_true, if_false] at h
    split at h
    · -- the begin of another day, or of a daytime in it
      obtain ⟨d, hd', hlimit⟩ := Option.map_eq_some_iff.mp h
      cases d with
      | always => cases hlimit; exact .inl rfl
      | noEntry => cases hlimit; exact .inl rfl
      | day lep e =>
        obtain ⟨rfl, hlep, hlt⟩ := hinactive _ _ hd'
        have hlater := lt_dayStart zone hlt
        cases full with
        | true =>
          cases hlimit
          rw [toSeconds_eq_dayStart_add, hlep]
          exact .inr (.inl (by simpa using hlater))
        | false =>
          have hle := dayStart_le_daytimeLimit zone lep hd
          obtain rfl : (daytimeLimit zone false dtrl lep).1 = limit :=
            congrArg Prod.fst hlimit
          exact .inr (.inl (hlater.trans_le hle))
    · rename_i hrest
      obtain ⟨hfull', hin⟩ : full = false ∧ inDays = true := by simpa using hrest
      rw [hin, Bool.true_and] at hact
      obtain rfl : (daytimeLimit zone false dtrl (ofSeconds zone t)).1 = limit := by
        simpa using congrArg (fun o => o.map Prod.fst) h
      exact .inr (.inl (lt_daytimeLimit_inactive hd hact))

/-! ## The days of the limit -/

variable {t1 t2 : Tm}

theorem tmYdayCmp_cases (h : tmYdayCmp t1 t2 ≤ 0) : t1.date = t2.date ∨ t1.date.Before t2.date := by
  unfold tmYdayCmp at h
  simp only [Tm.date, Date.mk.injEq, Date.Before]
  split_ifs at h <;> omega

theorem not_tmYdayCmp_neg (h : t1.date = t2.date) : ¬ tmYdayCmp t1 t2 < 0 := by
  simp only [Tm.date, Date.mk.injEq] at h
  simp [tmYdayCmp, show t1.year = t2.year by omega, h.2]

variable {day : Tm}

/-- A day of the year that is not behind the time, by its fields, does not end before. -/
theorem dayOf_le_of_yday (hday : IsYearDay day)
    (h : tmYdayCmp (ofSeconds zone t) day ≤ 0) : dayOf zone t ≤ daysOfDate day.date := by
  have hdate : daysOfDate (ofSeconds zone t).date = dayOf zone t := by simp
  rcases tmYdayCmp_cases h with heq | hbefore
  · rw [← heq, hdate]
  · obtain ⟨-, -, -, h0, h12, h1, -⟩ := hday
    have hvalid : (ofSeconds zone t).date.Valid := by simpa using dateOfDays_valid _
    rw [← hdate]
    exact (daysOfDate_lt_of_before hvalid h0 h12 h1 hbefore).le

theorem dayOf_lt_of_yday (hday : IsYearDay day)
    (h : tmYdayCmp (ofSeconds zone t) day < 0) : dayOf zone t < daysOfDate day.date := by
  have hdate : daysOfDate (ofSeconds zone t).date = dayOf zone t := by simp
  rcases tmYdayCmp_cases h.le with heq | hbefore
  · exact absurd h (not_tmYdayCmp_neg heq)
  · obtain ⟨-, -, -, h0, h12, h1, -⟩ := hday
    have hvalid : (ofSeconds zone t).date.Valid := by simpa using dateOfDays_valid _
    rw [← hdate]
    exact daysOfDate_lt_of_before hvalid h0 h12 h1 hbefore

theorem daysOfDate_shift (zone t k : ℤ) (hyear : lep.year = (ofSeconds zone t).year)
    (hmon : lep.mon = (ofSeconds zone t).mon) (hmday : lep.mday = (ofSeconds zone t).mday + k) :
    daysOfDate lep.date = dayOf zone t + k := by
  have hlep : lep.date =
      { (ofSeconds zone t).date with mday := (ofSeconds zone t).date.mday + k } := by
    simp only [Tm.date, hyear, hmon, hmday]
  rw [hlep, daysOfDate_mday, date_ofSeconds, daysOfDate_dateOfDays]
  ring

theorem daySeconds_lastSecond (lep : Tm) :
    ({ lep with sec := 59, min := 59, hour := 23 } : Tm).daySeconds = secondsPerDay - 1 := rfl

variable {full e : Bool}

variable {ydrl : List TimeRange}

theorem activeLimitDay_year_day (hydrl : YearDaysOk ydrl)
    (h : activeLimitDay full (some ydrl) none (ofSeconds zone t) = some (.day lep e)) :
    e = true ∧ lep.daySeconds = secondsPerDay - 1 ∧ dayOf zone t ≤ daysOfDate lep.date := by
  obtain ⟨r, hr, hlep⟩ := Option.map_eq_some_iff.mp h
  cases hlep
  refine ⟨rfl, daySeconds_lastSecond _, ?_⟩
  change dayOf zone t ≤ daysOfDate (r.tmrEnd.getD r.tmrBegin).date
  obtain ⟨hbegin, hend⟩ := hydrl.2 r (List.mem_of_find?_eq_some hr)
  have hin := List.find?_some (p := fun r => inRange (ofSeconds zone t) r tmYdayCmp) hr
  simp only [inRange] at hin
  cases he : r.tmrEnd with
  | none =>
    simp only [he, decide_eq_true_eq] at hin
    have hle : tmYdayCmp (ofSeconds zone t) r.tmrBegin ≤ 0 := by
      unfold tmYdayCmp at *
      split_ifs at * <;> omega
    exact dayOf_le_of_yday hbegin hle
  | some day =>
    simp only [he, Bool.and_eq_true, decide_eq_true_eq] at hin
    exact dayOf_le_of_yday (hend day he).1 hin.2

theorem inactiveLimitDay_year_day (hydrl : YearDaysOk ydrl)
    (h : inactiveLimitDay (some ydrl) none (ofSeconds zone t) = some (.day lep e)) :
    e = false ∧ lep.daySeconds = 0 ∧ dayOf zone t < daysOfDate lep.date := by
  unfold inactiveLimitDay at h
  dsimp only at h
  split at h
  · rename_i day hday
    cases h
    obtain ⟨r, hr, rfl, hlater⟩ := nearestBegin_mem hday
    have hbegin := (hydrl.2 r hr).1
    obtain ⟨hh, hm, hs⟩ := hbegin.1
    refine ⟨rfl, by simp [Tm.daySeconds, hh, hm, hs], ?_⟩
    exact dayOf_lt_of_yday hbegin (of_decide_eq_true hlater)
  · cases h

variable {wdrl : List TimeRange}

theorem weekRangeEnd_shift {always : Bool} {now : Tm}
    (h : (weekRangeEnd full now always wdrl).1 = some lep) :
    ∃ k, 0 ≤ k ∧ lep = { now with mday := now.mday + k } := by
  induction wdrl generalizing always with
  | nil => cases h
  | cons r rest ih =>
    unfold weekRangeEnd at h
    dsimp only at h
    split at h
    · rename_i hin
      cases h
      refine ⟨_, ?_, rfl⟩
      unfold inRange tmWdayCmp at hin
      cases he : r.tmrEnd with
      | none =>
        simp only [he, decide_eq_true_eq] at hin
        rw [Option.getD_none]
        omega
      | some day =>
        simp only [he, Bool.and_eq_true, decide_eq_true_eq] at hin
        rw [Option.getD_some]
        omega
    · exact ih h

theorem activeLimitDay_week_day
    (h : activeLimitDay full none (some wdrl) (ofSeconds zone t) = some (.day lep e)) :
    e = true ∧ lep.daySeconds = secondsPerDay - 1 ∧ dayOf zone t ≤ daysOfDate lep.date := by
  unfold activeLimitDay at h
  dsimp only at h
  split at h
  · cases h
  · rename_i lep' hend
    obtain ⟨day, rfl, hlep⟩ := Option.map_eq_some_iff.mp h
    cases hlep
    obtain ⟨k, hk, rfl⟩ := weekRangeEnd_shift (congrArg Prod.fst hend)
    refine ⟨rfl, daySeconds_lastSecond _, ?_⟩
    rw [daysOfDate_shift zone t k]
    · exact le_add_of_nonneg_right hk
    all_goals rfl

theorem inactiveLimitDay_week_day (hwdrl : WeekDaysOk wdrl)
    (h : inactiveLimitDay none (some wdrl) (ofSeconds zone t) = some (.day lep e)) :
    e = false ∧ lep.daySeconds = 0 ∧ dayOf zone t < daysOfDate lep.date := by
  have hwday : (ofSeconds zone t).wday ≤ 6 := by
    rw [wday_ofSeconds, weekday]
    omega
  unfold inactiveLimitDay at h
  dsimp only at h
  split at h
  · rename_i day hday
    cases h
    obtain ⟨r, hr, rfl, hlater⟩ := nearestBegin_mem hday
    obtain ⟨⟨hh, hm, hs⟩, -, -⟩ := hwdrl.2 r hr
    refine ⟨rfl, by simp [Tm.daySeconds, hh, hm, hs], ?_⟩
    have hpos := of_decide_eq_true hlater
    unfold tmWdayCmp at hpos
    rw [daysOfDate_shift zone t (r.tmrBegin.wday - (ofSeconds zone t).wday)]
    · omega
    all_goals rfl
  · obtain ⟨day, hday, hlep⟩ := Option.map_eq_some_iff.mp h
    cases hlep
    obtain ⟨r, hr, rfl, -⟩ := nearestBegin_mem hday
    obtain ⟨⟨hh, hm, hs⟩, h0, -⟩ := hwdrl.2 r hr
    refine ⟨rfl, by simp [Tm.daySeconds, hh, hm, hs], ?_⟩
    rw [daysOfDate_shift zone t (7 - (ofSeconds zone t).wday + r.tmrBegin.wday)]
    · omega
    all_goals rfl

/-! ## The next change of one entry -/

theorem lt_nextDaySecond (zone t : ℤ) : t < nextDaySecond zone t :=
  (lt_dayStart zone (Int.lt_succ (dayOf zone t))).trans (Int.lt_succ _)

variable {ca : CalendarEntry}

/-- What `computeLimit_changeFrom` says about the daytimes, as a property of the entry. -/
theorem endsDaytime_of_range {r : TimeRange} (hdtrl : ca.daytimeRangeList = some dtrl)
    (hr : r ∈ dtrl) (hin : inRange tm r tmDaytimeCmp = true) (hend : r.endSeconds = tm.daySeconds) :
    inRangeList tm ca.daytimeRangeList tmDaytimeCmp = true ∧ ca.endsDaytime tm = true := by
  rw [CalendarEntry.endsDaytime, hdtrl]
  refine ⟨List.any_eq_true.mpr ⟨r, hr, hin⟩, List.any_eq_true.mpr ⟨r, hr, ?_⟩⟩
  simp [hin, hend]

theorem computeLimit_year_changeFrom (h : YearEntryOk ca)
    (hlimit : computeLimit zone (inRangeList (ofSeconds zone t) ca.ydayRangeList tmYdayCmp)
      (inRangeList (ofSeconds zone t) ca.ydayRangeList tmYdayCmp &&
        inRangeList (ofSeconds zone t) ca.daytimeRangeList tmDaytimeCmp)
      ca.ydayRangeList none ca.daytimeRangeList (ofSeconds zone t) = some (limit, rolls)) :
    ChangeFrom t (ca.coversYear (ofSeconds zone t) = true ∧
      ca.endsDaytime (ofSeconds zone t) = true) limit := by
  obtain ⟨dtrl, hdtrl, hd⟩ := h.daytimes
  cases hy : ca.ydayRangeList with
  | none =>
    rw [hy, hdtrl] at hlimit
    simp only [computeLimit, Option.isSome_none, if_true, Option.some.injEq,
      Prod.mk.injEq] at hlimit
    exact .inl hlimit.1.symm
  | some ydrl =>
    rw [hy, hdtrl] at hlimit
    have hdays := h.days ydrl hy
    refine (computeLimit_changeFrom hd (fun _ _ _ => activeLimitDay_year_day hdays)
      (fun _ _ => inactiveLimitDay_year_day hdays) hlimit).mono ?_
    rintro ⟨hday, r, hr, hin, hend⟩
    obtain ⟨hcovers, hends⟩ := endsDaytime_of_range hdtrl hr hin hend
    refine ⟨?_, hends⟩
    rw [CalendarEntry.coversYear, hy, hday, hcovers]
    rfl

theorem computeLimit_week_changeFrom (h : WeekEntryOk ca)
    (hlimit : computeLimit zone (inRangeList (ofSeconds zone t) ca.wdayRangeList tmWdayCmp)
      (inRangeList (ofSeconds zone t) ca.wdayRangeList tmWdayCmp &&
        inRangeList (ofSeconds zone t) ca.daytimeRangeList tmDaytimeCmp)
      none ca.wdayRangeList ca.daytimeRangeList (ofSeconds zone t) = some (limit, rolls)) :
    ChangeFrom t (ca.coversWeek (ofSeconds zone t) = true ∧
      ca.endsDaytime (ofSeconds zone t) = true) limit := by
  obtain ⟨dtrl, hdtrl, hd⟩ := h.daytimes
  obtain ⟨wdrl, hwdrl, hw⟩ := h.days
  rw [hwdrl, hdtrl] at hlimit
  refine (computeLimit_changeFrom hd (fun _ _ _ => activeLimitDay_week_day)
    (fun _ _ => inactiveLimitDay_week_day hw) hlimit).mono ?_
  rintro ⟨hday, r, hr, hin, hend⟩
  obtain ⟨hcovers, hends⟩ := endsDaytime_of_range hdtrl hr hin hend
  refine ⟨?_, hends⟩
  rw [CalendarEntry.coversWeek, hwdrl, hday, hcovers]
  rfl

variable {fuel : ℕ}

theorem isYearEntryActive_changeFrom (h : YearEntryOk ca) {r : ℕ × ℤ}
    (hr : isYearEntryActive zone fuel (ofSeconds zone t) ca = some r) :
    ChangeFrom t (ca.coversYear (ofSeconds zone t) = true ∧
      ca.endsDaytime (ofSeconds zone t) = true) r.2 := by
  induction fuel generalizing t r with
  | zero => cases hr
  | succ fuel ih =>
    obtain ⟨dtrl, hdtrl, hd⟩ := h.daytimes
    obtain ⟨limit, rolls, hlimit, hroll⟩ := computeLimit_year h hdtrl hd zone t
    unfold isYearEntryActive at hr
    dsimp only at hr
    rw [hlimit, Option.bind_some] at hr
    cases rolls with
    | false =>
      cases hr
      exact computeLimit_year_changeFrom h hlimit
    | true =>
      -- the entry is looked at again at the begin of the next day
      dsimp only at hr
      rw [(hroll rfl).1] at hr
      obtain ⟨next, hnext, rfl⟩ := Option.map_eq_some_iff.mp hr
      have hlater := lt_nextDaySecond zone t
      have hboth : ∀ state : ℕ, ChangeFrom t (ca.coversYear (ofSeconds zone t) = true ∧
          ca.endsDaytime (ofSeconds zone t) = true)
          (if next.1 ≠ state then (state, nextDaySecond zone t) else next).2 := by
        intro state
        by_cases hne : next.1 ≠ state
        · rw [if_pos hne]
          exact .inr (.inl hlater)
        · rw [if_neg hne]
          exact (ih hnext).of_later hlater
      exact hboth _

variable {r : ℕ × ℤ × ℕ}

theorem isWeekEntryActive_changeFrom (h : WeekEntryOk ca)
    (hr : isWeekEntryActive zone fuel (ofSeconds zone t) ca 0 = some r) :
    ChangeFrom t (ca.coversWeek (ofSeconds zone t) = true ∧
      ca.endsDaytime (ofSeconds zone t) = true) r.2.1 := by
  induction fuel generalizing t r with
  | zero => cases hr
  | succ fuel ih =>
    obtain ⟨limit, hlimit, hroll⟩ := computeLimit_week h zone t
    unfold isWeekEntryActive at hr
    dsimp only at hr
    rw [hlimit, Option.bind_some] at hr
    cases hrolls : ca.rollsOver (ofSeconds zone t) with
    | false =>
      rw [hrolls] at hr
      cases hr
      exact computeLimit_week_changeFrom h hlimit
    | true =>
      rw [hrolls] at hr
      dsimp only at hr
      rw [hroll hrolls, if_pos (by decide)] at hr
      obtain ⟨next, hnext, rfl⟩ := Option.map_eq_some_iff.mp hr
      exact (ih hnext).of_later (lt_nextDaySecond zone t)

/-! ## The loops over the entries -/

variable {s' : ℕ × ℤ}

theorem yearTurn_changeFrom {yc : CalendarEntry} (h : YearEntryOk yc) {s : ℕ × ℤ}
    (hs : ChangeFrom t now s.2)
    (hnow : yc.coversYear (ofSeconds zone t) = true → yc.endsDaytime (ofSeconds zone t) = true →
      now) (hturn : yearTurn zone fuel (ofSeconds zone t) s yc = some s') :
    ChangeFrom t now s'.2 := by
  obtain ⟨r, hr, rfl⟩ := Option.map_eq_some_iff.mp hturn
  have hlimit : ChangeFrom t now r.2 :=
    (isYearEntryActive_changeFrom h hr).mono fun hends => hnow hends.1 hends.2
  dsimp only
  split_ifs
  · exact hlimit
  · exact hs
  · exact hlimit
  · exact hs

variable {ycal : List CalendarEntry}

theorem yearFold_changeFrom (h : ∀ ca ∈ ycal, YearEntryOk ca) {s : ℕ × ℤ}
    (hs : ChangeFrom t now s.2) (hnow : ∀ ca ∈ ycal, ca.coversYear (ofSeconds zone t) = true →
      ca.endsDaytime (ofSeconds zone t) = true → now)
    (hfold : ycal.foldlM (yearTurn zone fuel (ofSeconds zone t)) s = some s') :
    ChangeFrom t now s'.2 := by
  induction ycal generalizing s with
  | nil =>
    cases hfold
    exact hs
  | cons yc ycal ih =>
    rw [List.forall_mem_cons] at h hnow
    rw [List.foldlM_cons] at hfold
    obtain ⟨s1, hturn, hrest⟩ := Option.bind_eq_some_iff.mp hfold
    exact ih h.2 (yearTurn_changeFrom h.1 hs hnow.1 hturn) hnow.2 hrest

/-- What holds of the variables of the loops over the entries of the week: the time never goes
back, and `n` is the number of entries not visited when the inner loop began. -/
structure WeekLoop.Ok (zone t : ℤ) (now : Prop) (n : ℕ) (s : WeekLoop) : Prop where
  time : ∃ u, t ≤ u ∧ s.tm = ofSeconds zone u
  change : ChangeFrom t now s.tempNextEvent
  unvisited : s.visited.count false ≤ n
  fewer : s.isOverlapping = true → s.visited.count false < n

variable {wc : CalendarEntry}

theorem weekLimit_changeFrom (h : WeekEntryOk wc) (htu : t ≤ u)
    (hnow : wc.coversWeek (ofSeconds zone t) = true → wc.endsDaytime (ofSeconds zone t) = true →
      now) (hr : isWeekEntryActive zone fuel (ofSeconds zone u) wc 0 = some r) :
    ChangeFrom t now r.2.1 := by
  have hlimit := isWeekEntryActive_changeFrom h hr
  rcases htu.eq_or_lt with rfl | hlt
  · exact hlimit.mono fun hends => hnow hends.1 hends.2
  · exact hlimit.of_later hlt

variable {n : ℕ} {s : WeekLoop}

theorem WeekLoop.Ok.take {nextState : ℕ}
    (hs : s.Ok zone t now n) (hlimit : ChangeFrom t now limit) :
    (s.take limit nextState).Ok zone t now n := by
  unfold WeekLoop.take
  split
  · exact ⟨hs.time, hlimit, hs.unvisited, hs.fewer⟩
  · exact hs

theorem WeekLoop.take_visited (s : WeekLoop) (limit : ℤ) (nextState : ℕ) :
    (s.take limit nextState).visited = s.visited := by
  unfold WeekLoop.take
  split <;> rfl

variable {counter : ℕ}

theorem count_false_set {visited : List Bool} (hlt : counter < visited.length)
    (hnot : visited.getD counter false = false) :
    (visited.set counter true).count false < visited.count false := by
  rw [List.getD_eq_getElem?_getD, List.getElem?_eq_getElem hlt, Option.getD_some] at hnot
  have hpos : 0 < visited.count false :=
    List.count_pos_iff.mpr (hnot ▸ List.getElem_mem hlt)
  rw [List.count_set hlt, hnot]
  simp only [beq_self_eq_true, if_true]
  exact Nat.sub_lt hpos Nat.one_pos

theorem weekTurn_ok (h : WeekEntryOk wc) (hfuel : 2 ≤ fuel) (hs : s.Ok zone t now n)
    (hnow : wc.coversWeek (ofSeconds zone t) = true → wc.endsDaytime (ofSeconds zone t) = true →
      now) (hcounter : counter < s.visited.length) :
    ∃ s' more, weekTurn zone fuel counter s wc = some (s', more) ∧ s'.Ok zone t now n ∧
      s'.visited.length = s.visited.length := by
  obtain ⟨u, htu, hu⟩ := hs.time
  obtain ⟨limit, nextState, hentry⟩ := isWeekEntryActive_state h zone u hfuel
  have hlimit := weekLimit_changeFrom h htu hnow hentry
  rw [weekTurn, hu, hentry, Option.bind_some]
  dsimp only at hlimit ⊢
  split
  · rename_i hover
    split
    · exact ⟨_, _, rfl, ⟨⟨u, htu, rfl⟩, .inl rfl, hs.unvisited, fun h => by cases h⟩, rfl⟩
    · -- the entry overlaps and is looked at again behind the next event
      rename_i hvisited
      have hlater : t ≤ s.tempNextEvent + 1 := by
        obtain ⟨hne, -, hle⟩ := hover
        rcases hlimit with h0 | hlt | ⟨heq, -⟩
        · exact absurd h0 hne
        · exact (hlt.le.trans hle).trans (Int.lt_succ _).le
        · exact (heq ▸ hle).trans (Int.lt_succ _).le
      obtain ⟨limit', nextState', hentry'⟩ :=
        isWeekEntryActive_state h zone (s.tempNextEvent + 1) hfuel
      have hlimit' := weekLimit_changeFrom h hlater hnow hentry'
      have hfewer := count_false_set hcounter (Bool.not_eq_true _ ▸ hvisited)
      rw [hentry', Option.map_some]
      refine ⟨_, _, rfl, WeekLoop.Ok.take ⟨⟨_, hlater, rfl⟩, .inl rfl, ?_, fun _ => ?_⟩ hlimit', ?_⟩
      · exact hfewer.le.trans hs.unvisited
      · exact hfewer.trans_le hs.unvisited
      · rw [WeekLoop.take_visited, List.length_set]
  · refine ⟨_, _, rfl, WeekLoop.Ok.take ?_ hlimit, ?_⟩
    · exact ⟨⟨u, htu, rfl⟩, hs.change, hs.unvisited, hs.fewer⟩
    · rw [WeekLoop.take_visited]

variable {wcal : List CalendarEntry}

theorem weekFor_ok (h : ∀ ca ∈ wcal, WeekEntryOk ca) (hfuel : 2 ≤ fuel) (hs : s.Ok zone t now n)
    (hnow : ∀ ca ∈ wcal, ca.coversWeek (ofSeconds zone t) = true →
      ca.endsDaytime (ofSeconds zone t) = true → now)
    (hcounter : counter + wcal.length ≤ s.visited.length) :
    ∃ s', weekFor zone fuel counter s wcal = some s' ∧ s'.Ok zone t now n ∧
      s'.visited.length = s.visited.length := by
  induction wcal generalizing s counter with
  | nil => exact ⟨s, rfl, hs, rfl⟩
  | cons wc rest ih =>
    rw [List.forall_mem_cons] at h hnow
    rw [List.length_cons] at hcounter
    obtain ⟨s1, more, hturn, hok, hlen⟩ :=
      weekTurn_ok h.1 hfuel hs hnow.1 (show counter < s.visited.length by omega)
    rw [weekFor, hturn, Option.bind_some]
    cases more with
    | false => exact ⟨s1, rfl, hok, hlen⟩
    | true =>
      have hroom : counter + 1 + rest.length ≤ s1.visited.length := by omega
      obtain ⟨s2, hrest, hok2, hlen2⟩ := ih h.2 hok hnow.2 hroom
      exact ⟨s2, hrest, hok2, hlen2.trans hlen⟩

/-- The outer loop ends: every turn but the last visits an entry. -/
theorem weekWhile_ok (h : ∀ ca ∈ wcal, WeekEntryOk ca) (hfuel : 2 ≤ fuel)
    (hnow : ∀ ca ∈ wcal, ca.coversWeek (ofSeconds zone t) = true →
      ca.endsDaytime (ofSeconds zone t) = true → now) {turns : ℕ}
    (htime : ∃ u, t ≤ u ∧ s.tm = ofSeconds zone u) (hchange : ChangeFrom t now s.tempNextEvent)
    (hlen : s.visited.length = wcal.length) (hturns : s.visited.count false < turns) :
    ∃ s', weekWhile zone fuel wcal turns s = some s' ∧ ChangeFrom t now s'.tempNextEvent := by
  induction turns generalizing s with
  | zero => exact absurd hturns (Nat.not_lt_zero _)
  | succ turns ih =>
    have hok : WeekLoop.Ok zone t now (s.visited.count false)
        { s with isOverlapping := false } :=
      ⟨htime, hchange, le_rfl, fun h => by cases h⟩
    have hroom : 0 + wcal.length ≤ s.visited.length := by omega
    obtain ⟨s1, hfor, hok1, hlen1⟩ := weekFor_ok h hfuel hok hnow hroom
    rw [weekWhile, hfor, Option.bind_some]
    split
    · rename_i hover
      have hfewer := hok1.fewer hover
      exact ih hok1.time hok1.change (hlen1.trans hlen) (by omega)
    · exact ⟨s1, rfl, hok1.change⟩

/-! ## The next change of the calendar -/

def DaytimeEnds (tm : Tm) (ycal wcal : List CalendarEntry) : Prop :=
  (∃ ca ∈ ycal, ca.coversYear tm = true ∧ ca.endsDaytime tm = true) ∨
    ∃ ca ∈ wcal, ca.coversWeek tm = true ∧ ca.endsDaytime tm = true

/-- **`state_at()` returns,** and the next change is later than the time, or a daytime ends at
the time. -/
theorem stateAt_changeFrom (hy : ∀ ca ∈ ycal, YearEntryOk ca)
    (hw : ∀ ca ∈ wcal, WeekEntryOk ca) (zone t : ℤ) (hfuel : 2 ≤ fuel) :
    ∃ state next, stateAt zone fuel t ycal wcal = some (state, next) ∧
      ChangeFrom t (DaytimeEnds (ofSeconds zone t) ycal wcal) next := by
  obtain ⟨next, hfold⟩ := yearFold_state hy zone t hfuel (qiDoNothing, 0)
  have hchange : ChangeFrom t (DaytimeEnds (ofSeconds zone t) ycal wcal) next :=
    yearFold_changeFrom hy (.inl rfl)
      (fun ca hca hcovers hends => .inl ⟨ca, hca, hcovers, hends⟩) hfold
  rw [stateAt, hfold, Option.bind_some]
  dsimp only
  split
  · have hlen : (weekStart (ofSeconds zone t) next wcal).visited.length = wcal.length :=
      List.length_map _
    have hturns : (weekStart (ofSeconds zone t) next wcal).visited.count false <
        wcal.length + 1 :=
      Nat.lt_succ_of_le (List.count_le_length.trans_eq hlen)
    have hnow : ∀ ca ∈ wcal, ca.coversWeek (ofSeconds zone t) = true →
        ca.endsDaytime (ofSeconds zone t) = true → DaytimeEnds (ofSeconds zone t) ycal wcal :=
      fun ca hca hcovers hends => .inr ⟨ca, hca, hcovers, hends⟩
    have htime : ∃ u, t ≤ u ∧ (weekStart (ofSeconds zone t) next wcal).tm = ofSeconds zone u :=
      ⟨t, le_rfl, rfl⟩
    obtain ⟨s, hwhile, hs⟩ := weekWhile_ok hw hfuel hnow htime hchange hlen hturns
    refine ⟨strongestState s.state, s.tempNextEvent, ?_, hs⟩
    rw [weekState, hwhile]
    rfl
  · exact ⟨_, _, rfl, hchange⟩

end ClusterScheduler.Sgeobj.Calendar
