import ClusterScheduler.Sgeobj.CalendarInvariants
import ClusterScheduler.Sgeobj.CalendarStates

/-!
# What `state_at()` returns

The state of a calendar as its specification says it, and when `state_at()` returns it.

* `specifiedState` is the state the entries that cover a time specify.
* `isYearEntryActive_state` and `isWeekEntryActive_state`: an entry of the year is read as
  it stands at the time, one of the week may be read as it stands at the begin of the next
  day, when it rolls over.
* `stateAt_specified_iff` says when the states collected are the ones specified.
-/

namespace ClusterScheduler.Sgeobj.Calendar

open Foundation.CivilTime

/-! ## Limits of entries that are well formed -/

theorem nearestBegin_isNone (cmpFunc : CmpFunc) (admits : Tm → Bool) (rl : List TimeRange) :
    (nearestBegin cmpFunc admits rl).isNone = rl.all fun r => !admits r.tmrBegin := by
  have hfold : ∀ (rl : List TimeRange) (lep : Option Tm),
      (rl.foldl (fun lep r =>
        if admits r.tmrBegin && lep.all (fun l => 0 < cmpFunc l r.tmrBegin) then
          some r.tmrBegin else lep) lep).isNone =
        (lep.isNone && rl.all fun r => !admits r.tmrBegin) := by
    intro rl
    induction rl with
    | nil => simp
    | cons r rl ih =>
      intro lep
      rw [List.foldl_cons, ih, List.all_cons]
      cases lep with
      | none => cases admits r.tmrBegin <;> simp
      | some l =>
        cases admits r.tmrBegin
        · simp
        · simp only [Option.all_some, Bool.true_and]
          split <;> simp
  simpa [nearestBegin] using hfold rl none

theorem nearestBegin_mem {cmpFunc : CmpFunc} {admits : Tm → Bool} {rl : List TimeRange} {t : Tm}
    (h : nearestBegin cmpFunc admits rl = some t) :
    ∃ r ∈ rl, r.tmrBegin = t ∧ admits r.tmrBegin = true := by
  have hfold : ∀ (rl : List TimeRange) (lep : Option Tm),
      (rl.foldl (fun lep r =>
        if admits r.tmrBegin && lep.all (fun l => 0 < cmpFunc l r.tmrBegin) then
          some r.tmrBegin else lep) lep) = some t →
        lep = some t ∨ ∃ r ∈ rl, r.tmrBegin = t ∧ admits r.tmrBegin = true := by
    intro rl
    induction rl with
    | nil => exact fun lep h => .inl h
    | cons r rl ih =>
      intro lep h
      rw [List.foldl_cons] at h
      rcases ih _ h with h | ⟨q, hq, rfl, hadmits⟩
      · split at h
        · rename_i hr
          rw [Bool.and_eq_true] at hr
          exact .inr ⟨r, .head _, Option.some.inj h, hr.1⟩
        · exact .inl h
      · exact .inr ⟨q, List.mem_cons_of_mem r hq, rfl, hadmits⟩
  exact (hfold rl none h).resolve_left (by simp)

variable {tm : Tm}

/-- The daytimes of an entry that is well formed cover a time if one of the ranges has it
between its ends. -/
theorem inRange_daytime_iff {r : TimeRange} (htm : IsDaytime tm) (hr : DaytimeRangeOk r) :
    inRange tm r tmDaytimeCmp = true ↔
      r.tmrBegin.daySeconds ≤ tm.daySeconds ∧ tm.daySeconds ≤ r.endSeconds := by
  obtain ⟨hb, t, ht, htd, -⟩ := hr
  simp only [inRange, ht, TimeRange.endSeconds, Option.getD_some, Bool.and_eq_true,
    decide_eq_true_eq, tmDaytimeCmp_le_iff hb htm, tmDaytimeCmp_le_iff htm htd]

variable {dtrl : List TimeRange}

theorem isFullDay_isSome (h : DaytimesOk dtrl) : ∃ full, isFullDay dtrl = some full := by
  obtain ⟨hall, r, hr, -⟩ := h
  cases dtrl with
  | nil => simp at hr
  | cons q rest =>
    obtain ⟨-, t, ht, -⟩ := hall q (.head _)
    simp [isFullDay, ht]

theorem inRangeList_of_isFullDay (htm : IsDaytime tm)
    (h : DaytimesOk dtrl) (hfull : isFullDay dtrl = some true) :
    inRangeList tm (some dtrl) tmDaytimeCmp = true := by
  cases dtrl with
  | nil => simp [isFullDay] at hfull
  | cons q rest =>
    have hq := h.1 q (.head _)
    obtain ⟨-, t, ht, -⟩ := id hq
    simp only [isFullDay, List.head?_cons, ht, Option.bind_eq_bind, Option.bind_some,
      Option.some.injEq, Bool.and_eq_true, decide_eq_true_eq] at hfull
    rw [inRangeList, List.any_eq_true]
    refine ⟨q, .head _, (inRange_daytime_iff htm hq).mpr ?_⟩
    unfold IsDaytime at htm
    simp only [TimeRange.endSeconds, ht, Option.getD_some, Tm.daySeconds, secondsPerDay] at *
    omega

theorem covered_or_begin_of_second (htm : IsDaytime tm) (h : DaytimesOk dtrl)
    (hsec : tm.daySeconds = 1) (hnot : inRangeList tm (some dtrl) tmDaytimeCmp = false) :
    ∃ r ∈ dtrl, tmDaytimeCmp tm r.tmrBegin ≤ 0 := by
  obtain ⟨hall, r, hr, hpos⟩ := h
  refine ⟨r, hr, ?_⟩
  have hrok := hall r hr
  rw [tmDaytimeCmp_le_iff htm hrok.1]
  have hno : ¬ inRange tm r tmDaytimeCmp = true := by
    simp only [inRangeList, List.any_eq_false] at hnot
    exact hnot r hr
  rw [inRange_daytime_iff htm hrok] at hno
  omega

/-! ## The limit of one entry -/

def noBeginLeft (dtrl : List TimeRange) (tm : Tm) : Bool :=
  dtrl.all fun r => 0 < tmDaytimeCmp tm r.tmrBegin

def nextDaySecond (zone t : ℤ) : ℤ := dayStart zone (dayOf zone t + 1) + 1

theorem daySeconds_nextDaySecond (zone t : ℤ) :
    (ofSeconds zone (nextDaySecond zone t)).daySeconds = 1 :=
  daySeconds_ofSeconds_dayStart_add (by decide) (by decide)

/-- For an entry that is not active the end of the day is reached when no daytime begins. -/
theorem daytimeLimit_inactive_snd (zone : ℤ) (dtrl : List TimeRange) (tm : Tm) :
    (daytimeLimit zone false dtrl tm).2 = noBeginLeft dtrl tm := by
  have hnot : ∀ n : ℤ, (!decide (n ≤ 0)) = decide (0 < n) := fun n =>
    Bool.eq_iff_iff.mpr (by simp)
  have hnone := nearestBegin_isNone tmDaytimeCmp (fun b => decide (tmDaytimeCmp tm b ≤ 0)) dtrl
  simp only [hnot] at hnone
  simpa [daytimeLimit, noBeginLeft] using hnone

variable {zone : ℤ}

variable {t : ℤ}

/-- Then the limit is the end of the day, which the callers put one second forward. -/
theorem daytimeLimit_inactive_fst (h : noBeginLeft dtrl (ofSeconds zone t) = true) :
    (daytimeLimit zone false dtrl (ofSeconds zone t)).1 + 1 = nextDaySecond zone t := by
  have hnone := daytimeLimit_inactive_snd zone dtrl (ofSeconds zone t)
  rw [h] at hnone
  simp only [daytimeLimit, Bool.false_eq_true, if_false, Option.isNone_iff_eq_none] at hnone
  simp only [daytimeLimit, hnone, Bool.false_eq_true, if_false, Option.getD_none, if_true,
    toSeconds_setTime, nextDaySecond, dayStart, secondsPerDay]
  ring

/-- An active entry reaches no end of the day: the range it is in has an end. -/
theorem daytimeLimit_active_snd
    (h : DaytimesOk dtrl) (hin : inRangeList tm (some dtrl) tmDaytimeCmp = true) :
    (daytimeLimit zone true dtrl tm).2 = false := by
  have hsome : (dtrl.find? fun r => inRange tm r tmDaytimeCmp).isSome = true := by
    rw [List.find?_isSome]
    simpa [inRangeList] using hin
  obtain ⟨r, hr⟩ := Option.isSome_iff_exists.mp hsome
  obtain ⟨-, t, ht, -⟩ := h.1 r (List.mem_of_find?_eq_some hr)
  simp [daytimeLimit, hr, ht]

theorem noBeginLeft_midnight (h : DaytimesOk dtrl)
    (htm : AtMidnight tm) : noBeginLeft dtrl tm = false := by
  obtain ⟨hall, r, hr, -⟩ := h
  obtain ⟨hh, hm, hs⟩ := htm
  have hday : IsDaytime tm := by simp [IsDaytime, Tm.daySeconds, secondsPerDay, hh, hm, hs]
  have hle := (tmDaytimeCmp_le_iff hday (hall r hr).1).mpr (by
    have hrd := (hall r hr).1
    unfold IsDaytime at hrd
    simp only [Tm.daySeconds, hh, hm, hs] at *
    omega)
  unfold noBeginLeft
  rw [List.all_eq_false]
  exact ⟨r, hr, by simpa using hle⟩

/-- `compute_limit()` for an entry whose days contain the time or not. The two hypotheses
say that the branches for whole days and other days find what they look for. -/
theorem computeLimit_spec (zone t : ℤ) (inDays : Bool) (yearTime weekTime : Option (List TimeRange))
    (hone : yearTime.isSome ≠ weekTime.isSome) (hd : DaytimesOk dtrl) (hactive : inDays = true →
      ∀ full, ∃ d, activeLimitDay full yearTime weekTime (ofSeconds zone t) = some d)
    (hinactive : inDays = false →
      ∃ d, inactiveLimitDay yearTime weekTime (ofSeconds zone t) = some d ∧
        ∀ lep e, d = .day lep e → AtMidnight lep) :
    ∃ limit, computeLimit zone inDays
        (inDays && inRangeList (ofSeconds zone t) (some dtrl) tmDaytimeCmp) yearTime weekTime
        (some dtrl) (ofSeconds zone t) =
          some (limit, inDays && !inRangeList (ofSeconds zone t) (some dtrl) tmDaytimeCmp &&
            noBeginLeft dtrl (ofSeconds zone t)) ∧
      ((inDays && !inRangeList (ofSeconds zone t) (some dtrl) tmDaytimeCmp &&
          noBeginLeft dtrl (ofSeconds zone t)) = true → limit + 1 = nextDaySecond zone t) := by
  obtain ⟨full, hfull⟩ := isFullDay_isSome hd
  have hcover : full = true →
      inRangeList (ofSeconds zone t) (some dtrl) tmDaytimeCmp = true := fun h =>
    inRangeList_of_isFullDay (isDaytime_ofSeconds zone t) hd (h ▸ hfull)
  simp only [computeLimit, if_neg hone, hfull, Option.bind_some]
  cases hin : inDays with
  | false =>
    obtain ⟨d, hd', hmid⟩ := hinactive hin
    simp only [Bool.not_false, Bool.or_true, if_true, Bool.false_and, Bool.false_eq_true,
      if_false, hd', Option.map_some, false_implies, and_true]
    cases d with
    | always => exact ⟨_, rfl⟩
    | noEntry => exact ⟨_, rfl⟩
    | day lep e =>
      refine ⟨_, congrArg some (Prod.ext rfl ?_)⟩
      dsimp only
      split
      · rfl
      · rw [daytimeLimit_inactive_snd, noBeginLeft_midnight hd (hmid lep e rfl)]
  | true =>
    cases hrange : inRangeList (ofSeconds zone t) (some dtrl) tmDaytimeCmp with
    | true =>
      obtain ⟨d, hd'⟩ := hactive hin full
      simp only [Bool.not_true, Bool.and_true, Bool.and_false, Bool.or_false, if_true,
        Bool.false_and, Bool.false_eq_true, false_implies, and_true, hd', Option.map_some]
      cases full with
      | true => cases d <;> exact ⟨_, rfl⟩
      | false => exact ⟨_, congrArg some (Prod.ext rfl (daytimeLimit_active_snd hd hrange))⟩
    | false =>
      have hnf : full = false := by
        cases full with
        | true => rw [hcover rfl] at hrange; cases hrange
        | false => rfl
      subst hnf
      simp only [Bool.not_true, Bool.not_false, Bool.and_false, Bool.and_true, Bool.or_false,
        Bool.true_and, Bool.false_eq_true, if_false]
      exact ⟨_, congrArg some (Prod.ext rfl (daytimeLimit_inactive_snd zone dtrl _)),
        daytimeLimit_inactive_fst⟩

/-! ## The states of one entry -/

variable {full : Bool} {ydrl : List TimeRange}

theorem activeLimitDay_year (h : inRangeList tm (some ydrl) tmYdayCmp = true) :
    ∃ d, activeLimitDay full (some ydrl) none tm = some d := by
  have hsome : (ydrl.find? fun r => inRange tm r tmYdayCmp).isSome = true := by
    rw [List.find?_isSome]
    simpa [inRangeList] using h
  obtain ⟨r, hr⟩ := Option.isSome_iff_exists.mp hsome
  simp [activeLimitDay, hr]

variable {wdrl : List TimeRange}

theorem weekRangeEnd_isSome (full : Bool) (always : Bool)
    (h : inRangeList tm (some wdrl) tmWdayCmp = true) :
    ∃ lep, (weekRangeEnd full tm always wdrl).1 = some lep := by
  induction wdrl generalizing always with
  | nil => simp [inRangeList] at h
  | cons r rest ih =>
    unfold weekRangeEnd
    dsimp only
    split
    · exact ⟨_, rfl⟩
    · rename_i hr
      refine ih _ ?_
      simpa [inRangeList, hr] using h

theorem activeLimitDay_week (h : inRangeList tm (some wdrl) tmWdayCmp = true) :
    ∃ d, activeLimitDay full none (some wdrl) tm = some d := by
  obtain ⟨lep, hlep⟩ := weekRangeEnd_isSome full true h
  unfold activeLimitDay
  dsimp only
  split
  · exact ⟨_, rfl⟩
  · rename_i lep' heq
    rw [heq] at hlep
    cases hlep
    exact ⟨_, rfl⟩

theorem inactiveLimitDay_year (h : YearDaysOk ydrl) (tm : Tm) :
    ∃ d, inactiveLimitDay (some ydrl) none tm = some d ∧
      ∀ lep e, d = .day lep e → AtMidnight lep := by
  unfold inactiveLimitDay
  dsimp only
  split
  · rename_i lep hlep
    obtain ⟨r, hr, rfl, -⟩ := nearestBegin_mem hlep
    refine ⟨_, rfl, fun lep e heq => ?_⟩
    cases heq
    exact (h.2 r hr).1.1
  · exact ⟨_, rfl, by simp⟩

theorem inactiveLimitDay_week (h : WeekDaysOk wdrl) (tm : Tm) :
    ∃ d, inactiveLimitDay none (some wdrl) tm = some d ∧
      ∀ lep e, d = .day lep e → AtMidnight lep := by
  have hfirst : ∃ lep, nearestBegin tmWdayCmp (fun _ => true) wdrl = some lep := by
    rw [← Option.isSome_iff_exists, ← Option.not_isNone, nearestBegin_isNone]
    obtain ⟨r, hr⟩ := List.exists_mem_of_ne_nil wdrl h.1
    simp only [Bool.not_true, Bool.not_eq_true', List.all_eq_false]
    exact ⟨r, hr, by simp⟩
  have hmid : ∀ {admits : Tm → Bool} {lep : Tm},
      nearestBegin tmWdayCmp admits wdrl = some lep → AtMidnight lep := by
    intro admits lep hlep
    obtain ⟨r, hr, rfl, -⟩ := nearestBegin_mem hlep
    exact (h.2 r hr).1
  obtain ⟨first, hfirst⟩ := hfirst
  unfold inactiveLimitDay
  dsimp only
  split
  · rename_i lep hlep
    refine ⟨_, rfl, fun lep e heq => ?_⟩
    cases heq
    have := hmid hlep
    exact this
  · rw [hfirst]
    refine ⟨_, rfl, fun lep e heq => ?_⟩
    cases heq
    have := hmid hfirst
    exact this

theorem not_rolls_nextDaySecond (h : DaytimesOk dtrl) (b : Bool) :
    (b && !inRangeList (ofSeconds zone (nextDaySecond zone t)) (some dtrl) tmDaytimeCmp &&
      noBeginLeft dtrl (ofSeconds zone (nextDaySecond zone t))) = false := by
  cases hin : inRangeList (ofSeconds zone (nextDaySecond zone t)) (some dtrl) tmDaytimeCmp with
  | true => simp
  | false =>
    obtain ⟨r, hr, hle⟩ := covered_or_begin_of_second (isDaytime_ofSeconds zone _) h
      (daySeconds_nextDaySecond zone t) hin
    have hno : noBeginLeft dtrl (ofSeconds zone (nextDaySecond zone t)) = false := by
      rw [noBeginLeft, List.all_eq_false]
      exact ⟨r, hr, by simpa using hle⟩
    simp [hno]

def CalendarEntry.yearReading (ca : CalendarEntry) (tm : Tm) : ℕ :=
  if ca.coversYear tm then ca.state else qiDoNothing

variable {ca : CalendarEntry}

theorem computeLimit_year (h : YearEntryOk ca)
    (hdtrl : ca.daytimeRangeList = some dtrl) (hd : DaytimesOk dtrl) (zone t : ℤ) :
    ∃ limit rolls, computeLimit zone (inRangeList (ofSeconds zone t) ca.ydayRangeList tmYdayCmp)
        (inRangeList (ofSeconds zone t) ca.ydayRangeList tmYdayCmp &&
          inRangeList (ofSeconds zone t) ca.daytimeRangeList tmDaytimeCmp)
        ca.ydayRangeList none ca.daytimeRangeList (ofSeconds zone t) = some (limit, rolls) ∧
      (rolls = true → limit + 1 = nextDaySecond zone t ∧ ca.coversYear (ofSeconds zone t) = false ∧
        ∀ s, t ≠ nextDaySecond zone s) := by
  cases hy : ca.ydayRangeList with
  | none => exact ⟨0, false, by simp [computeLimit, hdtrl], by simp⟩
  | some ydrl =>
    obtain ⟨limit, hlimit, hroll⟩ := computeLimit_spec zone t
      (inRangeList (ofSeconds zone t) (some ydrl) tmYdayCmp) (some ydrl) none
        (by simp) hd (fun hin full => activeLimitDay_year hin)
      (fun _ => inactiveLimitDay_year (h.days ydrl hy) _)
    refine ⟨limit, _, by rw [hdtrl]; exact hlimit, fun hr => ⟨hroll hr, ?_, ?_⟩⟩
    · simp only [Bool.and_eq_true, Bool.not_eq_true'] at hr
      simp [CalendarEntry.coversYear, hdtrl, hr.1.2]
    · rintro s rfl
      rw [not_rolls_nextDaySecond hd] at hr
      cases hr

theorem isYearEntryActive_step (h : YearEntryOk ca) (zone t : ℤ) (fuel : ℕ) :
    (∃ limit, isYearEntryActive zone (fuel + 1) (ofSeconds zone t) ca =
        some (ca.yearReading (ofSeconds zone t), limit)) ∨
      (∀ s, t ≠ nextDaySecond zone s) ∧ ca.yearReading (ofSeconds zone t) = qiDoNothing ∧
        isYearEntryActive zone (fuel + 1) (ofSeconds zone t) ca =
          (isYearEntryActive zone fuel (ofSeconds zone (nextDaySecond zone t)) ca).map
            fun next => if next.1 ≠ qiDoNothing then (qiDoNothing, nextDaySecond zone t)
              else next := by
  obtain ⟨dtrl, hdtrl, hd⟩ := h.daytimes
  obtain ⟨limit, rolls, hlimit, hroll⟩ := computeLimit_year h hdtrl hd zone t
  have hstate : (if (inRangeList (ofSeconds zone t) ca.ydayRangeList tmYdayCmp &&
        (inRangeList (ofSeconds zone t) ca.ydayRangeList tmYdayCmp &&
          inRangeList (ofSeconds zone t) ca.daytimeRangeList tmDaytimeCmp)) = true then ca.state
      else if (inRangeList (ofSeconds zone t) ca.ydayRangeList tmYdayCmp &&
          inRangeList (ofSeconds zone t) ca.daytimeRangeList tmDaytimeCmp) = true then qiDoEnable
      else qiDoNothing) = ca.yearReading (ofSeconds zone t) := by
    unfold CalendarEntry.yearReading CalendarEntry.coversYear
    cases inRangeList (ofSeconds zone t) ca.ydayRangeList tmYdayCmp <;>
      cases inRangeList (ofSeconds zone t) ca.daytimeRangeList tmDaytimeCmp <;> simp
  simp only [isYearEntryActive, hlimit, Option.bind_some, hstate]
  cases rolls with
  | false => exact .inl ⟨limit, rfl⟩
  | true =>
    obtain ⟨hnext, hcovers, hne⟩ := hroll rfl
    have hread : ca.yearReading (ofSeconds zone t) = qiDoNothing := by
      simp [CalendarEntry.yearReading, hcovers]
    exact .inr ⟨hne, hread, by dsimp only; rw [hread, hnext]⟩

variable {fuel : ℕ}

/-- An entry of the year is read as it stands at the time. -/
theorem isYearEntryActive_state (h : YearEntryOk ca) (zone t : ℤ) (hfuel : 2 ≤ fuel) :
    ∃ limit, isYearEntryActive zone fuel (ofSeconds zone t) ca =
      some (ca.yearReading (ofSeconds zone t), limit) := by
  obtain ⟨fuel, rfl⟩ : ∃ n, fuel = n + 1 + 1 := ⟨fuel - 2, by omega⟩
  rcases isYearEntryActive_step h zone t (fuel + 1) with hstep | ⟨-, hread, hstep⟩
  · exact hstep
  · rcases isYearEntryActive_step h zone (nextDaySecond zone t) fuel with
      ⟨limit, hnext⟩ | ⟨hne, -⟩
    · rw [hstep, hnext, hread, Option.map_some]
      split
      · exact ⟨_, rfl⟩
      · rename_i hzero
        rw [not_not] at hzero
        exact ⟨limit, by rw [← hzero]⟩
    · exact absurd rfl (hne t)

/-- The entry of the week rolls over at the time: today is one of its days, the time is in
none of its daytimes, and none of them begins at the time or later today. -/
def CalendarEntry.rollsOver (ca : CalendarEntry) (tm : Tm) : Bool :=
  inRangeList tm ca.wdayRangeList tmWdayCmp &&
    !inRangeList tm ca.daytimeRangeList tmDaytimeCmp &&
    noBeginLeft (ca.daytimeRangeList.getD []) tm

def CalendarEntry.rollsInto (ca : CalendarEntry) (zone t : ℤ) : Bool :=
  ca.rollsOver (ofSeconds zone t) && ca.coversWeek (ofSeconds zone (nextDaySecond zone t))

def CalendarEntry.weekReading (ca : CalendarEntry) (zone t : ℤ) : ℕ :=
  if ca.coversWeek (ofSeconds zone t) || ca.rollsInto zone t then ca.state else qiDoNothing

theorem computeLimit_week (h : WeekEntryOk ca) (zone t : ℤ) :
    ∃ limit, computeLimit zone (inRangeList (ofSeconds zone t) ca.wdayRangeList tmWdayCmp)
        (inRangeList (ofSeconds zone t) ca.wdayRangeList tmWdayCmp &&
          inRangeList (ofSeconds zone t) ca.daytimeRangeList tmDaytimeCmp)
        none ca.wdayRangeList ca.daytimeRangeList (ofSeconds zone t) =
          some (limit, ca.rollsOver (ofSeconds zone t)) ∧
      (ca.rollsOver (ofSeconds zone t) = true → limit + 1 = nextDaySecond zone t) := by
  obtain ⟨dtrl, hdtrl, hd⟩ := h.daytimes
  obtain ⟨wdrl, hwdrl, hw⟩ := h.days
  obtain ⟨limit, hlimit, hroll⟩ := computeLimit_spec zone t
    (inRangeList (ofSeconds zone t) (some wdrl) tmWdayCmp) none (some wdrl) (by simp) hd
    (fun hin full => activeLimitDay_week hin) (fun _ => inactiveLimitDay_week hw _)
  have hrolls : ca.rollsOver (ofSeconds zone t) =
      (inRangeList (ofSeconds zone t) (some wdrl) tmWdayCmp &&
        !inRangeList (ofSeconds zone t) (some dtrl) tmDaytimeCmp &&
        noBeginLeft dtrl (ofSeconds zone t)) := by
    simp [CalendarEntry.rollsOver, hdtrl, hwdrl]
  rw [hrolls, hdtrl, hwdrl]
  exact ⟨limit, hlimit, hroll⟩

theorem not_rollsOver_nextDaySecond (h : WeekEntryOk ca) (zone t : ℤ) :
    ca.rollsOver (ofSeconds zone (nextDaySecond zone t)) = false := by
  obtain ⟨dtrl, hdtrl, hd⟩ := h.daytimes
  unfold CalendarEntry.rollsOver
  rw [hdtrl]
  exact not_rolls_nextDaySecond hd _

/-- An entry of the week is read as it stands at the time or, when it rolls over, as it
stands at the begin of the next day. -/
theorem isWeekEntryActive_state (h : WeekEntryOk ca) (zone t : ℤ) (hfuel : 2 ≤ fuel) :
    ∃ limit nextState, isWeekEntryActive zone fuel (ofSeconds zone t) ca 0 =
      some (ca.weekReading zone t, limit, nextState) := by
  obtain ⟨fuel, rfl⟩ : ∃ n, fuel = n + 1 + 1 := ⟨fuel - 2, by omega⟩
  obtain ⟨limit, hlimit, hroll⟩ := computeLimit_week h zone t
  obtain ⟨limit', hlimit', -⟩ := computeLimit_week h zone (nextDaySecond zone t)
  rw [not_rollsOver_nextDaySecond h] at hlimit'
  unfold isWeekEntryActive
  dsimp only
  rw [hlimit, Option.bind_some]
  cases hr : ca.rollsOver (ofSeconds zone t) with
  | false =>
    refine ⟨_, _, congrArg some (Prod.ext ?_ rfl)⟩
    simp [CalendarEntry.weekReading, CalendarEntry.rollsInto, CalendarEntry.coversWeek, hr]
  | true =>
    have hnot : ca.coversWeek (ofSeconds zone t) = false := by
      simp only [CalendarEntry.rollsOver, Bool.and_eq_true, Bool.not_eq_true'] at hr
      simp [CalendarEntry.coversWeek, hr.1.2]
    dsimp only
    rw [hroll hr, if_pos (by decide)]
    unfold isWeekEntryActive
    dsimp only
    rw [hlimit', Option.bind_some]
    refine ⟨_, _, congrArg some (Prod.ext ?_ rfl)⟩
    rw [CalendarEntry.coversWeek] at hnot
    simp [CalendarEntry.weekReading, CalendarEntry.rollsInto, CalendarEntry.coversWeek, hr, hnot]

/-! ## The states collected -/

theorem or_and_ne_zero (a b c : ℕ) : (a ||| b) &&& c ≠ 0 ↔ a &&& c ≠ 0 ∨ b &&& c ≠ 0 := by
  rw [Nat.and_or_distrib_right, ne_eq, Nat.or_eq_zero_iff]
  tauto

variable {b : ℕ}

variable {s : ℕ}

theorem IsState.and_ne_zero (hs : IsState s) (hb : IsState b) : s &&& b ≠ 0 ↔ s = b := by
  rcases hs with rfl | rfl | rfl <;> rcases hb with rfl | rfl | rfl <;> decide

theorem IsState.ne_nothing (hs : IsState s) : s ≠ qiDoNothing := by
  rcases hs with rfl | rfl | rfl <;> decide

/-- The states of the entries `reads` takes for active, or-ed to `state`. -/
def collectStates (reads : CalendarEntry → Bool) (state : ℕ) (cal : List CalendarEntry) : ℕ :=
  cal.foldl (fun m ca => m ||| if reads ca then ca.state else qiDoNothing) state

/-- The states of the entries `reads` takes for active. -/
def statesOf (reads : CalendarEntry → Bool) (cal : List CalendarEntry) : List ℕ :=
  (cal.filter reads).map CalendarEntry.state

variable {reads : CalendarEntry → Bool} {cal : List CalendarEntry}

theorem mem_statesOf : b ∈ statesOf reads cal ↔ ∃ ca ∈ cal, reads ca = true ∧ ca.state = b := by
  simp [statesOf, and_assoc]

theorem collectStates_and_ne_zero (hcal : ∀ ca ∈ cal, IsState ca.state) (hb : IsState b) (m : ℕ) :
    collectStates reads m cal &&& b ≠ 0 ↔ m &&& b ≠ 0 ∨ b ∈ statesOf reads cal := by
  induction cal generalizing m with
  | nil => simp [collectStates, statesOf]
  | cons ca cal ih =>
    have hca := (hcal ca (.head _)).and_ne_zero hb
    have := ih (fun c hc => hcal c (List.mem_cons_of_mem ca hc))
      (m ||| if reads ca then ca.state else qiDoNothing)
    rw [collectStates, List.foldl_cons, ← collectStates, this, or_and_ne_zero]
    cases hr : reads ca with
    | false => simp [statesOf, hr, qiDoNothing]
    | true =>
      simp only [if_true, hca, statesOf, List.filter_cons_of_pos hr, List.map_cons, List.mem_cons]
      tauto

theorem collectStates_eq_nothing (hcal : ∀ ca ∈ cal, IsState ca.state) (m : ℕ) :
    collectStates reads m cal = qiDoNothing ↔ m = qiDoNothing ∧ statesOf reads cal = [] := by
  induction cal generalizing m with
  | nil => simp [collectStates, statesOf]
  | cons ca cal ih =>
    have hca := (hcal ca (.head _)).ne_nothing
    have := ih (fun c hc => hcal c (List.mem_cons_of_mem ca hc))
      (m ||| if reads ca then ca.state else qiDoNothing)
    rw [collectStates, List.foldl_cons, ← collectStates, this]
    unfold qiDoNothing at *
    rw [Nat.or_eq_zero_iff]
    cases hr : reads ca with
    | false => simp [statesOf, hr]
    | true => simp [statesOf, hr, hca]

/-! ## The loop over the entries of the year -/

theorem yearTurn_state (h : YearEntryOk ca) (zone now : ℤ) (hfuel : 2 ≤ fuel) (s : ℕ × ℤ) :
    ∃ next, yearTurn zone fuel (ofSeconds zone now) s ca =
      some (s.1 ||| ca.yearReading (ofSeconds zone now), next) := by
  obtain ⟨limit, hlimit⟩ := isYearEntryActive_state h zone now hfuel
  rw [yearTurn, hlimit, Option.map_some]
  dsimp only
  split
  · exact ⟨_, rfl⟩
  · rename_i hsame
    push Not at hsame
    rw [← hsame.1, Nat.or_self]
    exact ⟨_, rfl⟩

variable {ycal : List CalendarEntry}

theorem yearFold_state (h : ∀ ca ∈ ycal, YearEntryOk ca)
    (zone now : ℤ) (hfuel : 2 ≤ fuel) (s : ℕ × ℤ) :
    ∃ next, ycal.foldlM (yearTurn zone fuel (ofSeconds zone now)) s =
      some (collectStates (·.coversYear (ofSeconds zone now)) s.1 ycal, next) := by
  induction ycal generalizing s with
  | nil => exact ⟨s.2, rfl⟩
  | cons ca ycal ih =>
    obtain ⟨next, hturn⟩ := yearTurn_state (h ca (.head _)) zone now hfuel s
    rw [List.foldlM_cons, hturn]
    exact ih (fun c hc => h c (List.mem_cons_of_mem ca hc)) _

/-! ## The loop over the entries of the week -/

/-- No entry overlaps in the loop over the entries of the week that starts with `s`. -/
def overlapFree (zone : ℤ) (fuel : ℕ) : WeekLoop → List CalendarEntry → Bool
  | _, [] => true
  | s, wc :: rest =>
    match isWeekEntryActive zone fuel s.tm wc 0 with
    | none => true
    | some (wIsActive, limit, nextState) =>
      let s := { s with state := s.state ||| wIsActive }
      !decide (s.Overlaps limit nextState) && overlapFree zone fuel (s.take limit nextState) rest

theorem WeekLoop.take_tm (s : WeekLoop) (limit : ℤ) (nextState : ℕ) :
    (s.take limit nextState).tm = s.tm ∧ (s.take limit nextState).state = s.state ∧
      (s.take limit nextState).isOverlapping = s.isOverlapping := by
  unfold WeekLoop.take
  split <;> simp

variable {wcal : List CalendarEntry}

theorem weekFor_state (h : ∀ ca ∈ wcal, WeekEntryOk ca)
    (zone now : ℤ) (hfuel : 2 ≤ fuel) (counter : ℕ) {s : WeekLoop}
    (htm : s.tm = ofSeconds zone now) (hfree : overlapFree zone fuel s wcal = true) :
    ∃ s', weekFor zone fuel counter s wcal = some s' ∧ s'.isOverlapping = s.isOverlapping ∧
      s'.state = collectStates
        (fun ca => ca.coversWeek (ofSeconds zone now) || ca.rollsInto zone now) s.state wcal := by
  induction wcal generalizing s counter with
  | nil => exact ⟨s, rfl, rfl, rfl⟩
  | cons wc rest ih =>
    obtain ⟨tm, state, temp, visited, overlapping⟩ := s
    obtain rfl : tm = ofSeconds zone now := htm
    obtain ⟨limit, nextState, hentry⟩ :=
      isWeekEntryActive_state (h wc (.head _)) zone now hfuel
    simp only [overlapFree, hentry, Bool.and_eq_true, Bool.not_eq_true',
      decide_eq_false_iff_not] at hfree
    obtain ⟨hno, hfree⟩ := hfree
    obtain ⟨htm', hstate', hover'⟩ := WeekLoop.take_tm
      ⟨ofSeconds zone now, state ||| wc.weekReading zone now, temp, visited, overlapping⟩
      limit nextState
    obtain ⟨s', hfor, hover, hs'⟩ := ih (fun c hc => h c (List.mem_cons_of_mem wc hc))
      (counter + 1) htm' hfree
    refine ⟨s', ?_, hover.trans hover', ?_⟩
    · rw [weekFor, weekTurn, hentry, Option.bind_some]
      dsimp only
      rw [if_neg hno]
      exact hfor
    · rw [hs', hstate']
      rfl

theorem weekState_state (h : ∀ ca ∈ wcal, WeekEntryOk ca)
    (zone now : ℤ) (hfuel : 2 ≤ fuel) (temp : ℤ)
    (hfree : overlapFree zone fuel (weekStart (ofSeconds zone now) temp wcal) wcal = true) :
    ∃ next, weekState zone fuel (ofSeconds zone now) temp wcal = some (collectStates
        (fun ca => ca.coversWeek (ofSeconds zone now) || ca.rollsInto zone now)
        qiDoNothing wcal, next) := by
  obtain ⟨s, hfor, hover, hs⟩ := weekFor_state h zone now hfuel 0 rfl hfree
  have hstart : { weekStart (ofSeconds zone now) temp wcal with isOverlapping := false }
      = weekStart (ofSeconds zone now) temp wcal := rfl
  rw [weekState, weekWhile, hstart, hfor, Option.bind_some, hover]
  exact ⟨s.tempNextEvent, by simp [weekStart, hs]⟩

/-! ## The state specified -/

def yearStates (tm : Tm) (ycal : List CalendarEntry) : List ℕ := statesOf (·.coversYear tm) ycal

def weekStates (tm : Tm) (wcal : List CalendarEntry) : List ℕ := statesOf (·.coversWeek tm) wcal

/-- The state for a set of states: enabled is stronger than suspended, which is stronger than
disabled, and without any the queue is enabled. -/
def strongest (states : List ℕ) : ℕ :=
  if states = [] ∨ qiDoEnable ∈ states then qiDoEnable
  else if qiDoSuspend ∈ states then qiDoSuspend
  else qiDoDisable

/-- What a calendar specifies for a time: the entries of the year that cover it or, when
there is none, those of the week. -/
def specifiedState (tm : Tm) (ycal wcal : List CalendarEntry) : ℕ :=
  strongest (if yearStates tm ycal = [] then weekStates tm wcal else yearStates tm ycal)

def StateAtSpecified (zone : ℤ) (fuel : ℕ) (now : ℤ) (ycal wcal : List CalendarEntry) : Prop :=
  ∃ next, stateAt zone fuel now ycal wcal =
    some (specifiedState (ofSeconds zone now) ycal wcal, next)

/-- The loop over the entries of the week is not reached, or meets no overlap. -/
def NoOverlap (zone : ℤ) (fuel : ℕ) (now : ℤ) (ycal wcal : List CalendarEntry) : Prop :=
  ∀ next, ycal.foldlM (yearTurn zone fuel (ofSeconds zone now)) (qiDoNothing, 0) =
      some (qiDoNothing, next) →
    overlapFree zone fuel (weekStart (ofSeconds zone now) next wcal) wcal = true

/-- The states of the entries of the week that roll over into a day that begins in one of
their daytimes. -/
def rolledStates (zone now : ℤ) (wcal : List CalendarEntry) : List ℕ :=
  statesOf (·.rollsInto zone now) wcal

/-- The entries that roll over do not count: an entry of the year covers the time, or an
entry of the week enables, or none covers it and nothing or an entry that enables rolls over,
or the entries that cover it are no weaker than those that roll over. -/
def RollsHarmless (zone now : ℤ) (ycal wcal : List CalendarEntry) : Prop :=
  let states := weekStates (ofSeconds zone now) wcal
  let rolled := rolledStates zone now wcal
  yearStates (ofSeconds zone now) ycal ≠ [] ∨ qiDoEnable ∈ states ∨
    states = [] ∧ (rolled = [] ∨ qiDoEnable ∈ rolled) ∨
    states ≠ [] ∧ qiDoEnable ∉ rolled ∧ (qiDoSuspend ∈ states ∨ qiDoSuspend ∉ rolled)

instance (zone now : ℤ) (ycal wcal : List CalendarEntry) :
    Decidable (RollsHarmless zone now ycal wcal) := by
  unfold RollsHarmless
  infer_instance

theorem strongestState_collectStates (hcal : ∀ ca ∈ cal, IsState ca.state) :
    strongestState (collectStates reads qiDoNothing cal) = strongest (statesOf reads cal) := by
  have hbit : ∀ {b : ℕ}, IsState b →
      (collectStates reads qiDoNothing cal &&& b ≠ 0 ↔ b ∈ statesOf reads cal) := by
    intro b hb
    rw [collectStates_and_ne_zero hcal hb]
    simp [qiDoNothing]
  have hstates : ∀ s ∈ statesOf reads cal, IsState s := by
    intro s hs
    obtain ⟨ca, hca, -, rfl⟩ := mem_statesOf.mp hs
    exact hcal ca hca
  have hnil : statesOf reads cal = [] ∨ qiDoEnable ∈ statesOf reads cal ∨
      qiDoSuspend ∈ statesOf reads cal ∨ qiDoDisable ∈ statesOf reads cal := by
    rcases List.eq_nil_or_concat (statesOf reads cal) with h | ⟨l, s, h⟩
    · exact .inl h
    · have hmem : s ∈ statesOf reads cal := by simp [h]
      rcases hstates s hmem with rfl | rfl | rfl <;> simp [hmem]
  simp only [strongestState, hbit (.inl rfl), hbit (.inr (.inl rfl)), hbit (.inr (.inr rfl))]
  unfold strongest
  split_ifs <;> simp_all

theorem stateAt_year (h : ∀ ca ∈ ycal, YearEntryOk ca) (zone now : ℤ) (hfuel : 2 ≤ fuel)
    (hyear : yearStates (ofSeconds zone now) ycal ≠ []) :
    StateAtSpecified zone fuel now ycal wcal := by
  obtain ⟨next, hfold⟩ := yearFold_state h zone now hfuel (qiDoNothing, 0)
  have hstate : ∀ ca ∈ ycal, IsState ca.state := fun ca hca => (h ca hca).state
  have hne : collectStates (·.coversYear (ofSeconds zone now)) qiDoNothing ycal ≠
      qiDoNothing := by
    rw [ne_eq, collectStates_eq_nothing hstate]
    exact fun hnil => hyear hnil.2
  refine ⟨next, ?_⟩
  rw [stateAt, hfold, Option.bind_some]
  dsimp only
  rw [if_neg hne, strongestState_collectStates hstate, specifiedState, if_neg hyear]
  rfl

theorem stateAt_week (hy : ∀ ca ∈ ycal, YearEntryOk ca) (hw : ∀ ca ∈ wcal, WeekEntryOk ca)
    (zone now : ℤ) (hfuel : 2 ≤ fuel) (hyear : yearStates (ofSeconds zone now) ycal = [])
    (hover : NoOverlap zone fuel now ycal wcal) :
    ∃ next, stateAt zone fuel now ycal wcal = some (strongest (statesOf
      (fun ca => ca.coversWeek (ofSeconds zone now) || ca.rollsInto zone now) wcal), next) := by
  obtain ⟨next, hfold⟩ := yearFold_state hy zone now hfuel (qiDoNothing, 0)
  have hstate : ∀ ca ∈ ycal, IsState ca.state := fun ca hca => (hy ca hca).state
  have hnone : collectStates (·.coversYear (ofSeconds zone now)) qiDoNothing ycal =
      qiDoNothing := (collectStates_eq_nothing hstate _).mpr ⟨rfl, hyear⟩
  rw [hnone] at hfold
  obtain ⟨next', hweek⟩ := weekState_state hw zone now hfuel next (hover next hfold)
  refine ⟨next', ?_⟩
  rw [stateAt, hfold, Option.bind_some]
  dsimp only
  rw [if_pos rfl, hweek, Option.map_some,
    strongestState_collectStates fun ca hca => (hw ca hca).state]

theorem strongest_rolled_iff (wcal : List CalendarEntry) (zone now : ℤ) :
    strongest (statesOf
        (fun ca => ca.coversWeek (ofSeconds zone now) || ca.rollsInto zone now) wcal) =
      strongest (weekStates (ofSeconds zone now) wcal) ↔ RollsHarmless zone now [] wcal := by
  have hmem : ∀ b, b ∈ statesOf
      (fun ca => ca.coversWeek (ofSeconds zone now) || ca.rollsInto zone now) wcal ↔
      b ∈ weekStates (ofSeconds zone now) wcal ∨ b ∈ rolledStates zone now wcal := by
    intro b
    simp only [weekStates, rolledStates, mem_statesOf, Bool.or_eq_true]
    constructor
    · rintro ⟨ca, hca, hc | hr, hb⟩
      · exact .inl ⟨ca, hca, hc, hb⟩
      · exact .inr ⟨ca, hca, hr, hb⟩
    · rintro (⟨ca, hca, hc, hb⟩ | ⟨ca, hca, hr, hb⟩)
      · exact ⟨ca, hca, .inl hc, hb⟩
      · exact ⟨ca, hca, .inr hr, hb⟩
  have hnil : statesOf
      (fun ca => ca.coversWeek (ofSeconds zone now) || ca.rollsInto zone now) wcal = [] ↔
      weekStates (ofSeconds zone now) wcal = [] ∧ rolledStates zone now wcal = [] := by
    simp only [List.eq_nil_iff_forall_not_mem, hmem]
    exact ⟨fun h => ⟨fun b hb => h b (.inl hb), fun b hb => h b (.inr hb)⟩,
      fun h b hb => hb.elim (h.1 b) (h.2 b)⟩
  have hne : qiDoEnable ≠ qiDoSuspend ∧ qiDoEnable ≠ qiDoDisable ∧
      qiDoSuspend ≠ qiDoDisable := by decide
  obtain ⟨hes, hed, hsd⟩ := hne
  have hyear : yearStates (ofSeconds zone now) [] = [] := rfl
  simp only [strongest, RollsHarmless, hmem, hnil, hyear, ne_eq, not_true_eq_false, false_or]
  generalize weekStates (ofSeconds zone now) wcal = states
  generalize rolledStates zone now wcal = rolled
  rcases states with _ | ⟨s, states⟩
  · rcases rolled with _ | ⟨r, rolled⟩
    · simp
    · by_cases he : qiDoEnable ∈ r :: rolled <;> by_cases hs : qiDoSuspend ∈ r :: rolled <;>
        simp [he, hs, hes.symm, hed.symm]
  · by_cases he : qiDoEnable ∈ s :: states <;> by_cases hs : qiDoSuspend ∈ s :: states <;>
      by_cases he' : qiDoEnable ∈ rolled <;> by_cases hs' : qiDoSuspend ∈ rolled <;>
        simp [he, hs, he', hs', hes, hed, hsd]

/-- **The state of a calendar.** As long as no entry overlaps in the loop over the entries of
the week, `state_at()` returns the state an accepted calendar specifies exactly if the
entries that roll over do not count. -/
theorem stateAt_specified_iff {year week : Option (List Char)} {ycal wcal : List CalendarEntry}
    (hyear : disabledYearList year = .ok ycal) (hweek : disabledWeekList week = .ok wcal)
    (zone now : ℤ) {fuel : ℕ} (hfuel : 2 ≤ fuel) (hover : NoOverlap zone fuel now ycal wcal) :
    StateAtSpecified zone fuel now ycal wcal ↔ RollsHarmless zone now ycal wcal := by
  have hy := disabledYearList_ok hyear
  have hw := disabledWeekList_ok hweek
  by_cases hnil : yearStates (ofSeconds zone now) ycal = []
  · obtain ⟨next, hstate⟩ := stateAt_week hy hw zone now hfuel hnil hover
    have hiff : RollsHarmless zone now ycal wcal ↔ RollsHarmless zone now [] wcal := by
      rw [RollsHarmless, RollsHarmless, hnil]
      rfl
    rw [hiff, ← strongest_rolled_iff, StateAtSpecified, hstate, specifiedState, if_pos hnil]
    simp
  · exact iff_of_true (stateAt_year hy zone now hfuel hnil) (.inl hnil)

/-- The entry `mon-fri=B-E=off`, for hours `B` and `E`. -/
def workdays (hourBegin hourEnd : ℤ) : CalendarEntry where
  ydayRangeList := none
  wdayRangeList := some [
    { tmrBegin := { emptyTm with wday := 1 }, tmrEnd := some { emptyTm with wday := 5 } }]
  daytimeRangeList := some [
    { tmrBegin := { emptyTm with hour := hourBegin }
      tmrEnd := some { emptyTm with hour := hourEnd } }]
  state := qiDoDisable

def mondayMorning : ℤ := 1704099600

theorem stateAt_specified_iff_office :
    disabledYearList (some "NONE".toList) = .ok [] ∧
      disabledWeekList (some "mon-fri=8-18".toList) = .ok [workdays 8 18] ∧
      (StateAtSpecified 0 2 mondayMorning [] [workdays 8 18] ↔
        RollsHarmless 0 mondayMorning [] [workdays 8 18]) ∧
      RollsHarmless 0 mondayMorning [] [workdays 8 18] := by
  have hyear : disabledYearList (some "NONE".toList) = .ok [] := by decide +kernel
  have hweek : disabledWeekList (some "mon-fri=8-18".toList) = .ok [workdays 8 18] := by
    decide +kernel
  have hover : NoOverlap 0 2 mondayMorning [] [workdays 8 18] := by
    intro next hnext
    obtain rfl : next = 0 := by simpa using hnext.symm
    decide +kernel
  exact ⟨hyear, hweek, stateAt_specified_iff hyear hweek 0 mondayMorning le_rfl hover,
    by decide +kernel⟩

/-- A calendar that is off from 0 to 8 o'clock on workdays is off on Monday at 9 o'clock. -/
theorem stateAt_rolled_over :
    disabledYearList (some "NONE".toList) = .ok [] ∧
      disabledWeekList (some "mon-fri=0-8".toList) = .ok [workdays 0 8] ∧
      specifiedState (ofSeconds 0 mondayMorning) [] [workdays 0 8] = qiDoEnable ∧
      (stateAt 0 2 mondayMorning [] [workdays 0 8]).map Prod.fst = some qiDoDisable ∧
      ¬ StateAtSpecified 0 2 mondayMorning [] [workdays 0 8] := by
  have hspec : specifiedState (ofSeconds 0 mondayMorning) [] [workdays 0 8] = qiDoEnable := by
    decide +kernel
  have hstate : (stateAt 0 2 mondayMorning [] [workdays 0 8]).map Prod.fst =
      some qiDoDisable := by decide +kernel
  refine ⟨by decide +kernel, by decide +kernel, hspec, hstate, ?_⟩
  rintro ⟨next, hnext⟩
  rw [hnext, hspec] at hstate
  exact absurd (Option.some.inj hstate) (show qiDoEnable ≠ qiDoDisable by decide)

end ClusterScheduler.Sgeobj.Calendar
