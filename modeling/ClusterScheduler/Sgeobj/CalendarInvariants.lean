import ClusterScheduler.Sgeobj.CalendarParser

/-!
# What the calendar parser accepts

Every entry of a specification that is accepted is well formed.

* `Yields P x` says that what the parser run `x` returns has property `P`.
* `DaytimesOk` holds for the daytimes of an entry: none is empty, and one ends later than
  the first second of a day.
* `YearEntryOk` and `WeekEntryOk` hold for the entries of `disabledYearList` and
  `disabledWeekList`.
-/

namespace ClusterScheduler.Sgeobj.Calendar

open Foundation.CivilTime

/-! ## Postconditions of parsers -/

/-- What `x` returns has property `P`. -/
def Yields {α : Type} (P : α → Prop) (x : Except ParseMessage (α × Scanner)) : Prop :=
  ∀ a sc, x = .ok (a, sc) → P a

theorem Yields.bind {α β : Type} {P : α → Prop} {Q : β → Prop}
    {x : Except ParseMessage (α × Scanner)} {f : α × Scanner → Except ParseMessage (β × Scanner)}
    (hx : Yields P x) (hf : ∀ a sc, P a → Yields Q (f (a, sc))) : Yields Q (x >>= f) := by
  intro b sc h
  cases hres : x with
  | error e => simp [hres, Bind.bind, Except.bind] at h
  | ok r =>
    obtain ⟨a, sc'⟩ := r
    rw [hres] at h
    exact hf a sc' (hx a sc' hres) b sc h

variable {sc : Scanner}

theorem Yields.ok {α : Type} {P : α → Prop} {a : α} (h : P a) : Yields P (.ok (a, sc)) := by
  rintro b sc' hb
  cases hb
  exact h

@[simp] theorem Yields.error {α : Type} {P : α → Prop} {e : ParseMessage} :
    Yields P (.error e) := by
  intro a sc h
  cases h

variable {ts : TokenSet} {fuel : ℕ}

theorem Yields.commaList {α : Type} {P : α → Prop} {Q : List α → Prop}
    {item : Scanner → Except ParseMessage (α × Scanner)} {add : List α → α → List α}
    (hitem : ∀ sc, Yields P (item sc)) (hadd : ∀ acc a, Q acc → P a → Q (add acc a)) {acc : List α}
    (hacc : Q acc) : Yields Q (commaList ts item add fuel acc sc) := by
  induction fuel generalizing acc sc with
  | zero => exact .ok hacc
  | succ fuel ih =>
    unfold Calendar.commaList
    split
    · exact (hitem _).bind fun a sc ha => ih (hadd acc a hacc ha)
    · exact .ok hacc

/-! ## Numbers and words -/

theorem yields_rangeNumber (ts : TokenSet) (min max : ℤ) (name : List Char) (sc : Scanner) :
    Yields (fun n => min ≤ n ∧ n ≤ max) (rangeNumber ts min max name sc) := by
  unfold rangeNumber
  split
  · split
    · exact .error
    · exact .ok (by omega)
  · exact .error

variable {s : List Char}

theorem cheapScan_mem {α : Type} {tokenv : List (α × List Char)} {a : α}
    (h : cheapScan s tokenv = some a) : ∃ text, (a, text) ∈ tokenv := by
  obtain ⟨e, he, rfl⟩ := Option.map_eq_some_iff.mp h
  exact ⟨e.2, List.mem_of_find?_eq_some he⟩

theorem cheapScan_monthv {m : ℤ} (h : cheapScan s monthv = some m) : 1 ≤ m ∧ m ≤ 12 := by
  obtain ⟨text, hmem⟩ := cheapScan_mem h
  have hall : ∀ e ∈ monthv, 1 ≤ e.1 ∧ e.1 ≤ 12 := by decide
  exact hall _ hmem

theorem cheapScan_weekdayv {wday : ℤ}
    (h : cheapScan s weekdayv = some wday) : 0 ≤ wday ∧ wday ≤ 6 := by
  obtain ⟨text, hmem⟩ := cheapScan_mem h
  have hall : ∀ e ∈ weekdayv, 0 ≤ e.1 ∧ e.1 ≤ 6 := by decide
  exact hall _ hmem

/-- The states an entry can have. -/
def IsState (state : ℕ) : Prop :=
  state = qiDoEnable ∨ state = qiDoSuspend ∨ state = qiDoDisable

theorem yields_action (ts : TokenSet) (sc : Scanner) : Yields IsState (action ts sc) := by
  unfold action
  split
  · split
    · rename_i state h
      obtain ⟨text, hmem⟩ := cheapScan_mem h
      have hall : ∀ e ∈ statev,
          e.1 = qiDoEnable ∨ e.1 = qiDoSuspend ∨ e.1 = qiDoDisable := by decide
      exact .ok (hall _ hmem)
    · exact .error
  · exact .error

theorem yields_month (ts : TokenSet) (sc : Scanner) :
    Yields (fun m => 0 ≤ m ∧ m < 12) (month ts sc) := by
  unfold month
  split
  · split
    · rename_i m h
      have := cheapScan_monthv h
      exact .ok (by omega)
    · exact .error
  · exact (yields_rangeNumber ts 1 12 _ sc).bind fun m sc hm => .ok (by omega)

/-! ## Days -/

/-- A time at the begin of its day, as the parsers of days make them. -/
def AtMidnight (tm : Tm) : Prop := tm.hour = 0 ∧ tm.min = 0 ∧ tm.sec = 0

def IsYearDay (tm : Tm) : Prop :=
  AtMidnight tm ∧ 70 ≤ tm.year ∧ tm.year ≤ 137 ∧ 0 ≤ tm.mon ∧ tm.mon < 12 ∧
    1 ≤ tm.mday ∧ tm.mday ≤ 31

theorem yields_yearDay (ts : TokenSet) (sc : Scanner) : Yields IsYearDay (yearDay ts sc) := by
  unfold yearDay
  refine (yields_rangeNumber ts 1 31 _ sc).bind fun d sc hd => ?_
  dsimp only
  split
  · refine (yields_month ts _).bind fun m sc hm => ?_
    dsimp only
    split
    · refine (yields_rangeNumber ts 1970 2037 _ _).bind fun y sc hy => ?_
      exact .ok ⟨⟨rfl, rfl, rfl⟩, by simp; omega, by simp; omega, hm.1, hm.2, hd.1, hd.2⟩
    · exact .error
  · exact .error

/-- A range of days of the year; the first day is not behind the last. -/
def YearRangeOk (r : TimeRange) : Prop :=
  IsYearDay r.tmrBegin ∧ ∀ t ∈ r.tmrEnd, IsYearDay t ∧ tmYdayCmp r.tmrBegin t ≤ 0

theorem yields_yearDayRange (ts : TokenSet) (sc : Scanner) :
    Yields YearRangeOk (yearDayRange ts sc) := by
  unfold yearDayRange
  refine (yields_yearDay ts sc).bind fun t1 sc h1 => ?_
  dsimp only
  split
  · refine (yields_yearDay ts _).bind fun t2 sc h2 => ?_
    dsimp only
    split
    · exact .error
    · rename_i hcmp
      exact .ok ⟨h1, by rintro t ⟨⟩; exact ⟨h2, not_lt.mp hcmp⟩⟩
  · exact .ok ⟨h1, by simp⟩

def YearDaysOk (ydrl : List TimeRange) : Prop := ydrl ≠ [] ∧ ∀ r ∈ ydrl, YearRangeOk r

theorem yields_yearDayRangeList (ts : TokenSet) (sc : Scanner) :
    Yields YearDaysOk (yearDayRangeList ts sc) := by
  unfold yearDayRangeList
  refine (yields_yearDayRange ts sc).bind fun r sc hr => ?_
  refine Yields.commaList (yields_yearDayRange ts) ?_ ⟨by simp, by simpa using hr⟩
  rintro acc a ⟨-, hacc⟩ ha
  refine ⟨by simp, fun r hr => ?_⟩
  rcases List.mem_append.mp hr with h | h
  · exact hacc r h
  · exact List.mem_singleton.mp h ▸ ha

/-! ## Daytimes -/

theorem yields_daytime (ts : TokenSet) (sc : Scanner) : Yields IsDaytime (daytime ts sc) := by
  unfold daytime
  refine (yields_rangeNumber ts 0 24 _ sc).bind fun h sc hh => ?_
  dsimp only
  have hfields : Yields (fun ms : ℤ × ℤ => 0 ≤ ms.1 ∧ ms.1 ≤ 59 ∧ 0 ≤ ms.2 ∧ ms.2 ≤ 59)
      (daytimeFields ts sc) := by
    unfold daytimeFields
    split
    · refine (yields_rangeNumber ts 0 59 _ _).bind fun m sc hm => ?_
      dsimp only
      split
      · refine (yields_rangeNumber ts 0 59 _ _).bind fun s sc hs => ?_
        exact .ok ⟨hm.1, hm.2, hs.1, hs.2⟩
      · exact .ok ⟨hm.1, hm.2, le_rfl, by norm_num⟩
    · exact .ok (by decide)
  refine hfields.bind fun ms sc hms => ?_
  dsimp only
  split
  · exact .error
  · refine .ok ?_
    simp only [IsDaytime, Tm.daySeconds, secondsPerDay]
    omega

def DaytimeRangeOk (r : TimeRange) : Prop :=
  IsDaytime r.tmrBegin ∧
    ∃ t, r.tmrEnd = some t ∧ IsDaytime t ∧ r.tmrBegin.daySeconds ≤ t.daySeconds

def TimeRange.endSeconds (r : TimeRange) : ℤ := (r.tmrEnd.getD r.tmrBegin).daySeconds

/-- The daytimes of an entry: ranges in order, one of which ends behind the first second of
the day. -/
def DaytimesOk (dtrl : List TimeRange) : Prop :=
  (∀ r ∈ dtrl, DaytimeRangeOk r) ∧ ∃ r ∈ dtrl, 0 < r.endSeconds

theorem DaytimesOk.append {a b : List TimeRange} (ha : DaytimesOk a)
    (hb : ∀ r ∈ b, DaytimeRangeOk r) : DaytimesOk (a ++ b) := by
  obtain ⟨hall, r, hr, hpos⟩ := ha
  refine ⟨fun q hq => ?_, r, List.mem_append_left _ hr, hpos⟩
  rcases List.mem_append.mp hq with h | h
  · exact hall q h
  · exact hb q h

/-- A range as `daytime_range()` reads it: the end may be in front of the begin. -/
def DaytimeRangeRead (r : TimeRange) : Prop :=
  IsDaytime r.tmrBegin ∧ ∃ t, r.tmrEnd = some t ∧ IsDaytime t ∧ tmDaytimeCmp r.tmrBegin t ≠ 0

theorem yields_daytimeRange (ts : TokenSet) (sc : Scanner) :
    Yields DaytimeRangeRead (daytimeRange ts sc) := by
  unfold daytimeRange
  refine (yields_daytime ts sc).bind fun t1 sc h1 => ?_
  dsimp only
  split
  · refine (yields_daytime ts _).bind fun t2 sc h2 => ?_
    dsimp only
    split
    · exact .error
    · rename_i hne
      exact .ok ⟨h1, t2, rfl, h2, hne⟩
  · exact .error

theorem isDaytime_emptyTm : IsDaytime emptyTm := by
  unfold IsDaytime
  decide

theorem isDaytime_endOfDay : IsDaytime { emptyTm with hour := 24 } := by
  unfold IsDaytime
  decide

variable {r : TimeRange}

theorem splitDaytimeRange_nil (h : DaytimeRangeRead r) : DaytimesOk (splitDaytimeRange [] r) := by
  obtain ⟨h1, t, ht, h2, hne⟩ := h
  have hlt_iff := tmDaytimeCmp_pos_iff h2 h1
  have hswap := tmDaytimeCmp_swap_pos t r.tmrBegin
  unfold splitDaytimeRange
  rw [ht]
  dsimp only
  split
  · have hend : 0 < ({ emptyTm with hour := 24 } : Tm).daySeconds := by decide
    refine ⟨?_, { r with tmrEnd := some { emptyTm with hour := 24 } }, by simp, hend⟩
    simp only [List.nil_append, List.mem_cons, List.not_mem_nil, or_false]
    rintro q (rfl | rfl)
    · exact ⟨h1, _, rfl, isDaytime_endOfDay, h1.2.2.2.2.2⟩
    · refine ⟨isDaytime_emptyTm, t, rfl, h2, ?_⟩
      unfold IsDaytime at h2
      simp only [Tm.daySeconds, emptyTm] at *
      omega
  · have hlt : r.tmrBegin.daySeconds < t.daySeconds := by omega
    have hpos : 0 ≤ r.tmrBegin.daySeconds := by
      unfold IsDaytime at h1
      simp only [Tm.daySeconds] at *
      omega
    refine ⟨?_, r, by simp, by simp only [TimeRange.endSeconds, ht, Option.getD_some]; omega⟩
    simp only [List.nil_append, List.mem_singleton]
    rintro q rfl
    exact ⟨h1, t, ht, h2, hlt.le⟩

theorem splitDaytimeRange_eq_append (dtrl : List TimeRange) (r : TimeRange) :
    splitDaytimeRange dtrl r = dtrl ++ splitDaytimeRange [] r := by
  unfold splitDaytimeRange
  split
  · split <;> simp
  · simp

theorem yields_daytimeRangeList (ts : TokenSet) (sc : Scanner) :
    Yields DaytimesOk (daytimeRangeList ts sc) := by
  unfold daytimeRangeList
  refine (yields_daytimeRange ts sc).bind fun r sc hr => ?_
  refine Yields.commaList (yields_daytimeRange ts) (fun acc a hacc ha => ?_)
    (splitDaytimeRange_nil hr)
  rw [splitDaytimeRange_eq_append]
  exact hacc.append (splitDaytimeRange_nil ha).1

/-! ## Normalized daytimes -/

/-- Two combined ranges reach as far as the one that reaches further. -/
theorem combineRanges_ok {q : TimeRange} (hr : DaytimeRangeOk r) (hq : DaytimeRangeOk q) :
    DaytimeRangeOk (combineRanges tmDaytimeCmp r q) ∧
      r.endSeconds ≤ (combineRanges tmDaytimeCmp r q).endSeconds ∧
      q.endSeconds ≤ (combineRanges tmDaytimeCmp r q).endSeconds := by
  obtain ⟨r1, r2, hr2, hrd, hrle⟩ := hr
  obtain ⟨q1, q2, hq2, hqd, hqle⟩ := hq
  have hb := tmDaytimeCmp_pos_iff r1 q1
  have he := tmDaytimeCmp_swap_pos q2 r2
  have he' := tmDaytimeCmp_pos_iff hqd hrd
  simp only [DaytimeRangeOk, TimeRange.endSeconds, combineRanges, hr2, hq2, Option.getD_some]
  split <;> split <;> simp <;> grind

theorem absorbRanges_ok (fuel : ℕ) {rest : List TimeRange}
    (hr : DaytimeRangeOk r) (hrest : ∀ q ∈ rest, DaytimeRangeOk q) :
    DaytimeRangeOk (absorbRanges tmDaytimeCmp fuel r rest).1 ∧
      (∀ q ∈ (absorbRanges tmDaytimeCmp fuel r rest).2, DaytimeRangeOk q) ∧
      ∀ q ∈ r :: rest, ∃ p ∈ (absorbRanges tmDaytimeCmp fuel r rest).1 ::
        (absorbRanges tmDaytimeCmp fuel r rest).2, q.endSeconds ≤ p.endSeconds := by
  induction fuel generalizing r rest with
  | zero => exact ⟨hr, hrest, fun q hq => ⟨q, hq, le_rfl⟩⟩
  | succ fuel ih =>
    unfold absorbRanges
    split
    · rename_i q hq
      have hmem := List.mem_of_find?_eq_some hq
      have hcomb := combineRanges_ok hr (hrest q hmem)
      obtain ⟨hover, before, after, rfl, hbefore⟩ := List.find?_eq_some_iff_append.mp hq
      have herase : (before ++ q :: after).eraseP (rangesOverlap tmDaytimeCmp r)
          = before ++ after := by
        rw [List.eraseP_append_right _ (by simpa using hbefore), List.eraseP_cons_of_pos hover]
      rw [herase]
      have hrest' : ∀ p ∈ before ++ after, DaytimeRangeOk p := fun p hp =>
        hrest p (by simp only [List.mem_append, List.mem_cons] at hp ⊢; tauto)
      obtain ⟨h1, h2, h3⟩ := ih hcomb.1 hrest'
      refine ⟨h1, h2, fun p hp => ?_⟩
      -- the range absorbed and the one that absorbs it end no later than the two combined
      have hfirst := h3 _ (.head _)
      simp only [List.mem_cons, List.mem_append] at hp
      rcases hp with rfl | hp | rfl | hp
      · exact hfirst.imp fun _ h => ⟨h.1, hcomb.2.1.trans h.2⟩
      · exact h3 p (by simp [hp])
      · exact hfirst.imp fun _ h => ⟨h.1, hcomb.2.2.trans h.2⟩
      · exact h3 p (by simp [hp])
    · exact ⟨hr, hrest, fun q hq => ⟨q, hq, le_rfl⟩⟩

theorem normalizeRanges_ok (fuel : ℕ) {rl : List TimeRange} (h : ∀ r ∈ rl, DaytimeRangeOk r) :
    (∀ r ∈ normalizeRanges tmDaytimeCmp fuel rl, DaytimeRangeOk r) ∧
      ∀ q ∈ rl, ∃ p ∈ normalizeRanges tmDaytimeCmp fuel rl, q.endSeconds ≤ p.endSeconds := by
  induction fuel generalizing rl with
  | zero =>
    simp only [normalizeRanges]
    exact ⟨h, fun q hq => ⟨q, hq, le_rfl⟩⟩
  | succ fuel ih =>
    cases rl with
    | nil => simp [normalizeRanges]
    | cons r rest =>
      have habs := absorbRanges_ok rest.length (h r (.head _))
        (fun q hq => h q (List.mem_cons_of_mem r hq))
      obtain ⟨h1, h2, h3⟩ := habs
      obtain ⟨hall, hend⟩ := ih h2
      simp only [normalizeRanges]
      refine ⟨fun q hq => ?_, fun q hq => ?_⟩
      · rcases List.mem_cons.mp hq with rfl | hq
        · exact h1
        · exact hall q hq
      · obtain ⟨p, hp, hle⟩ := h3 q hq
        rcases List.mem_cons.mp hp with rfl | hp
        · exact ⟨_, .head _, hle⟩
        · obtain ⟨p', hp', hle'⟩ := hend p hp
          exact ⟨p', .tail _ hp', hle.trans hle'⟩

theorem DaytimesOk.normalize {dtrl : List TimeRange} (h : DaytimesOk dtrl) :
    DaytimesOk (normalizeRangeList tmDaytimeCmp dtrl) := by
  obtain ⟨hall, r, hr, hpos⟩ := h
  obtain ⟨hall', hend⟩ := normalizeRanges_ok dtrl.length hall
  obtain ⟨p, hp, hle⟩ := hend r hr
  exact ⟨hall', p, hp, hpos.trans_le hle⟩

theorem daytimesOk_full : DaytimesOk fullDaytimeRange := by
  refine ⟨?_, _, List.mem_singleton_self _, ?_⟩
  · simp only [fullDaytimeRange, List.mem_singleton]
    rintro r rfl
    exact ⟨isDaytime_emptyTm, _, rfl, isDaytime_endOfDay, by decide⟩
  · decide

/-! ## Days of the week -/

def WeekRangeOk (r : TimeRange) : Prop :=
  AtMidnight r.tmrBegin ∧ 0 ≤ r.tmrBegin.wday ∧ r.tmrBegin.wday ≤ 6

def WeekDaysOk (wdrl : List TimeRange) : Prop := wdrl ≠ [] ∧ ∀ r ∈ wdrl, WeekRangeOk r

theorem yields_weekDay (ts : TokenSet) (sc : Scanner) :
    Yields (fun t => AtMidnight t ∧ 0 ≤ t.wday ∧ t.wday ≤ 6) (weekDay ts sc) := by
  unfold weekDay
  split
  · split
    · rename_i wday h
      exact .ok ⟨⟨rfl, rfl, rfl⟩, cheapScan_weekdayv h⟩
    · exact .error
  · exact .error

theorem yields_weekDayRange (ts : TokenSet) (sc : Scanner) :
    Yields WeekRangeOk (weekDayRange ts sc) := by
  unfold weekDayRange
  refine (yields_weekDay ts sc).bind fun t1 sc h1 => ?_
  dsimp only
  split
  · refine (yields_weekDay ts _).bind fun t2 sc h2 => ?_
    dsimp only
    split
    · exact .error
    · exact .ok h1
  · exact .ok h1

theorem WeekDaysOk.split {wdrl : List TimeRange}
    (h : ∀ q ∈ wdrl, WeekRangeOk q) (hr : WeekRangeOk r) : WeekDaysOk (splitWdayRange wdrl r) := by
  have hempty : ∀ t, WeekRangeOk { tmrBegin := emptyTm, tmrEnd := t } := fun t =>
    ⟨⟨rfl, rfl, rfl⟩, le_rfl, by simp [emptyTm]⟩
  have hbegin : ∀ t, WeekRangeOk { tmrBegin := r.tmrBegin, tmrEnd := t } := fun _ => hr
  unfold splitWdayRange
  refine ⟨by split <;> [split; skip] <;> simp, fun q hq => ?_⟩
  split at hq
  · split at hq
    · simp only [List.mem_append, List.mem_cons, List.not_mem_nil, or_false] at hq
      rcases hq with hq | rfl | rfl
      · exact h q hq
      · exact hbegin _
      · exact hempty _
    · simp only [List.mem_append, List.mem_singleton] at hq
      rcases hq with hq | rfl
      · exact h q hq
      · exact hr
  · simp only [List.mem_append, List.mem_singleton] at hq
    rcases hq with hq | rfl
    · exact h q hq
    · exact hr

/-- The inner loop of `join_wday_range()` keeps the begin of the range it is about, and
removes others. -/
theorem foldl_joinStep (day1 : TimeRange) (qs : List TimeRange) (s : TimeRange × List TimeRange) :
    (qs.foldl (joinStep day1) s).1.tmrBegin = s.1.tmrBegin ∧
      ∀ r ∈ (qs.foldl (joinStep day1) s).2, r ∈ s.2 ∨ r ∈ qs := by
  induction qs generalizing s with
  | nil => simp
  | cons q qs ih =>
    have hstep : (joinStep day1 s q).1.tmrBegin = s.1.tmrBegin ∧
        ∀ r ∈ (joinStep day1 s q).2, r ∈ s.2 ∨ r = q := by
      unfold joinStep
      split
      · split
        · split <;> simp +contextual
        · simp +contextual
      · simp
    obtain ⟨hbegin, hmem⟩ := ih (joinStep day1 s q)
    refine ⟨hbegin.trans hstep.1, fun r hr => ?_⟩
    rcases hmem r hr with h | h
    · exact (hstep.2 r h).imp id fun h : r = q => List.mem_cons.mpr (.inl h)
    · exact .inr (.tail _ h)

variable {before after : List TimeRange}

theorem joinRanges_ok (hne : before ++ after ≠ []) (h : ∀ r ∈ before ++ after, WeekRangeOk r) :
    WeekDaysOk (joinRanges fuel before after) := by
  induction fuel generalizing before after with
  | zero => exact ⟨by simpa [joinRanges] using hne, by simpa [joinRanges] using h⟩
  | succ fuel ih =>
    cases after with
    | nil => exact ⟨by simpa [joinRanges] using hne, by simpa [joinRanges] using h⟩
    | cons day1 after =>
      obtain ⟨hb1, hm1⟩ := foldl_joinStep day1 before (day1, [])
      obtain ⟨hb2, hm2⟩ := foldl_joinStep day1 after
        ((before.foldl (joinStep day1) (day1, [])).1, [])
      have hday1 : WeekRangeOk day1 := h day1 (by simp)
      simp only [joinRanges]
      refine ih (by simp) fun r hr => ?_
      simp only [List.mem_append, List.mem_singleton] at hr
      rcases hr with (hr | rfl) | hr
      · exact h r (by simpa using Or.inl ((hm1 r hr).resolve_left (by simp)))
      · have hbegin := hb2.trans hb1
        unfold WeekRangeOk at hday1 ⊢
        rw [hbegin]
        exact hday1
      · have := (hm2 r hr).resolve_left (by simp)
        exact h r (by simp [this])

theorem extendRange_begin (day1 : TimeRange) (others : List TimeRange) :
    (extendRange day1 others).tmrBegin = day1.tmrBegin := by
  unfold extendRange
  have hstep : ∀ (qs : List TimeRange) (r : TimeRange),
      (qs.foldl (fun r q =>
        if day1.endWday = 6 ∧ q.tmrBegin.wday = 0 then
          { r with tmrEnd := some { r.tmrEnd.getD r.tmrBegin with
              wday := day1.endWday + 1 + q.endWday } }
        else r) r).tmrBegin = r.tmrBegin := by
    intro qs
    induction qs with
    | nil => simp
    | cons q qs ih =>
      intro r
      rw [List.foldl_cons, ih]
      split <;> rfl
  exact hstep others day1

theorem extendRanges_ok (hne : before ++ after ≠ [])
    (h : ∀ r ∈ before ++ after, WeekRangeOk r) : WeekDaysOk (extendRanges before after) := by
  induction after generalizing before with
  | nil => exact ⟨by simpa [extendRanges] using hne, by simpa [extendRanges] using h⟩
  | cons day1 after ih =>
    have hday1 : WeekRangeOk (extendRange day1 (before ++ after)) := by
      unfold WeekRangeOk
      rw [extendRange_begin]
      exact h day1 (by simp)
    refine ih (by simp) fun r hr => ?_
    simp only [List.mem_append, List.mem_singleton] at hr
    rcases hr with (hr | rfl) | hr
    · exact h r (by simp [hr])
    · exact hday1
    · exact h r (by simp [hr])

theorem yields_weekDayRangeList (ts : TokenSet) (sc : Scanner) :
    Yields WeekDaysOk (weekDayRangeList ts sc) := by
  unfold weekDayRangeList
  refine (yields_weekDayRange ts sc).bind fun r sc hr => ?_
  dsimp only
  refine (Yields.commaList (yields_weekDayRange ts) (fun acc a hacc ha => .split hacc.2 ha)
    (WeekDaysOk.split (by simp) hr)).bind fun wdrl sc hwdrl => ?_
  have hjoin : WeekDaysOk (joinWdayRange wdrl) := joinRanges_ok (by simpa using hwdrl.1) hwdrl.2
  exact .ok (extendRanges_ok (by simpa using hjoin.1) hjoin.2)

theorem weekDaysOk_full : WeekDaysOk fullWeekdayRange := by
  refine ⟨by simp [fullWeekdayRange], ?_⟩
  simp only [fullWeekdayRange, List.mem_singleton]
  rintro r rfl
  exact ⟨⟨rfl, rfl, rfl⟩, le_rfl, by decide⟩

/-! ## Entries -/

/-- What is read of an entry, whose days have property `D`. -/
def PartsOk (D : List TimeRange → Prop) (parts : EntryParts) : Prop :=
  (∀ l ∈ parts.days, D l) ∧ (∀ l ∈ parts.daytimes, DaytimesOk l) ∧ IsState parts.state

theorem isState_disable : IsState qiDoDisable := .inr (.inr rfl)

variable {D : List TimeRange → Prop} {days daytimes : Option (List TimeRange)}

theorem yields_entryState (ts : TokenSet) (hdays : ∀ l ∈ days, D l)
    (hdaytimes : ∀ l ∈ daytimes, DaytimesOk l) (sc : Scanner) :
    Yields (PartsOk D) (entryState ts days daytimes sc) := by
  unfold entryState
  split
  · exact (yields_action ts sc).bind fun state sc hs => .ok ⟨hdays, hdaytimes, hs⟩
  · exact .error

theorem yields_entryDaytimes (ts : TokenSet) (hdays : ∀ l ∈ days, D l) (sc : Scanner) :
    Yields (PartsOk D) (entryDaytimes ts days sc) := by
  unfold entryDaytimes
  split
  · refine (yields_daytimeRangeList ts sc).bind fun dtrl sc hd => ?_
    have hsome : ∀ l ∈ some (normalizeRangeList tmDaytimeCmp dtrl), DaytimesOk l := by
      rintro l ⟨⟩
      exact hd.normalize
    dsimp only
    split
    · exact yields_entryState ts hdays hsome _
    · exact .ok ⟨hdays, hsome, isState_disable⟩
  · exact yields_entryState ts hdays (by simp) sc

structure YearEntryOk (ca : CalendarEntry) : Prop where
  days : ∀ l ∈ ca.ydayRangeList, YearDaysOk l
  daytimes : ∃ l, ca.daytimeRangeList = some l ∧ DaytimesOk l
  state : IsState ca.state

structure WeekEntryOk (ca : CalendarEntry) : Prop where
  days : ∃ l, ca.wdayRangeList = some l ∧ WeekDaysOk l
  daytimes : ∃ l, ca.daytimeRangeList = some l ∧ DaytimesOk l
  state : IsState ca.state

theorem daytimesOk_getD
    (h : ∀ l ∈ daytimes, DaytimesOk l) : DaytimesOk (daytimes.getD fullDaytimeRange) := by
  cases daytimes with
  | none => exact daytimesOk_full
  | some l => exact h l rfl

theorem yields_yearEntryParts (sc : Scanner) : Yields (PartsOk YearDaysOk) (yearEntryParts sc) := by
  unfold yearEntryParts
  split
  · refine (yields_yearDayRangeList .year sc).bind fun ydrl sc hy => ?_
    have hsome : ∀ l ∈ some ydrl, YearDaysOk l := by
      rintro l ⟨⟩
      exact hy
    dsimp only
    split
    · exact yields_entryDaytimes .year hsome _
    · exact .ok ⟨hsome, by simp, isState_disable⟩
  · exact yields_entryDaytimes .year (by simp) sc

theorem yields_disabledYearEntry (sc : Scanner) : Yields YearEntryOk (disabledYearEntry sc) :=
  (yields_yearEntryParts sc).bind fun _ _ hp =>
    .ok ⟨hp.1, ⟨_, rfl, daytimesOk_getD hp.2.1⟩, hp.2.2⟩

theorem yields_weekEntryParts (sc : Scanner) : Yields (PartsOk WeekDaysOk) (weekEntryParts sc) := by
  unfold weekEntryParts
  split
  · split
    · refine (yields_weekDayRangeList .week sc).bind fun wdrl sc hw => ?_
      have hsome : ∀ l ∈ some wdrl, WeekDaysOk l := by
        rintro l ⟨⟩
        exact hw
      dsimp only
      split
      · exact yields_entryDaytimes .week hsome _
      · exact .ok ⟨hsome, by simp, isState_disable⟩
    · exact yields_entryDaytimes .week (by simp) sc
  · exact yields_entryDaytimes .week (by simp) sc

theorem yields_disabledWeekEntry (sc : Scanner) : Yields WeekEntryOk (disabledWeekEntry sc) := by
  refine (yields_weekEntryParts sc).bind fun parts sc hp =>
    .ok ⟨⟨_, rfl, ?_⟩, ⟨_, rfl, daytimesOk_getD hp.2.1⟩, hp.2.2⟩
  cases hd : parts.days with
  | none => exact weekDaysOk_full
  | some l => exact hp.1 l hd

/-! ## Specifications -/

variable {P : CalendarEntry → Prop}
  {entry : Scanner → Except ParseMessage (CalendarEntry × Scanner)} {atEnd : Scanner → ParseMessage}
  {cal : List CalendarEntry}

theorem entryList_ok (hentry : ∀ sc, Yields P (entry sc))
    {acc : List CalendarEntry} (hacc : ∀ ca ∈ acc, P ca)
    (h : entryList ts entry atEnd fuel acc sc = .ok cal) : ∀ ca ∈ cal, P ca := by
  induction fuel generalizing acc sc with
  | zero =>
    cases h
    exact hacc
  | succ fuel ih =>
    unfold entryList at h
    split at h
    · rename_i next _
      cases hres : entry (eatSpaces ts next.rest.length next) with
      | error e => simp [hres, bind, Except.bind] at h
      | ok r =>
        obtain ⟨ca, sc'⟩ := r
        rw [hres] at h
        refine ih (fun c hc => ?_) h
        rcases List.mem_append.mp hc with hc | hc
        · exact hacc c hc
        · exact List.mem_singleton.mp hc ▸ hentry _ ca sc' hres
    · cases h
      exact hacc
    · cases h

theorem disabledList_ok (hentry : ∀ sc, Yields P (entry sc)) {s : Option (List Char)}
    (h : disabledList ts entry atEnd s = .ok cal) : ∀ ca ∈ cal, P ca := by
  unfold disabledList at h
  split at h
  · cases h
    simp
  · rename_i s
    split at h
    · cases h
      simp
    · cases hres : entry { rest := s, store := [] } with
      | error e => simp [hres, bind, Except.bind] at h
      | ok r =>
        obtain ⟨ca, sc⟩ := r
        rw [hres] at h
        refine entryList_ok hentry (fun c hc => ?_) h
        exact List.mem_singleton.mp hc ▸ hentry _ ca sc hres

/-- The entries of an accepted specification of the year are well formed. -/
theorem disabledYearList_ok {s : Option (List Char)} {ycal : List CalendarEntry}
    (h : disabledYearList s = .ok ycal) : ∀ ca ∈ ycal, YearEntryOk ca :=
  disabledList_ok yields_disabledYearEntry h

/-- The entries of an accepted specification of the week are well formed. -/
theorem disabledWeekList_ok {s : Option (List Char)} {wcal : List CalendarEntry}
    (h : disabledWeekList s = .ok wcal) : ∀ ca ∈ wcal, WeekEntryOk ca :=
  disabledList_ok yields_disabledWeekEntry h

end ClusterScheduler.Sgeobj.Calendar
