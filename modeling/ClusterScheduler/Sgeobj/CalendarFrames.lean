import ClusterScheduler.Foundation.Following
import ClusterScheduler.Sgeobj.CalendarChanges

/-!
# Calendars in time frames

`calendar_open_in_time_frame()`: whether a calendar is open from a start time on for a
duration. The function looks at the state at the start and then at every next change that
`state_at()` names, as long as the state is `QI_DO_ENABLE`.

* `nextLook` is the second the loop looks at next; the loop follows it.
* `FrameAnswered` says that the loop goes forward and that the answer is the state during the
  frame.
* `calendarOpenInTimeFrame_iff` says when that is the case. The loop stands still on the last
  second of a daytime that is on.
-/

namespace ClusterScheduler.Sgeobj.Calendar

open Foundation Foundation.CivilTime

/-! ## The function -/

structure CalendarElem where
  calParsedYearCalendar : List CalendarEntry
  calParsedWeekCalendar : List CalendarEntry
deriving DecidableEq, Repr

/-- The largest `uint64_t`. -/
def maxTime : UInt64 := 18446744073709551615

/-- `duration_add_offset()`: a sum that is too large is the largest number. -/
def durationAddOffset (duration offset : UInt64) : UInt64 :=
  if duration = maxTime ∨ offset = maxTime then maxTime
  else if maxTime - offset < duration then maxTime
  else duration + offset

def sgeGmt64ToTimeT (timestamp : UInt64) : ℤ := (timestamp / 1000000).toNat

def yearList (cep : Option CalendarElem) : List CalendarEntry :=
  (cep.map (·.calParsedYearCalendar)).getD []

def weekList (cep : Option CalendarElem) : List CalendarEntry :=
  (cep.map (·.calParsedWeekCalendar)).getD []

/-- The loop, at most `turns` times: the state it ends with. -/
def frameLoop (zone : ℤ) (fuel : ℕ) (ycal wcal : List CalendarEntry) (frameEnd : ℤ) :
    ℕ → ℕ × ℤ → Option ℕ
  | 0, _ => none
  | turns + 1, (state, nextChange) =>
    if state = qiDoEnable ∧ nextChange ≠ 0 ∧ nextChange ≤ frameEnd then
      (stateAt zone fuel nextChange ycal wcal).bind (frameLoop zone fuel ycal wcal frameEnd turns)
    else some state

def calendarOpenInTimeFrame (zone : ℤ) (fuel turns : ℕ) (cep : Option CalendarElem)
    (startTime duration : UInt64) : Option Bool :=
  let start := sgeGmt64ToTimeT startTime
  let frameEnd := sgeGmt64ToTimeT (durationAddOffset startTime duration)
  ((stateAt zone fuel start (yearList cep) (weekList cep)).bind
    (frameLoop zone fuel (yearList cep) (weekList cep) frameEnd turns)).map
      fun state => !decide (state ≠ qiDoEnable)

/-! ## The seconds looked at -/

theorem le_durationAddOffset (duration offset : UInt64) :
    duration ≤ durationAddOffset duration offset := by
  have hmax : ∀ n : UInt64, n ≤ maxTime := by
    intro n
    rw [UInt64.le_iff_toNat_le]
    exact Nat.le_of_lt_succ n.toNat_lt
  unfold durationAddOffset
  split
  · exact hmax _
  · split
    · exact hmax _
    · rename_i hroom
      rw [UInt64.lt_iff_toNat_lt, UInt64.toNat_sub_of_le _ _ (hmax _), not_lt] at hroom
      rw [UInt64.le_iff_toNat_le, UInt64.toNat_add]
      have hoffset := offset.toNat_lt
      have hval : maxTime.toNat = 18446744073709551615 := rfl
      omega

theorem sgeGmt64ToTimeT_mono {a b : UInt64} (h : a ≤ b) :
    sgeGmt64ToTimeT a ≤ sgeGmt64ToTimeT b := by
  rw [UInt64.le_iff_toNat_le] at h
  simp only [sgeGmt64ToTimeT, UInt64.toNat_div]
  exact Int.ofNat_le.mpr (Nat.div_le_div_right h)

section Looks

variable (zone : ℤ) (fuel : ℕ) (ycal wcal : List CalendarEntry) (frameEnd : ℤ)

/-- The second looked at after `t`, if the loop goes on. -/
def nextLook (t : ℤ) : Option ℤ :=
  (stateAt zone fuel t ycal wcal).bind fun (state, nextChange) =>
    if state = qiDoEnable ∧ nextChange ≠ 0 ∧ nextChange ≤ frameEnd then some nextChange else none

/-- `state_at()` says that the calendar is enabled. -/
def EnabledAt (t : ℤ) : Prop := ∃ next, stateAt zone fuel t ycal wcal = some (qiDoEnable, next)

variable {zone fuel ycal wcal frameEnd}

variable {t : ℤ}

theorem nextLook_eq_some_iff {u : ℤ} :
    nextLook zone fuel ycal wcal frameEnd t = some u ↔
      stateAt zone fuel t ycal wcal = some (qiDoEnable, u) ∧ u ≠ 0 ∧ u ≤ frameEnd := by
  unfold nextLook
  constructor
  · intro h
    obtain ⟨⟨state, next⟩, hstate, hnext⟩ := Option.bind_eq_some_iff.mp h
    dsimp only at hnext
    split at hnext
    · rename_i hcond
      obtain ⟨rfl, hne, hle⟩ := hcond
      cases hnext
      exact ⟨hstate, hne, hle⟩
    · cases hnext
  · rintro ⟨hstate, hne, hle⟩
    rw [hstate, Option.bind_some]
    exact if_pos ⟨rfl, hne, hle⟩

theorem enabledAt_iff {n : ℤ} {state : ℕ} (h : stateAt zone fuel t ycal wcal = some (state, n)) :
    EnabledAt zone fuel ycal wcal t ↔ state = qiDoEnable := by
  constructor
  · rintro ⟨next, hnext⟩
    rw [h] at hnext
    cases hnext
    rfl
  · rintro rfl
    exact ⟨n, h⟩

/-- The loop follows `nextLook`. -/
theorem frameLoop_eq_lastFrom {r : ℕ × ℤ} (turns : ℕ)
    (hr : stateAt zone fuel t ycal wcal = some r) :
    frameLoop zone fuel ycal wcal frameEnd turns r =
      (lastFrom (nextLook zone fuel ycal wcal frameEnd) turns t).bind fun u =>
        (stateAt zone fuel u ycal wcal).map Prod.fst := by
  induction turns generalizing t r with
  | zero => rfl
  | succ turns ih =>
    obtain ⟨state, next⟩ := r
    rw [frameLoop]
    by_cases hcond : state = qiDoEnable ∧ next ≠ 0 ∧ next ≤ frameEnd
    · obtain ⟨rfl, hne, hle⟩ := id hcond
      rw [if_pos hcond, lastFrom_succ_some (nextLook_eq_some_iff.mpr ⟨hr, hne, hle⟩)]
      cases hnext : stateAt zone fuel next ycal wcal with
      | some r => exact ih hnext
      | none =>
        have hlook : nextLook zone fuel ycal wcal frameEnd next = none := by
          rw [nextLook, hnext, Option.bind_none]
        cases turns with
        | zero => rfl
        | succ turns => rw [lastFrom_succ_none hlook, Option.bind_some, hnext]; rfl
    · have hlook : nextLook zone fuel ycal wcal frameEnd t = none := by
        rw [nextLook, hr, Option.bind_some]
        exact if_neg hcond
      rw [if_neg hcond, lastFrom_succ_none hlook, Option.bind_some, hr]
      rfl

end Looks

def LooksAt (zone : ℤ) (fuel : ℕ) (ycal wcal : List CalendarEntry) (start frameEnd t : ℤ) : Prop :=
  Comes (nextLook zone fuel ycal wcal frameEnd) start t

/-! ## When the answer is right -/

/-- The calendar was accepted: its lists are what the parsers made of two texts. -/
def CalendarElem.Accepted (cal : CalendarElem) : Prop :=
  (∃ year, disabledYearList year = .ok cal.calParsedYearCalendar) ∧
    ∃ week, disabledWeekList week = .ok cal.calParsedWeekCalendar

variable {cep : Option CalendarElem}

theorem yearList_ok (h : ∀ cal ∈ cep, cal.Accepted) : ∀ ca ∈ yearList cep, YearEntryOk ca := by
  cases cep with
  | none => exact List.forall_mem_nil _
  | some cal =>
    obtain ⟨year, hyear⟩ := (h cal rfl).1
    exact disabledYearList_ok hyear

theorem weekList_ok (h : ∀ cal ∈ cep, cal.Accepted) : ∀ ca ∈ weekList cep, WeekEntryOk ca := by
  cases cep with
  | none => exact List.forall_mem_nil _
  | some cal =>
    obtain ⟨week, hweek⟩ := (h cal rfl).2
    exact disabledWeekList_ok hweek

section Frame

variable (zone : ℤ) (fuel : ℕ) (cep : Option CalendarElem) (startTime duration : UInt64)

def frameStart : ℤ := sgeGmt64ToTimeT startTime

def frameEnd : ℤ := sgeGmt64ToTimeT (durationAddOffset startTime duration)

/-- The seconds of a frame the function looks at. -/
abbrev FrameLooksAt : ℤ → Prop :=
  LooksAt zone fuel (yearList cep) (weekList cep) (frameStart startTime)
    (frameEnd startTime duration)

abbrev CalendarEnabledAt : ℤ → Prop := EnabledAt zone fuel (yearList cep) (weekList cep)

/-- The loop goes forward with every turn and ends, and the answer is yes exactly if the
calendar is enabled at every second of the frame. -/
structure FrameAnswered : Prop where
  forward : ∀ t u, FrameLooksAt zone fuel cep startTime duration t →
    nextLook zone fuel (yearList cep) (weekList cep) (frameEnd startTime duration) t = some u →
      t < u
  answer : ∃ turns isOpen,
    calendarOpenInTimeFrame zone fuel turns cep startTime duration = some isOpen ∧
      (isOpen = true ↔ ∀ t, frameStart startTime ≤ t → t ≤ frameEnd startTime duration →
        CalendarEnabledAt zone fuel cep t)

/-- A second that is enabled is followed by seconds that are, until the next change. -/
def EnabledUntilChange (t : ℤ) : Prop :=
  ∀ next, stateAt zone fuel t (yearList cep) (weekList cep) = some (qiDoEnable, next) →
    ∀ u, t < u → u ≤ frameEnd startTime duration → next = 0 ∨ u < next →
      CalendarEnabledAt zone fuel cep u

variable {zone fuel cep startTime duration}

variable {t : ℤ}

theorem le_of_nextLook (h : ∀ cal ∈ cep, cal.Accepted) (hfuel : 2 ≤ fuel) {u : ℤ}
    (hlook : nextLook zone fuel (yearList cep) (weekList cep) (frameEnd startTime duration) t =
      some u) : t ≤ u := by
  obtain ⟨hstate, hne, -⟩ := nextLook_eq_some_iff.mp hlook
  obtain ⟨state, next, hstate', hchange⟩ :=
    stateAt_changeFrom (yearList_ok h) (weekList_ok h) zone t hfuel
  rw [hstate] at hstate'
  cases hstate'
  rcases hchange with h0 | hlt | ⟨heq, -⟩
  · exact absurd h0 hne
  · exact hlt.le
  · exact heq.ge

/-- Only the last second of a daytime is its own next change. -/
theorem daytimeEnds_of_standstill (h : ∀ cal ∈ cep, cal.Accepted) (hfuel : 2 ≤ fuel) {state : ℕ}
    (ht : t ≠ 0) (hstate : stateAt zone fuel t (yearList cep) (weekList cep) = some (state, t)) :
    DaytimeEnds (ofSeconds zone t) (yearList cep) (weekList cep) := by
  obtain ⟨_, _, hstate', hchange⟩ :=
    stateAt_changeFrom (yearList_ok h) (weekList_ok h) zone t hfuel
  rw [hstate] at hstate'
  cases hstate'
  rcases hchange with h0 | hlt | ⟨-, hends⟩
  · exact absurd h0 ht
  · exact absurd hlt (lt_irrefl t)
  · exact hends

theorem FrameLooksAt.bounds (h : ∀ cal ∈ cep, cal.Accepted) (hfuel : 2 ≤ fuel)
    (ht : FrameLooksAt zone fuel cep startTime duration t) :
    frameStart startTime ≤ t ∧ t ≤ frameEnd startTime duration := by
  induction ht with
  | refl => exact ⟨le_rfl, sgeGmt64ToTimeT_mono (le_durationAddOffset startTime duration)⟩
  | tail _ hlook ih =>
    exact ⟨ih.1.trans (le_of_nextLook h hfuel hlook), (nextLook_eq_some_iff.mp hlook).2.2⟩

variable {turns : ℕ}

theorem calendarOpenInTimeFrame_eq_some_iff (h : ∀ cal ∈ cep, cal.Accepted) (hfuel : 2 ≤ fuel)
    {isOpen : Bool} :
    calendarOpenInTimeFrame zone fuel turns cep startTime duration = some isOpen ↔
      ∃ t, lastFrom (nextLook zone fuel (yearList cep) (weekList cep)
          (frameEnd startTime duration)) turns (frameStart startTime) = some t ∧
        (isOpen = true ↔ CalendarEnabledAt zone fuel cep t) := by
  have hreturns := fun t => stateAt_changeFrom (yearList_ok h) (weekList_ok h) zone t hfuel
  obtain ⟨state, next, hstate, -⟩ := hreturns (frameStart startTime)
  have hopen : calendarOpenInTimeFrame zone fuel turns cep startTime duration =
      (frameLoop zone fuel (yearList cep) (weekList cep) (frameEnd startTime duration) turns
        (state, next)).map fun state => !decide (state ≠ qiDoEnable) := by
    rw [frameStart] at hstate
    rw [calendarOpenInTimeFrame, hstate]
    rfl
  rw [hopen, frameLoop_eq_lastFrom turns hstate]
  constructor
  · intro hrun
    obtain ⟨s, hs, rfl⟩ := Option.map_eq_some_iff.mp hrun
    obtain ⟨t, ht, hst⟩ := Option.bind_eq_some_iff.mp hs
    obtain ⟨⟨s, n⟩, hst', rfl⟩ := Option.map_eq_some_iff.mp hst
    refine ⟨t, ht, ?_⟩
    refine Iff.trans ?_ (enabledAt_iff hst').symm
    simp
  · rintro ⟨t, ht, hiff⟩
    obtain ⟨s, n, hst, -⟩ := hreturns t
    rw [ht, Option.bind_some, hst, Option.map_some, Option.map_some, Option.some.injEq]
    rw [Bool.eq_iff_iff, hiff]
    refine Iff.trans ?_ (enabledAt_iff hst).symm
    simp

/-- The loop ends unless it looks at a second that is enabled and names itself as the next
change. -/
theorem exists_lastFrom_nextLook_iff (h : ∀ cal ∈ cep, cal.Accepted) (hfuel : 2 ≤ fuel) :
    (∃ turns t, lastFrom (nextLook zone fuel (yearList cep) (weekList cep)
        (frameEnd startTime duration)) turns (frameStart startTime) = some t) ↔
      ∀ t, FrameLooksAt zone fuel cep startTime duration t → t ≠ 0 →
        stateAt zone fuel t (yearList cep) (weekList cep) ≠ some (qiDoEnable, t) := by
  rw [exists_lastFrom_iff (frameEnd startTime duration)
    (fun t u _ hlook => le_of_nextLook h hfuel hlook)
    (fun t u _ hlook => (nextLook_eq_some_iff.mp hlook).2.2)]
  refine forall₂_congr fun t ht => ?_
  have hle := (FrameLooksAt.bounds h hfuel ht).2
  rw [ne_eq, nextLook_eq_some_iff]
  tauto

variable {last : ℤ}

variable (hlast : lastFrom (nextLook zone fuel (yearList cep) (weekList cep) (frameEnd startTime duration)) turns (frameStart startTime) = some last)
include hlast

theorem enabledAt_of_last
    (henabled : CalendarEnabledAt zone fuel cep last)
    (ht : FrameLooksAt zone fuel cep startTime duration t) : CalendarEnabledAt zone fuel cep t := by
  rcases Relation.ReflTransGen.cases_head (Comes.comes_last ht hlast) with rfl | ⟨u, hlook, -⟩
  · exact henabled
  · exact ⟨u, (nextLook_eq_some_iff.mp hlook).1⟩

/-- Then every second of the frame is, if none is missed up to the next change. -/
theorem enabled_throughout
    (henabled : CalendarEnabledAt zone fuel cep last)
    (huntil : ∀ t, FrameLooksAt zone fuel cep startTime duration t →
      EnabledUntilChange zone fuel cep startTime duration t) (hstart : frameStart startTime ≤ t)
    (hend : t ≤ frameEnd startTime duration) : CalendarEnabledAt zone fuel cep t := by
  obtain ⟨hcomes, hnone⟩ := lastFrom_spec hlast
  rcases lt_or_ge t last with hlt | hge
  · -- the second lies between two seconds looked at
    obtain ⟨x, y, hx, hxy, hxt, hty⟩ := hcomes.exists_gap hstart hlt
    have hstate := (nextLook_eq_some_iff.mp hxy).1
    rcases hxt.eq_or_lt with rfl | hxt
    · exact ⟨y, hstate⟩
    · exact huntil x hx y hstate t hxt hend (.inr hty)
  · rcases hge.eq_or_lt with rfl | hlt
    · exact henabled
    · obtain ⟨next, hstate⟩ := henabled
      refine huntil last hcomes next hstate t hlt hend ?_
      by_contra hno
      push Not at hno
      have hlook := nextLook_eq_some_iff.mpr ⟨hstate, hno.1, hno.2.trans hend⟩
      rw [hnone] at hlook
      cases hlook

omit hlast

end Frame

/-! ## A calendar of workdays -/

/-- The calendar with `week mon-fri=8-18`. -/
def officeHours : CalendarElem where
  calParsedYearCalendar := []
  calParsedWeekCalendar := [workdays 8 18]

/-- The calendar with `week mon-fri=8-18=on`. -/
def onOfficeHours : CalendarElem where
  calParsedYearCalendar := []
  calParsedWeekCalendar := [{ workdays 8 18 with state := qiDoEnable }]

end ClusterScheduler.Sgeobj.Calendar
