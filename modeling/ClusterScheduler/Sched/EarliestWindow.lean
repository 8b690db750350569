import ClusterScheduler.Sched.CalendarSchedule
import ClusterScheduler.Sched.UtilizationBelow

/-!
# The earliest window of a resource

What the searches in a diagram mean for the step function it stands for. A request for
exclusive use looks at two diagrams, that of the jobs that use the resource and that of
the jobs that do not ask for it.

* `TimeFrame`, `utilizationBelowFor` — the search with and without an assignment.
* `WellFormedUsage`, `consideredAt` — the diagrams, and the larger of the two amounts.
* `utilizationMax_isGreatest` — the maximum over a window.
* `settledWhen_isLeast`, `utilizationBelow_agrees_utilizationMax` — without an assignment
  the search finds the time from which the amount stays low, in agreement with the maximum.
* `FreeWindow`, `EarliestWindow`, `WindowsSeen` — windows that are free, the first one, and
  the states of the diagrams in which the search looks at enough of them.
* `utilizationBelow_earliest_iff` — with an assignment it finds the first free window
  exactly in these.
-/

namespace ClusterScheduler.Sched

open Foundation Consumables

/-! ## With and without an assignment -/

/-- What the search reads of an assignment. -/
structure TimeFrame where
  now : ℕ
  duration : ℕ

/-- `a` is `none` for a null pointer. -/
def utilizationBelowFor (a : Option TimeFrame) (cr : Usage) (maxUtil : ℚ)
    (forExclRequest : Bool) : ℕ :=
  match a with
  | none => settledWhen cr maxUtil forExclRequest
  | some a => utilizationBelow a.now a.duration cr maxUtil forExclRequest

/-! ## The step functions considered -/

/-- The diagrams considered have increasing times and end without an amount. -/
structure WellFormedUsage (cr : Usage) (forExclRequest : Bool) : Prop where
  utilized : EndsIdle (cr.utilized.getD [])
  nonexclusive : forExclRequest = true → EndsIdle (cr.utilizedNonexclusive.getD [])

def consideredDiagrams (cr : Usage) (forExclRequest : Bool) : List (List Rde) :=
  if forExclRequest then [cr.utilized.getD [], cr.utilizedNonexclusive.getD []]
  else [cr.utilized.getD []]

def consideredAt (cr : Usage) (forExclRequest : Bool) (t : ℕ) : ℚ :=
  if forExclRequest then max (amountAt cr.utilized t) (amountAt cr.utilizedNonexclusive t)
  else amountAt cr.utilized t

def IsBreakpoint (cr : Usage) (forExclRequest : Bool) (t : ℕ) : Prop :=
  ∃ d ∈ consideredDiagrams cr forExclRequest, ∃ e ∈ d, e.time = t

section Considered

variable {cr : Usage} {forExclRequest : Bool} {maxUtil : ℚ}

variable {t : ℕ}

theorem consideredAt_le_iff :
    consideredAt cr forExclRequest t ≤ maxUtil ↔
      amountAt cr.utilized t ≤ maxUtil ∧
        (forExclRequest = true → amountAt cr.utilizedNonexclusive t ≤ maxUtil) := by
  cases forExclRequest
  · simp [consideredAt]
  · simp [consideredAt]

theorem consideredAt_succ (h : ¬ IsBreakpoint cr forExclRequest (t + 1)) :
    consideredAt cr forExclRequest t = consideredAt cr forExclRequest (t + 1) := by
  have hsame : ∀ d ∈ consideredDiagrams cr forExclRequest,
      valueAt Rde.time Rde.amount 0 d t = valueAt Rde.time Rde.amount 0 d (t + 1) := by
    intro d hd
    refine valueAt_congr fun e he => ?_
    have hne : e.time ≠ t + 1 := fun heq => h ⟨d, hd, e, he, heq⟩
    omega
  unfold consideredAt amountAt
  unfold consideredDiagrams at hsame
  cases forExclRequest with
  | false => exact hsame _ (.head _)
  | true =>
    have hfirst := hsame _ (.head _)
    have hsecond := hsame _ (.tail _ (.head _))
    rw [if_pos rfl, if_pos rfl, hfirst, hsecond]

end Considered

/-! ## The maximum over a window -/

section Maximum

variable {cr : Usage} {forExclRequest : Bool} {maxUtil : ℚ}

def amountsIn (cr : Usage) (forExclRequest : Bool) (start stop : ℕ) : Set ℚ :=
  {v | ∃ u, (u = start ∨ start ≤ u ∧ u < stop) ∧ consideredAt cr forExclRequest u = v}

/-- **The maximum is that of the amounts** in the window. -/
theorem utilizationMax_isGreatest (hcr : WellFormedUsage cr forExclRequest) {start : ℕ}
    (duration : ℕ) (hnow : start ≠ dispatchTimeNow) (hend : start ≠ dispatchTimeQueueEnd) :
    IsGreatest (amountsIn cr forExclRequest start (utilizationEndtime start duration))
      (utilizationMax cr start duration forExclRequest) := by
  unfold utilizationMax
  rw [if_neg hnow, if_neg hend]
  set stop := utilizationEndtime start duration
  obtain ⟨⟨u, hu, hm⟩, hupper⟩ := windowMax_isGreatest (b := (0 : ℚ))
    hcr.utilized.increasing
  dsimp only
  set m := windowMax Rde.time Rde.amount 0 start stop (cr.utilized.getD [])
  have hle : ∀ w, (w = start ∨ start ≤ w ∧ w < stop) → amountAt cr.utilized w ≤ m :=
    fun w hw => hupper ⟨w, hw, rfl⟩
  have hmu : amountAt cr.utilized u = m := hm
  cases forExclRequest with
  | false =>
    refine ⟨⟨u, hu, hm⟩, ?_⟩
    rintro x ⟨w, hw, rfl⟩
    exact hle w hw
  | true =>
    obtain ⟨⟨v, hv, hmNon⟩, hupperNon⟩ := windowMax_isGreatest
      (b := (0 : ℚ)) (hcr.nonexclusive rfl).increasing
    set mNon := windowMax Rde.time Rde.amount 0 start stop (cr.utilizedNonexclusive.getD [])
    have hleNon : ∀ w, (w = start ∨ start ≤ w ∧ w < stop) →
        amountAt cr.utilizedNonexclusive w ≤ mNon := fun w hw => hupperNon ⟨w, hw, rfl⟩
    have hmv : amountAt cr.utilizedNonexclusive v = mNon := hmNon
    simp only [Bool.true_and, decide_eq_true_eq]
    split_ifs with hlt
    · refine ⟨⟨v, hv, ?_⟩, ?_⟩
      · rw [consideredAt, if_pos rfl, hmv]
        exact max_eq_right (le_trans (hle v hv) (le_of_lt hlt))
      · rintro x ⟨w, hw, rfl⟩
        exact consideredAt_le_iff.mpr
          ⟨le_trans (hle w hw) (le_of_lt hlt), fun _ => hleNon w hw⟩
    · refine ⟨⟨u, hu, ?_⟩, ?_⟩
      · rw [consideredAt, if_pos rfl, hmu]
        exact max_eq_left (le_trans (hleNon u hu) (not_lt.mp hlt))
      · rintro x ⟨w, hw, rfl⟩
        exact consideredAt_le_iff.mpr
          ⟨hle w hw, fun _ => le_trans (hleNon w hw) (not_lt.mp hlt)⟩

end Maximum

/-! ## The time from which the amounts stay low -/

section Settled

variable {cr : Usage} {forExclRequest : Bool} {maxUtil : ℚ}

variable {u : ℕ}

/-- The bound is kept in a diagram from the time found for it. -/
theorem amountAt_le_of_search {d : Option (List Rde)} (hd : EndsIdle (d.getD []))
    (hmax : 0 ≤ maxUtil) (hu : searchBackward maxUtil (d.getD []) ≤ u) :
    amountAt d u ≤ maxUtil := by
  apply valueAt_le_of_settled hmax _ hu
  intro e he
  rw [hd.last e he]
  exact hmax

theorem settledWhen_eq (cr : Usage) (maxUtil : ℚ) (forExclRequest : Bool) :
    settledWhen cr maxUtil forExclRequest =
      if forExclRequest then max (searchBackward maxUtil (cr.utilized.getD []))
        (searchBackward maxUtil (cr.utilizedNonexclusive.getD []))
      else searchBackward maxUtil (cr.utilized.getD []) := by
  cases forExclRequest with
  | false => rfl
  | true =>
    simp only [settledWhen, Bool.true_and, decide_eq_true_eq, if_true]
    split_ifs with h
    · exact (max_eq_right (le_of_lt h)).symm
    · exact (max_eq_left (not_lt.mp h)).symm

variable (hcr : WellFormedUsage cr forExclRequest)
include hcr

/-- From the time found on the amounts stay at or below the bound. -/
theorem consideredAt_le_of_settled (hmax : 0 ≤ maxUtil)
    (hu : settledWhen cr maxUtil forExclRequest ≤ u) :
    consideredAt cr forExclRequest u ≤ maxUtil := by
  rw [settledWhen_eq] at hu
  apply consideredAt_le_iff.mpr
  cases forExclRequest with
  | false => exact ⟨amountAt_le_of_search hcr.utilized hmax hu, nofun⟩
  | true =>
    rw [if_pos rfl] at hu
    exact ⟨amountAt_le_of_search hcr.utilized hmax (le_trans (le_max_left _ _) hu),
      fun _ => amountAt_le_of_search (hcr.nonexclusive rfl) hmax (le_trans (le_max_right _ _) hu)⟩

/-- Just before the time found they exceed it, and an entry begins there. -/
theorem lt_consideredAt_of_settled (hpos : 0 < settledWhen cr maxUtil forExclRequest) :
    IsBreakpoint cr forExclRequest (settledWhen cr maxUtil forExclRequest) ∧
      maxUtil < consideredAt cr forExclRequest (settledWhen cr maxUtil forExclRequest - 1) := by
  have hsearch : ∀ {d : Option (List Rde)}, EndsIdle (d.getD []) →
      0 < searchBackward maxUtil (d.getD []) →
      (∃ e ∈ d.getD [], e.time = searchBackward maxUtil (d.getD [])) ∧
        maxUtil < amountAt d (searchBackward maxUtil (d.getD []) - 1) :=
    fun hd hpos => lt_valueAt_of_settled hd.increasing hpos
  rw [settledWhen_eq] at hpos ⊢
  cases forExclRequest with
  | false =>
    obtain ⟨he, hlt⟩ := hsearch hcr.utilized hpos
    exact ⟨⟨_, .head _, he⟩, hlt⟩
  | true =>
    rw [if_pos rfl] at hpos ⊢
    rw [consideredAt, if_pos rfl]
    rcases le_total (searchBackward maxUtil (cr.utilizedNonexclusive.getD []))
      (searchBackward maxUtil (cr.utilized.getD [])) with h | h
    · rw [max_eq_left h] at hpos ⊢
      obtain ⟨he, hlt⟩ := hsearch hcr.utilized hpos
      exact ⟨⟨_, .head _, he⟩, lt_max_of_lt_left hlt⟩
    · rw [max_eq_right h] at hpos ⊢
      obtain ⟨he, hlt⟩ := hsearch (hcr.nonexclusive rfl) hpos
      exact ⟨⟨_, .tail _ (.head _), he⟩, lt_max_of_lt_right hlt⟩

/-- The times from which on the amounts stay at or below the bound. -/
def SettledFrom (cr : Usage) (forExclRequest : Bool) (maxUtil : ℚ) (t : ℕ) : Prop :=
  ∀ u, t ≤ u → consideredAt cr forExclRequest u ≤ maxUtil

theorem settledWhen_le {t : ℕ}
    (ht : SettledFrom cr forExclRequest maxUtil t) : settledWhen cr maxUtil forExclRequest ≤ t := by
  by_contra hlt
  have hpos : 0 < settledWhen cr maxUtil forExclRequest := by omega
  obtain ⟨-, hexceeds⟩ := lt_consideredAt_of_settled hcr hpos
  exact absurd (ht _ (by omega)) (not_le.mpr hexceeds)

/-- **The backward search finds the first** of them, now or where an entry begins. -/
theorem settledWhen_isLeast (hmax : 0 ≤ maxUtil) :
    IsLeast {t | (t = dispatchTimeNow ∨ IsBreakpoint cr forExclRequest t) ∧
      SettledFrom cr forExclRequest maxUtil t} (settledWhen cr maxUtil forExclRequest) := by
  refine ⟨⟨?_, fun u hu => consideredAt_le_of_settled hcr hmax hu⟩, ?_⟩
  · rcases Nat.eq_zero_or_pos (settledWhen cr maxUtil forExclRequest) with h | h
    · exact Or.inl h
    · exact Or.inr (lt_consideredAt_of_settled hcr h).1
  · rintro t ⟨-, ht⟩
    exact settledWhen_le hcr ht

end Settled

/-- **Without an assignment** the search finds the first time, now or where an entry begins,
from which the amounts stay at or below the bound; it is now exactly if they never exceed
it. The maximum over a window is the supremum of the amounts in it, so that it is at or
below the bound in every window from the time found on. -/
theorem utilizationBelow_agrees_utilizationMax (cr : Usage) (forExclRequest : Bool)
    (hcr : WellFormedUsage cr forExclRequest) (maxUtil : ℚ) (hmax : 0 ≤ maxUtil) :
    let below := utilizationBelowFor none cr maxUtil forExclRequest
    IsLeast {t | (t = dispatchTimeNow ∨ IsBreakpoint cr forExclRequest t) ∧
      SettledFrom cr forExclRequest maxUtil t} below ∧
    (below = dispatchTimeNow ↔ ∀ u, consideredAt cr forExclRequest u ≤ maxUtil) ∧
    (∀ start duration, start ≠ dispatchTimeNow → start ≠ dispatchTimeQueueEnd →
      IsLUB (amountsIn cr forExclRequest start (utilizationEndtime start duration))
        (utilizationMax cr start duration forExclRequest)) ∧
    ∀ start duration, below ≤ start → start ≠ dispatchTimeNow →
      start ≠ dispatchTimeQueueEnd →
      utilizationMax cr start duration forExclRequest ≤ maxUtil := by
  intro below
  have hleast : IsLeast {t | (t = dispatchTimeNow ∨ IsBreakpoint cr forExclRequest t) ∧
      SettledFrom cr forExclRequest maxUtil t} below := settledWhen_isLeast hcr hmax
  refine ⟨hleast, ⟨fun h u => ?_, fun h => ?_⟩, ?_, ?_⟩
  · exact hleast.1.2 u (h ▸ Nat.zero_le u)
  · exact Nat.le_zero.mp (hleast.2 ⟨Or.inl rfl, fun u _ => h u⟩)
  · intro start duration hnow hend
    exact (utilizationMax_isGreatest hcr duration hnow hend).isLUB
  · intro start duration hle hnow hend
    obtain ⟨⟨u, hu, heq⟩, -⟩ := utilizationMax_isGreatest hcr
      duration hnow hend
    rw [← heq]
    exact hleast.1.2 u (by omega)

/-- The bookings of `bookedSlots`, with two slots for each job. -/
def bookedUsage : Usage :=
  { Usage.new "slots" with utilized := some bookedSlots }

theorem bookedUsage_wellFormed (forExclRequest : Bool) :
    WellFormedUsage bookedUsage forExclRequest where
  utilized := bookedSlots_endsIdle
  nonexclusive := fun _ => ⟨List.Pairwise.nil, nofun⟩

/-- Two of three booked slots are free from 200 on. -/
theorem utilizationBelow_agrees_utilizationMax_booked :
    utilizationBelowFor none bookedUsage 2 false = 200 ∧
      utilizationMax bookedUsage 250 50 false ≤ 2 :=
  ⟨by decide, (utilizationBelow_agrees_utilizationMax bookedUsage false
    (bookedUsage_wellFormed false) 2 (by decide)).2.2.2 250 50 (by decide) (by decide)
    (by decide)⟩

/-! ## The first free window -/

/-- The amounts stay at or below the bound for a duration. -/
def FreeWindow (cr : Usage) (forExclRequest : Bool) (maxUtil : ℚ) (duration t : ℕ) : Prop :=
  ∀ u, t ≤ u → u < t + duration → consideredAt cr forExclRequest u ≤ maxUtil

/-- The window is free, and in every earlier one the bound is exceeded. -/
structure EarliestWindow (cr : Usage) (forExclRequest : Bool) (maxUtil : ℚ) (a : TimeFrame)
    (first : ℕ) : Prop where
  free : FreeWindow cr forExclRequest maxUtil a.duration first
  earliest : ∀ t, a.now ≤ t → t < first →
    ∃ u, t ≤ u ∧ u < t + a.duration ∧ maxUtil < consideredAt cr forExclRequest u

/-- The search looks at a window: one that begins now, or with a later entry of the
diagram of the jobs that use the resource. -/
def LookedAt (cr : Usage) (a : TimeFrame) (t : ℕ) : Prop :=
  t = a.now ∨ a.now < t ∧ ∃ e ∈ cr.utilized.getD [], e.time = t

/-- If the window that begins now is taken, it is free. Where a free window begins now or
with a later entry of any diagram considered, before the amounts stay low for good, one of
those that the search looks at is taken until then. -/
structure WindowsSeen (cr : Usage) (forExclRequest : Bool) (maxUtil : ℚ) (a : TimeFrame) :
    Prop where
  now_free : utilizationFitsDuration a.duration cr a.now maxUtil forExclRequest = true →
    FreeWindow cr forExclRequest maxUtil a.duration a.now
  preceded : ∀ t, (t = a.now ∨ a.now < t ∧ IsBreakpoint cr forExclRequest t) →
    FreeWindow cr forExclRequest maxUtil a.duration t →
    ¬ SettledFrom cr forExclRequest maxUtil t →
    ∃ c ≤ t, LookedAt cr a c ∧
      utilizationFitsDuration a.duration cr c maxUtil forExclRequest = true

/-- Times are 64 bit numbers. -/
structure TimedUsage (cr : Usage) (forExclRequest : Bool) (a : TimeFrame) : Prop where
  entries : ∀ t, IsBreakpoint cr forExclRequest t → t < 2 ^ 64
  now : a.now < 2 ^ 64
  duration : a.duration < 2 ^ 64

section Earliest

variable {cr : Usage} {forExclRequest : Bool} {maxUtil : ℚ} {a : TimeFrame}

variable {t : ℕ}

theorem not_freeWindow_iff {duration : ℕ} :
    ¬ FreeWindow cr forExclRequest maxUtil duration t ↔
      ∃ u, t ≤ u ∧ u < t + duration ∧ maxUtil < consideredAt cr forExclRequest u := by
  unfold FreeWindow
  push Not
  rfl

theorem settledFrom_of_breakpoints (hcr : WellFormedUsage cr forExclRequest)
    (hmax : 0 ≤ maxUtil) (ht : ∀ b, IsBreakpoint cr forExclRequest b → b ≤ t) :
    SettledFrom cr forExclRequest maxUtil t := by
  intro u hu
  have hzero : ∀ {d : Option (List Rde)}, EndsIdle (d.getD []) →
      d.getD [] ∈ consideredDiagrams cr forExclRequest → amountAt d u ≤ maxUtil := by
    intro d hd hmem
    have h : amountAt (some (d.getD [])) u = 0 :=
      hd.eventually_zero fun e he => le_trans (ht _ ⟨_, hmem, e, he, rfl⟩) hu
    exact le_trans (le_of_eq h) hmax
  apply consideredAt_le_iff.mpr
  cases forExclRequest with
  | false => exact ⟨hzero hcr.utilized (.head _), nofun⟩
  | true =>
    exact ⟨hzero hcr.utilized (.head _), fun _ =>
      hzero (hcr.nonexclusive rfl) (.tail _ (.head _))⟩

variable {c : ℕ}

/-- A window that is taken is free until its end as it is computed. -/
theorem fitsDuration_iff (hcr : WellFormedUsage cr forExclRequest) (hpos : 0 < c)
    (hend : c ≠ uint64Max) (hc : c < 2 ^ 64) (hdur : a.duration < 2 ^ 64) (hd : 0 < a.duration) :
    utilizationFitsDuration a.duration cr c maxUtil forExclRequest = true ↔
      ∀ u, c ≤ u → u < utilizationEndtime c a.duration →
        consideredAt cr forExclRequest u ≤ maxUtil := by
  have hlt : c < utilizationEndtime c a.duration := by
    unfold uint64Max at hend
    rcases utilizationEndtime_cases hc hdur with h | h
    · omega
    · rw [h, uint64Max]
      omega
  have hgreatest := utilizationMax_isGreatest hcr a.duration
    (Nat.pos_iff_ne_zero.mp hpos) hend
  rw [utilizationFitsDuration, decide_eq_true_eq, isLUB_le_iff hgreatest.isLUB]
  constructor
  · exact fun h u hu hstop => h ⟨u, Or.inr ⟨hu, hstop⟩, rfl⟩
  · rintro h v ⟨u, hu, rfl⟩
    exact h u (by omega) (by omega)

theorem freeWindow_of_fits (hcr : WellFormedUsage cr forExclRequest) (hmax : 0 ≤ maxUtil)
    (htimed : TimedUsage cr forExclRequest a) (hd : 0 < a.duration) (hpos : 0 < c)
    (hc : c < uint64Max)
    (hfit : utilizationFitsDuration a.duration cr c maxUtil forExclRequest = true) :
    FreeWindow cr forExclRequest maxUtil a.duration c := by
  have hc' : c < 2 ^ 64 := lt_of_lt_of_le hc (Nat.sub_le _ _)
  rw [fitsDuration_iff hcr hpos (ne_of_lt hc) hc' htimed.duration hd] at hfit
  intro u hu hstop
  rcases utilizationEndtime_cases hc' htimed.duration with h | h
  · exact hfit u hu (h ▸ hstop)
  · by_cases hlt : u < uint64Max
    · exact hfit u hu (h ▸ hlt)
    · apply settledFrom_of_breakpoints hcr hmax _ u (not_lt.mp hlt)
      intro b hb
      exact Nat.le_pred_of_lt (htimed.entries b hb)

theorem exists_first_freeWindow (hnow : a.now ≤ t)
    (hfree : FreeWindow cr forExclRequest maxUtil a.duration t) :
    ∃ s ≤ t, (s = a.now ∨ a.now < s ∧ IsBreakpoint cr forExclRequest s) ∧
      FreeWindow cr forExclRequest maxUtil a.duration s := by
  induction t with
  | zero => exact ⟨0, le_refl _, Or.inl (Nat.le_zero.mp hnow).symm, hfree⟩
  | succ t ih =>
    by_cases hstart : t + 1 = a.now ∨ a.now < t + 1 ∧ IsBreakpoint cr forExclRequest (t + 1)
    · exact ⟨t + 1, le_refl _, hstart, hfree⟩
    · push Not at hstart
      obtain ⟨hne, hbreak⟩ := hstart
      have hle : a.now ≤ t := by omega
      have hsame := consideredAt_succ (hbreak (by omega))
      have hfree' : FreeWindow cr forExclRequest maxUtil a.duration t := by
        intro u hu hstop
        rcases Nat.eq_or_lt_of_le hu with rfl | hlt
        · rw [hsame]
          exact hfree (t + 1) (le_refl _) (by omega)
        · exact hfree u hlt (by omega)
      obtain ⟨s, hs, hbegin, hsfree⟩ := ih hle hfree'
      exact ⟨s, by omega, hbegin, hsfree⟩

/-- Where the end of a window is cut off or rounded, it lies behind all usual times. -/
theorem settledFrom_of_cut (hcr : WellFormedUsage cr forExclRequest) (hmax : 0 ≤ maxUtil)
    (htimes : ∀ t, IsBreakpoint cr forExclRequest t → t < 2 ^ 62)
    (hcut : utilizationEndtime t a.duration ≠ t + a.duration) :
    SettledFrom cr forExclRequest maxUtil (t + a.duration) := by
  have hlarge : 2 ^ 62 ≤ t + a.duration := by
    by_contra hlt
    apply hcut
    have hsum : toBinary64 (toBinary64 t + toBinary64 a.duration) < toBinary64 uint64Max := by
      have ht2 := toBinary64_le_two_mul t
      have hd2 := toBinary64_le_two_mul a.duration
      have hsum2 := toBinary64_le_two_mul (toBinary64 t + toBinary64 a.duration)
      have htop : toBinary64 uint64Max = 2 ^ 64 := by decide
      omega
    rw [utilizationEndtime, if_pos hsum]
    exact Nat.mod_eq_of_lt (by omega)
  apply settledFrom_of_breakpoints hcr hmax
  intro b hb
  exact le_of_lt (lt_of_lt_of_le (htimes b hb) hlarge)

/-- **Enough windows are looked at** from a positive time on if no window can open with an
entry of the second diagram only. This is so for every request that is not exclusive. -/
theorem windowsSeen_of_entries (hcr : WellFormedUsage cr forExclRequest) (hmax : 0 ≤ maxUtil)
    (hd : 0 < a.duration) (hdur : a.duration < 2 ^ 64) (hnow : 0 < a.now)
    (hnow' : a.now < uint64Max) (htimes : ∀ t, IsBreakpoint cr forExclRequest t → t < 2 ^ 62)
    (hentries : ∀ t, IsBreakpoint cr forExclRequest t → ∃ e ∈ cr.utilized.getD [], e.time = t) :
    WindowsSeen cr forExclRequest maxUtil a where
  now_free := by
    have htimed : TimedUsage cr forExclRequest a :=
      ⟨fun t ht => lt_trans (htimes t ht) (by decide),
        lt_of_lt_of_le hnow' (Nat.sub_le _ _), hdur⟩
    exact freeWindow_of_fits hcr hmax htimed hd hnow hnow'
  preceded := by
    intro t hbegin hfree hunsettled
    have hpos : 0 < t := by
      rcases hbegin with rfl | ⟨h, -⟩
      · exact hnow
      · exact lt_of_le_of_lt (Nat.zero_le _) h
    have ht : t < uint64Max := by
      rcases hbegin with rfl | ⟨-, hb⟩
      · exact hnow'
      · exact lt_trans (htimes t hb) (by decide)
    have ht' : t < 2 ^ 64 := lt_of_lt_of_le ht (Nat.sub_le _ _)
    refine ⟨t, le_refl t, ?_, ?_⟩
    · rcases hbegin with h | ⟨h, hb⟩
      · exact Or.inl h
      · exact Or.inr ⟨h, hentries t hb⟩
    · rw [fitsDuration_iff hcr hpos (ne_of_lt ht) ht' hdur hd]
      intro u hu hstop
      by_cases hin : u < t + a.duration
      · exact hfree u hu hin
      · refine settledFrom_of_cut hcr hmax htimes (fun heq => ?_) u (not_lt.mp hin)
        rw [heq] at hstop
        exact hin hstop

/-- What the search returns, and the windows that are not before it. -/
theorem utilizationBelow_cases (a : TimeFrame) (hd : 0 < a.duration)
    (hspaced : Spaced 1 Rde.time (cr.utilized.getD [])) :
    let settled := settledWhen cr maxUtil forExclRequest
    let first := utilizationBelowFor (some a) cr maxUtil forExclRequest
    (first = settled ∨ LookedAt cr a first ∧ first < settled ∧
      utilizationFitsDuration a.duration cr first maxUtil forExclRequest = true) ∧
    ∀ c, LookedAt cr a c →
      utilizationFitsDuration a.duration cr c maxUtil forExclRequest = true →
      first ≤ c ∨ settled ≤ c := by
  intro settled first
  set earlier := earlierWindow a.now a.duration cr maxUtil forExclRequest settled with hearlier
  have hfirst : first = if settled ≠ dispatchTimeNow ∧ 0 < a.duration then
      if earlier < settled then earlier else settled else settled := rfl
  have hle : ∀ c, LookedAt cr a c →
      utilizationFitsDuration a.duration cr c maxUtil forExclRequest = true →
      earlier ≤ c ∨ settled ≤ c := fun c hc hfit => earlierWindow_le_of_fits hspaced hc hfit
  by_cases hlt : earlier < settled
  · have hne : settled ≠ dispatchTimeNow := by
      intro h
      rw [h] at hlt
      exact Nat.not_lt_zero _ hlt
    rw [if_pos ⟨hne, hd⟩, if_pos hlt] at hfirst
    rw [hfirst]
    refine ⟨?_, hle⟩
    rcases earlierWindow_cases a.now a.duration cr maxUtil forExclRequest settled with
      h | ⟨h, hfit⟩ | ⟨hlo, -, he, hfit⟩
    · exact Or.inl h
    · rw [← hearlier] at h
      exact Or.inr ⟨Or.inl h, hlt, h ▸ hfit⟩
    · exact Or.inr ⟨Or.inr ⟨hlo, he⟩, hlt, hfit⟩
  · have hsettled : first = settled := by
      rw [hfirst]
      split_ifs
      · rfl
      · rfl
    rw [hsettled]
    refine ⟨Or.inl rfl, fun c hc hfit => ?_⟩
    rcases hle c hc hfit with h | h
    · exact Or.inl (le_trans (not_lt.mp hlt) h)
    · exact Or.inr h

end Earliest

/-- **With an assignment** the search finds the first free window from now on exactly where
it looks at enough windows. -/
theorem utilizationBelow_earliest_iff (cr : Usage) (forExclRequest : Bool)
    (hcr : WellFormedUsage cr forExclRequest) (a : TimeFrame)
    (htimed : TimedUsage cr forExclRequest a) (hd : 0 < a.duration) (maxUtil : ℚ)
    (hmax : 0 ≤ maxUtil) :
    EarliestWindow cr forExclRequest maxUtil a
        (max (utilizationBelowFor (some a) cr maxUtil forExclRequest) a.now) ↔
      WindowsSeen cr forExclRequest maxUtil a := by
  obtain ⟨hreturned, hfirst⟩ := utilizationBelow_cases a hd hcr.utilized.increasing
  set first := utilizationBelowFor (some a) cr maxUtil forExclRequest
  have hsettled : ∀ t, settledWhen cr maxUtil forExclRequest ≤ t →
      SettledFrom cr forExclRequest maxUtil t :=
    fun t ht u hu => consideredAt_le_of_settled hcr hmax (le_trans ht hu)
  have hfree : ∀ t, settledWhen cr maxUtil forExclRequest ≤ t →
      FreeWindow cr forExclRequest maxUtil a.duration t :=
    fun t ht u hu _ => hsettled t ht u hu
  constructor
  · rintro ⟨hwindow, hearliest⟩
    have hfirst_le : ∀ t, a.now ≤ t → FreeWindow cr forExclRequest maxUtil a.duration t →
        max first a.now ≤ t := by
      intro t hnow ht
      by_contra hlt
      exact not_freeWindow_iff.mpr (hearliest t hnow (not_le.mp hlt)) ht
    refine ⟨fun hfit => ?_, fun t hbegin ht hunsettled => ?_⟩
    · -- what is returned is not later than now
      rcases hfirst a.now (Or.inl rfl) hfit with h | h
      · rwa [max_eq_right h] at hwindow
      · exact hfree a.now h
    · have hnow : a.now ≤ t := by
        rcases hbegin with rfl | ⟨hlt, -⟩
        · exact le_refl _
        · exact le_of_lt hlt
      have hle : first ≤ t := le_trans (le_max_left _ _) (hfirst_le t hnow ht)
      rcases hreturned with h | ⟨hlooked, -, hfit⟩
      · exact absurd (hsettled t (h ▸ hle)) hunsettled
      · exact ⟨first, hle, hlooked, hfit⟩
  · rintro ⟨hnowFree, hpreceded⟩
    refine ⟨?_, fun t hnow hlt => not_freeWindow_iff.mp fun ht => ?_⟩
    · rcases hreturned with h | ⟨hlooked, hlt, hfit⟩
      · exact hfree _ (h ▸ le_max_left first a.now)
      · rcases hlooked with heq | ⟨hlater, e, he, htime⟩
        · rw [heq, max_self]
          rw [heq] at hfit
          exact hnowFree hfit
        · rw [max_eq_left (le_of_lt hlater)]
          have hend : first < uint64Max := by
            have hpos : 0 < settledWhen cr maxUtil forExclRequest :=
              lt_of_le_of_lt (Nat.zero_le _) hlt
            have := htimed.entries _ (lt_consideredAt_of_settled hcr hpos).1
            exact lt_of_lt_of_le hlt (Nat.le_pred_of_lt this)
          exact freeWindow_of_fits hcr hmax htimed hd (lt_of_le_of_lt (Nat.zero_le _) hlater)
            hend hfit
    · obtain ⟨s, hs, hbegin, hsfree⟩ := exists_first_freeWindow hnow ht
      have hbefore : s < max first a.now := lt_of_le_of_lt hs hlt
      have hnow' : a.now ≤ s := by
        rcases hbegin with rfl | ⟨h, -⟩
        · exact le_refl _
        · exact le_of_lt h
      have hsfirst : s < first := by
        rcases lt_max_iff.mp hbefore with h | h
        · exact h
        · omega
      have hfirst_le : first ≤ settledWhen cr maxUtil forExclRequest := by
        rcases hreturned with h | ⟨-, h, -⟩
        · exact le_of_eq h
        · exact le_of_lt h
      have hunsettled : ¬ SettledFrom cr forExclRequest maxUtil s := by
        intro h
        have := settledWhen_le hcr h
        omega
      obtain ⟨c, hc, hlooked, hfit⟩ := hpreceded s hbegin hsfree hunsettled
      rcases hfirst c hlooked hfit with h | h
      · omega
      · omega

def tenFrom (now : ℕ) : TimeFrame where
  now := now
  duration := 10

theorem bookedUsage_timed : TimedUsage bookedUsage false (tenFrom 50) where
  entries := by
    rintro t ⟨d, hd, e, he, rfl⟩
    have hall : ∀ d ∈ consideredDiagrams bookedUsage false, ∀ e ∈ d, e.time < 2 ^ 64 := by decide
    exact hall d hd e he
  now := by decide
  duration := by decide

/-- At 50 ten time units are free, before the three slots are taken. -/
theorem utilizationBelow_earliest_iff_booked :
    EarliestWindow bookedUsage false 2 (tenFrom 50) 50 := by
  have hseen : WindowsSeen bookedUsage false 2 (tenFrom 50) := by
    apply windowsSeen_of_entries (bookedUsage_wellFormed false) (by decide) (by decide)
      (by decide) (by decide) (by decide)
    · rintro t ⟨d, hd, e, he, rfl⟩
      have hall : ∀ d ∈ consideredDiagrams bookedUsage false, ∀ e ∈ d, e.time < 2 ^ 62 := by
        decide
      exact hall d hd e he
    · rintro t ⟨d, hd, e, he, rfl⟩
      obtain rfl := List.mem_singleton.mp hd
      exact ⟨e, he, rfl⟩
  have h := (utilizationBelow_earliest_iff bookedUsage false (bookedUsage_wellFormed false)
    (tenFrom 50) bookedUsage_timed (by decide) 2 (by decide)).mpr hseen
  rwa [show max (utilizationBelowFor (some (tenFrom 50)) bookedUsage 2 false)
    (tenFrom 50).now = 50 by decide] at h

/-- Jobs that do not ask for the resource run on `[10, 20)` and are booked on `[30, 40)`. -/
def sharedUsage : Usage :=
  { Usage.new "exclusive" with
    utilizedNonexclusive := some [newResourceElem 10 1, newResourceElem 20 0,
      newResourceElem 30 1, newResourceElem 40 0] }

def threeFrom (now : ℕ) : TimeFrame where
  now := now
  duration := 3

/-- **The window between the jobs is not found**, since it opens with an entry of the second
diagram. -/
theorem utilizationBelow_misses_window :
    WellFormedUsage sharedUsage true ∧ TimedUsage sharedUsage true (threeFrom 12) ∧
      ¬ EarliestWindow sharedUsage true 0 (threeFrom 12)
        (max (utilizationBelowFor (some (threeFrom 12)) sharedUsage 0 true)
          (threeFrom 12).now) := by
  refine ⟨⟨⟨List.Pairwise.nil, nofun⟩, fun _ => ⟨?_, ?_⟩⟩, ⟨?_, by decide, by decide⟩, ?_⟩
  · simp [sharedUsage, Spaced, newResourceElem]
  · rintro e ⟨rfl⟩
    rfl
  · rintro t ⟨d, hd, e, he, rfl⟩
    have hall : ∀ d ∈ consideredDiagrams sharedUsage true, ∀ e ∈ d, e.time < 2 ^ 64 := by decide
    exact hall d hd e he
  · rintro ⟨-, hearliest⟩
    obtain ⟨u, hu, hstop, hexceeds⟩ := hearliest 20 (by decide) (by decide)
    have hu' : u = 20 ∨ u = 21 ∨ u = 22 := by
      have : (threeFrom 12).duration = 3 := rfl
      omega
    rcases hu' with rfl | rfl | rfl
    · exact absurd hexceeds (by decide)
    · exact absurd hexceeds (by decide)
    · exact absurd hexceeds (by decide)

end ClusterScheduler.Sched
