import ClusterScheduler.Sgeobj.CalendarInvariants
import Mathlib.Data.List.Induction

/-!
# The days of a list of weekdays

A list of weekdays is split at the end of the week, joined and extended. What a day has to
do with the result is followed through the three.

* `weekDayItems` — the items of a list as they stand in the text; `Belongs` — their days.
* `touches`, `reach` — which ranges a turn of `join_wday_range()` takes in, and where it
  lets its range end.
* `TurnKeeps` — a turn in which no day is lost; `LosesNothing` — all turns are such.
* `joinRanges_keeps_iff` — joining adds no day, and loses none exactly then.
* `weekDayRangeList_union_iff` — so it is for the whole list.
-/

namespace ClusterScheduler.Sgeobj.Calendar

open Foundation.CivilTime

/-! ## Items -/

/-- The items of a list, in the order of the text. -/
def weekDayItems (ts : TokenSet) (sc : Scanner) :
    Except ParseMessage (List TimeRange × Scanner) := do
  let (tmr, sc) ← weekDayRange ts sc
  commaList ts (weekDayRange ts) (fun acc r => acc ++ [r]) sc.rest.length [tmr] sc

def weekDaysOf (items : List TimeRange) : List TimeRange :=
  extendWdayRange (joinWdayRange (items.foldl splitWdayRange []))

/-- The day belongs to the item. A range with its begin behind its end goes over the end
of the week. -/
def Belongs (day : ℤ) (item : TimeRange) : Prop :=
  match item.tmrEnd with
  | none => day = item.tmrBegin.wday
  | some t =>
    if item.tmrBegin.wday ≤ t.wday then item.tmrBegin.wday ≤ day ∧ day ≤ t.wday
    else item.tmrBegin.wday ≤ day ∨ day ≤ t.wday

/-- Both days of an item are days of a week. -/
def ItemOk (item : TimeRange) : Prop :=
  (0 ≤ item.tmrBegin.wday ∧ item.tmrBegin.wday ≤ 6) ∧
    ∀ t ∈ item.tmrEnd, 0 ≤ t.wday ∧ t.wday ≤ 6

theorem yields_weekDayItem (ts : TokenSet) (sc : Scanner) : Yields ItemOk (weekDayRange ts sc) := by
  unfold weekDayRange
  refine (yields_weekDay ts sc).bind fun t1 sc h1 => ?_
  dsimp only
  split
  · refine (yields_weekDay ts _).bind fun t2 sc h2 => ?_
    dsimp only
    split
    · exact .error
    · refine .ok ⟨h1.2, ?_⟩
      rintro t ⟨⟩
      exact h2.2
  · exact .ok ⟨h1.2, nofun⟩

theorem yields_weekDayItems (ts : TokenSet) (sc : Scanner) :
    Yields (fun items => ∀ item ∈ items, ItemOk item) (weekDayItems ts sc) := by
  unfold weekDayItems
  refine (yields_weekDayItem ts sc).bind fun r sc hr => ?_
  dsimp only
  refine Yields.commaList (yields_weekDayItem ts) (fun acc a hacc ha => ?_)
    (List.forall_mem_singleton.mpr hr)
  exact List.forall_mem_append.mpr ⟨hacc, List.forall_mem_singleton.mpr ha⟩

/-- Items that are put in order while they are read can be put in order in the end. -/
theorem commaList_map {α : Type} {ts : TokenSet}
    {item : Scanner → Except ParseMessage (α × Scanner)} {add add' : List α → α → List α}
    {g : List α → List α} (hadd : ∀ acc a, g (add acc a) = add' (g acc) a) (fuel : ℕ)
    (acc : List α) (sc : Scanner) :
    commaList ts item add' fuel (g acc) sc =
      (commaList ts item add fuel acc sc).map fun p => (g p.1, p.2) := by
  induction fuel generalizing acc sc with
  | zero => rfl
  | succ fuel ih =>
    unfold commaList
    split
    · cases item _ with
      | error e => rfl
      | ok p =>
        show commaList ts item add' fuel (add' (g acc) p.1) p.2 = _
        rw [← hadd]
        exact ih _ _
    · rfl

theorem weekDayRangeList_eq (ts : TokenSet) (sc : Scanner) :
    weekDayRangeList ts sc = (weekDayItems ts sc).map fun p => (weekDaysOf p.1, p.2) := by
  unfold weekDayRangeList weekDayItems
  cases weekDayRange ts sc with
  | error e => rfl
  | ok p =>
    have hfold (acc : List TimeRange) (a : TimeRange) :
        (acc ++ [a]).foldl splitWdayRange [] = splitWdayRange (acc.foldl splitWdayRange []) a := by
      rw [List.foldl_append, List.foldl_cons, List.foldl_nil]
    have hmap : commaList ts (weekDayRange ts) splitWdayRange p.2.rest.length
        ([p.1].foldl splitWdayRange []) p.2 = _ :=
      commaList_map (g := fun items => items.foldl splitWdayRange []) hfold _ _ _
    show ((commaList ts (weekDayRange ts) splitWdayRange p.2.rest.length
      (splitWdayRange [] p.1) p.2).bind fun q =>
        .ok (extendWdayRange (joinWdayRange q.1), q.2)) = _
    rw [show splitWdayRange [] p.1 = [p.1].foldl splitWdayRange [] from rfl, hmap]
    show _ = (commaList ts (weekDayRange ts) (fun acc r => acc ++ [r]) p.2.rest.length
      [p.1] p.2).map _
    cases commaList ts (weekDayRange ts) (fun acc r => acc ++ [r]) p.2.rest.length [p.1] p.2 with
    | error e => rfl
    | ok q => rfl

/-! ## Ranges inside of a week -/

structure InWeek (r : TimeRange) : Prop where
  nonneg : 0 ≤ r.tmrBegin.wday
  ordered : r.tmrBegin.wday ≤ r.endWday
  le_six : r.endWday ≤ 6

def DayIn (day : ℤ) (r : TimeRange) : Prop := r.tmrBegin.wday ≤ day ∧ day ≤ r.endWday

def DayInSome (day : ℤ) (rs : List TimeRange) : Prop := ∃ r ∈ rs, DayIn day r

variable {rs qs before after items : List TimeRange} {r q day1 : TimeRange} {day : ℤ} {tm : Tm}

theorem dayInSome_append : DayInSome day (rs ++ qs) ↔ DayInSome day rs ∨ DayInSome day qs := by
  simp only [DayInSome, List.mem_append, or_and_right, exists_or]

theorem dayInSome_singleton : DayInSome day [r] ↔ DayIn day r := by simp [DayInSome]

/-- Both ends belong to a range, also where it has no end of its own. -/
theorem inRange_wday_iff : inRange tm r tmWdayCmp = true ↔ DayIn tm.wday r := by
  unfold inRange DayIn TimeRange.endWday
  cases r.tmrEnd with
  | none =>
    simp only [Option.getD_none, decide_eq_true_eq]
    rw [tmWdayCmp]
    omega
  | some t2 =>
    simp only [Option.getD_some, Bool.and_eq_true, decide_eq_true_eq]
    rw [tmWdayCmp, tmWdayCmp]
    omega

theorem inRangeList_wday_iff :
    inRangeList tm (some rs) tmWdayCmp = true ↔ DayInSome tm.wday rs := by
  simp only [inRangeList, List.any_eq_true, DayInSome, inRange_wday_iff]

/-! ## Splitting -/

theorem splitWdayRange_days (hitem : ItemOk r) (h0 : 0 ≤ day) (h6 : day ≤ 6) :
    DayInSome day (splitWdayRange rs r) ↔ DayInSome day rs ∨ Belongs day r := by
  obtain ⟨⟨hb0, hb6⟩, hend⟩ := hitem
  unfold splitWdayRange Belongs
  split
  · next t2 heq =>
    have ht := hend t2 heq
    have hcmp : tmWdayCmp r.tmrBegin t2 = r.tmrBegin.wday - t2.wday := rfl
    simp only [heq]
    by_cases hover : 0 < tmWdayCmp r.tmrBegin t2
    · rw [if_pos hover, if_neg (by omega), dayInSome_append]
      simp only [DayInSome, DayIn, TimeRange.endWday, List.mem_cons, List.not_mem_nil, or_false,
        exists_eq_or_imp, exists_eq_left, Option.getD_some, emptyTm]
      apply or_congr_right
      omega
    · rw [if_neg hover, if_pos (by omega), dayInSome_append, dayInSome_singleton]
      simp only [DayIn, TimeRange.endWday, heq, Option.getD_some]
  · next heq =>
    simp only [heq]
    rw [dayInSome_append, dayInSome_singleton]
    simp only [DayIn, TimeRange.endWday, heq, Option.getD_none]
    apply or_congr_right
    omega

theorem splitWdayRange_inWeek (hitem : ItemOk r) (hrs : ∀ q ∈ rs, InWeek q) :
    ∀ q ∈ splitWdayRange rs r, InWeek q := by
  obtain ⟨⟨hb0, hb6⟩, hend⟩ := hitem
  unfold splitWdayRange
  split
  · next t2 heq =>
    have ht := hend t2 heq
    split
    · refine List.forall_mem_append.mpr ⟨hrs, List.forall_mem_cons.mpr ⟨⟨hb0, hb6, le_rfl⟩,
        List.forall_mem_singleton.mpr ⟨le_rfl, ht.1, ht.2⟩⟩⟩
    · next hin =>
      refine List.forall_mem_append.mpr ⟨hrs, List.forall_mem_singleton.mpr ⟨hb0, ?_, ?_⟩⟩
      · simp only [tmWdayCmp] at hin
        simp only [TimeRange.endWday, heq, Option.getD_some]
        omega
      · simp only [TimeRange.endWday, heq, Option.getD_some]
        exact ht.2
  · next heq =>
    refine List.forall_mem_append.mpr ⟨hrs, List.forall_mem_singleton.mpr ⟨hb0, ?_, ?_⟩⟩
    · simp only [TimeRange.endWday, heq, Option.getD_none]
      exact le_rfl
    · simpa only [TimeRange.endWday, heq, Option.getD_none] using hb6

theorem split_days (hitems : ∀ item ∈ items, ItemOk item) :
    (∀ q ∈ items.foldl splitWdayRange [], InWeek q) ∧
      ∀ day, 0 ≤ day → day ≤ 6 →
        (DayInSome day (items.foldl splitWdayRange []) ↔ ∃ item ∈ items, Belongs day item) := by
  induction items using List.reverseRecOn with
  | nil => simp [DayInSome]
  | append_singleton items item ih =>
    obtain ⟨hitems, hitem⟩ := List.forall_mem_append.mp hitems
    rw [List.forall_mem_singleton] at hitem
    obtain ⟨hweek, hdays⟩ := ih hitems
    rw [List.foldl_append, List.foldl_cons, List.foldl_nil]
    refine ⟨splitWdayRange_inWeek hitem hweek, fun day h0 h6 => ?_⟩
    rw [splitWdayRange_days hitem h0 h6, hdays day h0 h6]
    simp only [List.mem_append, List.mem_singleton, or_and_right, exists_or, exists_eq_left]

/-! ## One turn of the joining loop -/

def touches (day1 q : TimeRange) : Prop :=
  q.tmrBegin.wday ≤ day1.endWday + 1 ∧ day1.tmrBegin.wday ≤ q.tmrBegin.wday

instance (day1 q : TimeRange) : Decidable (touches day1 q) := inferInstanceAs (Decidable (_ ∧ _))

def lastLonger (day1 : TimeRange) (others : List TimeRange) : Option TimeRange :=
  (others.filter fun q => touches day1 q ∧ day1.endWday < q.endWday).getLast?

/-- Where `day1` ends after its turn: where the last longer range ends. One day joined with
one day stays as it is. -/
def reach (day1 : TimeRange) (others : List TimeRange) : ℤ :=
  match lastLonger day1 others with
  | none => day1.endWday
  | some q => if day1.tmrEnd.isNone ∧ q.tmrEnd.isNone then day1.endWday else q.endWday

/-- No day of a range that is taken in is lost: it is in `day1` after the turn or in a range
that is not taken in. -/
def TurnKeeps (day1 : TimeRange) (others : List TimeRange) : Prop :=
  ∀ q ∈ others, touches day1 q → ∀ day, DayIn day q →
    day ≤ reach day1 others ∨ ∃ r ∈ others, ¬ touches day1 r ∧ DayIn day r

def joined (day1 : TimeRange) (others : List TimeRange) : TimeRange :=
  (others.foldl (joinStep day1) (day1, [])).1

/-! The three cases of a turn of the inner loop. -/

variable {s : TimeRange × List TimeRange}

theorem joinStep_apart (h : ¬ touches day1 q) : joinStep day1 s q = (s.1, s.2 ++ [q]) := if_neg h

theorem joinStep_short (h : touches day1 q)
    (hend : ¬ day1.endWday < q.endWday) : joinStep day1 s q = s :=
  (if_pos h).trans (if_neg hend)

theorem joinStep_long (h : touches day1 q) (hend : day1.endWday < q.endWday) :
    joinStep day1 s q = ({ s.1 with
      tmrEnd := match day1.tmrEnd with
        | some t => some { t with wday := q.endWday }
        | none => q.tmrEnd }, s.2) := by
  refine (if_pos h).trans ((if_pos hend).trans ?_)
  cases day1.tmrEnd <;> rfl

theorem foldl_joinStep_rest (day1 : TimeRange) (qs : List TimeRange)
    (s : TimeRange × List TimeRange) :
    (qs.foldl (joinStep day1) s).2 = s.2 ++ qs.filter (¬ touches day1 ·) := by
  induction qs generalizing s with
  | nil => simp
  | cons q qs ih =>
    rw [List.foldl_cons, ih]
    by_cases ht : touches day1 q
    · have hstep : (joinStep day1 s q).2 = s.2 := by
        by_cases hend : day1.endWday < q.endWday
        · rw [joinStep_long ht hend]
        · rw [joinStep_short ht hend]
      rw [hstep, List.filter_cons_of_neg (by simpa using ht)]
    · rw [joinStep_apart ht, List.filter_cons_of_pos (by simpa using ht), List.append_assoc,
        List.singleton_append]

/-- What becomes of `day1` does not depend on what is left. -/
theorem foldl_joinStep_fst (day1 : TimeRange) (qs : List TimeRange) (d : TimeRange)
    (l l' : List TimeRange) :
    (qs.foldl (joinStep day1) (d, l)).1 = (qs.foldl (joinStep day1) (d, l')).1 := by
  induction qs generalizing d l l' with
  | nil => rfl
  | cons q qs ih =>
    have hstep : (joinStep day1 (d, l) q).1 = (joinStep day1 (d, l') q).1 := by
      by_cases ht : touches day1 q
      · by_cases hend : day1.endWday < q.endWday
        · rw [joinStep_long ht hend, joinStep_long ht hend]
        · rw [joinStep_short ht hend, joinStep_short ht hend]
      · rw [joinStep_apart ht, joinStep_apart ht]
    rw [List.foldl_cons, List.foldl_cons, ← Prod.mk.eta (p := joinStep day1 (d, l) q),
      ← Prod.mk.eta (p := joinStep day1 (d, l') q), hstep]
    exact ih _ _ _

theorem joined_begin (day1 : TimeRange) (others : List TimeRange) :
    (joined day1 others).tmrBegin = day1.tmrBegin :=
  (foldl_joinStep day1 others (day1, [])).1

theorem lastLonger_append_of_not (h : ¬ (touches day1 q ∧ day1.endWday < q.endWday)) :
    lastLonger day1 (rs ++ [q]) = lastLonger day1 rs := by
  rw [lastLonger, List.filter_append, List.filter_cons_of_neg (by simpa using h),
    List.filter_nil, List.append_nil]
  rfl

theorem lastLonger_append (h : touches day1 q ∧ day1.endWday < q.endWday) :
    lastLonger day1 (rs ++ [q]) = some q := by
  rw [lastLonger, List.filter_append, List.filter_cons_of_pos (by simpa using h),
    List.filter_nil, List.getLast?_append]
  rfl

theorem joined_endWday (day1 : TimeRange) (others : List TimeRange) :
    (joined day1 others).endWday = reach day1 others := by
  induction others using List.reverseRecOn with
  | nil => rfl
  | append_singleton others q ih =>
    have hbegin := joined_begin day1 others
    have hfold : joined day1 (others ++ [q]) =
        (joinStep day1 (others.foldl (joinStep day1) (day1, [])) q).1 := by
      rw [joined, List.foldl_append, List.foldl_cons, List.foldl_nil]
    rw [hfold]
    by_cases ht : touches day1 q
    · by_cases hend : day1.endWday < q.endWday
      · rw [reach, lastLonger_append ⟨ht, hend⟩, joinStep_long ht hend]
        cases hday1 : day1.tmrEnd with
        | some t => rfl
        | none =>
          cases hq : q.tmrEnd with
          | some t => simp [TimeRange.endWday, hq]
          | none =>
            simp only [TimeRange.endWday, hday1, hq, Option.getD_none, Option.isNone_none,
              and_self, if_true]
            exact congrArg Tm.wday hbegin
      · rw [reach, lastLonger_append_of_not (fun h => hend h.2), ← reach, ← ih,
          joinStep_short ht hend]
        rfl
    · rw [reach, lastLonger_append_of_not (fun h => ht h.1), ← reach, ← ih, joinStep_apart ht]
      rfl

theorem reach_eq (day1 : TimeRange) (others : List TimeRange) :
    reach day1 others = day1.endWday ∨ ∃ q ∈ others, touches day1 q ∧
      day1.endWday < q.endWday ∧ reach day1 others = q.endWday := by
  unfold reach
  split
  · exact .inl rfl
  · next q hlast =>
    split
    · exact .inl rfl
    · have hmem := List.mem_filter.mp (List.mem_of_getLast? hlast)
      have hlong := of_decide_eq_true hmem.2
      exact .inr ⟨q, hmem.1, hlong.1, hlong.2, rfl⟩

variable {others : List TimeRange}

theorem InWeek.joined (h : InWeek day1)
    (hothers : ∀ q ∈ others, InWeek q) : InWeek (joined day1 others) := by
  have hbegin := congrArg Tm.wday (joined_begin day1 others)
  have hend := joined_endWday day1 others
  obtain ⟨h0, hle, h6⟩ := h
  rcases reach_eq day1 others with hreach | ⟨q, hq, -, hlt, hreach⟩
  · exact ⟨by omega, by omega, by omega⟩
  · have hq6 := (hothers q hq).le_six
    exact ⟨by omega, by omega, by omega⟩

/-- What is left after a turn, with the range the loop stands at. -/
theorem turn_subset
    (hday : DayIn day (joined day1 others) ∨ DayInSome day (others.filter (¬ touches day1 ·))) :
    DayIn day day1 ∨ DayInSome day others := by
  rcases hday with ⟨hb, he⟩ | ⟨r, hr, hday⟩
  · rw [joined_begin] at hb
    rw [joined_endWday] at he
    rcases reach_eq day1 others with hreach | ⟨q, hq, htouch, hlt, hreach⟩
    · exact .inl ⟨hb, hreach ▸ he⟩
    · -- the two ranges leave no day out between them
      rcases le_or_gt day day1.endWday with hin | hbehind
      · exact .inl ⟨hb, hin⟩
      · have := htouch.1
        exact .inr ⟨q, hq, by omega, by omega⟩
  · exact .inr ⟨r, (List.mem_filter.mp hr).1, hday⟩

/-- **A turn** loses no day exactly if it keeps those of the ranges taken in. -/
theorem turnKeeps_iff :
    TurnKeeps day1 others ↔ ∀ day, DayIn day day1 ∨ DayInSome day others →
      DayIn day (joined day1 others) ∨ DayInSome day (others.filter (¬ touches day1 ·)) := by
  have hrest : ∀ day, DayInSome day (others.filter (¬ touches day1 ·)) ↔
      ∃ r ∈ others, ¬ touches day1 r ∧ DayIn day r := by
    intro day
    simp only [DayInSome, List.mem_filter, decide_eq_true_eq, and_assoc]
  have hle : day1.endWday ≤ reach day1 others := by
    rcases reach_eq day1 others with hreach | ⟨q, -, -, hlt, hreach⟩ <;> omega
  constructor
  · intro hkeeps day hday
    rw [hrest]
    rcases hday with ⟨hb, he⟩ | ⟨q, hq, hday⟩
    · left
      rw [DayIn, joined_begin, joined_endWday]
      exact ⟨hb, he.trans hle⟩
    · by_cases ht : touches day1 q
      · apply (hkeeps q hq ht day hday).imp_left
        intro hreach
        rw [DayIn, joined_begin, joined_endWday]
        exact ⟨ht.2.trans hday.1, hreach⟩
      · exact .inr ⟨q, hq, ht, hday⟩
  · intro hkeeps q hq ht day hday
    have := hkeeps day (.inr ⟨q, hq, hday⟩)
    rw [hrest, DayIn, joined_endWday] at this
    exact this.imp_left And.right

/-! ## The loops -/

/-- Every turn of the outer loop, in the state it meets, keeps the days. -/
def LosesNothing : ℕ → List TimeRange → List TimeRange → Prop
  | fuel + 1, before, day1 :: after =>
    TurnKeeps day1 (before ++ after) ∧
      LosesNothing fuel (before.filter (¬ touches day1 ·) ++ [joined day1 (before ++ after)])
        (after.filter (¬ touches day1 ·))
  | _, _, _ => True

theorem joinRanges_cons (fuel : ℕ) (before after : List TimeRange) (day1 : TimeRange) :
    joinRanges (fuel + 1) before (day1 :: after) =
      joinRanges fuel (before.filter (¬ touches day1 ·) ++ [joined day1 (before ++ after)])
        (after.filter (¬ touches day1 ·)) := by
  have hjoined : joined day1 (before ++ after) =
      (after.foldl (joinStep day1) ((before.foldl (joinStep day1) (day1, [])).1, [])).1 := by
    rw [joined, List.foldl_append,
      ← Prod.mk.eta (p := before.foldl (joinStep day1) (day1, []))]
    exact foldl_joinStep_fst day1 after _ _ _
  rw [joinRanges, hjoined, foldl_joinStep_rest, foldl_joinStep_rest, List.nil_append,
    List.nil_append]

theorem dayInSome_turn (before after : List TimeRange) (day1 d : TimeRange) :
    DayInSome day (before.filter (¬ touches day1 ·) ++ [d] ++ after.filter (¬ touches day1 ·)) ↔
      DayIn day d ∨ DayInSome day ((before ++ after).filter (¬ touches day1 ·)) := by
  rw [List.filter_append, dayInSome_append, dayInSome_append, dayInSome_append, dayInSome_singleton]
  tauto

theorem dayInSome_middle (before after : List TimeRange) (d : TimeRange) :
    DayInSome day (before ++ d :: after) ↔ DayIn day d ∨ DayInSome day (before ++ after) := by
  rw [← List.singleton_append, dayInSome_append, dayInSome_append, dayInSome_append,
    dayInSome_singleton]
  tauto

theorem joinRanges_subset (fuel : ℕ) (before after : List TimeRange)
    (h : DayInSome day (joinRanges fuel before after)) : DayInSome day (before ++ after) := by
  induction fuel generalizing before after with
  | zero => simpa [joinRanges] using h
  | succ fuel ih =>
    cases after with
    | nil => simpa [joinRanges] using h
    | cons day1 after =>
      rw [joinRanges_cons] at h
      rw [dayInSome_middle]
      exact turn_subset ((dayInSome_turn _ _ _ _).mp (ih _ _ h))

/-- **Joining** adds no day, and loses none exactly if no turn does. -/
theorem joinRanges_keeps_iff (fuel : ℕ) (before after : List TimeRange) :
    LosesNothing fuel before after ↔
      ∀ day, DayInSome day (before ++ after) → DayInSome day (joinRanges fuel before after) := by
  induction fuel generalizing before after with
  | zero => simp [LosesNothing, joinRanges]
  | succ fuel ih =>
    cases after with
    | nil => simp [LosesNothing, joinRanges]
    | cons day1 after =>
      rw [LosesNothing, joinRanges_cons, turnKeeps_iff, ih]
      constructor
      · rintro ⟨hturn, hrest⟩ day hday
        apply hrest
        rw [dayInSome_turn]
        exact hturn day ((dayInSome_middle _ _ _).mp hday)
      · -- what the later turns give is less than what this turn leaves
        intro hall
        refine ⟨fun day hday => ?_, fun day hday => ?_⟩
        · have hlast := hall day ((dayInSome_middle _ _ _).mpr hday)
          exact (dayInSome_turn _ _ _ _).mp (joinRanges_subset _ _ _ hlast)
        · apply hall
          rw [dayInSome_middle]
          exact turn_subset ((dayInSome_turn _ _ _ _).mp hday)

theorem joinRanges_inWeek (fuel : ℕ) (before after : List TimeRange)
    (h : ∀ r ∈ before ++ after, InWeek r) : ∀ r ∈ joinRanges fuel before after, InWeek r := by
  induction fuel generalizing before after with
  | zero => simpa [joinRanges] using h
  | succ fuel ih =>
    cases after with
    | nil => simpa [joinRanges] using h
    | cons day1 after =>
      rw [joinRanges_cons]
      apply ih
      have hothers : ∀ r ∈ before ++ after, InWeek r := fun r hr =>
        h r (by simp only [List.mem_append, List.mem_cons] at hr ⊢; tauto)
      intro r hr
      simp only [List.mem_append, List.mem_singleton, List.mem_filter] at hr
      rcases hr with (⟨hr, -⟩ | rfl) | ⟨hr, -⟩
      · exact hothers r (List.mem_append_left _ hr)
      · exact (h day1 (by simp)).joined hothers
      · exact hothers r (List.mem_append_right _ hr)

/-! ## Extending -/

theorem extendRange_end (day1 : TimeRange) (h : ∀ q ∈ others, 0 ≤ q.endWday) :
    (extendRange day1 others).endWday = day1.endWday ∨
      day1.endWday = 6 ∧ 6 ≤ (extendRange day1 others).endWday := by
  induction others using List.reverseRecOn with
  | nil => exact .inl rfl
  | append_singleton others q ih =>
    obtain ⟨hothers, hq⟩ := List.forall_mem_append.mp h
    have hq0 := hq q (List.mem_singleton_self q)
    rw [extendRange, List.foldl_append, List.foldl_cons, List.foldl_nil, ← extendRange]
    split
    · next hcond =>
      right
      refine ⟨hcond.1, ?_⟩
      simp only [TimeRange.endWday, Option.getD_some]
      simp only [TimeRange.endWday] at hcond hq0
      omega
    · exact ih hothers

theorem extendRange_dayIn (h : ∀ q ∈ others, 0 ≤ q.endWday)
    (h6 : day ≤ 6) : DayIn day (extendRange day1 others) ↔ DayIn day day1 := by
  rw [DayIn, DayIn, extendRange_begin]
  rcases extendRange_end day1 h with heq | ⟨heq, hge⟩
  · rw [heq]
  · apply and_congr_right fun _ => ?_
    omega

theorem extendRanges_days (before after : List TimeRange)
    (h : ∀ r ∈ before ++ after, 0 ≤ r.endWday) (h6 : day ≤ 6) :
    DayInSome day (extendRanges before after) ↔ DayInSome day (before ++ after) := by
  induction after generalizing before with
  | nil => rw [extendRanges, List.append_nil]
  | cons day1 after ih =>
    have hothers : ∀ r ∈ before ++ after, 0 ≤ r.endWday := fun r hr =>
      h r (by simp only [List.mem_append, List.mem_cons] at hr ⊢; tauto)
    have hday1 : 0 ≤ day1.endWday := h day1 (by simp)
    have hextended : 0 ≤ (extendRange day1 (before ++ after)).endWday := by
      rcases extendRange_end day1 hothers with heq | ⟨-, hge⟩ <;> omega
    rw [extendRanges, ih, List.append_assoc, List.singleton_append, dayInSome_middle,
      dayInSome_middle, extendRange_dayIn hothers h6]
    intro r hr
    simp only [List.mem_append, List.mem_singleton] at hr
    rcases hr with (hr | rfl) | hr
    · exact hothers r (List.mem_append_left _ hr)
    · exact hextended
    · exact hothers r (List.mem_append_right _ hr)

/-! ## The whole list -/

/-- No turn of `join_wday_range()` loses a day of the items. -/
def ItemsKept (items : List TimeRange) : Prop :=
  LosesNothing (items.foldl splitWdayRange []).length [] (items.foldl splitWdayRange [])

/-- A weekday is in the list made of the items exactly if it belongs to one of them. -/
def IsUnion (items wdrl : List TimeRange) : Prop :=
  ∀ tm : Tm, 0 ≤ tm.wday → tm.wday ≤ 6 →
    (inRangeList tm (some wdrl) tmWdayCmp = true ↔ ∃ item ∈ items, Belongs tm.wday item)

theorem weekDaysOf_union_iff (hitems : ∀ item ∈ items, ItemOk item) :
    IsUnion items (weekDaysOf items) ↔ ItemsKept items := by
  obtain ⟨hweek, hdays⟩ := split_days hitems
  have hjoined : ∀ r ∈ joinWdayRange (items.foldl splitWdayRange []), InWeek r :=
    joinRanges_inWeek _ _ _ (by simpa using hweek)
  have hextended : ∀ day, day ≤ 6 → (DayInSome day (weekDaysOf items) ↔
      DayInSome day (joinWdayRange (items.foldl splitWdayRange []))) := fun day h6 =>
    extendRanges_days [] _ (fun r hr => (hjoined r hr).nonneg.trans (hjoined r hr).ordered) h6
  rw [ItemsKept, joinRanges_keeps_iff, List.nil_append]
  constructor
  · intro hunion day hday
    obtain ⟨r, hr, hb, he⟩ := hday
    have h0 : 0 ≤ day := (hweek r hr).nonneg.trans hb
    have h6 : day ≤ 6 := he.trans (hweek r hr).le_six
    have hin := (hunion { emptyTm with wday := day } h0 h6).mpr
      ((hdays day h0 h6).mp ⟨r, hr, hb, he⟩)
    exact (hextended day h6).mp (inRangeList_wday_iff.mp hin)
  · intro hkept tm h0 h6
    rw [inRangeList_wday_iff, hextended _ h6, ← hdays _ h0 h6]
    exact ⟨fun h => by simpa using joinRanges_subset _ _ _ h, hkept tm.wday⟩

/-- **Lists of weekdays** denote their union exactly if joining their ranges loses nothing. -/
theorem weekDayRangeList_union_iff {ts : TokenSet} {sc sc' : Scanner}
    (h : weekDayItems ts sc = .ok (items, sc')) :
    ∃ wdrl, weekDayRangeList ts sc = .ok (wdrl, sc') ∧
      (IsUnion items wdrl ↔ ItemsKept items) := by
  have hitems := yields_weekDayItems ts sc _ _ h
  refine ⟨weekDaysOf items, ?_, weekDaysOf_union_iff hitems⟩
  rw [weekDayRangeList_eq, h]
  rfl

def daysFrom (b e : ℤ) : TimeRange := ⟨{ emptyTm with wday := b }, some { emptyTm with wday := e }⟩

/-- Monday to Wednesday and Tuesday to Friday. -/
theorem weekDayRangeList_union_iff_overlap :
    ∃ wdrl, weekDayRangeList .week ⟨"mon-wed,tue-fri".toList, []⟩ =
        .ok (wdrl, ⟨[], "fri".toList⟩) ∧
      IsUnion [daysFrom 1 3, daysFrom 2 5] wdrl := by
  have hitems : weekDayItems .week ⟨"mon-wed,tue-fri".toList, []⟩ =
      .ok ([daysFrom 1 3, daysFrom 2 5], ⟨[], "fri".toList⟩) := by decide
  obtain ⟨wdrl, hparse, hiff⟩ := weekDayRangeList_union_iff hitems
  refine ⟨wdrl, hparse, hiff.mpr ⟨?_, trivial⟩⟩
  intro q hq _ day hday
  left
  obtain rfl := List.mem_singleton.mp hq
  exact hday.2

/-- Monday is lost where Sunday and Monday are given as single days. -/
theorem weekDayRangeList_loses : ¬ ∀ (ts : TokenSet) (sc sc' : Scanner)
    (items wdrl : List TimeRange), weekDayItems ts sc = .ok (items, sc') →
      weekDayRangeList ts sc = .ok (wdrl, sc') → IsUnion items wdrl := by
  intro h
  have hunion := h .week ⟨"sun,mon".toList, []⟩ ⟨[], "mon".toList⟩
    [⟨{ emptyTm with wday := 0 }, none⟩, ⟨{ emptyTm with wday := 1 }, none⟩]
    [⟨{ emptyTm with wday := 0 }, none⟩] (by decide) (by decide)
  have hmonday := (hunion { emptyTm with wday := 1 } (by decide) (by decide)).mpr
    ⟨⟨{ emptyTm with wday := 1 }, none⟩, by simp, rfl⟩
  exact absurd hmonday (by decide)

end ClusterScheduler.Sgeobj.Calendar
