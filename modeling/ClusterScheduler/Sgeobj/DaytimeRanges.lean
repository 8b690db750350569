import Mathlib.Data.Int.ConditionallyCompleteOrder
import Mathlib.Data.Prod.Lex
import Mathlib.Order.CompletePartialOrder
import ClusterScheduler.Sgeobj.CalendarParser

/-!
# Normalized ranges of daytimes

The daytimes of a calendar entry are put in order by merging the ranges that overlap. Both ends
belong to a range, so that the merged range holds the daytimes of the two and no others.

* `timeOfDay` — the time of day, in the order of `tmDaytimeCmp`.
* `TimeRange.daytimes` — the daytimes of a range.
* `absorbRanges_spec` — what a range takes over, and that it overlaps with none of the rest.
* `normalizeRangeList_spec` — the daytimes stay the same, and the ranges are disjoint.
-/

namespace ClusterScheduler.Sgeobj.Calendar

open Set Foundation.CivilTime

/-! ## Daytimes in their order -/

def timeOfDay (tm : Tm) : ℤ ×ₗ ℤ ×ₗ ℤ := toLex (tm.hour, toLex (tm.min, tm.sec))

variable {t1 t2 : Tm}

theorem tmDaytimeCmp_nonpos : tmDaytimeCmp t1 t2 ≤ 0 ↔ timeOfDay t1 ≤ timeOfDay t2 := by
  simp only [tmDaytimeCmp, timeOfDay, Prod.Lex.toLex_le_toLex]
  split_ifs <;> omega

theorem tmDaytimeCmp_neg : tmDaytimeCmp t1 t2 < 0 ↔ timeOfDay t1 < timeOfDay t2 := by
  simp only [tmDaytimeCmp, timeOfDay, Prod.Lex.toLex_lt_toLex]
  split_ifs <;> omega

theorem tmDaytimeCmp_pos : 0 < tmDaytimeCmp t1 t2 ↔ timeOfDay t2 < timeOfDay t1 := by
  rw [← not_le, tmDaytimeCmp_nonpos, not_le]

def Ordered (r : TimeRange) : Prop :=
  ∃ t, r.tmrEnd = some t ∧ tmDaytimeCmp r.tmrBegin t ≤ 0

def TimeRange.daytimes (r : TimeRange) : Set (ℤ ×ₗ ℤ ×ₗ ℤ) :=
  {x | ∃ t, r.tmrEnd = some t ∧ x ∈ Icc (timeOfDay r.tmrBegin) (timeOfDay t)}

def Covered (rl : List TimeRange) (x : ℤ ×ₗ ℤ ×ₗ ℤ) : Prop := ∃ r ∈ rl, x ∈ r.daytimes

variable {r q : TimeRange} {rl rest : List TimeRange} {tm : Tm} {fuel : ℕ}

theorem daytimes_of_end {t : Tm} (h : r.tmrEnd = some t) :
    r.daytimes = Icc (timeOfDay r.tmrBegin) (timeOfDay t) := by
  ext x
  simp [TimeRange.daytimes, h]

theorem inRange_iff (hr : Ordered r) :
    inRange tm r tmDaytimeCmp = true ↔ timeOfDay tm ∈ r.daytimes := by
  obtain ⟨t, ht, -⟩ := hr
  simp [inRange, ht, daytimes_of_end ht, tmDaytimeCmp_nonpos]

theorem inRangeList_iff (h : ∀ r ∈ rl, Ordered r) :
    inRangeList tm (some rl) tmDaytimeCmp = true ↔ Covered rl (timeOfDay tm) := by
  simp only [inRangeList, List.any_eq_true, Covered]
  exact exists_congr fun r => and_congr_right fun hr => inRange_iff (h r hr)

/-! ## Two ranges -/

theorem rangesOverlap_iff (hr : Ordered r) (hq : Ordered q) :
    rangesOverlap tmDaytimeCmp r q = true ↔ (r.daytimes ∩ q.daytimes).Nonempty := by
  have hr' := hr
  have hq' := hq
  obtain ⟨r2, hr2, hrle⟩ := hr'
  obtain ⟨q2, hq2, hqle⟩ := hq'
  rw [tmDaytimeCmp_nonpos] at hrle hqle
  simp only [rangesOverlap, hr2, hq2, Option.any_some, Bool.or_eq_true, inRange_iff hr,
    inRange_iff hq, daytimes_of_end hr2, daytimes_of_end hq2, Icc_inter_Icc, nonempty_Icc]
  grind

theorem combineRanges_spec (hr : Ordered r) (hq : Ordered q)
    (hover : rangesOverlap tmDaytimeCmp r q = true) :
    Ordered (combineRanges tmDaytimeCmp r q) ∧
      (combineRanges tmDaytimeCmp r q).daytimes = r.daytimes ∪ q.daytimes := by
  obtain ⟨x, hxr, hxq⟩ := (rangesOverlap_iff hr hq).mp hover
  obtain ⟨r2, hr2, hrle⟩ := hr
  obtain ⟨q2, hq2, hqle⟩ := hq
  rw [daytimes_of_end hr2] at hxr ⊢
  rw [daytimes_of_end hq2] at hxq ⊢
  -- the combined range goes from the smaller begin to the larger end
  have hend : (combineRanges tmDaytimeCmp r q).tmrEnd =
      some (if tmDaytimeCmp r2 q2 < 0 then q2 else r2) := by
    simp only [combineRanges, hr2, hq2]
    split <;> rfl
  have hbegin : timeOfDay (combineRanges tmDaytimeCmp r q).tmrBegin =
      min (timeOfDay r.tmrBegin) (timeOfDay q.tmrBegin) := by
    simp only [combineRanges, tmDaytimeCmp_pos]
    split <;> grind
  have hmax : timeOfDay (if tmDaytimeCmp r2 q2 < 0 then q2 else r2) =
      max (timeOfDay r2) (timeOfDay q2) := by
    simp only [tmDaytimeCmp_neg]
    split <;> grind
  refine ⟨⟨_, hend, ?_⟩, ?_⟩
  · rw [tmDaytimeCmp_nonpos, hbegin, hmax]
    exact (min_le_left _ _).trans ((hxr.1.trans hxr.2).trans (le_max_left _ _))
  · rw [daytimes_of_end hend, hbegin, hmax]
    exact (Icc_union_Icc' (hxq.1.trans hxr.2) (hxr.1.trans hxq.2)).symm

/-! ## The loops -/

theorem covered_cons {x : ℤ ×ₗ ℤ ×ₗ ℤ} : Covered (r :: rl) x ↔ x ∈ r.daytimes ∨ Covered rl x := by
  simp [Covered]

/-- What a range leaves behind it. -/
structure Absorbs (r : TimeRange) (rest : List TimeRange) (res : TimeRange × List TimeRange) :
    Prop where
  ordered : ∀ p ∈ res.1 :: res.2, Ordered p
  shorter : res.2.length ≤ rest.length
  covered : ∀ x, Covered (res.1 :: res.2) x ↔ Covered (r :: rest) x
  apart : ∀ q ∈ res.2, Disjoint res.1.daytimes q.daytimes

/-- Every turn takes a range out, so that there is one for each turn. -/
theorem absorbRanges_spec : ∀ (fuel : ℕ) (r : TimeRange) (rest : List TimeRange),
    rest.length ≤ fuel → (∀ p ∈ r :: rest, Ordered p) →
    Absorbs r rest (absorbRanges tmDaytimeCmp fuel r rest)
  | 0, r, rest, hfuel, h => by
    obtain rfl := List.length_eq_zero_iff.mp (Nat.le_zero.mp hfuel)
    exact ⟨h, le_rfl, fun x => Iff.rfl, by simp [absorbRanges]⟩
  | fuel + 1, r, rest, hfuel, h => by
    have hr : Ordered r := h r (.head _)
    unfold absorbRanges
    split
    · rename_i q hq
      have hmem := List.mem_of_find?_eq_some hq
      have hover : rangesOverlap tmDaytimeCmp r q = true := List.find?_some hq
      obtain ⟨hcomb, hdaytimes⟩ := combineRanges_spec hr (h q (.tail _ hmem)) hover
      obtain ⟨-, before, after, rfl, hbefore⟩ := List.find?_eq_some_iff_append.mp hq
      have herase : (before ++ q :: after).eraseP (rangesOverlap tmDaytimeCmp r)
          = before ++ after := by
        rw [List.eraseP_append_right _ (by simpa using hbefore), List.eraseP_cons_of_pos hover]
      rw [herase]
      have ih := absorbRanges_spec fuel (combineRanges tmDaytimeCmp r q) (before ++ after)
        (by simp at hfuel ⊢; omega) (by grind)
      refine ⟨ih.ordered, ih.shorter.trans (by simp), fun x => ?_, ih.apart⟩
      rw [ih.covered]
      simp only [Covered, List.mem_cons, List.mem_append, exists_eq_or_imp, hdaytimes, mem_union]
      grind
    · rename_i hnone
      refine ⟨h, le_rfl, fun x => Iff.rfl, fun q hq => ?_⟩
      have hnot := mt (rangesOverlap_iff hr (h q (.tail _ hq))).mpr
        (by simpa using List.find?_eq_none.mp hnone q hq)
      exact disjoint_iff_inter_eq_empty.mpr (not_nonempty_iff_eq_empty.mp hnot)

theorem normalizeRanges_spec (fuel : ℕ) (hfuel : rl.length ≤ fuel) (h : ∀ r ∈ rl, Ordered r) :
    (∀ r ∈ normalizeRanges tmDaytimeCmp fuel rl, Ordered r) ∧
      (∀ x, Covered (normalizeRanges tmDaytimeCmp fuel rl) x ↔ Covered rl x) ∧
      (normalizeRanges tmDaytimeCmp fuel rl).Pairwise fun r q => Disjoint r.daytimes q.daytimes := by
  induction fuel generalizing rl with
  | zero =>
    obtain rfl := List.length_eq_zero_iff.mp (Nat.le_zero.mp hfuel)
    exact ⟨h, fun x => Iff.rfl, .nil⟩
  | succ fuel ih =>
    cases rl with
    | nil => exact ⟨h, fun x => Iff.rfl, .nil⟩
    | cons r rest =>
      have habs := absorbRanges_spec rest.length r rest le_rfl h
      obtain ⟨hordered, hcovered, hapart⟩ := ih
        (habs.shorter.trans (Nat.le_of_succ_le_succ hfuel)) fun p hp => habs.ordered p (.tail _ hp)
      simp only [normalizeRanges]
      refine ⟨?_, fun x => ?_, List.pairwise_cons.mpr ⟨fun q hq => ?_, hapart⟩⟩
      · rintro p (- | ⟨-, hp⟩)
        · exact habs.ordered _ (.head _)
        · exact hordered p hp
      · rw [covered_cons, hcovered, ← covered_cons, habs.covered]
      · -- what is made of the rest covers no more than the rest
        refine disjoint_left.mpr fun x hx hxq => ?_
        obtain ⟨p, hp, hxp⟩ := (hcovered x).mp ⟨q, hq, hxq⟩
        exact disjoint_left.mp (habs.apart p hp) hx hxp

/-! ## Termination -/

/-- The inner loop comes to its end within the number of ranges behind `r`. -/
theorem absorbRanges_fuel (cmpFunc : CmpFunc) : ∀ (fuel : ℕ) (r : TimeRange)
    (rest : List TimeRange), rest.length ≤ fuel →
    absorbRanges cmpFunc fuel r rest = absorbRanges cmpFunc rest.length r rest
  | 0, r, rest, h => by rw [Nat.le_zero.mp h]
  | fuel + 1, r, [], h => rfl
  | fuel + 1, r, p :: rest, h => by
    rw [List.length_cons, absorbRanges, absorbRanges]
    split
    · rename_i q hq
      have hlen := List.length_eraseP_of_mem (List.mem_of_find?_eq_some hq)
        (List.find?_some hq)
      rw [List.length_cons, Nat.add_sub_cancel] at hlen
      rw [absorbRanges_fuel cmpFunc fuel _ _ (hlen.trans_le (Nat.le_of_succ_le_succ h)), hlen]
    · rfl

theorem normalizeRanges_fuel {fuel' : ℕ} (hfuel : rl.length ≤ fuel) (hfuel' : rl.length ≤ fuel')
    (h : ∀ r ∈ rl, Ordered r) :
    normalizeRanges tmDaytimeCmp fuel rl = normalizeRanges tmDaytimeCmp fuel' rl := by
  induction fuel generalizing rl fuel' with
  | zero =>
    obtain rfl := List.length_eq_zero_iff.mp (Nat.le_zero.mp hfuel)
    cases fuel' <;> rfl
  | succ fuel ih =>
    cases rl with
    | nil => cases fuel' <;> rfl
    | cons r rest =>
      obtain ⟨fuel', rfl⟩ : ∃ m, fuel' = m + 1 := ⟨fuel' - 1, by simp at hfuel'; omega⟩
      have habs := absorbRanges_spec rest.length r rest le_rfl h
      simp only [normalizeRanges]
      rw [ih (habs.shorter.trans (Nat.le_of_succ_le_succ hfuel))
        (habs.shorter.trans (Nat.le_of_succ_le_succ hfuel')) fun p hp => habs.ordered p (.tail _ hp)]

/-- **Normalizing** keeps the daytimes, makes the ranges disjoint, and comes to its end: no loop
takes more turns than there are ranges. -/
theorem normalizeRangeList_spec (rl : List TimeRange) (h : ∀ r ∈ rl, Ordered r) :
    (∀ tm, inRangeList tm (some (normalizeRangeList tmDaytimeCmp rl)) tmDaytimeCmp =
        inRangeList tm (some rl) tmDaytimeCmp) ∧
      ((normalizeRangeList tmDaytimeCmp rl).Pairwise fun r q => ∀ tm,
        ¬ (inRange tm r tmDaytimeCmp = true ∧ inRange tm q tmDaytimeCmp = true)) ∧
      (∀ fuel, rl.length ≤ fuel →
        normalizeRanges tmDaytimeCmp fuel rl = normalizeRangeList tmDaytimeCmp rl) ∧
      ∀ (r : TimeRange) (rest : List TimeRange) (fuel : ℕ), rest.length ≤ fuel →
        absorbRanges tmDaytimeCmp fuel r rest = absorbRanges tmDaytimeCmp rest.length r rest := by
  obtain ⟨hordered, hcovered, hapart⟩ := normalizeRanges_spec rl.length le_rfl h
  refine ⟨fun tm => ?_, ?_, fun fuel hfuel => ?_, fun r rest fuel => ?_⟩
  · rw [Bool.eq_iff_iff, inRangeList_iff h, ← hcovered]
    exact inRangeList_iff hordered
  · refine hapart.imp_of_mem fun {r q} hr hq hdisjoint tm hboth => ?_
    rw [inRange_iff (hordered r hr), inRange_iff (hordered q hq)] at hboth
    exact disjoint_left.mp hdisjoint hboth.1 hboth.2
  · exact normalizeRanges_fuel hfuel le_rfl h
  · exact absorbRanges_fuel tmDaytimeCmp fuel r rest

/-- Three ranges, of which the last one joins the two others. -/
theorem normalizeRangeList_joined :
    let hours := fun a b => TimeRange.mk { emptyTm with hour := a } (some { emptyTm with hour := b })
    inRangeList { emptyTm with hour := 9 }
        (some (normalizeRangeList tmDaytimeCmp [hours 6 8, hours 10 12, hours 7 11])) tmDaytimeCmp =
      true := by
  intro hours
  rw [(normalizeRangeList_spec _ ?_).1]
  · decide
  · simp only [List.mem_cons, List.not_mem_nil, or_false]
    rintro r (rfl | rfl | rfl) <;> exact ⟨_, rfl, by decide⟩

end ClusterScheduler.Sgeobj.Calendar
