import ClusterScheduler.Sgeobj.RangeSets

/-!
# Union, difference and intersection of range lists

* `Denotes` — a list of ranges is the list of a set of ids.
* `Orderly` — ids in an order in which the intersection can join them.
* `rangeListCalculate_sets` — when the three operations compute the three sets.

Union and difference always do. The intersection lists the common ids in the
order of its first argument and joins them without sorting, although joining
expects ascending ids.
-/

namespace ClusterScheduler.Sgeobj

open Foundation

/-! ## Joining an unsorted list

The intersection is joined in the order in which its ids were found. A run of
ids that goes up by one step becomes one range; the first id of a run may be
repeated before the second one is there. -/

def single (id : ℕ) : Range := rangeSetAllIds id id 1

@[simp] theorem single_step (id : ℕ) : (single id).step = 1 := by
  simp [single, rangeSetAllIds]

/-- The ids that follow `e` can be joined in this order. `step` is the step of
the range that ends with `e`, if it has more than one id. -/
def OrderlyFrom (e : ℕ) : Option ℕ → List ℕ → Prop
  | _, [] => True
  | none, x :: xs => e ≤ x ∧ OrderlyFrom x (if x = e then none else some (x - e)) xs
  | some d, x :: xs => e < x ∧ OrderlyFrom x (if x = e + d then some d else none) xs

def Orderly : List ℕ → Prop
  | [] => True
  | x :: xs => OrderlyFrom x none xs

instance decidableOrderlyFrom :
    ∀ (e : ℕ) (step : Option ℕ) (xs : List ℕ), Decidable (OrderlyFrom e step xs)
  | _, none, [] | _, some _, [] => .isTrue trivial
  | e, none, x :: xs =>
    have := decidableOrderlyFrom x (if x = e then none else some (x - e)) xs
    inferInstanceAs (Decidable (e ≤ x ∧ _))
  | e, some d, x :: xs =>
    have := decidableOrderlyFrom x (if x = e + d then some d else none) xs
    inferInstanceAs (Decidable (e < x ∧ _))

instance (xs : List ℕ) : Decidable (Orderly xs) :=
  match xs with
  | [] => .isTrue trivial
  | x :: xs => decidableOrderlyFrom x none xs

/-- A range as the joining loop holds it, with the step `OrderlyFrom` knows. -/
def Current (r : Range) : Option ℕ → Prop
  | none => r = single r.max
  | some d => r.min < r.max ∧ r.step = d

theorem join_same {e : ℕ} (he : e < 2 ^ 32) :
    joinRanges (single e) (single e) = some (single e) := by
  have h1 : add32 e 1 ≠ e := by
    unfold add32
    omega
  have h2 : e ≠ sub32 e 1 := by
    unfold sub32
    omega
  simp [joinRanges, single, rangeSetAllIds, h1, h2]

theorem join_pair {e x : ℕ} (hx : x < 2 ^ 32) (hlt : e < x) :
    joinRanges (single e) (single x) = some ⟨e, x, x - e⟩ := by
  have hne : e ≠ x := Nat.ne_of_lt hlt
  by_cases hone : x = e + 1
  · have hadd : add32 e 1 = x := by
      unfold add32
      omega
    have hstep : x - e = 1 := by omega
    simp [joinRanges, single, rangeSetAllIds, hadd, hne, hstep]
  · have hadd : add32 e 1 ≠ x := by
      unfold add32
      omega
    have hsub : e ≠ sub32 x 1 := by
      unfold sub32
      omega
    have hdiff : sub32 x e = x - e := by
      unfold sub32
      omega
    simp [joinRanges, single, rangeSetAllIds, hadd, hsub, hne, hdiff]

/-- A range with more than one id takes the next id of its step, nothing else. -/
theorem join_run {r : Range} {x : ℕ} (hr : r.min ≠ r.max) :
    joinRanges r (single x) =
      if add32 r.max r.step = x then some (rangeSetAllIds r.min x r.step) else none := by
  by_cases h : add32 r.max r.step = x
  · by_cases h1 : r.step = 1
    · rw [h1] at h
      simp [joinRanges, single, rangeSetAllIds, h, h1]
    · simp [joinRanges, single, rangeSetAllIds, h, h1, hr]
  · simp [joinRanges, single, rangeSetAllIds, h, hr]

/-- The step of the range that takes `x`, if it has more than one id. -/
def stepAfter (e : ℕ) : Option ℕ → ℕ → Option ℕ
  | none, x => if x = e then none else some (x - e)
  | some d, x => if x = e + d then some d else none

/-- A range that ends with `e` is not joined with a smaller id. -/
def JoinsUpward (e : ℕ) : Option ℕ → ℕ → Prop
  | none, x => e ≤ x
  | some d, x => e < x ∨ add32 e d ≠ x

/-- One id more: the range takes it, or is done. -/
theorem join_step {r : Range} {step : Option ℕ} {x : ℕ} (h : Aligned r) (hcur : Current r step)
    (hx : x < 2 ^ 32) (hjoins : JoinsUpward r.max step x) :
    (∃ r', joinRanges r (single x) = some r' ∧ Aligned r' ∧
      Current r' (stepAfter r.max step x) ∧ r'.min = r.min ∧ r'.max = x ∧
      ∀ y, OnGrid r'.min r'.max r'.step y ↔ OnGrid r.min r.max r.step y ∨ y = x) ∨
    joinRanges r (single x) = none ∧ stepAfter r.max step x = none ∧ step.isSome := by
  have hsingle : Aligned (single x) := aligned_single hx
  cases step with
  | none =>
    left
    have hr : r = single r.max := hcur
    rcases Nat.lt_or_eq_of_le hjoins with hlt | heq
    · have hsome : joinRanges r (single x) = some ⟨r.max, x, x - r.max⟩ := by
        rw [hr]
        exact join_pair hx hlt
      have hjoined := joinRanges_spec h hsingle hlt hsome
      rw [stepAfter, if_neg (by omega)]
      refine ⟨_, hsome, hjoined.aligned, ⟨hlt, rfl⟩, hjoined.min, rfl, fun y => ?_⟩
      rw [hjoined.ids, single, onGrid_single]
    · have hsome : joinRanges r (single x) = some r := by
        rw [hr, ← heq]
        exact join_same h.lt
      rw [stepAfter, if_pos heq.symm]
      refine ⟨r, hsome, h, hcur, rfl, heq, fun y => ?_⟩
      rw [hr, single, onGrid_single, ← heq]
      tauto
  | some d =>
    obtain ⟨hmin, rfl⟩ := hcur
    have hrun := join_run (x := x) (Nat.ne_of_lt hmin)
    by_cases hadd : add32 r.max r.step = x
    · have hlt : r.max < x := hjoins.resolve_right fun hne => hne hadd
      left
      rw [if_pos hadd] at hrun
      have hjoined := joinRanges_spec h hsingle hlt hrun
      rw [stepAfter, if_pos (add32_eq_of_le h.small hlt hadd)]
      refine ⟨_, hrun, hjoined.aligned, ⟨Nat.lt_trans hmin hlt, ?_⟩, hjoined.min, rfl,
        fun y => ?_⟩
      · simp [rangeSetAllIds, Nat.ne_of_lt (Nat.lt_trans hmin hlt)]
      · rw [hjoined.ids, single, onGrid_single]
    · have hnext : x ≠ r.max + r.step := by
        rintro rfl
        exact hadd (Nat.mod_eq_of_lt hx)
      rw [if_neg hadd] at hrun
      exact .inr ⟨hrun, if_neg hnext, rfl⟩

theorem OrderlyFrom.next {e x : ℕ} {step : Option ℕ} {xs : List ℕ}
    (h : OrderlyFrom e step (x :: xs)) :
    JoinsUpward e step x ∧ (step.isSome → e < x) ∧ OrderlyFrom x (stepAfter e step x) xs := by
  cases step with
  | none => exact ⟨h.1, fun hsome => absurd hsome (by simp), h.2⟩
  | some d => exact ⟨.inl h.1, fun _ => h.1, h.2⟩

theorem compressFrom_orderly :
    ∀ (xs : List ℕ) (r : Range) (step : Option ℕ), Aligned r → Current r step →
      (∀ x ∈ xs, x < 2 ^ 32) → OrderlyFrom r.max step xs →
      Canonical (compressFrom r (xs.map single)) ∧
      (∀ y ∈ compressFrom r (xs.map single), r.min ≤ y.min) ∧
      ∀ x, Has (compressFrom r (xs.map single)) x ↔
        OnGrid r.min r.max r.step x ∨ x ∈ xs
  | [], r, _, h, _, _, _ => by
      have hcan : Canonical [r] := Canonical.cons h (by simp) Canonical.nil
      exact ⟨hcan, begins_of_canonical hcan, by simp [compressFrom]⟩
  | x :: xs, r, step, h, hcur, hlt, hord => by
      obtain ⟨hx, hxs⟩ := List.forall_mem_cons.mp hlt
      obtain ⟨hjoins, hbehind, hord'⟩ := hord.next
      rw [List.map_cons, compressFrom]
      rcases join_step h hcur hx hjoins with
        ⟨r', hsome, hal, hcur', hmin, hmax, hids⟩ | ⟨hnone, hstep, hsome⟩
      · obtain ⟨h1, h2, h3⟩ := compressFrom_orderly xs r' _ hal hcur' hxs (hmax ▸ hord')
        rw [hsome]
        refine ⟨h1, hmin ▸ h2, fun y => ?_⟩
        rw [h3, hids, List.mem_cons, or_assoc]
      · obtain ⟨h1, h2, h3⟩ :=
          compressFrom_orderly xs (single x) none (aligned_single hx) rfl hxs (hstep ▸ hord')
        rw [hnone]
        have hcan : Canonical (r :: compressFrom (single x) (xs.map single)) :=
          Canonical.cons h (fun y hy => Nat.lt_of_lt_of_le (hbehind hsome) (h2 y hy)) h1
        refine ⟨hcan, begins_of_canonical hcan, fun y => ?_⟩
        rw [has_cons, h3, single, onGrid_single, List.mem_cons]

/-! ## The other direction

Below `2 ^ 31` no sum of a last id and a step wraps, and an order that is not
orderly always shows: as a range that ends before it begins, or as two ranges
that are not ascending. -/

structure Ascending (l : List Range) : Prop where
  le : ∀ r ∈ l, r.min ≤ r.max
  apart : l.Pairwise (fun r r' => r.max < r'.min)

theorem Ascending.tail {r : Range} {l : List Range} (h : Ascending (r :: l)) : Ascending l where
  le := fun x hx => h.le x (.tail _ hx)
  apart := (List.pairwise_cons.mp h.apart).2

theorem joinRanges_min {r1 r2 r : Range} (h : joinRanges r1 r2 = some r) : r.min = r1.min := by
  unfold joinRanges at h
  split_ifs at h <;> exact (Option.some.inj h) ▸ rfl

/-- The loop keeps the first id of the range it started with. -/
theorem compressFrom_head :
    ∀ (rest : List Range) (r : Range),
      ∃ r' l, compressFrom r rest = r' :: l ∧ r'.min = r.min
  | [], r => ⟨r, [], rfl, rfl⟩
  | r2 :: rest, r => by
      rw [compressFrom]
      cases hj : joinRanges r r2 with
      | some r' =>
        obtain ⟨r'', l, heq, hmin⟩ := compressFrom_head rest r'
        exact ⟨r'', l, heq, hmin.trans (joinRanges_min hj)⟩
      | none => exact ⟨r, _, rfl, rfl⟩

/-- A range that goes down stays one: with its step, a negative number in 32
bits, it only takes ids that are lower still. -/
theorem not_ascending_of_down :
    ∀ (xs : List ℕ) (r : Range), r.max < r.min → 2 ^ 31 < r.step → r.step < 2 ^ 32 →
      r.min < 2 ^ 31 → (∀ x ∈ xs, x < 2 ^ 31) →
      ¬ Ascending (compressFrom r (xs.map single))
  | [], r, hdown, _, _, _, _ => by
      intro h
      have := h.le r (.head _)
      omega
  | x :: xs, r, hdown, hstep, hsmall, hmin, hxs => by
      have hx := hxs x (.head _)
      have hxs' : ∀ y ∈ xs, y < 2 ^ 31 := fun y hy => hxs y (.tail _ hy)
      rw [List.map_cons, compressFrom, join_run (by omega)]
      by_cases hadd : add32 r.max r.step = x
      · have hlower : x < r.max := by
          unfold add32 at hadd
          omega
        rw [if_pos hadd]
        refine not_ascending_of_down xs _ ?_ ?_ ?_ hmin hxs'
        · show x < r.min
          omega
        all_goals
          rw [rangeSetAllIds, if_pos (by omega)]
          assumption
      · rw [if_neg hadd]
        intro h
        have := h.le r (.head _)
        omega

theorem join_down {e x : ℕ} (he : e < 2 ^ 31) (hlt : x < e) :
    joinRanges (single e) (single x) = some ⟨e, x, 2 ^ 32 + x - e⟩ := by
  have hne : e ≠ x := Nat.ne_of_gt hlt
  have hadd : add32 e 1 ≠ x := by
    unfold add32
    omega
  have hsub : e ≠ sub32 x 1 := by
    unfold sub32
    omega
  have hdiff : sub32 x e = 2 ^ 32 + x - e := by
    unfold sub32
    omega
  simp [joinRanges, single, rangeSetAllIds, hadd, hsub, hne, hdiff]

theorem orderlyFrom_of_ascending :
    ∀ (xs : List ℕ) (r : Range) (step : Option ℕ), r.max < 2 ^ 31 →
      0 < r.step → r.step < 2 ^ 31 → Current r step → (∀ x ∈ xs, x < 2 ^ 31) →
      Ascending (compressFrom r (xs.map single)) → OrderlyFrom r.max step xs
  | [], _, none, _, _, _, _, _, _ => trivial
  | [], _, some _, _, _, _, _, _, _ => trivial
  | x :: xs, r, none, hmax, hpos, hstep, hcur, hxs, hasc => by
      have hx := hxs x (.head _)
      have hxs' : ∀ y ∈ xs, y < 2 ^ 31 := fun y hy => hxs y (.tail _ hy)
      have hr : r = single r.max := hcur
      rw [List.map_cons, compressFrom] at hasc
      rcases Nat.lt_trichotomy r.max x with hlt | heq | hgt
      · rw [hr, join_pair (by omega) hlt] at hasc
        refine ⟨Nat.le_of_lt hlt, ?_⟩
        rw [if_neg (by omega)]
        exact orderlyFrom_of_ascending xs ⟨r.max, x, x - r.max⟩ (some (x - r.max)) hx
          (Nat.sub_pos_of_lt hlt) (by show x - r.max < 2 ^ 31; omega) ⟨hlt, rfl⟩ hxs' hasc
      · rw [hr, ← heq, join_same (by omega), ← hr] at hasc
        refine ⟨Nat.le_of_eq heq, ?_⟩
        rw [if_pos heq.symm, ← heq]
        exact orderlyFrom_of_ascending xs r none hmax hpos hstep hcur hxs' hasc
      · rw [hr, join_down hmax hgt] at hasc
        exact absurd hasc (not_ascending_of_down xs _ hgt
          (by show 2 ^ 31 < 2 ^ 32 + x - r.max; omega)
          (by show 2 ^ 32 + x - r.max < 2 ^ 32; omega) hmax hxs')
  | x :: xs, r, some d, hmax, hpos, hstep, hcur, hxs, hasc => by
      have hx := hxs x (.head _)
      have hxs' : ∀ y ∈ xs, y < 2 ^ 31 := fun y hy => hxs y (.tail _ hy)
      obtain ⟨hmin, rfl⟩ := hcur
      have hadd : add32 r.max r.step = r.max + r.step := Nat.mod_eq_of_lt (by omega)
      rw [List.map_cons, compressFrom, join_run (Nat.ne_of_lt hmin), hadd] at hasc
      by_cases hnext : r.max + r.step = x
      · rw [if_pos hnext] at hasc
        have hne : r.min ≠ x := by omega
        have hset : rangeSetAllIds r.min x r.step = ⟨r.min, x, r.step⟩ := by
          rw [rangeSetAllIds, if_pos hne]
        rw [hset] at hasc
        refine ⟨by omega, ?_⟩
        rw [if_pos hnext.symm]
        exact orderlyFrom_of_ascending xs ⟨r.min, x, r.step⟩ (some r.step) hx hpos hstep
          ⟨by show r.min < x; omega, rfl⟩ hxs' hasc
      · rw [if_neg hnext] at hasc
        obtain ⟨r', l, heq, hmin'⟩ := compressFrom_head (xs.map single) (single x)
        have hlt : r.max < x := by
          have hmem : r' ∈ compressFrom (single x) (xs.map single) := by simp [heq]
          have := (List.pairwise_cons.mp hasc.apart).1 r' hmem
          rwa [hmin'] at this
        refine ⟨hlt, ?_⟩
        rw [if_neg (fun h => hnext h.symm)]
        exact orderlyFrom_of_ascending xs (single x) none hx (by simp) (by simp) rfl hxs'
          hasc.tail

/-! ## The three operations -/

/-- **Denotes.** The list holds the ids of a set, each in one range, and its
ranges are ascending. -/
structure Denotes (l : List Range) (s : ℕ → Prop) : Prop where
  ids : ∀ id, rangeListIsIdWithin l id = true ↔ s id
  once : ∀ id, s id → l.countP (rangeIsIdWithin · id) = 1
  ascending : Ascending l

/-- The ids of a list that may be absent. -/
def IsId (l : Option (List Range)) (id : ℕ) : Prop :=
  rangeListIsIdWithin (l.getD []) id = true

instance (l : Option (List Range)) (id : ℕ) : Decidable (IsId l id) :=
  inferInstanceAs (Decidable (_ = true))

theorem has_iff {l : List Range} {id : ℕ} : Has l id ↔ rangeListIsIdWithin l id = true :=
  listWithin_iff.symm

theorem countP_eq_zero_of_not_has {l : List Range} {id : ℕ} (h : ¬ Has l id) :
    l.countP (rangeIsIdWithin · id) = 0 := by
  rw [List.countP_eq_zero]
  intro r hr hw
  exact h ⟨r, hr, within_iff.mp hw⟩

theorem Canonical.countP {l : List Range} (h : Canonical l) {id : ℕ} (hid : Has l id) :
    l.countP (rangeIsIdWithin · id) = 1 := by
  induction l with
  | nil => simp at hid
  | cons r rest ih =>
    rw [List.countP_cons]
    by_cases hw : rangeIsIdWithin r id = true
    · have hrest : ¬ Has rest id := not_has_of_lt fun y hy =>
        Nat.lt_of_le_of_lt (within_iff.mp hw).2.1 (h.head_lt y hy)
      rw [countP_eq_zero_of_not_has hrest, if_pos hw]
    · have hrest : Has rest id := by
        rcases (has_cons r rest id).mp hid with h' | h'
        · exact absurd (within_iff.mpr h') hw
        · exact h'
      rw [ih h.tail hrest, if_neg hw]

theorem Canonical.denotes {l : List Range} (h : Canonical l) {s : ℕ → Prop}
    (hs : ∀ id, Has l id ↔ s id) : Denotes l s where
  ids := fun id => by rw [← has_iff, hs]
  once := fun id hid => h.countP ((hs id).mpr hid)
  ascending := ⟨fun r hr => (h.aligned r hr).le, h.apart⟩

variable {l1 l2 : Option (List Range)}

theorem union_denotes (σ : Sorter) (h1 : ∀ r ∈ l1.getD [], Countable r)
    (h2 : ∀ r ∈ l2.getD [], Countable r) :
    Denotes ((rangeListCalculateUnionSet σ l1 l2).getD [])
      (fun id => IsId l1 id ∨ IsId l2 id) := by
  simp only [IsId, ← has_iff]
  cases l1 with
  | none =>
    cases l2 with
    | none => exact Canonical.nil.denotes (by simp)
    | some l2 =>
      rw [Option.getD_some] at h2
      obtain ⟨hcan, hids⟩ := rangeListSortUniqCompress_spec σ h2
      exact hcan.denotes fun id => by simp [hids]
  | some l1 =>
    rw [Option.getD_some] at h1
    obtain ⟨hcan, hids⟩ := rangeListSortUniqCompress_spec σ h1
    cases l2 with
    | none => exact hcan.denotes fun id => by simp [hids]
    | some l2 =>
      rw [Option.getD_some] at h2
      obtain ⟨hcan', hids'⟩ := insertAll_spec σ hcan h2
      obtain ⟨hcan'', hids''⟩ := rangeListCompress_spec hcan'
      refine hcan''.denotes fun id => ?_
      rw [hids'', hids', hids, Option.getD_some, Option.getD_some]
      exact or_comm

/-- What is counted through are the ranges of the second list, and those of the first one that are
put in anew. -/
theorem difference_sized (σ : Sorter) (hs : ∀ r ∈ l1.getD [], Sized r)
    (h1 : ∀ r ∈ overlapping σ (l1.getD []), Countable r) (h2 : ∀ r ∈ l2.getD [], Countable r) :
    Canonical ((rangeListCalculateDifferenceSet σ l1 l2).getD []) ∧
      ∀ id, Has ((rangeListCalculateDifferenceSet σ l1 l2).getD []) id ↔
        Has (l1.getD []) id ∧ ¬ Has (l2.getD []) id := by
  cases l1 with
  | none => exact ⟨Canonical.nil, by simp [rangeListCalculateDifferenceSet]⟩
  | some l1 =>
    rw [Option.getD_some] at hs h1
    obtain ⟨hcan, hids⟩ := (sortUniqCompress_spec σ hs).2 h1
    cases l2 with
    | none => exact ⟨hcan, fun id => by simp [rangeListCalculateDifferenceSet, hids]⟩
    | some l2 =>
      rw [Option.getD_some] at h2
      obtain ⟨hcan', hids'⟩ := removeIds_spec (l2.flatMap rangeIds)
        (l := some (rangeListSortUniqCompress σ true l1)) hcan
      obtain ⟨hcan'', hids''⟩ := rangeListCompress_spec hcan'
      rw [rangeListCalculateDifferenceSet, getD_map_compress]
      refine ⟨hcan'', fun id => ?_⟩
      rw [hids'', hids', mem_flatMap_rangeIds h2]
      simp only [Option.getD_some, hids]

theorem difference_denotes (σ : Sorter) (h1 : ∀ r ∈ l1.getD [], Countable r)
    (h2 : ∀ r ∈ l2.getD [], Countable r) :
    Denotes ((rangeListCalculateDifferenceSet σ l1 l2).getD [])
      (fun id => IsId l1 id ∧ ¬ IsId l2 id) := by
  simp only [IsId, ← has_iff]
  have hs : ∀ r ∈ l1.getD [], Sized r := fun r hr => (h1 r hr).sized
  obtain ⟨hcan, hids⟩ := difference_sized σ hs ((sortUniqCompress_spec σ hs).1 h1) h2
  exact hcan.denotes hids

theorem getD_intersection (l1 l2 : List Range) :
    (rangeListCalculateIntersectionSet (some l1) (some l2)).getD [] =
      rangeListCompress ((commonIds l1 l2).map single) := by
  rw [rangeListCalculateIntersectionSet, getD_map_compress, getD_freeEmpty]
  rfl

theorem mem_commonIds {l1 l2 : List Range} (h : ∀ r ∈ l1, Countable r) {id : ℕ} :
    id ∈ commonIds l1 l2 ↔ Has l1 id ∧ Has l2 id := by
  rw [commonIds, List.mem_filter, mem_flatMap_rangeIds h, has_iff (l := l2)]

theorem intersection_canonical (h1 : ∀ r ∈ l1.getD [], Countable r)
    (hord : Orderly (commonIds (l1.getD []) (l2.getD []))) :
    Canonical ((rangeListCalculateIntersectionSet l1 l2).getD []) ∧
      ∀ id, Has ((rangeListCalculateIntersectionSet l1 l2).getD []) id ↔
        Has (l1.getD []) id ∧ Has (l2.getD []) id := by
  cases l1 with
  | none => exact ⟨Canonical.nil, by simp [rangeListCalculateIntersectionSet]⟩
  | some l1 =>
    cases l2 with
    | none => exact ⟨Canonical.nil, by simp [rangeListCalculateIntersectionSet]⟩
    | some l2 =>
      have hmem := @mem_commonIds l1 l2 h1
      have hlt : ∀ id ∈ commonIds l1 l2, id < 2 ^ 32 :=
        fun id hid => (hmem.mp hid).1.lt h1
      rw [getD_intersection]
      simp only [Option.getD_some] at hord ⊢
      cases hids : commonIds l1 l2 with
      | nil =>
        refine ⟨Canonical.nil, fun id => ?_⟩
        rw [← hmem, hids]
        simp [rangeListCompress]
      | cons x xs =>
        rw [hids] at hord hlt
        obtain ⟨hcan, -, hhas⟩ := compressFrom_orderly xs (single x) none
          (aligned_single (hlt x (.head _))) rfl
          (fun y hy => hlt y (.tail _ hy)) hord
        refine ⟨hcan, fun id => ?_⟩
        rw [← hmem, hids, List.mem_cons, ← onGrid_single]
        exact hhas id

theorem intersection_denotes (h1 : ∀ r ∈ l1.getD [], Countable r)
    (hord : Orderly (commonIds (l1.getD []) (l2.getD []))) :
    Denotes ((rangeListCalculateIntersectionSet l1 l2).getD [])
      (fun id => IsId l1 id ∧ IsId l2 id) := by
  simp only [IsId, ← has_iff]
  obtain ⟨hcan, hids⟩ := intersection_canonical h1 hord
  exact hcan.denotes hids

theorem orderly_of_intersection (hlt : ∀ id ∈ commonIds (l1.getD []) (l2.getD []), id < 2 ^ 31)
    (hasc : Ascending ((rangeListCalculateIntersectionSet l1 l2).getD [])) :
    Orderly (commonIds (l1.getD []) (l2.getD [])) := by
  cases l1 with
  | none => simp [commonIds, Orderly]
  | some l1 =>
    cases l2 with
    | none =>
      have hnone : commonIds l1 [] = [] := by simp [commonIds, rangeListIsIdWithin]
      rw [Option.getD_some, Option.getD_none, hnone]
      trivial
    | some l2 =>
      rw [getD_intersection] at hasc
      simp only [Option.getD_some] at hlt ⊢
      cases hids : commonIds l1 l2 with
      | nil => trivial
      | cons x xs =>
        rw [hids] at hasc hlt
        exact orderlyFrom_of_ascending xs (single x) none (hlt x (.head _))
          (by simp) (by simp) rfl
          (fun y hy => hlt y (.tail _ hy)) hasc

/-- **Set operations.** Union and difference compute their sets for every two
lists. The intersection does if the common ids come in an orderly order, and,
where sums of ids do not wrap, only then. -/
theorem rangeListCalculate_sets (σ : Sorter) (l1 l2 : Option (List Range))
    (h1 : ∀ r ∈ l1.getD [], Countable r) (h2 : ∀ r ∈ l2.getD [], Countable r) :
    Denotes ((rangeListCalculateUnionSet σ l1 l2).getD [])
      (fun id => IsId l1 id ∨ IsId l2 id) ∧
    Denotes ((rangeListCalculateDifferenceSet σ l1 l2).getD [])
      (fun id => IsId l1 id ∧ ¬ IsId l2 id) ∧
    (Orderly (commonIds (l1.getD []) (l2.getD [])) →
      Denotes ((rangeListCalculateIntersectionSet l1 l2).getD [])
        (fun id => IsId l1 id ∧ IsId l2 id)) ∧
    ((∀ id ∈ commonIds (l1.getD []) (l2.getD []), id < 2 ^ 31) →
      Denotes ((rangeListCalculateIntersectionSet l1 l2).getD [])
        (fun id => IsId l1 id ∧ IsId l2 id) →
      Orderly (commonIds (l1.getD []) (l2.getD []))) := by
  refine ⟨union_denotes σ h1 h2, difference_denotes σ h1 h2, ?_, ?_⟩
  · exact fun hord => intersection_denotes h1 hord
  · exact fun hlt h => orderly_of_intersection hlt h.ascending

/-- A sorter that keeps ranges with the same first id in their order. -/
def sortByMin : Sorter where
  sort := List.insertionSort (fun r r' => r.min ≤ r'.min)
  perm := List.perm_insertionSort _
  sorted := by
    have : Std.Total (fun r r' : Range => r.min ≤ r'.min) :=
      ⟨fun a b => Nat.le_total a.min b.min⟩
    have : IsTrans Range (fun r r' : Range => r.min ≤ r'.min) :=
      ⟨fun a b c => Nat.le_trans⟩
    exact List.pairwise_insertionSort _

/-- `3-9:2,12` and `1-20:5,5,12`: the common ids `5`, `12` ascend. -/
theorem rangeListCalculate_sets_ascending :
    Denotes ((rangeListCalculateIntersectionSet (some [⟨3, 9, 2⟩, ⟨12, 12, 1⟩])
      (some [⟨1, 20, 5⟩, ⟨5, 5, 1⟩, ⟨12, 12, 1⟩])).getD [])
      (fun id => IsId (some [⟨3, 9, 2⟩, ⟨12, 12, 1⟩]) id ∧
        IsId (some [⟨1, 20, 5⟩, ⟨5, 5, 1⟩, ⟨12, 12, 1⟩]) id) :=
  (rangeListCalculate_sets sortByMin (some [⟨3, 9, 2⟩, ⟨12, 12, 1⟩])
    (some [⟨1, 20, 5⟩, ⟨5, 5, 1⟩, ⟨12, 12, 1⟩])
    (by
      intro r hr
      simp only [Option.getD_some, List.mem_cons, List.not_mem_nil, or_false] at hr
      rcases hr with rfl | rfl <;> exact ⟨by decide, by decide, by decide⟩)
    (by
      intro r hr
      simp only [Option.getD_some, List.mem_cons, List.not_mem_nil, or_false] at hr
      rcases hr with rfl | rfl | rfl <;>
        exact ⟨by decide, by decide, by decide⟩)).2.2.1 (by decide +kernel)

/-- `5,1` and `1-5:1`: the intersection is one range from 5 down to 1, without
any id. -/
theorem rangeListCalculate_sets_unsorted_false :
    (∀ r ∈ [⟨5, 5, 1⟩, ⟨1, 1, 1⟩, (⟨1, 5, 1⟩ : Range)], Countable r) ∧
      IsId (some [⟨5, 5, 1⟩, ⟨1, 1, 1⟩]) 5 ∧ IsId (some [⟨1, 5, 1⟩]) 5 ∧
      ¬ IsId (rangeListCalculateIntersectionSet (some [⟨5, 5, 1⟩, ⟨1, 1, 1⟩])
        (some [⟨1, 5, 1⟩])) 5 := by
  refine ⟨?_, by decide +kernel, by decide +kernel, by decide +kernel⟩
  intro r hr
  simp only [List.mem_cons, List.not_mem_nil, or_false] at hr
  rcases hr with rfl | rfl | rfl <;> exact ⟨by decide, by decide, by decide⟩

end ClusterScheduler.Sgeobj
