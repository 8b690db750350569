import ClusterScheduler.Sgeobj.RangeSetOperations

/-!
# Lists of task ids

The ids of the tasks of a job that have not been enrolled are kept in lists of
ranges. Task ids are positive and below `2 ^ 31`, so no sum of a last id and a
step wraps, and a list can be counted.

* `rangeListGetNumberOfIds` — the number of ids, as the source computes it.
* `IdList` — a list in order whose ids are task ids.
* `IdList.insert`, `IdList.remove`, `IdList.compress`, `IdList.union` — the
  operations keep it.
* `IdList.count` — counting counts the ids.
-/

namespace ClusterScheduler.Sgeobj

open Foundation

/-! ## Counting -/

def rangeGetNumberOfIds (r : Range) : ℕ := add32 1 (sub32 r.max r.min / r.step)

def rangeListGetNumberOfIds (l : List Range) : ℕ :=
  l.foldl (fun ret range => add32 ret (rangeGetNumberOfIds range)) 0

/-- An id of a task: positive, and it fits a signed 32 bit number. -/
def IsTaskId (id : ℕ) : Prop := 1 ≤ id ∧ id < 2 ^ 31

instance (id : ℕ) : Decidable (IsTaskId id) := inferInstanceAs (Decidable (_ ∧ _))

def Stored (r : Range) : Prop := r.min = r.max → r.step = 1

/-- A list in order that holds task ids only. -/
structure IdList (l : List Range) : Prop where
  canonical : Canonical l
  stored : ∀ r ∈ l, Stored r
  ids : ∀ x, Has l x → IsTaskId x

theorem stored_set (min max step : ℕ) : Stored (rangeSetAllIds min max step) := by
  intro h
  simp only [rangeSetAllIds] at h ⊢
  exact if_neg (not_not.mpr h)

/-! ## What the operations store -/

/-- The id goes into a new range, a stored one, or one that is made longer. -/
theorem stored_placeId {id : ℕ} {range : Option Range} {suffix : List Range}
    (hrange : ∀ r ∈ range, Stored r) (hsuffix : ∀ r ∈ suffix, Stored r) :
    ∀ m ∈ placeId id range suffix, Stored m := by
  cases range with
  | none =>
    cases suffix with
    | nil => simp [placeId, stored_set]
    | cons next rest =>
      obtain ⟨hnext, hrest⟩ := List.forall_mem_cons.mp hsuffix
      simp only [placeId, splitAround]
      split_ifs <;> simpa [stored_set, hnext] using hrest
  | some r =>
    have hr : Stored r := hrange r rfl
    cases suffix with
    | nil =>
      simp only [placeId]
      split_ifs <;> simp [stored_set, hr]
    | cons next rest =>
      obtain ⟨hnext, hrest⟩ := List.forall_mem_cons.mp hsuffix
      simp only [placeId, splitAround]
      split_ifs <;> simpa [stored_set, hr, hnext] using hrest

theorem stored_insertLoop {id : ℕ} {prev suffix : List Range}
    (hp : ∀ r ∈ prev, Stored r) (hs : ∀ r ∈ suffix, Stored r) :
    ∀ m ∈ insertLoop id prev suffix, Stored m := by
  induction prev generalizing suffix with
  | nil =>
    rw [insertLoop]
    exact List.forall_mem_append.mpr ⟨hs, by simp [stored_set]⟩
  | cons range prev ih =>
    obtain ⟨hrange, hprev⟩ := List.forall_mem_cons.mp hp
    have hs' := List.forall_mem_cons.mpr ⟨hrange, hs⟩
    unfold insertLoop
    split
    · split
      · exact stored_placeId (by simp) hs'
      · exact ih hprev hs'
    · refine List.forall_mem_append.mpr ⟨fun m hm => hprev m (List.mem_reverse.mp hm), ?_⟩
      exact stored_placeId (by simpa using hrange) hs

variable {l : List Range}

theorem stored_insertId (σ : Sorter) (h : ∀ r ∈ l, Stored r) (id : ℕ) :
    ∀ m ∈ rangeListInsertId σ l id, Stored m := by
  refine stored_insertLoop (fun r hr => h r ?_) (by simp)
  exact (σ.perm l).mem_iff.mp (List.mem_reverse.mp hr)

theorem stored_insertIds (σ : Sorter) (ids : List ℕ)
    (h : ∀ r ∈ l, Stored r) : ∀ m ∈ ids.foldl (rangeListInsertId σ) l, Stored m := by
  induction ids generalizing l with
  | nil => exact h
  | cons id ids ih => exact ih (stored_insertId σ h id)

theorem stored_removeIdLoop (id : ℕ) (h : ∀ r ∈ l, Stored r) :
    ∀ m ∈ removeIdLoop id l, Stored m := by
  induction l with
  | nil => simp [removeIdLoop]
  | cons r rest ih =>
    obtain ⟨hr, hrest⟩ := List.forall_mem_cons.mp h
    have hparts : ∀ m ∈ removeFromRange id r, Stored m := by
      unfold removeFromRange
      split_ifs <;> simp [stored_set]
    rw [removeIdLoop]
    split
    · exact List.forall_mem_append.mpr ⟨hparts, hrest⟩
    · exact List.forall_mem_cons.mpr ⟨hr, ih hrest⟩

variable {r1 : Range}

theorem stored_joinRanges {r2 r : Range} (h : joinRanges r1 r2 = some r) : Stored r := by
  unfold joinRanges at h
  split_ifs at h <;> (rw [← Option.some.inj h]; exact stored_set _ _ _)

theorem stored_compressFrom (h1 : Stored r1)
    (h : ∀ r ∈ l, Stored r) : ∀ m ∈ compressFrom r1 l, Stored m := by
  induction l generalizing r1 with
  | nil => simpa [compressFrom] using h1
  | cons r2 rest ih =>
    obtain ⟨h2, hrest⟩ := List.forall_mem_cons.mp h
    rw [compressFrom]
    split
    · next r hjoin => exact ih (stored_joinRanges hjoin) hrest
    · exact List.forall_mem_cons.mpr ⟨h1, ih h2 hrest⟩

theorem stored_compress (h : ∀ r ∈ l, Stored r) : ∀ m ∈ rangeListCompress l, Stored m := by
  cases l with
  | nil => simp [rangeListCompress]
  | cons r rest =>
    obtain ⟨hr, hrest⟩ := List.forall_mem_cons.mp h
    exact stored_compressFrom hr hrest

theorem stored_correctEnd (r : Range) : Stored (rangeCorrectEnd r) := by
  unfold rangeCorrectEnd
  split_ifs <;> exact stored_set _ _ _

theorem stored_splitOverlaps (h1 : Stored r1) : ∀ m ∈ (splitOverlaps true r1 l).1, Stored m := by
  induction l generalizing r1 with
  | nil => simpa [splitOverlaps] using h1
  | cons r2 rest ih =>
    simp only [splitOverlaps, if_true]
    split
    · exact ih h1
    · exact List.forall_mem_cons.mpr ⟨h1, ih (stored_correctEnd r2)⟩

theorem stored_sortUniqCompress (σ : Sorter) (l : List Range) :
    ∀ m ∈ rangeListSortUniqCompress σ true l, Stored m := by
  unfold rangeListSortUniqCompress
  split
  · simp
  · exact stored_compress (stored_insertIds σ _ (stored_splitOverlaps (stored_correctEnd _)))

theorem Canonical.countable (h : Canonical l) (hs : ∀ r ∈ l, Stored r)
    (hids : ∀ x, Has l x → x < 2 ^ 31) : ∀ r ∈ l, Countable r := by
  intro r hr
  have hal := h.aligned r hr
  have hmax := hids r.max ⟨r, hr, hal.le, Nat.le_refl _, hal.dvd⟩
  refine ⟨hal.le, hal.step, ?_⟩
  rcases Nat.lt_or_eq_of_le hal.le with hlt | heq
  · have := hal.step_le hlt
    omega
  · have := hs r hr heq
    omega

/-! ## The operations keep a list of task ids -/

namespace IdList

variable {l : List Range}

theorem nil : IdList [] where
  canonical := Canonical.nil
  stored := by simp
  ids := by simp

theorem countable (h : IdList l) : ∀ r ∈ l, Countable r :=
  h.canonical.countable h.stored fun x hx => (h.ids x hx).2

theorem insert (σ : Sorter) (h : IdList l) {id : ℕ} (hid : IsTaskId id) :
    IdList (rangeListInsertId σ l id) ∧
      ∀ x, Has (rangeListInsertId σ l id) x ↔ x = id ∨ Has l x := by
  have hlt : id < 2 ^ 32 := Nat.lt_trans hid.2 (by decide)
  obtain ⟨hcan, hids⟩ := rangeListInsertId_spec σ h.canonical hlt
  refine ⟨⟨hcan, stored_insertId σ h.stored id, fun x hx => ?_⟩, hids⟩
  rcases (hids x).mp hx with rfl | hx
  · exact hid
  · exact h.ids x hx

theorem remove (h : IdList l) (id : ℕ) :
    IdList (removeIdLoop id l) ∧ ∀ x, Has (removeIdLoop id l) x ↔ Has l x ∧ x ≠ id := by
  obtain ⟨hcan, -, hids⟩ := removeIdLoop_spec id h.canonical
  exact ⟨⟨hcan, stored_removeIdLoop id h.stored, fun x hx => h.ids x ((hids x).mp hx).1⟩, hids⟩

theorem compress (h : IdList l) :
    IdList (rangeListCompress l) ∧ ∀ x, Has (rangeListCompress l) x ↔ Has l x := by
  obtain ⟨hcan, hids⟩ := rangeListCompress_spec h.canonical
  exact ⟨⟨hcan, stored_compress h.stored, fun x hx => h.ids x ((hids x).mp hx)⟩, hids⟩

theorem sortUniqCompress (σ : Sorter) (h : IdList l) :
    IdList (rangeListSortUniqCompress σ true l) ∧
      ∀ x, Has (rangeListSortUniqCompress σ true l) x ↔ Has l x := by
  obtain ⟨hcan, hids⟩ := rangeListSortUniqCompress_spec σ h.countable
  exact ⟨⟨hcan, stored_sortUniqCompress σ l, fun x hx => h.ids x ((hids x).mp hx)⟩, hids⟩

theorem insertAll (σ : Sorter) (h : IdList l) {tmp : List Range} (ht : IdList tmp) :
    IdList (insertAll σ l tmp) ∧ ∀ x, Has (Sgeobj.insertAll σ l tmp) x ↔ Has tmp x ∨ Has l x := by
  obtain ⟨hcan, hids⟩ := insertAll_spec σ h.canonical ht.countable
  refine ⟨⟨hcan, stored_insertIds σ _ h.stored, fun x hx => ?_⟩, hids⟩
  exact ((hids x).mp hx).elim (ht.ids x) (h.ids x)

theorem union (σ : Sorter) {l1 l2 : Option (List Range)} (h1 : IdList (l1.getD []))
    (h2 : IdList (l2.getD [])) :
    IdList ((rangeListCalculateUnionSet σ l1 l2).getD []) ∧
      ∀ x, Has ((rangeListCalculateUnionSet σ l1 l2).getD []) x ↔
        Has (l1.getD []) x ∨ Has (l2.getD []) x := by
  cases l1 with
  | none =>
    cases l2 with
    | none => exact ⟨nil, by simp [rangeListCalculateUnionSet]⟩
    | some l2 => simpa [rangeListCalculateUnionSet] using sortUniqCompress σ h2
  | some l1 =>
    rw [Option.getD_some] at h1
    obtain ⟨hs, hids⟩ := sortUniqCompress σ h1
    cases l2 with
    | none => simpa [rangeListCalculateUnionSet] using And.intro hs hids
    | some l2 =>
      rw [Option.getD_some] at h2
      obtain ⟨hi, hids'⟩ := hs.insertAll σ h2
      obtain ⟨hc, hids''⟩ := hi.compress
      refine ⟨hc, fun x => ?_⟩
      rw [rangeListCalculateUnionSet, Option.getD_some, Option.getD_some,
        Option.getD_some, hids'', hids', hids]
      exact or_comm

end IdList

/-! ## Counting counts the ids -/

def idSet (l : List Range) : Set ℕ := {x | Has l x}

theorem ncard_onGrid {lo hi d : ℕ} (hle : lo ≤ hi) (hd : 0 < d) :
    {x | OnGrid lo hi d x}.ncard = 1 + (hi - lo) / d := by
  have himage : {x | OnGrid lo hi d x} =
      (fun i => lo + i * d) '' (Set.Iio (1 + (hi - lo) / d)) := by
    ext x
    constructor
    · rintro ⟨h1, h2, h3⟩
      refine ⟨(x - lo) / d, ?_, ?_⟩
      · have := Nat.div_le_div_right (c := d) (show x - lo ≤ hi - lo by omega)
        exact Set.mem_Iio.mpr (by omega)
      · have := Nat.div_mul_cancel h3
        show lo + (x - lo) / d * d = x
        omega
    · rintro ⟨i, hi', rfl⟩
      have hi'' : i ≤ (hi - lo) / d := by
        have := Set.mem_Iio.mp hi'
        omega
      have hmul := (Nat.mul_le_mul_right d hi'').trans (Nat.div_mul_le_self (hi - lo) d)
      refine ⟨Nat.le_add_right _ _, ?_, ?_⟩
      · show lo + i * d ≤ hi
        omega
      · rw [show lo + i * d - lo = i * d by omega]
        exact Nat.dvd_mul_left d i
  have hinj : Function.Injective fun i => lo + i * d := fun i j hij =>
    Nat.eq_of_mul_eq_mul_right hd (Nat.add_left_cancel hij)
  rw [himage, Set.ncard_image_of_injective _ hinj, Set.ncard_eq_toFinset_card']
  simp

theorem idSet_cons (r : Range) (l : List Range) :
    idSet (r :: l) = {x | OnGrid r.min r.max r.step x} ∪ idSet l := by
  ext x
  simp [idSet]

theorem idSet_finite (h : Canonical l) : (idSet l).Finite :=
  (Set.finite_Iio (2 ^ 32)).subset fun _ ⟨r, hr, _, hle, _⟩ =>
    Nat.lt_of_le_of_lt hle (h.aligned r hr).lt

theorem Canonical.ncard_cons {r : Range} (h : Canonical (r :: l)) :
    (idSet (r :: l)).ncard = 1 + (r.max - r.min) / r.step + (idSet l).ncard := by
  have hal := h.head
  have hdisj : Disjoint {x | OnGrid r.min r.max r.step x} (idSet l) := by
    rw [Set.disjoint_left]
    rintro x ⟨-, hle, -⟩ ⟨y, hy, hmin, -⟩
    have := h.head_lt y hy
    omega
  have hfin : {x | OnGrid r.min r.max r.step x}.Finite :=
    (idSet_finite h).subset fun x hx => (has_cons r l x).mpr (.inl hx)
  rw [idSet_cons, Set.ncard_union_eq hdisj hfin (idSet_finite h.tail), ncard_onGrid hal.le hal.step]

theorem foldl_count (h : Canonical l) (n : ℕ) (hn : n + (idSet l).ncard < 2 ^ 32) :
    l.foldl (fun ret range => add32 ret (rangeGetNumberOfIds range)) n =
      n + (idSet l).ncard := by
  induction l generalizing n with
  | nil => simp [idSet]
  | cons r rest ih =>
    have hcard := h.ncard_cons
    have hmax := h.head.lt
    have hle := h.head.le
    have hsub : sub32 r.max r.min = r.max - r.min := by
      unfold sub32
      omega
    have hone : rangeGetNumberOfIds r = 1 + (r.max - r.min) / r.step := by
      rw [rangeGetNumberOfIds, hsub]
      exact Nat.mod_eq_of_lt (by omega)
    have hadd : add32 n (rangeGetNumberOfIds r) = n + rangeGetNumberOfIds r :=
      Nat.mod_eq_of_lt (by omega)
    rw [List.foldl_cons, hadd, ih h.tail _ (by omega)]
    omega

/-- **Counting counts the ids.** -/
theorem Canonical.count (h : Canonical l) (hids : ∀ x, Has l x → x < 2 ^ 31) :
    rangeListGetNumberOfIds l = (idSet l).ncard := by
  have hsubset : idSet l ⊆ Set.Iio (2 ^ 31) := fun x hx => hids x hx
  have hcard : (Set.Iio (2 ^ 31)).ncard = 2 ^ 31 := by
    rw [Set.ncard_eq_toFinset_card', Set.toFinset_Iio, Nat.card_Iio]
  have hle := Set.ncard_le_ncard hsubset (Set.finite_Iio (2 ^ 31))
  rw [rangeListGetNumberOfIds, foldl_count h 0 (by omega), Nat.zero_add]

theorem IdList.idSet_finite (h : IdList l) : (idSet l).Finite :=
  Sgeobj.idSet_finite h.canonical

theorem IdList.ncard_lt (h : IdList l) : (idSet l).ncard < 2 ^ 31 := by
  have hsubset : idSet l ⊆ Set.Ico 1 (2 ^ 31) := fun x hx => h.ids x hx
  have hcard : (Set.Ico 1 (2 ^ 31)).ncard = 2 ^ 31 - 1 := by
    rw [Set.ncard_eq_toFinset_card', Set.toFinset_Ico, Nat.card_Ico]
  have := Set.ncard_le_ncard hsubset (Set.finite_Ico 1 (2 ^ 31))
  omega

theorem IdList.count (h : IdList l) : rangeListGetNumberOfIds l = (idSet l).ncard :=
  h.canonical.count fun x hx => (h.ids x hx).2

end ClusterScheduler.Sgeobj
