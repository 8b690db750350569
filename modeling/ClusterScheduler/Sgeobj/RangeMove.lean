import ClusterScheduler.Sgeobj.IdLists

/-!
# Moving the first ids of a range list

The first ids of a list of task ids are moved to another list: they are inserted there one
by one, and then all ids of that list are removed from the first one.

* `listIds` — the ids of a list in the order they are gone through.
* `rangeListMoveFirstNIds` — the function of the source. Its loops count with 32 bits and
  need not end; `fuel` bounds each of them.
* `LastRange` — the ids end in the last range.
* `LeavesWhole`, `LeavesMoved` — counting with 32 bits comes out of the ranges.
* `moveFirstN_splits` — when a list is split at an id.
-/

namespace ClusterScheduler.Sgeobj

open Foundation

/-! ## Functions of the source -/

section Functions

variable (σ : Sorter) (fuel : ℕ)

/-- The loop through the ids of one range, with the number of ids left to move. It is only
this loop that ends when none is left. -/
def moveRange (max step : ℕ) : ℕ → ℕ → ℕ → List Range → Option (ℕ × List Range)
  | 0, _, _, _ => none
  | fuel + 1, id, n, dest =>
    if id ≤ max then
      let dest := rangeListCompress (rangeListInsertId σ dest id)
      let n := sub32 n 1
      if n = 0 then some (n, dest) else moveRange max step fuel (add32 id step) n dest
    else some (n, dest)

def moveRanges : List Range → ℕ → List Range → Option (List Range)
  | [], _, dest => some dest
  | range :: rest, n, dest =>
    (moveRange σ range.max range.step fuel range.min n dest).bind fun moved =>
      moveRanges rest moved.1 moved.2

/-- The ids a loop counts through. -/
def countUp (max step : ℕ) : ℕ → ℕ → Option (List ℕ)
  | 0, _ => none
  | fuel + 1, id =>
    if id ≤ max then (countUp max step fuel (add32 id step)).map (id :: ·) else some []

def removeRanges : List Range → Option (List Range) → Option (Option (List Range))
  | [], l => some l
  | range :: rest, l =>
    (countUp range.max range.step fuel range.min).bind fun ids =>
      removeRanges rest (ids.foldl rangeListRemoveId l)

/-- The two lists afterwards. The second one is empty at first. -/
def rangeListMoveFirstNIds (l : List Range) (n : ℕ) :
    Option (Option (List Range) × List Range) :=
  (moveRanges σ fuel l n []).bind fun dest =>
    (removeRanges fuel dest (some l)).map fun l => (l, dest)

end Functions

/-! ## The ids of a list -/

def idsOf (r : Range) : List ℕ := List.range' r.min ((r.max - r.min) / r.step + 1) r.step

def listIds (l : List Range) : List ℕ := l.flatMap idsOf

/-- After the call the second list holds the `n` smallest ids, and the first one the others. -/
def Splits (σ : Sorter) (l : List Range) (n : ℕ) : Prop :=
  ∃ fuel src dest, rangeListMoveFirstNIds σ fuel l n = some (src, dest) ∧
    (∀ x, Has dest x ↔ x ∈ (listIds l).take n) ∧
    ∀ x, Has (src.getD []) x ↔ x ∈ (listIds l).drop n

def LastRange (l : List Range) (n : ℕ) : Prop := (listIds l.dropLast).length < n

instance (l : List Range) (n : ℕ) : Decidable (LastRange l n) :=
  inferInstanceAs (Decidable (_ < _))

/-- Counting on with 32 bits leaves every range that is moved as a whole. -/
def LeavesWhole (l : List Range) : Prop := ∀ r ∈ l.dropLast, r.max + r.step < 2 ^ 32

/-- The ids one by one, each with the compression that follows. -/
def insertIds (σ : Sorter) (dest : List Range) (ids : List ℕ) : List Range :=
  ids.foldl (fun dest id => rangeListCompress (rangeListInsertId σ dest id)) dest

/-- Counting on with 32 bits leaves every range that the first `n` ids form. -/
def LeavesMoved (σ : Sorter) (l : List Range) (n : ℕ) : Prop :=
  ∀ r ∈ insertIds σ [] ((listIds l).take n), r.max + Nat.gcd r.step (2 ^ 32) < 2 ^ 32

variable {σ : Sorter} {l dest : List Range} {r : Range} {n x : ℕ}

theorem Aligned.count_mul (h : Aligned r) : r.step * ((r.max - r.min) / r.step) = r.max - r.min :=
  Nat.mul_div_cancel' h.dvd

theorem mem_idsOf (h : Aligned r) : x ∈ idsOf r ↔ OnGrid r.min r.max r.step x := by
  have hcount := h.count_mul
  have hle := h.le
  rw [idsOf, List.mem_range', OnGrid]
  constructor
  · rintro ⟨i, hi, rfl⟩
    have hmul : r.step * i ≤ r.step * ((r.max - r.min) / r.step) :=
      Nat.mul_le_mul_left _ (Nat.lt_succ_iff.mp hi)
    exact ⟨Nat.le_add_right _ _, by omega, by simp⟩
  · rintro ⟨hmin, hmax, i, hi⟩
    refine ⟨i, ?_, by omega⟩
    have hmul : r.step * i ≤ r.step * ((r.max - r.min) / r.step) := by omega
    exact Nat.lt_succ_of_le (Nat.le_of_mul_le_mul_left hmul h.step)

theorem mem_listIds (h : ∀ r ∈ l, Aligned r) : x ∈ listIds l ↔ Has l x := by
  simp only [listIds, List.mem_flatMap, Has]
  exact exists_congr fun r => and_congr_right fun hr => mem_idsOf (h r hr)

theorem pairwise_listIds (h : Canonical l) : (listIds l).Pairwise (· < ·) := by
  induction l with
  | nil => exact List.Pairwise.nil
  | cons r rest ih =>
    rw [listIds, List.flatMap_cons]
    refine List.pairwise_append.mpr ⟨?_, ih h.tail, ?_⟩
    · exact List.pairwise_lt_range' _ h.head.step
    · intro x hx y hy
      obtain ⟨-, hmax, -⟩ := (mem_idsOf h.head).mp hx
      obtain ⟨r', hr', hmin, -⟩ := (mem_listIds h.tail.aligned).mp hy
      have := h.head_lt r' hr'
      omega

/-! ## Inserting -/

theorem insertIds_append (ids ids' : List ℕ) :
    insertIds σ dest (ids ++ ids') = insertIds σ (insertIds σ dest ids) ids' :=
  List.foldl_append

theorem insertIds_ids (ids : List ℕ) (hdest : Canonical dest) (hids : ∀ id ∈ ids, id < 2 ^ 32) :
    Canonical (insertIds σ dest ids) ∧
      ∀ x, Has (insertIds σ dest ids) x ↔ x ∈ ids ∨ Has dest x := by
  induction ids generalizing dest with
  | nil => exact ⟨hdest, by simp [insertIds]⟩
  | cons id ids ih =>
    obtain ⟨hid, hids⟩ := List.forall_mem_cons.mp hids
    obtain ⟨hinsert, hmem⟩ := rangeListInsertId_spec σ hdest hid
    obtain ⟨hcompress, hmem'⟩ := rangeListCompress_spec hinsert
    obtain ⟨hall, hrest⟩ := ih hcompress hids
    refine ⟨hall, fun x => ?_⟩
    show Has (insertIds σ _ ids) x ↔ _
    rw [hrest, hmem', hmem, List.mem_cons]
    tauto

/-! ## The first loop -/

section First

variable {max step id fuel : ℕ}

theorem sub32_one (h1 : 1 ≤ n) (h : n < 2 ^ 32) : sub32 n 1 = n - 1 := by
  unfold sub32
  omega

theorem moveRange_whole {k : ℕ} (hstep : max + step < 2 ^ 32) (hn : n < 2 ^ 32) (hk : k < n)
    (hbelow : ∀ i < k, id + i * step ≤ max) (hbeyond : max < id + k * step) (hfuel : k < fuel) :
    moveRange σ max step fuel id n dest =
      some (n - k, insertIds σ dest (List.range' id k step)) := by
  induction k generalizing id n dest fuel with
  | zero =>
    obtain ⟨fuel, rfl⟩ := Nat.exists_eq_add_one_of_ne_zero (Nat.pos_iff_ne_zero.mp hfuel)
    rw [moveRange, if_neg (by omega)]
    rfl
  | succ k ih =>
    obtain ⟨fuel, rfl⟩ := Nat.exists_eq_add_one_of_ne_zero (Nat.ne_zero_of_lt hfuel)
    have hid : id ≤ max := by simpa using hbelow 0 (Nat.succ_pos k)
    have hadd : add32 id step = id + step := Nat.mod_eq_of_lt (by omega)
    have hnext : ∀ i, id + step + i * step = id + (i + 1) * step := fun i => by ring
    rw [moveRange, if_pos hid]
    dsimp only
    rw [sub32_one (by omega) hn, if_neg (by omega), hadd, ih (by omega) (by omega) ?_ ?_ (by omega),
      List.range'_succ, show n - 1 - k = n - (k + 1) by omega]
    · rfl
    · intro i hi
      rw [hnext]
      exact hbelow (i + 1) (Nat.succ_lt_succ hi)
    · rw [hnext]
      exact hbeyond

/-- `n` ids are moved before those of the range are used up. Nothing is added to the last id. -/
theorem moveRange_part {k : ℕ} (hmax : max < 2 ^ 32) (h1 : 1 ≤ n) (hn : n < 2 ^ 32) (hk : n ≤ k)
    (hbelow : ∀ i < k, id + i * step ≤ max) (hfuel : n ≤ fuel) :
    moveRange σ max step fuel id n dest = some (0, insertIds σ dest (List.range' id n step)) := by
  induction n, h1 using Nat.le_induction generalizing id k dest fuel with
  | base =>
    obtain ⟨fuel, rfl⟩ := Nat.exists_eq_add_one_of_ne_zero (Nat.ne_zero_of_lt hfuel)
    have hid : id ≤ max := by simpa using hbelow 0 hk
    rw [moveRange, if_pos hid]
    rfl
  | succ n h1 ih =>
    obtain ⟨fuel, rfl⟩ := Nat.exists_eq_add_one_of_ne_zero (Nat.ne_zero_of_lt hfuel)
    obtain ⟨k, rfl⟩ := Nat.exists_eq_add_one_of_ne_zero (Nat.ne_zero_of_lt hk)
    have hid : id ≤ max := by simpa using hbelow 0 (Nat.succ_pos k)
    have hsecond : id + step ≤ max := by simpa using hbelow 1 (by omega)
    have hadd : add32 id step = id + step := Nat.mod_eq_of_lt (by omega)
    rw [moveRange, if_pos hid]
    dsimp only
    rw [sub32_one (by omega) hn, Nat.add_sub_cancel, if_neg (by omega), hadd,
      ih (by omega) (Nat.le_of_succ_le_succ hk) ?_ (Nat.le_of_succ_le_succ hfuel), List.range'_succ]
    · rfl
    · intro i hi
      have := hbelow (i + 1) (Nat.succ_lt_succ hi)
      rwa [Nat.add_mul, Nat.one_mul, Nat.add_comm (i * step), ← Nat.add_assoc] at this

end First

theorem idsOf_below (h : Aligned r) {i : ℕ} (hi : i < (r.max - r.min) / r.step + 1) :
    r.min + i * r.step ≤ r.max := by
  have hle := h.le
  have hmul : i * r.step ≤ (r.max - r.min) / r.step * r.step :=
    Nat.mul_le_mul_right _ (Nat.lt_succ_iff.mp hi)
  have := Nat.div_mul_le_self (r.max - r.min) r.step
  omega

theorem idsOf_beyond (h : Aligned r) : r.max < r.min + ((r.max - r.min) / r.step + 1) * r.step := by
  have := h.le
  have := h.step
  have := Nat.div_mul_cancel h.dvd
  rw [Nat.add_mul]
  omega

theorem length_idsOf_lt (h : Aligned r) : (r.max - r.min) / r.step + 1 ≤ 2 ^ 32 := by
  have := h.lt
  have := Nat.div_le_self (r.max - r.min) r.step
  omega

theorem take_listIds_cons {init : List Range} (hk : (idsOf r).length < n) :
    (listIds (r :: init)).take n = idsOf r ++ (listIds init).take (n - (idsOf r).length) := by
  rw [listIds, List.flatMap_cons, List.take_append, List.take_of_length_le (Nat.le_of_lt hk)]
  rfl

variable {fuel : ℕ}

theorem moveRanges_last (hfuel : 2 ^ 32 < fuel) {last : Range} :
    ∀ {init : List Range} {n : ℕ} {dest : List Range}, (∀ r ∈ init ++ [last], Aligned r) →
      (∀ r ∈ init, r.max + r.step < 2 ^ 32) → n < 2 ^ 32 → (listIds init).length < n →
      n ≤ (listIds (init ++ [last])).length →
      moveRanges σ fuel (init ++ [last]) n dest =
        some (insertIds σ dest ((listIds (init ++ [last])).take n))
  | [], n, dest, hal, _, hn, h1, hle => by
      have hlast : Aligned last := hal last (by simp)
      have hids : listIds ([] ++ [last]) = idsOf last := by simp [listIds]
      rw [hids] at hle ⊢
      have hcount : n ≤ (last.max - last.min) / last.step + 1 := by simpa [idsOf] using hle
      rw [List.nil_append, moveRanges, moveRange_part hlast.lt h1 hn hcount
        (fun i hi => idsOf_below hlast hi) (by omega), idsOf, List.take_range'_of_length_ge hcount]
      rfl
  | r :: init, n, dest, hal, hstep, hn, hlt, hle => by
      have hr : Aligned r := hal r (by simp)
      obtain ⟨hrstep, hinit⟩ := List.forall_mem_cons.mp hstep
      have hcount : (idsOf r).length = (r.max - r.min) / r.step + 1 := List.length_range'
      have hsplit : (listIds (r :: init)).length = (idsOf r).length + (listIds init).length := by
        rw [listIds, List.flatMap_cons, List.length_append]
        rfl
      have hsplit' : (listIds (r :: init ++ [last])).length =
          (idsOf r).length + (listIds (init ++ [last])).length := by
        rw [listIds, List.cons_append, List.flatMap_cons, List.length_append]
        rfl
      have hbound := length_idsOf_lt hr
      rw [List.cons_append, moveRanges, moveRange_whole hrstep hn (by omega)
        (fun i hi => idsOf_below hr hi) (idsOf_beyond hr) (by omega), Option.bind_some,
        take_listIds_cons (by omega), insertIds_append, hcount]
      have hrest : ∀ r' ∈ init ++ [last], Aligned r' :=
        fun r' hr' => hal r' (.tail _ hr')
      exact moveRanges_last (n := n - ((r.max - r.min) / r.step + 1)) hfuel hrest hinit
        (by omega) (by omega) (by omega)

theorem moveRange_keeps {max step : ℕ} (hmax : max < 2 ^ 32) :
    ∀ {fuel id n : ℕ} {dest : List Range} {moved : ℕ × List Range}, Canonical dest →
      moveRange σ max step fuel id n dest = some moved →
      Canonical moved.2 ∧ (∀ x, Has dest x → Has moved.2 x) ∧ (id ≤ max → Has moved.2 id)
  | 0, _, _, _, _, _, h => by simp [moveRange] at h
  | fuel + 1, id, n, dest, moved, hdest, h => by
      rw [moveRange] at h
      by_cases hid : id ≤ max
      · rw [if_pos hid] at h
        dsimp only at h
        obtain ⟨hcan, hmem⟩ := insertIds_ids (σ := σ) [id] hdest (by simp; omega)
        have hfirst : Has (insertIds σ dest [id]) id := (hmem id).mpr (by simp)
        have hold : ∀ x, Has dest x → Has (insertIds σ dest [id]) x :=
          fun x hx => (hmem x).mpr (Or.inr hx)
        split_ifs at h
        · rw [← Option.some.inj h]
          exact ⟨hcan, hold, fun _ => hfirst⟩
        · obtain ⟨hcan', hkeep, -⟩ := moveRange_keeps hmax hcan h
          exact ⟨hcan', fun x hx => hkeep x (hold x hx), fun _ => hkeep id hfirst⟩
      · rw [if_neg hid] at h
        rw [← Option.some.inj h]
        exact ⟨hdest, fun x hx => hx, fun hle => absurd hle hid⟩

theorem moveRanges_keeps :
    ∀ {l : List Range} {n : ℕ} {dest dest' : List Range}, (∀ r ∈ l, Aligned r) →
      Canonical dest → moveRanges σ fuel l n dest = some dest' →
      (∀ x, Has dest x → Has dest' x) ∧ ∀ r ∈ l, Has dest' r.min
  | [], _, dest, dest', _, _, h => by
      rw [← Option.some.inj h]
      exact ⟨fun x hx => hx, by simp⟩
  | r :: rest, n, dest, dest', hal, hdest, h => by
      obtain ⟨hr, hrest⟩ := List.forall_mem_cons.mp hal
      obtain ⟨moved, hmoved, h⟩ := Option.bind_eq_some_iff.mp h
      obtain ⟨hcan, hkeep, hfirst⟩ := moveRange_keeps hr.lt hdest hmoved
      obtain ⟨hkeep', hmins⟩ := moveRanges_keeps hrest hcan h
      exact ⟨fun x hx => hkeep' x (hkeep x hx),
        List.forall_mem_cons.mpr ⟨hkeep' _ (hfirst hr.le), hmins⟩⟩

/-! With more fuel the loops do the same. -/

theorem moveRange_mono {max step : ℕ} :
    ∀ {fuel fuel' id n : ℕ} {dest : List Range} {moved : ℕ × List Range}, fuel ≤ fuel' →
      moveRange σ max step fuel id n dest = some moved →
      moveRange σ max step fuel' id n dest = some moved
  | 0, _, _, _, _, _, _, h => by simp [moveRange] at h
  | fuel + 1, fuel', id, n, dest, moved, hle, h => by
      obtain ⟨fuel', rfl⟩ := Nat.exists_eq_add_one_of_ne_zero (Nat.ne_zero_of_lt hle)
      rw [moveRange] at h ⊢
      dsimp only at h ⊢
      split_ifs at h ⊢
      · exact h
      · exact moveRange_mono (Nat.le_of_succ_le_succ hle) h
      · exact h

theorem moveRanges_mono {fuel' : ℕ} (hle : fuel ≤ fuel') :
    ∀ {l : List Range} {n : ℕ} {dest dest' : List Range},
      moveRanges σ fuel l n dest = some dest' → moveRanges σ fuel' l n dest = some dest'
  | [], _, _, _, h => h
  | r :: rest, n, dest, dest', h => by
      obtain ⟨moved, hmoved, h⟩ := Option.bind_eq_some_iff.mp h
      rw [moveRanges, moveRange_mono hle hmoved]
      exact moveRanges_mono hle h

/-! ## The second loop -/

section Second

variable {max step id fuel : ℕ}

/-- All ids of the range are counted, and none beyond its end. -/
theorem countUp_ids (hmax : max < 2 ^ 32) (hstep : 0 < step) :
    ∀ {fuel id : ℕ} {ids : List ℕ}, countUp max step fuel id = some ids →
      (∀ y ∈ ids, y ≤ max) ∧ ∀ y, OnGrid id max step y → y ∈ ids
  | 0, _, _, h => by simp [countUp] at h
  | fuel + 1, id, ids, h => by
      rw [countUp] at h
      by_cases hid : id ≤ max
      · rw [if_pos hid] at h
        obtain ⟨rest, hrest, rfl⟩ := Option.map_eq_some_iff.mp h
        obtain ⟨hle, hgrid⟩ := countUp_ids hmax hstep hrest
        refine ⟨List.forall_mem_cons.mpr ⟨hid, hle⟩, fun y hy => ?_⟩
        rcases (onGrid_first hid).mp hy with rfl | hnext
        · exact .head _
        · have hadd : add32 id step = id + step := Nat.mod_eq_of_lt (by
            have h1 := hnext.1
            have h2 := hnext.2.1
            omega)
          exact .tail _ (hgrid y (hadd ▸ hnext))
      · rw [if_neg hid] at h
        rw [← Option.some.inj h]
        exact ⟨by simp, fun y hy => absurd (hy.1.trans hy.2.1) hid⟩

theorem countUp_ends {k : ℕ} (hid : id < 2 ^ 32) (hk : max < (id + k * step) % 2 ^ 32)
    (hfuel : k < fuel) : ∃ ids, countUp max step fuel id = some ids := by
  induction k generalizing id fuel with
  | zero =>
    obtain ⟨fuel, rfl⟩ := Nat.exists_eq_add_one_of_ne_zero (Nat.ne_zero_of_lt hfuel)
    rw [Nat.zero_mul, Nat.add_zero, Nat.mod_eq_of_lt hid] at hk
    exact ⟨[], by rw [countUp, if_neg (Nat.not_le.mpr hk)]⟩
  | succ k ih =>
    obtain ⟨fuel, rfl⟩ := Nat.exists_eq_add_one_of_ne_zero (Nat.ne_zero_of_lt hfuel)
    have hnext : (add32 id step + k * step) % 2 ^ 32 = (id + (k + 1) * step) % 2 ^ 32 := by
      rw [add32, Nat.mod_add_mod]
      congr 1
      ring
    have hwrap : add32 id step < 2 ^ 32 := Nat.mod_lt _ (by decide)
    obtain ⟨ids, hids⟩ := ih hwrap (hnext ▸ hk) (Nat.lt_of_succ_lt_succ hfuel)
    rw [countUp, hids]
    split_ifs
    · exact ⟨id :: ids, rfl⟩
    · exact ⟨[], rfl⟩

end Second

/-- The numbers met are those that differ from the first one by a multiple of the greatest
common divisor, so one of them lies beyond the end if there is room for it. -/
theorem exists_beyond (h : Aligned r) (hroom : r.max + Nat.gcd r.step (2 ^ 32) < 2 ^ 32) :
    ∃ k < 2 ^ 32, r.max < (r.min + k * r.step) % 2 ^ 32 := by
  have hle := h.le
  have hsmall : Nat.gcd r.step (2 ^ 32) < 2 ^ 32 :=
    Nat.lt_of_le_of_lt (Nat.gcd_le_left _ h.step) h.small
  obtain ⟨m, -, hm⟩ := Nat.exists_mul_mod_eq_gcd hsmall
  obtain ⟨q, hq⟩ := ((Nat.gcd_dvd_left r.step (2 ^ 32)).trans h.dvd)
  refine ⟨m * (q + 1) % 2 ^ 32, Nat.mod_lt _ (by decide), ?_⟩
  have hstep : m * (q + 1) % 2 ^ 32 * r.step ≡ (q + 1) * Nat.gcd r.step (2 ^ 32) [MOD 2 ^ 32] := by
    calc m * (q + 1) % 2 ^ 32 * r.step
        ≡ m * (q + 1) * r.step [MOD 2 ^ 32] := (Nat.mod_modEq _ _).mul_right _
      _ = (q + 1) * (r.step * m) := by ring
      _ ≡ (q + 1) * Nat.gcd r.step (2 ^ 32) [MOD 2 ^ 32] :=
          Nat.ModEq.mul_left _ (hm ▸ (Nat.mod_modEq _ _).symm)
  have hsum : (r.min + m * (q + 1) % 2 ^ 32 * r.step) % 2 ^ 32 =
      (r.min + (q + 1) * Nat.gcd r.step (2 ^ 32)) % 2 ^ 32 := hstep.add_left r.min
  have hend : r.min + (q + 1) * Nat.gcd r.step (2 ^ 32) =
      r.max + Nat.gcd r.step (2 ^ 32) := by
    rw [Nat.add_mul, Nat.one_mul, Nat.mul_comm q, ← hq]
    omega
  rw [hsum, hend, Nat.mod_eq_of_lt hroom]
  exact Nat.lt_add_of_pos_right (Nat.gcd_pos_of_pos_left _ h.step)

/-- A loop that ends has met a number beyond the end, one of those at which it may arrive. -/
theorem room_of_countUp {max step g : ℕ} (hstep : g ∣ step) (hg : g ∣ 2 ^ 32) :
    ∀ {fuel id : ℕ} {ids : List ℕ}, id < 2 ^ 32 → max ≡ id [MOD g] →
      countUp max step fuel id = some ids → max + g < 2 ^ 32
  | 0, _, _, _, _, h => by simp [countUp] at h
  | fuel + 1, id, ids, hlt, hmod, h => by
      rw [countUp] at h
      by_cases hid : id ≤ max
      · rw [if_pos hid] at h
        obtain ⟨rest, hrest, -⟩ := Option.map_eq_some_iff.mp h
        have hnext : id ≡ add32 id step [MOD g] :=
          calc id ≡ id + step [MOD g] := (Nat.modEq_iff_dvd' (Nat.le_add_right _ _)).mpr (by simpa)
            _ ≡ add32 id step [MOD g] := ((Nat.mod_modEq _ _).of_dvd hg).symm
        exact room_of_countUp hstep hg (Nat.mod_lt _ (by decide)) (hmod.trans hnext) hrest
      · have hbeyond := Nat.le_of_dvd (by omega)
          ((Nat.modEq_iff_dvd' (Nat.le_of_not_le hid)).mp hmod)
        omega

theorem room_of_removeRanges :
    ∀ {dest : List Range} {l l' : Option (List Range)}, (∀ r ∈ dest, Aligned r) →
      removeRanges fuel dest l = some l' →
      ∀ r ∈ dest, r.max + Nat.gcd r.step (2 ^ 32) < 2 ^ 32
  | [], _, _, _, _ => by simp
  | r :: rest, l, l', hal, h => by
      obtain ⟨hr, hrest⟩ := List.forall_mem_cons.mp hal
      obtain ⟨ids, hids, h⟩ := Option.bind_eq_some_iff.mp h
      have hmod : r.max ≡ r.min [MOD Nat.gcd r.step (2 ^ 32)] :=
        ((Nat.modEq_iff_dvd' hr.le).mpr ((Nat.gcd_dvd_left _ _).trans hr.dvd)).symm
      have hmin : r.min < 2 ^ 32 := Nat.lt_of_le_of_lt hr.le hr.lt
      exact List.forall_mem_cons.mpr
        ⟨room_of_countUp (Nat.gcd_dvd_left _ _) (Nat.gcd_dvd_right _ _) hmin hmod hids,
          room_of_removeRanges hrest h⟩

/-- The loop removes the ids of its list, and perhaps others that are not beyond them. -/
theorem removeRanges_ids (hfuel : 2 ^ 32 < fuel) :
    ∀ {dest : List Range} {l : Option (List Range)},
      (∀ r ∈ dest, Aligned r ∧ r.max + Nat.gcd r.step (2 ^ 32) < 2 ^ 32) →
      ∃ ids : List ℕ, removeRanges fuel dest l = some (ids.foldl rangeListRemoveId l) ∧
        (∀ x ∈ ids, ∃ r ∈ dest, x ≤ r.max) ∧ ∀ x, Has dest x → x ∈ ids
  | [], l, _ => ⟨[], rfl, by simp⟩
  | r :: rest, l, h => by
      obtain ⟨⟨hr, hroom⟩, hrest⟩ := List.forall_mem_cons.mp h
      obtain ⟨k, hk, hbeyond⟩ := exists_beyond hr hroom
      have hmin : r.min < 2 ^ 32 := Nat.lt_of_le_of_lt hr.le hr.lt
      obtain ⟨ids, hids⟩ := countUp_ends hmin hbeyond (Nat.lt_trans hk hfuel)
      obtain ⟨hle, hgrid⟩ := countUp_ids hr.lt hr.step hids
      obtain ⟨ids', hrun, hle', hhas⟩ :=
        removeRanges_ids hfuel (l := ids.foldl rangeListRemoveId l) hrest
      refine ⟨ids ++ ids', ?_, ?_, ?_⟩
      · rw [removeRanges, hids, Option.bind_some, hrun, List.foldl_append]
      · intro x hx
        rcases List.mem_append.mp hx with hx | hx
        · exact ⟨r, .head _, hle x hx⟩
        · obtain ⟨r', hr', hx⟩ := hle' x hx
          exact ⟨r', .tail _ hr', hx⟩
      · intro x hx
        rcases (has_cons r rest x).mp hx with hx | hx
        · exact List.mem_append_left _ (hgrid x hx)
        · exact List.mem_append_right _ (hhas x hx)

/-! ## Both loops -/

theorem mem_of_take (hl : Canonical l) (hx : x ∈ (listIds l).take n) : x < 2 ^ 32 := by
  obtain ⟨r, hr, -, hmax, -⟩ := (mem_listIds hl.aligned).mp (List.mem_of_mem_take hx)
  exact Nat.lt_of_le_of_lt hmax (hl.aligned r hr).lt

theorem take_lt_drop (hl : Canonical l) {y : ℕ} (hx : x ∈ (listIds l).take n)
    (hy : y ∈ (listIds l).drop n) : x < y := by
  have hsorted := pairwise_listIds hl
  rw [← List.take_append_drop n (listIds l)] at hsorted
  exact (List.pairwise_append.mp hsorted).2.2 x hx y hy

theorem moveRanges_lastRange (hl : Canonical l) (hn : n ≤ (listIds l).length) (hlt : n < 2 ^ 32)
    (hlast : LastRange l n) (hwhole : LeavesWhole l) (hfuel : 2 ^ 32 < fuel) :
    moveRanges σ fuel l n [] = some (insertIds σ [] ((listIds l).take n)) := by
  have hne : l ≠ [] := by
    rintro rfl
    exact absurd hlast (Nat.not_lt.mpr hn)
  have hparts := List.dropLast_append_getLast hne
  have hal := hl.aligned
  rw [← hparts] at hal hn ⊢
  exact moveRanges_last hfuel hal hwhole hlt hlast hn

theorem insertIds_take (hl : Canonical l) :
    Canonical (insertIds σ [] ((listIds l).take n)) ∧
      ∀ x, Has (insertIds σ [] ((listIds l).take n)) x ↔ x ∈ (listIds l).take n := by
  obtain ⟨hcan, hmem⟩ :=
    insertIds_ids (σ := σ) _ Canonical.nil fun x hx => mem_of_take hl (n := n) hx
  exact ⟨hcan, fun x => by simp [hmem]⟩

theorem splits_of_leaves (hl : Canonical l) (hn : n ≤ (listIds l).length) (hlt : n < 2 ^ 32)
    (hwhole : LeavesWhole l) (hlast : LastRange l n) (hmoved : LeavesMoved σ l n) :
    Splits σ l n := by
  have hfirst := moveRanges_lastRange (σ := σ) hl hn hlt hlast hwhole (Nat.lt_succ_self _)
  obtain ⟨hcan, hids⟩ := insertIds_take (σ := σ) (n := n) hl
  obtain ⟨ids, hsecond, hle, hall⟩ := removeRanges_ids (Nat.lt_succ_self (2 ^ 32)) (l := some l)
    fun r hr => ⟨hcan.aligned r hr, hmoved r hr⟩
  refine ⟨2 ^ 32 + 1, ids.foldl rangeListRemoveId (some l), _, ?_, hids, ?_⟩
  · rw [rangeListMoveFirstNIds, hfirst, Option.bind_some, hsecond]
    rfl
  · intro x
    obtain ⟨-, hleft⟩ := removeIds_spec ids (l := some l) hl
    rw [hleft, Option.getD_some, ← mem_listIds hl.aligned]
    constructor
    · rintro ⟨hx, hnot⟩
      rw [← List.take_append_drop n (listIds l)] at hx
      rcases List.mem_append.mp hx with hx | hx
      · exact absurd (hall x ((hids x).mpr hx)) hnot
      · exact hx
    · intro hx
      refine ⟨List.mem_of_mem_drop hx, fun hin => ?_⟩
      obtain ⟨r, hr, hxr⟩ := hle x hin
      have hal := hcan.aligned r hr
      have hmax : r.max ∈ (listIds l).take n :=
        (hids _).mp ⟨r, hr, hal.le, Nat.le_refl _, hal.dvd⟩
      have := take_lt_drop hl hmax hx
      omega

theorem leaves_of_splits (hl : Canonical l) (hn : n ≤ (listIds l).length) (hlt : n < 2 ^ 32)
    (hwhole : LeavesWhole l) (hlast : LastRange l n) (h : Splits σ l n) : LeavesMoved σ l n := by
  obtain ⟨fuel, src, dest, hrun, -⟩ := h
  obtain ⟨dest', hfirst, hsecond⟩ := Option.bind_eq_some_iff.mp hrun
  obtain ⟨_, hremoved, -⟩ := Option.map_eq_some_iff.mp hsecond
  have hsame := moveRanges_lastRange (σ := σ) hl hn hlt hlast hwhole
    (Nat.lt_succ_of_le (Nat.le_max_left (2 ^ 32) fuel))
  rw [moveRanges_mono (by omega) hfirst] at hsame
  obtain rfl := Option.some.inj hsame
  obtain ⟨hcan, -⟩ := insertIds_take (σ := σ) (n := n) hl
  exact room_of_removeRanges hcan.aligned hremoved

theorem lastRange_of_splits (hl : Canonical l) (hn : n ≤ (listIds l).length) (h1 : 1 ≤ n)
    (h : Splits σ l n) : LastRange l n := by
  obtain ⟨fuel, src, dest, hrun, hids, -⟩ := h
  obtain ⟨dest', hfirst, hsecond⟩ := Option.bind_eq_some_iff.mp hrun
  obtain ⟨_, -, heq⟩ := Option.map_eq_some_iff.mp hsecond
  obtain rfl : dest' = dest := congrArg Prod.snd heq
  obtain ⟨-, hmins⟩ := moveRanges_keeps hl.aligned Canonical.nil hfirst
  have hne : l ≠ [] := by
    rintro rfl
    simp [listIds] at hn
    omega
  have hparts := List.dropLast_append_getLast hne
  have hsplit : listIds l = listIds l.dropLast ++ idsOf (l.getLast hne) := by
    conv_lhs => rw [← hparts]
    simp [listIds]
  -- otherwise the first id of the last range is moved without being one of the first `n`
  by_contra hnot
  have hmin := (hids _).mp (hmins _ (List.getLast_mem hne))
  rw [hsplit, List.take_append_of_le_length (Nat.not_lt.mp hnot)] at hmin
  have hcan : Canonical (l.dropLast ++ [l.getLast hne]) := hparts.symm ▸ hl
  obtain ⟨r, hr, -, hmax, -⟩ :=
    (mem_listIds hcan.left.aligned).mp (List.mem_of_mem_take hmin)
  have := hcan.left_lt_right r hr _ (List.mem_singleton_self _)
  omega

/-- **Moving the first ids.** A list is split only if the ids end in its last range, as the loop
over the ranges does not end with the one over the ids. If that loop does not wrap, the list is
split if and only if they do and the loop that removes the ids comes to an end. -/
theorem moveFirstN_splits (hl : Canonical l) (h1 : 1 ≤ n) (hn : n ≤ (listIds l).length)
    (hlt : n < 2 ^ 32) :
    (Splits σ l n → LastRange l n) ∧
      (LeavesWhole l → (Splits σ l n ↔ LastRange l n ∧ LeavesMoved σ l n)) := by
  refine ⟨lastRange_of_splits hl hn h1, fun hwhole => ⟨fun h => ?_, fun h => ?_⟩⟩
  · have hlast := lastRange_of_splits hl hn h1 h
    exact ⟨hlast, leaves_of_splits hl hn hlt hwhole hlast h⟩
  · exact splits_of_leaves hl hn hlt hwhole h.1 h.2

/-- Four ids of `1-3,4294967291`: the last one is a range of its own. -/
theorem moveFirstN_splits_four : Splits sortByMin [⟨1, 3, 1⟩, ⟨4294967291, 4294967291, 1⟩] 4 := by
  have hl : Canonical [⟨1, 3, 1⟩, ⟨4294967291, 4294967291, 1⟩] := by
    refine ⟨fun r hr => ?_, by decide⟩
    simp only [List.mem_cons, List.not_mem_nil, or_false] at hr
    rcases hr with rfl | rfl <;> exact ⟨by decide, by decide, by decide, by decide, by decide⟩
  have hwhole : LeavesWhole [⟨1, 3, 1⟩, ⟨4294967291, 4294967291, 1⟩] := by
    unfold LeavesWhole
    decide
  have hmoved : LeavesMoved sortByMin [⟨1, 3, 1⟩, ⟨4294967291, 4294967291, 1⟩] 4 := by
    unfold LeavesMoved
    decide +kernel
  exact ((moveFirstN_splits hl (by decide) (by decide) (by decide)).2 hwhole).2
    ⟨by decide, hmoved⟩

/-- One id of `1,3`: both are moved. -/
theorem moveFirstN_two_ranges_false :
    Canonical [⟨1, 1, 1⟩, ⟨3, 3, 1⟩] ∧ 1 ≤ (listIds [⟨1, 1, 1⟩, ⟨3, 3, 1⟩]).length ∧
      ¬ Splits sortByMin [⟨1, 1, 1⟩, ⟨3, 3, 1⟩] 1 := by
  have hl : Canonical [⟨1, 1, 1⟩, ⟨3, 3, 1⟩] := by
    refine ⟨fun r hr => ?_, by decide⟩
    simp only [List.mem_cons, List.not_mem_nil, or_false] at hr
    rcases hr with rfl | rfl <;> exact ⟨by decide, by decide, by decide, by decide, by decide⟩
  refine ⟨hl, by decide, fun h => ?_⟩
  exact absurd (lastRange_of_splits hl (by decide) (Nat.le_refl 1) h) (by decide)

end ClusterScheduler.Sgeobj
