import Mathlib
import ClusterScheduler.Foundation.Progression

/-!
# Lists of ranges

Task ids are kept as lists of ranges, each with a first id, a last id and a
step. This module embeds the functions that insert and remove single ids, bring
a list in order, and compute unions, differences and intersections.

* `Range`, `rangeIsIdWithin`, `rangeIds` — a range and its ids.
* `rangeListInsertId`, `rangeListRemoveId`, `rangeListCompress`,
  `rangeListSortUniqCompress` — the operations on lists.
* `mem_rangeIds`, `rangeCorrectEnd_spec` — counting and aligning a range.

Ids are 32 bit numbers; sums and differences wrap as in the source.
-/

namespace ClusterScheduler.Sgeobj

open Foundation

/-! ## Data -/

/-- The ids `min`, `min + step`, … up to `max`. -/
structure Range where
  min : ℕ
  max : ℕ
  step : ℕ
  deriving DecidableEq

def add32 (a b : ℕ) : ℕ := (a + b) % 2 ^ 32

def sub32 (a b : ℕ) : ℕ := (a + 2 ^ 32 - b) % 2 ^ 32

def rangeSetAllIds (min max step : ℕ) : Range :=
  ⟨min, max, if min ≠ max then step else 1⟩

def rangeIsIdWithin (r : Range) (id : ℕ) : Bool :=
  r.min ≤ id && id ≤ r.max && (id - r.min) % r.step = 0

def rangeListIsIdWithin (l : List Range) (id : ℕ) : Bool :=
  l.any (rangeIsIdWithin · id)

/-- Move the last id to the grid of the step. -/
def rangeCorrectEnd (r : Range) : Range :=
  if 0 < r.step then
    rangeSetAllIds r.min
      (if (r.max - r.min) % r.step = 0 then r.max
        else r.min + (r.max - r.min) / r.step * r.step) r.step
  else rangeSetAllIds r.min r.max (r.max - r.min)

def rangeIsOverlapping (r1 r2 : Range) : Bool := r2.min ≤ r1.max

/-- The ids a counting loop goes through; `fuel` bounds its length. -/
def idLoop : ℕ → ℕ → ℕ → ℕ → List ℕ
  | 0, _, _, _ => []
  | fuel + 1, start, stop, step =>
    if start ≤ stop then start :: idLoop fuel (add32 start step) stop step else []

def rangeIds (r : Range) : List ℕ := idLoop (r.max + 1 - r.min) r.min r.max r.step

/-! ## Operations on lists -/

/-- Sorting by first id. Only that the result is sorted is known, ranges with
the same first id may come in any order. -/
structure Sorter where
  sort : List Range → List Range
  perm : ∀ l, (sort l).Perm l
  sorted : ∀ l, (sort l).Pairwise (fun r r' => r.min ≤ r'.min)

/-- A range with an id between two of its own: it is split in two. -/
def splitAround (id : ℕ) (next : Range) : List Range :=
  let factor := (id - next.min) / next.step
  [rangeSetAllIds next.min (next.min + factor * next.step) next.step, rangeSetAllIds id id 1,
    rangeSetAllIds (next.min + (factor + 1) * next.step) next.max next.step]

/-- Put an id between the range before it and the ranges behind it. -/
def placeId (id : ℕ) (range : Option Range) (suffix : List Range) : List Range :=
  match suffix with
  | [] =>
    match range with
    | none => [rangeSetAllIds id id 1]
    | some r =>
      if r.max = id then [r]
      else if add32 r.max r.step = id then [rangeSetAllIds r.min id r.step]
      else [r, rangeSetAllIds id id 1]
  | next :: rest =>
    if next.min < id then
      if (id - next.min) % next.step = 0 then range.toList ++ next :: rest
      else range.toList ++ (splitAround id next ++ rest)
    else if range.map (·.max) = some id ∨ next.min = id then
      range.toList ++ next :: rest
    else
      match range with
      | some r =>
        if add32 r.max r.step = id then
          rangeSetAllIds r.min id r.step :: next :: rest
        else if sub32 next.min next.step = id then
          r :: rangeSetAllIds id next.max next.step :: rest
        else r :: rangeSetAllIds id id 1 :: next :: rest
      | none =>
        if sub32 next.min next.step = id then
          rangeSetAllIds id next.max next.step :: rest
        else rangeSetAllIds id id 1 :: next :: rest

/-- Walk back from the last range to the first one that ends at the id or
before it. The ranges passed are collected in `suffix`. -/
def insertLoop (id : ℕ) : List Range → List Range → List Range
  | [], suffix => suffix ++ [rangeSetAllIds id id 1]
  | range :: prev, suffix =>
    if id < range.max then
      match prev with
      | [] => placeId id none (range :: suffix)
      | _ :: _ => insertLoop id prev (range :: suffix)
    else prev.reverse ++ placeId id (some range) suffix

def rangeListInsertId (σ : Sorter) (l : List Range) (id : ℕ) : List Range :=
  insertLoop id (σ.sort l).reverse []

/-- What is left of a range without one of its ids. -/
def removeFromRange (id : ℕ) (r : Range) : List Range :=
  if id = r.min ∧ (id = r.max ∨ r.max < add32 id r.step) then []
  else if id = r.min then [rangeSetAllIds (add32 r.min r.step) r.max r.step]
  else if id = r.max then [rangeSetAllIds r.min (sub32 r.max r.step) r.step]
  else
    [rangeSetAllIds r.min (sub32 id r.step) r.step, rangeSetAllIds (add32 id r.step) r.max r.step]

def removeIdLoop (id : ℕ) : List Range → List Range
  | [] => []
  | r :: rest =>
    if rangeIsIdWithin r id then removeFromRange id r ++ rest
    else r :: removeIdLoop id rest

def freeEmpty (l : List Range) : Option (List Range) :=
  if l.isEmpty then none else some l

def rangeListRemoveId (l : Option (List Range)) (id : ℕ) : Option (List Range) :=
  l.bind fun l => freeEmpty (removeIdLoop id l)

/-- The four rules that join two neighbours. -/
def joinRanges (r1 r2 : Range) : Option Range :=
  if add32 r1.max r1.step = r2.min ∧ r1.step = r2.step then
    some (rangeSetAllIds r1.min r2.max r2.step)
  else if r1.min = r1.max ∧ r1.step = 1 ∧ r1.max = sub32 r2.min r2.step then
    some (rangeSetAllIds r1.min r2.max r2.step)
  else if r2.min = r2.max ∧ r2.step = 1 ∧ add32 r1.max r1.step = r2.max then
    some (rangeSetAllIds r1.min r2.max r1.step)
  else if r1.min = r1.max ∧ r2.min = r2.max ∧ r1.step = r2.step ∧ r1.step = 1 then
    some (rangeSetAllIds r1.min r2.min (sub32 r2.min r1.min))
  else none

/-- Join as long as it goes, then start again with the next range. -/
def compressFrom (r1 : Range) : List Range → List Range
  | [] => [r1]
  | r2 :: rest =>
    match joinRanges r1 r2 with
    | some r => compressFrom r rest
    | none => r1 :: compressFrom r2 rest

def rangeListCompress : List Range → List Range
  | [] => []
  | r :: rest => compressFrom r rest

/-- Ranges that overlap the last one kept are taken out of the list. A kept range
has its end corrected once, doing so a second time changes nothing. -/
def splitOverlaps (correctEnd : Bool) (r1 : Range) :
    List Range → List Range × List Range
  | [] => ([r1], [])
  | r2 :: rest =>
    let r2 := if correctEnd then rangeCorrectEnd r2 else r2
    if rangeIsOverlapping r1 r2 then
      ((splitOverlaps correctEnd r1 rest).1, r2 :: (splitOverlaps correctEnd r1 rest).2)
    else
      (r1 :: (splitOverlaps correctEnd r2 rest).1, (splitOverlaps correctEnd r2 rest).2)

def insertAll (σ : Sorter) (l tmp : List Range) : List Range :=
  (tmp.flatMap rangeIds).foldl (rangeListInsertId σ) l

def rangeListSortUniqCompress (σ : Sorter) (correctEnd : Bool) (l : List Range) :
    List Range :=
  match σ.sort l with
  | [] => []
  | r :: rest =>
    let parts :=
      splitOverlaps correctEnd (if correctEnd then rangeCorrectEnd r else r) rest
    rangeListCompress (insertAll σ parts.1 parts.2)

/-- The union; an absent list is `none`, and so is an absent result. -/
def rangeListCalculateUnionSet (σ : Sorter) :
    Option (List Range) → Option (List Range) → Option (List Range)
  | none, none => none
  | some l1, none => some (rangeListSortUniqCompress σ true l1)
  | none, some l2 => some (rangeListSortUniqCompress σ true l2)
  | some l1, some l2 => some (rangeListCompress
      (insertAll σ (rangeListSortUniqCompress σ true l1) l2))

def rangeListCalculateDifferenceSet (σ : Sorter) :
    Option (List Range) → Option (List Range) → Option (List Range)
  | none, _ => none
  | some l1, none => some (rangeListSortUniqCompress σ true l1)
  | some l1, some l2 => ((l2.flatMap rangeIds).foldl rangeListRemoveId
      (some (rangeListSortUniqCompress σ true l1))).map rangeListCompress

/-- The ids of `l1`, as they are listed, that `l2` holds as well. -/
def commonIds (l1 l2 : List Range) : List ℕ :=
  (l1.flatMap rangeIds).filter (rangeListIsIdWithin l2)

def rangeListCalculateIntersectionSet :
    Option (List Range) → Option (List Range) → Option (List Range)
  | some l1, some l2 => (freeEmpty
      ((commonIds l1 l2).map fun id => rangeSetAllIds id id 1)).map rangeListCompress
  | _, _ => none

/-! ## Ids of a range -/

structure Aligned (r : Range) : Prop where
  le : r.min ≤ r.max
  step : 0 < r.step
  small : r.step < 2 ^ 32
  dvd : r.step ∣ r.max - r.min
  lt : r.max < 2 ^ 32

variable {r : Range} {id : ℕ}

theorem within_iff : rangeIsIdWithin r id = true ↔ OnGrid r.min r.max r.step id := by
  simp [rangeIsIdWithin, OnGrid, Nat.dvd_iff_mod_eq_zero, and_assoc]

variable {l : List Range}

theorem listWithin_iff :
    rangeListIsIdWithin l id = true ↔ ∃ r ∈ l, OnGrid r.min r.max r.step id := by
  simp [rangeListIsIdWithin, within_iff]

/-- The ids a list holds. -/
def Has (l : List Range) (id : ℕ) : Prop := ∃ r ∈ l, OnGrid r.min r.max r.step id

@[simp] theorem has_nil (id : ℕ) : ¬ Has [] id := by simp [Has]

@[simp] theorem has_cons (r : Range) (l : List Range) (id : ℕ) :
    Has (r :: l) id ↔ OnGrid r.min r.max r.step id ∨ Has l id := by
  simp [Has]

@[simp] theorem has_append (l l' : List Range) (id : ℕ) :
    Has (l ++ l') id ↔ Has l id ∨ Has l' id := by
  simp [Has, or_and_right, exists_or]

variable {x : ℕ}

variable {lo hi d : ℕ}

/-- Storing does not change the ids, and keeps alignment. -/
theorem onGrid_set :
    OnGrid (rangeSetAllIds lo hi d).min (rangeSetAllIds lo hi d).max
      (rangeSetAllIds lo hi d).step x ↔ OnGrid lo hi d x := by
  unfold rangeSetAllIds
  by_cases h : lo = hi
  · subst h
    simp only [onGrid_self]
  · simp [h]

theorem aligned_set (hle : lo ≤ hi) (hd : 0 < d) (hsmall : d < 2 ^ 32)
    (hdvd : d ∣ hi - lo) (hlt : hi < 2 ^ 32) : Aligned (rangeSetAllIds lo hi d) := by
  refine ⟨hle, ?_, ?_, ?_, hlt⟩
  · unfold rangeSetAllIds
    dsimp only
    split_ifs <;> omega
  · unfold rangeSetAllIds
    dsimp only
    split_ifs <;> omega
  · unfold rangeSetAllIds
    dsimp only
    split_ifs with h
    · exact hdvd
    · exact Nat.one_dvd _

theorem aligned_single (h : id < 2 ^ 32) : Aligned (rangeSetAllIds id id 1) :=
  aligned_set (Nat.le_refl id) Nat.one_pos (by decide) (Nat.one_dvd _) h

theorem onGrid_single :
    OnGrid (rangeSetAllIds id id 1).min (rangeSetAllIds id id 1).max
      (rangeSetAllIds id id 1).step x ↔ x = id := by
  rw [onGrid_set, onGrid_self]

/-- A range whose counting loop does not wrap. -/
structure Countable (r : Range) : Prop where
  le : r.min ≤ r.max
  step : 0 < r.step
  lt : r.max + r.step < 2 ^ 32

theorem mem_idLoop {stop step : ℕ} (hstep : 0 < step) (hlt : stop + step < 2 ^ 32) :
    ∀ (fuel start : ℕ), stop < start + fuel →
      (x ∈ idLoop fuel start stop step ↔ OnGrid start stop step x)
  | 0, start, hfuel => by
      have hnone : ¬ OnGrid start stop step x := not_onGrid (by omega)
      simp [idLoop, hnone]
  | fuel + 1, start, hfuel => by
      rw [idLoop]
      split_ifs with h
      · have hadd : add32 start step = start + step := Nat.mod_eq_of_lt (by omega)
        rw [hadd, List.mem_cons, mem_idLoop hstep hlt fuel _ (by omega), ← onGrid_first h]
      · have hnone : ¬ OnGrid start stop step x := not_onGrid (by omega)
        simp [hnone]

/-- The counting loop of a range goes through its ids and ends. -/
theorem mem_rangeIds (h : Countable r) : x ∈ rangeIds r ↔ OnGrid r.min r.max r.step x :=
  mem_idLoop h.step h.lt _ _ (by have := h.le; omega)

theorem mem_flatMap_rangeIds (h : ∀ r ∈ l, Countable r) : x ∈ l.flatMap rangeIds ↔ Has l x := by
  simp only [List.mem_flatMap, Has]
  constructor
  · rintro ⟨r, hr, hx⟩
    exact ⟨r, hr, (mem_rangeIds (h r hr)).mp hx⟩
  · rintro ⟨r, hr, hx⟩
    exact ⟨r, hr, (mem_rangeIds (h r hr)).mpr hx⟩

theorem Has.lt (h : ∀ r ∈ l, Countable r) (hx : Has l x) : x < 2 ^ 32 := by
  obtain ⟨r, hr, -, hle, -⟩ := hx
  have := (h r hr).lt
  omega

/-- A range of 32 bit numbers. -/
structure Sized (r : Range) : Prop where
  le : r.min ≤ r.max
  step : 0 < r.step
  small : r.step < 2 ^ 32
  lt : r.max < 2 ^ 32

theorem Countable.sized (h : Countable r) : Sized r where
  le := h.le
  step := h.step
  small := Nat.lt_of_le_of_lt (Nat.le_add_left _ _) h.lt
  lt := Nat.lt_of_le_of_lt (Nat.le_add_right _ _) h.lt

theorem Aligned.sized (h : Aligned r) : Sized r := ⟨h.le, h.step, h.small, h.lt⟩

/-- Correcting the end aligns a range and keeps its ids. -/
theorem rangeCorrectEnd_spec (h : Sized r) :
    Aligned (rangeCorrectEnd r) ∧ (rangeCorrectEnd r).min = r.min ∧ ∀ x,
      OnGrid (rangeCorrectEnd r).min (rangeCorrectEnd r).max
        (rangeCorrectEnd r).step x ↔ OnGrid r.min r.max r.step x := by
  have hlt := h.lt
  have hsmall := h.small
  unfold rangeCorrectEnd
  rw [if_pos h.step]
  split_ifs with hmod
  · exact ⟨aligned_set h.le h.step (by omega) (Nat.dvd_of_mod_eq_zero hmod) (by omega),
      rfl, fun x => onGrid_set⟩
  · obtain ⟨h1, h2, h3⟩ := onGrid_floor (d := r.step) h.le
    refine ⟨aligned_set h1 h.step (by omega) h3 (by omega), rfl, fun x => ?_⟩
    rw [onGrid_set, ← onGrid_round h.le h.step]

end ClusterScheduler.Sgeobj
