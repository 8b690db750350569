import ClusterScheduler.Sgeobj.Range
import ClusterScheduler.Sched.AllocationRules

/-!
# How many slots a parallel job gets

A job asks a parallel environment for a range of slot counts and gets the largest one for
which there is an assignment. The counts to try are kept with the category of the job, for
the other jobs of the category.

* `parallelMaximizeSlotsPe` — the search, with one of three strategies.
* `possiblePeSlots`, `addPeSlotsToCategory` — the counts, built or taken from the category.
* `CategoryReachable` — the counts any calls leave behind.
* `search_best` — every strategy ends with the last count of an initial part that works.
* `maximizes_iff` — the largest count is found, whatever works, exactly when the counts kept
  are those of this call.
-/

namespace ClusterScheduler.Sched

open Sgeobj

/-! ## Data -/

/-- A parallel environment, with the allocation rules of the jobs of a category in it. -/
structure PeSetup where
  slots : ℕ
  rules : AllocationRules

/-- The counts a job asks for. Zero is none of them. -/
structure PeRange where
  ranges : List Range
  pos : ∀ r ∈ ranges, 0 < r.min

/-- The best assignment up to now: its slots, and whether there is one. -/
structure BestSlots where
  slots : ℕ
  gdil : Bool
  deriving DecidableEq

/-- The best assignment and what the last attempt came to. -/
structure PeOutcome where
  best : BestSlots
  result : Dispatch
  deriving DecidableEq

inductive PeAlgorithm where
  | binary
  | lowFirst
  | highFirst
  deriving DecidableEq

def rangeListGetFirstId (l : List Range) : ℕ := (l.head?.map (·.min)).getD 0

def rangeListGetLastId (l : List Range) : ℕ := (l.getLast?.map (·.max)).getD 0

/-! ## The counts -/

section Counts

variable (pe : PeSetup) (range : PeRange)

def isPossible (slots : ℕ) : Bool :=
  (parseCheckAllocationRules pe.rules slots).isSome && rangeListIsIdWithin range.ranges slots

def minSlots (best : BestSlots) : ℕ :=
  if best.slots ≠ 0 then best.slots else rangeListGetFirstId range.ranges

def maxSlots : ℕ := min (rangeListGetLastId range.ranges) pe.slots

def possiblePeSlots (lo : ℕ) : List ℕ :=
  (List.range' lo (maxSlots pe range + 1 - lo)).filter (isPossible pe range)

def addPeSlotsToCategory (cached : List ℕ) (lo : ℕ) : List ℕ :=
  if cached = [] then possiblePeSlots pe range lo else cached

end Counts

/-! ## The search -/

section Search

variable (assign : ℕ → Dispatch)

def attempt (slots : ℕ) (o : PeOutcome) : PeOutcome where
  best := if assign slots = .ok then ⟨slots, true⟩ else o.best
  result := assign slots

def binarySearch (slots : List ℕ) (min max : ℤ) (o : PeOutcome) : PeOutcome :=
  if min ≤ max ∧ max ≠ -1 then
    let current := (min + max) / 2
    let o := attempt assign (slots.getD current.toNat 0) o
    if o.result = .ok then binarySearch slots (current + 1) max o
    else binarySearch slots min (current - 1) o
  else o
termination_by (max + 1 - min).toNat

def lowFirst (o : PeOutcome) : List ℕ → PeOutcome
  | [] => o
  | slots :: rest =>
    let o := attempt assign slots o
    if o.result ≠ .ok then o else lowFirst o rest

def highFirst (o : PeOutcome) : List ℕ → PeOutcome
  | [] => o
  | slots :: rest =>
    let o := attempt assign slots o
    if o.result = .ok then o else highFirst o rest

/-- The counts are tried with one of the strategies. -/
def searchSlots (alg : PeAlgorithm) (slots : List ℕ) (o : PeOutcome) : PeOutcome :=
  match alg with
  | .binary => binarySearch assign slots 0 ((slots.length : ℤ) - 1) o
  | .lowFirst => lowFirst assign o slots
  | .highFirst => highFirst assign o slots.reverse

def PeOutcome.final (o : PeOutcome) : PeOutcome :=
  { o with result := if o.best.gdil then .ok else o.result }

/-- `parallel_maximize_slots_pe()`, with the counts kept in the category: what it finds, and
the counts it leaves there. -/
def parallelMaximizeSlotsPe (pe : PeSetup) (range : PeRange) (alg : PeAlgorithm)
    (cached : List ℕ) (best : BestSlots) : PeOutcome × List ℕ :=
  let lo := minSlots range best
  if best.gdil ∧ best.slots = pe.slots then (⟨best, .ok⟩, cached)
  else if maxSlots pe range < lo ∨ lo = 0 then (⟨best, .neverCat⟩, cached)
  else
    let slots := addPeSlotsToCategory pe range cached lo
    if slots = [] then (⟨best, .neverCat⟩, slots)
    else ((searchSlots assign alg slots ⟨best, .neverCat⟩).final, slots)

end Search

/-! ## Calls for the jobs of a category -/

/-- The counts by parallel environment. A job without category keeps none. -/
abbrev PeCategory := Option (String → List ℕ)

def PeCategory.cached (category : PeCategory) (peName : String) : List ℕ :=
  match category with
  | none => []
  | some slots => slots peName

structure PeCall where
  peName : String
  alg : PeAlgorithm
  assign : ℕ → Dispatch
  best : BestSlots

section Calls

variable (pes : String → PeSetup) (range : PeRange)

def PeCall.after (c : PeCall) (category : PeCategory) : PeCategory :=
  category.map fun slots => Function.update slots c.peName
    (parallelMaximizeSlotsPe c.assign (pes c.peName) range c.alg (category.cached c.peName)
      c.best).2

/-- What any calls leave in the category. It begins empty with every scheduling run. -/
inductive CategoryReachable : PeCategory → Prop
  | none : CategoryReachable none
  | empty : CategoryReachable (some fun _ => [])
  | call {category : PeCategory} (c : PeCall) :
      CategoryReachable category → CategoryReachable (c.after pes range category)

end Calls

/-! ## Searching an initial part that works -/

/-- The best after the counts of `good` have been found to work. -/
def bestOf (good : List ℕ) (b : BestSlots) : BestSlots :=
  match good.getLast? with
  | none => b
  | some slots => ⟨slots, true⟩

/-- An attempt that succeeded is kept. -/
def PeOutcome.Kept (o : PeOutcome) : Prop := o.result = .ok → o.best.gdil = true

section Strategies

variable {assign : ℕ → Dispatch} {good bad : List ℕ} {o : PeOutcome}

variable {slots : ℕ}

theorem attempt_of_ok (h : assign slots = .ok) : attempt assign slots o = ⟨⟨slots, true⟩, .ok⟩ := by
  unfold attempt
  rw [if_pos h, h]

theorem attempt_of_not_ok (h : assign slots ≠ .ok) :
    attempt assign slots o = ⟨o.best, assign slots⟩ := by
  unfold attempt
  rw [if_neg h]

theorem bestOf_cons (slots : ℕ) (good : List ℕ) (b : BestSlots) :
    bestOf (slots :: good) b = bestOf good ⟨slots, true⟩ := by
  unfold bestOf
  rw [List.getLast?_cons]
  cases good.getLast? <;> rfl

theorem lowFirst_spec (hgood : ∀ n ∈ good, assign n = .ok) (hbad : ∀ n ∈ bad, assign n ≠ .ok)
    (ho : o.Kept) : (lowFirst assign o (good ++ bad)).best = bestOf good o.best ∧
      (lowFirst assign o (good ++ bad)).Kept := by
  induction good generalizing o with
  | nil =>
    cases bad with
    | nil => exact ⟨rfl, ho⟩
    | cons n bad =>
      have hn : assign n ≠ .ok := hbad n (.head _)
      have hstop : lowFirst assign o (n :: bad) = ⟨o.best, assign n⟩ := by
        simp only [lowFirst, attempt_of_not_ok hn]
        exact if_pos hn
      rw [List.nil_append, hstop]
      exact ⟨rfl, fun h => absurd h hn⟩
  | cons n good ih =>
    have hn : assign n = .ok := hgood n (.head _)
    have hkept : PeOutcome.Kept ⟨⟨n, true⟩, .ok⟩ := fun _ => rfl
    rw [bestOf_cons]
    simpa only [List.cons_append, lowFirst, attempt_of_ok hn, ne_eq, not_true_eq_false,
      if_false] using ih (fun m hm => hgood m (.tail _ hm)) hkept

theorem highFirst_bad (hbad : ∀ n ∈ bad, assign n ≠ .ok) (ho : o.Kept) (rest : List ℕ) :
    ∃ o' : PeOutcome, highFirst assign o (bad ++ rest) = highFirst assign o' rest ∧
      o'.best = o.best ∧ o'.Kept := by
  induction bad generalizing o with
  | nil => exact ⟨o, rfl, rfl, ho⟩
  | cons n bad ih =>
    have hn : assign n ≠ .ok := hbad n (.head _)
    have hkept : PeOutcome.Kept ⟨o.best, assign n⟩ := fun h => absurd h hn
    simp only [List.cons_append, highFirst, attempt_of_not_ok hn, if_neg hn]
    exact ih (fun m hm => hbad m (.tail _ hm)) hkept

theorem highFirst_spec (hgood : ∀ n ∈ good, assign n = .ok)
    (hbad : ∀ n ∈ bad, assign n ≠ .ok) (ho : o.Kept) :
    (highFirst assign o (good ++ bad).reverse).best = bestOf good o.best ∧
      (highFirst assign o (good ++ bad).reverse).Kept := by
  rw [List.reverse_append]
  obtain ⟨o', heq, hbest, hkept⟩ := highFirst_bad
    (fun n hn => hbad n (List.mem_reverse.mp hn)) ho good.reverse
  rw [heq, ← hbest]
  rcases List.eq_nil_or_concat good with rfl | ⟨init, n, rfl⟩
  · exact ⟨rfl, hkept⟩
  · have hn : assign n = .ok := hgood n (by simp)
    have hlast : bestOf (init ++ [n]) o'.best = ⟨n, true⟩ := by
      simp [bestOf]
    have hstop : highFirst assign o' (n :: init.reverse) = ⟨⟨n, true⟩, .ok⟩ := by
      simp only [highFirst, attempt_of_ok hn, if_true]
    rw [List.concat_eq_append, hlast, List.reverse_append, List.reverse_singleton,
      List.singleton_append, hstop]
    exact ⟨rfl, fun _ => rfl⟩

/-- The bounds of the search enclose the end of the counts that work. -/
theorem binarySearch_spec (hgood : ∀ n ∈ good, assign n = .ok)
    (hbad : ∀ n ∈ bad, assign n ≠ .ok) (b : BestSlots) :
    ∀ (k lo : ℕ) (max : ℤ) (o : PeOutcome), (max + 1 - lo).toNat ≤ k →
      lo ≤ good.length → (good.length : ℤ) ≤ max + 1 → max < (good ++ bad).length →
      o.best = bestOf (good.take lo) b → o.Kept →
      (binarySearch assign (good ++ bad) lo max o).best = bestOf good b ∧
        (binarySearch assign (good ++ bad) lo max o).Kept := by
  intro k
  induction k with
  | zero =>
    intro lo max o hk hlo hmax hlen hbest ho
    have hlast : lo = good.length := by omega
    rw [binarySearch, if_neg (by omega)]
    rw [hlast, List.take_length] at hbest
    exact ⟨hbest, ho⟩
  | succ k ih =>
    intro lo max o hk hlo hmax hlen hbest ho
    rw [binarySearch]
    by_cases hin : (lo : ℤ) ≤ max ∧ max ≠ -1
    · rw [if_pos hin]
      obtain ⟨current, hcur⟩ : ∃ current : ℕ, ((lo : ℤ) + max) / 2 = current :=
        ⟨(((lo : ℤ) + max) / 2).toNat, by omega⟩
      have hcurlen : current < (good ++ bad).length := by omega
      dsimp only
      rw [hcur, Int.toNat_natCast, List.getD_eq_getElem _ _ hcurlen]
      by_cases hside : current < good.length
      · -- the probe works: the counts up to it do
        have hget : (good ++ bad)[current] = good[current] := List.getElem_append_left hside
        have hok : assign good[current] = .ok := hgood _ (List.getElem_mem hside)
        rw [hget, attempt_of_ok hok, if_pos rfl]
        have hbest' : (⟨good[current], true⟩ : BestSlots) =
            bestOf (good.take (current + 1)) b := by
          simp [bestOf, List.getLast?_take, hside]
        exact ih (current + 1) max _ (by omega) hside hmax hlen hbest' fun _ => rfl
      · have hmem : (good ++ bad)[current] ∈ bad := by
          rw [List.getElem_append_right (not_lt.mp hside)]
          exact List.getElem_mem _
        have hnot : assign (good ++ bad)[current] ≠ .ok := hbad _ hmem
        rw [attempt_of_not_ok hnot, if_neg hnot]
        exact ih lo (current - 1) _ (by omega) hlo (by omega) (by omega) hbest
          fun h => absurd h hnot
    · rw [if_neg hin]
      have hlast : lo = good.length := by omega
      rw [hlast, List.take_length] at hbest
      exact ⟨hbest, ho⟩

/-- **Every strategy finds the last of the counts that work**, when none works behind one
that does not. -/
theorem search_best (alg : PeAlgorithm) (hgood : ∀ n ∈ good, assign n = .ok)
    (hbad : ∀ n ∈ bad, assign n ≠ .ok) (ho : o.Kept) :
    (searchSlots assign alg (good ++ bad) o).best = bestOf good o.best ∧
      (searchSlots assign alg (good ++ bad) o).Kept := by
  cases alg with
  | binary =>
    refine binarySearch_spec hgood hbad o.best (good ++ bad).length 0 _ o ?_ (Nat.zero_le _)
      ?_ ?_ rfl ho
    · omega
    · simp only [List.length_append]
      omega
    · omega
  | lowFirst => exact lowFirst_spec hgood hbad ho
  | highFirst => exact highFirst_spec hgood hbad ho

end Strategies

/-! ## The counts -/

section Counts

variable {pe : PeSetup} {range : PeRange}

variable {lo : ℕ}

theorem mem_possiblePeSlots {n : ℕ} : n ∈ possiblePeSlots pe range lo ↔
    lo ≤ n ∧ n ≤ maxSlots pe range ∧ isPossible pe range n = true := by
  unfold possiblePeSlots
  rw [List.mem_filter, List.mem_range'_1, and_assoc]
  constructor
  · rintro ⟨hlo, hhi, hn⟩
    exact ⟨hlo, by omega, hn⟩
  · rintro ⟨hlo, hhi, hn⟩
    exact ⟨hlo, by omega, hn⟩

theorem possiblePeSlots_sorted (lo : ℕ) : (possiblePeSlots pe range lo).Pairwise (· < ·) :=
  List.Pairwise.filter _ List.pairwise_lt_range'

/-- The counts from a lower bound on begin with those below a higher one. -/
theorem possiblePeSlots_split (pe : PeSetup) (range : PeRange) {hi : ℕ} (h : lo ≤ hi) : ∃ below,
    possiblePeSlots pe range lo = below ++ possiblePeSlots pe range hi ∧
      ∀ n ∈ below, n < hi := by
  refine ⟨(List.range' lo (min hi (maxSlots pe range + 1) - lo)).filter (isPossible pe range),
    ?_, ?_⟩
  · unfold possiblePeSlots
    rw [← List.filter_append]
    congr 1
    by_cases hmax : hi ≤ maxSlots pe range + 1
    · rw [Nat.min_eq_left hmax]
      have hcat : List.range' lo (hi - lo) ++ List.range' (lo + (hi - lo))
          (maxSlots pe range + 1 - hi) = List.range' lo (hi - lo + (maxSlots pe range + 1 - hi)) :=
        List.range'_append_1
      rw [Nat.add_sub_cancel' h] at hcat
      rw [hcat]
      congr 1
      omega
    · rw [Nat.min_eq_right (by omega), Nat.sub_eq_zero_of_le (show maxSlots pe range + 1 ≤ hi by
        omega)]
      simp
  · intro n hn
    have := List.mem_range'_1.mp (List.mem_filter.mp hn).1
    omega

theorem isPossible_pos {n : ℕ} (h : isPossible pe range n = true) : 0 < n := by
  unfold isPossible at h
  obtain ⟨r, hr, hin⟩ := List.any_eq_true.mp (Bool.and_eq_true_iff.mp h).2
  have hpos := range.pos r hr
  simp only [rangeIsIdWithin, Bool.and_eq_true, decide_eq_true_eq] at hin
  omega

/-- The arrays of a category are the counts from some lower bound on. -/
theorem cached_eq {pes : String → PeSetup} {category : PeCategory}
    (h : CategoryReachable pes range category) (peName : String) :
    category.cached peName = [] ∨
      ∃ lo, category.cached peName = possiblePeSlots (pes peName) range lo := by
  induction h with
  | none => exact Or.inl rfl
  | empty => exact Or.inl rfl
  | @call category c hreach ih =>
    cases category with
    | none => exact Or.inl rfl
    | some slots =>
      by_cases hname : peName = c.peName
      · subst hname
        change Function.update slots c.peName _ c.peName = [] ∨
          ∃ lo, Function.update slots c.peName _ c.peName = _
        rw [Function.update_self]
        unfold parallelMaximizeSlotsPe
        dsimp only
        split_ifs with h₁ h₂ h₃
        · exact ih
        · exact ih
        · exact Or.inl h₃
        · unfold addPeSlotsToCategory
          split_ifs with hc
          · exact Or.inr ⟨_, rfl⟩
          · exact ih
      · change Function.update slots c.peName _ peName = [] ∨
          ∃ lo, Function.update slots c.peName _ peName = _
        rw [Function.update_of_ne hname]
        exact ih

end Counts

/-! ## The largest count -/

section Maximizes

variable (pe : PeSetup) (range : PeRange) (best : BestSlots)

def admissible : List ℕ := possiblePeSlots pe range (minSlots range best)

/-- What works with some slots works with less. -/
def Declining (counts : List ℕ) (assign : ℕ → Dispatch) : Prop :=
  ∀ m ∈ counts, ∀ n ∈ counts, m ≤ n → assign n = .ok → assign m = .ok

/-- The call ends with the largest of the counts that work. -/
def Maximizes (counts : List ℕ) (assign : ℕ → Dispatch) (o : PeOutcome) : Prop :=
  (o.result = .ok ↔ ∃ n ∈ counts, assign n = .ok) ∧
    (o.result = .ok → IsGreatest {n | n ∈ counts ∧ assign n = .ok} o.best.slots)

/-- Whatever works, every strategy ends with the largest of the counts that work. The count
of an assignment that is there is one of them. -/
def MaximizesAlways (cached : List ℕ) : Prop :=
  ∀ alg assign, Declining (admissible pe range best) assign →
    (best.gdil = true → best.slots ∈ admissible pe range best → assign best.slots = .ok) →
    Maximizes (admissible pe range best) assign
      (parallelMaximizeSlotsPe assign pe range alg cached best).1

/-- Without an assignment, the array is not looked at, or holds the counts of this call. -/
def KeptCountsFit (cached : List ℕ) : Prop :=
  maxSlots pe range < minSlots range best ∨ cached = [] ∨ cached = admissible pe range best

/-- With an assignment, its count is admissible, and the array is not looked at or holds the
counts of this call; it may also lack this count, or have one too many before the only one.
Or there are no admissible counts, and none are tried. -/
def KeptCountsFitHeld (cached : List ℕ) : Prop :=
  (best.slots ∈ admissible pe range best ∧
    (best.slots = pe.slots ∨ cached = [] ∨ cached = admissible pe range best ∨
      admissible pe range best = best.slots :: cached ∨
      admissible pe range best = [best.slots] ∧ ∃ n, cached = [n, best.slots])) ∨
  best.slots ≠ pe.slots ∧ admissible pe range best = [] ∧
    (maxSlots pe range < minSlots range best ∨ cached = [])

end Maximizes

section Largest

variable {counts : List ℕ} {assign : ℕ → Dispatch}

theorem Declining.split (hsort : counts.Pairwise (· < ·)) (h : Declining counts assign) :
    ∃ good bad, counts = good ++ bad ∧ (∀ n ∈ good, assign n = .ok) ∧
      ∀ n ∈ bad, assign n ≠ .ok := by
  induction counts with
  | nil => exact ⟨[], [], rfl, by simp, by simp⟩
  | cons n counts ih =>
    obtain ⟨hn, hsort⟩ := List.pairwise_cons.mp hsort
    have hrest : Declining counts assign := fun a ha b hb =>
      h a (.tail _ ha) b (.tail _ hb)
    by_cases hok : assign n = .ok
    · obtain ⟨good, bad, rfl, hgood, hbad⟩ := ih hsort hrest
      exact ⟨n :: good, bad, rfl, List.forall_mem_cons.mpr ⟨hok, hgood⟩, hbad⟩
    · refine ⟨[], n :: counts, rfl, by simp, List.forall_mem_cons.mpr ⟨hok, ?_⟩⟩
      intro m hm hmok
      exact hok (h n (.head _) m (.tail _ hm) (hn m hm).le hmok)

/-- The end of the part that works is the largest count that does. -/
theorem maximizes_of_split {good bad : List ℕ} {b : BestSlots} {o : PeOutcome}
    (hsort : (good ++ bad).Pairwise (· < ·)) (hgood : ∀ n ∈ good, assign n = .ok)
    (hbad : ∀ n ∈ bad, assign n ≠ .ok) (hbest : o.best = bestOf good b) (hkept : o.Kept)
    (hnone : good = [] → b.gdil = false) : Maximizes (good ++ bad) assign o.final := by
  have hwork : ∀ n ∈ good ++ bad, assign n = .ok → n ∈ good := by
    intro n hn hok
    exact (List.mem_append.mp hn).resolve_right fun hn => hbad n hn hok
  rcases List.eq_nil_or_concat good with rfl | ⟨init, last, rfl⟩
  · have hgdil : o.best.gdil = false := hbest ▸ hnone rfl
    have hnot : o.final.result ≠ .ok := by
      unfold PeOutcome.final
      rw [hgdil]
      intro hok
      exact Bool.false_ne_true (hgdil.symm.trans (hkept hok))
    refine ⟨⟨fun hok => absurd hok hnot, ?_⟩, fun hok => absurd hok hnot⟩
    rintro ⟨n, hn, hok⟩
    exact absurd (hwork n hn hok) List.not_mem_nil
  · have hlast : o.best = ⟨last, true⟩ := by
      rw [hbest]
      simp [bestOf]
    have hok : o.final.result = .ok := by
      unfold PeOutcome.final
      rw [hlast]
      rfl
    have hmem : last ∈ init.concat last ++ bad := by simp
    have hlastok : assign last = .ok := hgood last (by simp)
    refine ⟨iff_of_true hok ⟨last, hmem, hlastok⟩, fun _ => ?_⟩
    have hslots : o.final.best.slots = last := congrArg BestSlots.slots hlast
    rw [hslots]
    refine ⟨⟨hmem, hlastok⟩, ?_⟩
    rintro n ⟨hn, hnok⟩
    have hngood := hwork n hn hnok
    rw [List.concat_eq_append] at hngood hsort
    rcases List.mem_append.mp hngood with hn | hn
    · have hlt := (List.pairwise_append.mp (List.pairwise_append.mp hsort).1).2.2
      exact (hlt n hn last (by simp)).le
    · exact (List.mem_singleton.mp hn).le

end Largest

/-! ## Main result -/

section Main

variable {pe : PeSetup} {range : PeRange} {best : BestSlots} {assign : ℕ → Dispatch}
  {cached : List ℕ} {alg : PeAlgorithm}

/-- The lower bound is zero only for a job that asks for nothing. -/
theorem possible_of_minSlots_zero (h : minSlots range best = 0) (lo : ℕ) :
    possiblePeSlots pe range lo = [] := by
  have hfirst : rangeListGetFirstId range.ranges = 0 := by
    unfold minSlots at h
    by_cases hslots : best.slots = 0
    · rwa [if_neg (not_not.mpr hslots)] at h
    · rw [if_pos hslots] at h
      exact absurd h hslots
  have hranges : range.ranges = [] := by
    cases hr : range.ranges with
    | nil => rfl
    | cons r rest =>
      have hpos := range.pos r (by rw [hr]; exact .head _)
      rw [hr] at hfirst
      exact absurd hfirst hpos.ne'
  rw [List.eq_nil_iff_forall_not_mem]
  intro n hn
  have hpossible := (mem_possiblePeSlots.mp hn).2.2
  simp [isPossible, rangeListIsIdWithin, hranges] at hpossible

theorem admissible_of_lt (h : maxSlots pe range < minSlots range best) :
    admissible pe range best = [] := by
  rw [List.eq_nil_iff_forall_not_mem]
  intro n hn
  obtain ⟨hlo, hhi, -⟩ := mem_possiblePeSlots.mp hn
  exact absurd (hlo.trans hhi) (not_le.mpr h)

theorem maximizes_nil {o : PeOutcome} (h : o.result ≠ .ok) : Maximizes [] assign o := by
  refine ⟨⟨fun hok => absurd hok h, ?_⟩, fun hok => absurd hok h⟩
  rintro ⟨n, hn, -⟩
  cases hn

theorem outcome_of_search (hshort : ¬(best.gdil = true ∧ best.slots = pe.slots))
    (hbounds : ¬(maxSlots pe range < minSlots range best ∨ minSlots range best = 0))
    {slots : List ℕ} (hslots : addPeSlotsToCategory pe range cached (minSlots range best) = slots)
    (hne : slots ≠ []) :
    (parallelMaximizeSlotsPe assign pe range alg cached best).1 =
      (searchSlots assign alg slots ⟨best, .neverCat⟩).final := by
  unfold parallelMaximizeSlotsPe
  dsimp only
  rw [if_neg hshort, if_neg hbounds, hslots, if_neg hne]

/-- What the call ends with when a part of the counts works. -/
theorem best_of_search (alg : PeAlgorithm) (best : BestSlots) {good bad : List ℕ}
    (hgood : ∀ n ∈ good, assign n = .ok) (hbad : ∀ n ∈ bad, assign n ≠ .ok) :
    (searchSlots assign alg (good ++ bad) ⟨best, .neverCat⟩).best = bestOf good best ∧
      (searchSlots assign alg (good ++ bad) ⟨best, .neverCat⟩).Kept :=
  search_best alg hgood hbad nofun

theorem maximizes_of_admissible (hdecl : Declining (admissible pe range best) assign)
    (hheld : best.gdil = true → best.slots ∈ admissible pe range best ∧ assign best.slots = .ok) :
    Maximizes (admissible pe range best) assign
      (searchSlots assign alg (admissible pe range best) ⟨best, .neverCat⟩).final := by
  have hsort : (admissible pe range best).Pairwise (· < ·) := possiblePeSlots_sorted _
  obtain ⟨good, bad, heq, hgood, hbad⟩ := hdecl.split hsort
  rw [heq] at hheld hsort ⊢
  obtain ⟨hbest, hkept⟩ := best_of_search alg best hgood hbad
  apply maximizes_of_split hsort hgood hbad hbest hkept
  rintro rfl
  rw [← Bool.not_eq_true]
  intro hgdil
  obtain ⟨hmem, hok⟩ := hheld hgdil
  exact hbad _ (by simpa using hmem) hok

/-- The array lacks only the count of the assignment that is there. -/
theorem maximizes_of_missing (hadm : admissible pe range best = best.slots :: cached)
    (hdecl : Declining (admissible pe range best) assign) (hgdil : best.gdil = true)
    (hok : assign best.slots = .ok) :
    Maximizes (admissible pe range best) assign
      (searchSlots assign alg cached ⟨best, .neverCat⟩).final := by
  have hsort : (admissible pe range best).Pairwise (· < ·) := possiblePeSlots_sorted _
  rw [hadm] at hdecl hsort ⊢
  have hrest : Declining cached assign := fun a ha b hb =>
    hdecl a (.tail _ ha) b (.tail _ hb)
  obtain ⟨good, bad, rfl, hgood, hbad⟩ := hrest.split (List.pairwise_cons.mp hsort).2
  obtain ⟨hbest, hkept⟩ := best_of_search alg best hgood hbad
  have hbest' : (searchSlots assign alg (good ++ bad) ⟨best, .neverCat⟩).best =
      bestOf (best.slots :: good) best := by
    rw [hbest, bestOf_cons, ← hgdil]
  exact maximizes_of_split hsort (List.forall_mem_cons.mpr ⟨hok, hgood⟩) hbad hbest' hkept nofun

/-- The count before the only admissible one does not work. -/
theorem search_pair {n m : ℕ} (hn : assign n ≠ .ok) (hm : assign m = .ok)
    (hbest : best = ⟨m, true⟩) :
    (searchSlots assign alg [n, m] ⟨best, .neverCat⟩).best = ⟨m, true⟩ := by
  have hfail : attempt assign n ⟨best, .neverCat⟩ = ⟨best, assign n⟩ := attempt_of_not_ok hn
  cases alg with
  | binary =>
    have hstop : binarySearch assign [n, m] 0 (-1) ⟨best, assign n⟩ = ⟨best, assign n⟩ := by
      rw [binarySearch, if_neg (by decide)]
    have hprobe : binarySearch assign [n, m] 0 1 ⟨best, .neverCat⟩ = ⟨best, assign n⟩ := by
      rw [binarySearch, if_pos (by decide)]
      change (if (attempt assign n ⟨best, .neverCat⟩).result = .ok then _ else
        binarySearch assign [n, m] 0 (-1) (attempt assign n ⟨best, .neverCat⟩)) = _
      rw [hfail, if_neg hn, hstop]
    exact (congrArg PeOutcome.best hprobe).trans hbest
  | lowFirst =>
    have hprobe : lowFirst assign ⟨best, .neverCat⟩ [n, m] = ⟨best, assign n⟩ := by
      simp only [lowFirst, hfail]
      exact if_pos hn
    exact (congrArg PeOutcome.best hprobe).trans hbest
  | highFirst =>
    have hprobe : highFirst assign ⟨best, .neverCat⟩ [m, n] = ⟨⟨m, true⟩, .ok⟩ := by
      simp only [highFirst, attempt_of_ok hm, if_true]
    exact congrArg PeOutcome.best hprobe

/-- The array has one count too many before the only admissible one. -/
theorem maximizes_of_pair {n : ℕ} (hadm : admissible pe range best = [best.slots])
    (hgdil : best.gdil = true) (hok : assign best.slots = .ok) :
    Maximizes (admissible pe range best) assign
      (searchSlots assign alg [n, best.slots] ⟨best, .neverCat⟩).final := by
  have hb : best = ⟨best.slots, true⟩ := by rw [← hgdil]
  have hbest : (searchSlots assign alg [n, best.slots] ⟨best, .neverCat⟩).best =
      ⟨best.slots, true⟩ := by
    by_cases hn : assign n = .ok
    · have hboth : ∀ x ∈ [n, best.slots], assign x = .ok :=
        List.forall_mem_cons.mpr ⟨hn, by simpa using hok⟩
      have hnone : ∀ x ∈ ([] : List ℕ), assign x ≠ .ok := by simp
      exact (best_of_search alg best hboth hnone).1
    · exact search_pair hn hok hb
  rw [hadm]
  have hwork : ∀ x ∈ [best.slots], assign x = .ok := by simpa using hok
  have hnone : ∀ x ∈ ([] : List ℕ), assign x ≠ .ok := by simp
  exact maximizes_of_split (b := best) (List.pairwise_singleton _ _) hwork hnone hbest
    (fun _ => congrArg BestSlots.gdil hbest) nofun

theorem maximizes_of_fit (hfit : if best.gdil then KeptCountsFitHeld pe range best cached
      else KeptCountsFit pe range best cached) : MaximizesAlways pe range best cached := by
  intro alg assign hdecl hheld
  by_cases hshort : best.gdil = true ∧ best.slots = pe.slots
  · -- the assignment that is there has all slots
    rw [if_pos hshort.1] at hfit
    have hmem : best.slots ∈ admissible pe range best :=
      (hfit.resolve_right fun h => h.1 hshort.2).1
    have hok := hheld hshort.1 hmem
    unfold parallelMaximizeSlotsPe
    dsimp only
    rw [if_pos hshort]
    refine ⟨iff_of_true rfl ⟨_, hmem, hok⟩, fun _ => ⟨⟨hmem, hok⟩, ?_⟩⟩
    rintro n ⟨hn, -⟩
    exact hshort.2 ▸ (mem_possiblePeSlots.mp hn).2.1.trans (min_le_right _ _)
  by_cases hbounds : maxSlots pe range < minSlots range best ∨ minSlots range best = 0
  · have hnil : admissible pe range best = [] :=
      hbounds.elim admissible_of_lt fun h => possible_of_minSlots_zero h _
    rw [hnil]
    apply maximizes_nil
    unfold parallelMaximizeSlotsPe
    dsimp only
    rw [if_neg hshort, if_pos hbounds]
    exact nofun
  have hlt := fun h => hbounds (Or.inl h)
  -- what is left: the call searches the array, or the counts of this call
  have hown : (best.gdil = true → best.slots ∈ admissible pe range best) →
      (cached = [] ∨ cached = admissible pe range best) →
      Maximizes (admissible pe range best) assign
        (parallelMaximizeSlotsPe assign pe range alg cached best).1 := by
    intro hmem hcached
    have hslots : addPeSlotsToCategory pe range cached (minSlots range best) =
        admissible pe range best := by
      unfold addPeSlotsToCategory
      rcases hcached with rfl | rfl
      · rfl
      · split_ifs <;> rfl
    by_cases hnil : admissible pe range best = []
    · rw [hnil]
      apply maximizes_nil
      unfold parallelMaximizeSlotsPe
      dsimp only
      rw [if_neg hshort, if_neg hbounds, hslots, if_pos hnil]
      exact nofun
    · rw [outcome_of_search hshort hbounds hslots hnil]
      exact maximizes_of_admissible hdecl fun h => ⟨hmem h, hheld h (hmem h)⟩
  have hcachedslots : cached ≠ [] →
      addPeSlotsToCategory pe range cached (minSlots range best) = cached := fun h => if_neg h
  cases hgdil : best.gdil with
  | false =>
    rw [hgdil] at hfit
    exact hown (fun h => absurd (hgdil.symm.trans h) Bool.false_ne_true)
      (hfit.resolve_left hlt)
  | true =>
    rw [hgdil] at hfit
    rcases hfit with ⟨hmem, hfit⟩ | ⟨-, hnil, hfit⟩
    · have hok := hheld hgdil hmem
      by_cases hempty : cached = []
      · exact hown (fun _ => hmem) (Or.inl hempty)
      rcases hfit with hall | hfit | hfit | hfit | ⟨hfit, n, rfl⟩
      · exact absurd ⟨hgdil, hall⟩ hshort
      · exact absurd hfit hempty
      · exact hown (fun _ => hmem) (Or.inr hfit)
      · rw [outcome_of_search hshort hbounds (hcachedslots hempty) hempty]
        exact maximizes_of_missing hfit hdecl hgdil hok
      · rw [outcome_of_search hshort hbounds (hcachedslots hempty) hempty]
        exact maximizes_of_pair hfit hgdil hok
    · have hempty : cached = [] := hfit.resolve_left hlt
      rw [hnil]
      apply maximizes_nil
      unfold parallelMaximizeSlotsPe
      dsimp only
      rw [if_neg hshort, if_neg hbounds, hempty, if_pos]
      · exact nofun
      · exact hnil

end Main

/-! ## When the counts kept do not fit -/

def worksFor (counts : List ℕ) (n : ℕ) : Dispatch := if n ∈ counts then .ok else .neverCat

variable {n : ℕ}

variable {counts : List ℕ}

theorem worksFor_eq_ok : worksFor counts n = .ok ↔ n ∈ counts := by
  unfold worksFor
  split_ifs with h
  · exact iff_of_true rfl h
  · exact iff_of_false nofun h

theorem declining_of_disjoint {l : List ℕ} (h : ∀ n ∈ counts, n ∉ l) :
    Declining counts (worksFor l) := fun _ _ n hn _ hok =>
  absurd (worksFor_eq_ok.mp hok) (h n hn)

variable {assign : ℕ → Dispatch} {best : BestSlots} {rest : List ℕ}

theorem lowFirst_stops {m : ℕ} (hn : assign n = .ok) (hm : assign m ≠ .ok) :
    (lowFirst assign ⟨best, .neverCat⟩ (n :: m :: rest)).best = ⟨n, true⟩ := by
  have hstop : lowFirst assign ⟨⟨n, true⟩, .ok⟩ (m :: rest) = ⟨⟨n, true⟩, assign m⟩ := by
    simp only [lowFirst, attempt_of_not_ok hm]
    exact if_pos hm
  have hfirst : lowFirst assign ⟨best, .neverCat⟩ (n :: m :: rest) =
      lowFirst assign ⟨⟨n, true⟩, .ok⟩ (m :: rest) := by
    simp [lowFirst, attempt_of_ok hn]
  rw [hfirst, hstop]

theorem lowFirst_fails
    (hn : assign n ≠ .ok) : lowFirst assign ⟨best, .neverCat⟩ (n :: rest) = ⟨best, assign n⟩ := by
  simp only [lowFirst, attempt_of_not_ok hn]
  exact if_pos hn

section Unfit

variable {pe : PeSetup} {range : PeRange} {best : BestSlots} {cached : List ℕ}

variable {below : List ℕ}

theorem fit_of_missing (hall : MaximizesAlways pe range best cached)
    (hshort : ¬(best.gdil = true ∧ best.slots = pe.slots))
    (hbounds : ¬(maxSlots pe range < minSlots range best ∨ minSlots range best = 0))
    (hne : cached ≠ []) (hadm : admissible pe range best = below ++ cached)
    (hhead : best.gdil = true → ∃ rest, admissible pe range best = best.slots :: rest) :
    below = [] ∨ best.gdil = true ∧ below = [best.slots] := by
  have hsort : (admissible pe range best).Pairwise (· < ·) := possiblePeSlots_sorted _
  have hslots : addPeSlotsToCategory pe range cached (minSlots range best) = cached := if_neg hne
  have hafter := (List.pairwise_append.mp (hadm ▸ hsort)).2.2
  -- the counts below the array work, and no others
  have hdecl : Declining (admissible pe range best) (worksFor below) := by
    intro a ha b hb hab hok
    rw [worksFor_eq_ok] at hok ⊢
    rw [hadm] at ha
    refine (List.mem_append.mp ha).resolve_right fun hac => ?_
    exact absurd (hafter b hok a hac) (not_lt.mpr hab)
  cases hb : below with
  | nil => exact Or.inl rfl
  | cons n rest =>
    have hheld : best.gdil = true → best.slots ∈ admissible pe range best →
        worksFor below best.slots = .ok := by
      intro hgdil _
      obtain ⟨tail, htail⟩ := hhead hgdil
      have hn : n = best.slots := (List.cons.inj (by rw [← htail, hadm, hb]; rfl)).1
      rw [worksFor_eq_ok, hb, hn]
      exact .head _
    have hout := hall .lowFirst (worksFor below) hdecl hheld
    rw [outcome_of_search hshort hbounds hslots hne] at hout
    obtain ⟨c, cs, hc⟩ := List.exists_cons_of_ne_nil hne
    have hcfail : worksFor below c ≠ .ok := by
      rw [Ne, worksFor_eq_ok]
      intro hmem
      exact lt_irrefl c (hafter c hmem c (by rw [hc]; exact .head _))
    have hsearch : searchSlots (worksFor below) .lowFirst cached ⟨best, .neverCat⟩ =
        ⟨best, worksFor below c⟩ := by
      rw [hc]
      exact lowFirst_fails hcfail
    rw [hsearch] at hout
    have hworks : ∃ n ∈ admissible pe range best, worksFor below n = .ok :=
      ⟨n, by rw [hadm, hb]; exact .head _,
        worksFor_eq_ok.mpr (by rw [hb]; exact .head _)⟩
    have hok := hout.1.mpr hworks
    have hgdil : best.gdil = true := by
      by_contra hgdil
      simp only [PeOutcome.final, if_neg hgdil] at hok
      exact hcfail hok
    refine Or.inr ⟨hgdil, ?_⟩
    obtain ⟨tail, htail⟩ := hhead hgdil
    have hn : n = best.slots := (List.cons.inj (by rw [← htail, hadm, hb]; rfl)).1
    cases rest with
    | nil => rw [hn]
    | cons m rest =>
      have hm : m ∈ admissible pe range best := by
        rw [hadm, hb]
        simp
      have hle : m ≤ best.slots :=
        (hout.2 hok).2 ⟨hm, worksFor_eq_ok.mpr (by rw [hb]; simp)⟩
      rw [hadm, hb] at hsort
      have hlt : n < m := (List.pairwise_cons.mp hsort).1 m (by simp)
      rw [hn] at hlt
      exact absurd hlt (not_lt.mpr hle)

theorem fit_of_extra (hall : MaximizesAlways pe range best cached)
    (hshort : ¬(best.gdil = true ∧ best.slots = pe.slots))
    (hbounds : ¬(maxSlots pe range < minSlots range best ∨ minSlots range best = 0))
    (hne : cached ≠ []) (hcached : cached = below ++ admissible pe range best)
    (hsort : cached.Pairwise (· < ·))
    (hhead : best.gdil = true → ∃ rest, admissible pe range best = best.slots :: rest) :
    below = [] ∨ best.gdil = true ∧ admissible pe range best = [best.slots] ∧
      ∃ n, below = [n] := by
  have hslots : addPeSlotsToCategory pe range cached (minSlots range best) = cached := if_neg hne
  have hbefore := (List.pairwise_append.mp (hcached ▸ hsort)).2.2
  cases hb : below with
  | nil => exact Or.inl rfl
  | cons n rest =>
    have hnadm : ∀ m ∈ below, m ∉ admissible pe range best := fun m hm hadm =>
      lt_irrefl m (hbefore m hm m hadm)
    have hnb : n ∈ below := hb ▸ (.head _)
    cases hgdil : best.gdil with
    | false =>
      -- only counts below the bound work, and the call grants one
      have hout := hall .lowFirst (worksFor below)
        (declining_of_disjoint fun m hm hmb => hnadm m hmb hm)
        (fun h => absurd (hgdil.symm.trans h) Bool.false_ne_true)
      rw [outcome_of_search hshort hbounds hslots hne, hcached] at hout
      have hbest := (best_of_search .lowFirst best
        (fun m hm => worksFor_eq_ok.mpr hm)
        (fun m hm hok => hnadm m (worksFor_eq_ok.mp hok) hm)).1
      have hok : PeOutcome.result (PeOutcome.final (searchSlots (worksFor below) .lowFirst
          (below ++ admissible pe range best) ⟨best, .neverCat⟩)) = .ok := by
        unfold PeOutcome.final
        rw [hbest, hb, bestOf_cons]
        unfold bestOf
        cases rest.getLast? <;> rfl
      obtain ⟨m, hm, hmok⟩ := hout.1.mp hok
      exact absurd hm (hnadm m (worksFor_eq_ok.mp hmok))
    | true =>
      refine Or.inr ⟨rfl, ?_⟩
      obtain ⟨tail, htail⟩ := hhead hgdil
      have hmem : best.slots ∈ admissible pe range best := htail ▸ (.head _)
      have hfirst : cached = n :: (rest ++ admissible pe range best) := by
        rw [hcached, hb]
        rfl
      have honly : admissible pe range best = [best.slots] := by
        -- exactly the admissible counts work, and the first attempt fails
        have hout := hall .lowFirst (worksFor (admissible pe range best))
          (fun a ha _ _ _ _ => worksFor_eq_ok.mpr ha) fun _ h => worksFor_eq_ok.mpr h
        have hfail : worksFor (admissible pe range best) n ≠ .ok := fun hok =>
          hnadm n hnb (worksFor_eq_ok.mp hok)
        have hsearch : searchSlots (worksFor (admissible pe range best)) .lowFirst cached
            ⟨best, .neverCat⟩ = ⟨best, worksFor (admissible pe range best) n⟩ := by
          rw [hfirst]
          exact lowFirst_fails hfail
        rw [outcome_of_search hshort hbounds hslots hne, hsearch] at hout
        have hok : PeOutcome.result (PeOutcome.final
            ⟨best, worksFor (admissible pe range best) n⟩) = .ok := by
          simp only [PeOutcome.final, hgdil, if_true]
        have hgreatest := (hout.2 hok).2
        cases tail with
        | nil => exact htail
        | cons m tail =>
          have hm : m ∈ admissible pe range best := by
            rw [htail]
            simp
          have hle : m ≤ best.slots := hgreatest ⟨hm, worksFor_eq_ok.mpr hm⟩
          have hadmsort : (admissible pe range best).Pairwise (· < ·) :=
            possiblePeSlots_sorted _
          rw [htail] at hadmsort
          exact absurd ((List.pairwise_cons.mp hadmsort).1 m (by simp)) (not_lt.mpr hle)
      refine ⟨honly, n, ?_⟩
      cases rest with
      | nil => rfl
      | cons m rest =>
        -- the first count of the array works, and the only admissible one
        have hmb : m ∈ below := by
          rw [hb]
          simp
        have hnm : n < m := by
          rw [hfirst] at hsort
          exact (List.pairwise_cons.mp hsort).1 m (by simp)
        have hmfail : worksFor [n, best.slots] m ≠ .ok := by
          rw [Ne, worksFor_eq_ok]
          intro h
          rcases List.mem_cons.mp h with h | h
          · exact hnm.ne' h
          · exact hnadm m hmb (List.mem_singleton.mp h ▸ hmem)
        have hout := hall .lowFirst (worksFor [n, best.slots])
          (by
            rw [honly]
            intro a ha b hb' _ hok
            rw [List.mem_singleton.mp ha]
            exact worksFor_eq_ok.mpr (by simp))
          fun _ _ => worksFor_eq_ok.mpr (by simp)
        have hstop : (searchSlots (worksFor [n, best.slots]) .lowFirst cached
            ⟨best, .neverCat⟩).best = ⟨n, true⟩ := by
          rw [hfirst]
          exact lowFirst_stops (worksFor_eq_ok.mpr (by simp)) hmfail
        rw [outcome_of_search hshort hbounds hslots hne] at hout
        have hok : PeOutcome.result (PeOutcome.final (searchSlots
            (worksFor [n, best.slots]) .lowFirst cached ⟨best, .neverCat⟩)) = .ok := by
          simp only [PeOutcome.final, hstop, if_true]
        have hin := (hout.2 hok).1.1
        simp only [PeOutcome.final, hstop] at hin
        exact absurd hin (hnadm n hnb)

/-- The count of an assignment that is there is the least admissible one. -/
theorem admissible_head (hmem : best.slots ∈ admissible pe range best) :
    ∃ rest, admissible pe range best = best.slots :: rest := by
  have hsort : (admissible pe range best).Pairwise (· < ·) := possiblePeSlots_sorted _
  have hpos : best.slots ≠ 0 := (isPossible_pos (mem_possiblePeSlots.mp hmem).2.2).ne'
  have hmin : minSlots range best = best.slots := if_pos hpos
  cases hadm : admissible pe range best with
  | nil => exact absurd (hadm ▸ hmem) List.not_mem_nil
  | cons n rest =>
    have hn : n ∈ admissible pe range best := hadm ▸ (.head _)
    have hle : best.slots ≤ n := hmin ▸ (mem_possiblePeSlots.mp hn).1
    rw [hadm] at hmem hsort
    rcases List.mem_cons.mp hmem with heq | htail
    · exact ⟨rest, by rw [heq]⟩
    · exact absurd ((List.pairwise_cons.mp hsort).1 _ htail) (not_lt.mpr hle)

/-- An assignment that is not admissible is kept although nothing works. -/
theorem held_admissible (hall : MaximizesAlways pe range best cached)
    (hmem : best.slots ∉ admissible pe range best) :
    (parallelMaximizeSlotsPe (worksFor []) pe range .lowFirst cached best).1.result ≠ .ok := by
  have hout := hall .lowFirst (worksFor [])
    (declining_of_disjoint fun _ _ => List.not_mem_nil) fun _ h => absurd h hmem
  intro hok
  obtain ⟨n, -, hn⟩ := hout.1.mp hok
  exact absurd (worksFor_eq_ok.mp hn) List.not_mem_nil

theorem bounds_cases (best : BestSlots) {lo : ℕ} (hcached : cached = possiblePeSlots pe range lo) :
    (∃ below, cached = below ++ admissible pe range best) ∨
      ∃ below, admissible pe range best = below ++ cached := by
  rcases le_total lo (minSlots range best) with h | h
  · obtain ⟨below, hsplit, -⟩ := possiblePeSlots_split pe range h
    exact Or.inl ⟨below, hcached.trans hsplit⟩
  · obtain ⟨below, hsplit, -⟩ := possiblePeSlots_split pe range h
    exact Or.inr ⟨below, hcached ▸ hsplit⟩

end Unfit

/-- **The largest count is found**, whatever works and with every strategy, exactly when the
counts kept in the category fit. -/
theorem maximizes_iff {pes : String → PeSetup} {range : PeRange} {category : PeCategory}
    (hreach : CategoryReachable pes range category) (peName : String) (best : BestSlots) :
    MaximizesAlways (pes peName) range best (category.cached peName) ↔
      if best.gdil then KeptCountsFitHeld (pes peName) range best (category.cached peName)
      else KeptCountsFit (pes peName) range best (category.cached peName) := by
  refine ⟨fun hall => ?_, maximizes_of_fit⟩
  have harray := cached_eq hreach peName
  generalize category.cached peName = cached at hall harray ⊢
  generalize pes peName = pe at hall harray ⊢
  have hzero : minSlots range best = 0 → cached = [] := by
    intro h
    rcases harray with hnil | ⟨lo, hlo⟩
    · exact hnil
    · exact hlo.trans (possible_of_minSlots_zero h lo)
  have hsort : cached.Pairwise (· < ·) := by
    rcases harray with hnil | ⟨lo, hlo⟩
    · rw [hnil]
      exact List.Pairwise.nil
    · rw [hlo]
      exact possiblePeSlots_sorted lo
  cases hgdil : best.gdil with
  | false =>
    change KeptCountsFit pe range best cached
    have hnot : ¬(best.gdil = true ∧ best.slots = pe.slots) := fun h =>
      Bool.false_ne_true (hgdil.symm.trans h.1)
    have hfree : best.gdil = true → ∃ rest, admissible pe range best = best.slots :: rest :=
      fun h => absurd (hgdil.symm.trans h) Bool.false_ne_true
    by_cases hlt : maxSlots pe range < minSlots range best
    · exact Or.inl hlt
    by_cases hempty : cached = []
    · exact Or.inr (Or.inl hempty)
    have hbounds := not_or.mpr ⟨hlt, fun h => hempty (hzero h)⟩
    obtain ⟨lo, hlo⟩ := harray.resolve_left hempty
    apply Or.inr
    apply Or.inr
    rcases bounds_cases best hlo with ⟨below, hsplit⟩ | ⟨below, hsplit⟩
    · rcases fit_of_extra hall hnot hbounds hempty hsplit hsort hfree with rfl | ⟨h, -⟩
      · exact hsplit
      · exact absurd (hgdil.symm.trans h) Bool.false_ne_true
    · rcases fit_of_missing hall hnot hbounds hempty hsplit hfree with rfl | ⟨h, -⟩
      · exact hsplit.symm
      · exact absurd (hgdil.symm.trans h) Bool.false_ne_true
  | true =>
    change KeptCountsFitHeld pe range best cached
    by_cases hmem : best.slots ∈ admissible pe range best
    · refine Or.inl ⟨hmem, ?_⟩
      by_cases hslots : best.slots = pe.slots
      · exact Or.inl hslots
      by_cases hempty : cached = []
      · exact Or.inr (Or.inl hempty)
      have hnot : ¬(best.gdil = true ∧ best.slots = pe.slots) := fun h => hslots h.2
      have hlt : ¬maxSlots pe range < minSlots range best := fun h =>
        absurd (admissible_of_lt h ▸ hmem) List.not_mem_nil
      have hbounds := not_or.mpr ⟨hlt, fun h => hempty (hzero h)⟩
      have hhead := fun _ : best.gdil = true => admissible_head hmem
      obtain ⟨lo, hlo⟩ := harray.resolve_left hempty
      apply Or.inr
      apply Or.inr
      rcases bounds_cases best hlo with ⟨below, hsplit⟩ | ⟨below, hsplit⟩
      · rcases fit_of_extra hall hnot hbounds hempty hsplit hsort hhead with
          rfl | ⟨-, honly, n, rfl⟩
        · exact Or.inl hsplit
        · exact Or.inr (Or.inr ⟨honly, n, by rw [hsplit, honly]; rfl⟩)
      · rcases fit_of_missing hall hnot hbounds hempty hsplit hhead with rfl | ⟨-, rfl⟩
        · exact Or.inl hsplit.symm
        · exact Or.inr (Or.inl hsplit)
    · have hfail := held_admissible hall hmem
      have hslots : best.slots ≠ pe.slots := by
        intro h
        apply hfail
        unfold parallelMaximizeSlotsPe
        dsimp only
        rw [if_pos ⟨hgdil, h⟩]
      have hnot : ¬(best.gdil = true ∧ best.slots = pe.slots) := fun h => hslots h.2
      by_cases hlt : maxSlots pe range < minSlots range best
      · exact Or.inr ⟨hslots, admissible_of_lt hlt, Or.inl hlt⟩
      by_cases hlo : minSlots range best = 0
      · exact Or.inr ⟨hslots, possible_of_minSlots_zero hlo _, Or.inr (hzero hlo)⟩
      have hbounds := not_or.mpr ⟨hlt, hlo⟩
      by_cases hne : addPeSlotsToCategory pe range cached (minSlots range best) = []
      · by_cases hempty : cached = []
        · rw [hempty] at hne
          exact Or.inr ⟨hslots, hne, Or.inr hempty⟩
        · exact absurd ((if_neg hempty).symm.trans hne) hempty
      · -- no attempt works, and the assignment that is there is the result
        obtain ⟨hbest, -⟩ := best_of_search .lowFirst best
          (show ∀ n ∈ ([] : List ℕ), worksFor [] n = .ok by simp)
          (show ∀ n ∈ addPeSlotsToCategory pe range cached (minSlots range best),
            worksFor [] n ≠ .ok by simp [worksFor])
        rw [outcome_of_search hnot hbounds rfl hne] at hfail
        refine absurd ?_ hfail
        simp only [PeOutcome.final]
        rw [List.nil_append] at hbest
        rw [hbest]
        simp [bestOf, hgdil]

def fillUpPe (slots : ℕ) : PeSetup := ⟨slots, ⟨none, some "$fill_up"⟩⟩

def oneToFour : PeRange := ⟨[⟨1, 4, 1⟩], by decide⟩

/-- The first job of a category got two slots. -/
def searchedCategory : PeCategory :=
  PeCall.after (fun _ => fillUpPe 8) oneToFour ⟨"mpi", .lowFirst, worksFor [1, 2], ⟨0, false⟩⟩
    (some fun _ => [])

/-- The second one finds the counts kept for it. -/
theorem maximizes_second : searchedCategory.cached "mpi" = [1, 2, 3, 4] ∧
    MaximizesAlways (fillUpPe 8) oneToFour ⟨0, false⟩ (searchedCategory.cached "mpi") := by
  have hreach : CategoryReachable (fun _ => fillUpPe 8) oneToFour searchedCategory :=
    .call _ .empty
  have hkept : searchedCategory.cached "mpi" = admissible (fillUpPe 8) oneToFour ⟨0, false⟩ := by
    decide +kernel
  exact ⟨by decide +kernel, (maximizes_iff hreach "mpi" ⟨0, false⟩).mpr (Or.inr (Or.inr hkept))⟩

/-- Another environment gave a job four slots, and this one was asked for at least as many.
For the next job of the category it is asked first: less than four slots are not tried. -/
theorem maximizes_stale : ¬∀ pes range category, CategoryReachable pes range category →
    ∀ peName best, MaximizesAlways (pes peName) range best (category.cached peName) := by
  intro h
  have hreach : CategoryReachable (fun _ => fillUpPe 8) oneToFour
      (PeCall.after (fun _ => fillUpPe 8) oneToFour ⟨"mpi", .lowFirst, worksFor [], ⟨4, false⟩⟩
        (some fun _ => [])) := .call _ .empty
  have hdecl : Declining (admissible (fillUpPe 8) oneToFour ⟨0, false⟩) (worksFor [1, 2]) := by
    intro m hm n _ hmn hok
    have hpos : 0 < m := isPossible_pos (mem_possiblePeSlots.mp hm).2.2
    rw [worksFor_eq_ok] at hok ⊢
    have hn : n ≤ 2 := by
      rcases List.mem_pair.mp hok with rfl | rfl <;> decide
    exact List.mem_pair.mpr (by omega)
  have hout := h _ _ _ hreach "mpi" ⟨0, false⟩ .lowFirst (worksFor [1, 2]) hdecl nofun
  have hok := hout.1.mpr ⟨2, by decide +kernel, by decide +kernel⟩
  exact absurd hok (by decide +kernel)

end ClusterScheduler.Sched
