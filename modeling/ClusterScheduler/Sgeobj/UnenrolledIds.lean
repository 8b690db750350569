import ClusterScheduler.Sgeobj.JobTasks

/-!
# The first and the last task that is only an id

The smallest and the largest id of the five lists of a job are found by comparing the ends of the
lists. An id of 0 stands for an empty list.

* `jobGetExtremeUnenrolledTaskId` — the comparison.
* `Candidate` — a number is the end of a set, or 0 and the set is empty.
* `unenrolledEnds_iff` — both ends are right if and only if the list of the array dependency hold
  is empty, or other ids exist and lie between ids of this list.
-/

namespace ClusterScheduler.Sgeobj

open Foundation

/-! ## Functions of the source -/

def rangeListGetFirstId (l : List Range) : ℕ := (l.head?.map (·.min)).getD 0

def rangeListGetLastId (l : List Range) : ℕ := (l.getLast?.map (·.max)).getD 0

/-- `std::min()` or `std::max()`. -/
def extreme (findMin : Bool) (a b : ℕ) : ℕ := if findMin then min a b else max a b

def endOfList (findMin : Bool) (l : List Range) : ℕ :=
  if findMin then rangeListGetFirstId l else rangeListGetLastId l

def foldEnd (findMin : Bool) (ret id : ℕ) : ℕ :=
  if 0 < ret ∧ 0 < id then extreme findMin ret id else if 0 < id then id else ret

def addHeldEnd (findMin : Bool) (ret id : ℕ) : ℕ :=
  if ret = 0 ∧ 0 < id then extreme findMin ret id else if 0 < id then id else ret

/-- The loop through the other lists. -/
def comparedEnd (job : Job) (findMin : Bool) : ℕ :=
  [IdAttribute.uHIds, .oHIds, .sHIds].foldl
    (fun ret attr => foldEnd findMin ret (endOfList findMin (job.idList attr)))
    (endOfList findMin (job.idList .nHIds))

def jobGetExtremeUnenrolledTaskId (job : Job) (findMin : Bool) : ℕ :=
  addHeldEnd findMin (comparedEnd job findMin) (endOfList findMin (job.idList .aHIds))

def jobGetSmallestUnenrolledTaskId (job : Job) : ℕ := jobGetExtremeUnenrolledTaskId job true

def jobGetBiggestUnenrolledTaskId (job : Job) : ℕ := jobGetExtremeUnenrolledTaskId job false

/-! ## What they should find -/

structure UnenrolledEnds (job : Job) : Prop where
  smallest : job.unenrolled.Nonempty →
    IsLeast job.unenrolled (jobGetSmallestUnenrolledTaskId job)
  biggest : job.unenrolled.Nonempty →
    IsGreatest job.unenrolled (jobGetBiggestUnenrolledTaskId job)
  smallest_zero : jobGetSmallestUnenrolledTaskId job = 0 ↔ ∀ attr, job.idList attr = []
  biggest_zero : jobGetBiggestUnenrolledTaskId job = 0 ↔ ∀ attr, job.idList attr = []

/-! ## Ends of sets -/

/-- `a` is not behind `b` on the way from the end that is looked for. -/
def Ahead (findMin : Bool) (a b : ℕ) : Prop := if findMin then a ≤ b else b ≤ a

/-- The end of a set, or 0 when it is empty. -/
def Candidate (findMin : Bool) (S : Set ℕ) (r : ℕ) : Prop :=
  S = ∅ ∧ r = 0 ∨ 0 < r ∧ r ∈ S ∧ ∀ x ∈ S, Ahead findMin r x

section Ends

variable {findMin : Bool} {S T : Set ℕ} {r i : ℕ}

theorem extreme_cases (findMin : Bool) (a b : ℕ) :
    (extreme findMin a b = a ∧ Ahead findMin a b) ∨
      (extreme findMin a b = b ∧ Ahead findMin b a) := by
  cases findMin <;> simp only [extreme, Ahead, Bool.false_eq_true, if_true, if_false] <;> omega

theorem Ahead.trans {a b c : ℕ} (h : Ahead findMin a b) (h' : Ahead findMin b c) :
    Ahead findMin a c := by
  cases findMin
  · exact le_trans h' h
  · exact le_trans h h'

theorem Candidate.pos_iff (h : Candidate findMin S r) : 0 < r ↔ S.Nonempty := by
  rcases h with ⟨rfl, rfl⟩ | ⟨hpos, hmem, -⟩
  · simp
  · exact iff_of_true hpos ⟨r, hmem⟩

theorem Candidate.foldEnd (h : Candidate findMin S r) (hi : Candidate findMin T i) :
    Candidate findMin (S ∪ T) (foldEnd findMin r i) := by
  unfold Sgeobj.foldEnd
  rcases h with ⟨rfl, rfl⟩ | ⟨hr, hmem, hall⟩
  · rw [if_neg (fun h => lt_irrefl 0 h.1), Set.empty_union]
    split_ifs with hpos
    · exact hi
    · obtain ⟨rfl, rfl⟩ | ⟨hpos', -⟩ := hi
      · exact Or.inl ⟨rfl, rfl⟩
      · exact absurd hpos' hpos
  · rcases hi with ⟨rfl, rfl⟩ | ⟨hi, hmem', hall'⟩
    · rw [if_neg (fun h => lt_irrefl 0 h.2), if_neg (lt_irrefl 0), Set.union_empty]
      exact Or.inr ⟨hr, hmem, hall⟩
    · rw [if_pos ⟨hr, hi⟩]
      rcases extreme_cases findMin r i with ⟨heq, hahead⟩ | ⟨heq, hahead⟩
      · rw [heq]
        refine Or.inr ⟨hr, Or.inl hmem, ?_⟩
        rintro x (hx | hx)
        · exact hall x hx
        · exact hahead.trans (hall' x hx)
      · rw [heq]
        refine Or.inr ⟨hi, Or.inr hmem', ?_⟩
        rintro x (hx | hx)
        · exact hahead.trans (hall x hx)
        · exact hall' x hx

theorem candidate_endOfList {l : List Range} (h : Canonical l) (hpos : ∀ x, Has l x → 0 < x)
    (findMin : Bool) : Candidate findMin (idSet l) (endOfList findMin l) := by
  cases findMin with
  | true =>
    cases l with
    | nil => exact Or.inl ⟨by ext; simp [idSet], rfl⟩
    | cons r rest =>
      have hfirst : Has (r :: rest) r.min :=
        (has_cons _ _ _).mpr (.inl ⟨le_rfl, h.head.le, by simp⟩)
      refine Or.inr ⟨hpos _ hfirst, hfirst, fun x hx => ?_⟩
      rcases (has_cons _ _ _).mp hx with hx | ⟨r', hr', hx⟩
      · exact hx.1
      · exact le_trans (le_of_lt (lt_of_le_of_lt h.head.le (h.head_lt r' hr'))) hx.1
  | false =>
    cases l using List.reverseRecOn with
    | nil => exact Or.inl ⟨by ext; simp [idSet], rfl⟩
    | append_singleton rest r =>
      have hal := h.aligned r (by simp)
      have hlast : Has (rest ++ [r]) r.max := ⟨r, by simp, hal.le, le_rfl, hal.dvd⟩
      have hend : endOfList false (rest ++ [r]) = r.max := by
        simp [endOfList, rangeListGetLastId]
      rw [hend]
      refine Or.inr ⟨hpos _ hlast, hlast, fun x hx => ?_⟩
      obtain ⟨r', hr', hx⟩ := hx
      rcases List.mem_append.mp hr' with hr' | hr'
      · have hlt := h.left_lt_right r' hr' r (by simp)
        exact le_trans hx.2.1 (le_of_lt (lt_of_lt_of_le hlt hal.le))
      · rw [List.mem_singleton.mp hr'] at hx
        exact hx.2.1

end Ends

/-! ## The exact condition -/

section Job

variable {job : Job}

def Job.compared (job : Job) : Set ℕ := {x | ∃ attr, attr ≠ .aHIds ∧ Has (job.idList attr) x}

theorem unenrolled_eq_compared (job : Job) :
    job.unenrolled = job.compared ∪ idSet (job.idList .aHIds) := by
  ext x
  constructor
  · rintro ⟨attr, hx⟩
    by_cases hattr : attr = .aHIds
    · exact Or.inr (hattr ▸ hx)
    · exact Or.inl ⟨attr, hattr, hx⟩
  · rintro (⟨attr, -, hx⟩ | hx)
    · exact ⟨attr, hx⟩
    · exact ⟨_, hx⟩

theorem compared_eq : job.compared = idSet (job.idList .nHIds) ∪ idSet (job.idList .uHIds) ∪
    idSet (job.idList .oHIds) ∪ idSet (job.idList .sHIds) := by
  ext x
  constructor
  · rintro ⟨attr, hattr, hx⟩
    cases attr with
    | nHIds => exact Or.inl (Or.inl (Or.inl hx))
    | uHIds => exact Or.inl (Or.inl (Or.inr hx))
    | oHIds => exact Or.inl (Or.inr hx)
    | sHIds => exact Or.inr hx
    | aHIds => exact absurd rfl hattr
  · rintro (((hx | hx) | hx) | hx)
    · exact ⟨_, by decide, hx⟩
    · exact ⟨_, by decide, hx⟩
    · exact ⟨_, by decide, hx⟩
    · exact ⟨_, by decide, hx⟩

theorem idSet_eq_empty {l : List Range} (h : Canonical l) : idSet l = ∅ ↔ l = [] := by
  cases l with
  | nil => exact iff_of_true (by ext; simp [idSet]) rfl
  | cons r rest =>
    refine iff_of_false (fun hempty => ?_) (List.cons_ne_nil _ _)
    have hmem : r.min ∈ idSet (r :: rest) :=
      (has_cons _ _ _).mpr (.inl ⟨le_rfl, h.head.le, by simp⟩)
    rw [hempty] at hmem
    exact hmem

variable (h : ∀ attr, Canonical (job.idList attr))
include h

theorem unenrolled_eq_empty : job.unenrolled = ∅ ↔ ∀ attr, job.idList attr = [] := by
  constructor
  · intro hempty attr
    refine (idSet_eq_empty (h attr)).mp (Set.eq_empty_of_forall_notMem fun x hx => ?_)
    exact Set.eq_empty_iff_forall_notMem.mp hempty x ⟨attr, hx⟩
  · rintro hnil
    refine Set.eq_empty_of_forall_notMem ?_
    rintro x ⟨attr, hx⟩
    rw [hnil attr] at hx
    exact has_nil x hx

/-- Both functions are right when they find the ends of the set of all ids. -/
theorem unenrolledEnds_iff_candidate
    (hpos : ∀ x ∈ job.unenrolled, 0 < x) : UnenrolledEnds job ↔ ∀ findMin,
      Candidate findMin job.unenrolled (jobGetExtremeUnenrolledTaskId job findMin) := by
  constructor
  · intro hends findMin
    rcases Set.eq_empty_or_nonempty job.unenrolled with hempty | hsome
    · have hnil := (unenrolled_eq_empty h).mp hempty
      cases findMin
      · exact Or.inl ⟨hempty, hends.biggest_zero.mpr hnil⟩
      · exact Or.inl ⟨hempty, hends.smallest_zero.mpr hnil⟩
    · cases findMin
      · obtain ⟨hmem, hall⟩ := hends.biggest hsome
        exact Or.inr ⟨hpos _ hmem, hmem, fun x hx => hall hx⟩
      · obtain ⟨hmem, hall⟩ := hends.smallest hsome
        exact Or.inr ⟨hpos _ hmem, hmem, fun x hx => hall hx⟩
  · intro hcand
    have hzero (findMin : Bool) : jobGetExtremeUnenrolledTaskId job findMin = 0 ↔
        ∀ attr, job.idList attr = [] := by
      rw [← unenrolled_eq_empty h, ← Set.not_nonempty_iff_eq_empty, ← (hcand findMin).pos_iff,
        Nat.pos_iff_ne_zero, not_not]
    refine ⟨fun hsome => ?_, fun hsome => ?_, hzero true, hzero false⟩
    · obtain ⟨hempty, -⟩ | ⟨-, hmem, hall⟩ := hcand true
      · exact absurd hempty hsome.ne_empty
      · exact ⟨hmem, fun x hx => hall x hx⟩
    · obtain ⟨hempty, -⟩ | ⟨-, hmem, hall⟩ := hcand false
      · exact absurd hempty hsome.ne_empty
      · exact ⟨hmem, fun x hx => hall x hx⟩

/-- What is compared gives the end of the ids without an array dependency hold. -/
theorem candidate_compared (hpos : ∀ x ∈ job.unenrolled, 0 < x) (findMin : Bool) :
    Candidate findMin job.compared (comparedEnd job findMin) := by
  have hlist (attr : IdAttribute) :=
    candidate_endOfList (h attr) (fun x hx => hpos x ⟨attr, hx⟩) findMin
  rw [compared_eq]
  exact (((hlist .nHIds).foldEnd (hlist .uHIds)).foldEnd (hlist .oHIds)).foldEnd (hlist .sHIds)

theorem compared_eq_empty : job.compared = ∅ ↔ ¬ ∃ attr, attr ≠ .aHIds ∧ job.idList attr ≠ [] := by
  rw [Set.eq_empty_iff_forall_notMem]
  constructor
  · rintro hnone ⟨attr, hattr, hne⟩
    refine hne ((idSet_eq_empty (h attr)).mp (Set.eq_empty_of_forall_notMem fun x hx => ?_))
    exact hnone x ⟨attr, hattr, hx⟩
  · rintro hnil x ⟨attr, hattr, hx⟩
    refine hnil ⟨attr, hattr, fun hempty => ?_⟩
    rw [hempty] at hx
    exact has_nil x hx

omit h

/-- **The ends of the ids.** The smallest and the largest id are found if and only if the list of
the array dependency hold is empty, or the other lists have ids and all of them lie between ids
of this list. -/
theorem unenrolledEnds_iff (job : Job) (hlists : ∀ attr, Canonical (job.idList attr))
    (hpos : ∀ x ∈ job.unenrolled, 0 < x) : UnenrolledEnds job ↔
      job.idList .aHIds = [] ∨ (∃ attr, attr ≠ .aHIds ∧ job.idList attr ≠ []) ∧
        ∀ x ∈ job.unenrolled, (∃ y, Has (job.idList .aHIds) y ∧ y ≤ x) ∧
          ∃ y, Has (job.idList .aHIds) y ∧ x ≤ y := by
  have hcompared := candidate_compared hlists hpos
  have hheld := candidate_endOfList (hlists .aHIds) fun x hx => hpos x ⟨_, hx⟩
  have hunion := unenrolled_eq_compared job
  rw [unenrolledEnds_iff_candidate hlists hpos]
  unfold jobGetExtremeUnenrolledTaskId
  by_cases hnil : job.idList .aHIds = []
  · refine iff_of_true (fun findMin => ?_) (Or.inl hnil)
    have hzero : endOfList findMin (job.idList .aHIds) = 0 := by
      rw [hnil]
      cases findMin <;> rfl
    have hempty : idSet (job.idList .aHIds) = ∅ := (idSet_eq_empty (hlists _)).mpr hnil
    rw [addHeldEnd, hzero, if_neg (fun h => lt_irrefl 0 h.2), if_neg (lt_irrefl 0), hunion,
      hempty, Set.union_empty]
    exact hcompared findMin
  have hend (findMin : Bool) : 0 < endOfList findMin (job.idList .aHIds) :=
    (hheld findMin).pos_iff.mpr
      (Set.nonempty_iff_ne_empty.mpr (mt (idSet_eq_empty (hlists _)).mp hnil))
  have hmem (findMin : Bool) := ((hheld findMin).resolve_left fun h => (hend findMin).ne' h.2).2
  simp only [addHeldEnd, hnil, false_or, hend, and_true, if_true]
  by_cases hothers : job.compared = ∅
  · -- the smallest id is compared with the 0 of the empty lists
    refine iff_of_false (fun hall => ?_) fun h => (compared_eq_empty hlists).mp hothers h.1
    obtain ⟨-, hret⟩ := (hcompared true).resolve_right fun h =>
      Set.eq_empty_iff_forall_notMem.mp hothers _ h.2.1
    have hmin := hall true
    rw [if_pos hret, hret] at hmin
    have hpos' := hmin.pos_iff.mpr ⟨_, (hmem true).1.elim fun r hr => ⟨_, r, hr⟩⟩
    exact absurd hpos' (by simp [extreme])
  · have hret (findMin : Bool) := (hcompared findMin).pos_iff.mpr
      (Set.nonempty_iff_ne_empty.mpr hothers)
    have hsome : ∃ attr, attr ≠ .aHIds ∧ job.idList attr ≠ [] :=
      not_not.mp (mt (compared_eq_empty hlists).mpr hothers)
    simp only [(hret _).ne', if_false, hsome, true_and]
    constructor
    · intro hall x hx
      have hleast := ((hall true).resolve_left fun h => (hend true).ne' h.2).2.2 x hx
      have hlast := ((hall false).resolve_left fun h => (hend false).ne' h.2).2.2 x hx
      exact ⟨⟨_, (hmem true).1, hleast⟩, ⟨_, (hmem false).1, hlast⟩⟩
    · intro hbetween findMin
      refine Or.inr ⟨hend findMin, ⟨_, (hmem findMin).1⟩, fun x hx => ?_⟩
      obtain ⟨⟨y, hy, hle⟩, z, hz, hge⟩ := hbetween x hx
      cases findMin
      · exact le_trans hge ((hmem false).2 z hz)
      · exact le_trans ((hmem true).2 y hy) hle

end Job

/-- One task has no hold, the tasks in the range `held` have the array dependency hold. -/
def holdJob (free : ℕ) (held : Range) : Job where
  owner := "owner"
  isArray := true
  jaStructure := [⟨1, 10, 1⟩]
  ids
    | .nHIds => some [⟨free, free, 1⟩]
    | .aHIds => some [held]
    | _ => none
  jaTasks := []
  jidPredecessorList := []
  jidSuccessorList := []
  jaAdRequestList := []
  jaAdPredecessorList := []
  jaAdSuccessorList := []

variable {free : ℕ} {held : Range}

theorem holdJob_lists (hfree : free < 2 ^ 32) (hheld : Aligned held)
    (attr : IdAttribute) : Canonical ((holdJob free held).idList attr) := by
  cases attr with
  | nHIds => exact .cons ⟨le_rfl, by simp, by simp, by simp, hfree⟩ (by simp) .nil
  | aHIds => exact .cons hheld (by simp) .nil
  | _ => exact .nil

theorem holdJob_pos (hfree : 0 < free) (hheld : 0 < held.min) :
    ∀ x ∈ (holdJob free held).unenrolled, 0 < x := by
  rintro x ⟨attr, r, hr, hx⟩
  refine lt_of_lt_of_le ?_ hx.1
  cases attr with
  | nHIds => rw [List.mem_singleton.mp hr]; exact hfree
  | aHIds => rw [List.mem_singleton.mp hr]; exact hheld
  | _ => cases hr

theorem unenrolledEnds_iff_between : UnenrolledEnds (holdJob 3 ⟨2, 4, 2⟩) := by
  refine (unenrolledEnds_iff (holdJob 3 ⟨2, 4, 2⟩)
    (holdJob_lists (by decide) ⟨by decide, by decide, by decide, by decide, by decide⟩)
    (holdJob_pos (by decide) (by decide))).mpr (Or.inr ⟨⟨.nHIds, by decide, by decide⟩, ?_⟩)
  have hfirst : Has ((holdJob 3 ⟨2, 4, 2⟩).idList .aHIds) 2 := has_iff.mpr (by decide)
  have hlast : Has ((holdJob 3 ⟨2, 4, 2⟩).idList .aHIds) 4 := has_iff.mpr (by decide)
  rintro x ⟨attr, r, hr, hle, hge, -⟩
  refine ⟨⟨2, hfirst, ?_⟩, ⟨4, hlast, ?_⟩⟩ <;>
    cases attr <;> simp [holdJob, Job.idList] at hr <;> subst hr <;> simp at hle hge <;> omega

/-- Of the tasks 5 and 7 the smallest is task 5, but task 7 is found. -/
theorem unenrolledEnds_false : (∀ attr, Canonical ((holdJob 5 ⟨7, 7, 1⟩).idList attr)) ∧
    (∀ x ∈ (holdJob 5 ⟨7, 7, 1⟩).unenrolled, 0 < x) ∧
    ¬ UnenrolledEnds (holdJob 5 ⟨7, 7, 1⟩) := by
  refine ⟨holdJob_lists (by decide)
    ⟨by decide, by decide, by decide, by decide, by decide⟩,
    holdJob_pos (by decide) (by decide), fun h => ?_⟩
  have hmem : 5 ∈ (holdJob 5 ⟨7, 7, 1⟩).unenrolled := ⟨.nHIds, has_iff.mpr (by decide)⟩
  exact absurd ((h.smallest ⟨5, hmem⟩).2 hmem) (by decide)

end ClusterScheduler.Sgeobj
