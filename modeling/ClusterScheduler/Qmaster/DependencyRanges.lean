import ClusterScheduler.Qmaster.TaskDepend

/-!
# The ranges of array dependencies

Two array jobs with the same first and last task and any steps: a task stands for
the chunk of ids from its own up to the next task of its job, and it depends on the
tasks of the other job whose chunks its own chunk meets.

* `ExactRanges` — every task gets the range of exactly these tasks.
* `exactRanges_iff` — a task does if no chunk of the other job that begins behind the
  last id meets its chunk; else the range is refused.
* `ranges_iff` — all ranges are exact, and the dependence is the same in both
  directions, exactly if the last chunks of the two jobs end at the same id.
-/

namespace ClusterScheduler.Qmaster

open Foundation Sgeobj

def firstId (job : Job) : ℕ := (jobGetSubmitTaskIds job).1

def lastId (job : Job) : ℕ := (jobGetSubmitTaskIds job).2.1

def idStep (job : Job) : ℕ := (jobGetSubmitTaskIds job).2.2

def IsTask (job : Job) (x : ℕ) : Prop := OnGrid (firstId job) (lastId job) (idStep job) x

/-- Array jobs with the same first and last id. -/
structure SameIds (jobA jobB : Job) : Prop where
  arrayA : jobA.isArray
  arrayB : jobB.isArray
  first : firstId jobA = firstId jobB
  last : lastId jobA = lastId jobB
  ordered : firstId jobA ≤ lastId jobA
  small : lastId jobA < 2 ^ 31
  stepA : idStep jobA < 2 ^ 32
  stepB : idStep jobB < 2 ^ 32

/-- The chunk of task `j` of `jobA` meets the chunk of task `i` of `jobB`. -/
def ChunksMeet (jobA jobB : Job) (j i : ℕ) : Prop :=
  j < i + idStep jobB ∧ i < j + idStep jobA

def InRange (jobA jobB : Job) (i j : ℕ) : Prop :=
  ∃ r, sgeTaskDependGetRange jobA jobB i = some r ∧ rangeIsIdWithin r j

/-- The range of a task is computed and has exactly the tasks whose chunks it meets. -/
def ExactAt (jobA jobB : Job) (i : ℕ) : Prop :=
  ∃ r, sgeTaskDependGetRange jobA jobB i = some r ∧
    ∀ j, rangeIsIdWithin r j ↔ IsTask jobA j ∧ ChunksMeet jobA jobB j i

def ExactRanges (jobA jobB : Job) : Prop := ∀ i, IsTask jobB i → ExactAt jobA jobB i

def SymmetricRanges (jobA jobB : Job) : Prop :=
  ∀ i j, IsTask jobB i → IsTask jobA j → (InRange jobA jobB i j ↔ InRange jobB jobA j i)

def chunksEnd (job : Job) : ℕ :=
  firstId job + (lastId job - firstId job) / idStep job * idStep job + idStep job

variable {jobA jobB : Job} {i j : ℕ}

theorem SameIds.symm (h : SameIds jobA jobB) : SameIds jobB jobA where
  arrayA := h.arrayB
  arrayB := h.arrayA
  first := h.first.symm
  last := h.last.symm
  ordered := h.first ▸ h.last ▸ h.ordered
  small := h.last ▸ h.small
  stepA := h.stepB
  stepB := h.stepA

theorem SameIds.isTask_step (h : SameIds jobA jobB) (hi : IsTask jobB i) :
    OnGrid (firstId jobA) (lastId jobA) (idStep jobB) i := by
  rw [h.first, h.last]
  exact hi

theorem ChunksMeet.symm (h : ChunksMeet jobA jobB j i) : ChunksMeet jobB jobA i j :=
  ⟨h.2, h.1⟩

theorem idStep_pos (job : Job) : 0 < idStep job := submitStep_pos job

/-! ## One range -/

/-- The last id of a chunk, counted from the first task, is a number of 32 bits:
behind the first task the step is less than the ids. -/
theorem chunk_lt {f l s i : ℕ} (hs : 0 < s) (hs32 : s < 2 ^ 32) (hl : l < 2 ^ 31)
    (hi : OnGrid f l s i) : i + s - 1 - f < 2 ^ 32 := by
  obtain ⟨hfirst, hlast, hdvd⟩ := hi
  rcases Nat.eq_zero_or_pos (i - f) with hzero | hpos
  · omega
  · have := Nat.le_of_dvd hpos hdvd
    omega

theorem chunk_no_wrap {f l s i : ℕ} (hs : 0 < s) (hs32 : s < 2 ^ 32) (hl : l < 2 ^ 31)
    (hi : OnGrid f l s i) : sub32 (sub32 (add32 i s) 1) f = i + s - 1 - f := by
  have hlt := chunk_lt hs hs32 hl hi
  obtain ⟨hfirst, hlast, -⟩ := hi
  simp only [sub32, add32]
  omega

theorem nearestIndexInA_self {f l i : ℕ} (s : ℕ) (hl : l < 2 ^ 31) (hf : f ≤ i) (hi : i ≤ l) :
    nearestIndexInA i f s = f + (i - f) / s * s := by
  have hle := Nat.div_mul_le_self (i - f) s
  have hsub : sub32 i f = i - f := by
    simp only [sub32]
    omega
  have hmul : mul32 ((i - f) / s) s = (i - f) / s * s := Nat.mod_eq_of_lt (by omega)
  rw [nearestIndexInA, hsub, hmul]
  exact Nat.mod_eq_of_lt (by omega)

theorem taskDepend_eq {f l sb i : ℕ} (sa : ℕ) (hsb : 0 < sb) (hsb32 : sb < 2 ^ 32) (hl : l < 2 ^ 31)
    (hi : OnGrid f l sb i) :
    taskDepend f sa sb i = (f + (i - f) / sa * sa, add32 f ((i + sb - 1 - f) / sa * sa)) := by
  have hle := Nat.div_mul_le_self (i + sb - 1 - f) sa
  have hlt := chunk_lt hsb hsb32 hl hi
  have hmul : mul32 ((i + sb - 1 - f) / sa) sa = (i + sb - 1 - f) / sa * sa :=
    Nat.mod_eq_of_lt (by omega)
  rw [taskDepend, nearestIndexInA_self sa hl hi.1 hi.2.1, nearestIndexInA,
    chunk_no_wrap hsb hsb32 hl hi, hmul]

theorem setAllIds_within {lo hi d : ℕ} :
    rangeIsIdWithin (rangeSetAllIds lo hi d) j ↔ OnGrid lo hi d j := by
  rw [within_iff, rangeSetAllIds]
  split
  · rfl
  · next heq =>
    rw [not_not] at heq
    subst heq
    rw [onGrid_self, onGrid_self]

/-- The range of a task. It is refused if it ends behind the last id. -/
theorem getRange_eq (h : SameIds jobA jobB) (hi : IsTask jobB i) :
    sgeTaskDependGetRange jobA jobB i =
      let rmin := firstId jobA + (i - firstId jobA) / idStep jobA * idStep jobA
      let rmax := add32 (firstId jobA)
        ((i + idStep jobB - 1 - firstId jobA) / idStep jobA * idStep jobA)
      if lastId jobA < rmax then none else some (rangeSetAllIds rmin rmax (idStep jobA)) := by
  have hsame : sgeTaskDependIsSameRange jobA jobB = true := by
    have hfirst := h.first
    have hlast := h.last
    simp only [firstId, lastId] at hfirst hlast
    simp [sgeTaskDependIsSameRange, h.arrayA, h.arrayB, hfirst, hlast]
  have hgrid : ¬ (i < firstId jobB ∨ (i - firstId jobB) % idStep jobB ≠ 0) := by
    rw [not_or, not_lt, not_not]
    exact ⟨hi.1, Nat.mod_eq_zero_of_dvd hi.2.2⟩
  have hdepend := taskDepend_eq (idStep jobA) (idStep_pos jobB) h.stepB h.small
    (h.isTask_step hi)
  unfold sgeTaskDependGetRange
  simp only [firstId, lastId, idStep] at hgrid hdepend ⊢
  simp only [hsame, hdepend, Bool.not_true, Bool.false_eq_true, if_false, hgrid]
  have hmin : ¬ (jobGetSubmitTaskIds jobA).1 + (i - (jobGetSubmitTaskIds jobA).1) /
      (jobGetSubmitTaskIds jobA).2.2 * (jobGetSubmitTaskIds jobA).2.2 <
      (jobGetSubmitTaskIds jobA).1 := by omega
  simp only [hmin, false_or]
  exact if_congr Iff.rfl rfl rfl

theorem meets_iff (h : SameIds jobA jobB) (hi : IsTask jobB i) (hj : firstId jobA ≤ j)
    (hdvd : idStep jobA ∣ j - firstId jobA) :
    ChunksMeet jobA jobB j i ↔
      firstId jobA + (i - firstId jobA) / idStep jobA * idStep jobA ≤ j ∧
      j ≤ firstId jobA + (i + idStep jobB - 1 - firstId jobA) / idStep jobA * idStep jobA := by
  have hpos := idStep_pos jobB
  have hge : firstId jobA ≤ i + idStep jobB - 1 := by
    have := h.first ▸ hi.1
    omega
  rw [floor_le_iff (idStep_pos jobA) hj hdvd, le_floor_iff (idStep_pos jobA) hge hj hdvd,
    ChunksMeet, and_comm]
  apply and_congr_right fun _ => ?_
  omega

theorem chunksEnd_onGrid (job : Job) :
    firstId job ≤ chunksEnd job ∧ idStep job ∣ chunksEnd job - firstId job := by
  rw [chunksEnd]
  refine ⟨by omega, ?_⟩
  rw [Nat.add_assoc, Nat.add_sub_cancel_left]
  exact Nat.dvd_add (Nat.dvd_mul_left _ _) (Nat.dvd_refl _)

theorem chunksEnd_le_iff (h : firstId jobA ≤ lastId jobA) (hj : firstId jobA ≤ j)
    (hdvd : idStep jobA ∣ j - firstId jobA) : chunksEnd jobA ≤ j ↔ lastId jobA < j := by
  obtain ⟨k, hk⟩ := hdvd
  have hpos := idStep_pos jobA
  have hstep : (lastId jobA - firstId jobA) / idStep jobA < k ↔
      lastId jobA - firstId jobA < k * idStep jobA := Nat.div_lt_iff_lt_mul hpos
  have hmul : ((lastId jobA - firstId jobA) / idStep jobA + 1) * idStep jobA ≤ k * idStep jobA ↔
      (lastId jobA - firstId jobA) / idStep jobA + 1 ≤ k := Nat.mul_le_mul_right_iff hpos
  rw [Nat.mul_comm] at hk
  rw [Nat.add_mul, Nat.one_mul] at hmul
  rw [chunksEnd]
  omega

variable (h : SameIds jobA jobB)
include h

theorem chunk_end_le_iff (hi : IsTask jobB i) :
    firstId jobA + (i + idStep jobB - 1 - firstId jobA) / idStep jobA * idStep jobA ≤
      lastId jobA ↔ i + idStep jobB ≤ chunksEnd jobA := by
  have hposA := idStep_pos jobA
  have hposB := idStep_pos jobB
  have hfirst : firstId jobA ≤ i := h.first ▸ hi.1
  have hge : firstId jobA ≤ i + idStep jobB - 1 := by omega
  obtain ⟨hlo, -, hdvd⟩ := onGrid_floor (d := idStep jobA) hge
  obtain ⟨hend, hdvdEnd⟩ := chunksEnd_onGrid jobA
  have hfloor := le_floor_iff hposA hge hend hdvdEnd
  have hbehind := chunksEnd_le_iff h.ordered hlo hdvd
  omega

theorem exactAt_of_le (hi : IsTask jobB i)
    (hle : i + idStep jobB ≤ chunksEnd jobA) : ExactAt jobA jobB i := by
  have hfirst : firstId jobA ≤ i := h.first ▸ hi.1
  have hsmall := h.small
  obtain ⟨hlo, -, hlodvd⟩ := onGrid_floor (d := idStep jobA) hfirst
  have hend := (chunk_end_le_iff h hi).mpr hle
  rw [ExactAt, getRange_eq h hi]
  dsimp only
  have hadd := Nat.mod_eq_of_lt (Nat.lt_of_le_of_lt hend (hsmall.trans (by decide : _ < 2 ^ 32)))
  rw [add32, hadd, if_neg (Nat.not_lt.mpr hend)]
  refine ⟨_, rfl, fun j => ?_⟩
  rw [setAllIds_within, onGrid_between hlo hlodvd hend]
  exact and_congr_right fun hj => (meets_iff h hi hj.1 hj.2.2).symm

/-- Any other task depends on nothing: its range is refused, or the end of the range
wraps and lies before the begin. -/
theorem not_inRange_of_lt (hi : IsTask jobB i)
    (hlt : chunksEnd jobA < i + idStep jobB) (j : ℕ) : ¬ InRange jobA jobB i j := by
  have hend := (chunk_end_le_iff h hi).not.mpr (by omega)
  have hchunk := chunk_lt (idStep_pos jobB) h.stepB h.small (h.isTask_step hi)
  have hfloor := Nat.div_mul_le_self (i + idStep jobB - 1 - firstId jobA) (idStep jobA)
  have hsmall := h.small
  rintro ⟨r, hr, hin⟩
  rw [getRange_eq h hi] at hr
  dsimp only at hr
  split at hr
  · exact absurd hr (by simp)
  · next hwrap =>
    rw [← Option.some.inj hr, setAllIds_within] at hin
    have hmax := hin.1.trans hin.2.1
    simp only [add32] at hwrap hmax
    omega

/-! ## All ranges -/

theorem exists_meets (hj : IsTask jobA j) : ∃ i, IsTask jobB i ∧ ChunksMeet jobA jobB j i := by
  have hfirst : firstId jobB ≤ j := h.first ▸ hj.1
  obtain ⟨hlo, hle, hdvd⟩ := onGrid_floor (d := idStep jobB) hfirst
  refine ⟨_, ⟨hlo, hle.trans (h.last ▸ hj.2.1), hdvd⟩, ?_, ?_⟩
  · exact (floor_le_iff (idStep_pos jobB) hlo hdvd).mp (Nat.le_refl _)
  · exact Nat.lt_add_right_iff_pos.mpr (idStep_pos jobA) |>.trans_le' hle

omit h

theorem isTask_end_le (h : firstId jobA ≤ lastId jobA) (hj : IsTask jobA j) :
    j + idStep jobA ≤ chunksEnd jobA := by
  obtain ⟨hend, hdvd⟩ := chunksEnd_onGrid jobA
  have hbehind := (chunksEnd_le_iff h hend hdvd).mp (Nat.le_refl _)
  obtain ⟨hfirst, hlast, hjdvd⟩ := hj
  have hle := Nat.le_of_dvd (by omega) (Nat.dvd_sub hdvd hjdvd)
  omega

theorem exists_last (h : firstId jobA ≤ lastId jobA) :
    ∃ j, IsTask jobA j ∧ j + idStep jobA = chunksEnd jobA :=
  ⟨_, onGrid_floor h, rfl⟩

theorem exactRanges_iff (h : SameIds jobA jobB) :
    ExactRanges jobA jobB ↔ chunksEnd jobB ≤ chunksEnd jobA := by
  constructor
  · intro hexact
    obtain ⟨i, hi, hend⟩ := exists_last h.symm.ordered
    rw [← hend, ← Nat.not_lt]
    intro hlt
    -- the last task of `jobB` meets a task of `jobA`, but depends on nothing
    obtain ⟨j, hj, hmeet⟩ := exists_meets h.symm hi
    obtain ⟨r, hr, hin⟩ := hexact i hi
    exact not_inRange_of_lt h hi hlt j ⟨r, hr, (hin j).mpr ⟨hj, hmeet.symm⟩⟩
  · intro hle i hi
    exact exactAt_of_le h hi ((isTask_end_le h.symm.ordered hi).trans hle)

theorem ExactRanges.inRange_iff (h : ExactRanges jobA jobB) (hi : IsTask jobB i)
    (hj : IsTask jobA j) : InRange jobA jobB i j ↔ ChunksMeet jobA jobB j i := by
  obtain ⟨r, hr, hin⟩ := h i hi
  constructor
  · rintro ⟨r', hr', hj'⟩
    rw [hr] at hr'
    rw [← Option.some.inj hr'] at hj'
    exact ((hin j).mp hj').2
  · intro hmeet
    exact ⟨r, hr, (hin j).mpr ⟨hj, hmeet⟩⟩

/-- **Ranges of array dependencies.** Every task depends on exactly the tasks whose
chunks it meets, in the same way in both directions, exactly if the last chunks of the
two jobs end at the same id. -/
theorem ranges_iff (h : SameIds jobA jobB) :
    ExactRanges jobA jobB ∧ SymmetricRanges jobA jobB ↔ chunksEnd jobA = chunksEnd jobB := by
  rw [exactRanges_iff h]
  constructor
  · rintro ⟨hle, hsymm⟩
    have hexact := (exactRanges_iff h).mpr hle
    obtain ⟨j, hj, hend⟩ := exists_last h.ordered
    obtain ⟨i, hi, hmeet⟩ := exists_meets h hj
    have hin := (hsymm i j hi hj).mp ((hexact.inRange_iff hi hj).mpr hmeet)
    have hge := Nat.not_lt.mp (mt (not_inRange_of_lt h.symm hj · i) (not_not.mpr hin))
    rw [hend] at hge
    exact Nat.le_antisymm hge hle
  · intro heq
    refine ⟨heq.ge, fun i j hi hj => ?_⟩
    have hexact := (exactRanges_iff h).mpr heq.ge
    have hexact' := (exactRanges_iff h.symm).mpr heq.le
    rw [hexact.inRange_iff hi hj, hexact'.inRange_iff hj hi]
    exact ⟨ChunksMeet.symm, ChunksMeet.symm⟩

def numberedJob (last step : ℕ) : Job where
  owner := "user"
  isArray := true
  jaStructure := [⟨1, last, step⟩]
  ids := fun _ => none
  jaTasks := []
  jidPredecessorList := []
  jidSuccessorList := []
  jaAdRequestList := []
  jaAdPredecessorList := []
  jaAdSuccessorList := []

theorem ranges_iff_two_three :
    ExactRanges (numberedJob 6 2) (numberedJob 6 3) ∧
      SymmetricRanges (numberedJob 6 2) (numberedJob 6 3) := by
  have hids : SameIds (numberedJob 6 2) (numberedJob 6 3) :=
    ⟨rfl, rfl, rfl, rfl, by decide, by decide, by decide, by decide⟩
  exact (ranges_iff hids).mpr (by decide)

/-- The last chunk of four ids is cut off by the end of the array: no range is computed
for the task. -/
theorem not_ranges : ¬ ∀ jobA jobB, SameIds jobA jobB →
    ExactRanges jobA jobB ∧ SymmetricRanges jobA jobB := by
  intro h
  have hids : SameIds (numberedJob 10 1) (numberedJob 10 4) :=
    ⟨rfl, rfl, rfl, rfl, by decide, by decide, by decide, by decide⟩
  obtain ⟨r, hr, -⟩ := (h _ _ hids).1 9 ⟨by decide, by decide, by decide⟩
  have hnone : sgeTaskDependGetRange (numberedJob 10 1) (numberedJob 10 4) 9 = none := by decide
  rw [hnone] at hr
  exact absurd hr (by simp)

end ClusterScheduler.Qmaster
