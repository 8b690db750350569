import ClusterScheduler.Foundation.Digraph
import ClusterScheduler.Qmaster.TaskDepend

/-!
# The check for dependency cycles

Before a job gets new predecessors the qmaster walks the predecessor lists back, to see whether a
job would wait for itself. One variable holds the result of the two loops of a visit.

* `containsDependencyCycles` — the walk.
* `predecessorLoop_spec` — what one loop leaves in the variable.
* `Follows` — the edges of the graph; `Seen` — the edges whose loop has the last word.
* `containsDependencyCycles_spec` — the walk ends and finds the paths of seen edges.
* `decidesCycles_iff` — it is right if and only if a cycle, when there is one, can be closed over
  seen edges.
-/

namespace ClusterScheduler.Qmaster

open Relation Foundation Sgeobj

/-! ## Functions of the source -/

def dependencyCycleText (jobNumber temp : ℕ) : String :=
  s!"job {jobNumber} dependency change would generate a dependency cycle with job {temp}"

/-- One of the two loops. The state is `is_cycle` and the answer list, and `visit` is the call for
another job. -/
def predecessorLoop (visit : ℕ → List String → Option (Bool × List String))
    (jobNumber temp : ℕ) : List ℕ → Bool × List String → Option (Bool × List String)
  | [], state => some state
  | preNr :: rest, (_, alpp) =>
    let result :=
      if preNr = jobNumber then some (true, alpp ++ [dependencyCycleText jobNumber temp])
      else visit preNr alpp
    result.bind fun state =>
      if state.1 then some state else predecessorLoop visit jobNumber temp rest state

/-- `contains_dependency_cycles()` for the job `newJob` with the number `temp`. A number that is not
in the master list stops the process, as does a search without an end. -/
def containsDependencyCycles (jobs : MasterJobList) (jobNumber : ℕ) :
    ℕ → ℕ → Job → List String → Option (Bool × List String)
  | 0, _, _, _ => none
  | fuel + 1, temp, newJob, alpp =>
    let visit := fun preNr alpp => (jobs preNr).bind fun job =>
      containsDependencyCycles jobs jobNumber fuel preNr job alpp
    (predecessorLoop visit jobNumber temp newJob.jidPredecessorList (false, alpp)).bind
      (predecessorLoop visit jobNumber temp newJob.jaAdPredecessorList)

/-! ## The graph -/

section Graph

variable (jobs : MasterJobList) (a b : ℕ)

def Follows : Prop :=
  ∃ job, jobs a = some job ∧ (b ∈ job.jidPredecessorList ∨ b ∈ job.jaAdPredecessorList)

/-- An edge whose result is not overwritten: the second loop begins only at a job with array
predecessors. -/
def Seen : Prop :=
  ∃ job, jobs a = some job ∧
    (job.jaAdPredecessorList = [] ∧ b ∈ job.jidPredecessorList ∨ b ∈ job.jaAdPredecessorList)

end Graph

/-- A master list to which the job `n` is submitted, or in which it is modified. -/
structure CycleFree (jobs : MasterJobList) (n : ℕ) (newJob : Job) : Prop where
  finite : {m | jobs m ≠ none}.Finite
  acyclic : Acyclic fun a b => a ≠ n ∧ Follows jobs a b
  named : ∀ a b, Follows (jobs.set n newJob) a b → b ≠ n → jobs b ≠ none

/-- The walk ends, and it tells whether the job would wait for itself. -/
def DecidesCycles (jobs : MasterJobList) (n : ℕ) (newJob : Job) : Prop :=
  ∃ bound, ∀ fuel, bound ≤ fuel → ∀ alpp,
    ∃ result, containsDependencyCycles jobs n fuel n newJob alpp = some result ∧
      (result.1 = true ↔ TransGen (Follows (jobs.set n newJob)) n n)

/-! ## The walk -/

variable {jobs : MasterJobList} {n fuel a b : ℕ} {newJob job : Job}
  {visit : ℕ → List String → Option (Bool × List String)} {found : ℕ → Prop}

theorem predecessorLoop_spec (temp : ℕ) : ∀ (l : List ℕ) (state : Bool × List String),
    (∀ preNr ∈ l, preNr ≠ n → ∀ alpp,
      ∃ result, visit preNr alpp = some result ∧ (result.1 = true ↔ found preNr)) →
    ∃ result, predecessorLoop visit n temp l state = some result ∧
      (result.1 = true ↔ l = [] ∧ state.1 = true ∨ ∃ preNr ∈ l, preNr = n ∨ found preNr)
  | [], state, _ => ⟨state, rfl, by simp⟩
  | preNr :: rest, (isCycle, alpp), hvisit => by
    unfold predecessorLoop
    by_cases hself : preNr = n
    · rw [if_pos hself]
      exact ⟨_, rfl, by simp [hself]⟩
    · rw [if_neg hself]
      obtain ⟨state, hstate, hfound⟩ := hvisit preNr (.head _) hself alpp
      rw [hstate]
      by_cases htrue : state.1 = true
      · exact ⟨state, by simp [htrue], by simp [htrue, hfound.mp htrue]⟩
      · -- the walk goes on with `is_cycle` false
        obtain ⟨result, hresult, hiff⟩ := predecessorLoop_spec temp rest state
          fun p hp => hvisit p (.tail _ hp)
        refine ⟨result, by simpa [htrue] using hresult, ?_⟩
        simp [hiff, htrue, hself, mt hfound.mpr htrue]

theorem transGen_seen_iff (hjob : jobs a = some job) :
    TransGen (Seen jobs) a n ↔
      (job.jaAdPredecessorList = [] ∧
        ∃ preNr ∈ job.jidPredecessorList, preNr = n ∨ TransGen (Seen jobs) preNr n) ∨
      ∃ preNr ∈ job.jaAdPredecessorList, preNr = n ∨ TransGen (Seen jobs) preNr n := by
  rw [TransGen.head'_iff]
  simp only [Seen, hjob, Option.some.injEq, exists_eq_left', reflTransGen_iff_eq_or_transGen]
  grind

/-- The call for a job ends with a verdict about the seen edges. -/
def Settles (jobs : MasterJobList) (n : ℕ) (newJob : Job) (fuel a : ℕ) (job : Job) : Prop :=
  ∀ alpp, ∃ result, containsDependencyCycles jobs n fuel a job alpp = some result ∧
    (result.1 = true ↔ TransGen (Seen (jobs.set n newJob)) a n)

/-- One visit, from the visits of the predecessors. -/
theorem settles_step (hjob : (jobs.set n newJob) a = some job)
    (hvisit : ∀ b, Follows (jobs.set n newJob) a b → b ≠ n →
      ∃ pre, jobs b = some pre ∧ Settles jobs n newJob fuel b pre) :
    Settles jobs n newJob (fuel + 1) a job := by
  intro alpp
  have hcall (b : ℕ) (hb : b ∈ job.jidPredecessorList ∨ b ∈ job.jaAdPredecessorList) (hne : b ≠ n)
      (alpp : List String) : ∃ result,
        ((jobs b).bind fun pre => containsDependencyCycles jobs n fuel b pre alpp) = some result ∧
        (result.1 = true ↔ TransGen (Seen (jobs.set n newJob)) b n) := by
    obtain ⟨pre, hpre, hsettles⟩ := hvisit b ⟨job, hjob, hb⟩ hne
    rw [hpre]
    exact hsettles alpp
  obtain ⟨first, hfirst, hfirstIff⟩ := predecessorLoop_spec a job.jidPredecessorList
    (false, alpp) fun b hb hne => hcall b (.inl hb) hne
  obtain ⟨second, hsecond, hsecondIff⟩ := predecessorLoop_spec a job.jaAdPredecessorList
    first fun b hb hne => hcall b (.inr hb) hne
  refine ⟨second, ?_, ?_⟩
  · show (predecessorLoop _ n a job.jidPredecessorList (false, alpp)).bind _ = _
    rw [hfirst]
    exact hsecond
  · rw [hsecondIff, transGen_seen_iff hjob, hfirstIff]
    simp

variable (hfree : CycleFree jobs n newJob)
include hfree

theorem CycleFree.finite_sources : {a | ∃ b, a ≠ n ∧ Follows jobs a b}.Finite := by
  refine hfree.finite.subset ?_
  rintro a ⟨b, -, job, hjob, -⟩
  simp [hjob]

/-- **The walk ends and finds the paths of seen edges.** Every call is for a job whose depth is less
than that of the caller. -/
theorem containsDependencyCycles_spec :
    ∀ (fuel a : ℕ) (job : Job), a ≠ n → jobs a = some job →
      depth (fun a b => a ≠ n ∧ Follows jobs a b) a < fuel → Settles jobs n newJob fuel a job := by
  intro fuel
  induction fuel with
  | zero => exact fun _ _ _ _ hdepth => absurd hdepth (Nat.not_lt_zero _)
  | succ fuel ih =>
    intro a job ha hjob hdepth
    refine settles_step ((set_of_ne jobs newJob ha).trans hjob) fun b hedge hb => ?_
    obtain ⟨pre, hpre⟩ := Option.ne_none_iff_exists'.mp (hfree.named a b hedge hb)
    have hold : Follows jobs a b := by
      obtain ⟨job', hjob', hmem⟩ := hedge
      exact ⟨job', (set_of_ne jobs newJob ha).symm.trans hjob', hmem⟩
    have hlt := depth_lt hfree.acyclic hfree.finite_sources ⟨ha, hold⟩
    exact ⟨pre, hpre, ih b pre hb hpre (by omega)⟩

theorem settles_changed (hfuel : {a | ∃ b, a ≠ n ∧ Follows jobs a b}.ncard + 2 ≤ fuel) :
    Settles jobs n newJob fuel n newJob := by
  obtain ⟨fuel, rfl⟩ : ∃ m, fuel = m + 1 := ⟨fuel - 1, by omega⟩
  refine settles_step (set_self jobs n newJob) fun b hedge hb => ?_
  obtain ⟨pre, hpre⟩ := Option.ne_none_iff_exists'.mp (hfree.named n b hedge hb)
  have hle := depth_le (fun a b => a ≠ n ∧ Follows jobs a b) hfree.finite_sources b
  exact ⟨pre, hpre, containsDependencyCycles_spec hfree fuel b pre hb hpre (by omega)⟩

omit hfree

/-! ## The verdict -/

theorem Seen.follows (h : Seen jobs a b) : Follows jobs a b := by
  obtain ⟨job, hjob, ⟨-, hjid⟩ | had⟩ := h
  · exact ⟨job, hjob, .inl hjid⟩
  · exact ⟨job, hjob, .inr had⟩

/-- **The check is right if and only if** a cycle, when there is one, can be closed over edges that
are array dependencies or leave a job without array dependencies. -/
theorem decidesCycles_iff (jobs : MasterJobList) (n : ℕ) (newJob : Job)
    (hfree : CycleFree jobs n newJob) :
    DecidesCycles jobs n newJob ↔
      (TransGen (Follows (jobs.set n newJob)) n n → TransGen (Seen (jobs.set n newJob)) n n) := by
  constructor
  · rintro ⟨bound, hbound⟩ hcycle
    -- the same run, with enough fuel for both
    obtain ⟨result, hrun, hiff⟩ := hbound
      (max bound ({a | ∃ b, a ≠ n ∧ Follows jobs a b}.ncard + 2)) (le_max_left _ _) []
    obtain ⟨result', hrun', hiff'⟩ := settles_changed hfree (le_max_right bound _) []
    have hsame : result = result' := Option.some.inj (hrun.symm.trans hrun')
    exact hiff'.mp (hsame ▸ hiff.mpr hcycle)
  · intro hseen
    refine ⟨{a | ∃ b, a ≠ n ∧ Follows jobs a b}.ncard + 2, fun fuel hfuel alpp => ?_⟩
    obtain ⟨result, hrun, hiff⟩ := settles_changed hfree hfuel alpp
    have hfollows (h : TransGen (Seen (jobs.set n newJob)) n n) :
        TransGen (Follows (jobs.set n newJob)) n n :=
      TransGen.mono (fun a b (hedge : Seen _ a b) => hedge.follows) n n h
    exact ⟨result, hrun, hiff.trans ⟨hfollows, hseen⟩⟩

/-! ## A cycle that is not found -/

/-- A job that waits for jobs, and task by task for others. -/
def dependentJob (jid ad : List ℕ) : Job where
  owner := "ann"
  isArray := true
  jaStructure := [⟨1, 2, 1⟩]
  ids := fun attr => if attr = .nHIds then some [⟨1, 2, 1⟩] else none
  jaTasks := []
  jidPredecessorList := jid
  jidSuccessorList := []
  jaAdRequestList := []
  jaAdPredecessorList := ad
  jaAdSuccessorList := []

def twoDependent : MasterJobList := fun m =>
  if m = 2 then some (dependentJob [1] []) else if m = 3 then some (dependentJob [] []) else none

theorem cycleFree_twoDependent (ad : List ℕ) (had : ∀ p ∈ ad, p = 3) :
    CycleFree twoDependent 1 (dependentJob [2] ad) where
  finite := (Set.toFinite {2, 3}).subset fun m hm => by
    simp only [twoDependent, Set.mem_ofPred_eq] at hm
    grind
  acyclic := acyclic_of_falls id fun a b h => by
    obtain ⟨-, job, hjob, hmem⟩ := h
    simp only [twoDependent] at hjob
    grind [dependentJob]
  named := fun a b h hb => by
    obtain ⟨job, hjob, hmem⟩ := h
    simp only [twoDependent, MasterJobList.set, Function.update_apply] at hjob ⊢
    grind [dependentJob]

theorem follows_twoDependent (ad : List ℕ) :
    TransGen (Follows (twoDependent.set 1 (dependentJob [2] ad))) 1 1 :=
  .tail (.single ⟨_, set_self _ _ _, .inl (.head _)⟩) ⟨dependentJob [1] [], rfl, .inl (.head _)⟩

theorem decidesCycles_iff_without :
    CycleFree twoDependent 1 (dependentJob [2] []) ∧
      (DecidesCycles twoDependent 1 (dependentJob [2] []) ↔
        (TransGen (Follows (twoDependent.set 1 (dependentJob [2] []))) 1 1 →
          TransGen (Seen (twoDependent.set 1 (dependentJob [2] []))) 1 1)) :=
  ⟨cycleFree_twoDependent [] (by simp),
    decidesCycles_iff twoDependent 1 (dependentJob [2] []) (cycleFree_twoDependent [] (by simp))⟩

/-- Job 1 is to wait for job 2, which waits for it, and task by task for job 3. -/
theorem decidesCycles_false :
    CycleFree twoDependent 1 (dependentJob [2] [3]) ∧
      ¬ DecidesCycles twoDependent 1 (dependentJob [2] [3]) := by
  refine ⟨cycleFree_twoDependent [3] (by simp), fun ⟨bound, hbound⟩ => ?_⟩
  obtain ⟨result, hrun, hiff⟩ := hbound (bound + 3) (by omega) []
  have hfalse : containsDependencyCycles twoDependent 1 (bound + 3) 1 (dependentJob [2] [3]) []
      = some (false, [dependencyCycleText 1 2]) := rfl
  rw [hfalse] at hrun
  obtain rfl := Option.some.inj hrun
  exact Bool.false_ne_true (hiff.mpr (follows_twoDependent [3]))

end ClusterScheduler.Qmaster
