import ClusterScheduler.Qmaster.JobFinish

/-!
# Completing a job

Releasing the successors of a job and giving back its place among the jobs of its
user belong to the end of its last unfinished task. The tasks end in any order,
and the sweep of the retention buries finished ones in between.

* `Call`, `Run` — the calls that end or bury a task, and sequences of them.
* `CompletedOnce` — the job is completed once when it has no unfinished task, and
  not before.
* `completedOnce_iff` — in which runs this holds in every state. It fails where the
  last unfinished task is one that never ran, and finished tasks are retained.
-/

namespace ClusterScheduler.Qmaster

open Foundation Sgeobj

/-! ## Runs -/

/-- A task is committed, or the sweep buries it. -/
inductive Call where
  | commit (mode : CommitMode) (taskId : ℕ)
  | buryJaTask (taskId : ℕ)

def Call.Enabled (conf : FinishedJobsConf) (jobs : MasterJobList) (n : ℕ) : Call → Prop
  | .commit mode t => ∃ job, jobs n = some job ∧ mode.Applies job t
  | .buryJaTask t => conf.retention = true ∧
      ∃ job, jobs n = some job ∧ ∃ task ∈ job.jaTasks, task.number = t ∧ task.status = jfinished

def Call.perform (σ : Sorter) (conf : FinishedJobsConf) (s : QmasterState) (n : ℕ) :
    Call → Option QmasterState
  | .commit mode t => sgeCommitJob σ conf s n t mode
  | .buryJaTask t => some (sgeBuryJaTask σ s n t)

inductive Run (σ : Sorter) (conf : FinishedJobsConf) (n : ℕ) (s₀ : QmasterState) :
    List (QmasterState × Call) → QmasterState → Prop where
  | nil : Run σ conf n s₀ [] s₀
  | snoc {trace : List (QmasterState × Call)} {s s' : QmasterState} {call : Call} :
      Run σ conf n s₀ trace s → call.Enabled conf s.jobs n →
      call.perform σ conf s n = some s' → Run σ conf n s₀ (trace ++ [(s, call)]) s'

/-! ## Completion -/

def HasUnfinished (jobs : MasterJobList) (n : ℕ) : Prop :=
  ∃ job, jobs n = some job ∧ ∃ x, ¬ TaskDone job x

/-- How often the successors of the job have been released, and how often the job has
been taken from its user. -/
def completionCounts (n : ℕ) (log : List Completion) : ℕ × ℕ :=
  (log.count (.releaseSuccessorJobs n), log.count (.suserUnregisterJob n))

structure CompletedOnce (n : ℕ) (s : QmasterState) : Prop where
  early : HasUnfinished s.jobs n → completionCounts n s.log = (0, 0)
  ended : ¬ HasUnfinished s.jobs n → completionCounts n s.log = (1, 1)

/-- A job with something to do, before any of the calls. -/
structure Submitted (n : ℕ) (s : QmasterState) : Prop where
  ok : JobsOk s.jobs
  unfinished : HasUnfinished s.jobs n
  counts : completionCounts n s.log = (0, 0)

/-- The call does not end the last unfinished task as one that never ran, while
finished tasks are retained. -/
def CompletesAtEnd (n : ℕ) (s : QmasterState) : Call → Prop
  | .commit .finishedFailed t =>
    ∀ job, s.jobs n = some job → (∀ x, x ≠ t → TaskDone job x) → job.jaTasks = []
  | _ => True

variable {σ : Sorter} {conf : FinishedJobsConf} {s s' s₀ : QmasterState} {job : Job}
  {n t : ℕ} {call : Call} {mode : CommitMode}

theorem completionCounts_append (n : ℕ) (log : List Completion) :
    completionCounts n (log ++ completions n) =
      ((completionCounts n log).1 + 1, (completionCounts n log).2 + 1) := by
  simp [completionCounts, completions]

theorem applies_not_done (ht : mode.Applies job t) : ¬ TaskDone job t := by
  rintro ⟨hu, hall⟩
  cases mode with
  | finishedFailed => exact hu ht
  | finishedFailedEe =>
    obtain ⟨task, hmem, hnum, hstatus⟩ := ht
    exact hstatus (hall task hmem hnum)

theorem TaskEnded.hasUnfinished {jobs jobs' : MasterJobList} (h : TaskEnded n t job jobs jobs') :
    HasUnfinished jobs' n ↔ ∃ x, x ≠ t ∧ ¬ TaskDone job x := by
  rcases h.job with ⟨hnone, hall⟩ | ⟨job', hjob', -, hdone⟩
  · refine iff_of_false ?_ ?_
    · rintro ⟨job', hjob', -⟩
      rw [hnone] at hjob'
      exact absurd hjob' (by simp)
    · rintro ⟨x, hx, hnot⟩
      exact hnot (hall x hx)
  · constructor
    · rintro ⟨job'', hjob'', x, hx⟩
      rw [hjob'] at hjob''
      cases hjob''
      rw [hdone, not_or] at hx
      exact ⟨x, hx.2, hx.1⟩
    · rintro ⟨x, hne, hx⟩
      exact ⟨job', hjob', x, by rw [hdone, not_or]; exact ⟨hx, hne⟩⟩

theorem completes_iff (hok : JobOk job) (hjob : s.jobs n = some job) (ht : mode.Applies job t) :
    (mode.Completes job t ↔ ∀ x, x ≠ t → TaskDone job x) ↔
      CompletesAtEnd n s (.commit mode t) := by
  cases mode with
  | finishedFailedEe => exact iff_of_true Iff.rfl trivial
  | finishedFailed =>
    have hne : ∀ task ∈ job.jaTasks, task.number ≠ t := fun task hmem heq =>
      hok.enrolled task hmem (heq ▸ ht)
    constructor
    · intro hiff job' hjob' hall
      rw [hjob] at hjob'
      cases hjob'
      rw [List.eq_nil_iff_forall_not_mem]
      intro task hmem
      exact hiff.mpr hall task.number (hne task hmem) (.inr ⟨task, hmem, rfl⟩)
    · intro hcond
      constructor
      · exact fun hnone x hx => taskDone_of_not_hasTask (hnone x hx)
      · rintro hall x hx (hu | ⟨task, hmem, -⟩)
        · exact (hall x hx).1 hu
        · rw [hcond job hjob hall] at hmem
          exact List.not_mem_nil hmem

theorem commit_completedOnce (hok : JobsOk s.jobs) (hjob : s.jobs n = some job)
    (ht : mode.Applies job t) (honce : CompletedOnce n s)
    (h : sgeCommitJob σ conf s n t mode = some s') :
    CompletedOnce n s' ↔ CompletesAtEnd n s (.commit mode t) := by
  have hjok := hok n job hjob
  obtain ⟨hended, hcompleted, hnot⟩ := sgeCommitJob_spec hok hjob ht h
  have hzero := honce.early ⟨job, hjob, t, applies_not_done ht⟩
  have hleft : HasUnfinished s'.jobs n ↔ ¬ ∀ x, x ≠ t → TaskDone job x := by
    rw [hended.hasUnfinished]
    push Not
    rfl
  rw [← completes_iff hjok hjob ht]
  by_cases hc : mode.Completes job t
  · have hone : completionCounts n s'.log = (1, 1) := by
      rw [hcompleted hc, completionCounts_append, hzero]
    constructor
    · intro honce'
      refine iff_of_true hc ?_
      by_contra hun
      have := honce'.early (hleft.mpr hun)
      rw [hone] at this
      exact absurd this (by decide)
    · intro hiff
      exact ⟨fun hun => absurd (hiff.mp hc) (hleft.mp hun), fun _ => hone⟩
  · have hzero' : completionCounts n s'.log = (0, 0) := by
      rw [hnot hc, hzero]
    constructor
    · intro honce'
      refine iff_of_false hc fun hall => ?_
      have := honce'.ended (fun hun => hleft.mp hun hall)
      rw [hzero'] at this
      exact absurd this (by decide)
    · intro hiff
      refine ⟨fun _ => hzero', fun hun => ?_⟩
      rw [hleft, not_not] at hun
      exact absurd (hiff.mpr hun) hc

/-- **One call.** It keeps the jobs in order, and a job that is completed once so far
stays so exactly if the call ends it rightly. -/
theorem perform_completedOnce (hok : JobsOk s.jobs) (henabled : call.Enabled conf s.jobs n)
    (h : call.perform σ conf s n = some s') :
    JobsOk s'.jobs ∧
      (CompletedOnce n s → (CompletedOnce n s' ↔ CompletesAtEnd n s call)) := by
  cases call with
  | commit mode t =>
    obtain ⟨job, hjob, ht⟩ := henabled
    exact ⟨(sgeCommitJob_spec hok hjob ht h).1.ok, fun honce =>
      commit_completedOnce hok hjob ht honce h⟩
  | buryJaTask t =>
    obtain ⟨-, job, hjob, task, hmem, rfl, hstatus⟩ := henabled
    have hjok := hok n job hjob
    obtain ⟨hended, hlog⟩ := sgeBuryJaTask_spec (σ := σ) hok hjob (.inr ⟨task, hmem, rfl⟩)
    cases h
    have hdone : TaskDone job task.number := by
      refine ⟨hjok.enrolled task hmem, fun y hy hnum => ?_⟩
      have hfind := hjok.search_of_mem hy
      rw [hnum, hjok.search_of_mem hmem] at hfind
      exact Option.some.inj hfind ▸ hstatus
    have hsame : HasUnfinished (sgeBuryJaTask σ s n task.number).jobs n ↔
        HasUnfinished s.jobs n := by
      rw [hended.hasUnfinished]
      constructor
      · rintro ⟨x, -, hx⟩
        exact ⟨job, hjob, x, hx⟩
      · rintro ⟨job', hjob', x, hx⟩
        rw [hjob] at hjob'
        cases hjob'
        exact ⟨x, fun heq => hx (heq ▸ hdone), hx⟩
    refine ⟨hended.ok, fun honce => iff_of_true ⟨?_, ?_⟩ trivial⟩
    · rw [hsame, hlog]
      exact honce.early
    · rw [hsame, hlog]
      exact honce.ended

/-- If a call from a state of the kind keeps the property exactly when it meets the condition, the
property holds all along a run exactly when all calls do. -/
theorem Run.holds_iff {I P : QmasterState → Prop} {L : QmasterState → Call → Prop}
    {trace : List (QmasterState × Call)} (hrun : Run σ conf n s₀ trace s) (hI : I s₀) (hP : P s₀)
    (hcall : ∀ s call s', I s → call.Enabled conf s.jobs n → call.perform σ conf s n = some s' →
      I s' ∧ (P s → (P s' ↔ L s call))) :
    ((∀ e ∈ trace, P e.1) ∧ P s) ↔ ∀ e ∈ trace, L e.1 e.2 := by
  suffices h : I s ∧ (((∀ e ∈ trace, P e.1) ∧ P s) ↔ ∀ e ∈ trace, L e.1 e.2) from h.2
  induction hrun with
  | nil => exact ⟨hI, by simp [hP]⟩
  | @snoc trace s s' call _ henabled hperform ih =>
    obtain ⟨hs, hiff⟩ := ih
    obtain ⟨hs', hstep⟩ := hcall s call s' hs henabled hperform
    refine ⟨hs', ?_⟩
    simp only [List.forall_mem_append, List.forall_mem_singleton, ← hiff]
    constructor
    · rintro ⟨⟨hall, hholds⟩, hholds'⟩
      exact ⟨⟨hall, hholds⟩, (hstep hholds).mp hholds'⟩
    · rintro ⟨⟨hall, hholds⟩, hmeets⟩
      exact ⟨⟨hall, hholds⟩, (hstep hholds).mpr hmeets⟩

/-- **Completion.** In every run the job is completed once, in the call that ends its
last unfinished task and in no other, exactly if no call ends the last unfinished
task as one that never ran while finished tasks are retained. -/
theorem completedOnce_iff {trace : List (QmasterState × Call)} (h₀ : Submitted n s₀)
    (hrun : Run σ conf n s₀ trace s) :
    ((∀ e ∈ trace, CompletedOnce n e.1) ∧ CompletedOnce n s) ↔
      ∀ e ∈ trace, CompletesAtEnd n e.1 e.2 := by
  have honce : CompletedOnce n s₀ := ⟨fun _ => h₀.counts, fun h => absurd h₀.unfinished h⟩
  exact hrun.holds_iff (I := fun s => JobsOk s.jobs) h₀.ok honce
    fun _ _ _ hok henabled hperform => perform_completedOnce hok henabled hperform

/-! ## A job with a task of either kind

Task 1 is running, task 2 is an id without a hold. -/

def twoTasks : Job where
  owner := "user"
  isArray := true
  jaStructure := [⟨1, 2, 1⟩]
  ids := fun attr => if attr = .nHIds then some [⟨2, 2, 1⟩] else none
  jaTasks := [⟨1, 0x80, 0x80, 0, []⟩]
  jidPredecessorList := []
  jidSuccessorList := []
  jaAdRequestList := []
  jaAdPredecessorList := []
  jaAdSuccessorList := []

def twoTasksState : QmasterState where
  jobs := fun n => if n = 1 then some twoTasks else none
  suserJobs := fun owner => if owner = "user" then some 1 else none
  log := []

theorem twoTasks_ids (attr : IdAttribute) (x : ℕ) :
    Has (twoTasks.idList attr) x ↔ attr = .nHIds ∧ x = 2 := by
  by_cases ha : attr = .nHIds
  · subst ha
    simp [Job.idList, twoTasks, onGrid_self]
  · simp [Job.idList, twoTasks, ha]

theorem twoTasks_ok : JobOk twoTasks where
  idLists := by
    intro attr
    by_cases ha : attr = .nHIds
    · subst ha
      refine ⟨⟨?_, ?_⟩, ?_, fun x hx => ?_⟩
      · intro r hr
        rw [show twoTasks.idList .nHIds = [⟨2, 2, 1⟩] from rfl, List.mem_singleton] at hr
        exact hr ▸ aligned_single (by decide)
      · exact List.pairwise_singleton _ _
      · intro r hr
        rw [show twoTasks.idList .nHIds = [⟨2, 2, 1⟩] from rfl, List.mem_singleton] at hr
        exact hr ▸ fun _ => rfl
      · obtain ⟨-, rfl⟩ := (twoTasks_ids _ x).mp hx
        decide
    · have : twoTasks.idList attr = [] := by simp [Job.idList, twoTasks, ha]
      exact this ▸ IdList.nil
  held := fun attr hne x hx => absurd ((twoTasks_ids attr x).mp hx).1 hne
  numbers := by decide
  taskIds := by decide
  enrolled := by decide +kernel

theorem twoTasks_submitted : Submitted 1 twoTasksState where
  ok := by
    intro n job hjob
    simp only [twoTasksState] at hjob
    split at hjob
    · exact Option.some.inj hjob ▸ twoTasks_ok
    · exact absurd hjob (by simp)
  unfinished := ⟨twoTasks, rfl, 2, fun h => h.1 ⟨.nHIds, (twoTasks_ids _ 2).mpr ⟨rfl, rfl⟩⟩⟩
  counts := by decide

/-- The log, and the ids and enrolled tasks that are left of a job. -/
structure StateView where
  log : List Completion
  job : Option (List (Option (List Range)) × List JaTask)
  deriving DecidableEq

def QmasterState.view (s : QmasterState) (n : ℕ) : StateView where
  log := s.log
  job := (s.jobs n).map fun job => (idAttributes.map job.ids, job.jaTasks)

theorem exists_of_view {calls : Option QmasterState} {v : StateView}
    (h : calls.map (QmasterState.view · n) = some v) :
    ∃ s, calls = some s ∧ s.view n = v := Option.map_eq_some_iff.mp h

/-- Two calls, the second one in the state after the first. -/
theorem Run.pair {call₁ call₂ : Call} (h₁ : call₁.Enabled conf s₀.jobs n)
    (hs : call₁.perform σ conf s₀ n = some s) (h₂ : call₂.Enabled conf s.jobs n)
    (hs' : call₂.perform σ conf s n = some s') : Run σ conf n s₀ [(s₀, call₁), (s, call₂)] s' :=
  .snoc (.snoc .nil h₁ hs) h₂ hs'

theorem applies_of_view {log : List Completion} {l : List Range} {rest : List (Option (List Range))}
    {jaTasks : List JaTask} (hv : s.view n = ⟨log, some (some l :: rest, jaTasks)⟩)
    (ht : Has l t) : (Call.commit .finishedFailed t).Enabled conf s.jobs n := by
  obtain ⟨-, hjob⟩ := StateView.mk.inj hv
  obtain ⟨job, hjob, heq⟩ := Option.map_eq_some_iff.mp hjob
  have hlist : job.ids .nHIds = some l := (List.cons.inj (Prod.mk.inj heq).1).1
  exact ⟨job, hjob, .nHIds, by rwa [Job.idList, hlist]⟩

/-- **A completion is lost.** With retention the running task ends first and stays as
finished. The other one is deleted then, it is the last unfinished task, and nothing
is carried out for the end of the job. -/
theorem completion_lost : Submitted 1 twoTasksState ∧ ∃ s₁ s₂,
    Run sortByMin ⟨3600, 0⟩ 1 twoTasksState
      [(twoTasksState, .commit .finishedFailedEe 1), (s₁, .commit .finishedFailed 2)] s₂ ∧
    ¬ HasUnfinished s₂.jobs 1 ∧ s₂.log = [] ∧ ¬ CompletedOnce 1 s₂ := by
  refine ⟨twoTasks_submitted, ?_⟩
  obtain ⟨s₁, h₁, hv₁⟩ := exists_of_view (n := 1) (v := ⟨[], some
      ([some [⟨2, 2, 1⟩], none, none, none, none], [⟨1, 0x10000, 0x80, 0, []⟩])⟩)
    (show (Call.perform sortByMin ⟨3600, 0⟩ twoTasksState 1
      (.commit .finishedFailedEe 1)).map _ = _ by decide +kernel)
  obtain ⟨s₂, h₂, hv₂⟩ := exists_of_view (n := 1) (v := ⟨[], some
      ([none, none, none, none, none], [⟨1, 0x10000, 0x80, 0, []⟩])⟩)
    (show ((Call.perform sortByMin ⟨3600, 0⟩ twoTasksState 1
      (.commit .finishedFailedEe 1)).bind fun s => Call.perform sortByMin ⟨3600, 0⟩ s 1
      (.commit .finishedFailed 2)).map _ = _ by decide +kernel)
  rw [h₁, Option.bind_some] at h₂
  have hone : (Call.commit .finishedFailedEe 1).Enabled ⟨3600, 0⟩ twoTasksState.jobs 1 :=
    ⟨twoTasks, rfl, _, .head _, rfl, by decide⟩
  have htwo : (Call.commit .finishedFailed 2).Enabled ⟨3600, 0⟩ s₁.jobs 1 :=
    applies_of_view hv₁ (by simp [onGrid_self])
  obtain ⟨hlog, hjob⟩ := StateView.mk.inj hv₂
  suffices hdone : ¬ HasUnfinished s₂.jobs 1 by
    refine ⟨s₁, s₂, .pair hone h₁ htwo h₂, hdone, hlog, fun honce => ?_⟩
    have hcounts := honce.ended hdone
    rw [show s₂.log = [] from hlog] at hcounts
    exact absurd hcounts (by decide)
  rintro ⟨job, hjob', x, hx⟩
  rw [hjob'] at hjob
  obtain ⟨hids, htasks⟩ := Prod.mk.inj (Option.some.inj hjob)
  refine hx (allDone_iff.mpr ⟨?_, ?_⟩ x)
  · refine Set.eq_empty_of_forall_notMem ?_
    rintro y ⟨attr, hy⟩
    have hnone : ∀ l ∈ idAttributes.map job.ids, l = none := by
      rw [hids]
      decide
    have := hnone _ (List.mem_map_of_mem (mem_idAttributes attr))
    rw [Job.idList, this] at hy
    exact has_nil y hy
  · rw [htasks]
    decide

/-- In the other order the job is completed: the running task is the last one. -/
theorem completion_reached : ∃ s₁ s₂, CompletedOnce 1 s₁ ∧ CompletedOnce 1 s₂ ∧
      s₂.log = [.releaseSuccessorJobs 1, .suserUnregisterJob 1] := by
  obtain ⟨s₁, h₁, hv₁⟩ := exists_of_view (n := 1) (v := ⟨[], some
      ([none, none, none, none, none], [⟨1, 0x80, 0x80, 0, []⟩])⟩)
    (show (Call.perform sortByMin ⟨3600, 0⟩ twoTasksState 1
      (.commit .finishedFailed 2)).map _ = _ by decide +kernel)
  obtain ⟨s₂, h₂, hv₂⟩ := exists_of_view (n := 1) (v :=
      ⟨[.releaseSuccessorJobs 1, .suserUnregisterJob 1], some
        ([none, none, none, none, none], [⟨1, 0x10000, 0x80, 0, []⟩])⟩)
    (show ((Call.perform sortByMin ⟨3600, 0⟩ twoTasksState 1
      (.commit .finishedFailed 2)).bind fun s => Call.perform sortByMin ⟨3600, 0⟩ s 1
      (.commit .finishedFailedEe 1)).map _ = _ by decide +kernel)
  rw [h₁, Option.bind_some] at h₂
  have hone : (Call.commit .finishedFailed 2).Enabled ⟨3600, 0⟩ twoTasksState.jobs 1 :=
    ⟨twoTasks, rfl, .nHIds, (twoTasks_ids _ 2).mpr ⟨rfl, rfl⟩⟩
  have htwo : (Call.commit .finishedFailedEe 1).Enabled ⟨3600, 0⟩ s₁.jobs 1 := by
    obtain ⟨-, hjob⟩ := StateView.mk.inj hv₁
    obtain ⟨job, hjob, heq⟩ := Option.map_eq_some_iff.mp hjob
    refine ⟨job, hjob, ⟨1, 0x80, 0x80, 0, []⟩, ?_, rfl, by decide⟩
    rw [(Prod.mk.inj heq).2]
    exact .head _
  have hends : ∀ e ∈ [(twoTasksState, Call.commit .finishedFailed 2),
      (s₁, .commit .finishedFailedEe 1)], CompletesAtEnd 1 e.1 e.2 := by
    refine List.forall_mem_cons.mpr ⟨fun job hjob hall => ?_, by simp [CompletesAtEnd]⟩
    obtain rfl := Option.some.inj hjob
    exact absurd ((hall 1 (by decide)).2 _ (.head _) rfl) (by decide)
  obtain ⟨hall, honce⟩ :=
    (completedOnce_iff twoTasks_submitted (.pair hone h₁ htwo h₂)).mpr hends
  exact ⟨s₁, s₂, hall (s₁, .commit .finishedFailedEe 1) (by simp), honce, (StateView.mk.inj hv₂).1⟩

end ClusterScheduler.Qmaster
