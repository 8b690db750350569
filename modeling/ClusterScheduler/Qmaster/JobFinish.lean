import ClusterScheduler.Foundation.PartialFold
import ClusterScheduler.Qmaster.TaskDepend

/-!
# Finishing and burying tasks

A task ends in two steps. Finishing releases the tasks and jobs that wait for it
and notices the end of the whole job, burying removes the task. Where finished
jobs are retained an enrolled task is only marked and finished, a sweep buries it
later.

* `QmasterState` — the jobs, the counters of the submit users, and the
  completions of jobs that have been carried out.
* `sgeFinishJaTask`, `sgeBuryJaTask`, `sgeCommitJob` — the functions of the source.
* `Keeps` — the releases change holds and predecessors only.
* `sgeFinishJaTask_spec` — a finish completes the job or leaves it alone.
-/

namespace ClusterScheduler.Qmaster

open Foundation Sgeobj

/-! ## State -/

/-- What is carried out once for a job. -/
inductive Completion where
  | releaseSuccessorJobs (jobId : ℕ)
  | suserUnregisterJob (jobId : ℕ)
  deriving DecidableEq

/-- `suserJobs` counts the jobs of the submit users that are known. -/
structure QmasterState where
  jobs : MasterJobList
  suserJobs : String → Option ℕ
  log : List Completion

/-- The configuration of the retention of finished jobs. -/
structure FinishedJobsConf where
  keepTime : ℕ
  max : ℕ

def FinishedJobsConf.retention (conf : FinishedJobsConf) : Bool :=
  0 < conf.keepTime || 0 < conf.max

/-! ## Releasing successors -/

/-- Remove a job from the predecessors of one array successor, and flush that one if it was
among them. -/
def unlinkSuccessorAd (σ : Sorter) (jobId : ℕ) (jobs : MasterJobList) (suc : ℕ) :
    MasterJobList :=
  match jobs suc with
  | none => jobs
  | some sucJep =>
    if jobId ∈ sucJep.jaAdPredecessorList then
      jobs.set suc (sgeTaskDependFlush σ { sucJep with
        jaAdPredecessorList := sucJep.jaAdPredecessorList.erase jobId }).1
    else jobs

def releaseSuccessorJobsAd (σ : Sorter) (jobs : MasterJobList) (jobId : ℕ) : MasterJobList :=
  match jobs jobId with
  | none => jobs
  | some jep => jep.jaAdSuccessorList.foldl (unlinkSuccessorAd σ jobId) jobs

/-- Update the tasks of the array successors that wait for a task. -/
def releaseSuccessorTasksAd (σ : Sorter) (jobs : MasterJobList) (jobId taskId : ℕ) :
    Option MasterJobList :=
  match jobs jobId with
  | none => some jobs
  | some jep => jep.jaAdSuccessorList.foldlM (fun jobs suc =>
    match jobs suc with
    | none => some jobs
    | some sucJep =>
      match sgeTaskDependGetRange sucJep jep taskId with
      | none => some jobs
      | some sucRange => (updateLoop σ suc (rangeIds sucRange) jobs).map Prod.fst) jobs

def releaseSuccessorJobs (s : QmasterState) (jobId : ℕ) : QmasterState :=
  match s.jobs jobId with
  | none => s
  | some jep =>
    { s with
      jobs := jep.jidSuccessorList.foldl (fun jobs suc =>
        match jobs suc with
        | none => jobs
        | some sucJep => jobs.set suc { sucJep with
            jidPredecessorList := sucJep.jidPredecessorList.erase jobId }) s.jobs
      log := s.log ++ [.releaseSuccessorJobs jobId] }

def suserUnregisterJob (s : QmasterState) (jobId : ℕ) : QmasterState :=
  match s.jobs jobId with
  | none => s
  | some job =>
    { s with
      suserJobs := fun owner =>
        if owner = job.owner then (s.suserJobs owner).map (· - 1) else s.suserJobs owner
      log := s.log ++ [.suserUnregisterJob jobId] }

/-! ## Finishing and burying -/

def jobDone (σ : Sorter) (job : Job) : Bool :=
  jobGetJaTasks σ job = 1 ||
    (jobGetNotEnrolledJaTasks σ job = 0 && job.jaTasks.all (·.status = jfinished))

def sgeFinishJaTask (σ : Sorter) (s : QmasterState) (jobId jaTaskId : ℕ) :
    Option QmasterState := do
  let jobs := releaseSuccessorJobsAd σ s.jobs jobId
  let jobs ← releaseSuccessorTasksAd σ jobs jobId jaTaskId
  let s := { s with jobs := jobs }
  match jobs jobId with
  | none => some s
  | some job =>
    if jobDone σ job then some (suserUnregisterJob (releaseSuccessorJobs s jobId) jobId)
    else some s

def sgeBuryJaTask (σ : Sorter) (s : QmasterState) (jobId jaTaskId : ℕ) : QmasterState :=
  match s.jobs jobId with
  | none => s
  | some job =>
    if jobGetJaTasks σ job = 1 then { s with jobs := Function.update s.jobs jobId none }
    else if jobIsEnrolled job jaTaskId then
      let job := { job with jaTasks := job.jaTasks.eraseP (·.number = jaTaskId) }
      { s with jobs := s.jobs.set jobId job }
    else { s with jobs := s.jobs.set jobId (jobDeleteNotEnrolledJaTask job jaTaskId) }

def sgeBuryJob (σ : Sorter) (s : QmasterState) (jobId jaTaskId : ℕ) : Option QmasterState :=
  (sgeFinishJaTask σ s jobId jaTaskId).map (sgeBuryJaTask σ · jobId jaTaskId)

def peTaskPastUsageContainer : String := "past_usage"

/-- The part of it that changes the task. -/
def sgeClearGrantedResources (jaTask : JaTask) : JaTask := { jaTask with taskList := [] }

def foldPeTasks (jaTask : JaTask) : JaTask :=
  { jaTask with
    taskList := if jaTask.taskList = [] then [] else [peTaskPastUsageContainer] }

def setFinished (jaTask : JaTask) : JaTask := { jaTask with status := jfinished }

def changeTask (jobs : MasterJobList) (jobId jaTaskId : ℕ) (f : JaTask → JaTask) :
    MasterJobList :=
  match jobs jobId with
  | none => jobs
  | some job => jobs.set jobId { job with jaTasks := modifyTask jaTaskId f job.jaTasks }

/-- The two ways a task ends: as an id that never ran, and enrolled. -/
inductive CommitMode where
  | finishedFailed
  | finishedFailedEe

def sgeCommitJob (σ : Sorter) (conf : FinishedJobsConf) (s : QmasterState)
    (jobId jaTaskId : ℕ) : CommitMode → Option QmasterState
  | .finishedFailed => sgeBuryJob σ s jobId jaTaskId
  | .finishedFailedEe =>
    let jobs := changeTask s.jobs jobId jaTaskId setFinished
    let released :=
      if jaTaskId ≠ 0 then releaseSuccessorTasksAd σ jobs jobId jaTaskId else some jobs
    released.bind fun jobs =>
      let jobs := changeTask jobs jobId jaTaskId sgeClearGrantedResources
      if conf.retention then
        sgeFinishJaTask σ { s with jobs := changeTask jobs jobId jaTaskId foldPeTasks }
          jobId jaTaskId
      else sgeBuryJob σ { s with jobs := jobs } jobId jaTaskId

/-! ## What the releases keep -/

def JobsOk (jobs : MasterJobList) : Prop := ∀ n job, jobs n = some job → JobOk job

/-- The jobs and their tasks stay, holds and predecessors may change. -/
structure Keeps (jobs jobs' : MasterJobList) : Prop where
  some : ∀ n job, jobs n = some job →
    ∃ job', jobs' n = some job' ∧ JobOk job' ∧ SameTasks job job'
  none : ∀ n, jobs n = none → jobs' n = none

variable {σ : Sorter} {jobs jobs' : MasterJobList} {job : Job} {s s' : QmasterState} {n t : ℕ}

theorem Keeps.ok (h : Keeps jobs jobs') : JobsOk jobs' := by
  intro n job' hjob'
  cases hjob : jobs n with
  | none =>
    rw [h.none n hjob] at hjob'
    exact absurd hjob' (by simp)
  | some job =>
    obtain ⟨job'', hjob'', hok, -⟩ := h.some n job hjob
    rw [hjob''] at hjob'
    exact Option.some.inj hjob' ▸ hok

theorem Keeps.refl (hok : JobsOk jobs) : Keeps jobs jobs where
  some := fun n job hjob => ⟨job, hjob, hok n job hjob, SameTasks.refl job⟩
  none := fun _ => id

variable {jobs'' : MasterJobList}

theorem Keeps.trans (h : Keeps jobs jobs') (h' : Keeps jobs' jobs'') : Keeps jobs jobs'' where
  some := by
    intro n job hjob
    obtain ⟨job1, hjob1, -, hsame⟩ := h.some n job hjob
    obtain ⟨job2, hjob2, hok, hsame'⟩ := h'.some n job1 hjob1
    exact ⟨job2, hjob2, hok, hsame.trans hsame'⟩
  none := fun n hn => h'.none n (h.none n hn)

variable {job' : Job}

theorem keeps_set (hok : JobsOk jobs) (hjob : jobs n = some job)
    (hok' : JobOk job') (hsame : SameTasks job job') : Keeps jobs (jobs.set n job') where
  some := by
    intro m job'' hjob''
    by_cases hm : m = n
    · subst hm
      rw [hjob] at hjob''
      cases hjob''
      exact ⟨job', set_self jobs m job', hok', hsame⟩
    · exact ⟨job'', by rw [set_of_ne jobs job' hm, hjob''], hok m job'' hjob'',
        SameTasks.refl job''⟩
  none := by
    intro m hm
    have hne : m ≠ n := by
      rintro rfl
      rw [hjob] at hm
      exact absurd hm (by simp)
    rw [set_of_ne jobs job' hne, hm]

/-- What every step of a loop over successors keeps, the loop keeps. -/
theorem foldlM_keeps {f : MasterJobList → ℕ → Option MasterJobList}
    (hf : ∀ jobs jobs' n, JobsOk jobs → f jobs n = some jobs' → Keeps jobs jobs')
    (l : List ℕ) {jobs jobs' : MasterJobList} (hok : JobsOk jobs)
    (h : l.foldlM f jobs = some jobs') : Keeps jobs jobs' :=
  foldlM_preserves (fun jobs₁ n _ jobs₂ hone hkeeps =>
    hkeeps.trans (hf jobs₁ jobs₂ n hkeeps.ok hone)) (Keeps.refl hok) h

theorem foldl_keeps {f : MasterJobList → ℕ → MasterJobList}
    (hf : ∀ jobs n, JobsOk jobs → Keeps jobs (f jobs n)) (l : List ℕ)
    {jobs : MasterJobList} (hok : JobsOk jobs) : Keeps jobs (l.foldl f jobs) :=
  List.foldlRecOn l f (Keeps.refl hok) fun jobs₁ hkeeps n _ =>
    hkeeps.trans (hf jobs₁ n hkeeps.ok)

theorem same_preds (job : Job) (ad jid : List ℕ) :
    SameTasks job { job with jaAdPredecessorList := ad, jidPredecessorList := jid } :=
  ⟨⟨rfl, rfl, rfl, rfl⟩, rfl, rfl⟩

theorem jobOk_preds (h : JobOk job) (ad jid : List ℕ) :
    JobOk { job with jaAdPredecessorList := ad, jidPredecessorList := jid } :=
  h.of_same (same_preds job ad jid) h.idLists h.held

theorem flush_keeps (h : JobOk job) (ad : List ℕ) :
    JobOk (sgeTaskDependFlush σ { job with jaAdPredecessorList := ad }).1 ∧
      SameTasks job (sgeTaskDependFlush σ { job with jaAdPredecessorList := ad }).1 := by
  obtain ⟨ids, hcleared, -⟩ :=
    sgeTaskDependFlush_spec (σ := σ) (jobOk_preds h ad job.jidPredecessorList)
  exact ⟨hcleared.ok, (same_preds job ad job.jidPredecessorList).trans hcleared.same⟩

theorem unlinkSuccessorAd_keeps (hok : JobsOk jobs) (n suc : ℕ) :
    Keeps jobs (unlinkSuccessorAd σ n jobs suc) := by
  unfold unlinkSuccessorAd
  split
  · exact Keeps.refl hok
  · next sucJep hsuc =>
    split
    · obtain ⟨hok', hsame⟩ := flush_keeps (σ := σ) (hok suc sucJep hsuc)
        (sucJep.jaAdPredecessorList.erase n)
      exact keeps_set hok hsuc hok' hsame
    · exact Keeps.refl hok

theorem releaseSuccessorJobsAd_keeps (hok : JobsOk jobs) (n : ℕ) :
    Keeps jobs (releaseSuccessorJobsAd σ jobs n) := by
  unfold releaseSuccessorJobsAd
  split
  · exact Keeps.refl hok
  · exact foldl_keeps (fun jobs suc hok => unlinkSuccessorAd_keeps hok n suc) _ hok

theorem updateLoop_keeps {ids : List ℕ} {modified : Bool} (hok : JobsOk jobs)
    (hjob : jobs n = some job) (h : updateLoop σ n ids jobs = some (jobs', modified)) :
    Keeps jobs jobs' := by
  obtain ⟨job', rfl, hloop⟩ := updateLoop_spec hjob (hok n job hjob) h
  exact keeps_set hok hjob hloop.ok hloop.same

theorem releaseSuccessorTasksAd_keeps (hok : JobsOk jobs)
    (h : releaseSuccessorTasksAd σ jobs n t = some jobs') : Keeps jobs jobs' := by
  unfold releaseSuccessorTasksAd at h
  split at h
  · exact Option.some.inj h ▸ Keeps.refl hok
  · refine foldlM_keeps (fun jobs jobs' suc hok h => ?_) _ hok h
    split at h
    · exact Option.some.inj h ▸ Keeps.refl hok
    · next sucJep hsuc =>
      split at h
      · exact Option.some.inj h ▸ Keeps.refl hok
      · obtain ⟨⟨jobs1, m⟩, hloop, rfl⟩ := Option.map_eq_some_iff.mp h
        exact updateLoop_keeps hok hsuc hloop

theorem releaseSuccessorJobs_keeps (hok : JobsOk s.jobs) (n : ℕ) :
    Keeps s.jobs (releaseSuccessorJobs s n).jobs := by
  unfold releaseSuccessorJobs
  split
  · exact Keeps.refl hok
  · refine foldl_keeps (fun jobs suc hok => ?_) _ hok
    split
    · exact Keeps.refl hok
    · next sucJep hsuc =>
      exact keeps_set hok hsuc (jobOk_preds (hok suc sucJep hsuc) _ _) (same_preds sucJep _ _)

@[simp] theorem suserUnregisterJob_jobs (s : QmasterState) (n : ℕ) :
    (suserUnregisterJob s n).jobs = s.jobs := by
  unfold suserUnregisterJob
  split <;> rfl

theorem suserUnregisterJob_log (hjob : s.jobs n = some job) :
    (suserUnregisterJob s n).log = s.log ++ [.suserUnregisterJob n] := by
  rw [suserUnregisterJob, hjob]

theorem releaseSuccessorJobs_log (hjob : s.jobs n = some job) :
    (releaseSuccessorJobs s n).log = s.log ++ [.releaseSuccessorJobs n] := by
  rw [releaseSuccessorJobs, hjob]

/-! ## A finish completes the job or leaves it alone -/

/-- The end of a job as it is recognised: it has one task only, or all its tasks are
enrolled and finished. -/
def Ended (job : Job) : Prop :=
  job.unenrolled.ncard + job.jaTasks.length = 1 ∨ ∀ x, TaskDone job x

theorem allDone_iff : (∀ x, TaskDone job x) ↔
    job.unenrolled = ∅ ∧ ∀ task ∈ job.jaTasks, task.status = jfinished := by
  constructor
  · intro h
    exact ⟨Set.eq_empty_of_forall_notMem fun x => (h x).1,
      fun task ht => (h task.number).2 task ht rfl⟩
  · rintro ⟨hempty, hall⟩ x
    exact ⟨hempty ▸ Set.notMem_empty x, fun task ht _ => hall task ht⟩

theorem jobDone_iff (hok : JobOk job) : jobDone σ job = true ↔ Ended job := by
  rw [jobDone, Ended, allDone_iff, Bool.or_eq_true, decide_eq_true_iff, hok.jaTasks_eq,
    hok.notEnrolled_eq, Bool.and_eq_true, decide_eq_true_iff,
    Set.ncard_eq_zero hok.unenrolled_finite, List.all_eq_true]
  simp only [decide_eq_true_iff]

theorem ended_same (h : SameTasks job job') : Ended job' ↔ Ended job := by
  have hlen : job'.jaTasks.length = job.jaTasks.length := by
    simpa using congrArg List.length h.jaTasks
  rw [Ended, Ended, h.unenrolled, hlen, forall_congr' fun x => taskDone_same h]

def completions (n : ℕ) : List Completion := [.releaseSuccessorJobs n, .suserUnregisterJob n]

theorem sgeFinishJaTask_spec (hok : JobsOk s.jobs) (hjob : s.jobs n = some job)
    (h : sgeFinishJaTask σ s n t = some s') :
    Keeps s.jobs s'.jobs ∧ (Ended job → s'.log = s.log ++ completions n) ∧
      (¬ Ended job → s'.log = s.log) := by
  obtain ⟨jobs, htasks, h⟩ := Option.bind_eq_some_iff.mp h
  have hkeeps := releaseSuccessorJobsAd_keeps (σ := σ) hok n
  have hkeeps' := hkeeps.trans (releaseSuccessorTasksAd_keeps hkeeps.ok htasks)
  obtain ⟨job', hjob', hok', hsame⟩ := hkeeps'.some n job hjob
  simp only [hjob'] at h
  split at h
  · next hdone =>
    rw [jobDone_iff hok', ended_same hsame] at hdone
    have hrelease := releaseSuccessorJobs_keeps (s := { s with jobs := jobs }) hkeeps'.ok n
    obtain ⟨job'', hjob'', -⟩ := hrelease.some n job' hjob'
    rw [← Option.some.inj h]
    refine ⟨?_, fun _ => ?_, fun hnot => absurd hdone hnot⟩
    · rw [suserUnregisterJob_jobs]
      exact hkeeps'.trans hrelease
    · rw [suserUnregisterJob_log hjob'', releaseSuccessorJobs_log hjob', List.append_assoc]
      rfl
  · next hdone =>
    rw [jobDone_iff hok', ended_same hsame] at hdone
    rw [← Option.some.inj h]
    exact ⟨hkeeps', fun hended => absurd hended hdone, fun _ => rfl⟩

/-! ## Ending a task -/

/-- Task `t` of job `n` has ended, the other tasks and jobs are as before. The job is
gone when it had no other task. -/
structure TaskEnded (n t : ℕ) (job : Job) (jobs jobs' : MasterJobList) : Prop where
  ok : JobsOk jobs'
  others : ∀ m, m ≠ n → ∀ job, jobs m = some job →
    ∃ job', jobs' m = some job' ∧ SameTasks job job'
  job : (jobs' n = none ∧ ∀ x, x ≠ t → TaskDone job x) ∨
    ∃ job', jobs' n = some job' ∧ SameSubmit job job' ∧
      ∀ x, TaskDone job' x ↔ TaskDone job x ∨ x = t

/-- Holds and predecessors change before the task ends. -/
theorem TaskEnded.of_keeps (hkeeps : Keeps jobs jobs')
    (hsame : SameTasks job job') (h : TaskEnded n t job' jobs' jobs'') :
    TaskEnded n t job jobs jobs'' where
  ok := h.ok
  others := by
    intro m hne jobm hjobm
    obtain ⟨job1, hjob1, -, hsame1⟩ := hkeeps.some m jobm hjobm
    obtain ⟨job2, hjob2, hsame2⟩ := h.others m hne job1 hjob1
    exact ⟨job2, hjob2, hsame1.trans hsame2⟩
  job := by
    rcases h.job with ⟨hnone, hall⟩ | ⟨job2, hjob2, hsubmit, hdone⟩
    · exact .inl ⟨hnone, fun x hx => (taskDone_same hsame).mp (hall x hx)⟩
    · refine .inr ⟨job2, hjob2, hsame.toSameSubmit.trans hsubmit, fun x => ?_⟩
      rw [hdone, taskDone_same hsame]

/-- Holds and predecessors change after the task has ended. -/
theorem TaskEnded.keeps (h : TaskEnded n t job jobs jobs')
    (hkeeps : Keeps jobs' jobs'') : TaskEnded n t job jobs jobs'' where
  ok := hkeeps.ok
  others := by
    intro m hne jobm hjobm
    obtain ⟨job1, hjob1, hsame1⟩ := h.others m hne jobm hjobm
    obtain ⟨job2, hjob2, -, hsame2⟩ := hkeeps.some m job1 hjob1
    exact ⟨job2, hjob2, hsame1.trans hsame2⟩
  job := by
    rcases h.job with ⟨hnone, hall⟩ | ⟨job1, hjob1, hsubmit, hdone⟩
    · exact .inl ⟨hkeeps.none n hnone, hall⟩
    · obtain ⟨job2, hjob2, -, hsame⟩ := hkeeps.some n job1 hjob1
      refine .inr ⟨job2, hjob2, hsubmit.trans hsame.toSameSubmit, fun x => ?_⟩
      rw [taskDone_same hsame, hdone]

theorem TaskEnded.again (h : TaskEnded n t job jobs jobs') (hjob' : jobs' n = some job')
    (h' : TaskEnded n t job' jobs' jobs'') : TaskEnded n t job jobs jobs'' where
  ok := h'.ok
  others := by
    intro m hne jobm hjobm
    obtain ⟨job1, hjob1, hsame1⟩ := h.others m hne jobm hjobm
    obtain ⟨job2, hjob2, hsame2⟩ := h'.others m hne job1 hjob1
    exact ⟨job2, hjob2, hsame1.trans hsame2⟩
  job := by
    obtain ⟨job1, hjob1, hsubmit, hdone⟩ := h.job.resolve_left fun hleft => by
      rw [hleft.1] at hjob'
      exact absurd hjob' (by simp)
    rw [hjob1] at hjob'
    cases hjob'
    rcases h'.job with ⟨hnone, hall⟩ | ⟨job2, hjob2, hsubmit2, hdone2⟩
    · exact .inl ⟨hnone, fun x hx => ((hdone x).mp (hall x hx)).resolve_right hx⟩
    · refine .inr ⟨job2, hjob2, hsubmit.trans hsubmit2, fun x => ?_⟩
      rw [hdone2, hdone, or_assoc, or_self]

theorem taskEnded_set (hok : JobsOk jobs) (hok' : JobOk job')
    (hsubmit : SameSubmit job job') (hdone : ∀ x, TaskDone job' x ↔ TaskDone job x ∨ x = t) :
    TaskEnded n t job jobs (jobs.set n job') where
  ok := by
    intro m jobm hjobm
    by_cases hm : m = n
    · subst hm
      rw [set_self] at hjobm
      exact Option.some.inj hjobm ▸ hok'
    · rw [set_of_ne jobs job' hm] at hjobm
      exact hok m jobm hjobm
  others := fun m hne jobm hjobm =>
    ⟨jobm, by rw [set_of_ne jobs job' hne, hjobm], SameTasks.refl jobm⟩
  job := .inr ⟨job', set_self jobs n job', hsubmit, hdone⟩

theorem taskEnded_remove (hok : JobsOk jobs) (hall : ∀ x, x ≠ t → TaskDone job x) :
    TaskEnded n t job jobs (Function.update jobs n none) where
  ok := by
    intro m jobm hjobm
    by_cases hm : m = n
    · subst hm
      simp at hjobm
    · rw [Function.update_of_ne hm] at hjobm
      exact hok m jobm hjobm
  others := fun m hne jobm hjobm =>
    ⟨jobm, by rw [Function.update_of_ne hne, hjobm], SameTasks.refl jobm⟩
  job := .inl ⟨Function.update_self n none jobs, hall⟩

variable {l : List JaTask} {y : JaTask}

theorem mem_eraseP_number (hnodup : (l.map JaTask.number).Nodup) :
    y ∈ l.eraseP (·.number = t) ↔ y ∈ l ∧ y.number ≠ t := by
  induction l with
  | nil => simp
  | cons z l ih =>
    rw [List.map_cons, List.nodup_cons] at hnodup
    by_cases hz : z.number = t
    · rw [List.eraseP_cons_of_pos (by simpa using hz)]
      constructor
      · intro hy
        exact ⟨.tail _ hy, fun h =>
          hnodup.1 (hz ▸ h ▸ List.mem_map_of_mem hy)⟩
      · rintro ⟨hy, hne⟩
        exact (List.mem_cons.mp hy).resolve_left fun h => hne (h ▸ hz)
    · rw [List.eraseP_cons_of_neg (by simpa using hz), List.mem_cons, List.mem_cons, ih hnodup.2]
      constructor
      · rintro (rfl | ⟨hy, hne⟩)
        · exact ⟨.inl rfl, hz⟩
        · exact ⟨.inr hy, hne⟩
      · rintro ⟨rfl | hy, hne⟩
        · exact .inl rfl
        · exact .inr ⟨hy, hne⟩

variable {x : ℕ}

theorem only_task (hok : JobOk job) (htask : HasTask job t)
    (hone : job.unenrolled.ncard + job.jaTasks.length = 1) (hx : x ≠ t) : ¬ HasTask job x := by
  have hcard : ∀ y, y ∈ job.unenrolled → 0 < job.unenrolled.ncard := fun y hy =>
    (Set.ncard_pos hok.unenrolled_finite).mpr ⟨y, hy⟩
  rintro (hx' | ⟨y, hy, rfl⟩)
  · have hpos := hcard _ hx'
    rcases htask with ht | ⟨z, hz, -⟩
    · obtain ⟨a, ha⟩ := Set.ncard_eq_one.mp (show job.unenrolled.ncard = 1 by omega)
      rw [ha] at hx' ht
      exact hx (hx'.trans ht.symm)
    · have := List.length_pos_of_mem hz
      omega
  · have hpos := List.length_pos_of_mem hy
    rcases htask with ht | ⟨z, hz, rfl⟩
    · have := hcard _ ht
      omega
    · obtain ⟨a, ha⟩ := List.length_eq_one_iff.mp (show job.jaTasks.length = 1 by omega)
      rw [ha, List.mem_singleton] at hy hz
      exact hx (by rw [hy, hz])

theorem taskDone_of_not_hasTask (hx : ¬ HasTask job x) : TaskDone job x :=
  ⟨fun h => hx (.inl h), fun task ht hnum => absurd (.inr ⟨task, ht, hnum⟩) hx⟩

/-- **Burying** removes the task, and the job with its last one. -/
theorem sgeBuryJaTask_spec (hok : JobsOk s.jobs) (hjob : s.jobs n = some job)
    (htask : HasTask job t) :
    TaskEnded n t job s.jobs (sgeBuryJaTask σ s n t).jobs ∧
      (sgeBuryJaTask σ s n t).log = s.log := by
  have hjok := hok n job hjob
  rw [sgeBuryJaTask, hjob]
  dsimp only
  rw [hjok.jaTasks_eq]
  split
  · next hone =>
    refine ⟨taskEnded_remove hok fun x hx => ?_, rfl⟩
    exact taskDone_of_not_hasTask (only_task hjok htask hone hx)
  · split
    · next henrolled =>
      have hu := jobIsEnrolled_iff.mp henrolled
      have hmem : ∀ y, y ∈ job.jaTasks.eraseP (·.number = t) ↔
          y ∈ job.jaTasks ∧ y.number ≠ t := fun y => mem_eraseP_number hjok.numbers
      refine ⟨taskEnded_set hok ⟨hjok.idLists, hjok.held, ?_, ?_, ?_⟩ ⟨rfl, rfl, rfl, rfl⟩
        fun x => ?_, rfl⟩
      · exact hjok.numbers.sublist (List.eraseP_sublist.map JaTask.number)
      · exact fun y hy => hjok.taskIds y ((hmem y).mp hy).1
      · exact fun y hy => hjok.enrolled y ((hmem y).mp hy).1
      · constructor
        · rintro ⟨hx, hall⟩
          by_cases hxt : x = t
          · exact .inr hxt
          · exact .inl ⟨hx, fun y hy hnum => hall y ((hmem y).mpr ⟨hy, hnum ▸ hxt⟩) hnum⟩
        · rintro (⟨hx, hall⟩ | rfl)
          · exact ⟨hx, fun y hy hnum => hall y ((hmem y).mp hy).1 hnum⟩
          · exact ⟨hu, fun y hy hnum => absurd hnum ((hmem y).mp hy).2⟩
    · next henrolled =>
      have hu := jobIsEnrolled_false_iff.mp (by simpa using henrolled)
      refine ⟨taskEnded_set hok (hjok.delete t) ⟨rfl, rfl, rfl, rfl⟩ fun x => ?_, rfl⟩
      rw [TaskDone, delete_unenrolled hjok]
      constructor
      · rintro ⟨hx, hall⟩
        by_cases hxt : x = t
        · exact .inr hxt
        · exact .inl ⟨fun h => hx ⟨h, hxt⟩, hall⟩
      · rintro (⟨hx, hall⟩ | rfl)
        · exact ⟨fun h => hx h.1, hall⟩
        · exact ⟨fun h => h.2 rfl, fun y hy hnum => absurd (hnum ▸ hu) (hjok.enrolled y hy)⟩

/-! ## A commit ends a task -/

/-- A task that may be committed: an id that is not enrolled, or an enrolled task
that is not finished. -/
def CommitMode.Applies (job : Job) (t : ℕ) : CommitMode → Prop
  | .finishedFailed => t ∈ job.unenrolled
  | .finishedFailedEe => ∃ task ∈ job.jaTasks, task.number = t ∧ task.status ≠ jfinished

/-- When a commit completes the job: an id is completed if it is the only task, an
enrolled task if all others are finished. -/
def CommitMode.Completes (job : Job) (t : ℕ) : CommitMode → Prop
  | .finishedFailed => ∀ x, x ≠ t → ¬ HasTask job x
  | .finishedFailedEe => ∀ x, x ≠ t → TaskDone job x

variable {f : JaTask → JaTask}

theorem mem_modifyTask (hnodup : (l.map JaTask.number).Nodup) :
    y ∈ modifyTask t f l ↔
      (y ∈ l ∧ y.number ≠ t) ∨ ∃ z ∈ l, z.number = t ∧ y = f z := by
  induction l with
  | nil => simp [modifyTask]
  | cons z l ih =>
    rw [List.map_cons, List.nodup_cons] at hnodup
    by_cases hz : z.number = t
    · have hrest : ∀ w ∈ l, w.number ≠ t := fun w hw h =>
        hnodup.1 (hz ▸ h ▸ List.mem_map_of_mem hw)
      rw [modifyTask, if_pos hz, List.mem_cons]
      constructor
      · rintro (rfl | hy)
        · exact .inr ⟨z, .head _, hz, rfl⟩
        · exact .inl ⟨.tail _ hy, hrest y hy⟩
      · rintro (⟨hy, hne⟩ | ⟨w, hw, hnum, rfl⟩)
        · exact .inr ((List.mem_cons.mp hy).resolve_left fun h => hne (h ▸ hz))
        · rcases List.mem_cons.mp hw with rfl | hw
          · exact .inl rfl
          · exact absurd hnum (hrest w hw)
    · rw [modifyTask, if_neg hz, List.mem_cons, ih hnodup.2]
      simp only [List.mem_cons, exists_eq_or_imp, hz, false_and, false_or]
      constructor
      · rintro (rfl | ⟨hy, hne⟩ | h)
        · exact .inl ⟨.inl rfl, hz⟩
        · exact .inl ⟨.inr hy, hne⟩
        · exact .inr h
      · rintro (⟨rfl | hy, hne⟩ | h)
        · exact .inl rfl
        · exact .inr (.inl ⟨hy, hne⟩)
        · exact .inr (.inr h)

/-- Changing an enrolled task keeps the lists of the job in order. -/
theorem jobOk_modifyTask (hok : JobOk job) (hf : ∀ y, (f y).number = y.number) :
    JobOk { job with jaTasks := modifyTask t f job.jaTasks } := by
  have hnum := modifyTask_map (t := t) (g := JaTask.number) hf job.jaTasks
  have hmem : ∀ y ∈ modifyTask t f job.jaTasks, ∃ z ∈ job.jaTasks, z.number = y.number :=
    fun y hy => List.mem_map.mp (hnum ▸ List.mem_map_of_mem hy)
  refine ⟨hok.idLists, hok.held, ?_, fun y hy => ?_, fun y hy => ?_⟩
  · exact hnum ▸ hok.numbers
  · obtain ⟨z, hz, heq⟩ := hmem y hy
    exact heq ▸ hok.taskIds z hz
  · obtain ⟨z, hz, heq⟩ := hmem y hy
    exact heq ▸ hok.enrolled z hz

theorem changeTask_eq (hjob : jobs n = some job) (f : JaTask → JaTask) :
    changeTask jobs n t f = jobs.set n { job with jaTasks := modifyTask t f job.jaTasks } := by
  rw [changeTask, hjob]

theorem changeTask_setFinished (hok : JobsOk jobs) (hjob : jobs n = some job)
    (ht : CommitMode.finishedFailedEe.Applies job t) :
    TaskEnded n t job jobs (changeTask jobs n t setFinished) := by
  have hjok := hok n job hjob
  obtain ⟨task, htask, hnum, -⟩ := ht
  rw [changeTask_eq hjob]
  refine taskEnded_set hok (jobOk_modifyTask hjok fun _ => rfl) ⟨rfl, rfl, rfl, rfl⟩ fun x => ?_
  have hmem := fun y => mem_modifyTask (t := t) (f := setFinished) (y := y) hjok.numbers
  constructor
  · rintro ⟨hx, hall⟩
    by_cases hxt : x = t
    · exact .inr hxt
    · exact .inl ⟨hx, fun y hy hy' => hall y ((hmem y).mpr (.inl ⟨hy, hy' ▸ hxt⟩)) hy'⟩
  · intro h
    refine ⟨?_, fun y hy hy' => ?_⟩
    · rcases h with h | rfl
      · exact h.1
      · exact hnum ▸ hjok.enrolled task htask
    · rcases (hmem y).mp hy with ⟨hy, hne⟩ | ⟨z, -, -, rfl⟩
      · exact (h.resolve_right (fun hxt => hne (hy'.trans hxt))).2 y hy hy'
      · rfl

/-- A change of the task that keeps its number and status. -/
theorem changeTask_keeps (hok : JobsOk jobs) {f : JaTask → JaTask}
    (hf : ∀ task, ((f task).number, (f task).status) = (task.number, task.status)) :
    Keeps jobs (changeTask jobs n t f) := by
  unfold changeTask
  split
  · exact Keeps.refl hok
  · next job hjob =>
    have htasks := modifyTask_map (t := t) (f := f)
      (g := fun t => (t.number, t.status)) hf job.jaTasks
    exact keeps_set hok hjob
      (jobOk_modifyTask (hok n job hjob) fun task => congrArg Prod.fst (hf task))
      ⟨⟨rfl, rfl, rfl, rfl⟩, rfl, htasks⟩

theorem ended_of_finished (hok : JobOk job) (htask : HasTask job t) (hdone : TaskDone job t) :
    Ended job ↔ ∀ x, x ≠ t → TaskDone job x := by
  constructor
  · rintro (hone | hall) x hx
    · exact taskDone_of_not_hasTask (only_task hok htask hone hx)
    · exact hall x
  · intro hall
    refine .inr fun x => ?_
    by_cases hx : x = t
    · exact hx ▸ hdone
    · exact hall x hx

theorem ended_of_unenrolled (hok : JobOk job) (ht : t ∈ job.unenrolled) :
    Ended job ↔ ∀ x, x ≠ t → ¬ HasTask job x := by
  constructor
  · rintro (hone | hall) x hx
    · exact only_task hok (.inl ht) hone hx
    · exact absurd ht (hall t).1
  · intro hnone
    have hu : job.unenrolled = {t} := by
      ext x
      refine ⟨fun hx => ?_, fun hx => hx ▸ ht⟩
      by_contra hne
      exact hnone x hne (.inl hx)
    have hl : job.jaTasks = [] := by
      rw [List.eq_nil_iff_forall_not_mem]
      intro y hy
      by_cases hne : y.number = t
      · exact hok.enrolled y hy (hne ▸ ht)
      · exact hnone y.number hne (.inr ⟨y, hy, rfl⟩)
    left
    rw [hu, hl, Set.ncard_singleton, List.length_nil]

theorem sgeBuryJob_spec (hok : JobsOk s.jobs) (hjob : s.jobs n = some job)
    (htask : HasTask job t) (h : sgeBuryJob σ s n t = some s') :
    TaskEnded n t job s.jobs s'.jobs ∧ (Ended job → s'.log = s.log ++ completions n) ∧
      (¬ Ended job → s'.log = s.log) := by
  obtain ⟨s1, hfinish, rfl⟩ := Option.map_eq_some_iff.mp h
  obtain ⟨hkeeps, hended, hnot⟩ := sgeFinishJaTask_spec hok hjob hfinish
  obtain ⟨job1, hjob1, -, hsame⟩ := hkeeps.some n job hjob
  obtain ⟨hbury, hlog⟩ := sgeBuryJaTask_spec (σ := σ) hkeeps.ok hjob1
    ((hasTask_same hsame).mpr htask)
  exact ⟨hbury.of_keeps hkeeps hsame, fun h => hlog.trans (hended h),
    fun h => hlog.trans (hnot h)⟩

/-- **A commit** ends its task, and completes the job or not. -/
theorem sgeCommitJob_spec {conf : FinishedJobsConf} {mode : CommitMode}
    (hok : JobsOk s.jobs) (hjob : s.jobs n = some job) (ht : mode.Applies job t)
    (h : sgeCommitJob σ conf s n t mode = some s') :
    TaskEnded n t job s.jobs s'.jobs ∧
      (mode.Completes job t → s'.log = s.log ++ completions n) ∧
      (¬ mode.Completes job t → s'.log = s.log) := by
  have hjok := hok n job hjob
  cases mode with
  | finishedFailed =>
    have hspec := sgeBuryJob_spec hok hjob (.inl ht) h
    rwa [ended_of_unenrolled hjok ht] at hspec
  | finishedFailedEe =>
    rw [sgeCommitJob] at h
    obtain ⟨jobs, hrelease, h⟩ := Option.bind_eq_some_iff.mp h
    have hmark := changeTask_setFinished hok hjob ht
    have hreleased : Keeps (changeTask s.jobs n t setFinished) jobs := by
      split at hrelease
      · exact releaseSuccessorTasksAd_keeps hmark.ok hrelease
      · exact Option.some.inj hrelease ▸ Keeps.refl hmark.ok
    have hkeeps : Keeps (changeTask s.jobs n t setFinished)
        (changeTask jobs n t sgeClearGrantedResources) :=
      hreleased.trans (changeTask_keeps hreleased.ok fun _ => rfl)
    dsimp only at h
    have htask : ∃ job1, changeTask s.jobs n t setFinished n = some job1 ∧
        HasTask job1 t := by
      obtain ⟨task, hmem, hnum, -⟩ := ht
      refine ⟨{ job with jaTasks := modifyTask t setFinished job.jaTasks }, ?_, .inr
        ⟨setFinished task, (mem_modifyTask hjok.numbers).mpr (.inr ⟨task, hmem, hnum, rfl⟩), hnum⟩⟩
      rw [changeTask_eq hjob, set_self]
    obtain ⟨job1, hjob1, htask1⟩ := htask
    -- all other tasks are finished or not, whatever the releases have changed
    have hended : ∀ {jobs' : MasterJobList} {job' : Job},
        Keeps (changeTask s.jobs n t setFinished) jobs' → jobs' n = some job' →
        HasTask job' t ∧ (Ended job' ↔ ∀ x, x ≠ t → TaskDone job x) := by
      intro jobs' job' hkeeps' hjob'
      obtain ⟨job'', hjob'', hok'', hsame⟩ := hkeeps'.some n job1 hjob1
      rw [hjob'] at hjob''
      cases hjob''
      have hdone : ∀ x, TaskDone job' x ↔ TaskDone job x ∨ x = t := by
        obtain ⟨job2, hjob2, -, hdone⟩ := (hmark.keeps hkeeps').job.resolve_left fun hleft => by
          rw [hleft.1] at hjob'
          exact absurd hjob' (by simp)
        rw [hjob'] at hjob2
        exact Option.some.inj hjob2 ▸ hdone
      have htask' := (hasTask_same hsame).mpr htask1
      refine ⟨htask', (ended_of_finished hok'' htask' ((hdone t).mpr (.inr rfl))).trans ?_⟩
      exact forall₂_congr fun x hx => by rw [hdone, or_iff_left hx]
    split at h
    · have hkeeps' := hkeeps.trans
        (changeTask_keeps (n := n) (t := t) (f := foldPeTasks) hkeeps.ok fun _ => rfl)
      obtain ⟨job2, hjob2, -⟩ := hkeeps'.some n job1 hjob1
      obtain ⟨hfin, hlog⟩ := sgeFinishJaTask_spec hkeeps'.ok hjob2 h
      rw [(hended hkeeps' hjob2).2] at hlog
      exact ⟨hmark.keeps (hkeeps'.trans hfin), hlog⟩
    · obtain ⟨job2, hjob2, -⟩ := hkeeps.some n job1 hjob1
      obtain ⟨hbury, hlog⟩ := sgeBuryJob_spec hkeeps.ok hjob2 (hended hkeeps hjob2).1 h
      rw [(hended hkeeps hjob2).2] at hlog
      exact ⟨(hmark.keeps hkeeps).again hjob2 hbury, hlog⟩

end ClusterScheduler.Qmaster
