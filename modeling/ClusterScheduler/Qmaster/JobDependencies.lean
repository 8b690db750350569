import ClusterScheduler.Sgeobj.JobEnroll
import ClusterScheduler.Qmaster.JobCompletion

/-!
# Jobs that wait for jobs

A job waits for the jobs in its list of predecessors, and each of them has it in its list of
successors. The lists are set when a job is submitted or modified, and the end of a job removes
it from its successors.

* `jobSucPre` — a job is linked to those of its predecessors that have not exited.
* `DependencyOp` — submissions, modifications, starts, and the calls that end tasks.
* `Links` — what the end of a task may change in the lists.
* `JidLinked` — a job waits only for jobs that have something to do and know of it.
* `linked_run` — this holds in a run as long as the end of a job that others wait for is noticed.
-/

namespace ClusterScheduler.Qmaster

open Foundation Sgeobj

/-! ## Functions of the source -/

/-- Whether `job_suc_pre_doit()` takes a job as exited. What is known of the status of the
parallel tasks is `petFinished`. -/
def jobExited (petFinished : JaTask → String → Bool) (job : Job) : Bool :=
  idAttributes.all (fun attr => (job.ids attr).isNone) &&
    job.jaTasks.all fun task => task.status = jfinished &&
      task.taskList.all fun pet => pet = peTaskPastUsageContainer || petFinished task pet

def sucPreStep (petFinished : JaTask → String → Bool) (jobId : ℕ) (acc : MasterJobList × Job)
    (pre : ℕ) : MasterJobList × Job :=
  let forget := { acc.2 with jidPredecessorList := acc.2.jidPredecessorList.erase pre }
  match acc.1 pre with
  | none => (acc.1, forget)
  | some parent =>
    if jobExited petFinished parent then (acc.1, forget)
    else (acc.1.set pre { parent with
      jidSuccessorList := parent.jidSuccessorList ++ [jobId] }, acc.2)

def jobSucPre (petFinished : JaTask → String → Bool) (jobs : MasterJobList) (jobId : ℕ)
    (job : Job) : MasterJobList × Job :=
  job.jidPredecessorList.foldl (sucPreStep petFinished jobId) (jobs, job)

/-- The part of `sge_job_verify_adjust()` that sets the predecessors. A job must not name
itself. -/
def linkSubmitted (petFinished : JaTask → String → Bool) (jobs : MasterJobList) (jobId : ℕ)
    (job : Job) (preds : List ℕ) : Option (MasterJobList × Job) :=
  if jobId ∈ preds then none
  else some (jobSucPre petFinished jobs jobId
    { job with jidPredecessorList := preds, jidSuccessorList := [] })

/-- A submission verifies the job once, or before and after a script that may change it. The
job is stored when nothing fails afterwards. -/
def submitJob (petFinished : JaTask → String → Bool) (jobs : MasterJobList) (jobId : ℕ)
    (job : Job) (jsv : Option (List ℕ)) (preds : List ℕ) (stored : Bool) : MasterJobList :=
  let before := match jsv with
    | none => some jobs
    | some preds => (linkSubmitted petFinished jobs jobId job preds).map Prod.fst
  match before with
  | none => jobs
  | some jobs =>
    match linkSubmitted petFinished jobs jobId job preds with
    | none => jobs
    | some (jobs, job) => if stored then jobs.set jobId job else jobs

/-- The job leaves the successors of one predecessor. -/
def unlinkPre (jobId : ℕ) (jobs : MasterJobList) (pre : ℕ) : MasterJobList :=
  match jobs pre with
  | none => jobs
  | some parent => jobs.set pre { parent with
      jidSuccessorList := parent.jidSuccessorList.erase jobId }

/-- A modification of the predecessors. The changes are made to a copy, which replaces the
job. `refused` stands for the other reasons to refuse it, `written` for the result of
spooling. -/
def modifyPreds (petFinished : JaTask → String → Bool) (jobs : MasterJobList) (jobId : ℕ)
    (preds : List ℕ) (refused written : Bool) : MasterJobList :=
  match jobs jobId with
  | none => jobs
  | some job =>
    if jobId ∈ preds ∨ refused ∨ ¬ written then jobs
    else
      let newJob := { job with jidPredecessorList := preds.filter fun pre => (jobs pre).isSome }
      let jobs := job.jidPredecessorList.foldl (unlinkPre jobId) jobs
      let linked := jobSucPre petFinished (jobs.set jobId newJob) jobId newJob
      linked.1.set jobId linked.2

/-! ## Runs -/

inductive DependencyOp where
  | submit (jobId : ℕ) (job : Job) (petFinished : JaTask → String → Bool)
      (jsv : Option (List ℕ)) (preds : List ℕ) (stored : Bool)
  | modify (jobId : ℕ) (petFinished : JaTask → String → Bool) (preds : List ℕ)
      (refused written : Bool)
  | start (jobId : ℕ) (template : JaTask) (taskId : ℕ)
  | startPeTask (jobId taskId : ℕ) (petId : String)
  | setHold (jobId taskId : ℕ) (newHoldState : BitVec 32)
  | ends (jobId : ℕ) (call : Call)

def addPeTask (petId : String) (task : JaTask) : JaTask :=
  { task with taskList := task.taskList ++ [petId] }

/-- There is no result when a commit aborts. -/
def DependencyOp.perform (σ : Sorter) (conf : FinishedJobsConf) (s : QmasterState) :
    DependencyOp → Option QmasterState
  | submit jobId job petFinished jsv preds stored =>
    some { s with jobs := submitJob petFinished s.jobs jobId job jsv preds stored }
  | modify jobId petFinished preds refused written =>
    some { s with jobs := modifyPreds petFinished s.jobs jobId preds refused written }
  | start jobId template taskId =>
    match s.jobs jobId with
    | none => some s
    | some job => some { s with jobs := s.jobs.set jobId (jobEnroll template job taskId) }
  | startPeTask jobId taskId petId =>
    some { s with jobs := changeTask s.jobs jobId taskId (addPeTask petId) }
  | setHold jobId taskId newHoldState =>
    match s.jobs jobId with
    | none => some s
    | some job => some { s with
        jobs := s.jobs.set jobId (jobSetHoldState σ job taskId newHoldState) }
  | ends jobId call => call.perform σ conf s jobId

/-- No list of ids is there without an id. -/
def Filled (job : Job) : Prop := ∀ attr, job.ids attr ≠ some []

/-- A submitted job has ids only, and a number of its own. An id without a hold is started,
and a parallel task belongs to a task that is not finished. -/
def DependencyOp.Enabled (conf : FinishedJobsConf) (jobs : MasterJobList) :
    DependencyOp → Prop
  | submit jobId job _ _ _ _ => jobs jobId = none ∧ JobOk job ∧ Filled job ∧ job.jaTasks = []
  | modify _ _ _ _ _ => True
  | start jobId template taskId => ∀ job, jobs jobId = some job →
      Has (job.idList .nHIds) taskId ∧ template.status ≠ jfinished ∧ template.taskList = []
  | startPeTask jobId taskId _ => ∀ job, jobs jobId = some job →
      ∀ task ∈ job.jaTasks, task.number = taskId → task.status ≠ jfinished
  | setHold _ _ _ => True
  | ends jobId call => call.Enabled conf jobs jobId

def WaitedFor (jobs : MasterJobList) (n : ℕ) : Prop :=
  ∃ m job, jobs m = some job ∧ n ∈ job.jidPredecessorList

def DependencyOp.Lifts (s : QmasterState) : DependencyOp → Prop
  | ends jobId call => WaitedFor s.jobs jobId → CompletesAtEnd jobId s call
  | _ => True

/-- The states of the runs that start without jobs. The steps meet the condition `P`. -/
inductive DependencyRun (σ : Sorter) (conf : FinishedJobsConf)
    (P : QmasterState → DependencyOp → Prop) : QmasterState → Prop
  | start (suserJobs : String → Option ℕ) (log : List Completion) :
      DependencyRun σ conf P ⟨fun _ => none, suserJobs, log⟩
  | step {s s' : QmasterState} (h : DependencyRun σ conf P s) (op : DependencyOp)
      (henabled : op.Enabled conf s.jobs) (hop : P s op)
      (hstep : op.perform σ conf s = some s') : DependencyRun σ conf P s'

/-- A job waits only for other jobs that have something to do and know of it. -/
def JidLinked (jobs : MasterJobList) : Prop :=
  ∀ n job, jobs n = some job → ∀ a ∈ job.jidPredecessorList, a ≠ n ∧ HasUnfinished jobs a ∧
    ∃ pre, jobs a = some pre ∧ n ∈ pre.jidSuccessorList

/-! ## Lists of ids that are not empty -/

variable {σ : Sorter} {conf : FinishedJobsConf} {jobs jobs' : MasterJobList} {job job' : Job}
  {s s' : QmasterState} {n m t : ℕ}

theorem placeId_ne_nil (id : ℕ) (range : Option Range) (suffix : List Range) :
    placeId id range suffix ≠ [] := by
  unfold placeId
  repeat' split
  all_goals simp [splitAround]

theorem insertLoop_ne_nil (id : ℕ) (prev suffix : List Range) : insertLoop id prev suffix ≠ [] := by
  induction prev generalizing suffix with
  | nil => simp [insertLoop]
  | cons range prev ih =>
    rw [insertLoop.eq_def]
    dsimp only
    split
    · cases prev with
      | nil => exact placeId_ne_nil id none (range :: suffix)
      | cons => exact ih (range :: suffix)
    · exact List.append_ne_nil_of_right_ne_nil _ (placeId_ne_nil id (some range) suffix)

theorem compressFrom_ne_nil (r : Range) (l : List Range) : compressFrom r l ≠ [] := by
  induction l generalizing r with
  | nil => simp [compressFrom]
  | cons r' l ih =>
    rw [compressFrom]
    split
    · exact ih _
    · exact List.cons_ne_nil _ _

theorem compress_ne_nil {l : List Range} (h : l ≠ []) : rangeListCompress l ≠ [] := by
  cases l with
  | nil => exact absurd rfl h
  | cons r l => exact compressFrom_ne_nil r l

theorem objectDeleteRangeId_ne (l : Option (List Range)) (id : ℕ) :
    objectDeleteRangeId l id ≠ some [] := by
  intro h
  obtain ⟨left, hleft, hnil⟩ := Option.map_eq_some_iff.mp h
  obtain ⟨l, -, hfree⟩ := Option.bind_eq_some_iff.mp hleft
  unfold freeEmpty at hfree
  split at hfree
  · exact absurd hfree.symm (Option.some_ne_none left)
  · next hne =>
    cases hfree
    exact compress_ne_nil (by simpa using hne) hnil

theorem moveId_ne (σ : Sorter) (insert : Bool) (l : Option (List Range)) (id : ℕ) :
    moveId σ insert l id ≠ some [] := by
  cases insert with
  | false => exact objectDeleteRangeId_ne l id
  | true =>
    intro h
    exact compress_ne_nil (insertLoop_ne_nil id _ []) (Option.some.inj h)

/-! ## What the end of a task may change -/

/-- The successors stay and no predecessor is added. A task that is not excepted by `ends` is
one of the old ones, with the same status and parallel tasks. -/
structure LinksJob (ends : ℕ → Prop) (job job' : Job) : Prop where
  succs : job'.jidSuccessorList = job.jidSuccessorList
  preds : ∀ b, job'.jidPredecessorList.count b ≤ job.jidPredecessorList.count b
  filled : Filled job → Filled job'
  tasks : ∀ task' ∈ job'.jaTasks, ends task'.number ∨ ∃ task ∈ job.jaTasks,
    task.number = task'.number ∧ task.status = task'.status ∧ task.taskList = task'.taskList

/-- Every job that is there now was there before. -/
def Links (ends : ℕ → ℕ → Prop) (jobs jobs' : MasterJobList) : Prop :=
  ∀ m job', jobs' m = some job' → ∃ job, jobs m = some job ∧ LinksJob (ends m) job job'

theorem LinksJob.refl (ends : ℕ → Prop) (job : Job) : LinksJob ends job job where
  succs := rfl
  preds := fun _ => le_rfl
  filled := id
  tasks := fun task htask => Or.inr ⟨task, htask, rfl, rfl, rfl⟩

theorem LinksJob.trans {ends : ℕ → Prop} {job'' : Job} (h : LinksJob ends job job')
    (h' : LinksJob ends job' job'') : LinksJob ends job job'' where
  succs := h'.succs.trans h.succs
  preds := fun b => (h'.preds b).trans (h.preds b)
  filled := fun hfilled => h'.filled (h.filled hfilled)
  tasks := by
    intro task'' htask''
    rcases h'.tasks task'' htask'' with hends | ⟨task', htask', hnum', hstatus', hlist'⟩
    · exact Or.inl hends
    rcases h.tasks task' htask' with hends | ⟨task, htask, hnum, hstatus, hlist⟩
    · exact Or.inl (hnum' ▸ hends)
    · exact Or.inr ⟨task, htask, hnum.trans hnum', hstatus.trans hstatus', hlist.trans hlist'⟩

variable {ends : ℕ → ℕ → Prop}

theorem Links.refl (ends : ℕ → ℕ → Prop) (jobs : MasterJobList) : Links ends jobs jobs :=
  fun m job hjob => ⟨job, hjob, LinksJob.refl (ends m) job⟩

theorem Links.trans {jobs'' : MasterJobList} (h : Links ends jobs jobs')
    (h' : Links ends jobs' jobs'') : Links ends jobs jobs'' := by
  intro m job'' hjob''
  obtain ⟨job', hjob', hlinks'⟩ := h' m job'' hjob''
  obtain ⟨job, hjob, hlinks⟩ := h m job' hjob'
  exact ⟨job, hjob, hlinks.trans hlinks'⟩

theorem links_set (hjob : jobs n = some job) (h : LinksJob (ends n) job job') :
    Links ends jobs (jobs.set n job') := by
  intro m job'' hjob''
  by_cases hm : m = n
  · subst hm
    rw [set_self] at hjob''
    cases hjob''
    exact ⟨job, hjob, h⟩
  · rw [set_of_ne jobs job' hm] at hjob''
    exact ⟨job'', hjob'', LinksJob.refl (ends m) job''⟩

theorem links_remove (n : ℕ) : Links ends jobs (Function.update jobs n none) := by
  intro m job' hjob'
  by_cases hm : m = n
  · subst hm
    rw [Function.update_self] at hjob'
    exact absurd hjob'.symm (Option.some_ne_none job')
  · rw [Function.update_of_ne hm] at hjob'
    exact ⟨job', hjob', LinksJob.refl (ends m) job'⟩

theorem foldl_links {f : MasterJobList → ℕ → MasterJobList}
    (hf : ∀ jobs n, Links ends jobs (f jobs n)) (l : List ℕ) (jobs : MasterJobList) :
    Links ends jobs (l.foldl f jobs) :=
  List.foldlRecOn l f (Links.refl ends jobs) fun jobs₁ h n _ => h.trans (hf jobs₁ n)

theorem foldlM_links {f : MasterJobList → ℕ → Option MasterJobList}
    (hf : ∀ jobs jobs' n, f jobs n = some jobs' → Links ends jobs jobs') (l : List ℕ)
    (h : l.foldlM f jobs = some jobs') : Links ends jobs jobs' :=
  foldlM_preserves (fun jobs₁ n _ jobs₂ hone hlinks => hlinks.trans (hf jobs₁ jobs₂ n hone))
    (Links.refl ends jobs) h

variable {f : JaTask → JaTask}

variable (e : ℕ → Prop)
include e

theorem linksJob_modifyTask
    (hf : ∀ y, ((f y).number, (f y).status, (f y).taskList) = (y.number, y.status, y.taskList)) :
    LinksJob e job { job with jaTasks := modifyTask t f job.jaTasks } where
  succs := rfl
  preds := fun _ => le_rfl
  filled := id
  tasks := by
    intro task' htask'
    have hmap := modifyTask_map (t := t) (f := f)
      (g := fun y => (y.number, y.status, y.taskList)) hf job.jaTasks
    have hmem := List.mem_map_of_mem (f := fun y => (y.number, y.status, y.taskList)) htask'
    rw [hmap] at hmem
    obtain ⟨task, htask, heq⟩ := List.mem_map.mp hmem
    obtain ⟨hnum, hrest⟩ := Prod.mk.inj heq
    obtain ⟨hstatus, hlist⟩ := Prod.mk.inj hrest
    exact Or.inr ⟨task, htask, hnum, hstatus, hlist⟩

theorem linksJob_ids {ids : IdAttribute → Option (List Range)}
    (h : Filled job → ∀ attr, ids attr ≠ some []) : LinksJob e job { job with ids := ids } where
  succs := rfl
  preds := fun _ => le_rfl
  filled := h
  tasks := fun task htask => Or.inr ⟨task, htask, rfl, rfl, rfl⟩

theorem linksJob_setHold (job : Job) (t : ℕ) (new : BitVec 32) :
    LinksJob e job (jobSetHoldState σ job t new) := by
  unfold jobSetHoldState
  split
  · exact linksJob_ids e fun _ attr => moveId_ne σ _ _ t
  · exact linksJob_modifyTask e fun _ => rfl

theorem linksJob_foldl {f : Job → ℕ → Job} (hf : ∀ job t, LinksJob e job (f job t))
    (l : List ℕ) (job : Job) : LinksJob e job (l.foldl f job) :=
  List.foldlRecOn l f (LinksJob.refl e job) fun job₁ h t _ => h.trans (hf job₁ t)

theorem linksJob_flush (job : Job) : LinksJob e job (sgeTaskDependFlush σ job).1 := by
  have hclear (job : Job) (t : ℕ) : LinksJob e job (clearAdHold σ job t) :=
    linksJob_setHold e job t _
  unfold sgeTaskDependFlush
  split
  · have hrest (job : Job) (l : List ℕ) : LinksJob e job (l.foldl (fun jep taskId =>
        if jobGetHoldState jep taskId &&& minusHTgtJaAd ≠ 0 then clearAdHold σ jep taskId
        else jep) job) := by
      apply linksJob_foldl e
      intro job t
      split
      · exact hclear job t
      · exact LinksJob.refl e job
    cases job.ids .aHIds with
    | none => exact hrest job _
    | some aHIds =>
      refine ((linksJob_foldl e hclear _ job).trans (linksJob_ids e fun hfilled attr => ?_)).trans
        (hrest _ _)
      split
      · exact (Option.some_ne_none []).symm
      · exact hfilled attr
  · exact LinksJob.refl e job

theorem linksJob_ad (job : Job) (ad : List ℕ) :
    LinksJob e job { job with jaAdPredecessorList := ad } where
  succs := rfl
  preds := fun _ => le_rfl
  filled := id
  tasks := fun task htask => Or.inr ⟨task, htask, rfl, rfl, rfl⟩

omit e

/-! ## The functions that end a task -/

variable {modified : Bool}

theorem sgeTaskDependUpdate_links
    (h : sgeTaskDependUpdate σ jobs n t = some (jobs', modified)) : Links ends jobs jobs' := by
  unfold sgeTaskDependUpdate at h
  split at h
  · obtain ⟨rfl, -⟩ := Prod.mk.inj (Option.some.inj h)
    exact Links.refl ends jobs
  next job hjob =>
    obtain ⟨finished, -, h⟩ := Option.bind_eq_some_iff.mp h
    cases finished with
    | true =>
      obtain ⟨rfl, -⟩ := Prod.mk.inj (Option.some.inj h)
      exact Links.refl ends jobs
    | false =>
      obtain ⟨depend, -, h⟩ := Option.bind_eq_some_iff.mp h
      dsimp only at h
      generalize (if depend then jobGetHoldState job t ||| minusHTgtJaAd
        else jobGetHoldState job t &&& ~~~minusHTgtJaAd) = new at h
      split at h
      · obtain ⟨rfl, -⟩ := Prod.mk.inj (Option.some.inj h)
        exact links_set hjob (linksJob_setHold (ends n) job t _)
      · obtain ⟨rfl, -⟩ := Prod.mk.inj (Option.some.inj h)
        exact Links.refl ends jobs

theorem updateLoop_links {ids : List ℕ}
    (h : updateLoop σ n ids jobs = some (jobs', modified)) : Links ends jobs jobs' := by
  refine foldlM_preserves (P := fun acc => Links ends jobs acc.1)
    (fun acc id _ acc' hone hlinks => ?_) (Links.refl ends jobs) h
  obtain ⟨⟨jobs₁, m₁⟩, hupdate, hnext⟩ := Option.bind_eq_some_iff.mp hone
  cases hnext
  exact hlinks.trans (sgeTaskDependUpdate_links hupdate)

theorem releaseSuccessorJobsAd_links (σ : Sorter) (jobs : MasterJobList) (n : ℕ) :
    Links ends jobs (releaseSuccessorJobsAd σ jobs n) := by
  unfold releaseSuccessorJobsAd
  split
  · exact Links.refl ends jobs
  · apply foldl_links
    intro jobs suc
    unfold unlinkSuccessorAd
    split
    · exact Links.refl ends jobs
    next sucJep hsuc =>
      split
      · exact links_set hsuc ((linksJob_ad (ends suc) sucJep _).trans (linksJob_flush _ _))
      · exact Links.refl ends jobs

theorem releaseSuccessorTasksAd_links (h : releaseSuccessorTasksAd σ jobs n t = some jobs') :
    Links ends jobs jobs' := by
  unfold releaseSuccessorTasksAd at h
  split at h
  · exact Option.some.inj h ▸ Links.refl ends jobs
  · refine foldlM_links (fun jobs jobs' suc h => ?_) _ h
    split at h
    · exact Option.some.inj h ▸ Links.refl ends jobs
    · split at h
      · exact Option.some.inj h ▸ Links.refl ends jobs
      · obtain ⟨⟨jobs1, m⟩, hloop, rfl⟩ := Option.map_eq_some_iff.mp h
        exact updateLoop_links hloop

theorem mem_of_mem_modifyTask {l : List JaTask} {y : JaTask}
    (h : y ∈ modifyTask t f l) : y ∈ l ∨ ∃ z, z.number = t ∧ y = f z := by
  induction l with
  | nil => exact Or.inl h
  | cons z l ih =>
    rw [modifyTask] at h
    split at h
    next hz =>
      rcases List.mem_cons.mp h with rfl | h
      · exact Or.inr ⟨z, hz, rfl⟩
      · exact Or.inl (.tail _ h)
    next =>
      rcases List.mem_cons.mp h with rfl | h
      · exact Or.inl (.head _)
      · exact (ih h).imp_left (List.mem_cons_of_mem _)

theorem changeTask_links (hf : ∀ y, (f y).number = y.number)
    (hends : ends n t) : Links ends jobs (changeTask jobs n t f) := by
  unfold changeTask
  split
  · exact Links.refl ends jobs
  next job hjob =>
    refine links_set hjob ⟨rfl, fun _ => le_rfl, id, fun task' htask' => ?_⟩
    rcases mem_of_mem_modifyTask htask' with hold | ⟨task, hnum, rfl⟩
    · exact Or.inr ⟨task', hold, rfl, rfl, rfl⟩
    · exact Or.inl ((hf task).trans hnum ▸ hends)

theorem sgeBuryJaTask_links (σ : Sorter) (s : QmasterState) (n t : ℕ) :
    Links ends s.jobs (sgeBuryJaTask σ s n t).jobs := by
  unfold sgeBuryJaTask
  split
  · exact Links.refl ends s.jobs
  next job hjob =>
    split
    · exact links_remove n
    split
    · refine links_set hjob ⟨rfl, fun _ => le_rfl, id, fun task htask => ?_⟩
      exact Or.inr ⟨task, List.mem_of_mem_eraseP htask, rfl, rfl, rfl⟩
    · exact links_set hjob (linksJob_ids (ends n) fun _ attr => objectDeleteRangeId_ne _ t)

/-- One successor loses the job. -/
def dropPre (n : ℕ) (jobs : MasterJobList) (suc : ℕ) : MasterJobList :=
  match jobs suc with
  | none => jobs
  | some sucJep => jobs.set suc { sucJep with
      jidPredecessorList := sucJep.jidPredecessorList.erase n }

theorem dropPre_links (n : ℕ) (jobs : MasterJobList) (suc : ℕ) :
    Links ends jobs (dropPre n jobs suc) := by
  unfold dropPre
  split
  · exact Links.refl ends jobs
  next sucJep hsuc =>
    refine links_set hsuc ⟨rfl, fun b => ?_, id, fun task htask => Or.inr ⟨task, htask, rfl, rfl, rfl⟩⟩
    exact List.Sublist.count_le b List.erase_sublist

/-- Every time a job is dropped from a successor it is there once less. -/
theorem dropPre_count (n : ℕ) (l : List ℕ) (jobs : MasterJobList) {m : ℕ} {job' : Job}
    (hjob' : l.foldl (dropPre n) jobs m = some job') : ∃ job, jobs m = some job ∧
      job'.jidPredecessorList.count n = job.jidPredecessorList.count n - l.count m := by
  induction l generalizing jobs with
  | nil => exact ⟨job', hjob', rfl⟩
  | cons suc l ih =>
    obtain ⟨job1, hjob1, hcount⟩ := ih (dropPre n jobs suc) hjob'
    cases hsuc : jobs suc with
    | none =>
      have hsame : dropPre n jobs suc = jobs := by rw [dropPre, hsuc]
      rw [hsame] at hjob1
      have hne : suc ≠ m := by
        rintro rfl
        rw [hsuc] at hjob1
        exact absurd hjob1.symm (Option.some_ne_none job1)
      exact ⟨job1, hjob1, by rw [hcount, List.count_cons_of_ne hne]⟩
    | some sucJep =>
      have hset : dropPre n jobs suc = jobs.set suc { sucJep with
          jidPredecessorList := sucJep.jidPredecessorList.erase n } := by
        rw [dropPre, hsuc]
      rw [hset] at hjob1
      by_cases hm : m = suc
      · subst hm
        rw [set_self] at hjob1
        cases hjob1
        refine ⟨sucJep, hsuc, ?_⟩
        rw [hcount, List.count_erase_self, List.count_cons_self]
        omega
      · rw [set_of_ne jobs _ hm] at hjob1
        exact ⟨job1, hjob1, by rw [hcount, List.count_cons_of_ne (Ne.symm hm)]⟩

/-- Each job that waits for job `n` is named by it as often as it names it. -/
def Known (jobs : MasterJobList) (n : ℕ) : Prop :=
  ∀ job, jobs n = some job → ∀ m jobm, jobs m = some jobm →
    jobm.jidPredecessorList.count n ≤ job.jidSuccessorList.count m

theorem Links.known (h : Links ends jobs jobs') (hknown : Known jobs n) : Known jobs' n := by
  intro job' hjob' m jobm' hjobm'
  obtain ⟨job, hjob, hlinks⟩ := h n job' hjob'
  obtain ⟨jobm, hjobm, hlinksm⟩ := h m jobm' hjobm'
  rw [hlinks.succs]
  exact (hlinksm.preds n).trans (hknown job hjob m jobm hjobm)

variable (ends) in
theorem releaseSuccessorJobs_released (hknown : Known s.jobs n) (hjob : s.jobs n = some job) :
    Links ends s.jobs (releaseSuccessorJobs s n).jobs ∧
      ¬ WaitedFor (releaseSuccessorJobs s n).jobs n := by
  have hjobs : (releaseSuccessorJobs s n).jobs = job.jidSuccessorList.foldl (dropPre n) s.jobs := by
    rw [releaseSuccessorJobs, hjob]
    rfl
  rw [hjobs]
  refine ⟨foldl_links (dropPre_links n) _ _, ?_⟩
  rintro ⟨m, job', hjob', hmem⟩
  obtain ⟨jobm, hjobm, hcount⟩ := dropPre_count n _ _ hjob'
  have hle := hknown job hjob m jobm hjobm
  rw [← List.count_pos_iff, hcount] at hmem
  omega

variable (ends) in
/-- **A finish** releases the successors, or carries nothing out. -/
theorem sgeFinishJaTask_links (hknown : Known s.jobs n) (h : sgeFinishJaTask σ s n t = some s') :
    Links ends s.jobs s'.jobs ∧ (s'.log = s.log ∨ ¬ WaitedFor s'.jobs n) := by
  obtain ⟨jobs, htasks, h⟩ := Option.bind_eq_some_iff.mp h
  have hlinks : Links ends s.jobs jobs :=
    (releaseSuccessorJobsAd_links σ s.jobs n).trans (releaseSuccessorTasksAd_links htasks)
  cases hjob : jobs n with
  | none =>
    simp only [hjob] at h
    rw [← Option.some.inj h]
    exact ⟨hlinks, Or.inl rfl⟩
  | some job =>
    simp only [hjob] at h
    split at h
    · obtain ⟨hrelease, hnot⟩ := releaseSuccessorJobs_released ends
        (s := { s with jobs := jobs }) (hlinks.known hknown) hjob
      rw [← Option.some.inj h, suserUnregisterJob_jobs]
      exact ⟨hlinks.trans hrelease, Or.inr hnot⟩
    · rw [← Option.some.inj h]
      exact ⟨hlinks, Or.inl rfl⟩

theorem Links.waitedFor (h : Links ends jobs jobs') (hwaited : WaitedFor jobs' n) :
    WaitedFor jobs n := by
  obtain ⟨m, job', hjob', hmem⟩ := hwaited
  obtain ⟨job, hjob, hlinks⟩ := h m job' hjob'
  refine ⟨m, job, hjob, List.count_pos_iff.mp ?_⟩
  exact (List.count_pos_iff.mpr hmem).trans_le (hlinks.preds n)

@[simp] theorem sgeBuryJaTask_log (σ : Sorter) (s : QmasterState) (n t : ℕ) :
    (sgeBuryJaTask σ s n t).log = s.log := by
  unfold sgeBuryJaTask
  repeat' split
  all_goals rfl

theorem sgeBuryJaTask_gone (hok : JobsOk s.jobs)
    (hjob' : (sgeBuryJaTask σ s n t).jobs n = some job') :
    ∀ task ∈ job'.jaTasks, task.number ≠ t := by
  unfold sgeBuryJaTask at hjob'
  split at hjob'
  next hnone =>
    rw [hnone] at hjob'
    exact absurd hjob'.symm (Option.some_ne_none job')
  next job hjob =>
    have hjok := hok n job hjob
    split at hjob'
    · dsimp only at hjob'
      rw [Function.update_self] at hjob'
      exact absurd hjob'.symm (Option.some_ne_none job')
    split at hjob'
    · dsimp only at hjob'
      rw [set_self] at hjob'
      cases hjob'
      exact fun task htask => ((mem_eraseP_number hjok.numbers).mp htask).2
    next henrolled =>
      dsimp only at hjob'
      rw [set_self] at hjob'
      cases hjob'
      rintro task htask rfl
      exact hjok.enrolled task htask (jobIsEnrolled_false_iff.mp (by simpa using henrolled))

variable (ends) in
theorem sgeBuryJob_links (hok : JobsOk s.jobs) (hjob : s.jobs n = some job)
    (hknown : Known s.jobs n) (h : sgeBuryJob σ s n t = some s') :
    Links ends s.jobs s'.jobs ∧ (s'.log = s.log ∨ ¬ WaitedFor s'.jobs n) ∧
      ∀ job', s'.jobs n = some job' → ∀ task ∈ job'.jaTasks, task.number ≠ t := by
  obtain ⟨s1, hfinish, rfl⟩ := Option.map_eq_some_iff.mp h
  obtain ⟨hlinks, hreleased⟩ := sgeFinishJaTask_links ends hknown hfinish
  obtain ⟨hkeeps, -, -⟩ := sgeFinishJaTask_spec hok hjob hfinish
  have hbury : Links ends s1.jobs (sgeBuryJaTask σ s1 n t).jobs := sgeBuryJaTask_links σ s1 n t
  refine ⟨hlinks.trans hbury, ?_, fun job' hjob' => sgeBuryJaTask_gone hkeeps.ok hjob'⟩
  rw [sgeBuryJaTask_log]
  exact hreleased.imp_right fun hnot hwaited => hnot (hbury.waitedFor hwaited)

def Folded (task : JaTask) : Prop := ∀ pet ∈ task.taskList, pet = peTaskPastUsageContainer

theorem folded_foldPeTasks (task : JaTask) : Folded (foldPeTasks task) := by
  intro pet hpet
  unfold foldPeTasks at hpet
  split at hpet
  · cases hpet
  · exact List.mem_singleton.mp hpet

/-- The task that ends, which may change. -/
def Ending (n t m x : ℕ) : Prop := m = n ∧ x = t

variable {mode : CommitMode}

/-- **A commit** changes the lists only by releasing the successors, and what it leaves of the
task is folded. -/
theorem sgeCommitJob_links (hok : JobsOk s.jobs) (hjob : s.jobs n = some job)
    (ht : mode.Applies job t) (hknown : Known s.jobs n)
    (h : sgeCommitJob σ conf s n t mode = some s') :
    Links (Ending n t) s.jobs s'.jobs ∧ (s'.log = s.log ∨ ¬ WaitedFor s'.jobs n) ∧
      ∀ job', s'.jobs n = some job' → ∀ task ∈ job'.jaTasks, task.number = t → Folded task := by
  cases mode with
  | finishedFailed =>
    obtain ⟨hlinks, hreleased, hgone⟩ := sgeBuryJob_links (Ending n t) hok hjob hknown h
    exact ⟨hlinks, hreleased, fun job' hjob' task htask hnum =>
      absurd hnum (hgone job' hjob' task htask)⟩
  | finishedFailedEe =>
    rw [sgeCommitJob] at h
    obtain ⟨jobs, hrelease, h⟩ := Option.bind_eq_some_iff.mp h
    have hmark := changeTask_setFinished hok hjob ht
    have hset : Links (Ending n t) s.jobs (changeTask s.jobs n t setFinished) :=
      changeTask_links (fun _ => rfl) ⟨rfl, rfl⟩
    have hmarked : Keeps (changeTask s.jobs n t setFinished) jobs ∧
        Links (Ending n t) s.jobs jobs := by
      split at hrelease
      · exact ⟨releaseSuccessorTasksAd_keeps hmark.ok hrelease,
          hset.trans (releaseSuccessorTasksAd_links hrelease)⟩
      · exact Option.some.inj hrelease ▸ ⟨Keeps.refl hmark.ok, hset⟩
    obtain ⟨hreleased, hlinked⟩ := hmarked
    have hkeeps : Keeps (changeTask s.jobs n t setFinished)
        (changeTask jobs n t sgeClearGrantedResources) :=
      hreleased.trans (changeTask_keeps hreleased.ok fun _ => rfl)
    have hclear : Links (Ending n t) jobs (changeTask jobs n t sgeClearGrantedResources) :=
      changeTask_links (fun _ => rfl) ⟨rfl, rfl⟩
    have hlinks := hlinked.trans hclear
    obtain ⟨job1, hjob1, -⟩ := hkeeps.some n _ (by rw [changeTask_eq hjob, set_self])
    dsimp only at h
    split at h
    · -- with retention the task stays as a folded one
      have hfold : Links (Ending n t) (changeTask jobs n t sgeClearGrantedResources)
          (changeTask (changeTask jobs n t sgeClearGrantedResources) n t foldPeTasks) :=
        changeTask_links (fun _ => rfl) ⟨rfl, rfl⟩
      have hlinks' := hlinks.trans hfold
      obtain ⟨hfinish, hreleased⟩ := sgeFinishJaTask_links (Ending n t)
        (hlinks'.known hknown) h
      obtain ⟨hsame, -⟩ := sgeFinishJaTask_links (fun _ _ => False)
        (hlinks'.known hknown) h
      refine ⟨hlinks'.trans hfinish, hreleased, fun job' hjob' task htask hnum => ?_⟩
      obtain ⟨job2, hjob2, hlinks2⟩ := hsame n job' hjob'
      obtain ⟨task2, htask2, hnum2, -, hlist⟩ := (hlinks2.tasks task htask).resolve_left id
      dsimp only at hjob2
      rw [changeTask_eq hjob1, set_self] at hjob2
      cases hjob2
      have hmem := (mem_modifyTask (hkeeps.ok n job1 hjob1).numbers).mp htask2
      rcases hmem with ⟨-, hne⟩ | ⟨z, -, -, rfl⟩
      · exact absurd (hnum2.trans hnum) hne
      · rw [Folded, ← hlist]
        exact folded_foldPeTasks z
    · -- without retention it is buried
      obtain ⟨hbury, hreleased, hgone⟩ := sgeBuryJob_links (Ending n t)
        (s := { s with jobs := changeTask jobs n t sgeClearGrantedResources }) hkeeps.ok hjob1
        (hlinks.known hknown) h
      exact ⟨hlinks.trans hbury, hreleased, fun job' hjob' task htask hnum =>
        absurd hnum (hgone job' hjob' task htask)⟩

/-! ## Linking a job -/

/-- A predecessor that is there and has not exited. -/
def stillThere (petFinished : JaTask → String → Bool) (jobs : MasterJobList) (pre : ℕ) : Bool :=
  match jobs pre with
  | none => false
  | some parent => !jobExited petFinished parent

/-- A job that has a job once more as a successor for each time it is named in `l`. -/
def joined (petFinished : JaTask → String → Bool) (jobId : ℕ) (l : List ℕ) (m : ℕ)
    (parent : Job) : Job :=
  { parent with jidSuccessorList := parent.jidSuccessorList ++
      List.replicate (if jobExited petFinished parent then 0 else l.count m) jobId }

variable (petFinished : JaTask → String → Bool)

/-- What linking does to the other jobs and to the predecessors. -/
structure SucPre (jobId : ℕ) (l : List ℕ) (jobs : MasterJobList) (job : Job)
    (r : MasterJobList × Job) : Prop where
  others : ∀ m, r.1 m = (jobs m).map (joined petFinished jobId l m)
  same : r.2 = { job with jidPredecessorList := r.2.jidPredecessorList }
  preds : ∀ b, r.2.jidPredecessorList.count b = job.jidPredecessorList.count b -
    if stillThere petFinished jobs b then 0 else l.count b

variable {l : List ℕ} {r : MasterJobList × Job}

/-- A predecessor that is not there, or has exited, is forgotten. -/
theorem SucPre.forget {pre : ℕ} (hpre : stillThere petFinished jobs pre = false)
    (h : SucPre petFinished n l jobs
      { job with jidPredecessorList := job.jidPredecessorList.erase pre } r) :
    SucPre petFinished n (pre :: l) jobs job r where
  others := by
    intro m
    rw [h.others]
    cases hm : jobs m with
    | none => rfl
    | some parent =>
      by_cases hne : pre = m
      · subst hne
        have hexited : jobExited petFinished parent = true := by
          rw [stillThere, hm] at hpre
          simpa using hpre
        simp only [Option.map_some, joined, hexited, if_true]
      · simp only [Option.map_some, joined, List.count_cons_of_ne hne]
  same := h.same
  preds := by
    intro b
    rw [h.preds]
    by_cases hne : pre = b
    · subst hne
      simp only [hpre, List.count_erase_self, List.count_cons_self, if_neg Bool.false_ne_true]
      omega
    · simp only [List.count_erase_of_ne (Ne.symm hne), List.count_cons_of_ne hne]

theorem jobSucPre_spec (l : List ℕ) (jobs : MasterJobList) (job : Job) :
    SucPre petFinished n l jobs job (l.foldl (sucPreStep petFinished n) (jobs, job)) := by
  induction l generalizing jobs job with
  | nil =>
    refine ⟨fun m => ?_, rfl, fun b => ?_⟩
    · cases hm : jobs m with
      | none => exact hm
      | some parent => simp [joined, hm]
    · simp
  | cons pre l ih =>
    rw [List.foldl_cons]
    cases hpre : jobs pre with
    | none =>
      have hstep : sucPreStep petFinished n (jobs, job) pre = (jobs, { job with
          jidPredecessorList := job.jidPredecessorList.erase pre }) := by
        simp only [sucPreStep, hpre]
      rw [hstep]
      apply SucPre.forget petFinished _ (ih jobs _)
      rw [stillThere, hpre]
    | some parent =>
      cases hexited : jobExited petFinished parent with
      | true =>
        have hstep : sucPreStep petFinished n (jobs, job) pre = (jobs, { job with
            jidPredecessorList := job.jidPredecessorList.erase pre }) := by
          simp only [sucPreStep, hpre, hexited, if_true]
        rw [hstep]
        apply SucPre.forget petFinished _ (ih jobs _)
        rw [stillThere, hpre]
        simp [hexited]
      | false =>
        have hstep : sucPreStep petFinished n (jobs, job) pre = (jobs.set pre { parent with
            jidSuccessorList := parent.jidSuccessorList ++ [n] }, job) := by
          simp only [sucPreStep, hpre, hexited, if_neg Bool.false_ne_true]
        rw [hstep]
        obtain ⟨hjobs, hjob, hpreds⟩ := ih (jobs.set pre { parent with
          jidSuccessorList := parent.jidSuccessorList ++ [n] }) job
        refine ⟨fun m => ?_, hjob, fun b => ?_⟩
        · rw [hjobs]
          by_cases hne : m = pre
          · subst hne
            have hexited' : jobExited petFinished { parent with
                jidSuccessorList := parent.jidSuccessorList ++ [n] } = false := hexited
            rw [set_self, hpre]
            simp only [Option.map_some, joined, hexited, hexited', List.count_cons_self,
              if_neg Bool.false_ne_true, List.replicate_succ, List.append_assoc,
              List.singleton_append]
          · rw [set_of_ne jobs _ hne]
            cases hm : jobs m with
            | none => rfl
            | some other =>
              simp only [Option.map_some, joined, List.count_cons_of_ne (Ne.symm hne)]
        · rw [hpreds]
          by_cases hne : b = pre
          · subst hne
            have hthere : stillThere petFinished (jobs.set b { parent with
                jidSuccessorList := parent.jidSuccessorList ++ [n] }) b = true := by
              rw [stillThere, set_self]
              exact congrArg (!·) hexited
            have hthere' : stillThere petFinished jobs b = true := by
              rw [stillThere, hpre]
              exact congrArg (!·) hexited
            rw [if_pos hthere, if_pos hthere']
          · have hsame : stillThere petFinished (jobs.set pre { parent with
                jidSuccessorList := parent.jidSuccessorList ++ [n] }) b =
                  stillThere petFinished jobs b := by
              rw [stillThere, stillThere, set_of_ne jobs _ hne]
            rw [hsame, List.count_cons_of_ne (Ne.symm hne)]

/-! ## The invariant -/

structure Tidy (jobs : MasterJobList) : Prop where
  ok : JobsOk jobs
  filled : ∀ n job, jobs n = some job → Filled job
  folded : ∀ n job, jobs n = some job → ∀ task ∈ job.jaTasks, task.status = jfinished →
    Folded task

/-- A job waits for other jobs that have something to do and name it as often as it names
them. -/
def WaitsAt (jobs : MasterJobList) (n : ℕ) : Prop :=
  ∀ job, jobs n = some job → ∀ a ∈ job.jidPredecessorList, a ≠ n ∧ HasUnfinished jobs a ∧
    ∃ pre, jobs a = some pre ∧ job.jidPredecessorList.count a ≤ pre.jidSuccessorList.count n

structure DependencyInv (jobs : MasterJobList) : Prop extends Tidy jobs where
  waits : ∀ n, WaitsAt jobs n

theorem DependencyInv.linked (h : DependencyInv jobs) : JidLinked jobs := by
  intro n job hjob a ha
  obtain ⟨hne, hunfinished, pre, hpre, hcount⟩ := h.waits n job hjob a ha
  exact ⟨hne, hunfinished, pre, hpre,
    List.count_pos_iff.mp ((List.count_pos_iff.mpr ha).trans_le hcount)⟩

theorem DependencyInv.known (h : DependencyInv jobs) (n : ℕ) : Known jobs n := by
  intro job hjob m jobm hjobm
  by_cases hmem : n ∈ jobm.jidPredecessorList
  · obtain ⟨-, -, pre, hpre, hcount⟩ := h.waits m jobm hjobm n hmem
    rw [hjob] at hpre
    exact Option.some.inj hpre ▸ hcount
  · rw [List.count_eq_zero.mpr hmem]
    exact Nat.zero_le _

theorem Tidy.exited (h : Tidy jobs) (hjob : jobs n = some job)
    (hdone : ∀ x, TaskDone job x) : jobExited petFinished job = true := by
  obtain ⟨hempty, hfinished⟩ := allDone_iff.mp hdone
  rw [jobExited, Bool.and_eq_true, List.all_eq_true, List.all_eq_true]
  constructor
  · intro attr _
    cases hids : job.ids attr with
    | none => rfl
    | some l =>
      -- a list that is there has an id
      cases l with
      | nil => exact absurd hids (h.filled n job hjob attr)
      | cons r l =>
        have hlist : job.idList attr = r :: l := by rw [Job.idList, hids]; rfl
        have hmin : Has (job.idList attr) r.min := by
          have hr := ((h.ok n job hjob).idLists attr).canonical.aligned r
            (hlist ▸ (.head _))
          rw [hlist, has_cons]
          exact Or.inl ⟨le_rfl, hr.le, by rw [Nat.sub_self]; exact dvd_zero r.step⟩
        have hmem : r.min ∈ job.unenrolled := ⟨attr, hmin⟩
        rw [hempty] at hmem
        exact absurd hmem (Set.notMem_empty _)
  · intro task htask
    have hstatus := hfinished task htask
    rw [Bool.and_eq_true, List.all_eq_true]
    refine ⟨decide_eq_true hstatus, fun pet hpet => ?_⟩
    rw [Bool.or_eq_true]
    exact Or.inl (decide_eq_true (h.folded n job hjob task htask hstatus pet hpet))

theorem Tidy.hasUnfinished (h : Tidy jobs)
    (hthere : stillThere petFinished jobs n = true) : HasUnfinished jobs n := by
  unfold stillThere at hthere
  split at hthere
  · exact absurd hthere Bool.false_ne_true
  next job hjob =>
    refine ⟨job, hjob, ?_⟩
    by_contra hall
    rw [h.exited petFinished hjob (not_exists_not.mp hall)] at hthere
    exact absurd hthere Bool.false_ne_true

/-- Something is left to do where nothing that is left to do goes away. -/
theorem HasUnfinished.mono (hunfinished : HasUnfinished jobs n)
    (h : ∀ job, jobs n = some job → ∃ job', jobs' n = some job' ∧
      ∀ x, ¬ TaskDone job x → ∃ y, ¬ TaskDone job' y) : HasUnfinished jobs' n := by
  obtain ⟨job, hjob, x, hx⟩ := hunfinished
  obtain ⟨job', hjob', hmono⟩ := h job hjob
  exact ⟨job', hjob', hmono x hx⟩

theorem Tidy.set (h : Tidy jobs) (hok : JobOk job') (hfilled : Filled job')
    (hfolded : ∀ task ∈ job'.jaTasks, task.status = jfinished → Folded task) :
    Tidy (jobs.set n job') := by
  have hold : ∀ m jobm', jobs.set n job' m = some jobm' → jobm' = job' ∨
      jobs m = some jobm' := by
    intro m jobm' hjobm'
    by_cases hm : m = n
    · subst hm
      rw [set_self] at hjobm'
      exact Or.inl (Option.some.inj hjobm').symm
    · rw [set_of_ne jobs job' hm] at hjobm'
      exact Or.inr hjobm'
  constructor
  · intro m jobm' hjobm'
    rcases hold m jobm' hjobm' with rfl | hjobm
    · exact hok
    · exact h.ok m jobm' hjobm
  · intro m jobm' hjobm'
    rcases hold m jobm' hjobm' with rfl | hjobm
    · exact hfilled
    · exact h.filled m jobm' hjobm
  · intro m jobm' hjobm'
    rcases hold m jobm' hjobm' with rfl | hjobm
    · exact hfolded
    · exact h.folded m jobm' hjobm

/-- The new job has the old one's place: its successors, and something to do if the old one
had. -/
def Replaces (jobs : MasterJobList) (n : ℕ) (job' : Job) : Prop :=
  ∀ old, jobs n = some old → (∀ m, m ≠ n →
      old.jidSuccessorList.count m ≤ job'.jidSuccessorList.count m) ∧
    ∀ x, ¬ TaskDone old x → ∃ y, ¬ TaskDone job' y

variable {a : ℕ}

theorem HasUnfinished.set (h : HasUnfinished jobs a) (hreplaces : Replaces jobs n job') :
    HasUnfinished (jobs.set n job') a := by
  refine h.mono fun old hold => ?_
  by_cases ha : a = n
  · subst ha
    exact ⟨job', set_self jobs a job', (hreplaces old hold).2⟩
  · exact ⟨old, by rw [set_of_ne jobs job' ha, hold], fun x hx => ⟨x, hx⟩⟩

theorem WaitsAt.set (h : WaitsAt jobs m) (hm : m ≠ n) (hreplaces : Replaces jobs n job') :
    WaitsAt (jobs.set n job') m := by
  intro jobm hjobm a ha
  rw [set_of_ne jobs job' hm] at hjobm
  obtain ⟨hne, hunfinished, pre, hpre, hcount⟩ := h jobm hjobm a ha
  refine ⟨hne, hunfinished.set hreplaces, ?_⟩
  by_cases han : a = n
  · subst han
    exact ⟨job', set_self jobs a job', hcount.trans ((hreplaces pre hpre).1 m hm)⟩
  · exact ⟨pre, by rw [set_of_ne jobs job' han, hpre], hcount⟩

theorem Tidy.put (h : Tidy jobs) (hwaits : ∀ m, m ≠ n → WaitsAt jobs m) (hok : JobOk job')
    (hfilled : Filled job') (hfolded : ∀ task ∈ job'.jaTasks, task.status = jfinished → Folded task)
    (hreplaces : Replaces jobs n job')
    (hpreds : ∀ a ∈ job'.jidPredecessorList, a ≠ n ∧ HasUnfinished jobs a ∧
      ∃ pre, jobs a = some pre ∧ job'.jidPredecessorList.count a ≤ pre.jidSuccessorList.count n) :
    DependencyInv (jobs.set n job') where
  toTidy := h.set hok hfilled hfolded
  waits := by
    intro m
    by_cases hm : m = n
    · subst hm
      intro job hjob a ha
      rw [set_self] at hjob
      cases hjob
      obtain ⟨hne, hunfinished, pre, hpre, hcount⟩ := hpreds a ha
      exact ⟨hne, hunfinished.set hreplaces, pre, by rw [set_of_ne jobs job' hne, hpre], hcount⟩
    · exact (hwaits m hm).set hm hreplaces

variable (h : DependencyInv jobs)
include h

/-- A job changes, but not its dependencies, and something is left to do if it was. -/
theorem DependencyInv.set (hjob : jobs n = some job) (hok : JobOk job')
    (hfilled : Filled job') (hfolded : ∀ task ∈ job'.jaTasks, task.status = jfinished → Folded task)
    (hpreds : job'.jidPredecessorList = job.jidPredecessorList)
    (hsuccs : job'.jidSuccessorList = job.jidSuccessorList)
    (hmono : ∀ x, ¬ TaskDone job x → ∃ y, ¬ TaskDone job' y) : DependencyInv (jobs.set n job') := by
  refine h.put (fun m _ => h.waits m) hok hfilled hfolded (fun old hold => ?_) ?_
  · rw [hjob] at hold
    cases hold
    exact ⟨fun m _ => by rw [hsuccs], hmono⟩
  · rw [hpreds]
    exact h.waits n job hjob

/-! ## Steps that do not link -/

theorem DependencyInv.setHold (hjob : jobs n = some job)
    (new : BitVec 32) : DependencyInv (jobs.set n (jobSetHoldState σ job t new)) := by
  have hok := h.ok n job hjob
  have hsame : SameTasks job (jobSetHoldState σ job t new) := jobSetHoldState_keeps hok
  have hlinks : LinksJob (fun _ => False) job (jobSetHoldState σ job t new) :=
    linksJob_setHold _ job t new
  refine h.set hjob (hok.setHoldState new) (hlinks.filled (h.filled n job hjob)) ?_ ?_
    hlinks.succs fun x hx => ⟨x, mt (taskDone_same hsame).mp hx⟩
  · intro task htask hstatus
    obtain ⟨old, hold, -, hstatus', hlist⟩ := (hlinks.tasks task htask).resolve_left id
    rw [Folded, ← hlist]
    exact h.folded n job hjob old hold (hstatus'.trans hstatus)
  · unfold jobSetHoldState
    split <;> rfl

theorem DependencyInv.enroll (hjob : jobs n = some job)
    {template : JaTask} (ht : Has (job.idList .nHIds) t) (hstatus : template.status ≠ jfinished)
    : DependencyInv (jobs.set n (jobEnroll template job t)) := by
  have hok := h.ok n job hjob
  have htasks := jaTasks_enroll template hok ht
  refine h.set hjob (hok.enroll template ht) ?_ ?_ rfl rfl fun x hx => ?_
  · intro attr
    unfold jobEnroll
    dsimp only
    split
    · exact objectDeleteRangeId_ne _ t
    · exact h.filled n job hjob attr
  · intro task htask hfinished
    rw [htasks, List.mem_append, List.mem_singleton] at htask
    rcases htask with htask | rfl
    · exact h.folded n job hjob task htask hfinished
    · exact absurd hfinished hstatus
  · -- the enrolled task is not finished
    refine ⟨t, fun hdone => hstatus (hdone.2 (jobGetJaTaskTemplatePending template t) ?_ rfl)⟩
    rw [htasks]
    exact List.mem_append_right _ (.head _)

theorem DependencyInv.addPeTask (pet : String)
    (hrunning : ∀ job, jobs n = some job → ∀ task ∈ job.jaTasks, task.number = t →
      task.status ≠ jfinished) : DependencyInv (changeTask jobs n t (addPeTask pet)) := by
  unfold changeTask
  split
  · exact h
  next job hjob =>
    have hok := h.ok n job hjob
    have hmap := modifyTask_map (t := t) (f := Qmaster.addPeTask pet)
      (g := fun t => (t.number, t.status)) (fun _ => rfl) job.jaTasks
    have hsame : SameTasks job { job with
        jaTasks := modifyTask t (Qmaster.addPeTask pet) job.jaTasks } :=
      ⟨⟨rfl, rfl, rfl, rfl⟩, rfl, hmap⟩
    refine h.set hjob (jobOk_modifyTask hok fun _ => rfl) (h.filled n job hjob) ?_ rfl rfl
      fun x hx => ⟨x, mt (taskDone_same hsame).mp hx⟩
    intro task htask hstatus
    rcases (mem_modifyTask hok.numbers).mp htask with ⟨hold, -⟩ | ⟨z, hz, hnum, rfl⟩
    · exact h.folded n job hjob task hold hstatus
    · exact absurd hstatus (hrunning job hjob z hz hnum)

/-! ## Steps that end a task -/

theorem DependencyInv.ended (hended : TaskEnded n t job jobs jobs')
    (hlinks : Links (Ending n t) jobs jobs')
    (hfolded : ∀ job', jobs' n = some job' → ∀ task ∈ job'.jaTasks, task.number = t → Folded task)
    (hleft : WaitedFor jobs' n → ∃ x, x ≠ t ∧ ¬ TaskDone job x) : DependencyInv jobs' where
  ok := hended.ok
  filled := by
    intro m job' hjob'
    obtain ⟨old, hold, hlink⟩ := hlinks m job' hjob'
    exact hlink.filled (h.filled m old hold)
  folded := by
    intro m job' hjob' task htask hstatus
    obtain ⟨old, hold, hlink⟩ := hlinks m job' hjob'
    rcases hlink.tasks task htask with ⟨rfl, hnum⟩ | ⟨task', htask', -, hstatus', hlist⟩
    · exact hfolded job' hjob' task htask hnum
    · rw [Folded, ← hlist]
      exact h.folded m old hold task' htask' (hstatus'.trans hstatus)
  waits := by
    intro m job' hjob' a ha
    obtain ⟨old, hold, hlink⟩ := hlinks m job' hjob'
    have hmem : a ∈ old.jidPredecessorList :=
      List.count_pos_iff.mp ((List.count_pos_iff.mpr ha).trans_le (hlink.preds a))
    obtain ⟨hne, hunfinished, pre, hpre, hcount⟩ := h.waits m old hold a hmem
    have hunfinished' : HasUnfinished jobs' a := by
      by_cases han : a = n
      · subst han
        exact hended.hasUnfinished.mpr (hleft ⟨m, job', hjob', ha⟩)
      · refine hunfinished.mono fun pre hpre => ?_
        obtain ⟨pre', hpre', hsame⟩ := hended.others a han pre hpre
        exact ⟨pre', hpre', fun x hx => ⟨x, mt (taskDone_same hsame).mp hx⟩⟩
    obtain ⟨pre', hpre', -⟩ := id hunfinished'
    obtain ⟨pre1, hpre1, hlinkp⟩ := hlinks a pre' hpre'
    rw [hpre] at hpre1
    cases hpre1
    exact ⟨hne, hunfinished', pre', hpre', (hlink.preds a).trans (hlinkp.succs.symm ▸ hcount)⟩

omit h

/-- **A commit** keeps the links if it does not end a job unnoticed that others wait for. -/
theorem DependencyInv.commit (h : DependencyInv s.jobs) (hjob : s.jobs n = some job)
    (ht : mode.Applies job t) (hlifts : WaitedFor s.jobs n → CompletesAtEnd n s (.commit mode t))
    (hcommit : sgeCommitJob σ conf s n t mode = some s') : DependencyInv s'.jobs := by
  obtain ⟨hended, hcompleted, -⟩ := sgeCommitJob_spec h.ok hjob ht hcommit
  obtain ⟨hlinks, hreleased, hfolded⟩ := sgeCommitJob_links h.ok hjob ht (h.known n) hcommit
  refine h.ended hended hlinks hfolded fun hwaited => ?_
  have hlog := hreleased.resolve_right (not_not_intro hwaited)
  have hnot : ¬ mode.Completes job t := by
    intro hcompletes
    have hgrown := hcompleted hcompletes
    rw [hlog, List.self_eq_append_right] at hgrown
    exact absurd hgrown (List.cons_ne_nil _ _)
  rw [(completes_iff (h.ok n job hjob) hjob ht).mpr (hlifts (hlinks.waitedFor hwaited))] at hnot
  push Not at hnot
  exact hnot

/-- The sweep takes a finished task, which leaves what is to be done. -/
theorem DependencyInv.bury (h : DependencyInv s.jobs) (hjob : s.jobs n = some job)
    {task : JaTask} (htask : task ∈ job.jaTasks) (hstatus : task.status = jfinished) :
    DependencyInv (sgeBuryJaTask σ s n task.number).jobs := by
  have hok := h.ok n job hjob
  obtain ⟨hended, -⟩ := sgeBuryJaTask_spec (σ := σ) h.ok hjob (Or.inr ⟨task, htask, rfl⟩)
  have hlinks : Links (Ending n task.number) s.jobs (sgeBuryJaTask σ s n task.number).jobs :=
    sgeBuryJaTask_links σ s n task.number
  refine h.ended hended hlinks (fun job' hjob' task' htask' hnum =>
    absurd hnum (sgeBuryJaTask_gone h.ok hjob' task' htask')) fun hwaited => ?_
  obtain ⟨m, old, hold, hmem⟩ := hlinks.waitedFor hwaited
  obtain ⟨-, ⟨job', hjob', x, hx⟩, -⟩ := h.waits m old hold n hmem
  rw [hjob] at hjob'
  cases hjob'
  refine ⟨x, ?_, hx⟩
  rintro rfl
  apply hx
  refine ⟨hok.enrolled task htask, fun y hy hnum => ?_⟩
  have hfind := hok.search_of_mem hy
  rw [hnum, hok.search_of_mem htask] at hfind
  exact Option.some.inj hfind ▸ hstatus

/-! ## Submissions and modifications -/

theorem jobOk_lists (h : JobOk job) (preds succs : List ℕ) :
    JobOk { job with jidPredecessorList := preds, jidSuccessorList := succs } :=
  h.of_same ⟨⟨rfl, rfl, rfl, rfl⟩, rfl, rfl⟩ h.idLists h.held

theorem taskDone_joined {parent : Job} {x : ℕ} :
    TaskDone (joined petFinished n l m parent) x ↔ TaskDone parent x :=
  taskDone_same ⟨⟨rfl, rfl, rfl, rfl⟩, rfl, rfl⟩

theorem Tidy.link (h : Tidy jobs) (hsuc : SucPre petFinished n l jobs job r) : Tidy r.1 := by
  have hback : ∀ m job', r.1 m = some job' → ∃ old, jobs m = some old ∧
      job' = joined petFinished n l m old := by
    intro m job' hjob'
    rw [hsuc.others] at hjob'
    obtain ⟨old, hold, rfl⟩ := Option.map_eq_some_iff.mp hjob'
    exact ⟨old, hold, rfl⟩
  constructor
  · intro m job' hjob'
    obtain ⟨old, hold, rfl⟩ := hback m job' hjob'
    exact jobOk_lists (h.ok m old hold) _ _
  · intro m job' hjob'
    obtain ⟨old, hold, rfl⟩ := hback m job' hjob'
    exact h.filled m old hold
  · intro m job' hjob'
    obtain ⟨old, hold, rfl⟩ := hback m job' hjob'
    exact h.folded m old hold

theorem HasUnfinished.link (h : HasUnfinished jobs a)
    (hsuc : SucPre petFinished n l jobs job r) : HasUnfinished r.1 a := by
  refine h.mono fun old hold => ⟨joined petFinished n l a old, ?_, fun x hx => ⟨x, ?_⟩⟩
  · rw [hsuc.others, hold]
    rfl
  · exact mt (taskDone_joined petFinished).mp hx

theorem WaitsAt.link (h : WaitsAt jobs m)
    (hsuc : SucPre petFinished n l jobs job r) : WaitsAt r.1 m := by
  intro job' hjob' a ha
  rw [hsuc.others] at hjob'
  obtain ⟨old, hold, rfl⟩ := Option.map_eq_some_iff.mp hjob'
  obtain ⟨hne, hunfinished, pre, hpre, hcount⟩ := h old hold a ha
  refine ⟨hne, hunfinished.link petFinished hsuc, joined petFinished n l a pre, ?_, ?_⟩
  · rw [hsuc.others, hpre]
    rfl
  · exact hcount.trans (List.Sublist.count_le m (List.sublist_append_left _ _))

theorem Tidy.linked_waits (h : Tidy jobs)
    (hsuc : SucPre petFinished n job.jidPredecessorList jobs job r)
    (hself : n ∉ job.jidPredecessorList) : ∀ a ∈ r.2.jidPredecessorList, a ≠ n ∧
      HasUnfinished r.1 a ∧ ∃ pre, r.1 a = some pre ∧
        r.2.jidPredecessorList.count a ≤ pre.jidSuccessorList.count n := by
  intro a ha
  have hcount := hsuc.preds a
  rw [← List.count_pos_iff] at ha
  by_cases hthere : stillThere petFinished jobs a = true
  · rw [if_pos hthere, Nat.sub_zero] at hcount
    have hmem : a ∈ job.jidPredecessorList := List.count_pos_iff.mp (hcount ▸ ha)
    have hunfinished := h.hasUnfinished petFinished hthere
    obtain ⟨pre, hpre, hexited⟩ : ∃ pre, jobs a = some pre ∧
        jobExited petFinished pre = false := by
      unfold stillThere at hthere
      split at hthere
      · exact absurd hthere Bool.false_ne_true
      next pre hpre => exact ⟨pre, hpre, by simpa using hthere⟩
    have hpre' : r.1 a = some (joined petFinished n job.jidPredecessorList a pre) := by
      rw [hsuc.others, hpre]
      rfl
    refine ⟨fun heq => hself (heq ▸ hmem), hunfinished.link petFinished hsuc, _, hpre', ?_⟩
    · simp only [hcount, joined, hexited, if_neg Bool.false_ne_true, List.count_append,
        List.count_replicate_self]
      exact Nat.le_add_left _ _
  · rw [if_neg hthere, Nat.sub_self] at hcount
    omega

theorem jobSucPre_sucPre (jobs : MasterJobList) (n : ℕ) (job : Job) :
    SucPre petFinished n job.jidPredecessorList jobs job (jobSucPre petFinished jobs n job) :=
  jobSucPre_spec petFinished job.jidPredecessorList jobs job

/-- A job that is not in the list yet is linked. The jobs it waits for know of it. -/
theorem DependencyInv.jobSucPre (h : DependencyInv jobs) (hnone : jobs n = none)
    (hself : n ∉ job.jidPredecessorList) (hok : JobOk job) (hfilled : Filled job)
    (hnew : job.jaTasks = []) : DependencyInv (jobSucPre petFinished jobs n job).1 ∧
      (jobSucPre petFinished jobs n job).1 n = none ∧
      DependencyInv ((jobSucPre petFinished jobs n job).1.set n
        (jobSucPre petFinished jobs n job).2) := by
  have hsuc := jobSucPre_sucPre petFinished jobs n job
  have hsame := hsuc.same
  have htidy := h.toTidy.link petFinished hsuc
  have hnone' : (Qmaster.jobSucPre petFinished jobs n job).1 n = none := by
    rw [hsuc.others, hnone]
    rfl
  refine ⟨⟨htidy, fun m => (h.waits m).link petFinished hsuc⟩, hnone', ?_⟩
  refine htidy.put (fun m _ => (h.waits m).link petFinished hsuc) ?_ ?_ ?_ (fun old hold => ?_)
    (h.toTidy.linked_waits petFinished hsuc hself)
  · rw [hsame]
    exact jobOk_lists hok _ _
  · rw [hsame]
    exact hfilled
  · rw [hsame]
    intro task htask
    dsimp only at htask
    rw [hnew] at htask
    cases htask
  · rw [hnone'] at hold
    exact absurd hold.symm (Option.some_ne_none old)

theorem linkSubmitted_inv (h : DependencyInv jobs) (hnone : jobs n = none) (hok : JobOk job)
    (hfilled : Filled job) (hnew : job.jaTasks = []) {preds : List ℕ} {linked : MasterJobList × Job}
    (hlink : linkSubmitted petFinished jobs n job preds = some linked) :
    DependencyInv linked.1 ∧ linked.1 n = none ∧ DependencyInv (linked.1.set n linked.2) := by
  unfold linkSubmitted at hlink
  split at hlink
  · exact absurd hlink.symm (Option.some_ne_none linked)
  next hself =>
    cases hlink
    exact h.jobSucPre petFinished hnone hself (jobOk_lists hok _ _) hfilled hnew

/-- **A submission** keeps the links, whatever fails in it. -/
theorem DependencyInv.submit (h : DependencyInv jobs) (hnone : jobs n = none) (hok : JobOk job)
    (hfilled : Filled job) (hnew : job.jaTasks = []) (jsv : Option (List ℕ)) (preds : List ℕ)
    (stored : Bool) : DependencyInv (submitJob petFinished jobs n job jsv preds stored) := by
  unfold submitJob
  dsimp only
  split
  · exact h
  next jobs1 hjobs1 =>
    have hbefore : DependencyInv jobs1 ∧ jobs1 n = none := by
      cases jsv with
      | none => exact Option.some.inj hjobs1 ▸ ⟨h, hnone⟩
      | some preds =>
        obtain ⟨linked, hlinked, rfl⟩ := Option.map_eq_some_iff.mp hjobs1
        obtain ⟨hinv, hnone', -⟩ := linkSubmitted_inv petFinished h hnone hok hfilled hnew hlinked
        exact ⟨hinv, hnone'⟩
    obtain ⟨hinv1, hnone1⟩ := hbefore
    split
    · exact hinv1
    next jobs2 job2 hlinked =>
      obtain ⟨hinv2, -, hstored⟩ := linkSubmitted_inv petFinished hinv1 hnone1 hok hfilled hnew
        hlinked
      split
      · exact hstored
      · exact hinv2

/-- Leaving the successors of one predecessor matters for the job itself only. -/
theorem unlinkPre_keeps (h : Tidy jobs) (pre : ℕ) : Tidy (unlinkPre n jobs pre) ∧
    ∀ m, m ≠ n → WaitsAt jobs m → WaitsAt (unlinkPre n jobs pre) m := by
  unfold unlinkPre
  split
  · exact ⟨h, fun m _ => id⟩
  next parent hparent =>
    constructor
    · exact h.set (jobOk_lists (h.ok pre parent hparent) _ _) (h.filled pre parent hparent)
        (h.folded pre parent hparent)
    · intro m hm hwaits job' hjob' a ha
      have hjob : ∃ job, jobs m = some job ∧
          job'.jidPredecessorList = job.jidPredecessorList := by
        by_cases hmp : m = pre
        · subst hmp
          rw [set_self] at hjob'
          exact ⟨parent, hparent, (Option.some.inj hjob') ▸ rfl⟩
        · rw [set_of_ne jobs _ hmp] at hjob'
          exact ⟨job', hjob', rfl⟩
      obtain ⟨job, hjob, heq⟩ := hjob
      rw [heq] at ha ⊢
      obtain ⟨hne, hunfinished, old, hold, hcount⟩ := hwaits job hjob a ha
      by_cases hap : a = pre
      · subst hap
        rw [hparent] at hold
        cases hold
        refine ⟨hne, hunfinished.mono fun old hold => ?_, _, set_self jobs a _, ?_⟩
        · rw [hparent] at hold
          cases hold
          refine ⟨_, set_self jobs a _, fun x hx => ⟨x, ?_⟩⟩
          exact mt (taskDone_same ⟨⟨rfl, rfl, rfl, rfl⟩, rfl, rfl⟩).mp hx
        · rwa [List.count_erase_of_ne hm]
      · refine ⟨hne, hunfinished.mono fun old hold => ?_, old, ?_, hcount⟩
        · exact ⟨old, by rw [set_of_ne jobs _ hap, hold], fun x hx => ⟨x, hx⟩⟩
        · rw [set_of_ne jobs _ hap, hold]

theorem unlink_keeps (h : Tidy jobs) (l : List ℕ) : Tidy (l.foldl (unlinkPre n) jobs) ∧
    ∀ m, m ≠ n → WaitsAt jobs m → WaitsAt (l.foldl (unlinkPre n) jobs) m := by
  induction l generalizing jobs with
  | nil => exact ⟨h, fun m _ => id⟩
  | cons pre l ih =>
    obtain ⟨htidy, hwaits⟩ := unlinkPre_keeps (n := n) h pre
    obtain ⟨htidy', hwaits'⟩ := ih htidy
    exact ⟨htidy', fun m hm hm' => hwaits' m hm (hwaits m hm hm')⟩

theorem unlink_self (hn : n ∉ l) : l.foldl (unlinkPre n) jobs n = jobs n := by
  induction l generalizing jobs with
  | nil => rfl
  | cons pre l ih =>
    rw [List.mem_cons, not_or] at hn
    rw [List.foldl_cons, ih hn.2]
    cases hpre : jobs pre with
    | none => rw [unlinkPre, hpre]
    | some parent =>
      rw [unlinkPre, hpre]
      exact set_of_ne jobs _ hn.1

/-- **A modification** of the predecessors keeps the links. -/
theorem DependencyInv.modify (h : DependencyInv jobs) (preds : List ℕ) (refused written : Bool) :
    DependencyInv (modifyPreds petFinished jobs n preds refused written) := by
  unfold modifyPreds
  split
  · exact h
  next job hjob =>
    split
    · exact h
    next hgo =>
      have hself : n ∉ preds := fun hmem => hgo (Or.inl hmem)
      generalize hnewJob : ({ job with
        jidPredecessorList := preds.filter fun pre => (jobs pre).isSome } : Job) = newJob
      have hok := h.ok n job hjob
      have hnewOk : JobOk newJob := hnewJob ▸ jobOk_lists hok _ _
      have hnewFilled : Filled newJob := hnewJob ▸ h.filled n job hjob
      have hnewFolded : ∀ task ∈ newJob.jaTasks, task.status = jfinished → Folded task :=
        hnewJob ▸ h.folded n job hjob
      have hnewSelf : n ∉ newJob.jidPredecessorList := by
        rw [← hnewJob]
        exact fun hmem => hself (List.mem_of_mem_filter hmem)
      have hsame : newJob.jidSuccessorList = job.jidSuccessorList ∧
          ∀ x, TaskDone newJob x ↔ TaskDone job x := by
        rw [← hnewJob]
        exact ⟨rfl, fun x => taskDone_same (same_preds job _ _)⟩
      -- the job leaves its old predecessors
      obtain ⟨htidy1, hwaits1⟩ := unlink_keeps (n := n) h.toTidy job.jidPredecessorList
      have hjob1 : job.jidPredecessorList.foldl (unlinkPre n) jobs n = some job := by
        rw [unlink_self fun hmem => (h.waits n job hjob n hmem).1 rfl, hjob]
      generalize job.jidPredecessorList.foldl (unlinkPre n) jobs = jobs1 at htidy1 hwaits1 hjob1 ⊢
      -- the copy takes its place
      have hreplaces : Replaces jobs1 n newJob := by
        intro old hold
        rw [hjob1] at hold
        cases hold
        exact ⟨fun m _ => by rw [hsame.1], fun x hx => ⟨x, mt (hsame.2 x).mp hx⟩⟩
      have htidy2 := htidy1.set (n := n) hnewOk hnewFilled hnewFolded
      have hwaits2 : ∀ m, m ≠ n → WaitsAt (jobs1.set n newJob) m := fun m hm =>
        (hwaits1 m hm (h.waits m)).set hm hreplaces
      -- and is linked to the new ones
      have hsuc := jobSucPre_sucPre petFinished (jobs1.set n newJob) n newJob
      have hlinked := hsuc.same
      refine (htidy2.link petFinished hsuc).put (fun m hm => (hwaits2 m hm).link petFinished hsuc)
        ?_ ?_ ?_ (fun old hold => ?_) (htidy2.linked_waits petFinished hsuc hnewSelf)
      · rw [hlinked]
        exact jobOk_lists hnewOk _ _
      · rw [hlinked]
        exact hnewFilled
      · rw [hlinked]
        exact hnewFolded
      · rw [hsuc.others, set_self] at hold
        cases hold
        rw [hlinked]
        refine ⟨fun m hm => ?_, fun x hx => ⟨x, fun hdone => hx ?_⟩⟩
        · simp only [joined, List.count_eq_zero.mpr hnewSelf, ite_self, List.replicate_zero,
            List.append_nil]
          exact le_rfl
        · exact (taskDone_joined petFinished).mpr
            ((taskDone_same (same_preds newJob _ _)).mp hdone)

/-! ## Runs -/

/-- **One step** keeps the links if it does not end a job unnoticed that others wait for. -/
theorem DependencyInv.step {op : DependencyOp} (h : DependencyInv s.jobs)
    (henabled : op.Enabled conf s.jobs) (hlifts : op.Lifts s)
    (hstep : op.perform σ conf s = some s') : DependencyInv s'.jobs := by
  cases op with
  | submit jobId job petFinished jsv preds stored =>
    obtain ⟨hnone, hok, hfilled, hnew⟩ := henabled
    exact Option.some.inj hstep ▸ h.submit petFinished hnone hok hfilled hnew jsv preds stored
  | modify jobId petFinished preds refused written =>
    exact Option.some.inj hstep ▸ h.modify petFinished preds refused written
  | start jobId template taskId =>
    simp only [DependencyOp.perform] at hstep
    split at hstep
    · exact Option.some.inj hstep ▸ h
    next job hjob =>
      obtain ⟨ht, hstatus, -⟩ := henabled job hjob
      exact Option.some.inj hstep ▸ h.enroll hjob ht hstatus
  | startPeTask jobId taskId petId =>
    exact Option.some.inj hstep ▸ h.addPeTask petId henabled
  | setHold jobId taskId newHoldState =>
    simp only [DependencyOp.perform] at hstep
    split at hstep
    · exact Option.some.inj hstep ▸ h
    next job hjob => exact Option.some.inj hstep ▸ h.setHold hjob newHoldState
  | ends jobId call =>
    cases call with
    | commit mode taskId =>
      obtain ⟨job, hjob, ht⟩ := henabled
      exact h.commit hjob ht hlifts hstep
    | buryJaTask taskId =>
      obtain ⟨-, job, hjob, task, htask, rfl, hstatus⟩ := henabled
      exact Option.some.inj hstep ▸ h.bury hjob htask hstatus

/-- In every state of a run whose steps lift the dependencies of a job that ends, a job waits only
for jobs that have something to do and know of it. -/
theorem linked_run (h : DependencyRun σ conf (fun s op => op.Lifts s) s) : JidLinked s.jobs := by
  suffices hinv : DependencyInv s.jobs from hinv.linked
  induction h with
  | start suserJobs log =>
    have hnone (n : ℕ) (job : Job) : ¬ (none : Option Job) = some job := nofun
    exact ⟨⟨fun n job hjob => absurd hjob (hnone n job), fun n job hjob =>
      absurd hjob (hnone n job), fun n job hjob => absurd hjob (hnone n job)⟩,
      fun n job hjob => absurd hjob (hnone n job)⟩
  | step h op henabled hlifts hstep ih => exact ih.step henabled hlifts hstep

/-! ## A job that waits for two tasks -/

def pair : Job := jobInitializeIdLists { threeTasks with jaStructure := [⟨1, 2, 1⟩] }

theorem pair_submitted : Sgeobj.Submitted { threeTasks with jaStructure := [⟨1, 2, 1⟩] } where
  jaTasks := rfl
  structureOk := {
    canonical := Canonical.cons (by constructor <;> decide) (by simp) Canonical.nil
    stored := by simp [Stored]
    ids := by
      intro x hx
      simp only [has_cons, has_nil, or_false] at hx
      obtain ⟨hmin, hmax, -⟩ := hx
      exact ⟨hmin, hmax.trans_lt (by decide)⟩ }

theorem pair_filled : Filled pair := by
  intro attr
  cases attr <;> decide

def noPets (_ : JaTask) (_ : String) : Bool := true

/-- Job 2 waits for job 1, whose first task runs. -/
def pairWaiting : QmasterState where
  jobs := (submitJob noPets (submitJob noPets (fun _ => none) 1 pair none [] true) 2 pair none [1]
    true).set 1 (jobEnroll templateTask { pair with jidSuccessorList := [2] } 1)
  suserJobs := fun _ => none
  log := []

theorem pairWaiting_reached (P : QmasterState → DependencyOp → Prop)
    (hP : ∀ s op, (∀ n call, op ≠ .ends n call) → P s op) :
    DependencyRun sortByMin ⟨3600, 0⟩ P pairWaiting := by
  have hstart : DependencyRun sortByMin ⟨3600, 0⟩ P ⟨fun _ => none, fun _ => none, []⟩ :=
    .start _ _
  have hone := hstart.step (.submit 1 pair noPets none [] true)
    ⟨rfl, pair_submitted.start, pair_filled, rfl⟩ (hP _ _ nofun) rfl
  have htwo := hone.step (.submit 2 pair noPets none [1] true)
    ⟨rfl, pair_submitted.start, pair_filled, rfl⟩ (hP _ _ nofun) rfl
  refine htwo.step (.start 1 templateTask 1) (fun job hjob => ?_) (hP _ _ nofun) rfl
  obtain rfl : { pair with jidSuccessorList := [2] } = job := Option.some.inj hjob
  exact ⟨has_iff.mpr (by decide +kernel), by decide, rfl⟩

/-- Job 2 waits, and job 1 knows. -/
theorem linked_pairWaiting : JidLinked pairWaiting.jobs ∧
    (pairWaiting.jobs 2).map Job.jidPredecessorList = some [1] := by
  refine ⟨linked_run (pairWaiting_reached (fun s op => op.Lifts s) fun s op hop => ?_),
    by decide +kernel⟩
  cases op with
  | ends n call => exact absurd rfl (hop n call)
  | _ => trivial

/-- The log, and the ids, the enrolled tasks of job 1, and the jobs that job 2 waits for. -/
structure PairView where
  log : List Completion
  job : Option (List (Option (List Range)) × List JaTask)
  preds : Option (List ℕ)
  deriving DecidableEq

def QmasterState.pairView (s : QmasterState) : PairView where
  log := s.log
  job := (s.jobs 1).map fun job => (idAttributes.map job.ids, job.jaTasks)
  preds := (s.jobs 2).map Job.jidPredecessorList

theorem allDone_of_lists (hids : idAttributes.map job.ids = [none, none, none, none, none])
    (htasks : ∀ task ∈ job.jaTasks, task.status = jfinished) : ∀ x, TaskDone job x := by
  refine allDone_iff.mpr ⟨Set.eq_empty_of_forall_notMem ?_, htasks⟩
  rintro y ⟨attr, hy⟩
  have hnone : ∀ l ∈ idAttributes.map job.ids, l = none := by
    rw [hids]
    decide
  rw [Job.idList, hnone _ (List.mem_map_of_mem (mem_idAttributes attr))] at hy
  exact has_nil y hy

/-- **The dependency is never lifted**: the running task ends first and is retained, the other one
is deleted, and job 2 still waits for job 1, which has nothing to do. -/
theorem not_linked_run : ¬ ∀ s, DependencyRun sortByMin ⟨3600, 0⟩ (fun _ _ => True) s →
    JidLinked s.jobs := by
  intro h
  have hwaiting := pairWaiting_reached (fun _ _ => True) fun _ _ _ => trivial
  obtain ⟨s₁, h₁, hv₁⟩ := Option.map_eq_some_iff.mp
    (show (DependencyOp.perform sortByMin ⟨3600, 0⟩ pairWaiting
      (.ends 1 (.commit .finishedFailedEe 1))).map QmasterState.pairView = some ⟨[], some
        ([some [⟨2, 2, 1⟩], none, none, none, none], [⟨1, 0x10000, 0x840, 0, []⟩]), some [1]⟩ by
      decide +kernel)
  obtain ⟨s₂, h₂, hv₂⟩ := Option.map_eq_some_iff.mp
    (show ((DependencyOp.perform sortByMin ⟨3600, 0⟩ pairWaiting
      (.ends 1 (.commit .finishedFailedEe 1))).bind fun s =>
        DependencyOp.perform sortByMin ⟨3600, 0⟩ s
          (.ends 1 (.commit .finishedFailed 2))).map QmasterState.pairView = some ⟨[], some
        ([none, none, none, none, none], [⟨1, 0x10000, 0x840, 0, []⟩]), some [1]⟩ by
      decide +kernel)
  rw [h₁, Option.bind_some] at h₂
  have hone := hwaiting.step (.ends 1 (.commit .finishedFailedEe 1))
    ⟨_, rfl, _, .head _, rfl, by decide⟩ trivial h₁
  have hdeleted : (Call.commit .finishedFailed 2).Enabled ⟨3600, 0⟩ s₁.jobs 1 := by
    obtain ⟨-, hjob, -⟩ := PairView.mk.inj hv₁
    obtain ⟨job, hjob, heq⟩ := Option.map_eq_some_iff.mp hjob
    have hlist : job.ids .nHIds = some [⟨2, 2, 1⟩] := (List.cons.inj (Prod.mk.inj heq).1).1
    refine ⟨job, hjob, .nHIds, ?_⟩
    rw [Job.idList, hlist]
    exact has_iff.mpr (by decide)
  have htwo := hone.step (.ends 1 (.commit .finishedFailed 2)) hdeleted trivial h₂
  obtain ⟨-, hjob, hpreds⟩ := PairView.mk.inj hv₂
  obtain ⟨job₂, hjob₂, hpreds⟩ := Option.map_eq_some_iff.mp hpreds
  obtain ⟨-, ⟨job, hjob', x, hx⟩, -⟩ := h s₂ htwo 2 job₂ hjob₂ 1 (hpreds ▸ (.head _))
  rw [hjob'] at hjob
  obtain ⟨hids, htasks⟩ := Prod.mk.inj (Option.some.inj hjob)
  exact hx (allDone_of_lists hids (by rw [htasks]; decide) x)

end ClusterScheduler.Qmaster
