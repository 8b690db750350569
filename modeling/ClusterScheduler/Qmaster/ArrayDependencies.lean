import ClusterScheduler.Qmaster.JobCompletion

/-!
# Releasing array dependencies

Job `b` was submitted with an array dependency on job `a`. Its tasks are held, each
until the tasks of `a` it waits for have ended.

* `NotReleasedEarly` — a task of `b` without the hold waits for nothing any more.
* `init_notReleasedEarly` — so it is after the submission.
* `commit_released` — the first task of `a` that ends takes `a` from the predecessors
  of `b`, and with it the hold from all tasks.
* `notReleasedEarly_iff` — in which runs no task is released early.
-/

namespace ClusterScheduler.Qmaster

open Foundation Sgeobj

/-- A task of `b` that is not finished and not held does not wait for a task of `a`. -/
def NotReleasedEarly (a b : ℕ) (jobs : MasterJobList) : Prop :=
  ∀ jobA jobB, jobs a = some jobA → jobs b = some jobB →
    ∀ x, ¬ TaskDone jobB x → ¬ AdHeld jobB x → Independent jobA jobB x

/-- When a task of `a` ends, no task of `b` waits for another task of `a`. -/
def LastAwaited (a b : ℕ) (s : QmasterState) : Call → Prop
  | .commit _ t => ∀ jobA jobB, s.jobs a = some jobA → s.jobs b = some jobB →
      ∀ x, ¬ TaskDone jobB x → ∀ r, sgeTaskDependGetRange jobA jobB x = some r →
        ∀ id, OnGrid r.min r.max r.step id → id ≠ t → TaskDone jobA id
  | .buryJaTask _ => True

/-- A job was submitted with an array dependency on `a` and no other job. Its tasks are
those it was submitted with. -/
structure SubmittedOn (a : ℕ) (jobB : Job) : Prop where
  request : jobB.jaAdRequestList ≠ []
  predecessor : jobB.jaAdPredecessorList = [a]
  tasks : ∃ r, jobB.jaStructure = [r] ∧ ∀ x, HasTask jobB x → rangeIsIdWithin r x = true

structure Depends (a b : ℕ) (jobs : MasterJobList) : Prop where
  ok : JobsOk jobs
  ne : a ≠ b
  successor : ∀ jobA, jobs a = some jobA → b ∈ jobA.jaAdSuccessorList
  job : ∃ jobB, jobs b = some jobB ∧ SubmittedOn a jobB

variable {σ : Sorter} {conf : FinishedJobsConf} {s s' s₀ : QmasterState}
  {jobs jobs' : MasterJobList} {job jobA jobB : Job} {a b n t x : ℕ} {call : Call}
  {mode : CommitMode}

/-! ## Submission -/

theorem getRange_onGrid {preJep sucJep : Job} {r : Range}
    (h : sgeTaskDependGetRange preJep sucJep x = some r) :
    (jobGetSubmitTaskIds sucJep).1 ≤ x ∧
      (jobGetSubmitTaskIds sucJep).2.2 ∣ x - (jobGetSubmitTaskIds sucJep).1 := by
  simp only [sgeTaskDependGetRange] at h
  split at h
  · exact absurd h (by simp)
  · split at h
    · exact absurd h (by simp)
    · next hcond =>
      rw [not_or, not_lt, not_not] at hcond
      exact ⟨hcond.1, Nat.dvd_of_mod_eq_zero hcond.2⟩

variable {modified : Bool}

theorem init_loop (hok : JobOk jobB) (hB : jobs b = some jobB) (hsub : SubmittedOn a jobB)
    (hinit : sgeTaskDependInit σ jobs b = some (jobs', modified)) :
    ∃ jobB', jobs' = jobs.set b jobB' ∧ LoopSpec jobs b
      (rangeIds ⟨(jobGetSubmitTaskIds jobB).1, (jobGetSubmitTaskIds jobB).2.1,
        (jobGetSubmitTaskIds jobB).2.2⟩) jobB jobB' := by
  rw [sgeTaskDependInit, hB] at hinit
  simp only [List.length_pos_of_ne_nil hsub.request, if_true, hsub.predecessor,
    List.length_cons, List.length_nil, Nat.reduceAdd, one_ne_zero, if_false] at hinit
  exact updateLoop_spec hB hok hinit

/-- **After the submission** no task of `b` is released that waits for a task of `a`. -/
theorem init_notReleasedEarly (h : Depends a b jobs)
    (hinit : sgeTaskDependInit σ jobs b = some (jobs', modified)) : NotReleasedEarly a b jobs' := by
  intro jobA' jobB' hA' hB' x hdone hheld
  obtain ⟨jobB, hB, hsub⟩ := h.job
  have hok := h.ok b jobB hB
  obtain ⟨jobB₁, rfl, hloop⟩ := init_loop hok hB hsub hinit
  rw [set_self] at hB'
  obtain rfl := Option.some.inj hB'
  rw [set_of_ne jobs jobB₁ h.ne] at hA'
  have htask := (hasTask_same hloop.same).mp (not_imp_comm.mp taskDone_of_not_hasTask hdone)
  rw [independent_same hloop.same.toSameSubmit]
  intro r hr
  -- the loop over the submitted range comes to `x`
  have hmem : x ∈ rangeIds ⟨(jobGetSubmitTaskIds jobB).1, (jobGetSubmitTaskIds jobB).2.1,
      (jobGetSubmitTaskIds jobB).2.2⟩ := by
    obtain ⟨hge, hdvd⟩ := getRange_onGrid hr
    obtain ⟨rs, hrs, hall⟩ := hsub.tasks
    have hle : x ≤ (jobGetSubmitTaskIds jobB).2.1 := by
      have := (within_iff.mp (hall x htask)).2.1
      simpa [jobGetSubmitTaskIds, hrs] using this
    have hlt : x < 2 ^ 32 := by
      rcases htask with hu | ⟨task, ht, rfl⟩
      · exact Nat.lt_trans (hok.unenrolled_isTaskId hu).2 (by decide)
      · exact Nat.lt_trans (hok.taskIds task ht).2 (by decide)
    exact mem_rangeIds_of_onGrid (submitStep_pos jobB) hlt ⟨hge, hle, hdvd⟩
  exact hloop.released x hmem htask (mt (taskDone_same hloop.same).mpr hdone) hheld a
    (by simp [hsub.predecessor]) h.ne jobA' hA' (h.ok a jobA' hA') r hr

/-! ## The end of a task releases everything -/

/-- No predecessor is left, and no task is held. -/
def Released (job : Job) : Prop := job.jaAdPredecessorList = [] ∧ ∀ x, ¬ AdHeld job x

/-- The job has asked for array dependencies, and `a` is left of them or nothing is. -/
def Waiting (a : ℕ) (job : Job) : Prop :=
  job.jaAdRequestList ≠ [] ∧ (job.jaAdPredecessorList = [a] ∨ Released job)

def Entry (b : ℕ) (Q : Job → Prop) (jobs : MasterJobList) : Prop :=
  ∃ job, jobs b = some job ∧ Q job

/-- Updates of tasks keep `Q`. -/
def UpdateStable (Q : Job → Prop) : Prop :=
  ∀ jobs n ids job job', LoopSpec jobs n ids job job' → Q job → Q job'

theorem released_stable : UpdateStable Released := by
  intro jobs n ids job job' hloop hr
  exact ⟨hloop.preds.trans hr.1, fun x hx => hr.2 x (hloop.free hr.1 x hx)⟩

theorem waiting_stable (a : ℕ) : UpdateStable (Waiting a) := by
  intro jobs n ids job job' hloop hw
  rw [Waiting, hloop.same.jaAdRequestList, hloop.preds]
  exact ⟨hw.1, hw.2.imp_right (released_stable jobs n ids job job' hloop)⟩

variable {Q : Job → Prop}

theorem UpdateStable.and {Q' : Job → Prop} (h : UpdateStable Q) (h' : UpdateStable Q') :
    UpdateStable fun job => Q job ∧ Q' job :=
  fun jobs n ids job job' hloop hq =>
    ⟨h jobs n ids job job' hloop hq.1, h' jobs n ids job job' hloop hq.2⟩

theorem entry_set_of_ne (hne : b ≠ n) (job : Job) :
    Entry b Q (jobs.set n job) ↔ Entry b Q jobs := by
  rw [Entry, Entry, set_of_ne jobs job hne]

/-- Updating the tasks of successors keeps what updates keep. -/
theorem releaseSuccessorTasksAd_entry (hQ : UpdateStable Q)
    (hok : JobsOk jobs) (h : releaseSuccessorTasksAd σ jobs n t = some jobs')
    (hentry : Entry b Q jobs) : Entry b Q jobs' := by
  unfold releaseSuccessorTasksAd at h
  split at h
  · exact Option.some.inj h ▸ hentry
  · next jep hjep =>
    clear hjep
    generalize jep.jaAdSuccessorList = l at h
    induction l generalizing jobs with
    | nil => exact Option.some.inj h ▸ hentry
    | cons suc l ih =>
      rw [List.foldlM_cons] at h
      obtain ⟨jobs₁, hone, hrest⟩ := Option.bind_eq_some_iff.mp h
      split at hone
      · cases hone
        exact ih hok hentry hrest
      · next sucJep hsuc =>
        split at hone
        · cases hone
          exact ih hok hentry hrest
        · obtain ⟨⟨jobs₂, m⟩, hupdate, rfl⟩ := Option.map_eq_some_iff.mp hone
          obtain ⟨job', rfl, hloop⟩ := updateLoop_spec hsuc (hok suc sucJep hsuc) hupdate
          refine ih (updateLoop_keeps hok hsuc hupdate).ok ?_ hrest
          by_cases hb : b = suc
          · subst hb
            obtain ⟨job, hjob, hq⟩ := hentry
            rw [hsuc] at hjob
            cases hjob
            exact ⟨job', set_self jobs b job', hQ _ _ _ _ _ hloop hq⟩
          · exact (entry_set_of_ne hb job').mpr hentry

/-- Without `a` among the predecessors all tasks lose the hold. -/
theorem flush_released (hok : JobOk job) (hw : Waiting a job)
    (ha : a ∈ job.jaAdPredecessorList) :
    let job' := (sgeTaskDependFlush σ { job with
      jaAdPredecessorList := job.jaAdPredecessorList.erase a }).1
    Waiting a job' ∧ Released job' := by
  have hnil : job.jaAdPredecessorList.erase a = [] := by
    rcases hw.2 with h | h
    · simp [h]
    · rw [h.1] at ha
      cases ha
  obtain ⟨ids, hcleared, hfree⟩ := sgeTaskDependFlush_spec (σ := σ)
    (jobOk_preds hok (job.jaAdPredecessorList.erase a) job.jidPredecessorList)
  have hpreds := hcleared.preds.trans hnil
  have hreleased : Released _ := ⟨hpreds, hfree hw.1 hnil⟩
  refine ⟨⟨?_, .inr hreleased⟩, hreleased⟩
  rw [hcleared.same.jaAdRequestList]
  exact hw.1

theorem unlinkSuccessorAd_of_ne (hne : b ≠ n) : unlinkSuccessorAd σ a jobs n b = jobs b := by
  unfold unlinkSuccessorAd
  cases jobs n with
  | none => rfl
  | some job =>
    dsimp only
    split
    · exact set_of_ne jobs _ hne
    · rfl

theorem unlinkSuccessorAd_entry (hok : JobsOk jobs) (hentry : Entry b (Waiting a) jobs) :
    Entry b (fun job => Waiting a job ∧ Released job) (unlinkSuccessorAd σ a jobs b) := by
  obtain ⟨job, hjob, hw⟩ := hentry
  rw [unlinkSuccessorAd, hjob]
  dsimp only
  split
  · next ha => exact ⟨_, set_self jobs b _, flush_released (hok b job hjob) hw ha⟩
  · next ha =>
    have hreleased : Released job := hw.2.resolve_left fun h => ha (h ▸ .head _)
    exact ⟨job, hjob, hw, hreleased⟩

theorem releaseSuccessorJobsAd_entry (hok : JobsOk jobs) (hA : jobs a = some jobA)
    (hsuc : b ∈ jobA.jaAdSuccessorList) (hentry : Entry b (Waiting a) jobs) :
    Entry b (fun job => Waiting a job ∧ Released job) (releaseSuccessorJobsAd σ jobs a) := by
  have hfold : ∀ (l : List ℕ) (jobs : MasterJobList), JobsOk jobs →
      Entry b (Waiting a) jobs →
      (b ∈ l ∨ Entry b (fun job => Waiting a job ∧ Released job) jobs) →
      Entry b (fun job => Waiting a job ∧ Released job)
        (l.foldl (unlinkSuccessorAd σ a) jobs) := by
    intro l
    induction l with
    | nil => exact fun jobs _ _ h => h.resolve_left List.not_mem_nil
    | cons suc l ih =>
      intro jobs hok hentry hor
      have hok' := (unlinkSuccessorAd_keeps (σ := σ) hok a suc).ok
      rw [List.foldl_cons]
      by_cases hb : b = suc
      · subst hb
        have hdone := unlinkSuccessorAd_entry (σ := σ) hok hentry
        exact ih _ hok' (hdone.imp fun job h => ⟨h.1, h.2.1⟩) (.inr hdone)
      · have hsame : unlinkSuccessorAd σ a jobs suc b = jobs b := unlinkSuccessorAd_of_ne hb
        refine ih _ hok' ?_ (hor.imp (fun h => (List.mem_cons.mp h).resolve_left hb) ?_)
        · rwa [Entry, hsame]
        · intro h
          rwa [Entry, hsame]
  rw [releaseSuccessorJobsAd, hA]
  exact hfold jobA.jaAdSuccessorList jobs hok hentry (.inl hsuc)

theorem releaseSuccessorJobs_entry
    (hQ : ∀ (job : Job) (jid : List ℕ), Q job → Q { job with jidPredecessorList := jid })
    (hentry : Entry b Q s.jobs) : Entry b Q (releaseSuccessorJobs s n).jobs := by
  unfold releaseSuccessorJobs
  split
  · exact hentry
  · next jep _ =>
    refine List.foldlRecOn jep.jidSuccessorList _ hentry fun jobs hentry suc _ => ?_
    split
    · exact hentry
    · next sucJep hsuc =>
      by_cases hb : b = suc
      · subst hb
        obtain ⟨job, hjob, hq⟩ := hentry
        rw [hsuc] at hjob
        cases hjob
        exact ⟨_, set_self jobs b _, hQ _ _ hq⟩
      · exact (entry_set_of_ne hb _).mpr hentry

theorem sgeFinishJaTask_entry (hok : JobsOk s.jobs) (hA : s.jobs a = some jobA)
    (hsuc : b ∈ jobA.jaAdSuccessorList) (hentry : Entry b (Waiting a) s.jobs)
    (h : sgeFinishJaTask σ s a t = some s') :
    Entry b (fun job => Waiting a job ∧ Released job) s'.jobs := by
  obtain ⟨jobs, htasks, h⟩ := Option.bind_eq_some_iff.mp h
  have hkeeps := releaseSuccessorJobsAd_keeps (σ := σ) hok a
  have hreleased := releaseSuccessorTasksAd_entry ((waiting_stable a).and released_stable)
    hkeeps.ok htasks (releaseSuccessorJobsAd_entry hok hA hsuc hentry)
  dsimp only at h
  split at h
  · exact Option.some.inj h ▸ hreleased
  · split at h
    · rw [← Option.some.inj h, suserUnregisterJob_jobs]
      exact releaseSuccessorJobs_entry (s := { s with jobs := jobs })
        (fun _ _ hq => hq) hreleased
    · exact Option.some.inj h ▸ hreleased

theorem sgeBuryJaTask_of_ne (hne : b ≠ n) : (sgeBuryJaTask σ s n t).jobs b = s.jobs b := by
  unfold sgeBuryJaTask
  split
  · rfl
  · split
    · exact Function.update_of_ne hne none s.jobs
    · split <;> exact set_of_ne s.jobs _ hne

theorem changeTask_of_ne (hne : b ≠ n) (f : JaTask → JaTask) :
    changeTask jobs n t f b = jobs b := by
  unfold changeTask
  cases jobs n with
  | none => rfl
  | some job => exact set_of_ne jobs _ hne

theorem sgeBuryJob_entry (hne : b ≠ a) (hok : JobsOk s.jobs) (hA : s.jobs a = some jobA)
    (hsuc : b ∈ jobA.jaAdSuccessorList) (hentry : Entry b (Waiting a) s.jobs)
    (h : sgeBuryJob σ s a t = some s') :
    Entry b (fun job => Waiting a job ∧ Released job) s'.jobs := by
  obtain ⟨s₁, hfinish, rfl⟩ := Option.map_eq_some_iff.mp h
  rw [Entry, sgeBuryJaTask_of_ne hne]
  exact sgeFinishJaTask_entry hok hA hsuc hentry hfinish

/-- **A commit** of a task of `a` takes the hold from all tasks of `b`. -/
theorem commit_released (hne : b ≠ a) (hok : JobsOk s.jobs) (hA : s.jobs a = some jobA)
    (hsuc : b ∈ jobA.jaAdSuccessorList) (hentry : Entry b (Waiting a) s.jobs)
    (ht : mode.Applies jobA t) (h : sgeCommitJob σ conf s a t mode = some s') :
    Entry b (fun job => Waiting a job ∧ Released job) s'.jobs := by
  cases mode with
  | finishedFailed => exact sgeBuryJob_entry hne hok hA hsuc hentry h
  | finishedFailedEe =>
    rw [sgeCommitJob] at h
    obtain ⟨jobs, hrelease, h⟩ := Option.bind_eq_some_iff.mp h
    have hok₁ := (changeTask_setFinished hok hA ht).ok
    have hA₁ := congrFun (changeTask_eq (t := t) hA setFinished) a
    rw [set_self] at hA₁
    have hentry₁ : Entry b (Waiting a) (changeTask s.jobs a t setFinished) := by
      rwa [Entry, changeTask_of_ne hne]
    have hrelease' : Keeps (changeTask s.jobs a t setFinished) jobs ∧
        Entry b (Waiting a) jobs := by
      split at hrelease
      · exact ⟨releaseSuccessorTasksAd_keeps hok₁ hrelease,
          releaseSuccessorTasksAd_entry (waiting_stable a) hok₁ hrelease hentry₁⟩
      · exact Option.some.inj hrelease ▸ ⟨Keeps.refl hok₁, hentry₁⟩
    obtain ⟨hreleased, hentry₂⟩ := hrelease'
    have hcleared := changeTask_keeps (n := a) (t := t) (f := sgeClearGrantedResources)
      hreleased.ok fun _ => rfl
    have hkeeps := hreleased.trans hcleared
    have hentry' : Entry b (Waiting a) (changeTask jobs a t sgeClearGrantedResources) := by
      rwa [Entry, changeTask_of_ne hne]
    dsimp only at h
    have hsuc' : ∀ {jobs' : MasterJobList}, Keeps (changeTask s.jobs a t setFinished) jobs' →
        ∃ jobA', jobs' a = some jobA' ∧ b ∈ jobA'.jaAdSuccessorList := by
      intro jobs' hkeeps'
      obtain ⟨jobA', hA', -, hsame⟩ := hkeeps'.some a _ hA₁
      exact ⟨jobA', hA', hsame.jaAdSuccessorList ▸ hsuc⟩
    split at h
    · have hfold := changeTask_keeps (n := a) (t := t) (f := foldPeTasks) hkeeps.ok fun _ => rfl
      obtain ⟨jobA', hA', hmem⟩ := hsuc' (hkeeps.trans hfold)
      have hentry₃ : Entry b (Waiting a)
          (changeTask (changeTask jobs a t sgeClearGrantedResources) a t foldPeTasks) := by
        rwa [Entry, changeTask_of_ne hne]
      exact sgeFinishJaTask_entry hfold.ok hA' hmem hentry₃ h
    · obtain ⟨jobA', hA', hmem⟩ := hsuc' hkeeps
      exact sgeBuryJob_entry hne hkeeps.ok hA' hmem hentry' h

/-! ## Runs -/

/-- What the calls keep of the two jobs. -/
structure Linked (a b : ℕ) (jobs : MasterJobList) : Prop where
  ok : JobsOk jobs
  successor : ∀ jobA, jobs a = some jobA → b ∈ jobA.jaAdSuccessorList
  waiting : Entry b (Waiting a) jobs

theorem init_linked (h : Depends a b jobs)
    (hinit : sgeTaskDependInit σ jobs b = some (jobs', modified)) : Linked a b jobs' := by
  obtain ⟨jobB, hB, hsub⟩ := h.job
  obtain ⟨jobB', rfl, hloop⟩ := init_loop (h.ok b jobB hB) hB hsub hinit
  refine ⟨(keeps_set h.ok hB hloop.ok hloop.same).ok, fun jobA hA => ?_, jobB',
    set_self jobs b jobB', ?_, .inl ?_⟩
  · rw [set_of_ne jobs jobB' h.ne] at hA
    exact h.successor jobA hA
  · rw [hloop.same.jaAdRequestList]
    exact hsub.request
  · exact hloop.preds.trans hsub.predecessor

theorem TaskEnded.successor (h : TaskEnded a t jobA jobs jobs')
    (hsuc : b ∈ jobA.jaAdSuccessorList) :
    ∀ job, jobs' a = some job → b ∈ job.jaAdSuccessorList := by
  intro job hjob
  rcases h.job with ⟨hnone, -⟩ | ⟨jobA', hA', hsubmit, -⟩
  · rw [hnone] at hjob
    exact absurd hjob (by simp)
  · rw [hA'] at hjob
    rw [← Option.some.inj hjob, hsubmit.jaAdSuccessorList]
    exact hsuc

theorem TaskEnded.independent_iff (h : TaskEnded a t jobA jobs jobs') {jobB' : Job}
    (hB : SameSubmit jobB jobB') :
    (∀ jobA', jobs' a = some jobA' → Independent jobA' jobB' x) ↔
      ∀ r, sgeTaskDependGetRange jobA jobB x = some r →
        ∀ id, OnGrid r.min r.max r.step id → id ≠ t → TaskDone jobA id := by
  rcases h.job with ⟨hnone, hall⟩ | ⟨jobA', hA', hsubmit, hdone⟩
  · refine iff_of_true (fun jobA' hA' => ?_) fun r _ id _ hne => hall id hne
    rw [hnone] at hA'
    exact absurd hA' (by simp)
  · have hrange := getRange_same (t := x) hsubmit hB
    constructor
    · intro hindep r hr id hid hne
      exact ((hdone id).mp (hindep jobA' hA' r (hrange.trans hr) id hid)).resolve_right hne
    · intro hall job hjob r hr id hid
      rw [hA'] at hjob
      cases hjob
      rw [hdone]
      by_cases hne : id = t
      · exact .inr hne
      · exact .inl (hall r (hrange.symm.trans hr) id hid hne)

/-- **One call** keeps the two jobs linked. Where no task has been released early, none
is after it exactly if no task of `b` waits for another task of `a`. -/
theorem perform_notReleasedEarly (hne : b ≠ a) (hl : Linked a b s.jobs)
    (henabled : call.Enabled conf s.jobs a) (h : call.perform σ conf s a = some s') :
    Linked a b s'.jobs ∧ (NotReleasedEarly a b s.jobs →
      (NotReleasedEarly a b s'.jobs ↔ LastAwaited a b s call)) := by
  obtain ⟨jobB, hB, hw⟩ := hl.waiting
  cases call with
  | commit mode t =>
    obtain ⟨jobA, hA, ht⟩ := henabled
    have hended := (sgeCommitJob_spec hl.ok hA ht h).1
    obtain ⟨jobB', hB', hw', hr'⟩ :=
      commit_released hne hl.ok hA (hl.successor jobA hA) hl.waiting ht h
    refine ⟨⟨hended.ok, hended.successor (hl.successor jobA hA), jobB', hB', hw'⟩,
      fun _ => ?_⟩
    obtain ⟨jobB'', hB'', hsame⟩ := hended.others b hne jobB hB
    rw [hB'] at hB''
    cases hB''
    -- no task is held any more
    have hearly : NotReleasedEarly a b s'.jobs ↔ ∀ x, ¬ TaskDone jobB x →
        ∀ jobA', s'.jobs a = some jobA' → Independent jobA' jobB' x := by
      constructor
      · intro hearly x hx jobA' hA'
        exact hearly jobA' jobB' hA' hB' x (mt (taskDone_same hsame).mp hx) (hr'.2 x)
      · intro hall jobA' job hA' hjob x hx _
        rw [hB'] at hjob
        cases hjob
        exact hall x (mt (taskDone_same hsame).mpr hx) jobA' hA'
    rw [hearly]
    constructor
    · intro hall jobA₁ jobB₁ hA₁ hB₁ x hx
      rw [hA] at hA₁
      rw [hB] at hB₁
      cases hA₁
      cases hB₁
      exact (hended.independent_iff hsame.toSameSubmit).mp (hall x hx)
    · intro hlast x hx
      exact (hended.independent_iff hsame.toSameSubmit).mpr (hlast jobA jobB hA hB x hx)
  | buryJaTask t =>
    obtain ⟨-, jobA, hA, task, hmem, rfl, -⟩ := henabled
    cases h
    have hended := (sgeBuryJaTask_spec (σ := σ) hl.ok hA (.inr ⟨task, hmem, rfl⟩)).1
    have hB' : (sgeBuryJaTask σ s a task.number).jobs b = some jobB := by
      rw [sgeBuryJaTask_of_ne hne, hB]
    refine ⟨⟨hended.ok, hended.successor (hl.successor jobA hA), jobB, hB', hw⟩,
      fun hearly => iff_of_true (fun jobA' job hA' hjob x hx hheld => ?_) trivial⟩
    rw [hB'] at hjob
    cases hjob
    refine (hended.independent_iff (SameSubmit.refl jobB)).mpr (fun r hr id hid _ => ?_)
      jobA' hA'
    exact hearly jobA jobB hA hB x hx hheld r hr id hid

/-- **Array dependencies.** After the submission of `b` no task is released early in a
run of the calls on `a` exactly if, whenever a task of `a` ends, no task of `b` waits
for another task of `a`. -/
theorem notReleasedEarly_iff {modified : Bool} {trace : List (QmasterState × Call)}
    (h₀ : Depends a b jobs) (hinit : sgeTaskDependInit σ jobs b = some (s₀.jobs, modified))
    (hrun : Run σ conf a s₀ trace s) :
    ((∀ e ∈ trace, NotReleasedEarly a b e.1.jobs) ∧ NotReleasedEarly a b s.jobs) ↔
      ∀ e ∈ trace, LastAwaited a b e.1 e.2 := by
  exact hrun.holds_iff (I := fun s => Linked a b s.jobs) (P := fun s => NotReleasedEarly a b s.jobs)
    (init_linked h₀ hinit) (init_notReleasedEarly h₀ hinit)
    fun _ _ _ hl henabled hperform => perform_notReleasedEarly h₀.ne.symm hl henabled hperform

/-! ## Two jobs with two tasks each

Job 1 has running tasks, job 2 depends on it and is pending. -/

def arrayJob : Job where
  owner := "user"
  isArray := true
  jaStructure := [⟨1, 2, 1⟩]
  ids := fun _ => none
  jaTasks := []
  jidPredecessorList := []
  jidSuccessorList := []
  jaAdRequestList := []
  jaAdPredecessorList := []
  jaAdSuccessorList := []

/-- The predecessor, with the tasks that run. -/
def runningJob (running : List ℕ) : Job :=
  { arrayJob with
    jaTasks := running.map fun number => ⟨number, 0x80, 0x80, 0, []⟩
    jaAdSuccessorList := [2] }

def pendingJob : Job :=
  { arrayJob with
    ids := fun attr => if attr = .nHIds then some [⟨1, 2, 1⟩] else none
    jaAdRequestList := ["1"]
    jaAdPredecessorList := [1] }

def dependentJobs (running : List ℕ) : MasterJobList := fun n =>
  if n = 1 then some (runningJob running) else if n = 2 then some pendingJob else none

variable {running : List ℕ}

theorem runningJob_ok (hnodup : running.Nodup)
    (hids : ∀ n ∈ running, IsTaskId n) : JobOk (runningJob running) where
  idLists := fun _ => IdList.nil
  held := fun _ _ _ hx => absurd hx (has_nil _)
  numbers := by
    have : (runningJob running).jaTasks.map JaTask.number = running := by
      simp [runningJob, Function.comp_def]
    rwa [this]
  taskIds := by
    intro task ht
    obtain ⟨n, hn, rfl⟩ := List.mem_map.mp ht
    exact hids n hn
  enrolled := by
    rintro task - ⟨attr, hx⟩
    exact has_nil _ hx

theorem pendingJob_ids (attr : IdAttribute) (x : ℕ) :
    Has (pendingJob.idList attr) x ↔ attr = .nHIds ∧ OnGrid 1 2 1 x := by
  by_cases ha : attr = .nHIds
  · subst ha
    simp [Job.idList, pendingJob]
  · simp [Job.idList, pendingJob, ha]

theorem pendingJob_ok : JobOk pendingJob where
  idLists := by
    intro attr
    by_cases ha : attr = .nHIds
    · subst ha
      have hlist : pendingJob.idList .nHIds = [⟨1, 2, 1⟩] := rfl
      refine ⟨⟨?_, ?_⟩, ?_, fun x hx => ?_⟩
      · intro r hr
        rw [hlist, List.mem_singleton] at hr
        exact hr ▸ ⟨by decide, by decide, by decide, by decide, by decide⟩
      · exact List.pairwise_singleton _ _
      · intro r hr
        rw [hlist, List.mem_singleton] at hr
        exact hr ▸ fun _ => rfl
      · obtain ⟨-, h1, h2, -⟩ := (pendingJob_ids _ x).mp hx
        exact ⟨h1, by omega⟩
    · have : pendingJob.idList attr = [] := by simp [Job.idList, pendingJob, ha]
      exact this ▸ IdList.nil
  held := fun attr hne x hx => absurd ((pendingJob_ids attr x).mp hx).1 hne
  numbers := by decide
  taskIds := by decide
  enrolled := List.forall_mem_nil _

theorem dependentJobs_depends (hnodup : running.Nodup)
    (hids : ∀ n ∈ running, IsTaskId n) : Depends 1 2 (dependentJobs running) where
  ok := by
    intro n job hjob
    simp only [dependentJobs] at hjob
    split at hjob
    · exact Option.some.inj hjob ▸ runningJob_ok hnodup hids
    · split at hjob
      · exact Option.some.inj hjob ▸ pendingJob_ok
      · exact absurd hjob (by simp)
  ne := by decide
  successor := fun jobA hA => Option.some.inj hA ▸ (.head _)
  job := by
    refine ⟨pendingJob, rfl, by decide, rfl, ⟨1, 2, 1⟩, rfl, fun x hx => ?_⟩
    rcases hx with ⟨attr, hx⟩ | ⟨task, ht, -⟩
    · exact within_iff.mpr ((pendingJob_ids attr x).mp hx).2
    · cases ht

/-- Both tasks of the predecessor run, the first one ends: the second task of the
successor is released as well. -/
theorem dependency_released_early : Depends 1 2 (dependentJobs [1, 2]) ∧
    ∃ (s₀ s₁ : QmasterState) (modified : Bool),
    sgeTaskDependInit sortByMin (dependentJobs [1, 2]) 2 = some (s₀.jobs, modified) ∧
    Run sortByMin ⟨0, 0⟩ 1 s₀ [(s₀, .commit .finishedFailedEe 1)] s₁ ∧
    NotReleasedEarly 1 2 s₀.jobs ∧ ¬ NotReleasedEarly 1 2 s₁.jobs := by
  have hdep : Depends 1 2 (dependentJobs [1, 2]) :=
    dependentJobs_depends (by decide) (by decide)
  refine ⟨hdep, ?_⟩
  obtain ⟨s₁, hs₁⟩ := Option.isSome_iff_exists.mp (show
    ((sgeTaskDependInit sortByMin (dependentJobs [1, 2]) 2).bind fun jobs =>
      Call.perform sortByMin ⟨0, 0⟩ ⟨jobs.1, fun _ => none, []⟩ 1
        (.commit .finishedFailedEe 1)).isSome by decide +kernel)
  obtain ⟨⟨jobs, modified⟩, hinit, hperform⟩ := Option.bind_eq_some_iff.mp hs₁
  obtain ⟨jobB', hjobs, hloop⟩ := init_loop pendingJob_ok rfl
    (show SubmittedOn 1 pendingJob from hdep.job.elim fun job h => Option.some.inj h.1 ▸ h.2) hinit
  have hA : jobs 1 = some (runningJob [1, 2]) := by
    rw [hjobs, set_of_ne _ _ (by decide)]
    rfl
  have hB : jobs 2 = some jobB' := by rw [hjobs, set_self]
  have henabled : (Call.commit .finishedFailedEe 1).Enabled ⟨0, 0⟩ jobs 1 :=
    ⟨_, hA, _, .head _, rfl, by decide⟩
  have hearly := init_notReleasedEarly hdep hinit
  have hstep := (perform_notReleasedEarly (s := ⟨jobs, fun _ => none, []⟩) (by decide)
    (init_linked hdep hinit) henabled hperform).2 hearly
  refine ⟨⟨jobs, fun _ => none, []⟩, s₁, modified, hinit, .snoc .nil henabled hperform,
    hearly, fun hearly' => ?_⟩
  -- the second task of the successor waits for the second one of the predecessor
  have hpending : ¬ TaskDone jobB' 2 := by
    rw [taskDone_same hloop.same]
    exact fun h => h.1 ⟨.nHIds, (pendingJob_ids _ 2).mpr ⟨rfl, by decide, by decide, by decide⟩⟩
  have hrange : sgeTaskDependGetRange (runningJob [1, 2]) jobB' 2 = some ⟨2, 2, 1⟩ := by
    rw [getRange_same (SameSubmit.refl _) hloop.same.toSameSubmit]
    decide +kernel
  have hdone := hstep.mp hearly' _ _ hA hB 2 hpending _ hrange 2 (onGrid_self.mpr rfl) (by decide)
  exact absurd (hdone.2 ⟨2, 0x80, 0x80, 0, []⟩ (by decide) rfl) (by decide)

/-- With one task of the predecessor left, its end releases the successor rightly. -/
theorem dependency_released_last : ∃ (s₀ s₁ : QmasterState) (modified : Bool),
    sgeTaskDependInit sortByMin (dependentJobs [1]) 2 = some (s₀.jobs, modified) ∧
    NotReleasedEarly 1 2 s₀.jobs ∧ NotReleasedEarly 1 2 s₁.jobs ∧ s₁.jobs 1 = none := by
  have hdep : Depends 1 2 (dependentJobs [1]) :=
    dependentJobs_depends (by decide) (by decide)
  obtain ⟨s₁, hs₁, hnone⟩ := Option.map_eq_some_iff.mp (show
    ((sgeTaskDependInit sortByMin (dependentJobs [1]) 2).bind fun jobs =>
      Call.perform sortByMin ⟨0, 0⟩ ⟨jobs.1, fun _ => none, []⟩ 1
        (.commit .finishedFailedEe 1)).map (fun s => (s.jobs 1).isNone) = some true by
          decide +kernel)
  obtain ⟨⟨jobs, modified⟩, hinit, hperform⟩ := Option.bind_eq_some_iff.mp hs₁
  obtain ⟨jobB', hjobs, hloop⟩ := init_loop pendingJob_ok rfl
    (show SubmittedOn 1 pendingJob from hdep.job.elim fun job h => Option.some.inj h.1 ▸ h.2) hinit
  have hA : jobs 1 = some (runningJob [1]) := by
    rw [hjobs, set_of_ne _ _ (by decide)]
    rfl
  have henabled : (Call.commit .finishedFailedEe 1).Enabled ⟨0, 0⟩ jobs 1 :=
    ⟨_, hA, _, .head _, rfl, by decide⟩
  have hlast : LastAwaited 1 2 ⟨jobs, fun _ => none, []⟩ (.commit .finishedFailedEe 1) := by
    intro jobA job hjobA _ x _ r _ id _ hid
    rw [show jobs 1 = some jobA from hjobA] at hA
    obtain rfl := Option.some.inj hA
    refine ⟨fun ⟨attr, hx⟩ => has_nil id hx, fun task ht hnum => ?_⟩
    rw [show task = _ from List.mem_singleton.mp ht] at hnum
    exact absurd hnum.symm hid
  have hrun : Run sortByMin ⟨0, 0⟩ 1 ⟨jobs, fun _ => none, []⟩ [(_, _)] s₁ :=
    .snoc .nil henabled hperform
  obtain ⟨hall, hearly⟩ := (notReleasedEarly_iff hdep hinit hrun).mpr
    (List.forall_mem_singleton.mpr hlast)
  exact ⟨_, s₁, modified, hinit, hall _ (.head _), hearly,
    Option.isNone_iff_eq_none.mp hnone⟩

end ClusterScheduler.Qmaster
