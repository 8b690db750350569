import ClusterScheduler.Sgeobj.JobTasks

/-!
# Array dependencies

A job can be submitted with a dependency on the tasks of other array jobs: a task
waits for the tasks of the predecessor in a range around its own id.

* `MasterJobList` — the jobs by number.
* `sgeTaskDependGetRange` — the tasks of a predecessor a task waits for.
* `sgeTaskDependUpdate`, `sgeTaskDependInit`, `sgeTaskDependFlush` — set the hold
  of one task, of all tasks, and take it from all tasks.
* `UpdateSpec` — what an update does; a task without the hold waits for nothing.
* `sgeTaskDependFlush_spec` — what a flush does.

Results of type `Option` are absent where the source aborts.
-/

namespace ClusterScheduler.Qmaster

open Foundation Sgeobj

/-- The jobs by number. -/
abbrev MasterJobList := ℕ → Option Job

def MasterJobList.set (jobs : MasterJobList) (jobId : ℕ) (job : Job) : MasterJobList :=
  Function.update jobs jobId (some job)

@[simp] theorem set_self (jobs : MasterJobList) (n : ℕ) (job : Job) :
    jobs.set n job n = some job := by
  simp [MasterJobList.set]

theorem set_of_ne (jobs : MasterJobList) {n m : ℕ} (job : Job) (h : m ≠ n) :
    jobs.set n job m = jobs m := by
  simp [MasterJobList.set, Function.update_of_ne h]

/-! ## Functions of the source -/

def mul32 (a b : ℕ) : ℕ := a * b % 2 ^ 32

def nearestIndexInA (i t0 sa : ℕ) : ℕ := add32 t0 (mul32 (sub32 i t0 / sa) sa)

def taskDepend (t0 sa sb stepBId : ℕ) : ℕ × ℕ :=
  (nearestIndexInA stepBId t0 sa, nearestIndexInA (sub32 (add32 stepBId sb) 1) t0 sa)

def sgeTaskDependIsSameRange (preJep sucJep : Job) : Bool :=
  let (a0, a1, _) := jobGetSubmitTaskIds preJep
  let (b0, b1, _) := jobGetSubmitTaskIds sucJep
  preJep.isArray && sucJep.isArray && (a0 = b0) && (a1 = b1)

/-- The range of tasks of `preJep` that a task of `sucJep` waits for, unless it
cannot be computed. -/
def sgeTaskDependGetRange (preJep sucJep : Job) (taskId : ℕ) : Option Range :=
  let (a0, a1, sa) := jobGetSubmitTaskIds preJep
  let (b0, _, sb) := jobGetSubmitTaskIds sucJep
  if !sgeTaskDependIsSameRange preJep sucJep then none
  else if taskId < b0 ∨ (taskId - b0) % sb ≠ 0 then none
  else
    let (rmin, rmax) := taskDepend a0 sa sb taskId
    if rmin < a0 ∨ a1 < rmax then none else some (rangeSetAllIds rmin rmax sa)

/-- The source reads a list of array tasks of each parallel task. A parallel task
has no such list, reading it aborts. -/
def taskDependIsFinished (job : Job) (taskId : ℕ) : Option Bool :=
  if !jobIsEnrolled job taskId then some false
  else
    match jobSearchTask job taskId with
    | some jaTask =>
      if jaTask.status ≠ jfinished then some false
      else if jaTask.taskList = [] then some true else none
    | none => some true

def someUnfinished (job : Job) (ids : List ℕ) : Option Bool :=
  ids.foldlM (fun depend id => do
    let finished ← taskDependIsFinished job id
    pure (if finished then depend else true)) false

/-- Whether a task waits for a task of one of the predecessors. -/
def dependLoop (jobs : MasterJobList) (jep : Job) (taskId : ℕ) : List ℕ → Option Bool
  | [] => some false
  | pre :: rest =>
    match jobs pre with
    | none => dependLoop jobs jep taskId rest
    | some predJep =>
      match sgeTaskDependGetRange predJep jep taskId with
      | none => some true
      | some depRange => do
        if ← someUnfinished predJep (rangeIds depRange) then pure true
        else dependLoop jobs jep taskId rest

def sgeTaskDependUpdate (σ : Sorter) (jobs : MasterJobList) (jobId taskId : ℕ) :
    Option (MasterJobList × Bool) :=
  match jobs jobId with
  | none => some (jobs, false)
  | some jep => do
    if ← taskDependIsFinished jep taskId then return (jobs, false)
    let depend ← dependLoop jobs jep taskId jep.jaAdPredecessorList
    let holdState := jobGetHoldState jep taskId
    let newState :=
      if depend then holdState ||| minusHTgtJaAd else holdState &&& ~~~minusHTgtJaAd
    if newState ≠ holdState then
      let jep := jobSetHoldState σ jep taskId newState
      return (jobs.set jobId jep, !jobIsEnrolled jep taskId)
    else return (jobs, false)

/-- Update the tasks one after the other. -/
def updateLoop (σ : Sorter) (jobId : ℕ) (ids : List ℕ) (jobs : MasterJobList) :
    Option (MasterJobList × Bool) :=
  ids.foldlM (fun acc id => do
    let (jobs, modified) ← sgeTaskDependUpdate σ acc.1 jobId id
    pure (jobs, acc.2 || modified)) (jobs, false)

def clearAdHold (σ : Sorter) (jep : Job) (taskId : ℕ) : Job :=
  jobSetHoldState σ jep taskId (jobGetHoldState jep taskId &&& ~~~minusHTgtJaAd)

def sgeTaskDependFlush (σ : Sorter) (jep : Job) : Job × Bool :=
  if 0 < jep.jaAdRequestList.length ∧ jep.jaAdPredecessorList.length = 0 then
    let flushed : Job × Bool :=
      match jep.ids .aHIds with
      | none => (jep, false)
      | some aHIds =>
        let jep := (aHIds.flatMap rangeIds).foldl (clearAdHold σ) jep
        ({ jep with ids := fun attr => if attr = .aHIds then none else jep.ids attr }, true)
    ((flushed.1.jaTasks.map JaTask.number).foldl (fun jep taskId =>
      if jobGetHoldState jep taskId &&& minusHTgtJaAd ≠ 0 then clearAdHold σ jep taskId
      else jep) flushed.1, flushed.2)
  else (jep, false)

def sgeTaskDependInit (σ : Sorter) (jobs : MasterJobList) (jobId : ℕ) :
    Option (MasterJobList × Bool) :=
  match jobs jobId with
  | none => some (jobs, false)
  | some jep =>
    if 0 < jep.jaAdRequestList.length then
      if jep.jaAdPredecessorList.length = 0 then
        some (jobs.set jobId (sgeTaskDependFlush σ jep).1, (sgeTaskDependFlush σ jep).2)
      else
        let (b0, b1, sb) := jobGetSubmitTaskIds jep
        updateLoop σ jobId (rangeIds ⟨b0, b1, sb⟩) jobs
    else some (jobs, false)

/-! ## Finished tasks -/

/-- The task is finished or gone. -/
def TaskDone (job : Job) (x : ℕ) : Prop :=
  x ∉ job.unenrolled ∧ ∀ task ∈ job.jaTasks, task.number = x → task.status = jfinished

variable {σ : Sorter} {jobs jobs' : MasterJobList} {job : Job} {n t x : ℕ}

theorem TaskDone.of_finished (h : JobOk job) (hx : taskDependIsFinished job x = some true) :
    TaskDone job x := by
  rw [taskDependIsFinished] at hx
  split at hx
  · simp at hx
  · next henr =>
    refine ⟨jobIsEnrolled_iff.mp (by simpa using henr), fun task ht hnum => ?_⟩
    have hfind := h.search_of_mem ht
    rw [hnum] at hfind
    rw [hfind] at hx
    dsimp only at hx
    split at hx
    · simp at hx
    · next hstatus => exact not_not.mp hstatus

variable {job' : Job}

theorem taskDone_same {job : Job} (h : SameTasks job job') : TaskDone job' x ↔ TaskDone job x := by
  have hmap : ∀ {j j' : Job}, j'.jaTasks.map (fun t => (t.number, t.status)) =
      j.jaTasks.map (fun t => (t.number, t.status)) →
      (∀ task ∈ j.jaTasks, task.number = x → task.status = jfinished) →
      ∀ task ∈ j'.jaTasks, task.number = x → task.status = jfinished := by
    intro j j' heq hall task ht hnum
    obtain ⟨y, hy, hyt⟩ := List.mem_map.mp (heq ▸ List.mem_map_of_mem ht)
    obtain ⟨hynum, hystatus⟩ := Prod.mk.inj hyt
    rw [← hystatus]
    exact hall y hy (hynum.trans hnum)
  rw [TaskDone, TaskDone, h.unenrolled]
  exact and_congr_right fun _ => ⟨hmap h.jaTasks.symm, hmap h.jaTasks⟩

/-! ## The tasks a task waits for -/

/-- A counting loop reaches every id of its range, also where it would wrap behind
the last one. -/
theorem mem_idLoop_of_onGrid {stop step : ℕ} (hstep : 0 < step) (hlt : x < 2 ^ 32) :
    ∀ (fuel start : ℕ), stop < start + fuel → OnGrid start stop step x →
      x ∈ idLoop fuel start stop step
  | 0, start, hfuel, hx => by
      have := hx.1
      have := hx.2.1
      omega
  | fuel + 1, start, hfuel, hx => by
      have hle : start ≤ stop := hx.1.trans hx.2.1
      rw [idLoop, if_pos hle]
      rcases (onGrid_first hle).mp hx with rfl | hx
      · exact .head _
      · have hadd : add32 start step = start + step := by
          have := hx.1
          exact Nat.mod_eq_of_lt (by omega)
        rw [hadd]
        exact .tail _ (mem_idLoop_of_onGrid hstep hlt fuel _ (by omega) hx)

variable {r : Range}

theorem mem_rangeIds_of_onGrid (hstep : 0 < r.step) (hlt : x < 2 ^ 32)
    (hx : OnGrid r.min r.max r.step x) : x ∈ rangeIds r := by
  have := hx.1.trans hx.2.1
  exact mem_idLoop_of_onGrid hstep hlt _ _ (by omega) hx

theorem submitStep_pos (job : Job) : 0 < (jobGetSubmitTaskIds job).2.2 := by
  unfold jobGetSubmitTaskIds
  split
  · dsimp only
    split <;> omega
  · exact Nat.one_pos

variable {preJep sucJep : Job}

theorem getRange_bounds
    (h : sgeTaskDependGetRange preJep sucJep t = some r) : r.max < 2 ^ 32 ∧ 0 < r.step := by
  have hpos := submitStep_pos preJep
  simp only [sgeTaskDependGetRange] at h
  split at h
  · exact absurd h (by simp)
  · split at h
    · exact absurd h (by simp)
    · split at h
      · exact absurd h (by simp)
      · rw [← Option.some.inj h]
        refine ⟨Nat.mod_lt _ (by decide), ?_⟩
        simp only [rangeSetAllIds]
        split
        · exact hpos
        · exact Nat.one_pos

theorem submitTaskIds_same {job : Job} (h : SameSubmit job job') :
    jobGetSubmitTaskIds job' = jobGetSubmitTaskIds job := by
  unfold jobGetSubmitTaskIds
  rw [h.jaStructure]

theorem getRange_same {preJep' sucJep' : Job} (hpre : SameSubmit preJep preJep')
    (hsuc : SameSubmit sucJep sucJep') :
    sgeTaskDependGetRange preJep' sucJep' t = sgeTaskDependGetRange preJep sucJep t := by
  simp only [sgeTaskDependGetRange, sgeTaskDependIsSameRange, submitTaskIds_same hpre,
    submitTaskIds_same hsuc, hpre.isArray, hsuc.isArray]

/-- A task of `sucJep` waits for nothing in `preJep`. -/
def Independent (preJep sucJep : Job) (x : ℕ) : Prop :=
  ∀ r, sgeTaskDependGetRange preJep sucJep x = some r →
    ∀ id, OnGrid r.min r.max r.step id → TaskDone preJep id

variable {ids : List ℕ}

theorem someUnfinished_false (h : someUnfinished job ids = some false) :
    ∀ id ∈ ids, taskDependIsFinished job id = some true := by
  have hfold : ∀ (ids : List ℕ) (depend : Bool),
      ids.foldlM (fun depend id => do
        let finished ← taskDependIsFinished job id
        pure (if finished then depend else true)) depend = some false →
      depend = false ∧ ∀ id ∈ ids, taskDependIsFinished job id = some true := by
    intro ids
    induction ids with
    | nil => simp
    | cons id ids ih =>
      intro depend h
      rw [List.foldlM_cons] at h
      obtain ⟨next, hone, hrest⟩ := Option.bind_eq_some_iff.mp h
      obtain ⟨finished, hfin, hnext⟩ := Option.bind_eq_some_iff.mp hone
      obtain ⟨hfalse, hall⟩ := ih next hrest
      cases finished with
      | false => simp [hfalse] at hnext
      | true =>
        have hdepend : depend = next := by simpa using hnext
        exact ⟨hdepend.trans hfalse, List.forall_mem_cons.mpr ⟨hfin, hall⟩⟩
  exact (hfold ids false h).2

theorem dependLoop_false {jep : Job} {pres : List ℕ} (h : dependLoop jobs jep t pres = some false) :
    ∀ pre ∈ pres, ∀ predJep, jobs pre = some predJep → JobOk predJep →
      Independent predJep jep t := by
  induction pres with
  | nil => simp
  | cons pre rest ih =>
    rw [dependLoop] at h
    intro p hp predJep hpred hok
    split at h
    · next hnone =>
      rcases List.mem_cons.mp hp with rfl | hp
      · rw [hnone] at hpred
        exact absurd hpred (by simp)
      · exact ih h p hp predJep hpred hok
    · next jep' hsome =>
      split at h
      · exact absurd h (by simp)
      · next r hrange =>
        obtain ⟨depend, hdep, hrest⟩ := Option.bind_eq_some_iff.mp h
        cases depend with
        | true => simp at hrest
        | false =>
          rcases List.mem_cons.mp hp with rfl | hp
          · rw [hsome] at hpred
            cases hpred
            intro r' hr' id hid
            rw [hrange] at hr'
            cases hr'
            obtain ⟨hmax, hstep⟩ := getRange_bounds hrange
            have hlt := Nat.lt_of_le_of_lt hid.2.1 hmax
            exact TaskDone.of_finished hok (someUnfinished_false hdep id
              (mem_rangeIds_of_onGrid hstep hlt hid))
          · exact ih (by simpa using hrest) p hp predJep hpred hok

/-! ## Updating one task -/

theorem or_ad_ne_zero (hold : BitVec 32) : (hold ||| minusHTgtJaAd) &&& minusHTgtJaAd ≠ 0 := by
  intro heq
  have hbit := congrArg (BitVec.getLsbD · 3) heq
  simp [minusHTgtJaAd] at hbit

theorem and_not_ad (hold : BitVec 32) : (hold &&& ~~~minusHTgtJaAd) &&& minusHTgtJaAd = 0 := by
  rw [BitVec.and_assoc, show ~~~minusHTgtJaAd &&& minusHTgtJaAd = 0 by decide]
  exact BitVec.and_zero

theorem set_eq_self (hjob : jobs n = some job) : jobs.set n job = jobs := by
  rw [MasterJobList.set, ← hjob, Function.update_eq_self]

theorem not_adHeld_of_not_hasTask (hx : ¬ HasTask job x) : ¬ AdHeld job x := by
  have hu : x ∉ job.unenrolled := fun h => hx (.inl h)
  have hsearch : jobSearchTask job x = none := by
    rw [jobSearchTask, List.find?_eq_none]
    intro task ht hnum
    exact hx (.inr ⟨task, ht, by simpa using hnum⟩)
  rw [AdHeld, jobGetHoldState, jobIsEnrolled_iff.mpr hu, if_pos rfl, hsearch]
  decide

theorem hasTask_same {job : Job} (h : SameTasks job job') : HasTask job' x ↔ HasTask job x := by
  have hnum : (∃ task ∈ job'.jaTasks, task.number = x) ↔
      ∃ task ∈ job.jaTasks, task.number = x := by
    rw [← List.mem_map, ← List.mem_map, h.numbers]
  rw [HasTask, HasTask, h.unenrolled, hnum]

/-- What an update of a task does: it changes the hold of this task only, and where
it leaves the task without the hold, the task waits for nothing. -/
structure UpdateSpec (jobs : MasterJobList) (t : ℕ) (job job' : Job) : Prop where
  ok : JobOk job'
  same : SameTasks job job'
  preds : job'.jaAdPredecessorList = job.jaAdPredecessorList
  others : ∀ x, x ≠ t → (AdHeld job' x ↔ AdHeld job x)
  released : HasTask job t → ¬ TaskDone job t → ¬ AdHeld job' t →
    ∀ pre ∈ job.jaAdPredecessorList, ∀ predJep, jobs pre = some predJep → JobOk predJep →
      Independent predJep job t
  free : job.jaAdPredecessorList = [] → AdHeld job' t → AdHeld job t

variable {modified : Bool}

theorem sgeTaskDependUpdate_spec (hjob : jobs n = some job)
    (hok : JobOk job) (h : sgeTaskDependUpdate σ jobs n t = some (jobs', modified)) :
    ∃ job', jobs' = jobs.set n job' ∧ UpdateSpec jobs t job job' := by
  rw [sgeTaskDependUpdate, hjob] at h
  obtain ⟨finished, hfin, h⟩ := Option.bind_eq_some_iff.mp h
  cases finished with
  | true =>
    obtain ⟨rfl, -⟩ := Prod.mk.inj (Option.some.inj h)
    exact ⟨job, (set_eq_self hjob).symm, hok, SameTasks.refl job, rfl, fun x _ => Iff.rfl,
      fun _ hunfin => absurd (TaskDone.of_finished hok hfin) hunfin, fun _ => id⟩
  | false =>
    obtain ⟨depend, hdep, h⟩ := Option.bind_eq_some_iff.mp h
    have hfree : job.jaAdPredecessorList = [] → depend = false := by
      intro hnil
      rw [hnil, dependLoop] at hdep
      exact (Option.some.inj hdep).symm
    dsimp only at h
    generalize hnew : (if depend then jobGetHoldState job t ||| minusHTgtJaAd
      else jobGetHoldState job t &&& ~~~minusHTgtJaAd) = new at h
    have hbit : new &&& minusHTgtJaAd ≠ 0 ↔ depend = true := by
      cases depend with
      | true => exact iff_of_true (by rw [← hnew]; exact or_ad_ne_zero _) rfl
      | false =>
        refine iff_of_false (not_not.mpr ?_) (by simp)
        rw [← hnew]
        exact and_not_ad _
    have hindep : depend = false → ∀ pre ∈ job.jaAdPredecessorList, ∀ predJep,
        jobs pre = some predJep → JobOk predJep → Independent predJep job t := by
      rintro rfl
      exact dependLoop_false hdep
    split at h
    · next hne =>
      obtain ⟨rfl, -⟩ := Prod.mk.inj (Option.some.inj h)
      refine ⟨_, rfl, hok.setHoldState new, jobSetHoldState_keeps hok, ?_,
        fun x hx => adHeld_set_of_ne hok hx, fun htask _ hheld => ?_, fun hnil hheld => ?_⟩
      · unfold jobSetHoldState
        split <;> rfl
      · rw [adHeld_set_self hok htask, hbit, Bool.not_eq_true] at hheld
        exact hindep hheld
      · by_cases htask : HasTask job t
        · rw [adHeld_set_self hok htask, hbit, hfree hnil] at hheld
          exact absurd hheld (by simp)
        · rw [← hasTask_same (jobSetHoldState_keeps hok)] at htask
          exact absurd hheld (not_adHeld_of_not_hasTask htask)
    · next heq =>
      obtain ⟨rfl, -⟩ := Prod.mk.inj (Option.some.inj h)
      refine ⟨job, (set_eq_self hjob).symm, hok, SameTasks.refl job, rfl, fun x _ => Iff.rfl,
        fun _ _ hheld => ?_, fun _ => id⟩
      rw [AdHeld, ← not_not.mp heq, hbit, Bool.not_eq_true] at hheld
      exact hindep hheld

/-! ## Updating many tasks -/

theorem set_set (jobs : MasterJobList) (n : ℕ) (job job' : Job) :
    (jobs.set n job).set n job' = jobs.set n job' := by
  simp [MasterJobList.set]

theorem independent_same {predJep job : Job} (h : SameSubmit job job') :
    Independent predJep job' x ↔ Independent predJep job x := by
  rw [Independent, Independent, getRange_same (SameSubmit.refl predJep) h]

structure LoopSpec (jobs : MasterJobList) (n : ℕ) (ids : List ℕ) (job job' : Job) : Prop where
  ok : JobOk job'
  same : SameTasks job job'
  preds : job'.jaAdPredecessorList = job.jaAdPredecessorList
  others : ∀ x ∉ ids, AdHeld job' x ↔ AdHeld job x
  released : ∀ x ∈ ids, HasTask job x → ¬ TaskDone job x → ¬ AdHeld job' x →
    ∀ pre ∈ job.jaAdPredecessorList, pre ≠ n → ∀ predJep, jobs pre = some predJep →
      JobOk predJep → Independent predJep job x
  free : job.jaAdPredecessorList = [] → ∀ x, AdHeld job' x → AdHeld job x

theorem LoopSpec.nil (hok : JobOk job) : LoopSpec jobs n [] job job where
  ok := hok
  same := SameTasks.refl job
  preds := rfl
  others := fun _ _ => Iff.rfl
  released := by simp
  free := fun _ _ => id

variable {job1 job2 : Job}

theorem UpdateSpec.loop (h1 : UpdateSpec jobs t job job1)
    (h2 : LoopSpec (jobs.set n job1) n ids job1 job2) : LoopSpec jobs n (t :: ids) job job2 where
  ok := h2.ok
  same := h1.same.trans h2.same
  preds := h2.preds.trans h1.preds
  others := by
    intro x hx
    rw [List.mem_cons, not_or] at hx
    exact (h2.others x hx.2).trans (h1.others x hx.1)
  released := by
    intro x hx htask hdone hheld pre hpre hne predJep hpred hok
    by_cases hrest : x ∈ ids
    · rw [← independent_same h1.same.toSameSubmit]
      refine h2.released x hrest ((hasTask_same h1.same).mpr htask)
        (mt (taskDone_same h1.same).mp hdone) hheld pre (h1.preds ▸ hpre) hne predJep ?_ hok
      rw [set_of_ne jobs job1 hne, hpred]
    · obtain rfl := (List.mem_cons.mp hx).resolve_right hrest
      exact h1.released htask hdone (mt (h2.others x hrest).mpr hheld) pre hpre predJep hpred hok
  free := by
    intro hnil x hheld
    have hheld1 := h2.free (h1.preds.trans hnil) x hheld
    by_cases hx : x = t
    · subst hx
      exact h1.free hnil hheld1
    · exact (h1.others x hx).mp hheld1

theorem updateLoop_spec (hjob : jobs n = some job)
    (hok : JobOk job) (h : updateLoop σ n ids jobs = some (jobs', modified)) :
    ∃ job', jobs' = jobs.set n job' ∧ LoopSpec jobs n ids job job' := by
  have hfold : ∀ (ids : List ℕ) (jobs : MasterJobList) (job : Job) (m : Bool),
      jobs n = some job → JobOk job →
      ids.foldlM (fun acc id => do
        let (jobs, modified) ← sgeTaskDependUpdate σ acc.1 n id
        pure (jobs, acc.2 || modified)) (jobs, m) = some (jobs', modified) →
      ∃ job', jobs' = jobs.set n job' ∧ LoopSpec jobs n ids job job' := by
    intro ids
    induction ids with
    | nil =>
      intro jobs job m hjob hok h
      obtain ⟨rfl, -⟩ := Prod.mk.inj (Option.some.inj h)
      exact ⟨job, (set_eq_self hjob).symm, LoopSpec.nil hok⟩
    | cons id ids ih =>
      intro jobs job m hjob hok h
      rw [List.foldlM_cons] at h
      obtain ⟨next, hone, hrest⟩ := Option.bind_eq_some_iff.mp h
      obtain ⟨⟨jobs1, m1⟩, hupdate, hnext⟩ := Option.bind_eq_some_iff.mp hone
      cases hnext
      obtain ⟨job1, rfl, h1⟩ := sgeTaskDependUpdate_spec hjob hok hupdate
      obtain ⟨job2, rfl, h2⟩ := ih _ job1 _ (set_self jobs n job1) h1.ok hrest
      exact ⟨job2, set_set jobs n job1 job2, h1.loop h2⟩
  exact hfold ids jobs job false hjob hok h

/-! ## Flushing -/

/-- Some tasks have lost the hold, nothing else has changed. -/
structure Cleared (ids : List ℕ) (job job' : Job) : Prop where
  ok : JobOk job'
  same : SameTasks job job'
  preds : job'.jaAdPredecessorList = job.jaAdPredecessorList
  held : ∀ x, AdHeld job' x ↔ AdHeld job x ∧ x ∉ ids

theorem Cleared.nil (hok : JobOk job) : Cleared [] job job where
  ok := hok
  same := SameTasks.refl job
  preds := rfl
  held := by simp

theorem Cleared.trans {ids' : List ℕ} (h1 : Cleared ids job job1)
    (h2 : Cleared ids' job1 job2) : Cleared (ids ++ ids') job job2 where
  ok := h2.ok
  same := h1.same.trans h2.same
  preds := h2.preds.trans h1.preds
  held := fun x => by rw [h2.held, h1.held, List.mem_append, not_or, and_assoc]

theorem clearAdHold_cleared (hok : JobOk job) (t : ℕ) : Cleared [t] job (clearAdHold σ job t) where
  ok := hok.setHoldState _
  same := jobSetHoldState_keeps hok
  preds := by
    unfold clearAdHold jobSetHoldState
    split <;> rfl
  held := by
    intro x
    rw [List.mem_singleton]
    by_cases hx : x = t
    · subst hx
      refine iff_of_false (fun hheld => ?_) (fun h => h.2 rfl)
      have htask : HasTask (clearAdHold σ job x) x := not_imp_comm.mp not_adHeld_of_not_hasTask
        (not_not.mpr hheld)
      rw [clearAdHold, hasTask_same (jobSetHoldState_keeps hok)] at htask
      rw [clearAdHold, adHeld_set_self hok htask] at hheld
      exact hheld (and_not_ad _)
    · rw [clearAdHold, adHeld_set_of_ne hok hx]
      exact (and_iff_left hx).symm

theorem cleared_of_not_held (hok : JobOk job) (ht : ¬ AdHeld job t) : Cleared [t] job job where
  ok := hok
  same := SameTasks.refl job
  preds := rfl
  held := by
    intro x
    rw [List.mem_singleton]
    exact ⟨fun h => ⟨h, fun hx => ht (hx ▸ h)⟩, And.left⟩

theorem foldl_cleared {f : Job → ℕ → Job} (hf : ∀ job, JobOk job → ∀ t, Cleared [t] job (f job t))
    (ids : List ℕ) {job : Job} (hok : JobOk job) : Cleared ids job (ids.foldl f job) := by
  induction ids generalizing job with
  | nil => exact Cleared.nil hok
  | cons t ids ih =>
    have hone := hf job hok t
    exact hone.trans (ih hone.ok)

theorem dropAdIds_cleared (hok : JobOk job) (hnone : ∀ x, ¬ Has (job.idList .aHIds) x) :
    Cleared [] job { job with ids := fun attr => if attr = .aHIds then none else job.ids attr } := by
  generalize hdrop : ({ job with
    ids := fun attr => if attr = .aHIds then none else job.ids attr } : Job) = job'
  have hlist : ∀ attr x, Has (job'.idList attr) x ↔ Has (job.idList attr) x := by
    intro attr x
    rw [← hdrop]
    by_cases ha : attr = .aHIds
    · subst ha
      simpa [Job.idList] using hnone x
    · simp [Job.idList, ha]
  have hunenrolled : job'.unenrolled = job.unenrolled := by
    ext x
    simp only [mem_unenrolled, hlist]
  have hsame : SameTasks job job' := ⟨⟨by rw [← hdrop], by rw [← hdrop], by rw [← hdrop],
    by rw [← hdrop]⟩, hunenrolled, by rw [← hdrop]⟩
  refine ⟨hok.of_same hsame (fun attr => ?_) (fun attr hne x => ?_), hsame, by rw [← hdrop],
    fun x => ?_⟩
  · by_cases ha : attr = .aHIds
    · subst ha
      rw [← hdrop]
      exact IdList.nil
    · have : job'.idList attr = job.idList attr := by
        rw [← hdrop]
        simp [Job.idList, ha]
      rw [this]
      exact hok.idLists attr
  · rw [hlist, hlist]
    exact hok.held attr hne x
  · rw [and_iff_left List.not_mem_nil]
    by_cases hx : x ∈ job.unenrolled
    · have hx' : x ∈ job'.unenrolled := hunenrolled ▸ hx
      rw [adHeld_of_mem hx, adHeld_of_mem hx', hlist]
    · have hx' : x ∉ job'.unenrolled := hunenrolled ▸ hx
      have hsearch : jobSearchTask job' x = jobSearchTask job x := by rw [← hdrop]; rfl
      rw [AdHeld, AdHeld, jobGetHoldState, jobGetHoldState, jobIsEnrolled_iff.mpr hx,
        jobIsEnrolled_iff.mpr hx', hsearch, if_pos rfl, if_pos rfl]

/-- **Flushing.** Where a job has asked for array dependencies and no predecessor is
left, no task is held any more; else nothing changes. -/
theorem sgeTaskDependFlush_spec (hok : JobOk job) :
    ∃ ids, Cleared ids job (sgeTaskDependFlush σ job).1 ∧
      (job.jaAdRequestList ≠ [] → job.jaAdPredecessorList = [] →
        ∀ x, ¬ AdHeld (sgeTaskDependFlush σ job).1 x) := by
  rw [sgeTaskDependFlush]
  split
  · next hcond =>
    dsimp only
    -- the list of the hold is emptied and dropped
    generalize hflushed : (match job.ids .aHIds with
      | none => (job, false)
      | some aHIds => _) = flushed
    have hfirst : ∃ ids, Cleared ids job flushed.1 ∧
        ∀ x ∈ job.unenrolled, ¬ AdHeld flushed.1 x := by
      rw [← hflushed]
      split
      · next hnone =>
        refine ⟨[], Cleared.nil hok, fun x hx => ?_⟩
        rw [adHeld_of_mem hx]
        simp [Job.idList, hnone]
      · next aHIds hsome =>
        have hlist : job.idList .aHIds = aHIds := by simp [Job.idList, hsome]
        have hids := hok.idLists .aHIds
        rw [hlist] at hids
        have hfold := foldl_cleared (f := clearAdHold σ) (fun _ h t => clearAdHold_cleared h t)
          (aHIds.flatMap rangeIds) hok
        have hnone : ∀ x ∈ job.unenrolled,
            ¬ AdHeld ((aHIds.flatMap rangeIds).foldl (clearAdHold σ) job) x := by
          intro x hx hheld
          obtain ⟨hheld, hnot⟩ := (hfold.held x).mp hheld
          rw [adHeld_of_mem hx, hlist] at hheld
          exact hnot ((mem_flatMap_rangeIds hids.countable).mpr hheld)
        have hdrop := dropAdIds_cleared hfold.ok fun x hx => by
          have hmem : x ∈ job.unenrolled := hfold.same.unenrolled ▸ ⟨_, hx⟩
          refine hnone x hmem ((adHeld_of_mem ?_).mpr hx)
          exact ⟨_, hx⟩
        exact ⟨_, hfold.trans hdrop, fun x hx hheld => hnone x hx ((hdrop.held x).mp hheld).1⟩
    obtain ⟨ids, hcleared, hunenrolled⟩ := hfirst
    -- the enrolled tasks are released one by one
    have hsecond := foldl_cleared (f := fun jep taskId =>
        if jobGetHoldState jep taskId &&& minusHTgtJaAd ≠ 0 then clearAdHold σ jep taskId
        else jep)
      (fun jep h t => by
        split
        · exact clearAdHold_cleared h t
        · next hnot => exact cleared_of_not_held h hnot)
      (flushed.1.jaTasks.map JaTask.number) hcleared.ok
    refine ⟨_, hcleared.trans hsecond, fun _ _ x hheld => ?_⟩
    obtain ⟨hheld, hnot⟩ := (hsecond.held x).mp hheld
    by_cases htask : HasTask flushed.1 x
    · rcases htask with hu | ⟨task, ht, rfl⟩
      · exact hunenrolled x (hcleared.same.unenrolled ▸ hu) hheld
      · exact hnot (List.mem_map_of_mem ht)
    · exact not_adHeld_of_not_hasTask htask hheld
  · next hcond =>
    refine ⟨[], Cleared.nil hok, fun hreq hnil => absurd ⟨?_, ?_⟩ hcond⟩
    · exact List.length_pos_of_ne_nil hreq
    · rw [hnil, List.length_nil]

end ClusterScheduler.Qmaster
