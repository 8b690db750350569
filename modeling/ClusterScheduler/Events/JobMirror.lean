import ClusterScheduler.Events.EventMaster

/-!
# The replica of the job list

A mirror keeps a copy of the master job list. It is sent the whole list once and then the
changes.

* `JobRecord`, `JaTaskRecord`, `PeTaskRecord` — jobs, array tasks and parallel tasks.
* `JobChange`, `changeJobs` — what happens to the master list.
* `eventOf` — the event of a change, with a copy of the object that was changed.
* `processEvent` — what the mirror does with an event.
* `processEvent_change` — a replica that is up to date stays up to date.

All fields of an object that no event keeps apart from the others are one value. There is no
event for a change of a parallel task other than its usage.
-/

namespace ClusterScheduler.Events

variable {β : Type*}

/-! ## Jobs -/

structure PeTaskRecord (β : Type*) where
  fields : β
  scaledUsage : β

structure JaTaskRecord (β : Type*) where
  fields : β
  scaledUsageList : β
  taskList : String → Option (PeTaskRecord β)

/-- A job with the ids of the tasks that are not enrolled yet, and its enrolled tasks. -/
structure JobRecord (β : Type*) where
  fields : β
  notEnrolled : ℕ → Bool
  jaTasks : ℕ → Option (JaTaskRecord β)

abbrev JobList (β : Type*) := ℕ → Option (JobRecord β)

def modifyJob (jobs : JobList β) (jobId : ℕ) (f : JobRecord β → JobRecord β) : JobList β :=
  match jobs jobId with
  | some job => Function.update jobs jobId (some (f job))
  | none => jobs

def modifyTask (job : JobRecord β) (jaTaskId : ℕ) (f : JaTaskRecord β → JaTaskRecord β) :
    JobRecord β :=
  match job.jaTasks jaTaskId with
  | some task => { job with jaTasks := Function.update job.jaTasks jaTaskId (some (f task)) }
  | none => job

def modifyPeTask (task : JaTaskRecord β) (peTaskId : String)
    (f : PeTaskRecord β → PeTaskRecord β) : JaTaskRecord β :=
  match task.taskList peTaskId with
  | some peTask =>
    { task with taskList := Function.update task.taskList peTaskId (some (f peTask)) }
  | none => task

def addJob (jobs : JobList β) (jobId : ℕ) (job : JobRecord β) : JobList β :=
  if (jobs jobId).isSome then jobs else Function.update jobs jobId (some job)

def addTask (job : JobRecord β) (jaTaskId : ℕ) (task : JaTaskRecord β) : JobRecord β :=
  if (job.jaTasks jaTaskId).isSome then job
  else
    { job with
      jaTasks := Function.update job.jaTasks jaTaskId (some task)
      notEnrolled := Function.update job.notEnrolled jaTaskId false }

/-- A task is removed from the tasks, or from the ids when it is not enrolled. -/
def deleteTask (job : JobRecord β) (jaTaskId : ℕ) : JobRecord β :=
  if (job.jaTasks jaTaskId).isSome then
    { job with jaTasks := Function.update job.jaTasks jaTaskId none }
  else { job with notEnrolled := Function.update job.notEnrolled jaTaskId false }

def addPeTask (task : JaTaskRecord β) (peTaskId : String) (peTask : PeTaskRecord β) :
    JaTaskRecord β :=
  if (task.taskList peTaskId).isSome then task
  else { task with taskList := Function.update task.taskList peTaskId (some peTask) }

def setUsage (task : JaTaskRecord β) (usage : β) : Option String → JaTaskRecord β
  | some peTaskId => modifyPeTask task peTaskId fun peTask => { peTask with scaledUsage := usage }
  | none => { task with scaledUsageList := usage }

/-! ## Changes -/

inductive JobChange (β : Type*) where
  | jobAdd (jobId : ℕ) (job : JobRecord β)
  | jobMod (jobId : ℕ) (fields : β) (notEnrolled : ℕ → Bool)
  | jobDel (jobId : ℕ)
  | jobUsage (jobId jaTaskId : ℕ) (peTaskId : Option String) (usage : β)
  | jobFinalUsage (jobId jaTaskId : ℕ) (peTaskId : Option String) (usage : β)
  | jobFinish (jobId : ℕ)
  | jataskAdd (jobId jaTaskId : ℕ) (task : JaTaskRecord β)
  | jataskMod (jobId jaTaskId : ℕ) (fields : β)
  | jataskDel (jobId jaTaskId : ℕ)
  | petaskAdd (jobId jaTaskId : ℕ) (peTaskId : String) (peTask : PeTaskRecord β)
  | petaskDel (jobId jaTaskId : ℕ) (peTaskId : String)

def changeJobs (jobs : JobList β) : JobChange β → JobList β
  | .jobAdd jobId job => addJob jobs jobId job
  | .jobMod jobId fields notEnrolled =>
    modifyJob jobs jobId fun job => { job with fields := fields, notEnrolled := notEnrolled }
  | .jobDel jobId => Function.update jobs jobId none
  | .jobUsage jobId jaTaskId peTaskId usage | .jobFinalUsage jobId jaTaskId peTaskId usage =>
    modifyJob jobs jobId fun job => modifyTask job jaTaskId (setUsage · usage peTaskId)
  | .jobFinish _ => jobs
  | .jataskAdd jobId jaTaskId task => modifyJob jobs jobId (addTask · jaTaskId task)
  | .jataskMod jobId jaTaskId fields =>
    modifyJob jobs jobId fun job => modifyTask job jaTaskId ({ · with fields := fields })
  | .jataskDel jobId jaTaskId => modifyJob jobs jobId (deleteTask · jaTaskId)
  | .petaskAdd jobId jaTaskId peTaskId peTask =>
    modifyJob jobs jobId fun job => modifyTask job jaTaskId (addPeTask · peTaskId peTask)
  | .petaskDel jobId jaTaskId peTaskId =>
    modifyJob jobs jobId fun job => modifyTask job jaTaskId fun task =>
      { task with taskList := Function.update task.taskList peTaskId none }

/-! ## Events -/

/-- What the events of jobs carry. -/
inductive JobVersion (β : Type*) where
  | jobs (list : JobList β)
  | job (job : JobRecord β)
  | jaTask (task : JaTaskRecord β)
  | peTask (peTask : PeTaskRecord β)
  | usage (usage : β)

def findTask (jobs : JobList β) (jobId jaTaskId : ℕ) : Option (JaTaskRecord β) :=
  (jobs jobId).bind (·.jaTasks jaTaskId)

/-- The event of a change, given the list after it. A job is sent without its tasks and a
task without its parallel tasks when it is modified: they have events of their own. -/
def eventOf (jobs : JobList β) : JobChange β → Event (JobVersion β)
  | .jobAdd jobId _ =>
    { type := .jobAdd, intkey := jobId, newVersion := (jobs jobId).map .job }
  | .jobMod jobId _ _ =>
    { type := .jobMod, intkey := jobId
      newVersion := (jobs jobId).map fun job => .job { job with jaTasks := fun _ => none } }
  | .jobDel jobId => { type := .jobDel, intkey := jobId }
  | .jobUsage jobId jaTaskId peTaskId usage =>
    { type := .jobUsage, intkey := jobId, intkey2 := jaTaskId, strkey := peTaskId
      newVersion := some (.usage usage) }
  | .jobFinalUsage jobId jaTaskId peTaskId usage =>
    { type := .jobFinalUsage, intkey := jobId, intkey2 := jaTaskId, strkey := peTaskId
      newVersion := some (.usage usage) }
  | .jobFinish jobId => { type := .jobFinish, intkey := jobId }
  | .jataskAdd jobId jaTaskId _ =>
    { type := .jataskAdd, intkey := jobId, intkey2 := jaTaskId
      newVersion := (findTask jobs jobId jaTaskId).map .jaTask }
  | .jataskMod jobId jaTaskId _ =>
    { type := .jataskMod, intkey := jobId, intkey2 := jaTaskId
      newVersion := (findTask jobs jobId jaTaskId).map fun task =>
        .jaTask { task with taskList := fun _ => none } }
  | .jataskDel jobId jaTaskId => { type := .jataskDel, intkey := jobId, intkey2 := jaTaskId }
  | .petaskAdd jobId jaTaskId peTaskId _ =>
    { type := .petaskAdd, intkey := jobId, intkey2 := jaTaskId, strkey := some peTaskId
      newVersion := ((findTask jobs jobId jaTaskId).bind (·.taskList peTaskId)).map .peTask }
  | .petaskDel jobId jaTaskId peTaskId =>
    { type := .petaskDel, intkey := jobId, intkey2 := jaTaskId, strkey := some peTaskId }

/-! ## The mirror -/

/-- The tasks of a job that is modified are kept. -/
def jobUpdateMasterList (jobs : JobList β) (event : Event (JobVersion β)) : JobList β :=
  match event.type, event.newVersion with
  | .jobList, some (.jobs list) => list
  | .jobList, _ => fun _ => none
  | .jobAdd, some (.job job) => addJob jobs event.intkey job
  | .jobMod, some (.job job) =>
    modifyJob jobs event.intkey fun old => { job with jaTasks := old.jaTasks }
  | .jobDel, _ => Function.update jobs event.intkey none
  | .jobUsage, some (.usage usage) | .jobFinalUsage, some (.usage usage) =>
    modifyJob jobs event.intkey fun job =>
      modifyTask job event.intkey2 (setUsage · usage event.strkey)
  | _, _ => jobs

/-- The parallel tasks and the usage of a task that is modified are kept. -/
def jaTaskUpdateMasterList (jobs : JobList β) (event : Event (JobVersion β)) : JobList β :=
  match event.type, event.newVersion with
  | .jataskAdd, some (.jaTask task) => modifyJob jobs event.intkey (addTask · event.intkey2 task)
  | .jataskMod, some (.jaTask task) =>
    modifyJob jobs event.intkey fun job => modifyTask job event.intkey2 fun old =>
      { task with scaledUsageList := old.scaledUsageList, taskList := old.taskList }
  | .jataskDel, _ => modifyJob jobs event.intkey (deleteTask · event.intkey2)
  | _, _ => jobs

def peTaskUpdateMasterList (jobs : JobList β) (event : Event (JobVersion β)) : JobList β :=
  match event.type, event.strkey, event.newVersion with
  | .petaskAdd, some peTaskId, some (.peTask peTask) =>
    modifyJob jobs event.intkey fun job =>
      modifyTask job event.intkey2 (addPeTask · peTaskId peTask)
  | .petaskDel, some peTaskId, _ =>
    modifyJob jobs event.intkey fun job => modifyTask job event.intkey2 fun task =>
      { task with taskList := Function.update task.taskList peTaskId none }
  | _, _, _ => jobs

/-- An event is handed to the function for its kind of objects. -/
def processEvent (jobs : JobList β) (event : Event (JobVersion β)) : JobList β :=
  match event.type with
  | .jataskAdd | .jataskMod | .jataskDel => jaTaskUpdateMasterList jobs event
  | .petaskAdd | .petaskDel => peTaskUpdateMasterList jobs event
  | .jobList | .jobAdd | .jobDel | .jobMod | .jobUsage | .jobFinalUsage | .jobFinish =>
    jobUpdateMasterList jobs event
  | _ => jobs

/-! ## A change reaches the replica -/

variable {jobs : JobList β} {jobId jaTaskId : ℕ}

variable {job : JobRecord β}

theorem modifyJob_of_some (h : jobs jobId = some job) (f : JobRecord β → JobRecord β) :
    modifyJob jobs jobId f = Function.update jobs jobId (some (f job)) := by
  unfold modifyJob
  rw [h]

theorem findTask_modify (h : jobs jobId = some job) (f : JobRecord β → JobRecord β) :
    findTask (modifyJob jobs jobId f) jobId jaTaskId = (f job).jaTasks jaTaskId := by
  rw [findTask, modifyJob_of_some h, Function.update_self]
  rfl

theorem findTask_of_none (h : jobs jobId = none) : findTask jobs jobId jaTaskId = none := by
  rw [findTask, h]
  rfl

/-- **A replica stays up to date**: what the mirror does with the event of a change is the
change. -/
theorem processEvent_change (jobs : JobList β) (change : JobChange β) :
    processEvent jobs (eventOf (changeJobs jobs change) change) = changeJobs jobs change := by
  cases change with
  | jobAdd jobId job =>
    cases hjob : jobs jobId <;>
      simp [changeJobs, eventOf, processEvent, jobUpdateMasterList, addJob, hjob]
  | jobMod jobId fields notEnrolled =>
    cases hjob : jobs jobId <;>
      simp [changeJobs, eventOf, processEvent, jobUpdateMasterList, modifyJob, hjob]
  | jobDel jobId => rfl
  | jobUsage jobId jaTaskId peTaskId usage => rfl
  | jobFinalUsage jobId jaTaskId peTaskId usage => rfl
  | jobFinish jobId => rfl
  | jataskAdd jobId jaTaskId task =>
    cases hjob : jobs jobId with
    | none =>
      simp [changeJobs, eventOf, processEvent, jaTaskUpdateMasterList, modifyJob,
        findTask_of_none, hjob]
    | some job =>
      simp only [changeJobs, eventOf, findTask_modify hjob]
      cases htask : job.jaTasks jaTaskId <;>
        simp [processEvent, jaTaskUpdateMasterList, modifyJob, addTask, hjob, htask]
  | jataskMod jobId jaTaskId fields =>
    cases hjob : jobs jobId with
    | none =>
      simp [changeJobs, eventOf, processEvent, jaTaskUpdateMasterList, modifyJob,
        findTask_of_none, hjob]
    | some job =>
      simp only [changeJobs, eventOf, findTask_modify hjob]
      cases htask : job.jaTasks jaTaskId <;>
        simp [processEvent, jaTaskUpdateMasterList, modifyJob, modifyTask, hjob, htask]
  | jataskDel jobId jaTaskId => rfl
  | petaskAdd jobId jaTaskId peTaskId peTask =>
    cases hjob : jobs jobId with
    | none =>
      simp [changeJobs, eventOf, processEvent, peTaskUpdateMasterList, modifyJob,
        findTask_of_none, hjob]
    | some job =>
      simp only [changeJobs, eventOf, findTask_modify hjob]
      cases htask : job.jaTasks jaTaskId with
      | none =>
        simp [processEvent, peTaskUpdateMasterList, modifyJob, modifyTask, hjob, htask]
      | some task =>
        cases hpe : task.taskList peTaskId <;>
          simp [processEvent, peTaskUpdateMasterList, modifyJob, modifyTask, addPeTask,
            hjob, htask, hpe]
  | petaskDel jobId jaTaskId peTaskId => rfl

end ClusterScheduler.Events
