import ClusterScheduler.Consumables.Tasks
import ClusterScheduler.Qmaster.JobFinish

/-!
# Booking the usage of finished tasks

The end of a task is committed in one go: what was granted to it is given back, its usage and
that of its tasks in a parallel environment are booked for its user and its project, and with
retention the task stays, without its parallel tasks.

* `UsageList` — values of usage attributes, one for each name.
* `bookUserProjectUsage` — what is booked is the difference to what was booked before.
* `sgeBookFinishedJobUsage` — the booking of a task, which leaves a mark in its usage list.
* `commitFinishedFailedEe` — the commit: the resources are cleared, then the usage is booked.
* `BookedInFull`, `KeepsUsage` — the usage of all tasks is booked, and when it is.
* `booked_in_full_iff` — over any number of commits.

The user and the project are the objects that were found for the owner and the project of the
job. Amounts are exact. How an attribute decays over an interval is a parameter.
-/

namespace ClusterScheduler.Qmaster

open Foundation Consumables

/-! ## Data -/

structure UsageAttr where
  name : String
  value : ℚ
  deriving DecidableEq

/-- A list of usage attributes, whose names are a unique key. -/
structure UsageList where
  elems : List UsageAttr
  distinct : (elems.map (·.name)).Nodup

structure ProjectUsage where
  name : String
  usage : Option UsageList
  longTermUsage : Option UsageList

/-- What was booked for a job that is not finished. -/
structure DebitedJob where
  jobNumber : ℕ
  oldUsageList : Option UsageList

/-- A user or a project. A project has no `project` list. -/
structure UserProject where
  name : String
  usage : Option UsageList
  usageTimeStamp : ℕ
  longTermUsage : Option UsageList
  project : List ProjectUsage
  debitedJobUsage : List DebitedJob
  version : ℕ

/-- A task in a parallel environment. -/
structure PeTask where
  id : String
  scaledUsage : UsageList

structure FinishedTask extends Task where
  scaledUsageList : Option UsageList
  taskList : List PeTask

/-- The configuration. `decay` is the factor of an attribute for an interval. -/
structure ShareConf where
  conf : Conf
  shareTree : Bool
  usageWeightList : List String
  decay : String → ℕ → ℚ

structure FinishState where
  cluster : Cluster
  task : FinishedTask
  user : Option UserProject
  project : Option UserProject

/-! ## Usage lists -/

namespace UsageList

def empty : UsageList := ⟨[], List.nodup_nil⟩

def update (name : String) (f : ℚ → ℚ) (l : UsageList) : UsageList where
  elems := upsert UsageAttr.name name ⟨name, 0⟩ (fun u => ⟨u.name, f u.value⟩) l.elems
  distinct := nodup_upsert (fun _ => by rfl) (by rfl) l.distinct

def valueOf (name : String) (l : UsageList) : ℚ :=
  ((lookup UsageAttr.name name l.elems).map UsageAttr.value).getD 0

theorem valueOf_update {name name' : String} {f : ℚ → ℚ} (l : UsageList) :
    (l.update name f).valueOf name' =
      if name' = name then f (l.valueOf name) else l.valueOf name' := by
  rw [valueOf, update, lookup_upsert (fun _ => by rfl) (by rfl)]
  split_ifs
  · rw [valueOf]
    cases lookup UsageAttr.name name l.elems <;> rfl
  · rfl

end UsageList

/-! ## Functions of the source -/

def usageAttrCpu : String := "cpu"
def usageAttrMem : String := "mem"
def usageAttrIo : String := "io"
def finishedJobs : String := "finished_jobs"

def usageRelevantForSharetree (usageWeightList : List String) (name : String) : Bool :=
  name ∈ [usageAttrCpu, usageAttrMem, usageAttrIo, finishedJobs] || name ∈ usageWeightList

def usageListSetDoubleUsage (l : UsageList) (name : String) (value : ℚ) : UsageList :=
  l.update name fun _ => value

def buildUsageList : UsageList :=
  ⟨[⟨usageAttrCpu, 0⟩, ⟨usageAttrMem, 0⟩, ⟨usageAttrIo, 0⟩], by decide⟩

def addUsage (l : UsageList) (src : List UsageAttr) : UsageList :=
  src.foldl (fun l u => l.update u.name (· + u.value)) l

/-- The attributes that `usage_list_sum` adds up. -/
def isSummed (name : String) : Bool :=
  name ∈ ["cpu", "io", "iow", "vmem", "rss", "mem", "pss", "pmem", "smem"] ||
    name.startsWith "acct_" || name.startsWith "ru_"

def usageListSum (l : UsageList) (src : UsageList) : UsageList :=
  addUsage l (src.elems.filter (isSummed ·.name))

/-- The past usage of all parallel tasks, which are then removed. -/
def foldPeTaskUsage (l : List PeTask) : List PeTask :=
  match l with
  | [] => []
  | l =>
    let container := (lookup PeTask.id peTaskPastUsageContainer l).getD
      ⟨peTaskPastUsageContainer, UsageList.empty⟩
    let others := l.filter (·.id ≠ peTaskPastUsageContainer)
    [{ container with
      scaledUsage := others.foldl (fun l petask => usageListSum l petask.scaledUsage)
        container.scaledUsage }]

def decayUsage (decay : String → ℕ → ℚ) (interval : ℕ) (l : UsageList) : UsageList where
  elems := l.elems.map fun u => ⟨u.name, u.value * decay u.name interval⟩
  distinct := by
    rw [List.map_map]
    exact l.distinct

/-- The sequence number passed is not the one of any object and is not stored. -/
def decayUserprjUsage (decay : String → ℕ → ℚ) (currTime : ℕ) (userprj : UserProject) :
    UserProject :=
  let userprj :=
    if 0 < userprj.usageTimeStamp ∧ userprj.usageTimeStamp < currTime then
      let interval := currTime - userprj.usageTimeStamp
      { userprj with
        usage := userprj.usage.map (decayUsage decay interval)
        project := userprj.project.map fun upp =>
          { upp with usage := upp.usage.map (decayUsage decay interval) } }
    else userprj
  { userprj with usageTimeStamp := currTime }

def jobUsageList (task : FinishedTask) : Option UsageList :=
  task.scaledUsageList.map fun own =>
    task.taskList.foldl (fun l petask => addUsage l petask.scaledUsage.elems) own

/-- What is added to one of the lists of a user or a project. -/
def bookUsage (usageWeightList : List String) (old job : UsageList) (l : UsageList) : UsageList :=
  job.elems.foldl (fun l u =>
    if usageRelevantForSharetree usageWeightList u.name then
      l.update u.name (· + max (u.value - old.valueOf u.name) 0)
    else l) l

/-- The lists are made when they are missing, also for a task without usage. -/
def bookList (usageWeightList : List String) (old : UsageList) (job : Option UsageList)
    (l : Option UsageList) : Option UsageList :=
  match job with
  | some job => some (bookUsage usageWeightList old job (l.getD buildUsageList))
  | none => some (l.getD buildUsageList)

def oldUsage (jobNumber : ℕ) (debited : List DebitedJob) : UsageList :=
  ((lookup DebitedJob.jobNumber jobNumber debited).bind (·.oldUsageList)).getD buildUsageList

def bookUser (usageWeightList : List String) (old : UsageList) (job : Option UsageList)
    (project : Option UserProject) (user : UserProject) : UserProject :=
  match project with
  | some project =>
    { user with
      project := upsert ProjectUsage.name project.name ⟨project.name, none, none⟩
        (fun upp =>
          { upp with
            usage := bookList usageWeightList old job upp.usage
            longTermUsage := bookList usageWeightList old job upp.longTermUsage })
        user.project }
  | none =>
    { user with
      usage := bookList usageWeightList old job user.usage
      longTermUsage := bookList usageWeightList old job user.longTermUsage }

def bookProject (usageWeightList : List String) (old : UsageList) (job : Option UsageList)
    (project : UserProject) : UserProject :=
  { project with
    usage := bookList usageWeightList old job project.usage
    longTermUsage := bookList usageWeightList old job project.longTermUsage }

def saveDebited (jobNumber : ℕ) (job : Option UsageList) (userprj : UserProject) : UserProject :=
  match job with
  | some job =>
    { userprj with
      debitedJobUsage := upsert DebitedJob.jobNumber jobNumber ⟨jobNumber, none⟩
        (fun upu => { upu with oldUsageList := some job }) userprj.debitedJobUsage }
  | none => userprj

/-- The differences to the old usage are added for the user and the project. The old usage is
kept with the user, or with the project of a job without one. -/
def bookUserProjectUsage (env : ShareConf) (currTime : ℕ) (task : FinishedTask)
    (user project : Option UserProject) : Option UserProject × Option UserProject :=
  let user := user.map (decayUserprjUsage env.decay currTime)
  let project := project.map (decayUserprjUsage env.decay currTime)
  let jobNumber := task.job.jobNumber
  let job := jobUsageList task
  let old := oldUsage jobNumber (((user.or project).map (·.debitedJobUsage)).getD [])
  let booked := project.map (bookProject env.usageWeightList old job)
  match user with
  | some user =>
    (some (saveDebited jobNumber job (bookUser env.usageWeightList old job project user)), booked)
  | none => (none, booked.map (saveDebited jobNumber job))

/-- The entry of the job is removed, and the change marked. -/
def dropDebitedJob (jobNumber : ℕ) (userprj : UserProject) : UserProject :=
  { userprj with
    debitedJobUsage := userprj.debitedJobUsage.eraseP (·.jobNumber = jobNumber)
    version := (userprj.version + 1) % 2 ^ 32 }

def isBooked (task : FinishedTask) : Bool :=
  (task.scaledUsageList.getD UsageList.empty).elems.any (·.name = finishedJobs)

def markBooked (task : FinishedTask) : FinishedTask :=
  { task with
    scaledUsageList := some (usageListSetDoubleUsage
      (task.scaledUsageList.getD UsageList.empty) finishedJobs 1) }

def sgeBookFinishedJobUsage (env : ShareConf) (currTime : ℕ) (s : FinishState) : FinishState :=
  if isBooked s.task then s
  else if !env.shareTree then s
  else
    let task := markBooked s.task
    let booked := bookUserProjectUsage env currTime task s.user s.project
    { s with
      task := task
      user := booked.1.map (dropDebitedJob task.job.jobNumber)
      project := booked.2.map (dropDebitedJob task.job.jobNumber) }

def clears (conf : Conf) (task : Task) : Bool := task.isEnrolled && arFound conf task

def clearTask (conf : Conf) (task : FinishedTask) : FinishedTask :=
  if clears conf task.toTask then
    { task with grantedPe := none, peObject := none, taskList := [], gdil := [] }
  else task

def commitFinishedFailedEe (env : ShareConf) (s : FinishState) (currTime : ℕ) : FinishState :=
  let s := { s with
    cluster := Consumables.sgeClearGrantedResources env.conf s.task.toTask s.cluster
    task := clearTask env.conf s.task }
  let s := sgeBookFinishedJobUsage env currTime s
  { s with task := { s.task with taskList := foldPeTaskUsage s.task.taskList } }

def commits (env : ShareConf) (times : List ℕ) (s : FinishState) : FinishState :=
  times.foldl (commitFinishedFailedEe env) s

/-! ## What is booked -/

section Readings

variable (name : String)

def valueIn (l : Option UsageList) : ℚ := (l.map (·.valueOf name)).getD 0

/-- The long term usage of a user: of its project entry, when there is a project. -/
def userLongTerm (project : Option UserProject) (user : UserProject) : ℚ :=
  match project with
  | some project => valueIn name
      ((lookup ProjectUsage.name project.name user.project).bind (·.longTermUsage))
  | none => valueIn name user.longTermUsage

def FinishState.userLongTerm (s : FinishState) : ℚ :=
  (s.user.map (Qmaster.userLongTerm name s.project)).getD 0

def FinishState.projectLongTerm (s : FinishState) : ℚ :=
  (s.project.map fun project => valueIn name project.longTermUsage).getD 0

def FinishedTask.own (task : FinishedTask) : ℚ := valueIn name task.scaledUsageList

def FinishedTask.ofPeTasks (task : FinishedTask) : ℚ :=
  (task.taskList.map fun petask => petask.scaledUsage.valueOf name).sum

def FinishedTask.due (task : FinishedTask) : ℚ :=
  if name = finishedJobs then 1 else task.own name + task.ofPeTasks name

end Readings

/-- The usage of the task in one state is booked in full, and once, in a later state. -/
def BookedInFull (env : ShareConf) (s s' : FinishState) : Prop :=
  ∀ name, usageRelevantForSharetree env.usageWeightList name = true →
    s'.userLongTerm name = s.userLongTerm name + s.task.due name ∧
    (s.project.isSome → s'.projectLongTerm name = s.projectLongTerm name + s.task.due name)

/-- The task was not booked before, and no usage gets lost. When the resources are cleared its
parallel tasks have no usage in sum, or make up for a negative value of its own; when they are
not cleared, no sum is negative and no parallel task counts finished jobs. -/
structure KeepsUsage (env : ShareConf) (task : FinishedTask) : Prop where
  fresh : isBooked task = false
  cleared : clears env.conf task.toTask = true → ∀ name,
    usageRelevantForSharetree env.usageWeightList name = true → name ≠ finishedJobs →
      if 0 ≤ task.own name then task.ofPeTasks name = 0
      else task.ofPeTasks name = -task.own name
  kept : clears env.conf task.toTask = false →
    task.ofPeTasks finishedJobs = 0 ∧ ∀ name,
      usageRelevantForSharetree env.usageWeightList name = true → name ≠ finishedJobs →
        0 ≤ task.own name + task.ofPeTasks name

/-! ## The usage lists -/

section Lists

variable {name : String} {usageWeightList : List String} {old : UsageList}

variable (name) in
theorem posts_update (name' : String) (v : ℚ) :
    Posts (fun _ : UsageList => True) (·.valueOf name) (·.update name' (· + v))
      (if name = name' then v else 0) where
  keeps := fun _ _ => trivial
  adds := fun l _ => by
    rw [UsageList.valueOf_update]
    split_ifs with h
    · rw [h]
    · exact (add_zero _).symm

variable (name) in
theorem posts_addUsage (src : UsageList) :
    Posts (fun _ : UsageList => True) (·.valueOf name) (addUsage · src.elems)
      (src.valueOf name) := by
  have hall := Posts.foldl src.elems fun u _ => posts_update name u.name u.value
  exact hall.congr (sum_ite_key src.distinct name UsageAttr.value)

theorem valueIn_jobUsageList {task : FinishedTask} (h : task.scaledUsageList.isSome) :
    valueIn name (jobUsageList task) = task.own name + task.ofPeTasks name := by
  obtain ⟨own, hown⟩ := Option.isSome_iff_exists.mp h
  have hall := Posts.foldl task.taskList fun petask _ => posts_addUsage name petask.scaledUsage
  rw [jobUsageList, FinishedTask.own, hown]
  exact hall.adds own trivial

/-- A relevant attribute grows by what the job has used since then. -/
theorem posts_bookUsage (hrelevant : usageRelevantForSharetree usageWeightList name = true)
    (hold : ∀ name, old.valueOf name = 0) (job : UsageList) :
    Posts (fun _ : UsageList => True) (·.valueOf name) (bookUsage usageWeightList old job)
      (max (job.valueOf name) 0) := by
  have hone (u : UsageAttr) : Posts (fun _ : UsageList => True) (·.valueOf name)
      (fun l => if usageRelevantForSharetree usageWeightList u.name then
        l.update u.name (· + max (u.value - old.valueOf u.name) 0) else l)
      (if name = u.name then max u.value 0 else 0) := by
    rw [hold, sub_zero]
    by_cases hu : usageRelevantForSharetree usageWeightList u.name = true
    · simp only [hu, if_true]
      exact posts_update name u.name _
    · have hne : name ≠ u.name := fun heq => hu (heq ▸ hrelevant)
      simp only [hu, if_neg hne]
      exact Posts.id
  have hall := Posts.foldl job.elems fun u _ => hone u
  refine hall.congr ((sum_ite_key job.distinct name fun u => max u.value 0).trans ?_)
  unfold UsageList.valueOf
  cases lookup UsageAttr.name name job.elems with
  | none => exact (max_self 0).symm
  | some u => rfl

theorem valueOf_buildUsageList (name : String) : buildUsageList.valueOf name = 0 := by
  unfold UsageList.valueOf buildUsageList
  rw [lookup_cons, lookup_cons, lookup_cons, lookup_nil]
  split_ifs <;> rfl

theorem valueIn_bookList (hrelevant : usageRelevantForSharetree usageWeightList name = true)
    (hold : ∀ name, old.valueOf name = 0) (job l : Option UsageList) :
    valueIn name (bookList usageWeightList old job l) =
      valueIn name l + max (valueIn name job) 0 := by
  have hstart : (l.getD buildUsageList).valueOf name = valueIn name l := by
    cases l with
    | none => exact valueOf_buildUsageList name
    | some l => rfl
  cases job with
  | none =>
    have hbooked : valueIn name (bookList usageWeightList old none l) =
        (l.getD buildUsageList).valueOf name := rfl
    rw [hbooked, hstart]
    exact (add_eq_left.mpr (max_self 0)).symm
  | some job =>
    have hbooked : valueIn name (bookList usageWeightList old (some job) l) =
        (bookUsage usageWeightList old job (l.getD buildUsageList)).valueOf name := rfl
    rw [hbooked, (posts_bookUsage hrelevant hold job).adds _ trivial, hstart]
    rfl

/-- Nothing was booked before for a job that is not among the debited ones. -/
theorem valueOf_oldUsage {jobNumber : ℕ} {debited : List DebitedJob}
    (h : lookup DebitedJob.jobNumber jobNumber debited = none) (name : String) :
    (oldUsage jobNumber debited).valueOf name = 0 := by
  rw [oldUsage, h]
  exact valueOf_buildUsageList name

end Lists

/-! ## The long term usage -/

section LongTerm

variable {name : String} {usageWeightList : List String} {old : UsageList}
  {project project' : Option UserProject}

theorem userLongTerm_congr (h : project'.map (·.name) = project.map (·.name))
    (user : UserProject) : userLongTerm name project' user = userLongTerm name project user := by
  cases project with
  | none =>
    obtain rfl := Option.map_eq_none_iff.mp h
    rfl
  | some p =>
    obtain ⟨p', rfl, hname⟩ := Option.map_eq_some_iff.mp h
    rw [userLongTerm, userLongTerm, hname]

variable (decay : String → ℕ → ℚ)
include decay

theorem userLongTerm_decay (currTime : ℕ) (user : UserProject) :
    userLongTerm name project (decayUserprjUsage decay currTime user) =
      userLongTerm name project user := by
  unfold userLongTerm decayUserprjUsage
  cases project with
  | none => dsimp only; split_ifs <;> rfl
  | some p =>
    dsimp only
    split_ifs
    · rw [lookup_map fun _ => by rfl]
      cases lookup ProjectUsage.name p.name user.project <;> rfl
    · rfl

theorem decay_name (currTime : ℕ) (userprj : UserProject) :
    (decayUserprjUsage decay currTime userprj).name = userprj.name := by
  unfold decayUserprjUsage
  dsimp only
  split_ifs <;> rfl

theorem decay_longTermUsage (currTime : ℕ) (userprj : UserProject) :
    (decayUserprjUsage decay currTime userprj).longTermUsage = userprj.longTermUsage := by
  unfold decayUserprjUsage
  dsimp only
  split_ifs <;> rfl

theorem decay_debitedJobUsage (currTime : ℕ) (userprj : UserProject) :
    (decayUserprjUsage decay currTime userprj).debitedJobUsage = userprj.debitedJobUsage := by
  unfold decayUserprjUsage
  dsimp only
  split_ifs <;> rfl

omit decay

theorem userLongTerm_bookUser (hrelevant : usageRelevantForSharetree usageWeightList name = true)
    (hold : ∀ name, old.valueOf name = 0) (job : Option UsageList) (user : UserProject) :
    userLongTerm name project (bookUser usageWeightList old job project user) =
      userLongTerm name project user + max (valueIn name job) 0 := by
  cases project with
  | none => exact valueIn_bookList hrelevant hold job user.longTermUsage
  | some p =>
    rw [userLongTerm, bookUser]
    dsimp only
    rw [lookup_upsert (fun _ => by rfl) (by rfl), if_pos rfl, Option.bind_some,
      valueIn_bookList hrelevant hold, userLongTerm]
    cases lookup ProjectUsage.name p.name user.project <;> rfl

theorem userLongTerm_saveDebited (jobNumber : ℕ) (job : Option UsageList) (user : UserProject) :
    userLongTerm name project (saveDebited jobNumber job user) =
      userLongTerm name project user := by
  cases job <;> cases project <;> rfl

theorem userLongTerm_dropDebitedJob (jobNumber : ℕ) (user : UserProject) :
    userLongTerm name project (dropDebitedJob jobNumber user) = userLongTerm name project user := by
  cases project <;> rfl

end LongTerm

/-! ## One booking -/

section Booking

variable {env : ShareConf} {s : FinishState} {user : UserProject} {name : String} {currTime : ℕ}

def FinishedTask.booked (name : String) (task : FinishedTask) : ℚ :=
  (if name = finishedJobs then 1 else task.own name) + task.ofPeTasks name

theorem valueIn_markBooked (task : FinishedTask) :
    valueIn name (jobUsageList (markBooked task)) = task.booked name := by
  have hown : (markBooked task).own name = if name = finishedJobs then 1 else task.own name := by
    have hstart : (task.scaledUsageList.getD UsageList.empty).valueOf name = task.own name := by
      rw [FinishedTask.own]
      cases task.scaledUsageList <;> rfl
    exact (UsageList.valueOf_update _).trans (by rw [hstart])
  rw [valueIn_jobUsageList rfl, hown]
  rfl

theorem bookUserProjectUsage_user (task : FinishedTask) (project : Option UserProject) :
    bookUserProjectUsage env currTime task (some user) project =
      (some (saveDebited task.job.jobNumber (jobUsageList task)
        (bookUser env.usageWeightList (oldUsage task.job.jobNumber user.debitedJobUsage)
          (jobUsageList task) (project.map (decayUserprjUsage env.decay currTime))
          (decayUserprjUsage env.decay currTime user))),
        (project.map (decayUserprjUsage env.decay currTime)).map
          (bookProject env.usageWeightList (oldUsage task.job.jobNumber user.debitedJobUsage)
            (jobUsageList task))) := by
  rw [← decay_debitedJobUsage env.decay currTime user]
  rfl

theorem sgeBookFinishedJobUsage_fresh (hshare : env.shareTree = true)
    (hfresh : isBooked s.task = false) :
    sgeBookFinishedJobUsage env currTime s =
      { s with
        task := markBooked s.task
        user := (bookUserProjectUsage env currTime (markBooked s.task) s.user s.project).1.map
          (dropDebitedJob s.task.job.jobNumber)
        project := (bookUserProjectUsage env currTime (markBooked s.task) s.user s.project).2.map
          (dropDebitedJob s.task.job.jobNumber) } := by
  rw [sgeBookFinishedJobUsage, hfresh, hshare]
  rfl

/-- **A booking** for a user who has nothing debited for the job. -/
theorem longTerm_book (hshare : env.shareTree = true) (hfresh : isBooked s.task = false)
    (huser : s.user = some user)
    (hdebited : lookup DebitedJob.jobNumber s.task.job.jobNumber user.debitedJobUsage = none)
    (hrelevant : usageRelevantForSharetree env.usageWeightList name = true) :
    (sgeBookFinishedJobUsage env currTime s).userLongTerm name =
        s.userLongTerm name + max (s.task.booked name) 0 ∧
      (s.project.isSome → (sgeBookFinishedJobUsage env currTime s).projectLongTerm name =
        s.projectLongTerm name + max (s.task.booked name) 0) := by
  have hold := valueOf_oldUsage hdebited
  have hjob : (markBooked s.task).job = s.task.job := rfl
  rw [sgeBookFinishedJobUsage_fresh hshare hfresh, ← valueIn_markBooked, huser,
    bookUserProjectUsage_user, hjob, FinishState.userLongTerm, FinishState.userLongTerm,
    FinishState.projectLongTerm, FinishState.projectLongTerm, huser]
  dsimp only [Option.map_some, Option.getD_some]
  constructor
  · -- the project is another one now, under the same name
    have hname : (((s.project.map (decayUserprjUsage env.decay currTime)).map
        (bookProject env.usageWeightList (oldUsage s.task.job.jobNumber user.debitedJobUsage)
          (jobUsageList (markBooked s.task)))).map (dropDebitedJob s.task.job.jobNumber)).map
        (·.name) = (s.project.map (decayUserprjUsage env.decay currTime)).map (·.name) := by
      rw [Option.map_map, Option.map_map]
      rfl
    have hdecayed : (s.project.map (decayUserprjUsage env.decay currTime)).map (·.name) =
        s.project.map (·.name) := by
      rw [Option.map_map]
      exact Option.map_congr fun p _ => decay_name env.decay currTime p
    rw [userLongTerm_congr hname, userLongTerm_dropDebitedJob, userLongTerm_saveDebited,
      userLongTerm_bookUser hrelevant hold, userLongTerm_decay, userLongTerm_congr hdecayed]
  · intro hproject
    obtain ⟨p, hp⟩ := Option.isSome_iff_exists.mp hproject
    rw [hp]
    have hbooked := valueIn_bookList hrelevant hold (jobUsageList (markBooked s.task))
      (decayUserprjUsage env.decay currTime p).longTermUsage
    rw [decay_longTermUsage] at hbooked
    refine Eq.trans ?_ hbooked
    rw [← decay_longTermUsage env.decay currTime p]
    rfl

end Booking

/-! ## The commits -/

section Commits

variable {env : ShareConf} {s : FinishState} {user : UserProject} {name : String} {currTime : ℕ}

variable (env currTime) in
theorem commit_of_booked (h : isBooked s.task = true) :
    (commitFinishedFailedEe env s currTime).user = s.user ∧
      (commitFinishedFailedEe env s currTime).project = s.project ∧
      isBooked (commitFinishedFailedEe env s currTime).task = true := by
  have hcleared : isBooked (clearTask env.conf s.task) = true := by
    unfold clearTask
    split_ifs
    · exact h
    · exact h
  unfold commitFinishedFailedEe sgeBookFinishedJobUsage
  dsimp only
  rw [if_pos hcleared]
  exact ⟨rfl, rfl, hcleared⟩

theorem commits_of_booked (h : isBooked s.task = true) (times : List ℕ) :
    (commits env times s).user = s.user ∧ (commits env times s).project = s.project := by
  induction times generalizing s with
  | nil => exact ⟨rfl, rfl⟩
  | cons t times ih =>
    obtain ⟨huser, hproject, hbooked⟩ := commit_of_booked env t h
    obtain ⟨huser', hproject'⟩ := ih hbooked
    exact ⟨huser'.trans huser, hproject'.trans hproject⟩

theorem isBooked_eq (task : FinishedTask) :
    isBooked task = (lookup UsageAttr.name finishedJobs
      (task.scaledUsageList.getD UsageList.empty).elems).isSome := by
  rw [Bool.eq_iff_iff, isBooked, List.any_eq_true, lookup, List.find?_isSome]

theorem isBooked_markBooked (task : FinishedTask) : isBooked (markBooked task) = true := by
  rw [isBooked_eq, markBooked, Option.getD_some, usageListSetDoubleUsage, UsageList.update,
    lookup_upsert (fun _ => by rfl) (by rfl), if_pos rfl]
  rfl

/-- The parallel tasks are gone when the usage is booked. -/
theorem booked_clearTask (conf : Conf) (task : FinishedTask) :
    (clearTask conf task).booked name = (if name = finishedJobs then 1 else task.own name) +
      if clears conf task.toTask then 0 else task.ofPeTasks name := by
  by_cases h : clears conf task.toTask = true
  · rw [clearTask, if_pos h, if_pos h]
    rfl
  · rw [clearTask, if_neg h, if_neg h]
    rfl

variable (currTime) in
theorem commit_books (hshare : env.shareTree = true) (hfresh : isBooked s.task = false)
    (huser : s.user = some user)
    (hdebited : lookup DebitedJob.jobNumber s.task.job.jobNumber user.debitedJobUsage = none) :
    isBooked (commitFinishedFailedEe env s currTime).task = true ∧
      ∀ name, usageRelevantForSharetree env.usageWeightList name = true →
        (commitFinishedFailedEe env s currTime).userLongTerm name =
          s.userLongTerm name + max ((clearTask env.conf s.task).booked name) 0 ∧
        (s.project.isSome → (commitFinishedFailedEe env s currTime).projectLongTerm name =
          s.projectLongTerm name + max ((clearTask env.conf s.task).booked name) 0) := by
  have hjob : (clearTask env.conf s.task).job = s.task.job := by
    unfold clearTask
    split_ifs <;> rfl
  have hcleared : isBooked (clearTask env.conf s.task) = false := by
    unfold clearTask
    split_ifs
    · exact hfresh
    · exact hfresh
  constructor
  · unfold commitFinishedFailedEe
    dsimp only
    rw [sgeBookFinishedJobUsage_fresh hshare hcleared]
    exact isBooked_markBooked _
  · intro name hrelevant
    rw [← hjob] at hdebited
    exact longTerm_book (s := { s with
      cluster := Consumables.sgeClearGrantedResources env.conf s.task.toTask s.cluster
      task := clearTask env.conf s.task }) hshare hcleared huser hdebited hrelevant

theorem commits_books (hshare : env.shareTree = true) (hfresh : isBooked s.task = false)
    (huser : s.user = some user)
    (hdebited : lookup DebitedJob.jobNumber s.task.job.jobNumber user.debitedJobUsage = none)
    {times : List ℕ} (htimes : times ≠ [])
    (hrelevant : usageRelevantForSharetree env.usageWeightList name = true) :
    (commits env times s).userLongTerm name =
        s.userLongTerm name + max ((clearTask env.conf s.task).booked name) 0 ∧
      (s.project.isSome → (commits env times s).projectLongTerm name =
        s.projectLongTerm name + max ((clearTask env.conf s.task).booked name) 0) := by
  obtain ⟨t, times, rfl⟩ := List.exists_cons_of_ne_nil htimes
  obtain ⟨hbooked, hfirst⟩ := commit_books t hshare hfresh huser hdebited
  obtain ⟨huser', hproject'⟩ := commits_of_booked hbooked times
  have hrest : commits env (t :: times) s =
      commits env times (commitFinishedFailedEe env s t) := rfl
  rw [hrest, FinishState.userLongTerm, FinishState.projectLongTerm, huser', hproject']
  exact hfirst name hrelevant

theorem max_eq_add_iff (own ofPeTasks : ℚ) :
    max own 0 = own + ofPeTasks ↔ if 0 ≤ own then ofPeTasks = 0 else ofPeTasks = -own := by
  split_ifs with h
  · rw [max_eq_left h, left_eq_add]
  · rw [max_eq_right (le_of_not_ge h), eq_comm, add_comm, add_eq_zero_iff_eq_neg]

theorem max_one_add_iff (ofPeTasks : ℚ) : max (1 + ofPeTasks) 0 = 1 ↔ ofPeTasks = 0 := by
  constructor
  · intro h
    rcases max_choice (1 + ofPeTasks) 0 with hmax | hmax
    · exact add_eq_left.mp (hmax.symm.trans h)
    · exact absurd (hmax.symm.trans h) (by norm_num)
  · rintro rfl
    rw [add_zero]
    exact max_eq_left one_pos.le

theorem due_of_ne (task : FinishedTask) (h : name ≠ finishedJobs) :
    task.due name = task.own name + task.ofPeTasks name := if_neg h

theorem due_finishedJobs (task : FinishedTask) : task.due finishedJobs = 1 := if_pos rfl

theorem finishedJobs_relevant : usageRelevantForSharetree env.usageWeightList finishedJobs = true :=
  Bool.or_eq_true_iff.mpr (.inl (by decide))

theorem keepsUsage_iff (hfresh : isBooked s.task = false) :
    KeepsUsage env s.task ↔ ∀ name, usageRelevantForSharetree env.usageWeightList name = true →
      max ((clearTask env.conf s.task).booked name) 0 = s.task.due name := by
  constructor
  · intro h name hrelevant
    rw [booked_clearTask]
    cases hclears : clears env.conf s.task.toTask with
    | true =>
      rw [if_pos rfl, add_zero]
      by_cases hname : name = finishedJobs
      · rw [if_pos hname, hname, due_finishedJobs]
        exact max_eq_left one_pos.le
      · rw [if_neg hname, due_of_ne _ hname, max_eq_add_iff]
        exact h.cleared hclears name hrelevant hname
    | false =>
      obtain ⟨hfinished, hothers⟩ := h.kept hclears
      rw [if_neg Bool.false_ne_true]
      by_cases hname : name = finishedJobs
      · rw [if_pos hname, hname, due_finishedJobs, max_one_add_iff]
        exact hfinished
      · rw [if_neg hname, due_of_ne _ hname]
        exact max_eq_left (hothers name hrelevant hname)
  · intro h
    refine ⟨hfresh, fun hclears name hrelevant hname => ?_, fun hclears => ⟨?_, ?_⟩⟩
    · have hone := h name hrelevant
      rwa [booked_clearTask, if_pos hclears, add_zero, if_neg hname, due_of_ne _ hname,
        max_eq_add_iff] at hone
    · have hone := h finishedJobs finishedJobs_relevant
      rwa [booked_clearTask, hclears, if_neg Bool.false_ne_true, if_pos rfl, due_finishedJobs,
        max_one_add_iff] at hone
    · intro name hrelevant hname
      have hone := h name hrelevant
      rw [booked_clearTask, hclears, if_neg Bool.false_ne_true, if_neg hname,
        due_of_ne _ hname] at hone
      exact max_eq_left_iff.mp hone

/-- **The usage of a finished task is booked in full and once**, over one or more commits, for a
user who has nothing debited for the job, exactly when no usage of its parallel tasks gets lost
with the resources. -/
theorem booked_in_full_iff (hshare : env.shareTree = true) (huser : s.user = some user)
    (hdebited : lookup DebitedJob.jobNumber s.task.job.jobNumber user.debitedJobUsage = none)
    {times : List ℕ} (htimes : times ≠ []) :
    BookedInFull env s (commits env times s) ↔ KeepsUsage env s.task := by
  cases hbooked : isBooked s.task with
  | true =>
    -- nothing is added, so a finished job is missing
    obtain ⟨huser', hproject'⟩ := commits_of_booked hbooked times
    refine iff_of_false (fun h => ?_) fun h => Bool.false_ne_true (h.fresh.symm.trans hbooked)
    have hone := (h finishedJobs finishedJobs_relevant).1
    rw [FinishState.userLongTerm, huser', hproject', due_finishedJobs] at hone
    exact one_ne_zero (left_eq_add.mp hone)
  | false =>
    rw [keepsUsage_iff hbooked]
    refine forall₂_congr fun name hrelevant => ?_
    obtain ⟨hbook, hproject⟩ := commits_books hshare hbooked huser hdebited htimes hrelevant
    rw [hbook, add_right_inj]
    refine and_iff_left_of_imp fun hdue hsome => ?_
    rw [hproject hsome, hdue]

end Commits

/-! ## A task with cpu usage -/

def cpuUsage (value : ℚ) : UsageList := ⟨[⟨usageAttrCpu, value⟩], List.nodup_singleton _⟩

def usageConf : ShareConf where
  conf := smallConf
  shareTree := true
  usageWeightList := []
  decay := fun _ _ => 1

/-- A parallel job that has run on two slots. -/
def usageState (taskList : List PeTask) : FinishState where
  cluster := idleCluster
  task := { parallelTask with scaledUsageList := some (cpuUsage 10), taskList := taskList }
  user := some ⟨"owner", none, 0, none, [], [], 0⟩
  project := none

/-- Without parallel tasks everything is booked, also when the task is committed twice. -/
theorem booked_in_full_single :
    BookedInFull usageConf (usageState []) (commits usageConf [1, 2] (usageState [])) := by
  refine (booked_in_full_iff rfl rfl rfl (List.cons_ne_nil 1 [2])).mpr ⟨by decide, ?_, ?_⟩
  · intro _ name _ _
    have hown : 0 ≤ (usageState []).task.own name := by
      show 0 ≤ ((lookup UsageAttr.name name [⟨usageAttrCpu, 10⟩]).map UsageAttr.value).getD 0
      rw [lookup_cons, lookup_nil]
      split_ifs
      · exact Rat.natCast_nonneg
      · exact le_rfl
    rw [if_pos hown]
    rfl
  · exact fun h => absurd h (by decide)

/-- **The usage of a parallel task is not booked.** -/
theorem peTask_not_booked :
    let s := usageState [⟨"1.node", cpuUsage 5⟩]
    ¬ BookedInFull usageConf s (commits usageConf [1] s) := by
  intro s h
  have hcpu := (h usageAttrCpu (by decide)).1
  revert hcpu
  decide +kernel

end ClusterScheduler.Qmaster
