import ClusterScheduler.Qmaster.SubordinateTree

/-!
# Tasks in a slot-wise tree

When more tasks run in a slot-wise tree than its root allows, the qmaster suspends tasks below the
root. It counts a task once for each queue instance granted to it, notes it there, and suspends it
as a whole.

* `countRunningJobsInSlotwiseSosTree` — the count, and the tree with the tasks noted.
* `xMostExtremeTask` — chooses a task, suspends it and takes it out of the tree.
* `doSlotwiseXOnSubordinateCheck` — as often as the first count is above the threshold.
* `recorded_x` — the notes are those that a new count would make.
* `countRunningJobsInSlotwiseSosTree_suspend` — what the count is.
-/

namespace ClusterScheduler.Qmaster.Slotwise

open Relation Foundation

/-! ## Jobs -/

def jrunning : BitVec 32 := 0x80
def jsuspended : BitVec 32 := 0x100
def jdeleted : BitVec 32 := 0x400
def jexiting : BitVec 32 := 0x1000
def jsuspendedOnSubordinate : BitVec 32 := 0x2000
def jsuspendedOnSlotwiseSubordinate : BitVec 32 := 0x4000
def jsuspendedOnThreshold : BitVec 32 := 0x10000
def jfinished : BitVec 32 := 0x10000

def soActionLr : ℕ := 0x10

def isset (a b : BitVec 32) : Bool := a &&& b == b

/-- An element of `JAT_granted_destin_identifier_list`, with the full name of a queue instance. -/
structure Granted where
  qname : String
  qhostname : String
  deriving DecidableEq

structure JaTask where
  taskNumber : ℕ
  state : BitVec 32
  status : BitVec 32
  startTime : ℕ
  granted : List Granted
  deriving DecidableEq

/-- A job. The number is the key of a task. -/
structure Job where
  jobNumber : ℕ
  jaTasks : List JaTask
  unique : (jaTasks.map JaTask.taskNumber).Nodup
  deriving DecidableEq

/-- The master list. The number is the key of a job. -/
structure JobList where
  jobs : List Job
  unique : (jobs.map Job.jobNumber).Nodup
  deriving DecidableEq

/-- Sets or clears the flag of a slot-wise suspension. -/
def JaTask.x (suspend : Bool) (task : JaTask) : JaTask :=
  { task with state :=
      if suspend then jsuspendedOnSlotwiseSubordinate ||| task.state
      else task.state &&& ~~~jsuspendedOnSlotwiseSubordinate }

def Job.x (job : Job) (suspend : Bool) (taskId : ℕ) : Job where
  jobNumber := job.jobNumber
  jaTasks := job.jaTasks.map fun task => if task.taskNumber = taskId then task.x suspend else task
  unique := by
    have hnumbers : (job.jaTasks.map fun task =>
        if task.taskNumber = taskId then task.x suspend else task).map JaTask.taskNumber =
          job.jaTasks.map JaTask.taskNumber := by
      rw [List.map_map]
      refine List.map_congr_left fun task _ => ?_
      rw [Function.comp_apply]
      split <;> rfl
    rw [hnumbers]
    exact job.unique

def JobList.x (jobs : JobList) (suspend : Bool) (jobId taskId : ℕ) : JobList where
  jobs := jobs.jobs.map fun job => if job.jobNumber = jobId then job.x suspend taskId else job
  unique := by
    have hnumbers : (jobs.jobs.map fun job =>
        if job.jobNumber = jobId then job.x suspend taskId else job).map Job.jobNumber =
          jobs.jobs.map Job.jobNumber := by
      rw [List.map_map]
      refine List.map_congr_left fun job _ => ?_
      rw [Function.comp_apply]
      split <;> rfl
    rw [hnumbers]
    exact jobs.unique

/-- `sge_signal_queue()` sends the signal and leaves the states as they are. -/
structure Signal where
  qinstance : QInstance
  jobId : ℕ
  taskId : ℕ
  deriving DecidableEq

/-! ## Functions of the source -/

/-- In state running and not suspended in any way. -/
def JaTask.isRunning (task : JaTask) : Bool :=
  isset task.state jrunning && !isset task.state jsuspended &&
    !isset task.state jsuspendedOnThreshold && !isset task.state jsuspendedOnSubordinate &&
    !isset task.state jsuspendedOnSlotwiseSubordinate && !isset task.state jdeleted &&
    !isset task.status jexiting && !isset task.status jfinished

def JaTask.isSlotwiseSuspended (task : JaTask) : Bool :=
  isset task.state jsuspendedOnSlotwiseSubordinate && !isset task.state jdeleted &&
    !isset task.status jexiting

def isSsos (onlySsos : Bool) (task : JaTask) : Bool :=
  if onlySsos then
    !isset task.state jsuspended && !isset task.state jsuspendedOnThreshold &&
      !isset task.state jsuspendedOnSubordinate && isset task.state jsuspendedOnSlotwiseSubordinate
  else isset task.state jsuspendedOnSlotwiseSubordinate

structure SsosTask where
  jobId : ℕ
  task : JaTask
  deriving DecidableEq

/-- A queue instance of the tree, with the tasks noted there. -/
structure SsosNode where
  ssos : SsosQinstance
  tasks : List SsosTask

def SsosNode.named (qname : String) (node : SsosNode) : Bool :=
  node.ssos.qinstance.fullName == qname

/-- Notes a task at the first queue instance with the name. -/
def noteTask : List SsosNode → String → SsosTask → List SsosNode
  | [], _, _ => []
  | node :: tree, qname, task =>
    if node.named qname then { node with tasks := task :: node.tasks } :: tree
    else node :: noteTask tree qname task

def grantedOn (host : String) (jobId : ℕ) (task : JaTask) : List (SsosTask × String) :=
  (task.granted.filter (·.qhostname = host)).map fun gdi => (⟨jobId, task⟩, gdi.qname)

def allGrantedOn (host : String) (jobs : JobList) : List (SsosTask × String) :=
  jobs.jobs.flatMap fun job => job.jaTasks.flatMap (grantedOn host job.jobNumber)

/-- One granted queue instance. To unsuspend, a task is counted for every place with the name. -/
def countGranted (suspend : Bool) (acc : ℕ × List SsosNode) (gdi : SsosTask × String) :
    ℕ × List SsosNode :=
  if gdi.1.task.isRunning then
    if suspend then
      if acc.2.any (·.named gdi.2) then (acc.1 + 1, noteTask acc.2 gdi.2 gdi.1) else acc
    else (acc.1 + acc.2.countP (·.named gdi.2), acc.2)
  else if !suspend && gdi.1.task.isSlotwiseSuspended then (acc.1, noteTask acc.2 gdi.2 gdi.1)
  else acc

def countRunningJobsInSlotwiseSosTree (tree : List SsosQinstance) (suspend : Bool)
    (jobs : JobList) : ℕ × List SsosNode :=
  match tree with
  | [] => (0, [])
  | first :: _ =>
    (allGrantedOn first.qinstance.hostname jobs).foldl (countGranted suspend)
      (0, tree.map (⟨·, []⟩))

/-- The highest sequence number of a level, or the lowest to unsuspend. -/
def extremeSeqNo (tree : List SsosNode) (depth : ℕ) (suspend onlySsos : Bool) : ℕ :=
  tree.foldl (fun extreme node =>
    if node.ssos.depth = depth ∧ node.tasks ≠ [] ∧
        (suspend ∧ extreme < node.ssos.seqNo ∨ ¬suspend ∧ node.ssos.seqNo < extreme ∧
          node.tasks.any fun task => isSsos onlySsos task.task) then node.ssos.seqNo
    else extreme) (if suspend then 0 else 2 ^ 32 - 1)

structure Search where
  oldestStartTime : ℕ
  youngestStartTime : ℕ
  found : Option (SsosQinstance × SsosTask)

def Search.look (suspend : Bool) (search : Search) (place : SsosQinstance × SsosTask) : Search :=
  let oldest := (place.1.action == soActionLr) == suspend
  let startTime := place.2.task.startTime
  if oldest && startTime < search.oldestStartTime then
    { search with oldestStartTime := startTime, found := some place }
  else if !oldest && search.youngestStartTime < startTime then
    { search with youngestStartTime := startTime, found := some place }
  else search

/-- Where a task of a level is looked for. -/
def places (tree : List SsosNode) (depth : ℕ) (suspend onlySsos : Bool) :
    List (SsosQinstance × SsosTask) :=
  (tree.filter fun node => node.ssos.depth = depth ∧
      node.ssos.seqNo = extremeSeqNo tree depth suspend onlySsos).flatMap fun node =>
    (node.tasks.filter fun task => suspend || isSsos onlySsos task.task).map fun task =>
      (node.ssos, task)

def getTaskToXInDepth (tree : List SsosNode) (depth : ℕ) (suspend onlySsos : Bool) :
    Option (SsosQinstance × SsosTask) :=
  ((places tree depth suspend onlySsos).foldl (Search.look suspend) ⟨2 ^ 64 - 1, 0, none⟩).found

/-- The task that `x_most_extreme_task()` takes: from the deepest level up to suspend, and from the
first level down to unsuspend. -/
def mostExtremeTask (tree : List SsosNode) (suspend : Bool) : Option (SsosQinstance × SsosTask) :=
  let depth := tree.foldl (fun depth node => max node.ssos.depth depth) 0
  if suspend then
    (List.range' 1 depth).reverse.findSome? fun i => getTaskToXInDepth tree i suspend true
  else
    ((List.range' 1 depth).findSome? fun i => getTaskToXInDepth tree i suspend true).or
      ((List.range' 1 depth).findSome? fun i => getTaskToXInDepth tree i suspend false)

def slotwiseXOnSubordinate (jobs : JobList) (jobId taskId : ℕ) (suspend : Bool) : Option JobList :=
  (jobs.jobs.find? (·.jobNumber = jobId)).bind fun job =>
    (job.jaTasks.find? (·.taskNumber = taskId)).map fun _ => jobs.x suspend jobId taskId

def SsosTask.is (jobId taskId : ℕ) (task : SsosTask) : Bool :=
  task.jobId == jobId && task.task.taskNumber == taskId

def removeTaskFromSlotwiseSosTree (tree : List SsosNode) (jobId taskId : ℕ) : List SsosNode :=
  tree.map fun node => { node with tasks := node.tasks.filter fun task => !task.is jobId taskId }

/-- `none` if no task was found. -/
def xMostExtremeTask (tree : List SsosNode) (jobs : JobList) (suspend : Bool) :
    Option (Signal × List SsosNode × JobList) :=
  (mostExtremeTask tree suspend).bind fun (ssos, task) =>
    (slotwiseXOnSubordinate jobs task.jobId task.task.taskNumber suspend).map fun jobs =>
      (⟨ssos.qinstance, task.jobId, task.task.taskNumber⟩,
        removeTaskFromSlotwiseSosTree tree task.jobId task.task.taskNumber, jobs)

/-- The loop, with `diff` passes at most. -/
def xTasks : ℕ → List SsosNode → JobList → Bool → List Signal × JobList
  | 0, _, jobs, _ => ([], jobs)
  | diff + 1, tree, jobs, suspend =>
    match xMostExtremeTask tree jobs suspend with
    | none => ([], jobs)
    | some (signal, tree, jobs) =>
      let (signals, jobs) := xTasks diff tree jobs suspend
      (signal :: signals, jobs)

def getSlotwiseSosSuperQinstance (queues : ClusterQueueList) (qi : QInstance) : Option QInstance :=
  queues.cqueues.findSome? fun cqueue =>
    (cqueue.locateQinstance qi.hostname).filter fun super =>
      0 < getSlotwiseSosThreshold super && super.listsSlotwise qi.qname

/-- The answer is `false` if there is no slot-wise tree. -/
def doSlotwiseXOnSubordinateCheck (queues : ClusterQueueList) :
    ℕ → QInstance → Bool → Bool → JobList → Option (Bool × List Signal × JobList)
  | 0, _, _, _, _ => none
  | fuel + 1, qi, suspend, checkSubtreeOnly, jobs => do
    let root ←
      if checkSubtreeOnly then some (some qi)
      else if suspend then
        if getSlotwiseSosThreshold qi = 0 then some (getSlotwiseSosSuperQinstance queues qi)
        else some (some qi)
      else getSlotwiseSosTreeRoot queues fuel qi
    match root with
    | none => some (false, [], jobs)
    | some root =>
      let slotsSum := getSlotwiseSosThreshold root
      if slotsSum = 0 then some (false, [], jobs)
      else
        let tree ← getSlotwiseSosSubTreeQinstances queues fuel root [] 0
        let (runningJobs, nodes) := countRunningJobsInSlotwiseSosTree tree suspend jobs
        -- one of the two differences is 0
        let diff := if suspend then runningJobs - slotsSum else slotsSum - runningJobs
        let (signals, jobs) := xTasks diff nodes jobs suspend
        match if suspend && !checkSubtreeOnly then getSlotwiseSosSuperQinstance queues root
          else none with
        | none => some (true, signals, jobs)
        | some super => do
          let (_, more, jobs) ←
            doSlotwiseXOnSubordinateCheck queues fuel super suspend checkSubtreeOnly jobs
          some (true, signals ++ more, jobs)

/-! ## A task that is suspended is counted no more -/

theorem isset_or (flag state : BitVec 32) : isset (flag ||| state) flag = true := by
  have hand : (flag ||| state) &&& flag = flag := by
    ext i hi
    simp only [BitVec.getElem_and, BitVec.getElem_or]
    cases flag[i] <;> simp
  rw [isset, hand, beq_self_eq_true]

theorem isRunning_x (task : JaTask) : (task.x true).isRunning = false := by
  have hflag : isset (task.x true).state jsuspendedOnSlotwiseSubordinate = true :=
    isset_or jsuspendedOnSlotwiseSubordinate task.state
  unfold JaTask.isRunning
  rw [hflag]
  simp

def runningOn (host : String) (jobs : JobList) : List (SsosTask × String) :=
  (allGrantedOn host jobs).filter (·.1.task.isRunning)

section Running

variable {host : String} {jobs : JobList} {jobId taskId : ℕ}

theorem filter_grantedOn (p : SsosTask → Bool) (task : JaTask) :
    (grantedOn host jobId task).filter (fun gdi => p gdi.1) =
      if p ⟨jobId, task⟩ then grantedOn host jobId task else [] := by
  have hsame : ∀ gdi ∈ grantedOn host jobId task, gdi.1 = ⟨jobId, task⟩ := by
    intro gdi hgdi
    obtain ⟨granted, -, rfl⟩ := List.mem_map.mp hgdi
    rfl
  split
  · rename_i hp
    exact List.filter_eq_self.mpr fun gdi hgdi => by rw [hsame gdi hgdi, hp]
  · rename_i hp
    exact List.filter_eq_nil_iff.mpr fun gdi hgdi => by rw [hsame gdi hgdi]; exact hp

/-- Of the list of a job, the granted queue instances of the suspended task go. -/
theorem runningOn_job (job : Job) :
    (((job.x true taskId).jaTasks.flatMap (grantedOn host job.jobNumber)).filter
        (·.1.task.isRunning)) =
      ((job.jaTasks.flatMap (grantedOn host job.jobNumber)).filter (·.1.task.isRunning)).filter
        fun gdi => !gdi.1.is job.jobNumber taskId := by
  rw [Job.x, List.flatMap_map, List.filter_flatMap, List.filter_filter, List.filter_flatMap]
  congr 1
  funext task
  rw [filter_grantedOn (fun task => task.task.isRunning),
    filter_grantedOn (fun task => !task.is job.jobNumber taskId && task.task.isRunning)]
  by_cases htask : task.taskNumber = taskId
  · simp [htask, isRunning_x, SsosTask.is]
  · simp [htask, SsosTask.is]

theorem runningOn_x : runningOn host (jobs.x true jobId taskId) =
    (runningOn host jobs).filter fun gdi => !gdi.1.is jobId taskId := by
  unfold runningOn allGrantedOn JobList.x
  rw [List.flatMap_map, List.filter_flatMap, List.filter_flatMap, List.filter_flatMap]
  congr 1
  funext job
  by_cases hjob : job.jobNumber = jobId
  · rw [if_pos hjob, ← hjob]
    exact runningOn_job job
  · rw [if_neg hjob]
    refine (List.filter_eq_self.mpr fun gdi hgdi => ?_).symm
    obtain ⟨task, -, hgdi⟩ := List.mem_flatMap.mp (List.mem_of_mem_filter hgdi)
    obtain ⟨granted, -, rfl⟩ := List.mem_map.mp hgdi
    simp [SsosTask.is, hjob]

def JobList.after (jobs : JobList) (signals : List Signal) : JobList :=
  signals.foldl (fun jobs signal => jobs.x true signal.jobId signal.taskId) jobs

def SsosTask.isOneOf (signals : List Signal) (task : SsosTask) : Bool :=
  signals.any fun signal => task.is signal.jobId signal.taskId

theorem runningOn_after (signals : List Signal) : runningOn host (jobs.after signals) =
    (runningOn host jobs).filter fun gdi => !gdi.1.isOneOf signals := by
  induction signals generalizing jobs with
  | nil => exact (List.filter_eq_self.mpr fun _ _ => rfl).symm
  | cons signal signals ih =>
    rw [JobList.after, List.foldl_cons, ← JobList.after, ih, runningOn_x, List.filter_filter]
    refine List.filter_congr fun gdi _ => ?_
    rw [SsosTask.isOneOf, SsosTask.isOneOf, List.any_cons, Bool.not_or, Bool.and_comm]

/-- The task runs, and the queue instance is one of those granted to it. -/
def RunsIn (jobs : JobList) (jobId taskId : ℕ) (gdi : Granted) : Prop :=
  ∃ job ∈ jobs.jobs, job.jobNumber = jobId ∧ ∃ task ∈ job.jaTasks, task.taskNumber = taskId ∧
    task.isRunning ∧ gdi ∈ task.granted

variable {qname : String}

theorem mem_runningOn {task : SsosTask} :
    (task, qname) ∈ runningOn host jobs ↔ ∃ job ∈ jobs.jobs, job.jobNumber = task.jobId ∧
      task.task ∈ job.jaTasks ∧ task.task.isRunning ∧ ⟨qname, host⟩ ∈ task.task.granted := by
  unfold runningOn allGrantedOn grantedOn
  simp only [List.mem_filter, List.mem_flatMap, List.mem_map, decide_eq_true_eq]
  constructor
  · rintro ⟨⟨job, hjob, ja, hja, ⟨qname, host⟩, ⟨hgdi, rfl⟩, heq⟩, hrunning⟩
    cases heq
    exact ⟨job, hjob, rfl, hja, hrunning, hgdi⟩
  · rintro ⟨job, hjob, hnumber, hja, hrunning, hgdi⟩
    exact ⟨⟨job, hjob, task.task, hja, ⟨qname, host⟩, ⟨hgdi, rfl⟩, by rw [hnumber]⟩, hrunning⟩

theorem runsIn_iff : RunsIn jobs jobId taskId ⟨qname, host⟩ ↔
    ∃ task : SsosTask, task.jobId = jobId ∧ task.task.taskNumber = taskId ∧
      (task, qname) ∈ runningOn host jobs := by
  constructor
  · rintro ⟨job, hjob, hnumber, task, htask, htaskId, hrunning, hgdi⟩
    have hmem : (⟨jobId, task⟩, qname) ∈ runningOn host jobs :=
      mem_runningOn.mpr ⟨job, hjob, hnumber, htask, hrunning, hgdi⟩
    exact ⟨⟨jobId, task⟩, rfl, htaskId, hmem⟩
  · rintro ⟨task, rfl, rfl, hmem⟩
    obtain ⟨job, hjob, hnumber, htask, hrunning, hgdi⟩ := mem_runningOn.mp hmem
    exact ⟨job, hjob, hnumber, task.task, htask, rfl, hrunning, hgdi⟩

end Running

/-! ## Where the tasks are noted -/

section Noted

variable {tree : List SsosNode} {qname : String} {task : SsosTask} {ssos : SsosQinstance}

def placeOf (tree : List SsosQinstance) (qname : String) : Option SsosQinstance :=
  tree.find? fun ssos => ssos.qinstance.fullName == qname

def Noted (tree : List SsosNode) (ssos : SsosQinstance) (task : SsosTask) : Prop :=
  ∃ node ∈ tree, node.ssos = ssos ∧ task ∈ node.tasks

theorem noted_cons {node : SsosNode} : Noted (node :: tree) ssos task ↔
    node.ssos = ssos ∧ task ∈ node.tasks ∨ Noted tree ssos task := by
  simp only [Noted, List.mem_cons, exists_eq_or_imp]

theorem map_ssos_noteTask :
    (noteTask tree qname task).map SsosNode.ssos = tree.map SsosNode.ssos := by
  induction tree with
  | nil => rfl
  | cons node tree ih =>
    unfold noteTask
    split
    · rfl
    · rw [List.map_cons, List.map_cons, ih]

theorem noted_noteTask {task' : SsosTask} : Noted (noteTask tree qname task) ssos task' ↔
    Noted tree ssos task' ∨ task' = task ∧ placeOf (tree.map SsosNode.ssos) qname = some ssos := by
  induction tree with
  | nil => simp [noteTask, Noted, placeOf]
  | cons node tree ih =>
    unfold noteTask
    by_cases hnamed : node.named qname = true
    · have hplace : placeOf ((node :: tree).map SsosNode.ssos) qname = some node.ssos := by
        exact List.find?_cons_of_pos hnamed
      rw [if_pos hnamed, noted_cons, noted_cons, hplace, List.mem_cons, Option.some.injEq]
      tauto
    · have hplace : placeOf ((node :: tree).map SsosNode.ssos) qname =
          placeOf (tree.map SsosNode.ssos) qname := by
        exact List.find?_cons_of_neg hnamed
      rw [if_neg hnamed, noted_cons, noted_cons, ih, hplace, or_assoc]

/-- Nothing is noted for a queue instance outside of the tree. -/
theorem noteTask_of_not_any (h : tree.any (·.named qname) = false) :
    noteTask tree qname task = tree := by
  induction tree with
  | nil => rfl
  | cons node tree ih =>
    rw [List.any_cons, Bool.or_eq_false_iff] at h
    rw [noteTask, h.1, ih h.2]
    rfl

theorem any_named_iff : tree.any (·.named qname) =
    (placeOf (tree.map SsosNode.ssos) qname).isSome := by
  rw [placeOf, List.isSome_find?, List.any_map]
  rfl

theorem removeTask_noteTask {jobId taskId : ℕ} :
    removeTaskFromSlotwiseSosTree (noteTask tree qname task) jobId taskId =
      if task.is jobId taskId then removeTaskFromSlotwiseSosTree tree jobId taskId
      else noteTask (removeTaskFromSlotwiseSosTree tree jobId taskId) qname task := by
  induction tree with
  | nil => cases task.is jobId taskId <;> rfl
  | cons node tree ih =>
    unfold removeTaskFromSlotwiseSosTree at ih ⊢
    rw [List.map_cons]
    unfold noteTask
    by_cases hnamed : node.named qname = true
    · have hkeep : SsosNode.named qname ⟨node.ssos,
          node.tasks.filter fun task => !task.is jobId taskId⟩ = true := hnamed
      rw [if_pos hnamed, if_pos hkeep, List.map_cons, List.filter_cons]
      cases task.is jobId taskId <;> rfl
    · have hkeep : ¬ SsosNode.named qname ⟨node.ssos,
          node.tasks.filter fun task => !task.is jobId taskId⟩ = true := hnamed
      rw [if_neg hnamed, if_neg hkeep, List.map_cons, ih]
      cases task.is jobId taskId <;> rfl

end Noted

def recorded (host : String) (tree : List SsosQinstance) (jobs : JobList) : List SsosNode :=
  (runningOn host jobs).foldl (fun nodes gdi => noteTask nodes gdi.2 gdi.1) (tree.map (⟨·, []⟩))

def runningCount (host : String) (tree : List SsosQinstance) (jobs : JobList) : ℕ :=
  (runningOn host jobs).countP fun gdi => (placeOf tree gdi.2).isSome

section Recorded

variable {host : String} {tree : List SsosQinstance} {jobs : JobList}

variable {ssos : SsosQinstance} {task : SsosTask}

theorem noted_foldl (gdis : List (SsosTask × String)) (nodes : List SsosNode) :
    Noted (gdis.foldl (fun nodes gdi => noteTask nodes gdi.2 gdi.1) nodes) ssos task ↔
      Noted nodes ssos task ∨
        ∃ qname, (task, qname) ∈ gdis ∧ placeOf (nodes.map SsosNode.ssos) qname = some ssos := by
  induction gdis generalizing nodes with
  | nil => simp
  | cons gdi gdis ih =>
    rw [List.foldl_cons, ih, noted_noteTask, map_ssos_noteTask, or_assoc]
    refine or_congr_right ?_
    constructor
    · rintro (⟨rfl, hplace⟩ | ⟨qname, hmem, hplace⟩)
      · exact ⟨gdi.2, .head _, hplace⟩
      · exact ⟨qname, .tail _ hmem, hplace⟩
    · rintro ⟨qname, hmem, hplace⟩
      rcases List.mem_cons.mp hmem with rfl | hmem
      · exact .inl ⟨rfl, hplace⟩
      · exact .inr ⟨qname, hmem, hplace⟩

theorem noted_recorded :
    Noted (recorded host tree jobs) ssos task ↔
      ∃ qname, (task, qname) ∈ runningOn host jobs ∧ placeOf tree qname = some ssos := by
  have hnone : ¬ Noted (tree.map (⟨·, []⟩)) ssos task := by
    rintro ⟨node, hnode, -, htask⟩
    obtain ⟨ssos, -, rfl⟩ := List.mem_map.mp hnode
    cases htask
  have htree : (tree.map (SsosNode.mk · [])).map SsosNode.ssos = tree := by
    rw [List.map_map]
    exact List.map_id tree
  rw [recorded, noted_foldl, htree]
  exact or_iff_right hnone

/-- What is noted after a suspension is what a new count would note. -/
theorem recorded_x (jobId taskId : ℕ) : recorded host tree (jobs.x true jobId taskId) =
    removeTaskFromSlotwiseSosTree (recorded host tree jobs) jobId taskId := by
  have hfold : ∀ (gdis : List (SsosTask × String)) (nodes : List SsosNode),
      removeTaskFromSlotwiseSosTree
          (gdis.foldl (fun nodes gdi => noteTask nodes gdi.2 gdi.1) nodes) jobId taskId =
        (gdis.filter fun gdi => !gdi.1.is jobId taskId).foldl
          (fun nodes gdi => noteTask nodes gdi.2 gdi.1)
          (removeTaskFromSlotwiseSosTree nodes jobId taskId) := by
    intro gdis
    induction gdis with
    | nil => exact fun _ => rfl
    | cons gdi gdis ih =>
      intro nodes
      rw [List.foldl_cons, ih, removeTask_noteTask, List.filter_cons]
      cases gdi.1.is jobId taskId <;> rfl
  have hempty : removeTaskFromSlotwiseSosTree (tree.map (⟨·, []⟩)) jobId taskId =
      tree.map (⟨·, []⟩) := by
    unfold removeTaskFromSlotwiseSosTree
    rw [List.map_map]
    rfl
  rw [recorded, recorded, hfold, hempty, runningOn_x]

/-- To suspend, a task is counted and noted once for each granted queue instance. -/
theorem countRunningJobsInSlotwiseSosTree_suspend {first : SsosQinstance}
    (hfirst : tree.head? = some first) (hhost : first.qinstance.hostname = host) :
    countRunningJobsInSlotwiseSosTree tree true jobs =
      (runningCount host tree jobs, recorded host tree jobs) := by
  have hfold : ∀ (gdis : List (SsosTask × String)) (sum : ℕ) (nodes : List SsosNode),
      gdis.foldl (countGranted true) (sum, nodes) =
        (sum + (gdis.filter (·.1.task.isRunning)).countP
            fun gdi => (placeOf (nodes.map SsosNode.ssos) gdi.2).isSome,
          (gdis.filter (·.1.task.isRunning)).foldl
            (fun nodes gdi => noteTask nodes gdi.2 gdi.1) nodes) := by
    intro gdis
    induction gdis with
    | nil => exact fun _ _ => rfl
    | cons gdi gdis ih =>
      intro sum nodes
      rw [List.foldl_cons, List.filter_cons, countGranted]
      by_cases hrunning : gdi.1.task.isRunning = true
      · rw [if_pos hrunning, if_pos rfl, if_pos hrunning, List.foldl_cons, List.countP_cons,
          any_named_iff]
        by_cases hplace : (placeOf (nodes.map SsosNode.ssos) gdi.2).isSome = true
        · rw [if_pos hplace, if_pos hplace, ih, map_ssos_noteTask, add_assoc, add_comm 1]
        · have hkeep : noteTask nodes gdi.2 gdi.1 = nodes := by
            apply noteTask_of_not_any
            rw [any_named_iff]
            exact Bool.not_eq_true _ ▸ hplace
          rw [if_neg hplace, if_neg hplace, ih, hkeep, add_zero]
      · rw [if_neg hrunning, if_neg hrunning, ← ih]
        rfl
  cases tree with
  | nil => exact absurd hfirst (by simp)
  | cons second rest =>
    obtain rfl : second = first := Option.some.inj hfirst
    have htree : ((second :: rest).map (SsosNode.mk · [])).map SsosNode.ssos =
        second :: rest := by
      rw [List.map_map]
      exact List.map_id _
    rw [countRunningJobsInSlotwiseSosTree, hfold, htree, hhost, zero_add]
    rfl

end Recorded

end ClusterScheduler.Qmaster.Slotwise
