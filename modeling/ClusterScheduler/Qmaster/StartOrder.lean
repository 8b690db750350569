import ClusterScheduler.Consumables.Quotas
import ClusterScheduler.Sgeobj.JobEnroll

/-!
# Start orders that are refused

The scheduler orders the start of an array task. The task is enrolled for it, and the
order can still be refused for many reasons: each exit has to undo what was done.

* `StartOrder`, `OrderEnv`, `OrderJob` — the order, the master lists, and the job.
* `checkQueue`, `QueueRefusal` — the checks of a granted queue instance.
* `sgeFollowOrder` — the start order up to the delivery of the task.
* `NoTrace` — the job is what it was.
* `start_refused_iff` — when a refused order leaves no trace.

Texts of messages and the tickets of the task are left out.
-/

namespace ClusterScheduler.Qmaster

open Foundation Sgeobj
open Consumables (Granted)

/-! ## Data -/

structure OrderQueue where
  destQueue : Option String
  destVersion : ℕ
  slots : ℕ

structure StartOrder where
  jobNumber : ℕ
  jobVersion : ℕ
  jaTaskNumber : ℕ
  pe : Option String
  queueList : List OrderQueue

/-- What is checked of a queue instance. -/
structure OrderQinstance where
  qhostname : String
  version : ℕ
  jobSlots : ℕ
  slotsUsed : ℤ
  isError : Bool
  isCalSuspended : Bool
  isCalDisabled : Bool

/-- A job with the granted parallel environment and queue instances of its enrolled tasks,
by task number. -/
structure OrderJob where
  job : Job
  template : JaTask
  version : ℕ
  ar : ℕ
  grantedPe : ℕ → Option String
  grantedDestinIdentifierList : ℕ → List Granted

/-- The master lists: what they have of the names in an order, and what is found for the
job. That the owner has access to a queue instance and that the consumables still suffice
for the queue instances granted changes nothing in a job. -/
structure OrderEnv where
  peListLocate : String → Bool
  arListLocate : ℕ → Bool
  cqueueListLocateQinstance : String → Option OrderQinstance
  rescheduleUnknownList : String → Option (List (ℕ × ℕ))
  sgeHasAccess : String → Bool
  consumablesOk : List Granted → Bool

/-- Why a queue instance of an order is refused. -/
inductive QueueRefusal where
  | noQname
  | noQueue
  | queueVersion
  | jobAccess
  | freeSlots
  | error
  | calSuspended
  | calDisabled
  | noHost
  | rescheduleUnknown
  deriving DecidableEq

/-- The job, what is returned unless the task is handed on to its delivery, and whether
the task was announced as a new one. -/
structure Followed where
  jep : OrderJob
  ret : Option ℤ
  jataskAdd : Bool

/-! ## Functions of the source -/

def jidle : BitVec 32 := 0

def QueueRefusal.ret : QueueRefusal → ℤ
  | noQname | noQueue | noHost => -2
  | _ => -1

def QueueRefusal.unenrolls : QueueRefusal → Bool
  | calDisabled => false
  | _ => true

section Functions

variable (σ : Sorter) (env : OrderEnv) (order : StartOrder)

def checkQueue (oep : OrderQueue) : Except QueueRefusal Granted :=
  match oep.destQueue with
  | none => .error .noQname
  | some qName =>
    match env.cqueueListLocateQinstance qName with
    | none => .error .noQueue
    | some qep =>
      if oep.destVersion ≠ qep.version then .error .queueVersion
      else if !env.sgeHasAccess qName then .error .jobAccess
      -- unsigned, so more slots in use than there are count as free ones
      else if ((qep.jobSlots : ℤ) - qep.slotsUsed) % 2 ^ 32 < oep.slots then
        .error .freeSlots
      else if qep.isError then .error .error
      else if qep.isCalSuspended then .error .calSuspended
      else if qep.isCalDisabled then .error .calDisabled
      else
        match env.rescheduleUnknownList qep.qhostname with
        | none => .error .noHost
        | some l =>
          if (order.jobNumber, order.jaTaskNumber) ∈ l then .error .rescheduleUnknown
          else .ok ⟨qName, qep.qhostname, oep.slots⟩

/-- The loop through the queue instances, up to the first one that is refused. -/
def checkQueues : List OrderQueue → Except QueueRefusal (List Granted)
  | [] => .ok []
  | oep :: queueList =>
    match checkQueue env order oep with
    | .error refusal => .error refusal
    | .ok granted =>
      match checkQueues queueList with
      | .error refusal => .error refusal
      | .ok gdil => .ok (granted :: gdil)

def undoEnroll (enrolledTask : Bool) (jep : OrderJob) : OrderJob :=
  if enrolledTask then { jep with job := jobUnenroll σ jep.job order.jaTaskNumber } else jep

def setGrantedPe (pe : Option String) (jep : OrderJob) : OrderJob :=
  if (jobSearchTask jep.job order.jaTaskNumber).isSome then
    { jep with grantedPe := Function.update jep.grantedPe order.jaTaskNumber pe }
  else jep

/-- The parallel environment of the order, if it has one. -/
def grantPe (jep : OrderJob) : OrderJob :=
  match order.pe with
  | some pe => setGrantedPe order (some pe) jep
  | none => jep

def refuse (enrolledTask : Bool) (ret : ℤ) (jep : OrderJob) : Followed :=
  ⟨setGrantedPe order none (undoEnroll σ order enrolledTask jep), some ret, false⟩

def peFound : Bool := order.pe.all env.peListLocate

def arFound (jep : OrderJob) : Bool := jep.ar = 0 || env.arListLocate jep.ar

/-- From the parallel environment on. -/
def followGranted (enrolledTask : Bool) (jep : OrderJob) : Followed :=
  if !arFound env jep then refuse σ order enrolledTask (-2) jep
  else
    match checkQueues env order order.queueList with
    | .error refusal => refuse σ order (enrolledTask && refusal.unenrolls) refusal.ret jep
    | .ok gdil =>
      if !env.consumablesOk gdil then refuse σ order enrolledTask 0 jep
      else
        ⟨{ jep with
            grantedDestinIdentifierList :=
              Function.update jep.grantedDestinIdentifierList order.jaTaskNumber gdil },
          none, enrolledTask⟩

def followTask (enrolledTask : Bool) (jaTask : JaTask) (jep : OrderJob) : Followed :=
  if jaTask.status ≠ jidle then ⟨undoEnroll σ order enrolledTask jep, some (-1), false⟩
  else if !peFound env order then ⟨undoEnroll σ order enrolledTask jep, some (-2), false⟩
  else
    followGranted σ env order enrolledTask (grantPe order jep)

def OrderJob.create (jep : OrderJob) (jaTaskNumber : ℕ) : OrderJob :=
  { jep with
    job := jobCreateTask jep.template jep.job jaTaskNumber
    grantedPe := Function.update jep.grantedPe jaTaskNumber none
    grantedDestinIdentifierList :=
      Function.update jep.grantedDestinIdentifierList jaTaskNumber [] }

/-- A task that is not enrolled is enrolled, if it has no hold. -/
def followJob (jep : OrderJob) : Followed :=
  match jobSearchTask jep.job order.jaTaskNumber with
  | some jaTask => followTask σ env order false jaTask jep
  | none =>
    if rangeListIsIdWithin (jep.job.idList .nHIds) order.jaTaskNumber then
      if jobIsJaTaskDefined jep.job order.jaTaskNumber then
        followTask σ env order true
          (jobGetJaTaskTemplatePending jep.template order.jaTaskNumber)
          (jep.create order.jaTaskNumber)
      else ⟨jep, some (-1), false⟩
    else ⟨jep, some 0, false⟩

/-- A start order for a job that is in the master list. -/
def sgeFollowOrder (jep : OrderJob) : Followed :=
  if order.jobNumber = 0 then ⟨jep, some (-2), false⟩
  else if order.jaTaskNumber = 0 then ⟨jep, some (-2), false⟩
  else if jep.version ≠ order.jobVersion then ⟨jep, some (-1), false⟩
  else followJob σ env order jep

end Functions

/-! ## What a refused order leaves -/

/-- The id lists have the same ids, the enrolled tasks are the same, and so is what they
were granted. -/
structure NoTrace (jep jep' : OrderJob) : Prop where
  ids : ∀ attr x, Has (jep'.job.idList attr) x ↔ Has (jep.job.idList attr) x
  tasks : jep'.job.jaTasks = jep.job.jaTasks
  granted : ∀ task ∈ jep.job.jaTasks, jep'.grantedPe task.number = jep.grantedPe task.number ∧
    jep'.grantedDestinIdentifierList task.number = jep.grantedDestinIdentifierList task.number

section Conditions

variable (env : OrderEnv) (order : StartOrder)

def FirstRefused (refusal : QueueRefusal) (queueList : List OrderQueue) : Prop :=
  ∃ before oep after, queueList = before ++ oep :: after ∧
    (∀ o ∈ before, ∃ granted, checkQueue env order o = .ok granted) ∧
    checkQueue env order oep = .error refusal

variable (jep : OrderJob)

def Addressed : Prop :=
  order.jobNumber ≠ 0 ∧ order.jaTaskNumber ≠ 0 ∧ jep.version = order.jobVersion

/-- A task is enrolled for the order, and then a queue instance that its calendar disables
is the first one that is refused. -/
def LeavesTask : Prop :=
  Addressed order jep ∧ jobSearchTask jep.job order.jaTaskNumber = none ∧
    rangeListIsIdWithin (jep.job.idList .nHIds) order.jaTaskNumber = true ∧
    jobIsJaTaskDefined jep.job order.jaTaskNumber = true ∧ jep.template.status = jidle ∧
    peFound env order = true ∧ arFound env jep = true ∧
    FirstRefused env order .calDisabled order.queueList

/-- A task that was enrolled before and waits has a parallel environment from an earlier
run, and the order names one that is found, or none. -/
def ForgetsPe : Prop :=
  Addressed order jep ∧
    (∃ jaTask, jobSearchTask jep.job order.jaTaskNumber = some jaTask ∧ jaTask.status = jidle) ∧
    peFound env order = true ∧ jep.grantedPe order.jaTaskNumber ≠ none

end Conditions

section Exits

variable {σ : Sorter} {env : OrderEnv} {order : StartOrder} {jep : OrderJob} {jaTask : JaTask}

theorem checkQueues_error {refusal : QueueRefusal} (l : List OrderQueue) :
    checkQueues env order l = .error refusal ↔ FirstRefused env order refusal l := by
  induction l with
  | nil =>
    constructor
    · exact nofun
    · rintro ⟨before, oep, after, heq, -⟩
      exact absurd heq.symm (List.append_ne_nil_of_right_ne_nil _ (List.cons_ne_nil _ _))
  | cons o l ih =>
    rw [checkQueues]
    cases ho : checkQueue env order o with
    | error e =>
      dsimp only
      constructor
      · intro he
        obtain rfl := Except.error.inj he
        exact ⟨[], o, l, rfl, List.forall_mem_nil _, ho⟩
      · rintro ⟨before, oep, after, heq, hbefore, hoep⟩
        cases before with
        | nil =>
          obtain ⟨rfl, -⟩ := List.cons.inj heq
          exact congrArg Except.error (Except.error.inj (ho.symm.trans hoep))
        | cons o' before =>
          obtain ⟨rfl, -⟩ := List.cons.inj heq
          obtain ⟨granted, hok⟩ := hbefore o (.head _)
          exact absurd (ho.symm.trans hok) nofun
    | ok granted =>
      have hstep : FirstRefused env order refusal (o :: l) ↔
          FirstRefused env order refusal l := by
        constructor
        · rintro ⟨before, oep, after, heq, hbefore, hoep⟩
          cases before with
          | nil =>
            obtain ⟨rfl, -⟩ := List.cons.inj heq
            exact absurd (ho.symm.trans hoep) nofun
          | cons o' before =>
            obtain ⟨-, rfl⟩ := List.cons.inj heq
            exact ⟨before, oep, after, rfl,
              fun q hq => hbefore q (.tail _ hq), hoep⟩
        · rintro ⟨before, oep, after, rfl, hbefore, hoep⟩
          exact ⟨o :: before, oep, after, rfl,
            List.forall_mem_cons.mpr ⟨⟨granted, ho⟩, hbefore⟩, hoep⟩
      rw [hstep, ← ih]
      dsimp only
      cases checkQueues env order l with
      | error e => exact Iff.rfl
      | ok gdil => exact ⟨nofun, nofun⟩

/-- The exits after the parallel environment: all of them undo an enrolment, but for the
one for a queue instance that its calendar disables. -/
theorem followGranted_cases {enrolledTask : Bool}
    (hrefused : (followGranted σ env order enrolledTask jep).ret ≠ none) :
    (∃ ret, followGranted σ env order enrolledTask jep = refuse σ order false ret jep ∧
      arFound env jep = true ∧ FirstRefused env order .calDisabled order.queueList) ∨
    (∃ ret, followGranted σ env order enrolledTask jep = refuse σ order enrolledTask ret jep ∧
      ¬(arFound env jep = true ∧ FirstRefused env order .calDisabled order.queueList)) := by
  unfold followGranted at hrefused ⊢
  cases har : arFound env jep with
  | false => exact Or.inr ⟨-2, rfl, nofun⟩
  | true =>
    simp only [har, Bool.not_true, Bool.false_eq_true, if_false] at hrefused ⊢
    rw [← checkQueues_error]
    cases hqueues : checkQueues env order order.queueList with
    | error refusal =>
      by_cases hcal : refusal = .calDisabled
      · subst hcal
        refine Or.inl ⟨-1, ?_, trivial, rfl⟩
        show refuse σ order (enrolledTask && false) (-1) jep = _
        rw [Bool.and_false]
      · have hunenrolls : refusal.unenrolls = true := by
          cases refusal <;> first | rfl | exact absurd rfl hcal
        refine Or.inr ⟨refusal.ret, ?_, fun h => hcal (Except.error.inj h.2)⟩
        show refuse σ order (enrolledTask && refusal.unenrolls) refusal.ret jep = _
        rw [hunenrolls, Bool.and_true]
    | ok gdil =>
      rw [hqueues] at hrefused
      cases hok : env.consumablesOk gdil with
      | true =>
        simp only [hok, Bool.not_true, Bool.false_eq_true, if_false] at hrefused
        exact absurd rfl hrefused
      | false =>
        refine Or.inr ⟨0, ?_, fun h => nomatch h.2⟩
        simp only [hok, Bool.not_false, if_true]

/-- What the parallel environment is set to does not matter to the rest. -/
theorem setGrantedPe_fields (order : StartOrder) (jep : OrderJob) (pe : Option String) :
    (setGrantedPe order pe jep).job = jep.job ∧ (setGrantedPe order pe jep).ar = jep.ar ∧
    (setGrantedPe order pe jep).grantedDestinIdentifierList = jep.grantedDestinIdentifierList ∧
    ∀ x, x ≠ order.jaTaskNumber →
      (setGrantedPe order pe jep).grantedPe x = jep.grantedPe x := by
  unfold setGrantedPe
  split_ifs
  · exact ⟨rfl, rfl, rfl, fun x hx => Function.update_of_ne hx ..⟩
  · exact ⟨rfl, rfl, rfl, fun _ _ => rfl⟩

theorem grantPe_fields (order : StartOrder) (jep : OrderJob) :
    (grantPe order jep).job = jep.job ∧ (grantPe order jep).ar = jep.ar ∧
    (grantPe order jep).grantedDestinIdentifierList = jep.grantedDestinIdentifierList ∧
    ∀ x, x ≠ order.jaTaskNumber → (grantPe order jep).grantedPe x = jep.grantedPe x := by
  unfold grantPe
  cases order.pe with
  | none => exact ⟨rfl, rfl, rfl, fun _ _ => rfl⟩
  | some pe => exact setGrantedPe_fields order jep (some pe)

theorem refuse_fields (σ : Sorter) (order : StartOrder) (jep : OrderJob) (enrolledTask : Bool)
    (ret : ℤ) :
    (refuse σ order enrolledTask ret jep).jataskAdd = false ∧
    (refuse σ order enrolledTask ret jep).jep.job =
      (if enrolledTask then jobUnenroll σ jep.job order.jaTaskNumber else jep.job) ∧
    (refuse σ order enrolledTask ret jep).jep.grantedDestinIdentifierList =
      jep.grantedDestinIdentifierList ∧
    ∀ x, x ≠ order.jaTaskNumber →
      (refuse σ order enrolledTask ret jep).jep.grantedPe x = jep.grantedPe x := by
  obtain ⟨hjob, -, hgdil, hpe⟩ := setGrantedPe_fields order
    (undoEnroll σ order enrolledTask jep) none
  unfold refuse
  refine ⟨rfl, hjob.trans ?_, hgdil.trans ?_, fun x hx => (hpe x hx).trans ?_⟩
  · cases enrolledTask <;> rfl
  · cases enrolledTask <;> rfl
  · cases enrolledTask <;> rfl

/-- The ways through the checks of the task and of the parallel environment. -/
theorem followTask_cases (env : OrderEnv) (order : StartOrder) (enrolledTask : Bool)
    (jaTask : JaTask) (jep : OrderJob) :
    (jaTask.status = jidle ∧ peFound env order = true ∧
      followTask σ env order enrolledTask jaTask jep =
        followGranted σ env order enrolledTask (grantPe order jep)) ∨
    (¬(jaTask.status = jidle ∧ peFound env order = true) ∧
      ∃ ret, followTask σ env order enrolledTask jaTask jep =
        ⟨undoEnroll σ order enrolledTask jep, some ret, false⟩) := by
  unfold followTask
  by_cases hidle : jaTask.status = jidle
  · rw [if_neg (not_not.mpr hidle)]
    cases hpe : peFound env order with
    | false => exact Or.inr ⟨(fun h => nomatch h.2), -2, rfl⟩
    | true => exact Or.inl ⟨hidle, rfl, rfl⟩
  · rw [if_pos hidle]
    exact Or.inr ⟨fun h => hidle h.1, -1, rfl⟩

/-- **A refused order for a task that was enrolled before** changes its parallel
environment at most. -/
theorem followTask_enrolled (hsearch : jobSearchTask jep.job order.jaTaskNumber = some jaTask)
    (hrefused : (followTask σ env order false jaTask jep).ret ≠ none) :
    (followTask σ env order false jaTask jep).jataskAdd = false ∧
    (followTask σ env order false jaTask jep).jep.job = jep.job ∧
    (followTask σ env order false jaTask jep).jep.grantedDestinIdentifierList =
      jep.grantedDestinIdentifierList ∧
    (∀ x, x ≠ order.jaTaskNumber →
      (followTask σ env order false jaTask jep).jep.grantedPe x = jep.grantedPe x) ∧
    (followTask σ env order false jaTask jep).jep.grantedPe order.jaTaskNumber =
      if jaTask.status = jidle ∧ peFound env order = true then none
      else jep.grantedPe order.jaTaskNumber := by
  rcases followTask_cases (σ := σ) env order false jaTask jep with
    ⟨hidle, hpe, heq⟩ | ⟨hearly, ret, heq⟩
  · rw [heq] at hrefused
    have hexit : ∃ ret, followGranted σ env order false (grantPe order jep) =
        refuse σ order false ret (grantPe order jep) := by
      rcases followGranted_cases hrefused with ⟨ret, h, -⟩ | ⟨ret, h, -⟩
      · exact ⟨ret, h⟩
      · exact ⟨ret, h⟩
    obtain ⟨ret, hexit⟩ := hexit
    obtain ⟨hjob, -, hgdil, hother⟩ := grantPe_fields order jep
    obtain ⟨hadd, hjob', hgdil', hother'⟩ := refuse_fields σ order (grantPe order jep) false ret
    rw [heq, hexit, if_pos ⟨hidle, hpe⟩]
    refine ⟨hadd, hjob'.trans hjob, hgdil'.trans hgdil,
      fun x hx => (hother' x hx).trans (hother x hx), ?_⟩
    rw [refuse, undoEnroll, setGrantedPe]
    simp only [Bool.false_eq_true, if_false, hjob, hsearch, Option.isSome_some, if_true]
    exact Function.update_self ..
  · rw [heq, if_neg hearly]
    exact ⟨rfl, rfl, rfl, fun _ _ => rfl, rfl⟩

/-- **A refused order for a task that was enrolled for it** undoes the enrolment, but for
one exit. -/
theorem followTask_fresh (hrefused : (followTask σ env order true jaTask jep).ret ≠ none) :
    (followTask σ env order true jaTask jep).jataskAdd = false ∧
    ((jaTask.status = jidle ∧ peFound env order = true ∧ arFound env jep = true ∧
        FirstRefused env order .calDisabled order.queueList ∧
        (followTask σ env order true jaTask jep).jep.job = jep.job) ∨
      ¬(jaTask.status = jidle ∧ peFound env order = true ∧ arFound env jep = true ∧
        FirstRefused env order .calDisabled order.queueList) ∧
        (followTask σ env order true jaTask jep).jep.job =
          jobUnenroll σ jep.job order.jaTaskNumber) ∧
    (followTask σ env order true jaTask jep).jep.grantedDestinIdentifierList =
      jep.grantedDestinIdentifierList ∧
    ∀ x, x ≠ order.jaTaskNumber →
      (followTask σ env order true jaTask jep).jep.grantedPe x = jep.grantedPe x := by
  rcases followTask_cases (σ := σ) env order true jaTask jep with
    ⟨hidle, hpe, heq⟩ | ⟨hearly, ret, heq⟩
  · rw [heq] at hrefused
    obtain ⟨hjob, har, hgdil, hother⟩ := grantPe_fields order jep
    have harFound : arFound env (grantPe order jep) = arFound env jep := by
      rw [arFound, har]
      rfl
    rw [heq]
    rcases followGranted_cases hrefused with ⟨ret, hexit, hfound, hfirst⟩ | ⟨ret, hexit, hnot⟩
    · obtain ⟨hadd, hjob', hgdil', hother'⟩ := refuse_fields σ order (grantPe order jep) false ret
      rw [hexit]
      refine ⟨hadd, Or.inl ⟨hidle, hpe, harFound ▸ hfound, hfirst, hjob'.trans hjob⟩,
        hgdil'.trans hgdil, fun x hx => (hother' x hx).trans (hother x hx)⟩
    · obtain ⟨hadd, hjob', hgdil', hother'⟩ := refuse_fields σ order (grantPe order jep) true ret
      rw [hexit]
      refine ⟨hadd, Or.inr ⟨fun h => hnot ⟨harFound ▸ h.2.2.1, h.2.2.2⟩, ?_⟩,
        hgdil'.trans hgdil, fun x hx => (hother' x hx).trans (hother x hx)⟩
      rw [hjob', if_pos rfl, hjob]
  · rw [heq]
    exact ⟨rfl, Or.inr ⟨fun h => hearly ⟨h.1, h.2.1⟩, rfl⟩, rfl, fun _ _ => rfl⟩

end Exits

/-! ## Refused orders -/

section Refused

variable {σ : Sorter} {env : OrderEnv} {order : StartOrder} {jep jep' : OrderJob} {jaTask : JaTask}

/-- An enrolment that is undone: the ids and the enrolled tasks are those from before. -/
theorem unenroll_create {job : Job} (template : JaTask) {t : ℕ} (h : JobOk job)
    (hsearch : jobSearchTask job t = none) (hid : Has (job.idList .nHIds) t)
    (hdefined : jobIsJaTaskDefined job t = true) :
    (∀ attr x, Has ((jobUnenroll σ (jobCreateTask template job t) t).idList attr) x ↔
      Has (job.idList attr) x) ∧
    (jobUnenroll σ (jobCreateTask template job t) t).jaTasks = job.jaTasks := by
  rw [jobCreateTask, if_pos hdefined]
  constructor
  · intro attr x
    rw [has_unenroll (h.enroll template hid) (h.unenrolled_isTaskId ⟨_, hid⟩),
      has_enroll template h attr x hid]
    constructor
    · rintro (⟨hx, -⟩ | ⟨rfl, rfl⟩)
      · exact hx
      · exact hid
    · intro hx
      by_cases hxt : x = t
      · subst hxt
        refine Or.inr ⟨not_not.mp fun hne => ?_, rfl⟩
        exact h.not_held hid hne hx
      · exact Or.inl ⟨hx, hxt⟩
  · have hnone : ∀ task ∈ job.jaTasks, ¬ (decide (task.number = t)) = true := by
      simpa [jobSearchTask] using hsearch
    show List.eraseP (fun task => decide (task.number = t)) (jobEnroll template job t).jaTasks = _
    rw [jaTasks_enroll template h hid, List.eraseP_append_right _ hnone]
    have hnew : List.eraseP (fun task => decide (task.number = t))
        [jobGetJaTaskTemplatePending template t] = [] :=
      List.eraseP_cons_of_pos (decide_eq_true rfl)
    rw [hnew, List.append_nil]

/-- What is set for the task of the order alone is seen in no other one. -/
theorem granted_of_ne (hsearch : jobSearchTask jep.job order.jaTaskNumber = none)
    (hpe : ∀ x, x ≠ order.jaTaskNumber → jep'.grantedPe x = jep.grantedPe x)
    (hgdil : ∀ x, x ≠ order.jaTaskNumber →
      jep'.grantedDestinIdentifierList x = jep.grantedDestinIdentifierList x) :
    ∀ task ∈ jep.job.jaTasks, jep'.grantedPe task.number = jep.grantedPe task.number ∧
      jep'.grantedDestinIdentifierList task.number =
        jep.grantedDestinIdentifierList task.number := by
  intro task hm
  have hne : task.number ≠ order.jaTaskNumber := by
    rw [jobSearchTask, List.find?_eq_none] at hsearch
    simpa using hsearch task hm
  exact ⟨hpe _ hne, hgdil _ hne⟩

theorem noTrace_enrolled (haddressed : Addressed order jep)
    (hsearch : jobSearchTask jep.job order.jaTaskNumber = some jaTask)
    (hrefused : (followTask σ env order false jaTask jep).ret ≠ none) :
    (NoTrace jep (followTask σ env order false jaTask jep).jep ∧
      (followTask σ env order false jaTask jep).jataskAdd = false) ↔
    ¬LeavesTask env order jep ∧ ¬ForgetsPe env order jep := by
  obtain ⟨hadd, hjob, hgdil, hother, hself⟩ := followTask_enrolled hsearch hrefused
  have hnumber : jaTask.number = order.jaTaskNumber := by
    simpa using List.find?_some hsearch
  have hmem : jaTask ∈ jep.job.jaTasks := List.mem_of_find?_eq_some hsearch
  constructor
  · rintro ⟨htrace, -⟩
    refine ⟨fun hleaves => ?_, fun hforgets => ?_⟩
    · exact absurd (hleaves.2.1.symm.trans hsearch) nofun
    · obtain ⟨-, ⟨task, htask, hidle⟩, hpe, hne⟩ := hforgets
      obtain rfl := Option.some.inj (hsearch.symm.trans htask)
      have hkept := (htrace.granted jaTask hmem).1
      rw [hnumber, hself, if_pos ⟨hidle, hpe⟩] at hkept
      exact hne hkept.symm
  · rintro ⟨-, hforgets⟩
    refine ⟨?_, hadd⟩
    constructor
    · intro attr x
      rw [hjob]
    · rw [hjob]
    · intro task hm
      refine ⟨?_, congrFun hgdil _⟩
      by_cases hx : task.number = order.jaTaskNumber
      · rw [hx, hself]
        split_ifs with hset
        · by_contra hne
          exact hforgets ⟨haddressed, ⟨jaTask, hsearch, hset.1⟩, hset.2, Ne.symm hne⟩
        · rfl
      · exact hother _ hx

theorem noTrace_fresh (h : JobOk jep.job) (haddressed : Addressed order jep)
    (hsearch : jobSearchTask jep.job order.jaTaskNumber = none)
    (hid : rangeListIsIdWithin (jep.job.idList .nHIds) order.jaTaskNumber = true)
    (hdefined : jobIsJaTaskDefined jep.job order.jaTaskNumber = true)
    (hrefused : (followTask σ env order true
      (jobGetJaTaskTemplatePending jep.template order.jaTaskNumber)
      (jep.create order.jaTaskNumber)).ret ≠ none) :
    (NoTrace jep (followTask σ env order true
        (jobGetJaTaskTemplatePending jep.template order.jaTaskNumber)
        (jep.create order.jaTaskNumber)).jep ∧ (followTask σ env order true
        (jobGetJaTaskTemplatePending jep.template order.jaTaskNumber)
        (jep.create order.jaTaskNumber)).jataskAdd = false) ↔
    ¬LeavesTask env order jep ∧ ¬ForgetsPe env order jep := by
  obtain ⟨hadd, hjob, hgdil, hother⟩ := followTask_fresh hrefused
  have hnotForgets : ¬ForgetsPe env order jep := by
    rintro ⟨-, ⟨task, htask, -⟩, -⟩
    exact absurd (hsearch.symm.trans htask) nofun
  have hleaves : LeavesTask env order jep ↔
      (jobGetJaTaskTemplatePending jep.template order.jaTaskNumber).status = jidle ∧
        peFound env order = true ∧ arFound env (jep.create order.jaTaskNumber) = true ∧
        FirstRefused env order .calDisabled order.queueList := by
    constructor
    · rintro ⟨-, -, -, -, hrest⟩
      exact hrest
    · exact fun hrest => ⟨haddressed, hsearch, hid, hdefined, hrest⟩
  rw [and_iff_left hnotForgets, and_iff_left hadd, hleaves]
  rcases hjob with ⟨hidle, hpe, har, hfirst, hjob⟩ | ⟨hnot, hjob⟩
  · -- the task is still enrolled: there is one more than before
    refine iff_of_false (fun htrace => ?_) (not_not.mpr ⟨hidle, hpe, har, hfirst⟩)
    have htasks := htrace.tasks
    rw [hjob, OrderJob.create, jobCreateTask, if_pos hdefined,
      jaTasks_enroll jep.template h (has_iff.mpr hid)] at htasks
    exact absurd (congrArg List.length htasks) (by simp)
  · refine iff_of_true ?_ hnot
    obtain ⟨hids, htasks⟩ := unenroll_create (σ := σ) jep.template h hsearch
      (has_iff.mpr hid) hdefined
    constructor
    · intro attr x
      rw [hjob]
      exact hids attr x
    · rw [hjob]
      exact htasks
    · apply granted_of_ne hsearch
      · intro x hx
        exact (hother x hx).trans (Function.update_of_ne hx ..)
      · intro x hx
        exact (congrFun hgdil x).trans (Function.update_of_ne hx ..)

theorem NoTrace.refl (jep : OrderJob) : NoTrace jep jep where
  ids := fun _ _ => Iff.rfl
  tasks := rfl
  granted := fun _ _ => ⟨rfl, rfl⟩

end Refused

/-- **A refused start order leaves no trace** exactly when no task that was enrolled for it
meets a queue instance that its calendar disables, and no waiting task has a parallel
environment from before. -/
theorem start_refused_iff (σ : Sorter) (env : OrderEnv) (order : StartOrder) (jep : OrderJob)
    (h : JobOk jep.job) (hrefused : (sgeFollowOrder σ env order jep).ret ≠ none) :
    (NoTrace jep (sgeFollowOrder σ env order jep).jep ∧
      (sgeFollowOrder σ env order jep).jataskAdd = false) ↔
    ¬LeavesTask env order jep ∧ ¬ForgetsPe env order jep := by
  -- an exit before the task is looked for or enrolled
  have hearly : ¬LeavesTask env order jep → ¬ForgetsPe env order jep →
      ((NoTrace jep jep ∧ false = false) ↔ ¬LeavesTask env order jep ∧ ¬ForgetsPe env order jep) :=
    fun hleaves hforgets => iff_of_true ⟨NoTrace.refl jep, rfl⟩ ⟨hleaves, hforgets⟩
  by_cases haddressed : Addressed order jep
  · have heq : sgeFollowOrder σ env order jep = followJob σ env order jep := by
      unfold sgeFollowOrder
      rw [if_neg haddressed.1, if_neg haddressed.2.1, if_neg (not_not.mpr haddressed.2.2)]
    rw [heq] at hrefused ⊢
    unfold followJob at hrefused ⊢
    cases hsearch : jobSearchTask jep.job order.jaTaskNumber with
    | some jaTask =>
      rw [hsearch] at hrefused
      exact noTrace_enrolled haddressed hsearch hrefused
    | none =>
      have hforgets : ¬ForgetsPe env order jep := by
        rintro ⟨-, ⟨task, htask, -⟩, -⟩
        exact absurd (hsearch.symm.trans htask) nofun
      rw [hsearch] at hrefused
      cases hid : rangeListIsIdWithin (jep.job.idList .nHIds) order.jaTaskNumber with
      | false => exact hearly (fun hl => absurd (hid.symm.trans hl.2.2.1) nofun) hforgets
      | true =>
        cases hdefined : jobIsJaTaskDefined jep.job order.jaTaskNumber with
        | false =>
          exact hearly (fun hl => absurd (hdefined.symm.trans hl.2.2.2.1) nofun) hforgets
        | true =>
          simp only [hid, hdefined, if_true] at hrefused
          exact noTrace_fresh h haddressed hsearch hid hdefined hrefused
  · have hexit : ∃ ret, sgeFollowOrder σ env order jep = ⟨jep, some ret, false⟩ := by
      unfold sgeFollowOrder
      by_cases hjob : order.jobNumber = 0
      · exact ⟨-2, if_pos hjob⟩
      · by_cases htask : order.jaTaskNumber = 0
        · exact ⟨-2, by rw [if_neg hjob, if_pos htask]⟩
        · have hversion : jep.version ≠ order.jobVersion :=
            fun hversion => haddressed ⟨hjob, htask, hversion⟩
          exact ⟨-1, by rw [if_neg hjob, if_neg htask, if_pos hversion]⟩
    obtain ⟨ret, hexit⟩ := hexit
    rw [hexit]
    exact hearly (fun hl => haddressed hl.1) fun hf => haddressed hf.1

/-! ## A queue instance that is not ready -/

/-- A job of three tasks, none of them enrolled. -/
def waitingJob : OrderJob where
  job := jobInitializeIdLists threeTasks
  template := templateTask
  version := 1
  ar := 0
  grantedPe := fun _ => none
  grantedDestinIdentifierList := fun _ => []

def secondTask : StartOrder where
  jobNumber := 1
  jobVersion := 1
  jaTaskNumber := 2
  pe := none
  queueList := [⟨some "all.q@node", 1, 1⟩]

/-- A queue instance in error state, or one that its calendar disables. -/
def oneQueueEnv (isError isCalDisabled : Bool) : OrderEnv where
  peListLocate := fun _ => false
  arListLocate := fun _ => false
  cqueueListLocateQinstance := fun qName =>
    if qName = "all.q@node" then some ⟨"node", 1, 4, 0, isError, false, isCalDisabled⟩ else none
  rescheduleUnknownList := fun host => if host = "node" then some [] else none
  sgeHasAccess := fun _ => true
  consumablesOk := fun _ => true

/-- In error state. -/
theorem start_refused_error :
    NoTrace waitingJob (sgeFollowOrder sortByMin (oneQueueEnv true false) secondTask
        waitingJob).jep ∧
      (sgeFollowOrder sortByMin (oneQueueEnv true false) secondTask waitingJob).jataskAdd =
        false := by
  refine (start_refused_iff sortByMin (oneQueueEnv true false) secondTask waitingJob
    threeTasks_submitted.start (by decide +kernel)).mpr ⟨fun hleaves => ?_, fun hforgets => ?_⟩
  · have hqueues := (checkQueues_error secondTask.queueList).mpr hleaves.2.2.2.2.2.2.2
    revert hqueues
    decide +kernel
  · exact hforgets.2.2.2 rfl

/-- **A task stays enrolled** when its order is refused for a queue instance that its
calendar disables. -/
theorem start_refused_enrolled :
    (sgeFollowOrder sortByMin (oneQueueEnv false true) secondTask waitingJob).ret = some (-1) ∧
    ¬NoTrace waitingJob (sgeFollowOrder sortByMin (oneQueueEnv false true) secondTask
      waitingJob).jep := by
  constructor
  · decide +kernel
  · intro htrace
    have htasks := htrace.tasks
    revert htasks
    decide +kernel

end ClusterScheduler.Qmaster
