import ClusterScheduler.Consumables.Tasks
import ClusterScheduler.Foundation.PartialFold

/-!
# Changing the requests of a running job

With `qalter -when now` a running job can give back a part of what it requested. Its tasks are
undebited with the old requests and debited with the new ones.

* `hasInvalidConsumableChanges` — which changes of hard requests are refused.
* `modHardResourceLists` — the requests of all scopes, and whether the job must be re-debited.
* `jobRedebit` — undebit the running tasks and debit them again.
* `RedebitRun` — changes of the requests, and ends of single tasks.
* `redebit_run` — what is booked is what booking the running tasks with the current requests
  would give.
-/

namespace ClusterScheduler.Consumables

open Foundation Sched

/-! ## Functions of the source -/

/-- What booking reads of a task of the job. -/
structure BookedTask where
  status : BitVec 32
  grantedPe : Option String
  peObject : Option Pe
  gdil : List Granted
  grants : List GrantedResource

/-- `JTRANSFERING` or `JRUNNING` -/
def jaTaskIsRunning (jaTask : BookedTask) : Bool :=
  jaTask.status &&& 0x200 ≠ 0 || jaTask.status &&& 0x80 ≠ 0

def BookedTask.ofJob (jaTask : BookedTask) (job : Job) : Task where
  job := job
  isEnrolled := true
  grantedPe := jaTask.grantedPe
  peObject := jaTask.peObject
  gdil := jaTask.gdil
  grants := jaTask.grants

section Requests

variable (centries : List CEntry)

/-- `CE_consumable` of a request is that of its complex entry. -/
def Request.isConsumable (request : Request) : Bool :=
  match centryListLocate centries request.name with
  | some dcep => dcep.consumable ≠ .no
  | none => false

/-- A request that is in both lists or in the new one only. The result says whether an amount was
decreased so far, and there is none for a change that is refused. -/
def checkNewRequest (oldLp : List Request) (whenNow decreased : Bool) (newEntry : Request) :
    Option Bool :=
  if !newEntry.isConsumable centries then some decreased
  else
    match lookup Request.name newEntry.name oldLp with
    | none => none
    | some oldEntry =>
      if whenNow then
        if oldEntry.doubleval < newEntry.doubleval then none
        else if newEntry.doubleval < oldEntry.doubleval then some true
        else some decreased
      else if oldEntry.doubleval ≠ newEntry.doubleval then none
      else some decreased

/-- There is no result for invalid changes, else it says whether resources are decreased. -/
def hasInvalidConsumableChanges (newLp oldLp : List Request) (whenNow : Bool) : Option Bool :=
  let missing := oldLp.any fun oldEntry =>
    oldEntry.isConsumable centries && (lookup Request.name oldEntry.name newLp).isNone
  if missing && !whenNow then none
  else newLp.foldlM (checkNewRequest centries oldLp whenNow) missing

def jobSetHardResourceList (job : Job) (scope : Scope) (list : List Request) : Job :=
  { job with
    requestSetList := upsert RequestSet.scope scope ⟨scope, []⟩
      (fun jrs => { jrs with hardResourceList := list }) job.requestSetList }

/-- The request sets of the change. The result is the job with `REDEBIT_JOB`. -/
def modHardResourceLists (isRunning whenNow : Bool) (job : Job)
    (requestSetList : List RequestSet) : Option (Job × Bool) :=
  requestSetList.foldlM (fun (job, redebit) jrs =>
    let checked :=
      if isRunning then
        hasInvalidConsumableChanges centries jrs.hardResourceList
          (jobGetHardResourceList job jrs.scope) whenNow
      else some false
    checked.map fun resourcesDecreased =>
      (jobSetHardResourceList job jrs.scope jrs.hardResourceList,
        redebit || (whenNow && resourcesDecreased))) (job, false)

end Requests

section Debit

variable (conf : Conf)

def jobJaTaskDebit (job : Job) (jaTask : BookedTask) (factor : ℤ) (c : Cluster) : Cluster :=
  debitGdil conf (jaTask.ofJob job) factor true true none jaTask.gdil c

def jobJaTaskUndebit (job : Job) (jaTask : BookedTask) (c : Cluster) : Cluster :=
  jobJaTaskDebit conf job jaTask (-1) c

/-- The copy of the job has the same tasks. -/
def jobRedebit (oldJob newJob : Job) (jaTasks : List BookedTask) (c : Cluster) : Cluster :=
  let c := jaTasks.foldl (fun c jaTask =>
    if jaTaskIsRunning jaTask then jobJaTaskUndebit conf oldJob jaTask c else c) c
  jaTasks.foldl (fun c jaTask =>
    if jaTaskIsRunning jaTask then jobJaTaskDebit conf newJob jaTask 1 c else c) c

def bookRunning (job : Job) (jaTasks : List BookedTask) (c : Cluster) : Cluster :=
  jaTasks.foldl (fun c jaTask =>
    if jaTaskIsRunning jaTask then sgeCommitJobSent conf (jaTask.ofJob job) c else c) c

end Debit

/-! ## Runs -/

/-- What is booked, and the job with its tasks. -/
structure RedebitState where
  cluster : Cluster
  job : Job
  jaTasks : List BookedTask

def BookedTask.cleared (jaTask : BookedTask) (status : BitVec 32) : BookedTask :=
  { jaTask with status, grantedPe := none, peObject := none, gdil := [] }

/-- The states that changes of the requests, reports and ends of tasks lead to. In the beginning
the running tasks have been sent. -/
inductive RedebitRun (conf : Conf) (c₀ : Cluster) : RedebitState → Prop
  | start (job : Job) (jaTasks : List BookedTask)
      (har : job.ar = 0 ∨ (conf.ars job.ar).isSome)
      (hslots : ∀ jaTask ∈ jaTasks, ∀ g ∈ jaTask.gdil, g.slots ≠ 0) :
      RedebitRun conf c₀ ⟨bookRunning conf job jaTasks c₀, job, jaTasks⟩
  | qalter (s : RedebitState) (requestSetList : List RequestSet) (newJob : Job)
      (hrun : RedebitRun conf c₀ s)
      (hmod : modHardResourceLists conf.centries (s.jaTasks.any jaTaskIsRunning) true s.job
        requestSetList = some (newJob, true)) :
      RedebitRun conf c₀ ⟨jobRedebit conf s.job newJob s.jaTasks s.cluster, newJob, s.jaTasks⟩
  | reported (s : RedebitState) (before after : List BookedTask) (jaTask : BookedTask)
      (status : BitVec 32) (hrun : RedebitRun conf c₀ s)
      (htasks : s.jaTasks = before ++ jaTask :: after)
      (hsame : jaTaskIsRunning { jaTask with status } = jaTaskIsRunning jaTask) :
      RedebitRun conf c₀ { s with jaTasks := before ++ { jaTask with status } :: after }
  | ended (s : RedebitState) (before after : List BookedTask) (jaTask : BookedTask)
      (status : BitVec 32) (hrun : RedebitRun conf c₀ s)
      (htasks : s.jaTasks = before ++ jaTask :: after) (hrunning : jaTaskIsRunning jaTask = true)
      (hends : jaTaskIsRunning (jaTask.cleared status) = false) :
      RedebitRun conf c₀ ⟨sgeClearGrantedResources conf (jaTask.ofJob s.job) s.cluster, s.job,
        before ++ jaTask.cleared status :: after⟩

/-! ## What the operations post -/

section Postings

variable {M : Type*} [AddCommGroup M] {conf : Conf} {ok : Cluster → Prop} {read : Cluster → M}
  {job newJob : Job} {jaTask : BookedTask} {jaTasks : List BookedTask}

theorem modHardResourceLists_rest {centries : List CEntry} {isRunning whenNow redebit : Bool}
    {sets : List RequestSet}
    (h : modHardResourceLists centries isRunning whenNow job sets = some (newJob, redebit)) :
    newJob = { job with requestSetList := newJob.requestSetList } := by
  refine foldlM_preserves (P := fun acc : Job × Bool =>
    acc.1 = { job with requestSetList := acc.1.requestSetList }) ?_ rfl h
  rintro acc jrs - acc' hstep hacc
  obtain ⟨decreased, -, rfl⟩ := Option.map_eq_some_iff.mp hstep
  rw [hacc]
  rfl

def takes (R : ∀ task, GrantReading conf task ok read) (job : Job) (jaTask : BookedTask) : M :=
  if jaTaskIsRunning jaTask then (R (jaTask.ofJob job)).sent 1 else 0

variable (R : ∀ task, GrantReading conf task ok read)

theorem posts_bookRunning (job : Job) (jaTasks : List BookedTask) :
    Posts ok read (bookRunning conf job jaTasks) (jaTasks.map (takes R job)).sum := by
  apply Posts.foldl
  intro jaTask _
  unfold takes
  cases jaTaskIsRunning jaTask with
  | false => exact Posts.id
  | true => exact (R (jaTask.ofJob job)).posts_sent

theorem gdil_eq_sent (har : job.ar = 0 ∨ (conf.ars job.ar).isSome) :
    (R (jaTask.ofJob job)).gdil 1 true true none jaTask.gdil = (R (jaTask.ofJob job)).sent 1 := by
  have hfound : arFound conf (jaTask.ofJob job) = true := by
    rw [arFound, Bool.or_eq_true, decide_eq_true_eq]
    exact har
  rw [GrantReading.sent, if_pos hfound]
  rfl

theorem gdil_neg_eq_sent (har : job.ar = 0 ∨ (conf.ars job.ar).isSome)
    (hslots : ∀ g ∈ jaTask.gdil, g.slots ≠ 0) :
    (R (jaTask.ofJob job)).gdil (-1) true true none jaTask.gdil =
      -(R (jaTask.ofJob job)).sent 1 := by
  rw [← gdil_eq_sent R har]
  exact (R (jaTask.ofJob job)).gdil_neg jaTask.gdil hslots true true none

/-- What the running tasks give back with the old requests and take with the new ones. -/
def redebitAmount (job newJob : Job) (jaTasks : List BookedTask) : M :=
  (jaTasks.map fun jaTask =>
    if jaTaskIsRunning jaTask then
      (R (jaTask.ofJob job)).gdil (-1) true true none jaTask.gdil
    else 0).sum +
  (jaTasks.map fun jaTask =>
    if jaTaskIsRunning jaTask then
      (R (jaTask.ofJob newJob)).gdil 1 true true none jaTask.gdil
    else 0).sum

/-- **Re-debiting** books both. -/
theorem posts_jobRedebit (job newJob : Job) (jaTasks : List BookedTask) :
    Posts ok read (jobRedebit conf job newJob jaTasks) (redebitAmount R job newJob jaTasks) := by
  have hundebit : Posts ok read
      (fun c => jaTasks.foldl (fun c jaTask =>
        if jaTaskIsRunning jaTask then jobJaTaskUndebit conf job jaTask c else c) c)
      (jaTasks.map fun jaTask =>
        if jaTaskIsRunning jaTask then
          (R (jaTask.ofJob job)).gdil (-1) true true none jaTask.gdil
        else 0).sum := by
    apply Posts.foldl
    intro jaTask _
    cases jaTaskIsRunning jaTask with
    | false => exact Posts.id
    | true => exact (R (jaTask.ofJob job)).posts_gdil (-1) jaTask.gdil true true none
  have hdebit : Posts ok read
      (fun c => jaTasks.foldl (fun c jaTask =>
        if jaTaskIsRunning jaTask then jobJaTaskDebit conf newJob jaTask 1 c else c) c)
      (jaTasks.map fun jaTask =>
        if jaTaskIsRunning jaTask then
          (R (jaTask.ofJob newJob)).gdil 1 true true none jaTask.gdil
        else 0).sum := by
    apply Posts.foldl
    intro jaTask _
    cases jaTaskIsRunning jaTask with
    | false => exact Posts.id
    | true => exact (R (jaTask.ofJob newJob)).posts_gdil 1 jaTask.gdil true true none
  exact hdebit.comp hundebit

theorem redebitAmount_eq (har : job.ar = 0 ∨ (conf.ars job.ar).isSome)
    (har' : newJob.ar = 0 ∨ (conf.ars newJob.ar).isSome)
    (hslots : ∀ jaTask ∈ jaTasks, ∀ g ∈ jaTask.gdil, g.slots ≠ 0) :
    redebitAmount R job newJob jaTasks =
      -(jaTasks.map (takes R job)).sum + (jaTasks.map (takes R newJob)).sum := by
  rw [← sum_map_neg, redebitAmount]
  congr 2
  · apply List.map_congr_left
    intro jaTask hmem
    rw [takes, gdil_neg_eq_sent R har (hslots jaTask hmem)]
    split_ifs
    · rfl
    · exact neg_zero.symm
  · apply List.map_congr_left
    intro jaTask _
    rw [takes, gdil_eq_sent R har']

theorem posts_clear_running (h : IgnoresSlots ok read) (har : job.ar = 0 ∨ (conf.ars job.ar).isSome)
    (hslots : ∀ g ∈ jaTask.gdil, g.slots ≠ 0) (hrunning : jaTaskIsRunning jaTask = true) :
    Posts ok read (sgeClearGrantedResources conf (jaTask.ofJob job)) (-takes R job jaTask) := by
  have hfound : arFound conf (jaTask.ofJob job) = true := by
    rw [arFound, Bool.or_eq_true, decide_eq_true_eq]
    exact har
  have henrolled : (jaTask.ofJob job).isEnrolled = true := rfl
  refine ((R (jaTask.ofJob job)).posts_clear h).congr ?_
  rw [if_pos henrolled, takes, if_pos hrunning, ← gdil_neg_eq_sent R har hslots,
    GrantReading.sent, if_pos hfound]
  rfl

end Postings

/-! ## What is booked in a run -/

section Run

variable {M : Type*} [AddCommGroup M] {conf : Conf} {ok : Cluster → Prop} {read : Cluster → M}
  {c₀ : Cluster} {s : RedebitState}

/-- What holds between the steps. -/
structure RedebitInv (R : ∀ task, GrantReading conf task ok read) (c₀ : Cluster)
    (s : RedebitState) : Prop where
  ok : ok s.cluster
  read : read s.cluster = read c₀ + (s.jaTasks.map (takes R s.job)).sum
  ar : s.job.ar = 0 ∨ (conf.ars s.job.ar).isSome
  slots : ∀ jaTask ∈ s.jaTasks, ∀ g ∈ jaTask.gdil, g.slots ≠ 0

theorem RedebitRun.inv (hrun : RedebitRun conf c₀ s) (R : ∀ task, GrantReading conf task ok read)
    (h : IgnoresSlots ok read) (hok : ok c₀) : RedebitInv R c₀ s := by
  induction hrun with
  | start job jaTasks har hslots =>
    have hposts := posts_bookRunning R job jaTasks
    exact ⟨hposts.keeps c₀ hok, hposts.adds c₀ hok, har, hslots⟩
  | qalter s sets newJob _ hmod ih =>
    have har : newJob.ar = 0 ∨ (conf.ars newJob.ar).isSome := by
      rw [modHardResourceLists_rest hmod]
      exact ih.ar
    have hposts := posts_jobRedebit R s.job newJob s.jaTasks
    refine ⟨hposts.keeps _ ih.ok, ?_, har, ih.slots⟩
    rw [hposts.adds _ ih.ok, ih.read, redebitAmount_eq R ih.ar har ih.slots]
    abel
  | reported s before after jaTask status _ htasks hsame ih =>
    have htakes : takes R s.job { jaTask with status } = takes R s.job jaTask := by
      rw [takes, takes, hsame]
      rfl
    refine ⟨ih.ok, ?_, ih.ar, ?_⟩
    · rw [ih.read, htasks]
      simp only [List.map_append, List.map_cons, htakes]
    · intro t ht
      apply List.forall_mem_append.mpr _ t ht
      have hold := htasks ▸ ih.slots
      rw [List.forall_mem_append, List.forall_mem_cons] at hold
      exact ⟨hold.1, List.forall_mem_cons.mpr hold.2⟩
  | ended s before after jaTask status _ htasks hrunning hends ih =>
    have hold := htasks ▸ ih.slots
    rw [List.forall_mem_append, List.forall_mem_cons] at hold
    have hposts := posts_clear_running R h ih.ar hold.2.1 hrunning
    have htakes : takes R s.job (jaTask.cleared status) = 0 := by
      rw [takes, hends]
      rfl
    refine ⟨hposts.keeps _ ih.ok, ?_, ih.ar, ?_⟩
    · rw [hposts.adds _ ih.ok, ih.read, htasks]
      simp only [List.map_append, List.map_cons, List.sum_append, List.sum_cons, htakes]
      abel
    · rw [List.forall_mem_append, List.forall_mem_cons]
      exact ⟨hold.1, List.forall_mem_nil _, hold.2.2⟩

theorem RedebitRun.reading (hrun : RedebitRun conf c₀ s)
    (R : ∀ task, GrantReading conf task ok read) (h : IgnoresSlots ok read) (hok : ok c₀) :
    read s.cluster = read (bookRunning conf s.job s.jaTasks c₀) := by
  rw [(hrun.inv R h hok).read, (posts_bookRunning R s.job s.jaTasks).adds c₀ hok]

theorem bookRunning_idle {job : Job} {jaTasks : List BookedTask}
    (hidle : ∀ jaTask ∈ jaTasks, jaTaskIsRunning jaTask = false) (c : Cluster) :
    bookRunning conf job jaTasks c = c := by
  induction jaTasks with
  | nil => rfl
  | cons jaTask jaTasks ih =>
    rw [bookRunning, List.foldl_cons, hidle jaTask List.mem_cons_self, if_neg Bool.false_ne_true]
    exact ih fun t ht => hidle t (List.mem_cons_of_mem jaTask ht)

/-- **Re-booking a running job conserves resources.** -/
theorem redebit_run (hrun : RedebitRun conf c₀ s)
    (hdistinct : ∀ i j k limit, limitAt i j k c₀.rqs = some limit → DistinctNames limit.usage) :
    let booked := bookRunning conf s.job s.jaTasks c₀
    (∀ p b name, nowAt b name (s.cluster.books p) = nowAt b name (booked.books p)) ∧
    (∀ i j k limit, limitAt i j k c₀.rqs = some limit → ∀ b rueName,
      limitNow i j k b rueName s.cluster.rqs = limitNow i j k b rueName booked.rqs) ∧
    ((∀ jaTask ∈ s.jaTasks, jaTaskIsRunning jaTask = false) → booked = c₀) := by
  refine ⟨fun p b name => ?_, fun i j k limit hlimit b rueName => ?_, fun hidle => ?_⟩
  · exact hrun.reading (fun task => (nowReading conf task p b name).grant)
      (fun _ _ => ⟨id, rfl⟩) trivial
  · obtain ⟨form, hform⟩ := exists_form hlimit (hdistinct i j k limit hlimit)
    exact hrun.reading (fun task => quotaReading conf task b form i j k rueName)
      (fun _ _ => ⟨id, rfl⟩) hform
  · exact bookRunning_idle hidle c₀

end Run

/-! ## A job that gives back its licence -/

/-- Licences are counted on the global host. -/
def licenceConf : Conf :=
  { smallConf with
    centries := [slotsCEntry "1", ⟨"licence", "lic", .int, .le, .yes, "0"⟩]
    hosts := fun name => if name = sgeGlobalName then some ["licence"] else none }

def licenceJob : Job :=
  { plainJob with requestSetList := [⟨.global, [⟨"licence", 1⟩]⟩] }

def licenceTask : BookedTask := ⟨0x200, none, none, [⟨"all.q@node", "node", 2⟩], []⟩

/-- The two licences are free again, though the task still runs. -/
theorem redebit_run_licence :
    let booked := bookRunning licenceConf licenceJob [licenceTask] ⟨fun _ => [], [], fun _ => 0⟩
    let newJob := { licenceJob with requestSetList := [⟨.global, []⟩] }
    nowAt false "licence" (booked.books (.host sgeGlobalName)) = 2 ∧
      nowAt false "licence" ((jobRedebit licenceConf licenceJob newJob [licenceTask] booked).books
        (.host sgeGlobalName)) = 0 := by
  have hstart : RedebitRun licenceConf ⟨fun _ => [], [], fun _ => 0⟩
      ⟨_, licenceJob, [licenceTask]⟩ := .start licenceJob [licenceTask] (.inl rfl) (by decide)
  have hrun := hstart.qalter _ [⟨.global, []⟩] { licenceJob with requestSetList := [⟨.global, []⟩] }
    (by decide +kernel)
  refine ⟨by decide +kernel, ?_⟩
  refine ((redebit_run hrun ?_).1 (.host sgeGlobalName) false "licence").trans ?_
  · intro i j k limit hlimit
    exact absurd hlimit (by simp [limitAt])
  · decide +kernel

end ClusterScheduler.Consumables
