import ClusterScheduler.Consumables.Redebit
import ClusterScheduler.Qmaster.Categories

/-!
# Modifications of a job that fail

`qalter` changes a copy of the job, and the copy replaces the job in the end. Before that the
job is re-debited, it changes its category, and it is written.

* `sgeGdiModJob` — a modification of one job, with every step that can fail.
* `Unchanged` — the jobs with their links, the categories and the bookings.
* `FailsCleanly` — what is done before the failing step changes nothing.
* `unchanged_iff` — a modification that is refused changes nothing if and only if it fails cleanly.
-/

namespace ClusterScheduler.Qmaster

open Foundation Consumables

/-! ## Data -/

/-- `JB_jid_predecessor_list` and `JB_ja_ad_predecessor_list`, and the lists of successors. -/
inductive Dependency where
  | jid
  | arrayDependency
  deriving DecidableEq

/-- A job of the master list. What else can be modified of it is in `attributes`. -/
structure ModJob (D : Type) where
  number : ℕ
  version : ℕ
  categoryId : BitVec 32
  request : Consumables.Job
  jaTasks : List BookedTask
  predecessors : Dependency → List ℕ
  successors : Dependency → List ℕ
  attributes : D

structure ModState (D : Type) where
  jobs : List (ModJob D)
  categories : List Category
  nextId : BitVec 32
  cluster : Cluster

/-- What is left to do after the attributes have been changed. -/
structure Trigger where
  modEvent : Bool
  prioEvent : Bool
  rechain : Dependency → Bool
  verifyEvent : Bool
  redebitJob : Bool

/-- A request. `others` stands for what it asks for besides hard requests, and there is no result
when it is refused for that. -/
structure Qalter (D : Type) where
  number : ℕ
  requestSetList : List RequestSet
  whenNow : Bool
  others : ModState D → ModJob D → Option (ModJob D × Trigger)

/-- What does not change, and the results of the checks and of the spooling calls. -/
structure ModEnv (D : Type) where
  conf : Conf
  buildString : ModJob D → String
  finished : ModJob D → Bool
  permitted : ModJob D → Bool
  exited : Dependency → ModJob D → Bool
  begins : Bool
  writes : Bool

/-! ## Functions of the source -/

section Functions

variable {D : Type} (env : ModEnv D)

/-- Only the copy of the job is changed. -/
def modJobAttributes (q : Qalter D) (s : ModState D) (newJob : ModJob D) :
    Option (ModJob D × Trigger) := do
  let (request, redebit) ← modHardResourceLists env.conf.centries
    (newJob.jaTasks.any jaTaskIsRunning) q.whenNow newJob.request q.requestSetList
  let (newJob, trigger) ← q.others s { newJob with request }
  some (newJob, { trigger with
    modEvent := trigger.modEvent || !q.requestSetList.isEmpty
    redebitJob := redebit })

def changeJob (number : ℕ) (f : ModJob D → ModJob D) (jobs : List (ModJob D)) : List (ModJob D) :=
  replaceFirst (·.number == number) f jobs

/-- The job leaves the successors of its old predecessors. -/
def unlinkJob (dependency : Dependency) (job : ModJob D) (jobs : List (ModJob D)) :
    List (ModJob D) :=
  (job.predecessors dependency).foldl (fun jobs pre =>
    changeJob pre (fun parent => { parent with
      successors := Function.update parent.successors dependency
        ((parent.successors dependency).erase job.number) }) jobs) jobs

/-- `job_suc_pre_doit()`. A predecessor that has exited is forgotten. -/
def linkJob (dependency : Dependency) (job : ModJob D) (jobs : List (ModJob D)) :
    List (ModJob D) :=
  (job.predecessors dependency).foldl (fun jobs pre =>
    let forget := changeJob job.number (fun job => { job with
      predecessors := Function.update job.predecessors dependency
        ((job.predecessors dependency).erase pre) }) jobs
    match jobs.find? (·.number == pre) with
    | none => forget
    | some parent =>
      if env.exited dependency parent then forget
      else changeJob pre (fun parent => { parent with
        successors := Function.update parent.successors dependency
          (parent.successors dependency ++ [job.number]) }) jobs) jobs

/-- Links are removed with the old lists of predecessors and made with the new ones. -/
def storeJob (job newJob : ModJob D) (trigger : Trigger) (s : ModState D) : ModState D :=
  let rechained := [Dependency.jid, .arrayDependency].filter trigger.rechain
  let jobs := rechained.foldl (fun jobs dependency => unlinkJob dependency job jobs) s.jobs
  let jobs := changeJob job.number (fun _ => newJob) jobs
  { s with jobs := rechained.foldl (fun jobs dependency => linkJob env dependency newJob jobs) jobs }

def redebit (job newJob : ModJob D) (trigger : Trigger) (s : ModState D) : ModState D :=
  if trigger.redebitJob then
    { s with cluster := jobRedebit env.conf job.request newJob.request job.jaTasks s.cluster }
  else s

def bumpVersion (trigger : Trigger) (newJob : ModJob D) : ModJob D :=
  if trigger.modEvent then { newJob with version := newJob.version + 1 } else newJob

/-- The category is changed before the job is written. -/
def writeJob (job newJob : ModJob D) (trigger : Trigger) (s : ModState D) :
    Option (Bool × ModState D) :=
  let newJob := bumpVersion trigger newJob
  if !env.begins then some (false, s)
  else do
    let (categoryId, categories, nextId) ←
      modifyCategory (fun _ => env.buildString) ⟨(), [], s.categories, s.nextId⟩
        ⟨newJob.number, newJob, newJob.categoryId⟩ newJob (trigger.prioEvent || trigger.modEvent)
    let s := { s with categories, nextId }
    if !env.writes then some (false, s)
    else some (true, storeJob env job { newJob with categoryId } trigger s)

/-- A modification of one job says whether it has been accepted. A job of which all tasks are
finished is passed by, as if there were none. There is no result when an assertion about the
category of the job fails. -/
def sgeGdiModJob (q : Qalter D) (s : ModState D) : Option (Bool × ModState D) :=
  match s.jobs.find? (·.number == q.number) with
  | none => some (false, s)
  | some job =>
    if env.finished job then some (false, s)
    else if !env.permitted job then some (false, s)
    else
      match modJobAttributes env q s job with
      | none => some (false, s)
      | some (newJob, trigger) =>
        let s := redebit env job newJob trigger s
        if trigger.verifyEvent then some (true, s)
        else writeJob env job newJob trigger s

end Functions

/-! ## Failing cleanly -/

/-- The amounts in use of all consumables and of all limits. -/
def SameBookings (c c' : Cluster) : Prop :=
  (∀ p b name, nowAt b name (c'.books p) = nowAt b name (c.books p)) ∧
  ∀ i j k limit, limitAt i j k c.rqs = some limit → ∀ b rueName,
    limitNow i j k b rueName c'.rqs = limitNow i j k b rueName c.rqs

/-- The running tasks give back with the old requests what they take with the new ones. -/
def CancelsOut (conf : Conf) (job newJob : Consumables.Job) (jaTasks : List BookedTask)
    (c : Cluster) : Prop :=
  (∀ p b name, redebitAmount (fun task => (nowReading conf task p b name).grant) job newJob
    jaTasks = 0) ∧
  ∀ i j k form, HasForm form i j k c.rqs → ∀ b rueName,
    redebitAmount (fun task => quotaReading conf task b form i j k rueName) job newJob jaTasks = 0

section Failures

variable {D : Type}

/-- The jobs with all their lists, the categories with their counts, and what is booked. -/
structure Unchanged (s s' : ModState D) : Prop where
  jobs : s'.jobs = s.jobs
  categories : s'.categories = s.categories
  bookings : SameBookings s.cluster s'.cluster

/-- When the job cannot be written, re-debiting has changed no amount and the job has kept its
category string. -/
def FailsCleanly (env : ModEnv D) (q : Qalter D) (s : ModState D) : Prop :=
  ∀ job newJob trigger, s.jobs.find? (·.number == q.number) = some job →
    env.finished job = false → env.permitted job = true →
    modJobAttributes env q s job = some (newJob, trigger) → trigger.verifyEvent = false →
    (env.begins = true → env.writes = false) →
      (trigger.redebitJob = true →
        CancelsOut env.conf job.request newJob.request job.jaTasks s.cluster) ∧
      (env.begins = true → (trigger.prioEvent || trigger.modEvent) = true →
        ∀ old, s.categories.find? (·.id == newJob.categoryId) = some old →
          old.str = env.buildString (bumpVersion trigger newJob))

variable {env : ModEnv D} {q : Qalter D} {s s' : ModState D} {job newJob : ModJob D}
  {trigger : Trigger} {accepted : Bool}

theorem SameBookings.refl (c : Cluster) : SameBookings c c :=
  ⟨fun _ _ _ => rfl, fun _ _ _ _ _ _ _ => rfl⟩

theorem Unchanged.refl (s : ModState D) : Unchanged s s := ⟨rfl, rfl, SameBookings.refl _⟩

/-- **Re-debiting changes no amount** exactly when it cancels out. -/
theorem sameBookings_redebit {conf : Conf} {old new : Consumables.Job}
    {jaTasks : List BookedTask} {c : Cluster}
    (hdistinct : ∀ i j k limit, limitAt i j k c.rqs = some limit → DistinctNames limit.usage) :
    SameBookings c (jobRedebit conf old new jaTasks c) ↔ CancelsOut conf old new jaTasks c := by
  have hplaces : ∀ p b name, nowAt b name ((jobRedebit conf old new jaTasks c).books p) =
      nowAt b name (c.books p) +
        redebitAmount (fun task => (nowReading conf task p b name).grant) old new jaTasks :=
    fun p b name => (posts_jobRedebit (fun task => (nowReading conf task p b name).grant) old new
      jaTasks).adds c trivial
  have hlimits : ∀ i j k form, HasForm form i j k c.rqs → ∀ b rueName,
      limitNow i j k b rueName (jobRedebit conf old new jaTasks c).rqs =
        limitNow i j k b rueName c.rqs +
          redebitAmount (fun task => quotaReading conf task b form i j k rueName) old new jaTasks :=
    fun i j k form hform b rueName => (posts_jobRedebit
      (fun task => quotaReading conf task b form i j k rueName) old new jaTasks).adds c hform
  constructor
  · rintro ⟨hnow, hlimit⟩
    constructor
    · intro p b name
      exact add_eq_left.mp ((hplaces p b name).symm.trans (hnow p b name))
    · intro i j k form hform b rueName
      obtain ⟨limit, hat⟩ := hform.limit
      exact add_eq_left.mp ((hlimits i j k form hform b rueName).symm.trans
        (hlimit i j k limit hat b rueName))
  · rintro ⟨hnow, hlimit⟩
    constructor
    · intro p b name
      rw [hplaces, hnow, add_zero]
    · intro i j k limit hat b rueName
      obtain ⟨form, hform⟩ := exists_form hat (hdistinct i j k limit hat)
      rw [hlimits i j k form hform, hlimit i j k form hform, add_zero]

/-- What is left of the state when the job is not written. -/
theorem writeJob_refused (h : writeJob env job newJob trigger s = some (false, s')) :
    (env.begins = true → env.writes = false) ∧ s'.jobs = s.jobs ∧ s'.cluster = s.cluster ∧
      (s'.categories = s.categories ↔ (env.begins = true →
        (trigger.prioEvent || trigger.modEvent) = true →
          ∀ old, s.categories.find? (·.id == newJob.categoryId) = some old →
            old.str = env.buildString (bumpVersion trigger newJob))) := by
  unfold writeJob at h
  cases hbegins : env.begins with
  | false =>
    simp only [hbegins, Bool.not_false, if_true] at h
    obtain ⟨-, rfl⟩ := Prod.mk.inj (Option.some.inj h)
    exact ⟨nofun, rfl, rfl, iff_of_true rfl nofun⟩
  | true =>
    simp only [hbegins, Bool.not_true, Bool.false_eq_true, if_false] at h
    obtain ⟨⟨id, categories, nextId⟩, hmodify, hrest⟩ := Option.bind_eq_some_iff.mp h
    cases hwrites : env.writes with
    | true => simp [hwrites] at hrest
    | false =>
      simp only [hwrites, Bool.not_false, if_true] at hrest
      obtain ⟨-, rfl⟩ := Prod.mk.inj (Option.some.inj hrest)
      have hid : (bumpVersion trigger newJob).categoryId = newJob.categoryId := by
        unfold bumpVersion
        split_ifs <;> rfl
      have hiff := modifyCategory_eq_iff hmodify
      rw [hid] at hiff
      exact ⟨fun _ => rfl, rfl, rfl, hiff.trans ⟨fun h _ => h, fun h => h rfl⟩⟩

theorem writeJob_accepted (h : writeJob env job newJob trigger s = some (true, s')) :
    env.begins = true ∧ env.writes = true := by
  unfold writeJob at h
  cases hbegins : env.begins with
  | false => simp [hbegins] at h
  | true =>
    simp only [hbegins, Bool.not_true, Bool.false_eq_true, if_false] at h
    obtain ⟨⟨id, categories, nextId⟩, -, hrest⟩ := Option.bind_eq_some_iff.mp h
    cases hwrites : env.writes with
    | false => simp [hwrites] at hrest
    | true => exact ⟨rfl, rfl⟩

theorem redebit_rest (env : ModEnv D) (job newJob : ModJob D) (trigger : Trigger) (s : ModState D) :
    (redebit env job newJob trigger s).jobs = s.jobs ∧
      (redebit env job newJob trigger s).categories = s.categories := by
  unfold redebit
  split_ifs
  · exact ⟨rfl, rfl⟩
  · exact ⟨rfl, rfl⟩

variable (hdistinct : ∀ i j k limit, limitAt i j k s.cluster.rqs = some limit → DistinctNames limit.usage)
include hdistinct

theorem sameBookings_of_trigger :
    SameBookings s.cluster (redebit env job newJob trigger s).cluster ↔
      (trigger.redebitJob = true →
        CancelsOut env.conf job.request newJob.request job.jaTasks s.cluster) := by
  unfold redebit
  cases trigger.redebitJob with
  | false => exact iff_of_true (SameBookings.refl _) nofun
  | true => exact (sameBookings_redebit hdistinct).trans ⟨fun h _ => h, fun h => h rfl⟩

/-- A modification whose attributes are changed, and which is not only verified. -/
theorem unchanged_iff_of_write (hfind : s.jobs.find? (·.number == q.number) = some job)
    (hfinished : env.finished job = false) (hpermitted : env.permitted job = true)
    (hmod : modJobAttributes env q s job = some (newJob, trigger))
    (hverify : trigger.verifyEvent = false)
    (h : writeJob env job newJob trigger (redebit env job newJob trigger s) = some (accepted, s')) :
    (accepted = false → Unchanged s s') ↔ FailsCleanly env q s := by
  obtain ⟨hjobs, hcategories⟩ := redebit_rest env job newJob trigger s
  have honly : ∀ job' newJob' trigger', s.jobs.find? (·.number == q.number) = some job' →
      modJobAttributes env q s job' = some (newJob', trigger') →
        job' = job ∧ newJob' = newJob ∧ trigger' = trigger := by
    intro job' newJob' trigger' hjob' hmod'
    obtain rfl := Option.some.inj (hjob'.symm.trans hfind)
    exact ⟨rfl, Prod.mk.inj (Option.some.inj (hmod'.symm.trans hmod))⟩
  cases accepted with
  | true =>
    obtain ⟨hbegins, hwrites⟩ := writeJob_accepted h
    refine iff_of_true nofun ?_
    intro _ _ _ _ _ _ _ _ hfails
    rw [hwrites] at hfails
    exact absurd (hfails hbegins) nofun
  | false =>
    obtain ⟨hfails, hsame, hcluster, hcategory⟩ := writeJob_refused h
    rw [hcategories] at hcategory
    constructor
    · intro hunchanged job' newJob' trigger' hjob' _ _ hmod' _ _
      obtain ⟨rfl, rfl, rfl⟩ := honly job' newJob' trigger' hjob' hmod'
      have hunchanged := hunchanged rfl
      constructor
      · apply (sameBookings_of_trigger hdistinct).mp
        rw [← hcluster]
        exact hunchanged.bookings
      · exact hcategory.mp hunchanged.categories
    · intro hclean _
      obtain ⟨hcancels, hstring⟩ :=
        hclean job newJob trigger hfind hfinished hpermitted hmod hverify hfails
      constructor
      · exact hsame.trans hjobs
      · exact hcategory.mpr hstring
      · rw [hcluster]
        exact (sameBookings_of_trigger hdistinct).mpr hcancels

omit hdistinct

/-- **A modification that fails leaves everything as it was** if and only if it fails cleanly. -/
theorem unchanged_iff (hdistinct : ∀ i j k limit, limitAt i j k s.cluster.rqs = some limit →
      DistinctNames limit.usage) (h : sgeGdiModJob env q s = some (accepted, s')) :
    (accepted = false → Unchanged s s') ↔ FailsCleanly env q s := by
  unfold sgeGdiModJob at h
  -- in the branches before the attributes are changed nothing has been done
  have hearly : some (accepted, s') = some (false, s) → (accepted = false → Unchanged s s') := by
    intro heq haccepted
    rw [(Prod.mk.inj (Option.some.inj heq)).2]
    exact Unchanged.refl s
  cases hfind : s.jobs.find? (·.number == q.number) with
  | none =>
    rw [hfind] at h
    refine iff_of_true (hearly h.symm) ?_
    intro job newJob trigger hjob
    exact absurd (hfind.symm.trans hjob) nofun
  | some job =>
    have honly : ∀ job', s.jobs.find? (·.number == q.number) = some job' → job' = job :=
      fun job' hjob' => Option.some.inj (hjob'.symm.trans hfind)
    simp only [hfind] at h
    split_ifs at h with hfinished hpermitted
    · refine iff_of_true (hearly h.symm) ?_
      intro job' newJob trigger hjob hnot
      rw [honly job' hjob, hfinished] at hnot
      exact absurd hnot nofun
    · refine iff_of_true (hearly h.symm) ?_
      intro job' newJob trigger hjob _ hper
      rw [honly job' hjob] at hper
      simp [hper] at hpermitted
    · cases hmod : modJobAttributes env q s job with
      | none =>
        rw [hmod] at h
        refine iff_of_true (hearly h.symm) ?_
        intro job' newJob trigger hjob _ _ hmod'
        rw [honly job' hjob, hmod] at hmod'
        exact absurd hmod' nofun
      | some result =>
        obtain ⟨newJob, trigger⟩ := result
        simp only [hmod] at h
        split_ifs at h with hverify
        · obtain ⟨rfl, -⟩ := Prod.mk.inj (Option.some.inj h)
          refine iff_of_true nofun ?_
          intro job' newJob' trigger' hjob _ _ hmod' hnot
          rw [honly job' hjob, hmod] at hmod'
          obtain ⟨-, rfl⟩ := Prod.mk.inj (Option.some.inj hmod')
          exact absurd (hverify.symm.trans hnot) nofun
        · exact unchanged_iff_of_write hdistinct hfind (Bool.eq_false_of_not_eq_true hfinished)
            (by simpa using hpermitted) hmod (Bool.eq_false_of_not_eq_true hverify) h

end Failures

/-! ## A job that gives back its licence -/

/-- A cluster with licences, in which no spooling transaction can be opened. -/
def noSpoolEnv : ModEnv Unit where
  conf := licenceConf
  buildString := fun _ => ""
  finished := fun _ => false
  permitted := fun _ => true
  exited := fun _ _ => false
  begins := false
  writes := true

/-- One job in the category `1`, with one running task that is booked. -/
def licenceState : ModState Unit where
  jobs := [⟨1, 0, 1, licenceJob, [licenceTask], fun _ => [], fun _ => [], ()⟩]
  categories := [⟨1, "", 1⟩]
  nextId := 2
  cluster := bookRunning licenceConf licenceJob [licenceTask] ⟨fun _ => [], [], fun _ => 0⟩

def dropLicence (whenNow : Bool) : Qalter Unit where
  number := 1
  requestSetList := [⟨.global, []⟩]
  whenNow := whenNow
  others := fun _ job => some (job, ⟨false, false, fun _ => false, false, false⟩)

/-- Without `-when now` the change is refused for a running job. -/
theorem unchanged_iff_refused :
    (false = false → Unchanged licenceState licenceState) ↔
      FailsCleanly noSpoolEnv (dropLicence false) licenceState := by
  apply unchanged_iff
  · intro i j k limit hlimit
    have hnone : licenceState.cluster.rqs = [] := rfl
    rw [hnone] at hlimit
    simp [limitAt] at hlimit
  · rfl

/-- The two licences are free although the job has kept its request. -/
theorem not_unchanged : ¬ ∀ (env : ModEnv Unit) (q : Qalter Unit) (s s' : ModState Unit),
    sgeGdiModJob env q s = some (false, s') → Unchanged s s' := by
  intro hclaim
  have hbookings := (hclaim noSpoolEnv (dropLicence true) licenceState _ rfl).bookings
  have hlicence := hbookings.1 (.host sgeGlobalName) false "licence"
  revert hlicence
  decide +kernel

end ClusterScheduler.Qmaster
