import ClusterScheduler.Consumables.QuotaSchedule

/-!
# Starting and ending tasks

A task that is sent to its host is booked on everything it takes, and the same is
undebited when the task ends.

* `Conf`, `Cluster`, `Task` — the configuration, what is booked, and a task.
* `sgeCommitJobSent`, `sgeClearGrantedResources` — booking and undebiting a task.
* `sgeFollowOrderStart` — the start of a task with the slots of its parallel environment.
* `PlaceReading` — what one granted queue instance posts to an amount at a place.
* `start_end_cancel` — start and end of a task cancel out.
-/

namespace ClusterScheduler.Consumables

open Foundation Sched

/-! ## Data -/

structure QueueConf where
  qhostname : String
  config : List String

structure ArConf where
  reservedHosts : String → Option (List String)
  reservedQueues : String → Option (List String)

/-- What does not change while tasks run: the master lists, with the names of the
consumables configured. -/
structure Conf where
  parse : ParseUlongVal
  centries : List CEntry
  env : QuotaEnv
  hosts : String → Option (List String)
  queues : String → Option QueueConf
  ars : ℕ → Option ArConf
  pes : List String

structure Cluster where
  books : Books
  rqs : List Rqs
  slotsUsed : String → ℤ

/-- A task with what was granted to it. -/
structure Task where
  job : Job
  isEnrolled : Bool
  grantedPe : Option String
  peObject : Option Pe
  gdil : List Granted
  grants : List GrantedResource

/-- The consumables configured at a place. -/
def Conf.configAt (conf : Conf) : Place → Option (List String)
  | .host name => conf.hosts name
  | .queue name => (conf.queues name).map (·.config)
  | .arHost ar name => (conf.ars ar).bind (·.reservedHosts name)
  | .arQueue ar name => (conf.ars ar).bind (·.reservedQueues name)

/-! ## Functions of the source -/

section Functions

variable (conf : Conf) (task : Task)

def debitHostAt (place : Place) (hostName : String) (slots : ℤ)
    (isMasterTask doPerHostBooking : Bool) : Books → Books :=
  atPlace (conf.configAt place) place fun config =>
    debitHostConsumable conf.parse conf.centries task.job task.grants task.peObject hostName
      config slots isMasterTask doPerHostBooking

def debitQueueAt (place : Place) (slots : ℤ) (isMasterTask doPerHostBooking : Bool) :
    Books → Books :=
  atPlace (conf.configAt place) place fun config =>
    qinstanceDebitConsumable conf.parse conf.centries task.job task.peObject config slots
      isMasterTask doPerHostBooking

/-- The global host, the host and the queue instance; those of the advance reservation
too, for a job that runs in one. -/
def debitPlaces (g : Granted) (qhostname : String) (slots : ℤ)
    (isMasterTask doPerGlobalHostBooking doPerHostBooking : Bool) (books : Books) : Books :=
  let books := debitHostAt conf task (.host sgeGlobalName) sgeGlobalName slots isMasterTask
    doPerGlobalHostBooking books
  let books := debitHostAt conf task (.host qhostname) qhostname slots isMasterTask
    doPerHostBooking books
  let books := debitQueueAt conf task (.queue g.qname) slots isMasterTask doPerHostBooking books
  if task.job.ar = 0 then books
  else
    let books := debitQueueAt conf task (.arQueue task.job.ar g.qname) slots isMasterTask
      doPerHostBooking books
    let books := debitHostAt conf task (.arHost task.job.ar sgeGlobalName) sgeGlobalName slots
      isMasterTask doPerGlobalHostBooking books
    debitHostAt conf task (.arHost task.job.ar qhostname) qhostname slots isMasterTask
      doPerHostBooking books

/-- One granted queue instance. Quotas are not booked for a job in an advance
reservation. -/
def debitGranted (g : Granted) (qhostname : String) (slots : ℤ)
    (isMasterTask doPerGlobalHostBooking doPerHostBooking : Bool) (c : Cluster) : Cluster :=
  { c with
    books := debitPlaces conf task g qhostname slots isMasterTask doPerGlobalHostBooking
      doPerHostBooking c.books
    rqs :=
      if task.job.ar = 0 then
        c.rqs.map (rqsDebitConsumable conf.parse conf.centries conf.env task.job g task.peObject
          slots isMasterTask doPerHostBooking)
      else c.rqs }

/-- The loop through the granted queue instances, with the slots times `sign`. A queue
instance that is not found is passed by. -/
def debitGdil (sign : ℤ) : Bool → Bool → Option String → List Granted → Cluster → Cluster
  | _, _, _, [], c => c
  | isMasterTask, doPerGlobalHostBooking, lastHostname, g :: gdil, c =>
    match conf.queues g.qname with
    | none => debitGdil sign false false lastHostname gdil c
    | some queue =>
      let perHost := hostDoPerHostBooking lastHostname queue.qhostname
      debitGdil sign false false perHost.2 gdil
        (debitGranted conf task g queue.qhostname (sign * g.slots) isMasterTask
          doPerGlobalHostBooking perHost.1 c)

def arFound : Bool := task.job.ar = 0 || (conf.ars task.job.ar).isSome

def sgeCommitJobSent (c : Cluster) : Cluster :=
  if arFound conf task then debitGdil conf task 1 true true none task.gdil c else c

def peDebitSlots (name : String) (slots : ℤ) (c : Cluster) : Cluster :=
  { c with slotsUsed := Function.update c.slotsUsed name (c.slotsUsed name + slots) }

def peSlots : ℤ :=
  ((task.gdil.filter fun g => (conf.queues g.qname).isSome).map fun g => (g.slots : ℤ)).sum

/-- `incslots` is 1. -/
def sgeClearGrantedResources (c : Cluster) : Cluster :=
  if !task.isEnrolled then c
  else if !arFound conf task then c
  else
    let c := debitGdil conf task (-1) true true none task.gdil c
    match task.grantedPe with
    | none => c
    | some name => if name ∈ conf.pes then peDebitSlots name (-peSlots conf task) c else c

/-- A start order: the task is booked, and then its slots of the parallel environment. -/
def sgeFollowOrderStart (c : Cluster) : Cluster :=
  let c := sgeCommitJobSent conf task c
  match task.grantedPe with
  | none => c
  | some name => peDebitSlots name ((task.gdil.map fun g => (g.slots : ℤ)).sum) c

end Functions

/-! ## What is posted at a place -/

section PlaceReading

variable {M : Type*} [AddCommGroup M]

structure PlaceReading (conf : Conf) (task : Task) (p : Place) (ok : List Usage → Prop)
    (read : List Usage → M) where
  hostAmount : String → List String → ℤ → Bool → Bool → M
  queueAmount : List String → ℤ → Bool → Bool → M
  host : ∀ hostName config slots isMasterTask doPerHostBooking,
    conf.configAt p = some config →
    Posts ok read (debitHostConsumable conf.parse conf.centries task.job task.grants
      task.peObject hostName config slots isMasterTask doPerHostBooking)
      (hostAmount hostName config slots isMasterTask doPerHostBooking)
  queue : ∀ config slots isMasterTask doPerHostBooking, conf.configAt p = some config →
    Posts ok read (qinstanceDebitConsumable conf.parse conf.centries task.job task.peObject
      config slots isMasterTask doPerHostBooking)
      (queueAmount config slots isMasterTask doPerHostBooking)
  host_neg : ∀ hostName config slots isMasterTask doPerHostBooking, slots ≠ 0 →
    hostAmount hostName config (-slots) isMasterTask doPerHostBooking =
      -hostAmount hostName config slots isMasterTask doPerHostBooking
  queue_neg : ∀ config slots isMasterTask doPerHostBooking, slots ≠ 0 →
    queueAmount config (-slots) isMasterTask doPerHostBooking =
      -queueAmount config slots isMasterTask doPerHostBooking

structure GrantReading (conf : Conf) (task : Task) (ok : Cluster → Prop) (read : Cluster → M) where
  amount : Granted → String → ℤ → Bool → Bool → Bool → M
  posts : ∀ g qhostname slots isMasterTask doPerGlobalHostBooking doPerHostBooking,
    Posts ok read (debitGranted conf task g qhostname slots isMasterTask doPerGlobalHostBooking
      doPerHostBooking)
      (amount g qhostname slots isMasterTask doPerGlobalHostBooking doPerHostBooking)
  neg : ∀ g qhostname slots isMasterTask doPerGlobalHostBooking doPerHostBooking, slots ≠ 0 →
    amount g qhostname (-slots) isMasterTask doPerGlobalHostBooking doPerHostBooking =
      -amount g qhostname slots isMasterTask doPerGlobalHostBooking doPerHostBooking

theorem posts_atPlace {ok : List Usage → Prop} {read : List Usage → M}
    {config : Option (List String)} {place p : Place} {f : List String → List Usage → List Usage}
    {amount : List String → M}
    (h : ∀ c, p = place → config = some c → Posts ok read (f c) (amount c)) :
    Posts (fun books : Books => ok (books p)) (fun books => read (books p))
      (atPlace config place f) (if p = place then (config.map amount).getD 0 else 0) := by
  by_cases hp : p = place
  · cases config with
    | none => exact Posts.id.congr (by simp)
    | some c =>
      subst hp
      have hposts := h c rfl rfl
      refine ⟨fun books hok => ?_, fun books hok => ?_⟩
      · rw [atPlace, Function.update_self]
        exact hposts.keeps _ hok
      · rw [atPlace, Function.update_self, if_pos rfl]
        exact hposts.adds _ hok
  · refine ⟨fun books hok => ?_, fun books hok => ?_⟩
    · cases config with
      | none => exact hok
      | some c => rwa [atPlace, Function.update_of_ne hp]
    · rw [if_neg hp, add_zero]
      cases config with
      | none => rfl
      | some c => rw [atPlace, Function.update_of_ne hp]

variable {conf : Conf} {task : Task} {p : Place} {ok : List Usage → Prop} {read : List Usage → M}
  (R : PlaceReading conf task p ok read)

namespace PlaceReading

def hostAt (place : Place) (hostName : String) (slots : ℤ)
    (isMasterTask doPerHostBooking : Bool) : M :=
  if p = place then
    ((conf.configAt place).map fun config =>
      R.hostAmount hostName config slots isMasterTask doPerHostBooking).getD 0
  else 0

def queueAt (place : Place) (slots : ℤ) (isMasterTask doPerHostBooking : Bool) : M :=
  if p = place then
    ((conf.configAt place).map fun config =>
      R.queueAmount config slots isMasterTask doPerHostBooking).getD 0
  else 0

/-- What all places of a granted queue instance add up to. -/
def places (g : Granted) (qhostname : String) (slots : ℤ)
    (isMasterTask doPerGlobalHostBooking doPerHostBooking : Bool) : M :=
  R.hostAt (.host sgeGlobalName) sgeGlobalName slots isMasterTask doPerGlobalHostBooking +
    R.hostAt (.host qhostname) qhostname slots isMasterTask doPerHostBooking +
    R.queueAt (.queue g.qname) slots isMasterTask doPerHostBooking +
    if task.job.ar = 0 then 0
    else
      R.queueAt (.arQueue task.job.ar g.qname) slots isMasterTask doPerHostBooking +
        R.hostAt (.arHost task.job.ar sgeGlobalName) sgeGlobalName slots isMasterTask
          doPerGlobalHostBooking +
        R.hostAt (.arHost task.job.ar qhostname) qhostname slots isMasterTask doPerHostBooking

theorem posts_hostAt (place : Place) (hostName : String) (slots : ℤ)
    (isMasterTask doPerHostBooking : Bool) :
    Posts (fun books : Books => ok (books p)) (fun books => read (books p))
      (debitHostAt conf task place hostName slots isMasterTask doPerHostBooking)
      (R.hostAt place hostName slots isMasterTask doPerHostBooking) := by
  apply posts_atPlace
  rintro config rfl hconfig
  exact R.host hostName config slots isMasterTask doPerHostBooking hconfig

theorem posts_queueAt (place : Place) (slots : ℤ) (isMasterTask doPerHostBooking : Bool) :
    Posts (fun books : Books => ok (books p)) (fun books => read (books p))
      (debitQueueAt conf task place slots isMasterTask doPerHostBooking)
      (R.queueAt place slots isMasterTask doPerHostBooking) := by
  apply posts_atPlace
  rintro config rfl hconfig
  exact R.queue config slots isMasterTask doPerHostBooking hconfig

variable {slots : ℤ} {isMasterTask doPerHostBooking : Bool}

variable {place : Place}

theorem hostAt_neg {hostName : String} (h : slots ≠ 0) :
    R.hostAt place hostName (-slots) isMasterTask doPerHostBooking =
      -R.hostAt place hostName slots isMasterTask doPerHostBooking := by
  unfold hostAt
  split_ifs
  · cases conf.configAt place with
    | none => exact neg_zero.symm
    | some config => exact R.host_neg hostName config slots isMasterTask doPerHostBooking h
  · exact neg_zero.symm

theorem queueAt_neg (h : slots ≠ 0) :
    R.queueAt place (-slots) isMasterTask doPerHostBooking =
      -R.queueAt place slots isMasterTask doPerHostBooking := by
  unfold queueAt
  split_ifs
  · cases conf.configAt place with
    | none => exact neg_zero.symm
    | some config => exact R.queue_neg config slots isMasterTask doPerHostBooking h
  · exact neg_zero.symm

theorem places_neg {g : Granted} {qhostname : String}
    {doPerGlobalHostBooking : Bool} (h : slots ≠ 0) :
    R.places g qhostname (-slots) isMasterTask doPerGlobalHostBooking doPerHostBooking =
      -R.places g qhostname slots isMasterTask doPerGlobalHostBooking doPerHostBooking := by
  unfold places
  simp only [R.hostAt_neg h, R.queueAt_neg h]
  split_ifs
  · abel
  · abel

theorem posts_places (g : Granted) (qhostname : String) (slots : ℤ)
    (isMasterTask doPerGlobalHostBooking doPerHostBooking : Bool) :
    Posts (fun books : Books => ok (books p)) (fun books => read (books p))
      (debitPlaces conf task g qhostname slots isMasterTask doPerGlobalHostBooking doPerHostBooking)
      (R.places g qhostname slots isMasterTask doPerGlobalHostBooking doPerHostBooking) := by
  have hcluster := ((R.posts_queueAt (.queue g.qname) slots isMasterTask doPerHostBooking).comp
    (R.posts_hostAt (.host qhostname) qhostname slots isMasterTask doPerHostBooking)).comp
    (R.posts_hostAt (.host sgeGlobalName) sgeGlobalName slots isMasterTask doPerGlobalHostBooking)
  unfold debitPlaces places
  by_cases har : task.job.ar = 0
  · simp only [har, if_true]
    exact hcluster.congr (by abel)
  · simp only [har, if_false]
    have hreservation := ((R.posts_hostAt (.arHost task.job.ar qhostname) qhostname slots
      isMasterTask doPerHostBooking).comp (R.posts_hostAt (.arHost task.job.ar sgeGlobalName)
        sgeGlobalName slots isMasterTask doPerGlobalHostBooking)).comp
      (R.posts_queueAt (.arQueue task.job.ar g.qname) slots isMasterTask doPerHostBooking)
    exact (hreservation.comp hcluster).congr (by abel)

/-- The reading of a place in the cluster. -/
def grant : GrantReading conf task (fun c => ok (c.books p)) (fun c => read (c.books p)) where
  amount := R.places
  posts := fun g qhostname slots isMasterTask doPerGlobalHostBooking doPerHostBooking => {
    keeps := fun c hc => (R.posts_places g qhostname slots isMasterTask doPerGlobalHostBooking
      doPerHostBooking).keeps c.books hc
    adds := fun c hc => (R.posts_places g qhostname slots isMasterTask doPerGlobalHostBooking
      doPerHostBooking).adds c.books hc }
  neg := fun _ _ _ _ _ _ h => R.places_neg h

end PlaceReading

end PlaceReading

/-! ## The readings -/

section Readings

variable (conf : Conf) (task : Task) (p : Place) (b : Bool) (name inst : String)

def nowReading : PlaceReading conf task p (fun _ => True) (nowAt b name) where
  hostAmount := fun _ config slots isMasterTask doPerHostBooking => configTotal conf.parse
    conf.centries task.job task.peObject slots isMasterTask doPerHostBooking b name config
  queueAmount := fun config slots isMasterTask doPerHostBooking => configTotal conf.parse
    conf.centries task.job task.peObject slots isMasterTask doPerHostBooking b name config
  host := fun _ _ _ _ _ _ => posts_now_host
  queue := fun _ _ _ _ _ => posts_now_qinstance
  host_neg := fun _ _ _ _ _ h => configTotal_neg h
  queue_neg := fun _ _ _ _ h => configTotal_neg h

/-- The element of a resource map at a place is there or not, as in the beginning. -/
def MapSettled (known : Prop) : List Usage → Prop :=
  Settled conf.centries ((conf.configAt p).getD []) name known

def mapReading (known : Prop) [Decidable known] (hgrants : GrantsOk task.grants) :
    PlaceReading conf task p (MapSettled conf p name known) (mapAt name inst) where
  hostAmount := fun hostName config slots _ _ => mapTotal conf.centries config known task.grants
    hostName name inst slots
  queueAmount := fun _ _ _ _ => 0
  host := by
    intro hostName config slots isMasterTask doPerHostBooking hconfig
    rw [MapSettled, hconfig]
    exact posts_map_host known hgrants
  queue := by
    intro config slots isMasterTask doPerHostBooking hconfig
    rw [MapSettled, hconfig]
    refine ⟨fun actual h hname hensured => ?_, fun actual _ => ?_⟩
    · exact known_rcDebit _ _ _ |>.trans ((or_iff_right hensured).trans (h hname hensured))
    · exact mapAt_rcDebit.trans (add_zero _).symm
  host_neg := fun _ _ _ _ _ h => mapTotal_neg h
  queue_neg := fun _ _ _ _ _ => neg_zero.symm

/-- An element of a limit. No quota is booked in an advance reservation. -/
def quotaReading (form : LimitForm) (i j k : ℕ) (rueName : String) :
    GrantReading conf task (fun c => HasForm form i j k c.rqs)
      (fun c => limitNow i j k b rueName c.rqs) where
  amount := fun g _ slots isMasterTask _ doPerHostBooking =>
    if task.job.ar = 0 then
      limitAmount conf.parse conf.centries conf.env task.job g task.peObject slots isMasterTask
        doPerHostBooking form j b rueName
    else 0
  posts := by
    intro g qhostname slots isMasterTask doPerGlobalHostBooking doPerHostBooking
    by_cases har : task.job.ar = 0
    · refine ⟨fun c hc => ?_, fun c hc => ?_⟩
      · rw [debitGranted, if_pos har]
        exact (posts_limit form b rueName).keeps c.rqs hc
      · rw [debitGranted, if_pos har, if_pos har]
        exact (posts_limit form b rueName).adds c.rqs hc
    · refine ⟨fun c hc => ?_, fun c hc => ?_⟩
      · rw [debitGranted, if_neg har]
        exact hc
      · rw [debitGranted, if_neg har, if_neg har]
        exact (add_zero _).symm
  neg := by
    intro g qhostname slots isMasterTask doPerGlobalHostBooking doPerHostBooking h
    split_ifs
    · exact limitAmount_neg h
    · exact neg_zero.symm

end Readings

/-! ## Runs -/

/-- What is booked of tasks: one is sent, its slots are counted too, or it ends. -/
inductive TaskAct where
  | sent (task : Task)
  | start (task : Task)
  | clear (task : Task)

def TaskAct.task : TaskAct → Task
  | .sent task => task
  | .start task => task
  | .clear task => task

def TaskAct.step (conf : Conf) (c : Cluster) : TaskAct → Cluster
  | .sent task => sgeCommitJobSent conf task c
  | .start task => sgeFollowOrderStart conf task c
  | .clear task => sgeClearGrantedResources conf task c

def runTasks (conf : Conf) (acts : List TaskAct) (c : Cluster) : Cluster :=
  acts.foldl (TaskAct.step conf) c

section Runs

variable {M : Type*} [AddCommGroup M] {conf : Conf} {task : Task} {ok : Cluster → Prop}
  {read : Cluster → M}

namespace GrantReading

/-- What the granted queue instances of a list add up to. -/
def gdil (R : GrantReading conf task ok read) (sign : ℤ) :
    Bool → Bool → Option String → List Granted → M
  | _, _, _, [] => 0
  | isMasterTask, doPerGlobalHostBooking, lastHostname, g :: gdil =>
    match conf.queues g.qname with
    | none => R.gdil sign false false lastHostname gdil
    | some queue =>
      R.amount g queue.qhostname (sign * g.slots) isMasterTask doPerGlobalHostBooking
          (hostDoPerHostBooking lastHostname queue.qhostname).1 +
        R.gdil sign false false (hostDoPerHostBooking lastHostname queue.qhostname).2 gdil

theorem debitGdil_cons (sign : ℤ) (isMasterTask doPerGlobalHostBooking : Bool)
    (lastHostname : Option String) (g : Granted) (l : List Granted) :
    debitGdil conf task sign isMasterTask doPerGlobalHostBooking lastHostname (g :: l) =
      match conf.queues g.qname with
      | none => debitGdil conf task sign false false lastHostname l
      | some queue => fun c =>
        debitGdil conf task sign false false
          (hostDoPerHostBooking lastHostname queue.qhostname).2 l
          (debitGranted conf task g queue.qhostname (sign * g.slots) isMasterTask
            doPerGlobalHostBooking (hostDoPerHostBooking lastHostname queue.qhostname).1 c) := by
  ext1 c
  rw [debitGdil]
  cases conf.queues g.qname with
  | none => rfl
  | some queue => rfl

theorem posts_gdil (R : GrantReading conf task ok read) (sign : ℤ) (l : List Granted)
    (isMasterTask doPerGlobalHostBooking : Bool) (lastHostname : Option String) :
    Posts ok read (debitGdil conf task sign isMasterTask doPerGlobalHostBooking lastHostname l)
      (R.gdil sign isMasterTask doPerGlobalHostBooking lastHostname l) := by
  induction l generalizing isMasterTask doPerGlobalHostBooking lastHostname with
  | nil => exact Posts.id
  | cons g l ih =>
    rw [debitGdil_cons]
    unfold gdil
    cases conf.queues g.qname with
    | none => exact ih false false lastHostname
    | some queue => exact (ih false false _).comp (R.posts g queue.qhostname _ _ _ _)

theorem gdil_neg (R : GrantReading conf task ok read) (l : List Granted)
    (hslots : ∀ g ∈ l, g.slots ≠ 0) (isMasterTask doPerGlobalHostBooking : Bool)
    (lastHostname : Option String) :
    R.gdil (-1) isMasterTask doPerGlobalHostBooking lastHostname l =
      -R.gdil 1 isMasterTask doPerGlobalHostBooking lastHostname l := by
  induction l generalizing isMasterTask doPerGlobalHostBooking lastHostname with
  | nil => exact neg_zero.symm
  | cons g l ih =>
    have ih := ih fun g hg => hslots g (.tail _ hg)
    unfold gdil
    cases conf.queues g.qname with
    | none => exact ih false false lastHostname
    | some queue =>
      have hg : (1 * (g.slots : ℤ)) ≠ 0 := by
        have := hslots g (.head _)
        omega
      simp only [neg_mul, ih, R.neg _ _ _ _ _ _ hg, neg_add]

end GrantReading

/-- What is read has nothing to do with the slots of parallel environments. -/
def IgnoresSlots (ok : Cluster → Prop) (read : Cluster → M) : Prop :=
  ∀ c slotsUsed, (ok c → ok { c with slotsUsed }) ∧ read { c with slotsUsed } = read c

namespace GrantReading

def sent (R : GrantReading conf task ok read) (sign : ℤ) : M :=
  if arFound conf task then R.gdil sign true true none task.gdil else 0

theorem posts_sent (R : GrantReading conf task ok read) :
    Posts ok read (sgeCommitJobSent conf task) (R.sent 1) := by
  unfold sgeCommitJobSent sent
  cases arFound conf task with
  | false => exact Posts.id
  | true => exact R.posts_gdil 1 task.gdil true true none

theorem posts_slots (h : IgnoresSlots ok read) (name : String) (slots : ℤ) :
    Posts ok read (peDebitSlots name slots) 0 where
  keeps := fun c => (h c _).1
  adds := fun c _ => (h c _).2.trans (add_zero _).symm

theorem posts_start (R : GrantReading conf task ok read) (h : IgnoresSlots ok read) :
    Posts ok read (sgeFollowOrderStart conf task) (R.sent 1) := by
  unfold sgeFollowOrderStart
  cases task.grantedPe with
  | none => exact R.posts_sent
  | some name => exact ((posts_slots h name _).comp R.posts_sent).congr (add_zero _)

theorem posts_clear (R : GrantReading conf task ok read) (h : IgnoresSlots ok read) :
    Posts ok read (sgeClearGrantedResources conf task)
      (if task.isEnrolled then R.sent (-1) else 0) := by
  unfold sgeClearGrantedResources sent
  cases task.isEnrolled with
  | false => exact Posts.id
  | true =>
    cases arFound conf task with
    | false => exact Posts.id
    | true =>
      have hgdil := R.posts_gdil (-1) task.gdil true true none
      cases task.grantedPe with
      | none => exact hgdil
      | some name =>
        simp only [Bool.not_true, Bool.false_eq_true, if_false, if_true]
        split_ifs
        · exact ((posts_slots h name _).comp hgdil).congr (add_zero _)
        · exact hgdil

theorem posts_step {act : TaskAct} (R : GrantReading conf act.task ok read)
    (h : IgnoresSlots ok read) : ∃ v, Posts ok read (act.step conf) v := by
  cases act with
  | sent task => exact ⟨_, R.posts_sent⟩
  | start task => exact ⟨_, R.posts_start h⟩
  | clear task => exact ⟨_, R.posts_clear h⟩

end GrantReading

/-! ## Start and end of a task -/

/-- A task that a start order is carried out for: it is enrolled, it has slots on each
queue instance it was granted, and what its order names is there. -/
structure Startable (conf : Conf) (task : Task) : Prop where
  enrolled : task.isEnrolled = true
  slots : ∀ g ∈ task.gdil, g.slots ≠ 0
  queues : ∀ g ∈ task.gdil, (conf.queues g.qname).isSome
  ar : arFound conf task = true
  pe : ∀ name, task.grantedPe = some name → name ∈ conf.pes

variable (R : ∀ t, GrantsOk t.grants → GrantReading conf t ok read)
include R

theorem posts_run
    (h : IgnoresSlots ok read) (acts : List TaskAct)
    (hgrants : ∀ act ∈ acts, GrantsOk act.task.grants) :
    ∃ v, Posts ok read (runTasks conf acts) v := by
  induction acts with
  | nil => exact ⟨0, Posts.id⟩
  | cons act acts ih =>
    obtain ⟨v, hv⟩ := ih fun a ha => hgrants a (List.mem_cons_of_mem act ha)
    obtain ⟨w, hw⟩ := (R act.task (hgrants act (.head _))).posts_step h
    exact ⟨_, hv.comp hw⟩

theorem cancel_reading
    (h : IgnoresSlots ok read) (hstart : Startable conf task) {others : List TaskAct}
    (htask : GrantsOk task.grants) (hgrants : ∀ act ∈ others, GrantsOk act.task.grants)
    {c : Cluster} (hc : ok c) :
    read (sgeClearGrantedResources conf task
      (runTasks conf others (sgeFollowOrderStart conf task c))) =
      read (runTasks conf others c) := by
  obtain ⟨w, hmid⟩ := posts_run R h others hgrants
  have hneg : (R task htask).sent (-1) = -(R task htask).sent 1 := by
    unfold GrantReading.sent
    rw [if_pos hstart.ar, if_pos hstart.ar]
    exact (R task htask).gdil_neg task.gdil hstart.slots true true none
  have hclear := (R task htask).posts_clear h
  rw [if_pos hstart.enrolled, hneg] at hclear
  exact Posts.cancel ((R task htask).posts_start h) hmid hclear hc

end Runs

section Slots

variable {conf : Conf} {task : Task} {name : String}

theorem debitGdil_slotsUsed (conf : Conf) (task : Task) (sign : ℤ) (l : List Granted)
    (isMasterTask doPerGlobalHostBooking : Bool) (lastHostname : Option String) (c : Cluster) :
    (debitGdil conf task sign isMasterTask doPerGlobalHostBooking lastHostname l c).slotsUsed =
      c.slotsUsed := by
  induction l generalizing isMasterTask doPerGlobalHostBooking lastHostname c with
  | nil => rfl
  | cons g l ih =>
    rw [debitGdil]
    cases conf.queues g.qname with
    | none => exact ih false false lastHostname c
    | some queue => exact ih false false _ _

theorem sent_slotsUsed (c : Cluster) : (sgeCommitJobSent conf task c).slotsUsed = c.slotsUsed := by
  unfold sgeCommitJobSent
  split_ifs
  · exact debitGdil_slotsUsed conf task 1 task.gdil true true none c
  · rfl

theorem peDebitSlots_slotsUsed (name' : String) (slots : ℤ) (c : Cluster) :
    (peDebitSlots name' slots c).slotsUsed name =
      c.slotsUsed name + if name' = name then slots else 0 := by
  unfold peDebitSlots
  split_ifs with h
  · rw [← h]
    exact Function.update_self ..
  · rw [add_zero]
    exact Function.update_of_ne (Ne.symm h) ..

def startSlots (task : Task) (name : String) : ℤ :=
  if task.grantedPe = some name then (task.gdil.map fun g => (g.slots : ℤ)).sum else 0

theorem posts_slots_start : Posts (fun _ => True) (fun c => c.slotsUsed name)
    (sgeFollowOrderStart conf task) (startSlots task name) where
  keeps := fun _ _ => trivial
  adds := fun c _ => by
    unfold sgeFollowOrderStart startSlots
    cases task.grantedPe with
    | none => exact (congrFun (sent_slotsUsed c) name).trans (add_zero _).symm
    | some name' => simp only [peDebitSlots_slotsUsed, sent_slotsUsed, Option.some.injEq]

/-- The slots the end of a task takes back. -/
def clearSlots (conf : Conf) (task : Task) (name : String) : ℤ :=
  if task.isEnrolled ∧ arFound conf task ∧ task.grantedPe = some name ∧ name ∈ conf.pes then
    -peSlots conf task
  else 0

theorem posts_slots_clear : Posts (fun _ => True) (fun c => c.slotsUsed name)
    (sgeClearGrantedResources conf task) (clearSlots conf task name) where
  keeps := fun _ _ => trivial
  adds := fun c _ => by
    unfold sgeClearGrantedResources clearSlots
    cases task.isEnrolled with
    | false => simp
    | true =>
      cases arFound conf task with
      | false => simp
      | true =>
        have hgdil := congrFun (debitGdil_slotsUsed conf task (-1) task.gdil true true none c) name
        cases task.grantedPe with
        | none => simpa using hgdil
        | some name' =>
          by_cases hname : name' = name
          · subst hname
            by_cases hpe : name' ∈ conf.pes
            · simp [hpe, peDebitSlots_slotsUsed, hgdil]
            · simp [hpe, hgdil]
          · by_cases hpe : name' ∈ conf.pes
            · simp [hpe, hname, peDebitSlots_slotsUsed, hgdil]
            · simp [hpe, hname, hgdil]

theorem posts_slots_run (conf : Conf) (name : String) (acts : List TaskAct) :
    ∃ v, Posts (fun _ => True) (fun c => c.slotsUsed name) (runTasks conf acts) v := by
  induction acts with
  | nil => exact ⟨0, Posts.id⟩
  | cons act acts ih =>
    obtain ⟨v, hv⟩ := ih
    cases act with
    | sent task =>
      have hsent : Posts (fun _ => True) (fun c : Cluster => c.slotsUsed name)
          (sgeCommitJobSent conf task) 0 := {
        keeps := fun _ _ => trivial
        adds := fun c _ => (congrFun (sent_slotsUsed c) name).trans (add_zero _).symm }
      exact ⟨_, hv.comp hsent⟩
    | start task => exact ⟨_, hv.comp posts_slots_start⟩
    | clear task => exact ⟨_, hv.comp posts_slots_clear⟩

theorem clearSlots_eq (hstart : Startable conf task) :
    clearSlots conf task name = -startSlots task name := by
  have hall : (task.gdil.filter fun g => (conf.queues g.qname).isSome) = task.gdil :=
    List.filter_eq_self.mpr hstart.queues
  unfold clearSlots startSlots peSlots
  rw [hall]
  by_cases hname : task.grantedPe = some name
  · rw [if_pos ⟨hstart.enrolled, hstart.ar, hname, hstart.pe name hname⟩, if_pos hname]
  · rw [if_neg fun h => hname h.2.2.1, if_neg hname, neg_zero]

end Slots

/-- **Start and end of a task cancel out.** -/
theorem start_end_cancel (conf : Conf) (task : Task) (others : List TaskAct) (c : Cluster)
    (hstart : Startable conf task) (htask : GrantsOk task.grants)
    (hgrants : ∀ act ∈ others, GrantsOk act.task.grants)
    (hdistinct : ∀ i j k limit, limitAt i j k c.rqs = some limit → DistinctNames limit.usage) :
    let ended := sgeClearGrantedResources conf task
      (runTasks conf others (sgeFollowOrderStart conf task c))
    let without := runTasks conf others c
    (∀ p b name, nowAt b name (ended.books p) = nowAt b name (without.books p)) ∧
    (∀ i j k limit, limitAt i j k c.rqs = some limit → ∀ b rueName,
      limitNow i j k b rueName ended.rqs = limitNow i j k b rueName without.rqs) ∧
    (∀ p name inst, mapAt name inst (ended.books p) = mapAt name inst (without.books p)) ∧
    ended.slotsUsed = without.slotsUsed := by
  refine ⟨fun p b name => ?_, fun i j k limit hlimit b rueName => ?_, fun p name inst => ?_, ?_⟩
  · exact cancel_reading (fun t _ => (nowReading conf t p b name).grant)
      (fun _ _ => ⟨fun h => h, rfl⟩) hstart htask hgrants trivial
  · obtain ⟨form, hform⟩ := exists_form hlimit (hdistinct i j k limit hlimit)
    exact cancel_reading (fun t _ => quotaReading conf t b form i j k rueName)
      (fun _ _ => ⟨fun h => h, rfl⟩) hstart htask hgrants hform
  · exact cancel_reading (fun t ht => (mapReading conf t p name inst
      (Known name (c.books p)) ht).grant) (fun _ _ => ⟨fun h => h, rfl⟩) hstart htask hgrants
      fun _ _ => Iff.rfl
  · ext name
    obtain ⟨w, hmid⟩ := posts_slots_run conf name others
    exact Posts.cancel posts_slots_start hmid (posts_slots_clear.congr (clearSlots_eq hstart))
      trivial

/-! ## A parallel job on two slots -/

/-- A cluster with a host, a queue instance, a quota on slots and a parallel environment. -/
def smallConf : Conf where
  parse := parseDigit
  centries := [slotsCEntry "1"]
  env := ⟨fun _ _ => true, fun host => host⟩
  hosts := fun name => if name = "node" then some [sgeAttrSlots] else none
  queues := fun name => if name = "all.q@node" then some ⟨"node", [sgeAttrSlots]⟩ else none
  ars := fun _ => none
  pes := ["mpi"]

/-- Nothing is in use. -/
def idleCluster : Cluster where
  books := fun _ => []
  rqs := [⟨true, [⟨⟨none, none, none, none, none⟩, [slotsLimit]⟩]⟩]
  slotsUsed := fun _ => 0

/-- Two slots and a core. -/
def parallelTask : Task where
  job := plainJob
  isEnrolled := true
  grantedPe := some "mpi"
  peObject := some ignoringPe
  gdil := [⟨"all.q@node", "node", 2⟩]
  grants := [⟨.binding, sgeAttrSlots, "node", [], ["SC".toList]⟩]

theorem parallelTask_startable : Startable smallConf parallelTask where
  enrolled := rfl
  slots := by decide
  queues := by decide
  ar := by decide
  pe := by
    rintro name hname
    cases hname
    exact List.mem_singleton_self _

/-- Two other tasks with slots and cores are booked while the parallel job runs. -/
theorem start_end_cancel_parallel :
    let others : List TaskAct := [.start parallelTask, .sent parallelTask]
    let ended := sgeClearGrantedResources smallConf parallelTask
      (runTasks smallConf others (sgeFollowOrderStart smallConf parallelTask idleCluster))
    let without := runTasks smallConf others idleCluster
    (∀ p b name, nowAt b name (ended.books p) = nowAt b name (without.books p)) ∧
    (∀ i j k limit, limitAt i j k idleCluster.rqs = some limit → ∀ b rueName,
      limitNow i j k b rueName ended.rqs = limitNow i j k b rueName without.rqs) ∧
    (∀ p name inst, mapAt name inst (ended.books p) = mapAt name inst (without.books p)) ∧
    ended.slotsUsed = without.slotsUsed := by
  have hgrants : GrantsOk parallelTask.grants := by
    intro gru hgru
    obtain rfl := List.mem_singleton.mp hgru
    exact ⟨fun _ => rfl, fun h => absurd h (by decide)⟩
  apply start_end_cancel smallConf parallelTask _ idleCluster parallelTask_startable hgrants
  · simpa [TaskAct.task] using hgrants
  · intro i j k limit hlimit
    obtain ⟨rule, hbind, hat⟩ := Option.bind_eq_some_iff.mp hlimit
    obtain ⟨rqs, hrqs, hrule⟩ := Option.bind_eq_some_iff.mp hbind
    obtain rfl := List.mem_singleton.mp (List.mem_of_getElem? hrqs)
    obtain rfl := List.mem_singleton.mp (List.mem_of_getElem? hrule)
    obtain rfl := List.mem_singleton.mp (List.mem_of_getElem? hat)
    exact List.nodup_nil

/-- **Sending a task does not count its slots** of the parallel environment: those the
end takes back are missing unless the start order has counted them. -/
theorem sent_end_slots : Startable smallConf parallelTask ∧
    (sgeClearGrantedResources smallConf parallelTask (runTasks smallConf []
      (sgeCommitJobSent smallConf parallelTask idleCluster))).slotsUsed ≠
      (runTasks smallConf [] idleCluster).slotsUsed := by
  refine ⟨parallelTask_startable, fun heq => ?_⟩
  have hmpi := congrFun heq "mpi"
  revert hmpi
  decide +kernel

end ClusterScheduler.Consumables
