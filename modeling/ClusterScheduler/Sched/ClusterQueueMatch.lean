import ClusterScheduler.Sched.AttributeMatch
import ClusterScheduler.Sgeobj.HostAttributes
import ClusterScheduler.Sgeobj.Usersets

/-!
# Ruling out a cluster queue

Before the queue instances are looked at one by one, a cluster queue is ruled out as a whole.

* `cqueueMatchStatic` — the test of the cluster queue.
* `sgeQueueMatchStatic` — the test of a queue instance.
* `selectAttributes` — the queue instance that the cluster queue configures for a host.
* `cqueueMatchStatic_sound` — what is ruled out as a whole is ruled out on every host.
-/

namespace ClusterScheduler.Sched

open Foundation Sgeobj

/-! ## Data -/

inductive JrsScope where
  | global | master | slave
  deriving DecidableEq

/-- A request of `-l`. -/
structure ResourceRequest where
  name : Name
  shortcut : Name
  deriving DecidableEq

structure JobRequestSet where
  scope : JrsScope
  hardQueueList : Option (List Name)
  hardResourceList : Option (List ResourceRequest)
  deriving DecidableEq

/-- `immediate` is the flag of `JB_type`. -/
structure QueuedJob where
  requestSets : List JobRequestSet
  immediate : Bool
  deriving DecidableEq

/-- `CE_Type`, a complex entry. -/
structure ComplexEntry where
  name : Name
  shortcut : Name
  requestable : Requestable
  deriving DecidableEq

structure ReservedQueue where
  fullName : Name
  qname : Name
  deriving DecidableEq

/-- What is read of `sge_assignment_t`. The PE and its name are set together. -/
structure StaticAssignment where
  job : QueuedJob
  who : JobUser
  project : Option Name
  pe : Option Name
  ckpt : Option Name
  slots : ℤ
  arId : ℕ
  ar : Option (List ReservedQueue)
  aclList : List Userset
  centryList : Option (List ComplexEntry)
  hgrpList : List HGroup

/-- `CQ_Type`, each attribute with its profiles. -/
structure ClusterQueueConfig where
  name : Name
  projects : List (HostAttr (Option (List Name)))
  xprojects : List (HostAttr (Option (List Name)))
  acl : List (HostAttr (Option (List Name)))
  xacl : List (HostAttr (Option (List Name)))
  peList : List (HostAttr (Option (List Name)))
  qtype : List (HostAttr ℕ)

/-- `QU_Type` -/
structure MatchedQueue where
  fullName : Name
  qname : Name
  qhostname : Name
  state : ℕ
  projects : Option (List Name)
  xprojects : Option (List Name)
  acl : Option (List Name)
  xacl : Option (List Name)
  peList : Option (List Name)
  ckptList : Option (List Name)
  qtype : ℕ
  consumableConfigList : List Name
  deriving DecidableEq

def qiOrphaned : ℕ := 0x00100000

def bq : ℕ := 1
def iq : ℕ := 2

def qtypeHas (qtype bit : ℕ) : Bool := qtype &&& bit ≠ 0

def queueResource : List Name :=
  ["qname", "hostname", "slots", "tmpdir", "seq_no", "rerun", "calendar", "s_rt", "h_rt", "s_cpu",
    "h_cpu", "s_fsize", "h_fsize", "s_data", "h_data", "s_stack", "h_stack", "s_core", "h_core",
    "s_rss", "h_rss", "s_vmem", "h_vmem", "min_cpu_interval"].map String.toList

/-! ## Requests -/

def QueuedJob.requestSet (job : QueuedJob) (scope : JrsScope) : Option JobRequestSet :=
  job.requestSets.find? (·.scope = scope)

def QueuedJob.hardQueueList (job : QueuedJob) (scope : JrsScope) : Option (List Name) :=
  (job.requestSet scope).bind (·.hardQueueList)

def QueuedJob.hardResourceList (job : QueuedJob) (scope : JrsScope) :
    Option (List ResourceRequest) :=
  (job.requestSet scope).bind (·.hardResourceList)

structure HardQueueLists where
  globalHardQueueList : Option (List Name)
  masterHardQueueList : Option (List Name)
  slaveHardQueueList : Option (List Name)

/-- Master and slave requests count only without global ones. -/
def getHardQueueLists (job : QueuedJob) : HardQueueLists :=
  match job.hardQueueList .global with
  | none => ⟨none, job.hardQueueList .master, job.hardQueueList .slave⟩
  | some list => ⟨some list, none, none⟩

def isRequested (req : Option (List ResourceRequest)) (attr : Name) : Bool :=
  (req.getD []).any fun r => r.name = attr || r.shortcut = attr

/-! ## The test of a cluster queue -/

section Functions

variable (B : Bootstrap) (C : Comparison)

def prjListLocate (projects : List Name) (project : Name) : Bool := projects.contains project

def peCqRejected (peName : Option Name) (cq : ClusterQueueConfig) : Bool :=
  match peName with
  | none => false
  | some peName => !cq.peList.any fun alist => (alist.value.getD []).contains peName

def projectCqRejected (project : Option Name) (cq : ClusterQueueConfig) : Bool :=
  match project with
  | none => !cq.projects.any fun alist => alist.value.isNone
  | some project =>
    (!cq.xprojects.any fun alist =>
      match alist.value with
      | none => true
      | some projects => !prjListLocate projects project) ||
    !cq.projects.any fun alist =>
      match alist.value with
      | none => true
      | some projects => prjListLocate projects project

def interactiveCqRejected (cq : ClusterQueueConfig) : Bool :=
  !cq.qtype.any fun alist => qtypeHas alist.value iq

def accessCqRejected (who : JobUser) (aclList : List Userset) (cq : ClusterQueueConfig) : Bool :=
  (!cq.xacl.any fun alist => !sgeContainedInAccessLists C who alist.value aclList) ||
  !cq.acl.any fun alist =>
    match alist.value with
    | none => true
    | some t => sgeContainedInAccessLists C who (some t) aclList

/-- `request_cq_rejected()`: the loop over the requests. What rules one of them out is a
parameter, given whether only a single slot is asked for. -/
def requestCqRejected (ruledOut : ResourceRequest → ClusterQueueConfig → Bool → Bool)
    (hardResourceList : List ResourceRequest) (cq : ClusterQueueConfig) (singleSlot : Bool) : Bool :=
  hardResourceList.any fun req => ruledOut req cq singleSlot

def cqueueMatchStaticResourceListRejected
    (ruledOut : ResourceRequest → ClusterQueueConfig → Bool → Bool) (a : StaticAssignment)
    (cq : ClusterQueueConfig) (hardResourceList : Option (List ResourceRequest)) : Bool :=
  match hardResourceList with
  | none => false
  | some list => requestCqRejected ruledOut list cq (a.pe.isNone || a.slots = 1)

/-- The first test: no host and no host groups are known yet. -/
def cqueueQueueListRejected (a : StaticAssignment) (cqname : Name) : Bool :=
  let lists := getHardQueueLists a.job
  match lists.globalHardQueueList with
  | some list => qrefListCqRejected B C [] (some list) cqname none
  | none =>
    a.pe.isSome && lists.masterHardQueueList.isSome && lists.slaveHardQueueList.isSome &&
      qrefListCqRejected B C [] lists.masterHardQueueList cqname none &&
      qrefListCqRejected B C [] lists.slaveHardQueueList cqname none

def cqueueMatchStatic (ruledOut : ResourceRequest → ClusterQueueConfig → Bool → Bool)
    (cq : ClusterQueueConfig) (a : StaticAssignment) : Dispatch :=
  if cqueueQueueListRejected B C a cq.name then .neverCat
  else if a.arId ≠ 0 && !(a.ar.getD []).any (·.qname = cq.name) then .neverCat
  else if cqueueMatchStaticResourceListRejected ruledOut a cq (a.job.hardResourceList .global) then
    .neverCat
  else if cqueueMatchStaticResourceListRejected ruledOut a cq (a.job.hardResourceList .master) &&
      cqueueMatchStaticResourceListRejected ruledOut a cq (a.job.hardResourceList .slave) then
    .neverCat
  else if projectCqRejected a.project cq then .neverCat
  else if accessCqRejected C a.who a.aclList cq then .neverCat
  else if peCqRejected a.pe cq then .neverCat
  else if a.job.immediate && interactiveCqRejected cq then .neverCat
  else .ok

/-! ## The test of a queue instance -/

def centryListLocate (list : List ComplexEntry) (name : Name) : Option ComplexEntry :=
  (list.find? (·.name = name)).or (list.find? (·.shortcut = name))

def centryListAreQueuesRequestable (centryList : Option (List ComplexEntry)) : Bool :=
  (centryList.bind (centryListLocate · "qname".toList)).any (·.requestable ≠ .no)

def qinstanceIsCentryAComplexValue (queue : MatchedQueue) (centry : ComplexEntry) : Bool :=
  queue.consumableConfigList.contains centry.name || queueResource.contains centry.name

/-- A forced complex that the instance has and no request set asks for. -/
def jobIsForcedCentryMissing (a : StaticAssignment) (queue : MatchedQueue) : Bool :=
  (a.centryList.getD []).any fun centry =>
    centry.requestable = .forced &&
      !(a.job.requestSets.any fun jrs => isRequested jrs.hardResourceList centry.name) &&
      qinstanceIsCentryAComplexValue queue centry

def queueProjectsRejected (project : Option Name) (queue : MatchedQueue) : Bool :=
  queue.projects.any fun projects =>
    match project with
    | none => true
    | some project => !prjListLocate projects project

def queueXprojectsRejected (project : Option Name) (queue : MatchedQueue) : Bool :=
  queue.xprojects.any fun projects => project.any (prjListLocate projects)

/-- The test of the hard queue requests. A parallel job needs the instance for its master task,
if that is not placed yet, or for a slave. -/
def queueListsRejected (a : StaticAssignment) (queue : MatchedQueue) (needMaster : Bool) : Bool :=
  let lists := getHardQueueLists a.job
  match lists.globalHardQueueList with
  | some list => qrefListCqRejected B C a.hgrpList (some list) queue.qname (some queue.qhostname)
  | none =>
    if a.pe.isSome then
      let canBeMasterQueue := !(needMaster &&
        qrefListCqRejected B C a.hgrpList lists.masterHardQueueList queue.qname
          (some queue.qhostname))
      let canBeSlaveQueue := !qrefListCqRejected B C a.hgrpList lists.slaveHardQueueList
        queue.qname (some queue.qhostname)
      (!canBeMasterQueue && !canBeSlaveQueue) || (!needMaster && !canBeSlaveQueue)
    else false

def queuesRequested (lists : HardQueueLists) : Bool :=
  lists.globalHardQueueList.isSome || lists.masterHardQueueList.isSome ||
    lists.slaveHardQueueList.isSome

def qinstanceIsParallelQueue (queue : MatchedQueue) : Bool := !(queue.peList.getD []).isEmpty
def qinstanceIsCheckpointingQueue (queue : MatchedQueue) : Bool :=
  !(queue.ckptList.getD []).isEmpty

/-- What the type of the job asks of the instance. -/
def queueTypeRejected (a : StaticAssignment) (queue : MatchedQueue) : Bool :=
  a.pe.any (fun pe => !qinstanceIsParallelQueue queue || !(queue.peList.getD []).contains pe) ||
  a.ckpt.any (fun ckpt => !qinstanceIsCheckpointingQueue queue ||
    !(queue.ckptList.getD []).contains ckpt) ||
  (a.job.immediate && !qtypeHas queue.qtype iq) ||
  (a.pe.isNone && a.ckpt.isNone && !a.job.immediate && !qtypeHas queue.qtype bq) ||
  (a.ckpt.isSome && a.pe.isNone && !a.job.immediate && qinstanceIsParallelQueue queue &&
    !qtypeHas queue.qtype bq)

def sgeQueueMatchStatic (a : StaticAssignment) (queue : MatchedQueue) (needMaster : Bool) :
    Dispatch :=
  if a.arId ≠ 0 && !(a.ar.getD []).any (·.fullName = queue.fullName) then .neverCat
  else if a.arId = 0 && queue.state = qiOrphaned then .neverCat
  else if !sgeHasAccess C a.who queue.acl queue.xacl a.aclList then .neverCat
  else if queueProjectsRejected a.project queue then .neverCat
  else if queueXprojectsRejected a.project queue then .neverCat
  else if queuesRequested (getHardQueueLists a.job) &&
      !centryListAreQueuesRequestable a.centryList then .neverCat
  else if queueListsRejected B C a queue needMaster then .neverCat
  else if queueTypeRejected a queue then .neverCat
  else if jobIsForcedCentryMissing a queue then .neverCat
  else .ok

/-- The instance on the host of `base`, with the values that the profiles select. -/
def selectAttributes (hgroupList : List HGroup) (fuel : ℕ) (cq : ClusterQueueConfig)
    (base : MatchedQueue) : Option MatchedQueue := do
  let hostname := base.qhostname
  let projects ← attrListFindValue B hgroupList fuel cq.projects hostname
  let xprojects ← attrListFindValue B hgroupList fuel cq.xprojects hostname
  let acl ← attrListFindValue B hgroupList fuel cq.acl hostname
  let xacl ← attrListFindValue B hgroupList fuel cq.xacl hostname
  let peList ← attrListFindValue B hgroupList fuel cq.peList hostname
  let qtype ← attrListFindValue B hgroupList fuel cq.qtype hostname
  pure { base with qname := cq.name, projects, xprojects, acl, xacl, peList, qtype }

end Functions

/-! ## What the tests say -/

/-- The values of the instance are values of profiles of the cluster queue. -/
structure ConfiguredBy (cq : ClusterQueueConfig) (queue : MatchedQueue) : Prop where
  qname : queue.qname = cq.name
  projects : ∃ alist ∈ cq.projects, alist.value = queue.projects
  xprojects : ∃ alist ∈ cq.xprojects, alist.value = queue.xprojects
  acl : ∃ alist ∈ cq.acl, alist.value = queue.acl
  xacl : ∃ alist ∈ cq.xacl, alist.value = queue.xacl
  peList : ∃ alist ∈ cq.peList, alist.value = queue.peList
  qtype : ∃ alist ∈ cq.qtype, alist.value = queue.qtype

/-- Every attribute contains a default entry. -/
structure ClusterQueueConfig.HasDefaults (B : Bootstrap) (cq : ClusterQueueConfig) : Prop where
  projects : HasDefault B cq.projects
  xprojects : HasDefault B cq.xprojects
  acl : HasDefault B cq.acl
  xacl : HasDefault B cq.xacl
  peList : HasDefault B cq.peList
  qtype : HasDefault B cq.qtype

def QueuedJob.WithoutRequests (job : QueuedJob) : Prop :=
  ∀ jrs ∈ job.requestSets, jrs.hardResourceList.getD [] = []

section Soundness

variable {B : Bootstrap} {C : Comparison} {hgroupList : List HGroup} {fuel : ℕ}
  {cq : ClusterQueueConfig} {base queue : MatchedQueue} {a : StaticAssignment}

theorem selectAttributes_configured (h : selectAttributes B hgroupList fuel cq base = some queue) :
    ConfiguredBy cq queue := by
  simp only [selectAttributes, Option.bind_eq_bind, Option.bind_eq_some_iff] at h
  obtain ⟨projects, hprojects, xprojects, hxprojects, acl, hacl, xacl, hxacl, peList, hpeList,
    qtype, hqtype, hqueue⟩ := h
  cases hqueue
  exact ⟨rfl, attrListFindValue_mem hprojects, attrListFindValue_mem hxprojects,
    attrListFindValue_mem hacl, attrListFindValue_mem hxacl, attrListFindValue_mem hpeList,
    attrListFindValue_mem hqtype⟩

theorem selectAttributes_isSome (hcq : cq.HasDefaults B) (h : Acyclic (Refers B hgroupList))
    (hfuel : hgroupList.length + 2 ≤ fuel) :
    (selectAttributes B hgroupList fuel cq base).isSome = true := by
  obtain ⟨projects, hprojects⟩ := Option.isSome_iff_exists.mp
    (attrListFindValue_isSome base.qhostname hcq.projects h hfuel)
  obtain ⟨xprojects, hxprojects⟩ := Option.isSome_iff_exists.mp
    (attrListFindValue_isSome base.qhostname hcq.xprojects h hfuel)
  obtain ⟨acl, hacl⟩ := Option.isSome_iff_exists.mp
    (attrListFindValue_isSome base.qhostname hcq.acl h hfuel)
  obtain ⟨xacl, hxacl⟩ := Option.isSome_iff_exists.mp
    (attrListFindValue_isSome base.qhostname hcq.xacl h hfuel)
  obtain ⟨peList, hpeList⟩ := Option.isSome_iff_exists.mp
    (attrListFindValue_isSome base.qhostname hcq.peList h hfuel)
  obtain ⟨qtype, hqtype⟩ := Option.isSome_iff_exists.mp
    (attrListFindValue_isSome base.qhostname hcq.qtype h hfuel)
  simp only [selectAttributes, hprojects, hxprojects, hacl, hxacl, hpeList, hqtype]
  rfl

/-- A test that no profile passes fails for the value of every profile. -/
theorem not_any_value {α : Type*} {profiles : List (HostAttr α)} {p : HostAttr α → Bool}
    (h : (!profiles.any p) = true) {attr : HostAttr α} (hattr : attr ∈ profiles) :
    p attr = false := by
  rw [Bool.not_eq_true', List.any_eq_false] at h
  exact Bool.eq_false_iff.mpr (h attr hattr)

theorem projectCqRejected_sound {project : Option Name}
    (h : projectCqRejected project cq = true) (hq : ConfiguredBy cq queue) :
    queueProjectsRejected project queue = true ∨ queueXprojectsRejected project queue = true := by
  obtain ⟨alist, halist, hvalue⟩ := hq.projects
  obtain ⟨xalist, hxalist, hxvalue⟩ := hq.xprojects
  unfold queueProjectsRejected queueXprojectsRejected
  rw [← hvalue, ← hxvalue]
  cases project with
  | none =>
    have hsome := not_any_value h halist
    cases hlist : alist.value with
    | none => rw [hlist] at hsome; exact absurd hsome nofun
    | some projects => exact .inl rfl
  | some project =>
    obtain hx | hp := Bool.or_eq_true_iff.mp h
    · -- excluded by every profile
      right
      have hmem := not_any_value hx hxalist
      cases hlist : xalist.value with
      | none => rw [hlist] at hmem; exact absurd hmem nofun
      | some projects =>
        rw [hlist] at hmem
        simpa using hmem
    · -- included by none
      left
      have hmem := not_any_value hp halist
      cases hlist : alist.value with
      | none => rw [hlist] at hmem; exact absurd hmem nofun
      | some projects =>
        rw [hlist] at hmem
        simpa using hmem

theorem accessCqRejected_sound {who : JobUser} {aclList : List Userset}
    (h : accessCqRejected C who aclList cq = true) (hq : ConfiguredBy cq queue) :
    sgeHasAccess C who queue.acl queue.xacl aclList = false := by
  obtain ⟨alist, halist, hvalue⟩ := hq.acl
  obtain ⟨xalist, hxalist, hxvalue⟩ := hq.xacl
  rw [← hvalue, ← hxvalue]
  rw [Bool.eq_false_iff, Ne, sgeHasAccess_iff]
  rintro ⟨hxacl, hacl⟩
  obtain hx | ha := Bool.or_eq_true_iff.mp h
  · have hmem : sgeContainedInAccessLists C who xalist.value aclList = true := by
      simpa using not_any_value hx hxalist
    exact absurd (hmem.symm.trans hxacl) nofun
  · have hmem := not_any_value ha halist
    cases hlist : alist.value with
    | none => rw [hlist] at hmem; exact absurd hmem nofun
    | some t =>
      rw [hlist] at hmem hacl
      exact absurd (hacl nofun) (Bool.eq_false_iff.mp hmem)

theorem peCqRejected_sound (h : peCqRejected a.pe cq = true) (hq : ConfiguredBy cq queue) :
    queueTypeRejected a queue = true := by
  obtain ⟨alist, halist, hvalue⟩ := hq.peList
  unfold queueTypeRejected
  cases hpe : a.pe with
  | none => rw [hpe] at h; exact absurd h nofun
  | some pe =>
    rw [hpe] at h
    have hmem := not_any_value h halist
    rw [hvalue] at hmem
    rw [Option.any_some, hmem]
    simp

theorem interactiveCqRejected_sound (himmediate : a.job.immediate = true)
    (h : interactiveCqRejected cq = true) (hq : ConfiguredBy cq queue) :
    queueTypeRejected a queue = true := by
  obtain ⟨alist, halist, hvalue⟩ := hq.qtype
  have hmem := not_any_value h halist
  rw [hvalue] at hmem
  unfold queueTypeRejected
  rw [himmediate, hmem]
  simp

/-- Queue requests: a reference without a host cannot be refused because of the host. -/
theorem cqueueQueueListRejected_sound (h : cqueueQueueListRejected B C a cq.name = true)
    (hq : ConfiguredBy cq queue) : queueListsRejected B C a queue true = true := by
  unfold cqueueQueueListRejected at h
  unfold queueListsRejected
  rw [hq.qname]
  dsimp only at h ⊢
  cases hglobal : (getHardQueueLists a.job).globalHardQueueList with
  | some list =>
    rw [hglobal] at h
    exact qrefListCqRejected_of_cq h _
  | none =>
    rw [hglobal] at h
    simp only [Bool.and_eq_true] at h
    obtain ⟨⟨⟨⟨hpe, hmasterList⟩, hslaveList⟩, hmaster⟩, hslave⟩ := h
    rw [if_pos hpe, qrefListCqRejected_of_cq hmaster, qrefListCqRejected_of_cq hslave]
    rfl

/-! ## Soundness -/

theorem WithoutRequests.resourceListRejected {job : QueuedJob} (h : job.WithoutRequests)
    (ruledOut : ResourceRequest → ClusterQueueConfig → Bool → Bool) (scope : JrsScope) :
    cqueueMatchStaticResourceListRejected ruledOut a cq (job.hardResourceList scope) = false := by
  unfold cqueueMatchStaticResourceListRejected
  split
  · rfl
  · next list hlist =>
      obtain ⟨jrs, hjrs, hjrsList⟩ := Option.bind_eq_some_iff.mp hlist
      have hnil : list = [] := by
        have hempty := h jrs (List.mem_of_find?_eq_some hjrs)
        rwa [hjrsList] at hempty
      rw [hnil]
      rfl

/-- What rejects an instance outside of advance reservations. -/
theorem sgeQueueMatchStatic_neverCat {needMaster : Bool}
    (h : sgeHasAccess C a.who queue.acl queue.xacl a.aclList = false ∨
      queueProjectsRejected a.project queue = true ∨ queueXprojectsRejected a.project queue = true ∨
      queueListsRejected B C a queue needMaster = true ∨ queueTypeRejected a queue = true) :
    sgeQueueMatchStatic B C a queue needMaster = .neverCat := by
  unfold sgeQueueMatchStatic
  split_ifs with _ _ haccess hprojects hxprojects _ hlists htype
  · rfl
  · rfl
  · rfl
  · rfl
  · rfl
  · rfl
  · rfl
  · rfl
  · rfl
  · -- every test was passed
    obtain h | h | h | h | h := h
    · exact absurd (by rw [h]; rfl) haccess
    · exact absurd h hprojects
    · exact absurd h hxprojects
    · exact absurd h hlists
    · exact absurd h htype

theorem cqueueMatchStatic_cases {ruledOut : ResourceRequest → ClusterQueueConfig → Bool → Bool}
    (hjob : a.job.WithoutRequests) (har : a.arId = 0)
    (h : cqueueMatchStatic B C ruledOut cq a = .neverCat) :
    cqueueQueueListRejected B C a cq.name = true ∨ projectCqRejected a.project cq = true ∨
      accessCqRejected C a.who a.aclList cq = true ∨ peCqRejected a.pe cq = true ∨
      (a.job.immediate = true ∧ interactiveCqRejected cq = true) := by
  unfold cqueueMatchStatic at h
  rw [WithoutRequests.resourceListRejected hjob ruledOut .global,
    WithoutRequests.resourceListRejected hjob ruledOut .master] at h
  split_ifs at h with hlists hreserved hglobal hscopes hproject haccess hpe himmediate
  · exact .inl hlists
  · exact absurd hreserved (by rw [har]; exact Bool.false_ne_true)
  · exact hglobal.elim
  · exact absurd hscopes Bool.false_ne_true
  · exact .inr (.inl hproject)
  · exact .inr (.inr (.inl haccess))
  · exact .inr (.inr (.inr (.inl hpe)))
  · exact .inr (.inr (.inr (.inr (Bool.and_eq_true_iff.mp himmediate))))

/-- **Ruling out a cluster queue is sound**: the instance that the cluster queue configures for a
host is rejected, whatever host it is. With acyclic host groups every host has an instance. -/
theorem cqueueMatchStatic_sound {ruledOut : ResourceRequest → ClusterQueueConfig → Bool → Bool}
    (hcq : cq.HasDefaults B) (hjob : a.job.WithoutRequests) (har : a.arId = 0)
    (h : cqueueMatchStatic B C ruledOut cq a = .neverCat) :
    (∀ base fuel queue, selectAttributes B a.hgrpList fuel cq base = some queue →
      sgeQueueMatchStatic B C a queue true = .neverCat) ∧
    (Acyclic (Refers B a.hgrpList) → ∀ base fuel, a.hgrpList.length + 2 ≤ fuel →
      (selectAttributes B a.hgrpList fuel cq base).isSome = true) := by
  constructor
  · intro base fuel queue hqueue
    have hq := selectAttributes_configured hqueue
    apply sgeQueueMatchStatic_neverCat
    obtain hlists | hproject | haccess | hpe | ⟨himmediate, hinteractive⟩ :=
      cqueueMatchStatic_cases hjob har h
    · exact .inr (.inr (.inr (.inl (cqueueQueueListRejected_sound hlists hq))))
    · obtain hprojects | hxprojects := projectCqRejected_sound hproject hq
      · exact .inr (.inl hprojects)
      · exact .inr (.inr (.inl hxprojects))
    · exact .inl (accessCqRejected_sound haccess hq)
    · exact .inr (.inr (.inr (.inr (peCqRejected_sound hpe hq))))
    · exact .inr (.inr (.inr (.inr (interactiveCqRejected_sound himmediate hinteractive hq))))
  · intro hacyclic base fuel hfuel
    exact selectAttributes_isSome hcq hacyclic hfuel

end Soundness

section ClosedQueue

def bareBootstrap : Bootstrap := ⟨false, none⟩

/-- Every pattern matches itself only. -/
def exactComparison : Comparison where
  fnmatch p v := if p = v then 0 else 1
  strcmp s t := if s = t then 0 else 1
  strcasecmp s t := if foldName s = foldName t then 0 else 1
  hostmatch p v := if p = v then 0 else 1
  hostcmp s t := if foldName s = foldName t then 0 else 1

/-- A cluster queue for a project on the hosts of `@g`, and for another one elsewhere. -/
def projectQueue : ClusterQueueConfig where
  name := "all.q".toList
  projects := [⟨hostrefDefault, some ["p1".toList]⟩, ⟨"@g".toList, some ["p2".toList]⟩]
  xprojects := [⟨hostrefDefault, none⟩]
  acl := [⟨hostrefDefault, none⟩]
  xacl := [⟨hostrefDefault, none⟩]
  peList := [⟨hostrefDefault, none⟩]
  qtype := [⟨hostrefDefault, 3⟩]

/-- A job without a project. -/
def projectlessJob : StaticAssignment where
  job := ⟨[⟨.global, none, none⟩], false⟩
  who := ⟨some "u".toList, some "g".toList, none, false⟩
  project := none
  pe := none
  ckpt := none
  slots := 1
  arId := 0
  ar := none
  aclList := []
  centryList := none
  hgrpList := [⟨"@g".toList, ["h1".toList], [], 0⟩]

def unconfigured : MatchedQueue :=
  ⟨"all.q@h1".toList, "all.q".toList, "h1".toList, 0, none, none, none, none, none, none, 0, []⟩

/-- The profile of the group is selected for `h1`, and the instance is rejected. -/
theorem cqueueMatchStatic_sound_projectQueue :
    selectAttributes bareBootstrap projectlessJob.hgrpList 3 projectQueue unconfigured =
      some { unconfigured with projects := some ["p2".toList], qtype := 3 } ∧
    sgeQueueMatchStatic bareBootstrap exactComparison projectlessJob
      { unconfigured with projects := some ["p2".toList], qtype := 3 } true = .neverCat := by
  have hselected : selectAttributes bareBootstrap projectlessJob.hgrpList 3 projectQueue
      unconfigured = some { unconfigured with projects := some ["p2".toList], qtype := 3 } := by
    decide +kernel
  have hdefaults : projectQueue.HasDefaults bareBootstrap := by
    constructor <;> decide +kernel
  have hrejected : cqueueMatchStatic bareBootstrap exactComparison (fun _ _ _ => false)
      projectQueue projectlessJob = .neverCat := by decide +kernel
  refine ⟨hselected, ?_⟩
  exact (cqueueMatchStatic_sound hdefaults (by simp [QueuedJob.WithoutRequests, projectlessJob])
    rfl hrejected).1 unconfigured 3 _ hselected

end ClosedQueue

end ClusterScheduler.Sched
