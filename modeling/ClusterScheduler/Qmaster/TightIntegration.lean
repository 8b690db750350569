import ClusterScheduler.Sgeobj.JobTasks

/-!
# Tightly integrated parallel jobs

A tightly integrated parallel job is delivered to its slave hosts first and to the host of its
master task when all of them have answered. When the master task has ended, the qmaster waits for
the final reports of the slave hosts. One tag for each host is used in both phases.

* `tagGranted` — the granted list of a start order.
* `sgeGiveJob` — what is sent to the hosts.
* `handleTight` — job reports, and the expiry of the resend timer.
* `TightRun` — what happens after a start order, in any order and any number of times.
* `KeepsPhase` — a slave report does not take the tag of the end for that of the start.
* `tight_run` — in runs with such reports the job starts and ends in step.
-/

namespace ClusterScheduler.Qmaster

open Foundation Sgeobj

/-! ## Data -/

/-- An entry of the granted list. -/
structure TaggedGrant where
  qname : String
  qhostname : String
  tagSlaveJob : ℕ
  deriving DecidableEq, Repr

structure TightTask where
  status : BitVec 32
  gdil : List TaggedGrant
  deriving DecidableEq, Repr

/-- Which hosts can be reached when slave jobs are sent, and whether the job can be prepared for
them at all. -/
structure Delivery where
  prepared : Bool
  reachable : String → Bool

/-- A report that concerns the whole task, or the expiry of the resend timer. A handler that waits
for the lock runs even after the timer was cancelled. -/
inductive TightEvent where
  | slaveReport (rhost : String) (exitStatus : Bool)
  | masterRunning
  | masterExiting
  | resend (queueUnknown : Bool) (delivery : Delivery)

inductive TightAction where
  | sendSlave (host : String)
  | sendMaster
  | jobExit
  | resendNow
  | cancelResend
  | ackJobExit
  | ackSignalSlave
  | ackAllSlaves
  | ackJobReportResend
  | updateRescheduleUnknown
  deriving DecidableEq, Repr

/-! ## Functions of the source -/

def jtransfering : BitVec 32 := 0x200

def jrunning : BitVec 32 := 0x80

def maxMasterTaskFinishBeforeExit : ℕ := 20

def setTagSlaveJob (host : String) (tag : ℕ) : List TaggedGrant → List TaggedGrant
  | [] => []
  | ep :: gdil =>
    if ep.qhostname = host then { ep with tagSlaveJob := tag } :: gdil
    else ep :: setTagSlaveJob host tag gdil

/-- One queue instance of a start order. The host of the first one is the master host. -/
def tagStep (acc : List TaggedGrant × Option String) (granted : String × String) :
    List TaggedGrant × Option String :=
  let gdil := acc.1 ++ [⟨granted.1, granted.2, 0⟩]
  match acc.2 with
  | some masterHost =>
    if masterHost ≠ granted.2 then (setTagSlaveJob granted.2 1 gdil, some masterHost)
    else (gdil, some granted.2)
  | none => (gdil, some granted.2)

/-- The granted list that `sge_follow_order()` builds from queue instances and their hosts. -/
def tagGranted (queueList : List (String × String)) : List TaggedGrant :=
  (queueList.foldl tagStep ([], none)).1

def isPeMasterTaskSend (gdil : List TaggedGrant) : Bool :=
  gdil.all (·.tagSlaveJob = 0)

/-- `hosts` have an entry before those in the list. -/
def allSlavesFinishedFrom (hosts : List String) : List TaggedGrant → Bool
  | [] => true
  | ep :: gdil =>
    (ep.qhostname ∈ hosts || ep.tagSlaveJob ≠ 1) &&
      allSlavesFinishedFrom (ep.qhostname :: hosts) gdil

def allSlaveJobsFinished : List TaggedGrant → Bool
  | [] => true
  | master :: gdil => allSlavesFinishedFrom [master.qhostname] gdil

/-- `hosts` have an entry before those in the list. -/
def tagHostsFrom (hosts : List String) : List TaggedGrant → List TaggedGrant
  | [] => []
  | ep :: gdil =>
    (if ep.qhostname ∈ hosts then ep else { ep with tagSlaveJob := 1 }) ::
      tagHostsFrom (ep.qhostname :: hosts) gdil

def tagAllHostGdil (gdil : List TaggedGrant) : List TaggedGrant :=
  tagHostsFrom [] gdil

/-- Stops at the first tagged host that cannot be reached. -/
def sendSlaveJobsWc (reachable : String → Bool) : List TaggedGrant → List TightAction × ℤ
  | [] => ([], 0)
  | ep :: gdil =>
    if ep.tagSlaveJob = 0 then sendSlaveJobsWc reachable gdil
    else if reachable ep.qhostname then
      let rest := sendSlaveJobsWc reachable gdil
      (.sendSlave ep.qhostname :: rest.1, rest.2)
    else ([], -1)

def sendSlaveJobs (delivery : Delivery) (gdil : List TaggedGrant) : List TightAction × ℤ :=
  if gdil.any (·.tagSlaveJob ≠ 0) then
    if delivery.prepared then sendSlaveJobsWc delivery.reachable gdil else ([], -1)
  else ([], 1)

def sgeGiveJob (delivery : Delivery) (gdil : List TaggedGrant) : List TightAction × ℤ :=
  let sent := sendSlaveJobs delivery gdil
  if sent.2 = 1 then ([.sendMaster], 0) else sent

def tagOf (gdil : List TaggedGrant) (host : String) : Option ℕ :=
  (gdil.find? (·.qhostname = host)).map TaggedGrant.tagSlaveJob

/-- `JSLAVE` -/
def slaveReport (task : TightTask) (rhost : String) (exitStatus : Bool) :
    TightTask × List TightAction :=
  match tagOf task.gdil rhost with
  | none => (task, [.updateRescheduleUnknown, .ackJobExit])
  | some tag =>
    let untagged := { task with gdil := setTagSlaveJob rhost 0 task.gdil }
    if tag = 0 then (task, [])
    else if task.status = jtransfering then
      -- this is taken for the answer to the delivery
      (untagged, if isPeMasterTaskSend untagged.gdil then [.cancelResend, .resendNow] else [])
    else if exitStatus then (untagged, [.ackJobExit])
    else (task, [.ackSignalSlave])

/-- `JWRITTEN`, `JRUNNING` and `JWAITING4OSJID` -/
def masterRunning (task : TightTask) : TightTask × List TightAction :=
  if task.status = jtransfering then ({ task with status := jrunning }, [.cancelResend])
  else (task, [])

def setMasterTag (tag : ℕ) : List TaggedGrant → List TaggedGrant
  | [] => []
  | master :: gdil => { master with tagSlaveJob := tag } :: gdil

def masterTag (gdil : List TaggedGrant) : ℕ :=
  (gdil.head?.map TaggedGrant.tagSlaveJob).getD 0

/-- What an exit report of the master task does to the tags, and what is sent when the end of the
job has to wait. -/
def masterExitTags (gdil : List TaggedGrant) : List TaggedGrant × Option (List TightAction) :=
  if masterTag gdil = 0 then
    (tagAllHostGdil gdil, some [.ackAllSlaves, .ackJobReportResend])
  else if masterTag gdil < maxMasterTaskFinishBeforeExit then
    if allSlaveJobsFinished gdil then (gdil, none)
    else (setMasterTag (masterTag gdil + 1) gdil, some [.ackJobReportResend])
  else (gdil, none)

/-- `JEXITING` -/
def masterExiting (task : TightTask) : TightTask × List TightAction :=
  if task.status = jfinished then (task, [])
  else
    let tags := masterExitTags task.gdil
    let task := { task with gdil := tags.1 }
    match tags.2 with
    | some acks => (task, acks)
    | none =>
      (task, if task.status = jrunning ∨ task.status = jtransfering then [.jobExit] else [])

/-- The timer is started again for a task whose queue cannot be reached. -/
def resendHandler (task : TightTask) (queueUnknown : Bool) (delivery : Delivery) :
    TightTask × List TightAction :=
  if task.status = jtransfering then
    if queueUnknown then (task, []) else (task, (sgeGiveJob delivery task.gdil).1)
  else (task, [])

def handleTight (task : TightTask) : TightEvent → TightTask × List TightAction
  | .slaveReport rhost exitStatus => slaveReport task rhost exitStatus
  | .masterRunning => masterRunning task
  | .masterExiting => masterExiting task
  | .resend queueUnknown delivery => resendHandler task queueUnknown delivery

/-! ## Runs -/

/-- A host of a start order other than that of its first queue instance. -/
def IsSlaveHost (master : String × String) (rest : List (String × String)) (host : String) :
    Prop :=
  host ≠ master.2 ∧ ∃ granted ∈ rest, granted.2 = host

/-- The events that were handled since the start order, each of which meets `C`, and the task.
Nothing is left to do when the job has exited. -/
inductive TightRun (C : List TightEvent → TightTask → TightEvent → Prop)
    (master : String × String) (rest : List (String × String)) :
    List TightEvent → TightTask → Prop
  | start : TightRun C master rest [] ⟨jtransfering, tagGranted (master :: rest)⟩
  | step {log task} (event : TightEvent) (hrun : TightRun C master rest log task)
      (hcond : C log task event) (hopen : .jobExit ∉ (handleTight task event).2) :
      TightRun C master rest (log ++ [event]) (handleTight task event).1

def Arrived (log : List TightEvent) (host : String) : Prop :=
  ∃ exitStatus, .slaveReport host exitStatus ∈ log

/-- The master task has sent an exit report. -/
def MasterEnded (log : List TightEvent) : Prop :=
  .masterExiting ∈ log

/-- The host has sent a final slave report since then. -/
def Finished (log : List TightEvent) (host : String) : Prop :=
  ∃ before after, log = before ++ after ∧ MasterEnded before ∧ .slaveReport host true ∈ after

def TightEvent.isMasterExiting : TightEvent → Bool
  | .masterExiting => true
  | _ => false

def exitReports (log : List TightEvent) : ℕ :=
  log.countP TightEvent.isMasterExiting

/-- When the master task has ended and was never seen running, the tag of a host is only taken away
by the final report of a slave host. -/
def KeepsPhase (master : String × String) (rest : List (String × String))
    (log : List TightEvent) (task : TightTask) : TightEvent → Prop
  | .slaveReport rhost exitStatus =>
    MasterEnded log → task.status = jtransfering →
      (∃ tag, tagOf task.gdil rhost = some tag ∧ tag ≠ 0) →
        exitStatus = true ∧ IsSlaveHost master rest rhost
  | _ => True

/-- What holds after a start order as long as the phases are kept. -/
structure TightInv (master : String × String) (rest : List (String × String))
    (log : List TightEvent) (task : TightTask) : Prop where
  status : task.status = jtransfering ∨ task.status = jrunning
  masterHost : task.gdil.head?.map TaggedGrant.qhostname = some master.2
  tagged : ∀ host, IsSlaveHost master rest host → ∃ tag, tagOf task.gdil host = some tag ∧ tag ≤ 1
  untagged : ∀ host, IsSlaveHost master rest host → tagOf task.gdil host = some 0 →
    Arrived log host ∧ (MasterEnded log → Finished log host)
  masterTag_le : masterTag task.gdil ≤ exitReports log
  masterTag_ne : MasterEnded log → task.status = jtransfering → masterTag task.gdil ≠ 0

/-! ## Tags -/

section Tags

variable {gdil : List TaggedGrant} {host : String}

theorem tagOf_cons (ep : TaggedGrant) (gdil : List TaggedGrant) (host : String) :
    tagOf (ep :: gdil) host =
      if ep.qhostname = host then some ep.tagSlaveJob else tagOf gdil host := by
  unfold tagOf
  rw [List.find?_cons]
  by_cases h : ep.qhostname = host <;> simp [h]

theorem tagOf_append (gdil gdil' : List TaggedGrant) (host : String) :
    tagOf (gdil ++ gdil') host = (tagOf gdil host).or (tagOf gdil' host) := by
  unfold tagOf
  rw [List.find?_append]
  cases gdil.find? (·.qhostname = host) <;> rfl

theorem tagOf_setTagSlaveJob (host : String) (tag : ℕ) (gdil : List TaggedGrant)
    (host' : String) : tagOf (setTagSlaveJob host tag gdil) host' =
      if host' = host then (tagOf gdil host').map fun _ => tag else tagOf gdil host' := by
  induction gdil with
  | nil => exact (ite_self none).symm
  | cons ep gdil ih =>
    unfold setTagSlaveJob
    by_cases hep : ep.qhostname = host
    · rw [if_pos hep, tagOf_cons, tagOf_cons]
      by_cases hhost : host' = host
      · rw [if_pos hhost, if_pos (hep.trans hhost.symm), if_pos (hep.trans hhost.symm)]
        rfl
      · have hne : ¬ ep.qhostname = host' := fun h => hhost (h.symm.trans hep)
        rw [if_neg hhost, if_neg hne, if_neg hne]
    · rw [if_neg hep, tagOf_cons, tagOf_cons, ih]
      by_cases hhost : host' = host
      · have hne : ¬ ep.qhostname = host' := fun h => hep (h.trans hhost)
        rw [if_pos hhost, if_neg hne, if_neg hne, if_pos hhost]
      · rw [if_neg hhost, if_neg hhost]

theorem tagOf_tagHostsFrom (hosts : List String) (gdil : List TaggedGrant) (host : String) :
    tagOf (tagHostsFrom hosts gdil) host =
      if host ∈ hosts then tagOf gdil host else (tagOf gdil host).map fun _ => 1 := by
  induction gdil generalizing hosts with
  | nil => exact (ite_self none).symm
  | cons ep gdil ih =>
    unfold tagHostsFrom
    rw [tagOf_cons, tagOf_cons, ih]
    by_cases hep : ep.qhostname = host
    · by_cases hmem : host ∈ hosts
      · have hmem' : ep.qhostname ∈ hosts := hep ▸ hmem
        rw [if_pos hmem', if_pos hep, if_pos hmem, if_pos hep]
      · have hmem' : ep.qhostname ∉ hosts := hep ▸ hmem
        rw [if_neg hmem', if_pos hep, if_neg hmem, if_pos hep]
        rfl
    · have hhost : (if ep.qhostname ∈ hosts then ep
          else { ep with tagSlaveJob := 1 }).qhostname = ep.qhostname := by
        split <;> rfl
      rw [hhost, if_neg hep, if_neg hep]
      by_cases hmem : host ∈ hosts
      · rw [if_pos hmem, if_pos (.tail _ hmem)]
      · have hmem' : host ∉ ep.qhostname :: hosts := by
          rw [List.mem_cons, not_or]
          exact ⟨fun h => hep h.symm, hmem⟩
        rw [if_neg hmem, if_neg hmem']

theorem tagOf_ne_one_of_finishedFrom {hosts : List String}
    (h : allSlavesFinishedFrom hosts gdil = true) (hhost : host ∉ hosts) :
    tagOf gdil host ≠ some 1 := by
  induction gdil generalizing hosts with
  | nil => exact nofun
  | cons ep gdil ih =>
    unfold allSlavesFinishedFrom at h
    rw [Bool.and_eq_true, Bool.or_eq_true, decide_eq_true_eq, decide_eq_true_eq] at h
    rw [tagOf_cons]
    by_cases hep : ep.qhostname = host
    · rw [if_pos hep]
      have hne := h.1.resolve_left fun hmem => hhost (hep ▸ hmem)
      exact fun h => hne (Option.some.inj h)
    · rw [if_neg hep]
      refine ih h.2 ?_
      rw [List.mem_cons, not_or]
      exact ⟨fun h => hep h.symm, hhost⟩

theorem tagOf_ne_one_of_finished (h : allSlaveJobsFinished gdil = true)
    (hhost : gdil.head?.map TaggedGrant.qhostname ≠ some host) : tagOf gdil host ≠ some 1 := by
  cases gdil with
  | nil => exact nofun
  | cons master gdil =>
    have hne : ¬ master.qhostname = host := fun h => hhost (congrArg some h)
    rw [tagOf_cons, if_neg hne]
    refine tagOf_ne_one_of_finishedFrom h ?_
    rw [List.mem_singleton]
    exact fun h => hne h.symm

theorem tagOf_setMasterTag (tag : ℕ) (hhost : gdil.head?.map TaggedGrant.qhostname ≠ some host) :
    tagOf (setMasterTag tag gdil) host = tagOf gdil host := by
  cases gdil with
  | nil => rfl
  | cons master gdil =>
    have hne : ¬ master.qhostname = host := fun h => hhost (congrArg some h)
    unfold setMasterTag
    rw [tagOf_cons, tagOf_cons, if_neg hne, if_neg hne]

theorem sendSlaveJobsWc_spec (reachable : String → Bool) (gdil : List TaggedGrant) :
    (sendSlaveJobsWc reachable gdil).2 ≠ 1 ∧
      ∀ action ∈ (sendSlaveJobsWc reachable gdil).1, ∃ host, action = .sendSlave host := by
  induction gdil with
  | nil => exact ⟨zero_ne_one, List.forall_mem_nil _⟩
  | cons ep gdil ih =>
    unfold sendSlaveJobsWc
    split_ifs
    · exact ih
    · refine ⟨ih.1, fun action hmem => ?_⟩
      rcases List.mem_cons.mp hmem with rfl | hmem
      · exact ⟨_, rfl⟩
      · exact ih.2 action hmem
    · exact ⟨by decide, List.forall_mem_nil _⟩

variable {delivery : Delivery}

/-- The master task is sent when no entry is tagged, else slave jobs are. -/
theorem mem_sgeGiveJob {action : TightAction} (h : action ∈ (sgeGiveJob delivery gdil).1) :
    (action = .sendMaster ∧ ∀ ep ∈ gdil, ep.tagSlaveJob = 0) ∨
      ∃ host, action = .sendSlave host := by
  obtain ⟨hret, hmem⟩ := sendSlaveJobsWc_spec delivery.reachable gdil
  unfold sgeGiveJob sendSlaveJobs at h
  by_cases htagged : gdil.any (·.tagSlaveJob ≠ 0) = true
  · rw [if_pos htagged] at h
    dsimp only at h
    by_cases hprepared : delivery.prepared = true
    · rw [if_pos hprepared, if_neg hret] at h
      exact .inr (hmem action h)
    · rw [if_neg hprepared] at h
      cases h
  · rw [if_neg htagged] at h
    exact .inl ⟨List.mem_singleton.mp h, by simpa using htagged⟩

theorem untagged_of_sendMaster
    (h : .sendMaster ∈ (sgeGiveJob delivery gdil).1) : ∀ ep ∈ gdil, ep.tagSlaveJob = 0 := by
  rcases mem_sgeGiveJob h with ⟨-, huntagged⟩ | ⟨host, heq⟩
  · exact huntagged
  · cases heq

theorem not_jobExit_sgeGiveJob (delivery : Delivery) (gdil : List TaggedGrant) :
    .jobExit ∉ (sgeGiveJob delivery gdil).1 := by
  intro h
  rcases mem_sgeGiveJob h with ⟨heq, -⟩ | ⟨host, heq⟩ <;> exact absurd heq nofun

theorem tagOf_eq_zero (h : ∀ ep ∈ gdil, ep.tagSlaveJob = 0) {tag : ℕ}
    (htag : tagOf gdil host = some tag) : tag = 0 := by
  obtain ⟨ep, hfind, rfl⟩ := Option.map_eq_some_iff.mp htag
  exact h ep (List.mem_of_find?_eq_some hfind)

/-! ### The entry of the master task -/

theorem head_setTagSlaveJob (host : String) (tag : ℕ) (gdil : List TaggedGrant) :
    (setTagSlaveJob host tag gdil).head?.map TaggedGrant.qhostname =
      gdil.head?.map TaggedGrant.qhostname := by
  cases gdil with
  | nil => rfl
  | cons ep gdil =>
    unfold setTagSlaveJob
    split <;> rfl

theorem head_tagAllHostGdil (gdil : List TaggedGrant) :
    (tagAllHostGdil gdil).head?.map TaggedGrant.qhostname =
      gdil.head?.map TaggedGrant.qhostname := by
  cases gdil <;> rfl

theorem head_setMasterTag (tag : ℕ) (gdil : List TaggedGrant) :
    (setMasterTag tag gdil).head?.map TaggedGrant.qhostname =
      gdil.head?.map TaggedGrant.qhostname := by
  cases gdil <;> rfl

theorem masterTag_setTagSlaveJob_of_ne (tag : ℕ)
    (hhost : gdil.head?.map TaggedGrant.qhostname ≠ some host) :
    masterTag (setTagSlaveJob host tag gdil) = masterTag gdil := by
  cases gdil with
  | nil => rfl
  | cons ep gdil =>
    have hne : ¬ ep.qhostname = host := fun h => hhost (congrArg some h)
    unfold setTagSlaveJob
    rw [if_neg hne]
    rfl

theorem masterTag_setTagSlaveJob_le (host : String) (gdil : List TaggedGrant) :
    masterTag (setTagSlaveJob host 0 gdil) ≤ masterTag gdil := by
  cases gdil with
  | nil => exact le_refl _
  | cons ep gdil =>
    unfold setTagSlaveJob
    split
    · exact Nat.zero_le _
    · exact le_refl _

theorem masterTag_tagAllHostGdil (h : (gdil.head?.map TaggedGrant.qhostname).isSome) :
    masterTag (tagAllHostGdil gdil) = 1 := by
  cases gdil with
  | nil => exact absurd h (by simp)
  | cons ep gdil => rfl

theorem masterTag_setMasterTag_le (tag : ℕ) (gdil : List TaggedGrant) :
    masterTag (setMasterTag tag gdil) ≤ tag := by
  cases gdil with
  | nil => exact Nat.zero_le _
  | cons ep gdil => exact le_refl _

theorem masterTag_setMasterTag_ne (tag : ℕ) (h : masterTag gdil ≠ 0) :
    masterTag (setMasterTag (tag + 1) gdil) ≠ 0 := by
  cases gdil with
  | nil => exact absurd rfl h
  | cons ep gdil => exact Nat.succ_ne_zero tag

theorem exists_tagged_of_masterTag (h : masterTag gdil ≠ 0) : ∃ ep ∈ gdil, ep.tagSlaveJob ≠ 0 := by
  cases gdil with
  | nil => exact absurd rfl h
  | cons ep gdil => exact ⟨ep, .head _, h⟩

/-! ### The start order -/

theorem tagGranted_aux {masterHost : String} (rest : List (String × String))
    (gdil : List TaggedGrant) (hhead : gdil.head?.map TaggedGrant.qhostname = some masterHost) :
    let acc := rest.foldl tagStep (gdil, some masterHost)
    acc.1.head?.map TaggedGrant.qhostname = some masterHost ∧
      masterTag acc.1 = masterTag gdil ∧
      ∀ host, host ≠ masterHost →
        (tagOf gdil host = some 1 ∨ ∃ granted ∈ rest, granted.2 = host) →
          tagOf acc.1 host = some 1 := by
  induction rest generalizing gdil with
  | nil =>
    refine ⟨hhead, rfl, fun host _ h => h.resolve_right ?_⟩
    rintro ⟨granted, hmem, -⟩
    exact List.not_mem_nil hmem
  | cons granted rest ih =>
    rw [List.foldl_cons]
    have hnonempty : gdil ≠ [] := by
      rintro rfl
      cases hhead
    set gdil' := gdil ++ [⟨granted.1, granted.2, 0⟩] with hgdil'
    have hhead' : gdil'.head?.map TaggedGrant.qhostname = some masterHost := by
      rw [hgdil', List.head?_append_of_ne_nil _ hnonempty]
      exact hhead
    have htag' : masterTag gdil' = masterTag gdil := by
      unfold masterTag
      rw [hgdil', List.head?_append_of_ne_nil _ hnonempty]
    have hkeep : ∀ host, tagOf gdil host = some 1 → tagOf gdil' host = some 1 := by
      intro host h
      rw [hgdil', tagOf_append, h]
      rfl
    by_cases hmaster : masterHost = granted.2
    · -- another queue instance on the host of the master task
      have hstep : tagStep (gdil, some masterHost) granted = (gdil', some masterHost) := by
        unfold tagStep
        dsimp only
        rw [if_neg (not_not.mpr hmaster), hmaster]
      rw [hstep]
      obtain ⟨h1, h2, h3⟩ := ih gdil' hhead'
      refine ⟨h1, h2.trans htag', fun host hne h => h3 host hne ?_⟩
      refine h.imp (hkeep host) ?_
      rintro ⟨g, hmem, rfl⟩
      rcases List.mem_cons.mp hmem with rfl | hmem
      · exact absurd hmaster.symm hne
      · exact ⟨g, hmem, rfl⟩
    · have hstep : tagStep (gdil, some masterHost) granted =
          (setTagSlaveJob granted.2 1 gdil', some masterHost) := by
        unfold tagStep
        dsimp only
        rw [if_pos hmaster]
      rw [hstep]
      obtain ⟨h1, h2, h3⟩ := ih (setTagSlaveJob granted.2 1 gdil')
        ((head_setTagSlaveJob _ _ _).trans hhead')
      refine ⟨h1, h2.trans ?_, fun host hne h => h3 host hne ?_⟩
      · rw [masterTag_setTagSlaveJob_of_ne, htag']
        rw [hhead']
        exact fun h => hmaster (Option.some.inj h)
      · rw [tagOf_setTagSlaveJob]
        split
        · rename_i heq
          have hfound : (tagOf gdil' host).isSome := by
            rw [hgdil', tagOf_append, tagOf_cons, if_pos heq.symm]
            cases tagOf gdil host <;> rfl
          obtain ⟨tag, htag⟩ := Option.isSome_iff_exists.mp hfound
          rw [htag]
          exact .inl rfl
        · rename_i heq
          refine h.imp (hkeep host) ?_
          rintro ⟨g, hmem, rfl⟩
          rcases List.mem_cons.mp hmem with rfl | hmem
          · exact absurd rfl heq
          · exact ⟨g, hmem, rfl⟩

theorem tagGranted_spec (master : String × String) (rest : List (String × String)) :
    (tagGranted (master :: rest)).head?.map TaggedGrant.qhostname = some master.2 ∧
      masterTag (tagGranted (master :: rest)) = 0 ∧
      ∀ host, IsSlaveHost master rest host → tagOf (tagGranted (master :: rest)) host = some 1 := by
  obtain ⟨h1, h2, h3⟩ := tagGranted_aux rest [⟨master.1, master.2, 0⟩] rfl
  exact ⟨h1, h2, fun host h => h3 host h.1 (.inr h.2)⟩

end Tags

/-! ## The log -/

section Log

variable {log : List TightEvent} {host : String} {event : TightEvent}

theorem Arrived.snoc (h : Arrived log host) (event : TightEvent) :
    Arrived (log ++ [event]) host := by
  obtain ⟨exitStatus, hmem⟩ := h
  exact ⟨exitStatus, List.mem_append_left _ hmem⟩

theorem Finished.snoc (h : Finished log host) (event : TightEvent) :
    Finished (log ++ [event]) host := by
  obtain ⟨before, after, rfl, hended, hmem⟩ := h
  exact ⟨before, after ++ [event], List.append_assoc _ _ _, hended, List.mem_append_left _ hmem⟩

theorem arrived_report (log : List TightEvent) (host : String) (exitStatus : Bool) :
    Arrived (log ++ [.slaveReport host exitStatus]) host :=
  ⟨exitStatus, List.mem_append_right _ (List.mem_singleton.mpr rfl)⟩

theorem finished_report (h : MasterEnded log) (host : String) :
    Finished (log ++ [.slaveReport host true]) host :=
  ⟨log, _, rfl, h, List.mem_singleton.mpr rfl⟩

theorem MasterEnded.of_snoc (h : MasterEnded (log ++ [event]))
    (hne : event.isMasterExiting = false) : MasterEnded log := by
  rcases List.mem_append.mp h with hmem | hmem
  · exact hmem
  · rw [← List.mem_singleton.mp hmem] at hne
    exact absurd hne (by decide)

theorem exitReports_snoc (log : List TightEvent) (event : TightEvent) :
    exitReports (log ++ [event]) = exitReports log + if event.isMasterExiting then 1 else 0 := by
  unfold exitReports
  rw [List.countP_append, List.countP_singleton]

theorem exitReports_le_snoc (log : List TightEvent) (event : TightEvent) :
    exitReports log ≤ exitReports (log ++ [event]) := by
  rw [exitReports_snoc]
  exact Nat.le_add_right _ _

theorem ended_of_exitReports (h : exitReports log ≠ 0) : MasterEnded log := by
  obtain ⟨event, hmem, hexit⟩ := List.countP_pos_iff.mp (Nat.pos_of_ne_zero h)
  cases event with
  | masterExiting => exact hmem
  | _ => exact absurd hexit Bool.false_ne_true

end Log

/-! ## What a step keeps -/

section Steps

variable {master : String × String} {rest : List (String × String)} {log : List TightEvent}
  {task : TightTask}

theorem TightInv.head_ne (h : TightInv master rest log task) {host : String}
    (hslave : IsSlaveHost master rest host) :
    task.gdil.head?.map TaggedGrant.qhostname ≠ some host := by
  rw [h.masterHost]
  exact fun heq => hslave.1 (Option.some.inj heq).symm

theorem tightInv_start (master : String × String) (rest : List (String × String)) :
    TightInv master rest [] ⟨jtransfering, tagGranted (master :: rest)⟩ := by
  obtain ⟨hhead, hmaster, hslaves⟩ := tagGranted_spec master rest
  refine ⟨.inl rfl, hhead, fun host h => ⟨1, hslaves host h, le_refl _⟩, fun host h h0 => ?_,
    hmaster.le.trans (Nat.zero_le _), fun hended => absurd hended List.not_mem_nil⟩
  rw [hslaves host h] at h0
  exact absurd (Option.some.inj h0) one_ne_zero

variable {event : TightEvent}

theorem TightInv.same_tags (h : TightInv master rest log task) (hne : event.isMasterExiting = false)
    {status : BitVec 32} (hstatus : status = task.status ∨ status = jrunning) :
    TightInv master rest (log ++ [event]) ⟨status, task.gdil⟩ where
  status := by
    rcases hstatus with rfl | rfl
    · exact h.status
    · exact .inr rfl
  masterHost := h.masterHost
  tagged := h.tagged
  untagged host hslave h0 := by
    obtain ⟨harrived, hfinished⟩ := h.untagged host hslave h0
    exact ⟨harrived.snoc event, fun hended => (hfinished (hended.of_snoc hne)).snoc event⟩
  masterTag_le := h.masterTag_le.trans (exitReports_le_snoc log event)
  masterTag_ne hended htransfering := by
    refine h.masterTag_ne (hended.of_snoc hne) ?_
    rcases hstatus with rfl | rfl
    · exact htransfering
    · exact absurd (show jrunning = jtransfering from htransfering) (by decide)

variable {rhost : String} {exitStatus : Bool}

variable (h : TightInv master rest log task)
include h

theorem TightInv.untag
    (hfinished : MasterEnded log → IsSlaveHost master rest rhost → exitStatus = true)
    (hmaster : MasterEnded log → task.status = jtransfering → IsSlaveHost master rest rhost) :
    TightInv master rest (log ++ [.slaveReport rhost exitStatus])
      { task with gdil := setTagSlaveJob rhost 0 task.gdil } where
  status := h.status
  masterHost := (head_setTagSlaveJob _ _ _).trans h.masterHost
  tagged host hslave := by
    obtain ⟨tag, htag, hle⟩ := h.tagged host hslave
    rw [tagOf_setTagSlaveJob, htag]
    split
    · exact ⟨0, rfl, Nat.zero_le 1⟩
    · exact ⟨tag, rfl, hle⟩
  untagged host hslave h0 := by
    rw [tagOf_setTagSlaveJob] at h0
    by_cases hhost : host = rhost
    · subst hhost
      refine ⟨arrived_report _ _ _, fun hended => ?_⟩
      have hended' : MasterEnded log := hended.of_snoc rfl
      rw [hfinished hended' hslave]
      exact finished_report hended' _
    · rw [if_neg hhost] at h0
      obtain ⟨harrived, hfin⟩ := h.untagged host hslave h0
      exact ⟨harrived.snoc _, fun hended => (hfin (hended.of_snoc rfl)).snoc _⟩
  masterTag_le := (masterTag_setTagSlaveJob_le _ _).trans
    (h.masterTag_le.trans (exitReports_le_snoc log _))
  masterTag_ne hended htransfering := by
    have hended' : MasterEnded log := hended.of_snoc rfl
    have hslave := hmaster hended' htransfering
    have hkept := masterTag_setTagSlaveJob_of_ne 0 (h.head_ne hslave)
    rw [hkept]
    exact h.masterTag_ne hended' htransfering

theorem TightInv.step_slaveReport
    (hkeeps : KeepsPhase master rest log task (.slaveReport rhost exitStatus)) :
    TightInv master rest (log ++ [.slaveReport rhost exitStatus])
      (slaveReport task rhost exitStatus).1 := by
  have hsame : TightInv master rest (log ++ [.slaveReport rhost exitStatus]) task :=
    h.same_tags rfl (.inl rfl)
  unfold Qmaster.slaveReport
  cases htag : tagOf task.gdil rhost with
  | none => exact hsame
  | some tag =>
    dsimp only
    by_cases hzero : tag = 0
    · rw [if_pos hzero]
      exact hsame
    · rw [if_neg hzero]
      by_cases htransfering : task.status = jtransfering
      · -- the answer to the delivery, or after the end a report that keeps the phase
        rw [if_pos htransfering]
        have hphase := fun hended => hkeeps hended htransfering ⟨tag, htag, hzero⟩
        exact h.untag (fun hended _ => (hphase hended).1) fun hended _ => (hphase hended).2
      · rw [if_neg htransfering]
        split
        · rename_i hexit
          exact h.untag (fun _ _ => hexit) fun _ ht => absurd ht htransfering
        · exact hsame

theorem TightInv.step_masterExiting (hopen : .jobExit ∉ (masterExiting task).2) :
    TightInv master rest (log ++ [.masterExiting]) (masterExiting task).1 := by
  have hcount : exitReports (log ++ [.masterExiting]) = exitReports log + 1 :=
    exitReports_snoc log .masterExiting
  have hunfinished : task.status ≠ jfinished := by
    rcases h.status with hs | hs <;> rw [hs] <;> decide
  unfold Qmaster.masterExiting masterExitTags at hopen ⊢
  rw [if_neg hunfinished] at hopen ⊢
  by_cases hzero : masterTag task.gdil = 0
  · -- the first report: every host is tagged
    rw [if_pos hzero]
    have htags : ∀ host, IsSlaveHost master rest host →
        tagOf (tagAllHostGdil task.gdil) host = some 1 := by
      intro host hslave
      obtain ⟨tag, htag, -⟩ := h.tagged host hslave
      unfold tagAllHostGdil
      rw [tagOf_tagHostsFrom, if_neg List.not_mem_nil, htag]
      rfl
    have hone : masterTag (tagAllHostGdil task.gdil) = 1 :=
      masterTag_tagAllHostGdil (by rw [h.masterHost]; rfl)
    refine ⟨h.status, (head_tagAllHostGdil _).trans h.masterHost,
      fun host hslave => ⟨1, htags host hslave, le_refl _⟩, fun host hslave h0 => ?_, ?_, ?_⟩
    · rw [htags host hslave] at h0
      exact absurd (Option.some.inj h0) one_ne_zero
    · rw [hcount]
      exact hone.le.trans (Nat.le_add_left _ _)
    · intro _ _
      exact hone.trans_ne one_ne_zero
  · rw [if_neg hzero] at hopen ⊢
    have hended : MasterEnded log :=
      ended_of_exitReports fun h0 => hzero (Nat.le_zero.mp (h0 ▸ h.masterTag_le))
    have hexits : ∀ gdil : List TaggedGrant, .jobExit ∉
        (if ({ task with gdil := gdil } : TightTask).status = jrunning ∨
          ({ task with gdil := gdil } : TightTask).status = jtransfering
        then [TightAction.jobExit] else []) → False := by
      intro gdil hno
      rw [if_pos h.status.symm] at hno
      exact hno (List.mem_singleton.mpr rfl)
    by_cases hmax : masterTag task.gdil < maxMasterTaskFinishBeforeExit
    · rw [if_pos hmax] at hopen ⊢
      split_ifs at hopen ⊢ with hfinished
      · exact absurd hopen (hexits _)
      · refine ⟨h.status, (head_setMasterTag _ _).trans h.masterHost, ?_, ?_, ?_, ?_⟩
        · intro host hslave
          rw [tagOf_setMasterTag _ (h.head_ne hslave)]
          exact h.tagged host hslave
        · intro host hslave h0
          rw [tagOf_setMasterTag _ (h.head_ne hslave)] at h0
          obtain ⟨harrived, hfin⟩ := h.untagged host hslave h0
          exact ⟨harrived.snoc _, fun _ => (hfin hended).snoc _⟩
        · rw [hcount]
          exact (masterTag_setMasterTag_le _ _).trans (Nat.succ_le_succ h.masterTag_le)
        · intro _ _
          exact masterTag_setMasterTag_ne _ hzero
    · rw [if_neg hmax] at hopen ⊢
      exact absurd hopen (hexits _)

theorem TightInv.step (hkeeps : KeepsPhase master rest log task event)
    (hopen : .jobExit ∉ (handleTight task event).2) :
    TightInv master rest (log ++ [event]) (handleTight task event).1 := by
  cases event with
  | slaveReport rhost exitStatus => exact h.step_slaveReport hkeeps
  | masterRunning =>
    show TightInv master rest (log ++ [.masterRunning]) (Qmaster.masterRunning task).1
    unfold Qmaster.masterRunning
    split
    · exact h.same_tags rfl (.inr rfl)
    · exact h.same_tags rfl (.inl rfl)
  | masterExiting => exact h.step_masterExiting hopen
  | resend queueUnknown delivery =>
    have hsame : (handleTight task (.resend queueUnknown delivery)).1 = task := by
      show (resendHandler task queueUnknown delivery).1 = task
      unfold resendHandler
      split_ifs <;> rfl
    rw [hsame]
    exact h.same_tags rfl (.inl rfl)

omit h

theorem TightRun.inv (hrun : TightRun (KeepsPhase master rest) master rest log task) :
    TightInv master rest log task := by
  induction hrun with
  | start => exact tightInv_start master rest
  | step event _ hcond hopen ih => exact ih.step hcond hopen

end Steps

/-! ## Start and end -/

section InStep

variable {master : String × String} {rest : List (String × String)} {log : List TightEvent}
  {task : TightTask}

variable {action : TightAction}

theorem slaveReport_quiet {rhost : String} {exitStatus : Bool}
    (h : action ∈ (slaveReport task rhost exitStatus).2) :
    action ≠ .sendMaster ∧ action ≠ .jobExit := by
  unfold slaveReport at h
  split at h
  · rcases List.mem_pair.mp h with rfl | rfl <;> decide
  · dsimp only at h
    split_ifs at h
    · cases h
    · rcases List.mem_pair.mp h with rfl | rfl <;> decide
    · cases h
    · rw [List.mem_singleton.mp h]
      decide
    · rw [List.mem_singleton.mp h]
      decide

theorem masterRunning_quiet (h : action ∈ (masterRunning task).2) :
    action ≠ .sendMaster ∧ action ≠ .jobExit := by
  unfold masterRunning at h
  split_ifs at h
  · rw [List.mem_singleton.mp h]
    decide
  · cases h

theorem mem_masterExiting (h : action ∈ (masterExiting task).2) :
    action ≠ .sendMaster ∧ (action = .jobExit → (masterExitTags task.gdil).2 = none) := by
  unfold masterExiting at h
  split_ifs at h
  · cases h
  · dsimp only at h
    cases hacks : (masterExitTags task.gdil).2 with
    | none =>
      rw [hacks] at h
      dsimp only at h
      split_ifs at h
      · rw [List.mem_singleton.mp h]
        exact ⟨by decide, fun _ => rfl⟩
      · cases h
    | some acks =>
      rw [hacks] at h
      have hquiet : action ≠ .sendMaster ∧ action ≠ .jobExit := by
        unfold masterExitTags at hacks
        split_ifs at hacks
        · cases hacks
          rcases List.mem_pair.mp h with rfl | rfl <;> decide
        · cases hacks
          rw [List.mem_singleton.mp h]
          decide
      exact ⟨hquiet.1, fun hexit => absurd hexit hquiet.2⟩

theorem mem_resendHandler {queueUnknown : Bool} {delivery : Delivery}
    (h : action ∈ (resendHandler task queueUnknown delivery).2) :
    task.status = jtransfering ∧ action ∈ (sgeGiveJob delivery task.gdil).1 := by
  unfold resendHandler at h
  split_ifs at h with htransfering
  · cases h
  · exact ⟨htransfering, h⟩
  · cases h

variable {event : TightEvent}

theorem TightInv.sendMaster (h : TightInv master rest log task)
    (hsend : .sendMaster ∈ (handleTight task event).2) :
    (∀ host, IsSlaveHost master rest host → Arrived log host) ∧ ¬ MasterEnded log := by
  cases event with
  | slaveReport rhost exitStatus => exact absurd rfl (slaveReport_quiet hsend).1
  | masterRunning => exact absurd rfl (masterRunning_quiet hsend).1
  | masterExiting => exact absurd rfl (mem_masterExiting hsend).1
  | resend queueUnknown delivery =>
    obtain ⟨htransfering, hgive⟩ := mem_resendHandler hsend
    have huntagged := untagged_of_sendMaster hgive
    refine ⟨fun host hslave => ?_, fun hended => ?_⟩
    · obtain ⟨tag, htag, -⟩ := h.tagged host hslave
      obtain rfl : tag = 0 := tagOf_eq_zero huntagged htag
      exact (h.untagged host hslave htag).1
    · obtain ⟨ep, hmem, hne⟩ := exists_tagged_of_masterTag (h.masterTag_ne hended htransfering)
      exact hne (huntagged ep hmem)

theorem TightInv.jobExit (h : TightInv master rest log task)
    (hexit : .jobExit ∈ (handleTight task event).2) :
    (∀ host, IsSlaveHost master rest host → Finished log host) ∨
      maxMasterTaskFinishBeforeExit ≤ exitReports log := by
  cases event with
  | slaveReport rhost exitStatus => exact absurd rfl (slaveReport_quiet hexit).2
  | masterRunning => exact absurd rfl (masterRunning_quiet hexit).2
  | resend queueUnknown delivery =>
    exact absurd (mem_resendHandler hexit).2 (not_jobExit_sgeGiveJob delivery task.gdil)
  | masterExiting =>
    have hnone := (mem_masterExiting hexit).2 rfl
    unfold masterExitTags at hnone
    split_ifs at hnone with hzero hmax hfinished
    · have hended : MasterEnded log :=
        ended_of_exitReports fun h0 => hzero (Nat.le_zero.mp (h0 ▸ h.masterTag_le))
      refine .inl fun host hslave => ?_
      obtain ⟨tag, htag, hle⟩ := h.tagged host hslave
      have hne : tag ≠ 1 := fun h1 =>
        tagOf_ne_one_of_finished hfinished (h.head_ne hslave) (h1 ▸ htag)
      obtain rfl : tag = 0 := by omega
      exact (h.untagged host hslave htag).2 hended
    · exact .inr ((Nat.le_of_not_lt hmax).trans h.masterTag_le)

/-- **A tightly integrated job starts and ends in step**, as long as the phases are kept. -/
theorem tight_run (hrun : TightRun (KeepsPhase master rest) master rest log task) :
    (∀ delivery, .sendMaster ∈ (sgeGiveJob delivery (tagGranted (master :: rest))).1 →
      ∀ host, ¬ IsSlaveHost master rest host) ∧
    ∀ event, (.sendMaster ∈ (handleTight task event).2 →
        (∀ host, IsSlaveHost master rest host → Arrived log host) ∧ ¬ MasterEnded log) ∧
      (.jobExit ∈ (handleTight task event).2 →
        (∀ host, IsSlaveHost master rest host → Finished log host) ∨
          maxMasterTaskFinishBeforeExit ≤ exitReports log) := by
  refine ⟨fun delivery hsend host hslave => ?_, fun event => ?_⟩
  · have htag := (tagGranted_spec master rest).2.2 host hslave
    exact absurd (tagOf_eq_zero (untagged_of_sendMaster hsend) htag) one_ne_zero
  · exact ⟨hrun.inv.sendMaster, hrun.inv.jobExit⟩

end InStep

/-- A slave host answers, and the timer expires: the master task leaves for its host only now. -/
theorem tight_run_twoHosts :
    IsSlaveHost ("all.q@front", "front") [("all.q@node", "node")] "node" ∧
      Arrived [.slaveReport "node" false] "node" ∧ ¬ MasterEnded [.slaveReport "node" false] := by
  have hrun : TightRun (KeepsPhase ("all.q@front", "front") [("all.q@node", "node")])
      ("all.q@front", "front") [("all.q@node", "node")] [.slaveReport "node" false]
      ⟨jtransfering, [⟨"all.q@front", "front", 0⟩, ⟨"all.q@node", "node", 0⟩]⟩ :=
    .step (.slaveReport "node" false) .start (fun hended => absurd hended List.not_mem_nil)
      (by decide +kernel)
  have hslave : IsSlaveHost ("all.q@front", "front") [("all.q@node", "node")] "node" :=
    ⟨by decide, ("all.q@node", "node"), List.mem_singleton_self _, rfl⟩
  obtain ⟨harrived, hended⟩ :=
    ((tight_run hrun).2 (.resend false ⟨true, fun _ => true⟩)).1 (by decide +kernel)
  exact ⟨hslave, harrived "node" hslave, hended⟩

/-- A master task that ends before it was reported running: the slave host still runs its part
when the job exits. -/
theorem not_tight_run :
    ¬ ∀ (master : String × String) (rest : List (String × String)) (log : List TightEvent)
      (task : TightTask), TightRun (fun _ _ _ => True) master rest log task → ∀ event,
        (.sendMaster ∈ (handleTight task event).2 →
          (∀ host, IsSlaveHost master rest host → Arrived log host) ∧ ¬ MasterEnded log) ∧
        (.jobExit ∈ (handleTight task event).2 →
          (∀ host, IsSlaveHost master rest host → Finished log host) ∨
            maxMasterTaskFinishBeforeExit ≤ exitReports log) := by
  intro h
  have hrun : TightRun (fun _ _ _ => True) ("all.q@front", "front") [("all.q@node", "node")]
      [.slaveReport "node" false, .resend false ⟨true, fun _ => true⟩, .masterExiting,
        .slaveReport "node" false]
      ⟨jtransfering, [⟨"all.q@front", "front", 1⟩, ⟨"all.q@node", "node", 0⟩]⟩ :=
    .step (.slaveReport "node" false) (.step .masterExiting
      (.step (.resend false ⟨true, fun _ => true⟩) (.step (.slaveReport "node" false) .start
        trivial (by decide +kernel)) trivial (by decide +kernel)) trivial (by decide +kernel))
      trivial (by decide +kernel)
  rcases (h _ _ _ _ hrun .masterExiting).2 (by decide +kernel) with hfinished | hreports
  · have hslave : IsSlaveHost ("all.q@front", "front") [("all.q@node", "node")] "node" :=
      ⟨by decide, _, List.mem_singleton.mpr rfl, rfl⟩
    obtain ⟨before, after, heq, -, hmem⟩ := hfinished "node" hslave
    have hlog := heq ▸ List.mem_append_right before hmem
    simp at hlog
  · exact absurd hreports (by decide +kernel)

end ClusterScheduler.Qmaster
