import ClusterScheduler.Qmaster.StartOrder

/-!
# Reports of a run that was given up

When a host stops answering, the qmaster starts its tasks elsewhere and notes them for the host.
Reports that still come for the old run must not be taken for reports of the new one.

* `RuElem` — a note, with the state of the protocol between the qmaster and the host.
* `sgeCReport` — a message of the host, with the reports of its jobs.
* `firstState` — what decides about the reports of a task is the first note for it.
* `QuarantineInv` — this note is in one of the three states in which reports are skipped.
* `rescheduled_quarantined` — unless the task ends meanwhile, no report of the old run is processed
  before the host has sent a message without one, and until then the task is not started on the
  host. `not_quarantined_ended` — a task that ends elsewhere is forgotten.
-/

namespace ClusterScheduler.Qmaster

open Foundation Sgeobj

/-! ## Data -/

inductive RuState where
  | skipJrRemove
  | skipJrSendAck
  | skipJr
  | handleJrRemove
  | handleJrWait
  deriving DecidableEq, Repr

structure RuElem where
  jobNumber : ℕ
  taskNumber : ℕ
  state : RuState
  deriving DecidableEq, Repr

def RuElem.isFor (ruep : RuElem) (jobNumber taskNumber : ℕ) : Bool :=
  ruep.jobNumber = jobNumber && ruep.taskNumber = taskNumber

/-- What else changes the list of a host: a note is added, a slave host of a parallel task has
reported its end, or a task has ended or was deleted. -/
inductive RuChange where
  | add (ruep : RuElem)
  | slaveFinished (jobNumber taskNumber : ℕ)
  | remove (jobNumber taskNumber : ℕ)
  deriving DecidableEq, Repr

/-- A job report. `changes` is what it does to the list of the host when it is processed. -/
structure JobReport where
  jobNumber : ℕ
  jaTaskNumber : ℕ
  peTaskIdStr : Option String
  state : BitVec 32
  changes : List RuChange
  deriving DecidableEq, Repr

inductive Report where
  | load
  | fullLoad
  | conf
  | processors
  | job (jrl : List JobReport)
  deriving DecidableEq, Repr

/-- A message of an execution daemon. -/
structure ReportMessage where
  fromExecd : Bool
  versionsMatch : Bool
  seqno : ℕ
  reports : List Report
  deriving DecidableEq, Repr

structure Exechost where
  name : String
  reportSeqno : ℕ
  rescheduleUnknownList : List RuElem
  deriving DecidableEq, Repr

/-- What was sent back because of a skipped report. -/
inductive RuAck where
  | signalJob
  | jobExit
  deriving DecidableEq, Repr

/-- A job report with what `skip_restarted_job()` said about it. -/
structure HandledReport where
  report : JobReport
  fret : ℕ
  ack : Option RuAck
  deriving DecidableEq, Repr

/-! ## Functions of the source -/

def jexiting : BitVec 32 := 0x1000

def addToRescheduleUnknownList (host : Exechost) (jobNumber taskNumber : ℕ) (state : RuState) :
    Exechost :=
  { host with
    rescheduleUnknownList := host.rescheduleUnknownList ++ [⟨jobNumber, taskNumber, state⟩] }

def getFromRescheduleUnknownList (host : Exechost) (jobNumber taskNumber : ℕ) : Option RuElem :=
  host.rescheduleUnknownList.find? (·.isFor jobNumber taskNumber)

/-- The part of `reschedule_job()` that notes a task for the host of its master task. -/
def noteRescheduled (host : Exechost) (jobNumber taskNumber : ℕ) : Exechost :=
  if (getFromRescheduleUnknownList host jobNumber taskNumber).isSome then host
  else addToRescheduleUnknownList host jobNumber taskNumber .skipJrRemove

def deleteFromRescheduleUnknownList (list : List RuElem) : List RuElem :=
  list.filter fun ruep => ruep.state ≠ .skipJrRemove ∧ ruep.state ≠ .handleJrRemove

def updateRescheduleUnknownList (list : List RuElem) : List RuElem :=
  list.map fun ruep =>
    match ruep.state with
    | .skipJrSendAck => { ruep with state := .skipJrRemove }
    | .skipJr => { ruep with state := .skipJrSendAck }
    | _ => ruep

/-- Only the first note for the task is looked at. -/
def skipRestartedJob (jr : JobReport) : List RuElem → List RuElem × ℕ
  | [] => ([], 0)
  | ruep :: list =>
    if ruep.isFor jr.jobNumber jr.jaTaskNumber then
      match ruep.state with
      | .skipJrRemove => ({ ruep with state := .skipJr } :: list, 2)
      | .skipJrSendAck | .skipJr => (ruep :: list, if jr.state = jexiting then 3 else 1)
      | _ => (ruep :: list, 0)
    else
      let rest := skipRestartedJob jr list
      (ruep :: rest.1, rest.2)

def updateRescheduleUnknownListForJob (jobNumber taskNumber : ℕ) : List RuElem → List RuElem
  | [] => []
  | ruep :: list =>
    if ruep.isFor jobNumber taskNumber then
      (if ruep.state = .handleJrWait then { ruep with state := .handleJrRemove } else ruep) ::
        list
    else ruep :: updateRescheduleUnknownListForJob jobNumber taskNumber list

def removeFromRescheduleUnknownList (jobNumber taskNumber : ℕ) (list : List RuElem) :
    List RuElem :=
  list.eraseP (·.isFor jobNumber taskNumber)

def RuChange.apply (list : List RuElem) : RuChange → List RuElem
  | add ruep => list ++ [ruep]
  | slaveFinished jobNumber taskNumber =>
    updateRescheduleUnknownListForJob jobNumber taskNumber list
  | remove jobNumber taskNumber => removeFromRescheduleUnknownList jobNumber taskNumber list

def ruAck : ℕ → Option RuAck
  | 2 => some .signalJob
  | 3 => some .jobExit
  | _ => none

def processJobReports : List RuElem → List JobReport → List RuElem × List HandledReport
  | list, [] => (list, [])
  | list, jr :: jrl =>
    let skipped := skipRestartedJob jr list
    let list := if 0 < skipped.2 then skipped.1 else jr.changes.foldl RuChange.apply skipped.1
    let rest := processJobReports list jrl
    (rest.1, ⟨jr, skipped.2, ruAck skipped.2⟩ :: rest.2)

def sortJobReports (jrl : List JobReport) : List JobReport :=
  jrl.mergeSort fun jr jr' => decide (jr'.peTaskIdStr.getD "" ≤ jr.peTaskIdStr.getD "")

/-- The job reports of a message, in the order in which they are processed. -/
def ReportMessage.jobReports (message : ReportMessage) : List JobReport :=
  message.reports.flatMap fun
    | .job jrl => sortJobReports jrl
    | _ => []

def outdated (thisSeqno lastSeqno : ℕ) : Bool :=
  thisSeqno < lastSeqno && lastSeqno - thisSeqno ≤ 9000 &&
    !(9990 < lastSeqno && thisSeqno < 10)

/-- A message is handled unless it is refused. -/
def sgeCReport (host : Exechost) (message : ReportMessage) :
    Option (Exechost × List HandledReport) :=
  if message.reports.isEmpty then none
  else if !message.fromExecd then none
  else if !message.versionsMatch then none
  else if outdated message.seqno host.reportSeqno then none
  else
    let tagged := updateRescheduleUnknownList host.rescheduleUnknownList
    let processed := processJobReports tagged message.jobReports
    some (⟨host.name, message.seqno, deleteFromRescheduleUnknownList processed.1⟩, processed.2)

/-! ## Runs -/

def JobReport.isFor (jr : JobReport) (jobNumber taskNumber : ℕ) : Prop :=
  jr.jobNumber = jobNumber ∧ jr.jaTaskNumber = taskNumber

def ReportMessage.Reports (message : ReportMessage) (jobNumber taskNumber : ℕ) : Prop :=
  ∃ jr ∈ message.jobReports, jr.isFor jobNumber taskNumber

/-- From a host, the messages that were handled, the changes of its list between them, the job
reports in the messages, and what the host is in the end. -/
inductive HostRun (host₀ : Exechost) :
    List ReportMessage → List RuChange → List HandledReport → Exechost → Prop
  | start : HostRun host₀ [] [] [] host₀
  | message {messages changes log host host' handled} (m : ReportMessage)
      (hrun : HostRun host₀ messages changes log host)
      (hm : sgeCReport host m = some (host', handled)) :
      HostRun host₀ (messages ++ [m]) changes (log ++ handled) host'
  | change {messages changes log host} (c : RuChange)
      (hrun : HostRun host₀ messages changes log host) :
      HostRun host₀ messages (changes ++ [c]) log
        { host with rescheduleUnknownList := c.apply host.rescheduleUnknownList }

/-- No report of another task ends this one. -/
def ReportMessage.Spares (message : ReportMessage) (jobNumber taskNumber : ℕ) : Prop :=
  ∀ jr ∈ message.jobReports, ¬ jr.isFor jobNumber taskNumber →
    .remove jobNumber taskNumber ∉ jr.changes

def StartOrder.Places (order : StartOrder) (env : OrderEnv) (host : Exechost) : Prop :=
  ∃ oep ∈ order.queueList, ∃ qName qep, oep.destQueue = some qName ∧
    env.cqueueListLocateQinstance qName = some qep ∧ qep.qhostname = host.name

/-- The master lists have the host with its notes. -/
def OrderEnv.HasHost (env : OrderEnv) (host : Exechost) : Prop :=
  env.rescheduleUnknownList host.name =
    some (host.rescheduleUnknownList.map fun ruep => (ruep.jobNumber, ruep.taskNumber))

/-! ## The first note for a task -/

def firstState (jobNumber taskNumber : ℕ) (list : List RuElem) : Option RuState :=
  (list.find? (·.isFor jobNumber taskNumber)).map RuElem.state

/-- What the start of a message makes of a state. -/
def RuState.tagged : RuState → RuState
  | skipJrSendAck => skipJrRemove
  | skipJr => skipJrSendAck
  | state => state

def RuState.reported : RuState → RuState
  | skipJrRemove => skipJr
  | state => state

def RuState.fret (jr : JobReport) : RuState → ℕ
  | skipJrRemove => 2
  | skipJrSendAck | skipJr => if jr.state = jexiting then 3 else 1
  | _ => 0

def RuState.finished : RuState → RuState
  | handleJrWait => handleJrRemove
  | state => state

section FirstState

variable {j t : ℕ} {list : List RuElem}

theorem firstState_cons (ruep : RuElem) (list : List RuElem) : firstState j t (ruep :: list) =
    if ruep.isFor j t then some ruep.state else firstState j t list := by
  unfold firstState
  rw [List.find?_cons]
  cases ruep.isFor j t <;> rfl

theorem firstState_isSome : (firstState j t list).isSome ↔ ∃ ruep ∈ list, ruep.isFor j t := by
  unfold firstState
  rw [Option.isSome_map, List.find?_isSome]

variable {ruep : RuElem}

theorem RuElem.isFor_iff : ruep.isFor j t = true ↔ ruep.jobNumber = j ∧ ruep.taskNumber = t := by
  simp [RuElem.isFor]

theorem firstState_append (list list' : List RuElem) :
    firstState j t (list ++ list') = (firstState j t list).or (firstState j t list') := by
  unfold firstState
  rw [List.find?_append]
  cases list.find? (·.isFor j t) <;> rfl

theorem firstState_updateRescheduleUnknownList :
    firstState j t (updateRescheduleUnknownList list) =
      (firstState j t list).map RuState.tagged := by
  induction list with
  | nil => rfl
  | cons ruep list ih =>
    have hcons : updateRescheduleUnknownList (ruep :: list) =
        { ruep with state := ruep.state.tagged } :: updateRescheduleUnknownList list := by
      rcases ruep with ⟨_, _, _ | _ | _ | _ | _⟩ <;> rfl
    rw [hcons, firstState_cons, firstState_cons, ih]
    unfold RuElem.isFor
    split <;> rfl

theorem firstState_deleteFromRescheduleUnknownList {state : RuState}
    (hfirst : firstState j t list = some state) (hremove : state ≠ .skipJrRemove)
    (hhandled : state ≠ .handleJrRemove) :
    firstState j t (deleteFromRescheduleUnknownList list) = some state := by
  induction list with
  | nil => cases hfirst
  | cons ruep list ih =>
    rw [firstState_cons] at hfirst
    unfold deleteFromRescheduleUnknownList
    rw [List.filter_cons]
    split at hfirst
    · rename_i hfor
      obtain rfl : ruep.state = state := Option.some.inj hfirst
      rw [if_pos (by simp [hremove, hhandled]), firstState_cons, if_pos hfor]
    · rename_i hfor
      split
      · rw [firstState_cons, if_neg hfor]
        exact ih hfirst
      · exact ih hfirst

/-- A pass that changes the first note for a task only. -/
theorem firstState_modify {f : List RuElem → List RuElem} {g : RuState → RuState} {j' t' : ℕ}
    (hnil : f [] = []) (hfound : ∀ ruep l, ruep.isFor j' t' = true →
      f (ruep :: l) = { ruep with state := g ruep.state } :: l)
    (hnext : ∀ ruep l, ¬ ruep.isFor j' t' = true → f (ruep :: l) = ruep :: f l)
    (list : List RuElem) :
    firstState j t (f list) =
      if j' = j ∧ t' = t then (firstState j t list).map g else firstState j t list := by
  induction list with
  | nil =>
    rw [hnil]
    exact (ite_self none).symm
  | cons ruep list ih =>
    by_cases hfor : ruep.isFor j' t' = true
    · obtain ⟨hj, ht⟩ := RuElem.isFor_iff.mp hfor
      have hiff : ruep.isFor j t = true ↔ j' = j ∧ t' = t := by
        rw [RuElem.isFor_iff, hj, ht]
      rw [hfound ruep list hfor, firstState_cons, firstState_cons]
      by_cases hsame : j' = j ∧ t' = t
      · have hcase : ruep.isFor j t = true := hiff.mpr hsame
        rw [if_pos hsame, if_pos hcase]
        exact if_pos hcase
      · have hcase : ¬ ruep.isFor j t = true := fun h => hsame (hiff.mp h)
        rw [if_neg hsame, if_neg hcase]
        exact if_neg hcase
    · rw [hnext ruep list hfor, firstState_cons, firstState_cons, ih]
      split_ifs with hruep hsame hsame
      · refine absurd ?_ hfor
        rw [hsame.1, hsame.2]
        exact hruep
      · rfl
      · rfl
      · rfl

theorem skipRestartedJob_found (jr : JobReport)
    (hfor : ruep.isFor jr.jobNumber jr.jaTaskNumber = true) :
    skipRestartedJob jr (ruep :: list) =
      ({ ruep with state := ruep.state.reported } :: list, ruep.state.fret jr) := by
  unfold skipRestartedJob
  rw [if_pos hfor]
  rcases ruep with ⟨_, _, _ | _ | _ | _ | _⟩ <;> rfl

theorem firstState_skipRestartedJob (jr : JobReport) :
    firstState j t (skipRestartedJob jr list).1 =
      if jr.jobNumber = j ∧ jr.jaTaskNumber = t then
        (firstState j t list).map RuState.reported
      else firstState j t list := by
  refine firstState_modify (f := fun l => (skipRestartedJob jr l).1) rfl ?_ ?_ list
  · intro ruep l hfor
    rw [skipRestartedJob_found jr hfor]
  · intro ruep l hfor
    rw [skipRestartedJob, if_neg hfor]

theorem fret_skipRestartedJob (jr : JobReport) :
    (skipRestartedJob jr list).2 =
      ((firstState jr.jobNumber jr.jaTaskNumber list).map (RuState.fret jr)).getD 0 := by
  induction list with
  | nil => rfl
  | cons ruep list ih =>
    rw [firstState_cons]
    split
    · rename_i hfor
      rw [skipRestartedJob_found jr hfor]
      rfl
    · rename_i hfor
      rw [skipRestartedJob, if_neg hfor]
      exact ih

theorem firstState_updateRescheduleUnknownListForJob (j' t' : ℕ) :
    firstState j t (updateRescheduleUnknownListForJob j' t' list) =
      if j' = j ∧ t' = t then (firstState j t list).map RuState.finished
      else firstState j t list := by
  refine firstState_modify (f := updateRescheduleUnknownListForJob j' t') rfl ?_ ?_ list
  · intro ruep l hfor
    unfold updateRescheduleUnknownListForJob
    rw [if_pos hfor]
    rcases ruep with ⟨_, _, _ | _ | _ | _ | _⟩ <;> rfl
  · intro ruep l hfor
    rw [updateRescheduleUnknownListForJob, if_neg hfor]

theorem firstState_removeFromRescheduleUnknownList {j' t' : ℕ} (hne : ¬(j' = j ∧ t' = t)) :
    firstState j t (removeFromRescheduleUnknownList j' t' list) = firstState j t list := by
  unfold removeFromRescheduleUnknownList
  induction list with
  | nil => rfl
  | cons ruep list ih =>
    by_cases hfor : ruep.isFor j' t' = true
    · obtain ⟨rfl, rfl⟩ := RuElem.isFor_iff.mp hfor
      have hother : ¬ ruep.isFor j t = true := fun h => hne (RuElem.isFor_iff.mp h)
      have herase : (ruep :: list).eraseP (·.isFor ruep.jobNumber ruep.taskNumber) = list :=
        List.eraseP_cons_of_pos hfor
      rw [herase, firstState_cons, if_neg hother]
    · have herase : (ruep :: list).eraseP (·.isFor j' t') =
          ruep :: list.eraseP (·.isFor j' t') := List.eraseP_cons_of_neg hfor
      rw [herase, firstState_cons, firstState_cons, ih]

end FirstState

/-! ## Quarantine -/

/-- Reports are skipped in this state. -/
def RuState.Skips (state : RuState) : Prop :=
  state = skipJrRemove ∨ state = skipJrSendAck ∨ state = skipJr

/-- Reports are skipped, and the note outlives the message. -/
def RuState.Heard (state : RuState) : Prop :=
  state = skipJrSendAck ∨ state = skipJr

section Quarantine

variable {j t : ℕ} {list : List RuElem} {state : RuState}

/-- The first note for the task is in a state that meets `P`. -/
def QuarantineInv (P : RuState → Prop) (j t : ℕ) (list : List RuElem) : Prop :=
  ∃ state, firstState j t list = some state ∧ P state

theorem RuState.Heard.skips (h : state.Heard) : state.Skips := .inr h

theorem RuState.Skips.tagged (h : state.Skips) : state.tagged.Skips := by
  rcases h with rfl | rfl | rfl
  · exact .inl rfl
  · exact .inl rfl
  · exact .inr (.inl rfl)

theorem RuState.Skips.reported (h : state.Skips) : state.reported.Heard := by
  rcases h with rfl | rfl | rfl
  · exact .inr rfl
  · exact .inl rfl
  · exact .inr rfl

theorem RuState.Skips.fret_ne (h : state.Skips) (jr : JobReport) : state.fret jr ≠ 0 := by
  rcases h with rfl | rfl | rfl
  · exact two_ne_zero
  all_goals
    unfold RuState.fret
    dsimp only
    split_ifs
    · exact three_ne_zero
    · exact one_ne_zero

theorem RuState.Skips.finished (h : state.Skips) : state.finished = state := by
  rcases h with rfl | rfl | rfl <;> rfl

/-- Other changes come behind the note, or are about other tasks or notes in other states. -/
theorem firstState_apply (hfirst : firstState j t list = some state) (hskips : state.Skips)
    {c : RuChange} (hc : c ≠ .remove j t) : firstState j t (c.apply list) = some state := by
  cases c with
  | add ruep =>
    unfold RuChange.apply
    rw [firstState_append, hfirst]
    rfl
  | slaveFinished j' t' =>
    unfold RuChange.apply
    rw [firstState_updateRescheduleUnknownListForJob, hfirst]
    split
    · rw [Option.map_some, hskips.finished]
    · rfl
  | remove j' t' =>
    unfold RuChange.apply
    rw [firstState_removeFromRescheduleUnknownList, hfirst]
    rintro ⟨rfl, rfl⟩
    exact hc rfl

theorem firstState_foldl_apply (hfirst : firstState j t list = some state)
    (hskips : state.Skips) {changes : List RuChange} (hspares : .remove j t ∉ changes) :
    firstState j t (changes.foldl RuChange.apply list) = some state :=
  List.foldlRecOn (motive := fun l => firstState j t l = some state) changes RuChange.apply hfirst
    fun _ hl _ hmem => firstState_apply hl hskips fun heq => hspares (heq ▸ hmem)

variable {jr : JobReport}

/-- A report of the task is skipped, and the note outlives the message. -/
theorem skipRestartedJob_task (hfor : jr.isFor j t)
    (hfirst : firstState j t list = some state) (hskips : state.Skips) :
    (skipRestartedJob jr list).2 ≠ 0 ∧
      firstState j t (skipRestartedJob jr list).1 = some state.reported := by
  constructor
  · rw [fret_skipRestartedJob, hfor.1, hfor.2, hfirst]
    exact hskips.fret_ne jr
  · rw [firstState_skipRestartedJob, hfirst]
    exact if_pos hfor

/-- Reports of other tasks change nothing, as long as the task is not forgotten. -/
theorem skipRestartedJob_other (hfor : ¬ jr.isFor j t)
    (hfirst : firstState j t list = some state) (hskips : state.Skips)
    (hspares : .remove j t ∉ jr.changes) :
    firstState j t (if 0 < (skipRestartedJob jr list).2 then (skipRestartedJob jr list).1
      else jr.changes.foldl RuChange.apply (skipRestartedJob jr list).1) = some state := by
  have hsame : firstState j t (skipRestartedJob jr list).1 = some state := by
    rw [firstState_skipRestartedJob, hfirst]
    exact if_neg hfor
  split
  · exact hsame
  · exact firstState_foldl_apply hsame hskips hspares

/-- **The reports of a message.** Those of the task are skipped, and after one of them the note
outlives the message. -/
theorem processJobReports_quarantine (hfirst : firstState j t list = some state)
    (hskips : state.Skips) {jrl : List JobReport}
    (hspares : ∀ jr ∈ jrl, ¬ jr.isFor j t → .remove j t ∉ jr.changes) :
    (∀ h ∈ (processJobReports list jrl).2, h.report.isFor j t → h.fret ≠ 0) ∧
      ∃ state', firstState j t (processJobReports list jrl).1 = some state' ∧ state'.Skips ∧
        (state.Heard ∨ (∃ jr ∈ jrl, jr.isFor j t) → state'.Heard) := by
  induction jrl generalizing list state with
  | nil =>
    refine ⟨List.forall_mem_nil _, state, hfirst, hskips, ?_⟩
    rintro (hheard | ⟨jr, hmem, -⟩)
    · exact hheard
    · cases hmem
  | cons jr jrl ih =>
    obtain ⟨hjr, hjrl⟩ := List.forall_mem_cons.mp hspares
    unfold processJobReports
    dsimp only
    by_cases hfor : jr.isFor j t
    · obtain ⟨hne, hnext⟩ := skipRestartedJob_task hfor hfirst hskips
      rw [if_pos (Nat.pos_of_ne_zero hne)]
      obtain ⟨hlog, state', hstate', hskips', hheard'⟩ := ih hnext hskips.reported.skips hjrl
      refine ⟨?_, state', hstate', hskips', fun _ => hheard' (.inl hskips.reported)⟩
      intro h hmem hh
      rcases List.mem_cons.mp hmem with rfl | hmem
      · exact hne
      · exact hlog h hmem hh
    · obtain ⟨hlog, state', hstate', hskips', hheard'⟩ :=
        ih (skipRestartedJob_other hfor hfirst hskips (hjr hfor)) hskips hjrl
      refine ⟨?_, state', hstate', hskips', ?_⟩
      · intro h hmem hh
        rcases List.mem_cons.mp hmem with rfl | hmem
        · exact absurd hh hfor
        · exact hlog h hmem hh
      · rintro (hheard | ⟨jr', hmem, hjr'⟩)
        · exact hheard' (.inl hheard)
        · rcases List.mem_cons.mp hmem with rfl | hmem
          · exact absurd hjr' hfor
          · exact hheard' (.inr ⟨jr', hmem, hjr'⟩)

variable {host : Exechost}

/-- **A message.** With a report of the task in it the note remains. -/
theorem sgeCReport_quarantine {host' : Exechost} {message : ReportMessage}
    {handled : List HandledReport}
    (hinv : QuarantineInv RuState.Skips j t host.rescheduleUnknownList)
    (hm : sgeCReport host message = some (host', handled)) (hreports : message.Reports j t)
    (hspares : message.Spares j t) :
    (∀ h ∈ handled, h.report.isFor j t → h.fret ≠ 0) ∧
      QuarantineInv RuState.Skips j t host'.rescheduleUnknownList := by
  obtain ⟨state, hfirst, hskips⟩ := hinv
  have htagged : firstState j t (updateRescheduleUnknownList host.rescheduleUnknownList) =
      some state.tagged := by
    rw [firstState_updateRescheduleUnknownList, hfirst, Option.map_some]
  obtain ⟨hlog, state', hstate', hskips', hheard⟩ :=
    processJobReports_quarantine htagged hskips.tagged hspares
  unfold sgeCReport at hm
  split_ifs at hm
  cases hm
  refine ⟨hlog, state', ?_, hskips'⟩
  refine firstState_deleteFromRescheduleUnknownList hstate' ?_ ?_
  all_goals
    rintro rfl
    exact absurd (hheard (.inr hreports)) (by simp [RuState.Heard])

theorem HostRun.quarantine {host₀ : Exechost} {messages : List ReportMessage}
    {changes : List RuChange} {log : List HandledReport}
    (hstart : QuarantineInv RuState.Skips j t host₀.rescheduleUnknownList)
    (hrun : HostRun host₀ messages changes log host) (hreports : ∀ m ∈ messages, m.Reports j t)
    (hspares : ∀ m ∈ messages, m.Spares j t) (hchanges : .remove j t ∉ changes) :
    (∀ h ∈ log, h.report.isFor j t → h.fret ≠ 0) ∧
      QuarantineInv RuState.Skips j t host.rescheduleUnknownList := by
  induction hrun with
  | start => exact ⟨List.forall_mem_nil _, hstart⟩
  | message m _ hm ih =>
    obtain ⟨hreports, hreports'⟩ := List.forall_mem_append.mp hreports
    obtain ⟨hspares, hspares'⟩ := List.forall_mem_append.mp hspares
    obtain ⟨hlog, hinv⟩ := ih hreports hspares hchanges
    obtain ⟨hhandled, hinv'⟩ := sgeCReport_quarantine hinv hm
      (hreports' m (.head _)) (hspares' m (.head _))
    refine ⟨fun h hmem => ?_, hinv'⟩
    rcases List.mem_append.mp hmem with hmem | hmem
    · exact hlog h hmem
    · exact hhandled h hmem
  | change c _ ih =>
    obtain ⟨hearlier, hc⟩ := not_or.mp (mt List.mem_append.mpr hchanges)
    obtain ⟨hlog, state, hfirst, hskips⟩ := ih hreports hspares hearlier
    have hne : c ≠ .remove j t := fun heq => hc (List.mem_singleton.mpr heq.symm)
    exact ⟨hlog, state, firstState_apply hfirst hskips hne, hskips⟩

end Quarantine

/-! ## Start orders -/

section Orders

variable {σ : Sorter} {env : OrderEnv} {order : StartOrder} {host : Exechost}

theorem checkQueues_ok {gdil : List Consumables.Granted} {queueList : List OrderQueue}
    (h : checkQueues env order queueList = .ok gdil) :
    ∀ oep ∈ queueList, ∃ granted, checkQueue env order oep = .ok granted := by
  induction queueList generalizing gdil with
  | nil => exact List.forall_mem_nil _
  | cons o queueList ih =>
    rw [checkQueues] at h
    cases ho : checkQueue env order o with
    | error refusal =>
      rw [ho] at h
      cases h
    | ok granted =>
      rw [ho] at h
      cases hrest : checkQueues env order queueList with
      | error refusal =>
        rw [hrest] at h
        cases h
      | ok rest =>
        intro oep hmem
        rcases List.mem_cons.mp hmem with rfl | hmem
        · exact ⟨granted, ho⟩
        · exact ih hrest oep hmem

variable {jep : OrderJob}

theorem checkQueues_of_delivered (h : (sgeFollowOrder σ env order jep).ret = none) :
    ∃ gdil, checkQueues env order order.queueList = .ok gdil := by
  cases hqueues : checkQueues env order order.queueList with
  | ok gdil => exact ⟨gdil, rfl⟩
  | error refusal =>
    have hgranted : ∀ enrolledTask jep,
        (followGranted σ env order enrolledTask jep).ret ≠ none := by
      intro enrolledTask jep
      unfold followGranted
      split
      · exact nofun
      · rw [hqueues]
        exact nofun
    have htask : ∀ enrolledTask jaTask jep,
        (followTask σ env order enrolledTask jaTask jep).ret ≠ none := by
      intro enrolledTask jaTask jep
      unfold followTask
      split_ifs
      · exact nofun
      · exact nofun
      · exact hgranted _ _
    have hjob : ∀ jep, (followJob σ env order jep).ret ≠ none := by
      intro jep
      unfold followJob
      split
      · exact htask _ _ _
      · split_ifs
        · exact htask _ _ _
        · exact nofun
        · exact nofun
    unfold sgeFollowOrder at h
    split_ifs at h
    exact absurd h (hjob jep)

theorem checkQueue_noted {oep : OrderQueue} {qName : String} {qep : OrderQinstance}
    {granted : Consumables.Granted} (hdest : oep.destQueue = some qName)
    (hlocate : env.cqueueListLocateQinstance qName = some qep) (hhost : qep.qhostname = host.name)
    (henv : env.HasHost host)
    (hnoted : ∃ ruep ∈ host.rescheduleUnknownList, ruep.isFor order.jobNumber order.jaTaskNumber) :
    checkQueue env order oep ≠ .ok granted := by
  obtain ⟨ruep, hmem, hfor⟩ := hnoted
  obtain ⟨hj, ht⟩ := RuElem.isFor_iff.mp hfor
  have hpair : (order.jobNumber, order.jaTaskNumber) ∈
      host.rescheduleUnknownList.map fun ruep => (ruep.jobNumber, ruep.taskNumber) :=
    List.mem_map.mpr ⟨ruep, hmem, by rw [hj, ht]⟩
  unfold checkQueue
  rw [hdest]
  dsimp only
  rw [hlocate]
  dsimp only
  rw [hhost, henv]
  dsimp only
  rw [if_pos hpair]
  split_ifs <;> exact nofun

theorem start_refused_noted (hplaces : order.Places env host) (henv : env.HasHost host)
    (hnoted : ∃ ruep ∈ host.rescheduleUnknownList, ruep.isFor order.jobNumber order.jaTaskNumber) :
    (sgeFollowOrder σ env order jep).ret ≠ none := by
  intro hdelivered
  obtain ⟨oep, hmem, qName, qep, hdest, hlocate, hhost⟩ := hplaces
  obtain ⟨gdil, hok⟩ := checkQueues_of_delivered hdelivered
  obtain ⟨granted, hgranted⟩ := checkQueues_ok hok oep hmem
  exact checkQueue_noted hdest hlocate hhost henv hnoted hgranted

end Orders

/-- **Reports of a run that was given up are quarantined.** A task without a note is noted for the
host. As long as every message of the host has a report of the task, and the task does not end, all
these reports are skipped and a note remains; and while a note remains no order starts the task on
the host. -/
theorem rescheduled_quarantined {host₀ host : Exechost} {j t : ℕ} {messages : List ReportMessage}
    {changes : List RuChange} {log : List HandledReport}
    (hnone : getFromRescheduleUnknownList host₀ j t = none)
    (hrun : HostRun (noteRescheduled host₀ j t) messages changes log host) :
    ((∀ m ∈ messages, m.Reports j t) → (∀ m ∈ messages, m.Spares j t) → .remove j t ∉ changes →
      (∀ h ∈ log, h.report.isFor j t → h.fret ≠ 0) ∧
        ∃ ruep ∈ host.rescheduleUnknownList, ruep.isFor j t) ∧
    ((∃ ruep ∈ host.rescheduleUnknownList, ruep.isFor j t) →
      ∀ σ env order jep, order.jobNumber = j → order.jaTaskNumber = t →
        order.Places env host → env.HasHost host →
        (sgeFollowOrder σ env order jep).ret ≠ none) := by
  constructor
  · intro hreports hspares hchanges
    have hstart : QuarantineInv RuState.Skips j t
        (noteRescheduled host₀ j t).rescheduleUnknownList := by
      refine ⟨.skipJrRemove, ?_, .inl rfl⟩
      have hfirst : firstState j t host₀.rescheduleUnknownList = none := by
        unfold firstState
        unfold getFromRescheduleUnknownList at hnone
        rw [hnone]
        rfl
      unfold noteRescheduled
      rw [hnone, if_neg (by simp)]
      unfold addToRescheduleUnknownList
      rw [firstState_append, hfirst, firstState_cons, if_pos (RuElem.isFor_iff.mpr ⟨rfl, rfl⟩)]
      rfl
    obtain ⟨hlog, state, hfirst, -⟩ := hrun.quarantine hstart hreports hspares hchanges
    exact ⟨hlog, firstState_isSome.mp (by rw [hfirst]; rfl)⟩
  · rintro hnoted σ env order jep rfl rfl hplaces henv
    exact start_refused_noted hplaces henv hnoted

/-- A message with a report of task 1 of job 1, which still runs. -/
def runningReport (seqno : ℕ) : ReportMessage :=
  ⟨true, true, seqno, [.load, .job [⟨1, 1, none, 0x80, []⟩]]⟩

theorem reports_runningReport (seqno : ℕ) : (runningReport seqno).Reports 1 1 :=
  ⟨⟨1, 1, none, 0x80, []⟩, by simp [runningReport, ReportMessage.jobReports, sortJobReports], rfl,
    rfl⟩

/-- A host that reports a task which was started elsewhere meanwhile, while another one ends. -/
theorem rescheduled_quarantined_reported :
    ∃ ruep ∈ (⟨"node", 7, [⟨1, 1, .skipJr⟩]⟩ : Exechost).rescheduleUnknownList,
      ruep.isFor 1 1 := by
  have hrun : HostRun (noteRescheduled ⟨"node", 6, [⟨2, 1, .skipJr⟩]⟩ 1 1) [runningReport 7]
      [.remove 2 1] [⟨⟨1, 1, none, 0x80, []⟩, 2, some .signalJob⟩]
      ⟨"node", 7, [⟨1, 1, .skipJr⟩]⟩ :=
    .message _ (.change (.remove 2 1) .start) (by decide +kernel)
  have hreports : ∀ m ∈ [runningReport 7], m.Reports 1 1 :=
    List.forall_mem_singleton.mpr (reports_runningReport 7)
  have hspares : ∀ m ∈ [runningReport 7], m.Spares 1 1 := by
    refine List.forall_mem_singleton.mpr fun jr hmem _ => ?_
    obtain rfl : jr = ⟨1, 1, none, 0x80, []⟩ := by
      simpa [runningReport, ReportMessage.jobReports, sortJobReports] using hmem
    exact List.not_mem_nil
  exact ((rescheduled_quarantined rfl hrun).1 hreports hspares (by decide)).2

/-- The task is started elsewhere and ends there: the host still reports its own run of it, and the
report is taken for one of a task like any other. -/
theorem not_quarantined_ended : ∃ (host₀ host : Exechost) (messages : List ReportMessage)
    (changes : List RuChange) (log : List HandledReport),
    getFromRescheduleUnknownList host₀ 1 1 = none ∧
      HostRun (noteRescheduled host₀ 1 1) messages changes log host ∧
      (∀ m ∈ messages, m.Reports 1 1) ∧ (∃ h ∈ log, h.report.isFor 1 1 ∧ h.fret = 0) ∧
      ¬ ∃ ruep ∈ host.rescheduleUnknownList, ruep.isFor 1 1 := by
  have hskipped : HostRun (noteRescheduled ⟨"node", 6, []⟩ 1 1) [runningReport 7] []
      [⟨⟨1, 1, none, 0x80, []⟩, 2, some .signalJob⟩] ⟨"node", 7, [⟨1, 1, .skipJr⟩]⟩ :=
    .message _ .start (by decide +kernel)
  have hprocessed : sgeCReport ⟨"node", 7, []⟩ (runningReport 8) =
      some (⟨"node", 8, []⟩, [⟨⟨1, 1, none, 0x80, []⟩, 0, none⟩]) := by
    decide +kernel
  have hrun : HostRun (noteRescheduled ⟨"node", 6, []⟩ 1 1) [runningReport 7, runningReport 8]
      [.remove 1 1]
      [⟨⟨1, 1, none, 0x80, []⟩, 2, some .signalJob⟩, ⟨⟨1, 1, none, 0x80, []⟩, 0, none⟩]
      ⟨"node", 8, []⟩ :=
    (hskipped.change (.remove 1 1)).message _ hprocessed
  refine ⟨_, _, _, _, _, rfl, hrun, ?_, ⟨_, .tail _ (.head _), ⟨rfl, rfl⟩, rfl⟩, ?_⟩
  · exact List.forall_mem_cons.mpr ⟨reports_runningReport 7,
      List.forall_mem_singleton.mpr (reports_runningReport 8)⟩
  · rintro ⟨ruep, hmem, -⟩
    exact absurd hmem List.not_mem_nil

end ClusterScheduler.Qmaster
