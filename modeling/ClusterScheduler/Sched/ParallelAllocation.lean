import ClusterScheduler.Sched.AllocationRules

/-!
# Slots for a parallel job

The hosts are visited one after the other, in rounds when the rule is round robin. Each host
says how many slots it and its queue instances have to offer, and the slots taken are put
into the granted list. One of the queue instances has to be suited for the master task.

* `ParallelJob`, `HostOffer`, `ParallelState` — the job, what a host offers on a visit, and
  the attempt between two hosts.
* `minmaxSlots` — how many slots the allocation rules allow on the next host.
* `parallelAllocateQueueSlots` — slots are taken from the queue instances of a host.
* `visitHost`, `visitNext` — the body of the loop, and the loops around it.
* `attemptRun`, `EveryVisit` — visits one after the other, whatever the hosts offer.

What a host offers is arbitrary with every visit; so are the quotas that are computed there.
-/

namespace ClusterScheduler.Sched

/-! ## Data -/

structure QueueInstance where
  qname : String
  host : String
  softViolation : ℕ
  deriving DecidableEq

/-- An element of the granted list. -/
structure GrantedSlots where
  qname : String
  host : String
  slots : ℤ
  deriving DecidableEq

/-- The job with its allocation rules parsed for the slots that are tried. `limitNames` are
the quotas a queue instance counts for, by its full name; each is that of another quota set. -/
structure ParallelJob where
  slots : ℤ
  rules : AllocationRules
  mallocationParsed : ℤ
  allocationParsed : ℤ
  globalSlots : ℤ
  isSoft : Bool
  noRqs : Bool
  haveMasterAndSlaveQueueRequest : Bool
  slaveRejected : String → Bool
  queues : List QueueInstance
  hosts : List String
  limitNames : String → List String
  parsed : parseCheckAllocationRules rules slots = some (mallocationParsed, allocationParsed)
  slots_pos : 0 < slots := by decide
  slots_lt : slots < 2 ^ 31 := by decide
  qnames_nodup : (queues.map (·.qname)).Nodup := by decide
  hosts_nodup : hosts.Nodup := by decide
  limitNames_nodup : ∀ qname, (limitNames qname).Nodup

/-- What `parallel_tag_hosts_queues()` finds on a visit: is the host on a skip list, what the
host and its queue instances offer, which may run the master task, and the quotas that are
computed for the first time. -/
structure HostOffer where
  skipped : Bool
  hostSlots : ℤ
  tag : String → ℕ
  master : String → Bool
  newLimits : List (String × ℤ)

/-- The attempt between two hosts. `firstLimits` are the quotas as they were computed, and
`masterQueue` is the queue instance that was chosen for the master task. -/
structure ParallelState where
  limits : String → Option ℤ
  firstLimits : String → Option ℤ
  gdil : List GrantedSlots
  accuHostSlots : ℤ
  haveMasterHost : Bool
  masterHost : Option String
  masterQueue : Option String
  doRoundRobin : Bool
  lastAccuHostSlots : ℤ
  softViolations : ℕ
  rest : List String

/-! ## Allocation rules -/

/-- The amounts `parallel_get_minmax_slots_for_allocation_rules()` computes. -/
structure MinmaxSlots where
  doRoundRobin : Bool
  minslotsMaster : ℤ
  maxslotsMaster : ℤ
  minslotsSlaves : ℤ
  maxslotsSlaves : ℤ
  minslotsForTagging : ℤ
  maxslotsForTagging : ℤ

section Rules

variable (job : ParallelJob)

def ParallelJob.hasMasterRule : Bool := job.rules.mallocationRule.isSome

/-- The master rule. The slave rule is not used when what it gives is all that is missing. -/
def minmaxMaster (remaining : ℤ) : MinmaxSlots × Bool :=
  let fixed := decide (0 < job.mallocationParsed)
  let roundRobin := decide (job.mallocationParsed = allocRuleRoundrobin)
  ({ doRoundRobin := !fixed && roundRobin
     minslotsMaster := if fixed then job.mallocationParsed else 1
     maxslotsMaster :=
       if fixed then job.mallocationParsed else if roundRobin then 1 else remaining
     minslotsSlaves := 0
     maxslotsSlaves := remaining
     minslotsForTagging := if fixed then job.mallocationParsed else 1
     maxslotsForTagging := if fixed then job.mallocationParsed else remaining },
   if fixed then decide (remaining ≠ job.mallocationParsed)
   else !(roundRobin && decide (remaining = 1)))

/-- The slave rule, on top of the amounts of the master rule if there are some. -/
def minmaxSlaves (m : MinmaxSlots) (haveMasterAllocationRule : Bool) : MinmaxSlots :=
  if 0 < job.allocationParsed then
    { m with
      minslotsForTagging :=
        if haveMasterAllocationRule then min m.minslotsForTagging job.allocationParsed
        else job.allocationParsed
      maxslotsForTagging :=
        if haveMasterAllocationRule then max m.maxslotsForTagging job.allocationParsed
        else job.allocationParsed
      minslotsSlaves := job.allocationParsed
      maxslotsSlaves := job.allocationParsed }
  else if job.allocationParsed = allocRuleRoundrobin then
    { m with doRoundRobin := true, minslotsSlaves := 1, maxslotsSlaves := 1 }
  else { m with minslotsSlaves := 1 }

/-- `parallel_get_minmax_slots_for_allocation_rules()`. -/
def minmaxSlots (haveMasterHost : Bool) (accuSlots : ℤ) : MinmaxSlots :=
  let remaining := job.slots - accuSlots
  if !haveMasterHost && job.hasMasterRule then
    let (m, doSlaveOnly) := minmaxMaster job remaining
    if doSlaveOnly then minmaxSlaves job m true else m
  else
    minmaxSlaves job
      { doRoundRobin := false
        minslotsMaster := 0
        maxslotsMaster := remaining
        minslotsSlaves := 0
        maxslotsSlaves := remaining
        minslotsForTagging := 1
        maxslotsForTagging := remaining } false

end Rules

/-! ## Quotas -/

/-- The first step of `parallel_check_and_debit_rqs_slots()`: how many slots are left. -/
def checkRqsSlots (limits : String → Option ℤ) : List String → ℤ → ℤ
  | [], slots => slots
  | name :: names, slots =>
    let slots := match limits name with
      | some left => min slots left
      | none => 0
    if slots = 0 then 0 else checkRqsSlots limits names slots

/-- Slots are taken from the quotas. -/
def debitRqsSlots (limits : String → Option ℤ) (names : List String) (slots : ℤ) :
    String → Option ℤ :=
  names.foldl (fun limits name => Function.update limits name ((limits name).map (· - slots)))
    limits

/-- `parallel_check_and_debit_rqs_slots()`: the slots that are left, and the quotas. -/
def parallelCheckAndDebitRqsSlots (limits : String → Option ℤ) (names : List String)
    (slots : ℤ) : ℤ × (String → Option ℤ) :=
  let slots := checkRqsSlots limits names slots
  (slots, if slots ≠ 0 then debitRqsSlots limits names slots else limits)

def parallelRevertRqsSlotDebitation (limits : String → Option ℤ) (names : List String)
    (slots : ℤ) : String → Option ℤ := debitRqsSlots limits names (-slots)

/-! ## The queue instances of a host -/

/-- Slots taken from a queue instance, before they are granted. -/
structure QueueSlots where
  isMasterQueue : Bool
  qname : String
  slots : ℤ
  softViolations : ℕ
  deriving DecidableEq

/-- The arguments of an allocation. -/
structure AllocateCall where
  haveMasterHost : Bool
  onlyWithMaster : Bool
  minslots : ℤ
  maxslots : ℤ
  accuHostSlots : ℤ

/-- What an allocation changes. -/
structure AllocateState where
  limits : String → Option ℤ
  gotMasterQueue : Bool
  rqsHslots : ℤ
  queueSlots : List QueueSlots

def minTag (tag : ℕ) (amount : ℤ) : ℤ := min (tag : ℤ) (amount % 2 ^ 32)

section Allocate

variable (job : ParallelJob) (o : HostOffer) (call : AllocateCall)

/-- How many slots are tried. One slot is left for the master task where the queue instance
is not suited for it. -/
def slotsToTry (st : AllocateState) (q : QueueInstance) : ℤ :=
  let slots := minTag (o.tag q.qname) (call.maxslots - st.rqsHslots)
  if !call.haveMasterHost && !st.gotMasterQueue then
    if !o.master q.qname then
      if call.accuHostSlots + st.rqsHslots + slots = job.slots then slots - 1 else slots
    else if job.haveMasterAndSlaveQueueRequest && job.slaveRejected q.qname then min slots 1
    else slots
  else slots

/-- The slots of one queue instance. The master queue comes first. -/
def allocateQueue (st : AllocateState) (q : QueueInstance) : AllocateState :=
  let tried := slotsToTry job o call st q
  let debit := if job.noRqs then (tried, st.limits)
    else parallelCheckAndDebitRqsSlots st.limits (job.limitNames q.qname) tried
  if 0 < debit.1 then
    let isMasterQueue := !st.gotMasterQueue && o.master q.qname
    let qs : QueueSlots :=
      { isMasterQueue := isMasterQueue
        qname := q.qname
        slots := debit.1
        softViolations := if job.isSoft then q.softViolation else 0 }
    { limits := debit.2
      gotMasterQueue := st.gotMasterQueue || isMasterQueue
      rqsHslots := st.rqsHslots + debit.1
      queueSlots := if isMasterQueue then qs :: st.queueSlots else st.queueSlots ++ [qs] }
  else { st with limits := debit.2 }

/-- The queue instances of the host, until there are enough slots. -/
def allocateLoop : List QueueInstance → AllocateState → AllocateState
  | [], st => st
  | q :: queues, st =>
    if o.tag q.qname = 0 then allocateLoop queues st
    else
      let st := allocateQueue job o call st q
      if st.rqsHslots = call.maxslots then st else allocateLoop queues st

def parallelRevertRqs (st : AllocateState) : AllocateState :=
  { st with
    limits := st.queueSlots.foldl (fun limits qs =>
      if job.noRqs then limits
      else parallelRevertRqsSlotDebitation limits (job.limitNames qs.qname) qs.slots) st.limits
    rqsHslots := 0
    queueSlots := [] }

/-- `parallel_allocate_queue_slots()`. The host is of no use without enough slots, or without
a master queue when one is looked for. -/
def parallelAllocateQueueSlots (host : String) (limits : String → Option ℤ)
    (gotMasterQueue : Bool) : AllocateState :=
  let st := allocateLoop job o call (job.queues.filter (·.host = host))
    ⟨limits, gotMasterQueue, 0, []⟩
  if 0 < st.rqsHslots ∧
      (call.onlyWithMaster = true ∧ st.gotMasterQueue = false ∨ st.rqsHslots < call.minslots) then
    parallelRevertRqs job st
  else st

end Allocate

/-! ## The granted list -/

/-- An element is put behind the last one of its host, or at the end. -/
def insertBehindHost (e : GrantedSlots) : List GrantedSlots → List GrantedSlots
  | [] => [e]
  | x :: gdil =>
    if x.host = e.host ∧ gdil.all (·.host ≠ e.host) = true then x :: e :: gdil
    else x :: insertBehindHost e gdil

def parallelAddQueueToGdil (gdil : List GrantedSlots) (e : GrantedSlots) (isMasterQueue : Bool) :
    List GrantedSlots :=
  if isMasterQueue then e :: gdil else insertBehindHost e gdil

/-- Slots are granted, in a new element or in the one of the queue instance. -/
def grantQueueSlots (host : String) (gdil : List GrantedSlots) (qs : QueueSlots) :
    List GrantedSlots :=
  if gdil.any (·.qname = qs.qname) then
    gdil.map fun e => if e.qname = qs.qname then { e with slots := e.slots + qs.slots } else e
  else parallelAddQueueToGdil gdil ⟨qs.qname, host, qs.slots⟩ qs.isMasterQueue

/-! ## The visit of a host -/

section Visit

variable (job : ParallelJob)

/-- The quotas with those that are computed on the visit. -/
def computeLimits (limits : String → Option ℤ) (newLimits : List (String × ℤ)) :
    String → Option ℤ :=
  newLimits.foldl (fun limits p =>
    if limits p.1 = none then Function.update limits p.1 (some p.2) else limits) limits

/-- The quotas after `parallel_tag_hosts_queues()`. Jobs of advance reservations have none. -/
def tagLimits (limits : String → Option ℤ) (o : HostOffer) : String → Option ℤ :=
  if job.noRqs then limits else computeLimits limits o.newLimits

/-- The slots `parallel_tag_hosts_queues()` returns for the host. -/
def tagHostSlots (o : HostOffer) (host : String) (minSlots maxSlots : ℤ) : ℤ :=
  let hslots := min o.hostSlots maxSlots
  if minSlots ≤ hslots then
    min (((job.queues.filter (·.host = host)).map fun q => (o.tag q.qname : ℤ)).sum) hslots
  else hslots

/-- The slots of the host are taken: with the master rule, with the slave rule when it gives
none, or with the one rule there is. The second result tells whether there is a master queue
in the eyes of the caller. -/
def takeHostSlots (o : HostOffer) (host : String) (m : MinmaxSlots) (hslots : ℤ)
    (haveMasterHost : Bool) (accu : ℤ) (limits : String → Option ℤ) : AllocateState × Bool :=
  if !haveMasterHost && decide (0 < m.minslotsMaster) then
    let st := parallelAllocateQueueSlots job o
      ⟨haveMasterHost, true, m.minslotsMaster, min hslots m.maxslotsMaster, accu⟩ host limits
      haveMasterHost
    if st.rqsHslots = 0 ∧ 0 < m.minslotsSlaves then
      -- the caller pretends to have the master task; its own flag is that of the first attempt
      (parallelAllocateQueueSlots job o ⟨true, false, m.minslotsSlaves, min hslots m.maxslotsSlaves,
          accu + m.minslotsMaster⟩ host st.limits true, st.gotMasterQueue)
    else (st, st.gotMasterQueue)
  else
    let st := parallelAllocateQueueSlots job o
      ⟨haveMasterHost, false, m.minslotsSlaves, min hslots m.maxslotsSlaves, accu⟩ host limits
      haveMasterHost
    (st, st.gotMasterQueue)

def grantHostSlots (s : ParallelState) (host : String) (taken : AllocateState × Bool) :
    ParallelState :=
  let (st, gotMasterQueue) := taken
  if 0 < st.rqsHslots then
    { s with
      limits := st.limits
      gdil := st.queueSlots.foldl (grantQueueSlots host) s.gdil
      accuHostSlots := s.accuHostSlots + st.rqsHslots
      haveMasterHost := s.haveMasterHost || gotMasterQueue
      masterHost := if gotMasterQueue && s.masterHost.isNone then some host else s.masterHost
      masterQueue :=
        if s.masterQueue.isSome then s.masterQueue
        else (st.queueSlots.find? (·.isMasterQueue)).map (·.qname)
      softViolations := s.softViolations + (st.queueSlots.map (·.softViolations)).sum }
  else { s with limits := st.limits }

def skipsHost (s : ParallelState) (host : String) (o : HostOffer) : Bool :=
  o.skipped ||
    (s.haveMasterHost && decide (s.masterHost = some host) && decide (0 < job.mallocationParsed))

def visitQueues (s : ParallelState) (host : String) (o : HostOffer) (m : MinmaxSlots) :
    ParallelState :=
  let limits := tagLimits job s.limits o
  let s' := { s with limits := limits, firstLimits := tagLimits job s.firstLimits o }
  let hslots := tagHostSlots job o host m.minslotsForTagging m.maxslotsForTagging
  if m.minslotsForTagging ≤ hslots then
    grantHostSlots s' host
      (takeHostSlots job o host m hslots s.haveMasterHost s.accuHostSlots limits)
  else s'

/-- The body of the host loop. -/
def visitHost (s : ParallelState) (host : String) (o : HostOffer) : ParallelState :=
  let m := minmaxSlots job s.haveMasterHost s.accuHostSlots
  let s := { s with doRoundRobin := m.doRoundRobin }
  if job.queues.any (·.host = host) then visitQueues job s host o m else s

def ParallelState.enough (s : ParallelState) : Bool :=
  decide (job.slots ≤ s.accuHostSlots) && s.haveMasterHost

def nextRound (s : ParallelState) : ParallelState :=
  if s.rest = [] ∧ s.doRoundRobin = true ∧ s.lastAccuHostSlots ≠ s.accuHostSlots then
    { s with rest := job.hosts, lastAccuHostSlots := s.accuHostSlots }
  else s

/-- The next host is visited. Nothing is left to visit when all slots are there. -/
def visitNext (s : ParallelState) (o : HostOffer) : Option ParallelState :=
  match s.rest with
  | [] => none
  | host :: rest =>
    let s := { s with rest := rest }
    if skipsHost job s host o then some (nextRound job s)
    else
      let s := visitHost job s host o
      if s.enough job then some { s with rest := [] } else some (nextRound job s)

/-- The attempt begins. No host is visited when the cluster as a whole has not enough. -/
def ParallelState.init : ParallelState where
  limits := fun _ => none
  firstLimits := fun _ => none
  gdil := []
  accuHostSlots := 0
  haveMasterHost := false
  masterHost := none
  masterQueue := none
  doRoundRobin := false
  lastAccuHostSlots := 0
  softViolations := 0
  rest := if job.globalSlots < job.slots then [] else job.hosts

/-- `DISPATCH_OK`. -/
def ParallelState.isOk (s : ParallelState) : Prop := s.rest = [] ∧ s.enough job = true

def attemptRun (s : ParallelState) : List HostOffer → Option ParallelState
  | [] => some s
  | o :: offers => (visitNext job s o).bind fun s' => attemptRun s' offers

def EveryVisit (P : ParallelState → HostOffer → Prop) (s : ParallelState) : List HostOffer → Prop
  | [] => True
  | o :: offers => P s o ∧ ∀ s', visitNext job s o = some s' → EveryVisit P s' offers

variable {job}

theorem attemptRun_induct {P : ParallelState → HostOffer → Prop} (Inv : ParallelState → Prop)
    (hstep : ∀ s o s', Inv s → P s o → visitNext job s o = some s' → Inv s') {s s' : ParallelState}
    {offers : List HostOffer} (hs : Inv s) (hvisits : EveryVisit job P s offers)
    (hrun : attemptRun job s offers = some s') : Inv s' := by
  induction offers generalizing s with
  | nil => exact Option.some.inj hrun ▸ hs
  | cons o offers ih =>
    obtain ⟨s₁, hnext, hrun⟩ := Option.bind_eq_some_iff.mp hrun
    exact ih (hstep s o s₁ hs hvisits.1 hnext) (hvisits.2 s₁ hnext) hrun

end Visit

end ClusterScheduler.Sched
