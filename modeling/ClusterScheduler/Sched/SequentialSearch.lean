import ClusterScheduler.Sched.AllocationRules
import ClusterScheduler.Sched.UtilizationBelow

/-!
# The search for a queue instance

A sequential job needs one slot in one queue instance. The queue instances are visited in the
order of the list, and those that cannot be better than the best one so far are left out.

* `SequentialAssignment` — the job, the queue instances, and what the static matches and the
  three layers say about them.
* `sequentialTagQueuesSuitable4job` — the loop over the queue instances, which tags them.
* `sgeSequentialAssignment` — the choice among the tagged ones.

There are no resource quotas, no advance reservation and no category cache.
-/

namespace ClusterScheduler.Sched

/-! ## Data -/

/-- A queue instance: its full name, its cluster queue and its host. -/
structure SequentialQueue where
  qname : String
  cqname : String
  host : String
  deriving DecidableEq

/-- What a layer says: the result, the earliest time, and the soft violations so far. -/
structure LayerResult where
  result : Dispatch
  time : ℕ
  violations : ℕ
  deriving DecidableEq

def LayerResult.passes (r : LayerResult) : Bool :=
  r.result == .ok || r.result == .missingAttr

/-- The assignment. Violations never decrease from the global layer to the host and to the
queue instance, and there are none without soft requests. `DISPATCH_NEVER` is an error that no
layer reports. -/
structure SequentialAssignment where
  isReservation : Bool
  isSoft : Bool
  queues : List SequentialQueue
  globalTime : LayerResult
  hostTime : String → LayerResult
  queueTime : String → LayerResult
  cqueueMatchStatic : String → Bool
  hostKnown : String → Bool
  ehRejected : String → Bool
  hostMatchStatic : String → Dispatch
  queueMatchStatic : String → Bool
  qnames_nodup : (queues.map (·.qname)).Nodup
  host_violations : ∀ host, globalTime.violations ≤ (hostTime host).violations
  queue_violations : ∀ q ∈ queues, (hostTime q.host).violations ≤ (queueTime q.qname).violations
  violations_lt : ∀ qname, (queueTime qname).violations < 2 ^ 31
  violations_hard : isSoft = false → ∀ qname, (queueTime qname).violations = 0
  global_le : globalTime.time ≤ uint64Max
  host_le : ∀ host, (hostTime host).time ≤ uint64Max
  queue_le : ∀ qname, (queueTime qname).time ≤ uint64Max
  hostMatch_ne : ∀ host, hostMatchStatic host ≠ .never
  host_ne : ∀ host, (hostTime host).result ≠ .never
  queue_ne : ∀ qname, (queueTime qname).result ≠ .never

/-- The fields of a queue instance that are written: `QU_tag`, `QU_available_at` and
`QU_soft_violation`. They keep what an earlier search left. -/
structure QueueTags where
  tag : ℕ
  availableAt : ℕ
  softViolation : ℕ
  deriving DecidableEq

/-- What the loop keeps between two queue instances. -/
structure SequentialState where
  skipCqueues : List String
  skipHosts : List String
  unclearCqueues : List String
  unclearHosts : List String
  bestQueueResult : Dispatch
  tags : String → QueueTags
  gotSolution : Bool
  ttBest : ℕ
  violationsBest : ℕ
  bestQep : Option String
  bestQepTt : ℕ
  bestQepViolations : ℕ

def uint32Max : ℕ := 2 ^ 32 - 1

def findBestResult (r₁ r₂ : Dispatch) : Dispatch :=
  if r₁ = .never ∨ r₂ = .never then .never
  else if r₁ = .ok ∨ r₂ = .ok then .ok
  else if r₁ = .notAtTime ∨ r₂ = .notAtTime then .notAtTime
  else if r₁ = .neverJob ∨ r₂ = .neverJob then .neverJob
  else if r₁ = .neverCat ∨ r₂ = .neverCat then .neverCat
  else if r₁ = .missingAttr ∨ r₂ = .missingAttr then .missingAttr
  else .never

section Search

variable (a : SequentialAssignment)

def isNotBetter (violaBest ttBest violaThis ttThis : ℕ) : Bool :=
  (a.isReservation && decide (ttBest ≤ ttThis)) ||
    (!a.isReservation && decide (violaBest ≤ violaThis))

def SequentialState.cuts (s : SequentialState) (violations time : ℕ) : Bool :=
  s.gotSolution && isNotBetter a s.violationsBest s.ttBest violations time

def SequentialState.setTag (s : SequentialState) (qname : String) (tag : ℕ) : SequentialState :=
  { s with tags := Function.update s.tags qname { s.tags qname with tag := tag } }

/-- The tag of the best queue instance so far is taken away, if there is one. -/
def SequentialState.untagBest (s : SequentialState) : SequentialState :=
  match s.bestQep with
  | none => s
  | some qname => s.setTag qname 0

def SequentialState.addResult (s : SequentialState) (result : Dispatch) : SequentialState :=
  { s with bestQueueResult := findBestResult result s.bestQueueResult }

/-! ## One queue instance

The steps end with `.error` where the loop continues with the next queue instance. -/

/-- Skip lists and, without quotas, a quota time of zero. -/
def foreclose (s : SequentialState) (q : SequentialQueue) :
    Except SequentialState SequentialState :=
  if q.cqname ∈ s.skipCqueues ∨ q.host ∈ s.skipHosts ∨ s.cuts a 0 0 = true then .error s
  else .ok s

/-- Static matching of the cluster queue. -/
def matchCqueue (s : SequentialState) (q : SequentialQueue) :
    Except SequentialState SequentialState :=
  if q.cqname ∈ s.unclearCqueues then .ok s
  else if a.cqueueMatchStatic q.cqname then
    .ok { s with unclearCqueues := q.cqname :: s.unclearCqueues }
  else
    .error ({ s with skipCqueues := q.cqname :: s.skipCqueues }.addResult .neverCat)

def matchHost (s : SequentialState) (q : SequentialQueue) :
    Except SequentialState SequentialState :=
  if a.hostKnown q.host = false then .error s
  else if q.host ∈ s.unclearHosts then .ok s
  else if a.ehRejected q.host then
    .error ({ s with skipHosts := q.host :: s.skipHosts }.addResult .neverCat)
  else if a.hostMatchStatic q.host ≠ .ok then
    .error ({ s with skipHosts := q.host :: s.skipHosts }.addResult (a.hostMatchStatic q.host))
  else .ok { s with unclearHosts := q.host :: s.unclearHosts }

def matchQueue (s : SequentialState) (q : SequentialQueue) :
    Except SequentialState SequentialState :=
  if a.queueMatchStatic q.qname then .ok s else .error (s.addResult .neverCat)

def matchHostTime (s : SequentialState) (q : SequentialQueue) :
    Except SequentialState SequentialState :=
  let r := a.hostTime q.host
  if r.passes = false then
    .error ({ s with skipHosts := q.host :: s.skipHosts }.addResult r.result)
  else if s.cuts a r.violations r.time then
    .error { s with skipHosts := q.host :: s.skipHosts }
  else .ok s

/-- Dynamic matching of the queue instance, which remembers its violations. -/
def matchQueueTime (s : SequentialState) (q : SequentialQueue) :
    Except SequentialState SequentialState :=
  let r := a.queueTime q.qname
  if r.result ≠ .ok then .error (s.addResult r.result)
  else
    let s := { s with
      tags := Function.update s.tags q.qname
        { s.tags q.qname with softViolation := r.violations } }
    if s.cuts a r.violations r.time then .error s else .ok s

def SequentialAssignment.start (q : SequentialQueue) : ℕ :=
  max (a.queueTime q.qname).time (max (a.hostTime q.host).time a.globalTime.time)

/-- Is no better queue instance to be expected? -/
def foundQueue (q : SequentialQueue) (violations : ℕ) : Bool :=
  if a.isReservation then
    decide (max (a.queueTime q.qname).time (a.hostTime q.host).time ≤ a.globalTime.time) &&
      !a.isSoft
  else !a.isSoft || decide (violations = 0)

/-- With soft requests only the best queue instance keeps its tag. -/
def compareQueue (s : SequentialState) (qname : String) (tt violations : ℕ) : SequentialState :=
  let better :=
    if a.isReservation then
      decide (tt < s.bestQepTt) ||
        (decide (tt = s.bestQepTt) && decide (violations < s.bestQepViolations))
    else decide (violations < s.bestQepViolations)
  if better then
    { s.untagBest with
      bestQep := some qname
      bestQepTt := if a.isReservation then tt else s.bestQepTt
      bestQepViolations := violations }
  else s.setTag qname 0

/-- The queue instance is suitable. The second result tells whether the loop is left. -/
def acceptQueue (s : SequentialState) (q : SequentialQueue) : SequentialState × Bool :=
  let tt := if a.isReservation then a.start q else 0
  let violations := if a.isSoft then (s.tags q.qname).softViolation else 0
  let s := { s with
    tags := Function.update s.tags q.qname
      { s.tags q.qname with
        tag := 1
        availableAt := if a.isReservation then tt else (s.tags q.qname).availableAt }
    bestQueueResult := .ok }
  if foundQueue a q violations then (s.untagBest, true)
  else
    let s := if a.isSoft then compareQueue a s q.qname tt violations else s
    ({ s with gotSolution := true, violationsBest := violations, ttBest := tt }, false)

/-- The steps before a queue instance is suitable. -/
def matchSteps (s : SequentialState) (q : SequentialQueue) :
    Except SequentialState SequentialState := do
  let s ← foreclose a (s.setTag q.qname 0) q
  let s ← matchCqueue a s q
  let s ← matchHost a s q
  let s ← matchQueue a s q
  let s ← matchHostTime a s q
  matchQueueTime a s q

/-- The body of the loop. -/
def visitQueue (s : SequentialState) (q : SequentialQueue) : SequentialState × Bool :=
  match matchSteps a s q with
  | .error s => (s, false)
  | .ok s => acceptQueue a s q

/-! ## The search -/

/-- The loop over the queue instances. -/
def visitQueueList (s : SequentialState) : List SequentialQueue → SequentialState
  | [] => s
  | q :: queues =>
    if (visitQueue a s q).2 then (visitQueue a s q).1
    else visitQueueList (visitQueue a s q).1 queues

/-- What is there before the search: the skip lists of the assignment and the tags. -/
structure SequentialStart where
  skipCqueues : List String
  skipHosts : List String
  tags : String → QueueTags

def SequentialState.init (s₀ : SequentialStart) : SequentialState where
  skipCqueues := s₀.skipCqueues
  skipHosts := s₀.skipHosts
  unclearCqueues := []
  unclearHosts := []
  bestQueueResult := .neverCat
  tags := s₀.tags
  gotSolution := false
  ttBest := uint64Max
  violationsBest := uint32Max
  bestQep := none
  bestQepTt := uint64Max
  bestQepViolations := uint32Max

def sequentialTagQueuesSuitable4job (s₀ : SequentialStart) :
    Dispatch × (String → QueueTags) :=
  if a.globalTime.passes = false then (a.globalTime.result, s₀.tags)
  else
    let s := visitQueueList a (.init s₀) a.queues
    (s.bestQueueResult, s.tags)

/-- The best of the tagged queue instances so far, its time, and its violations. -/
structure BestQueue where
  queue : Option SequentialQueue
  jobStartTime : ℕ
  minSoftViolations : ℕ

/-- A tagged queue instance is better when it is available earlier, or at the same time with
fewer soft violations. -/
def betterQueue (tags : String → QueueTags) (best : BestQueue) (q : SequentialQueue) :
    BestQueue :=
  let t := tags q.qname
  if t.tag ≠ 0 ∧ (t.availableAt < best.jobStartTime ∨
      (a.isSoft = true ∧ t.softViolation < best.minSoftViolations ∧
        best.jobStartTime = t.availableAt)) then
    ⟨some q, t.availableAt, t.softViolation⟩
  else best

/-- The choice at the end of `sge_sequential_assignment()`. -/
def chooseQueue (tags : String → QueueTags) : Option (SequentialQueue × ℕ) :=
  if a.isReservation then
    let best := a.queues.foldl (betterQueue a tags) ⟨none, uint64Max, uint32Max⟩
    best.queue.map fun q => (q, best.jobStartTime)
  else
    (a.queues.find? fun q => (tags q.qname).tag ≠ 0).map fun q => (q, (tags q.qname).availableAt)

/-- `sge_sequential_assignment()`: the result, and the queue instance with the start time. -/
def sgeSequentialAssignment (s₀ : SequentialStart) : Dispatch × Option (SequentialQueue × ℕ) :=
  let (result, tags) := sequentialTagQueuesSuitable4job a s₀
  if result = .ok then
    match chooseQueue a tags with
    | none => (.neverCat, none)
    | some best => (.ok, some best)
  else (result, none)

end Search

end ClusterScheduler.Sched
