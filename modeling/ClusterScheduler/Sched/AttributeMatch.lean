import ClusterScheduler.Sched.AllocationRules
import ClusterScheduler.Sched.UtilizationBelow
import ClusterScheduler.Sgeobj.ExpressionGrammar
import ClusterScheduler.Sgeobj.HostNames

/-!
# Matching requests with attributes

A host or a resource quota rule offers attributes: configured values, what is in use of the
consumables, and load values.

* `Attribute`, `getAttribute` — what an object offers of an attribute.
* `compareComplexes`, `matchStaticResource` — does the offer satisfy a request?
* `riTimeBySlots` — does it until the job ends, and from when on?

A load value is what the host reports, with the load adjustments of the scheduler.
-/

namespace ClusterScheduler.Sched

open Foundation Consumables Sgeobj

/-! ## Data -/

inductive Requestable where
  | no | yes | forced
  deriving DecidableEq

/-- What is read of an entry of the complex configuration. -/
structure CentryDef where
  type : CEntryType
  relop : RelOp
  consumable : Consumable
  requestable : Requestable
  deriving DecidableEq

/-- `CE_stringval` and `CE_doubleval`. -/
structure CentryValue where
  stringval : Name
  doubleval : ℚ
  deriving DecidableEq

/-- `doubleval` is `none` if the value reported is no number. -/
structure LoadValue where
  stringval : Name
  doubleval : Option ℚ
  isStatic : Bool
  deriving DecidableEq

/-- What one object knows of an attribute: `config_attr`, `actual_attr` and `load_attr`. -/
structure AttributeSources where
  config : Option CentryValue
  actual : Option Usage
  load : Option LoadValue

/-- What `get_attribute()` returns. A value for each slot and a value for the whole job are there
if `CE_dominant` and `CE_pj_dominant` say so. -/
structure Attribute where
  entry : CentryDef
  stringval : Name
  perSlot : Option ℚ
  perJob : Option ℚ

/-- A request. `resolved` says that `CE_valtype` was set, and `groupBelow` is the answer of
`utilization_rsmap_below()` for an amount, if the request says which instances it needs. -/
structure AttributeRequest where
  value : CentryValue
  resolved : Bool
  groupBelow : Option (ℚ → ℕ)

/-! ## What an object offers -/

section Functions

def isStringType : CEntryType → Bool
  | .str | .cstr | .host | .restr => true
  | _ => false

/-- With `>=` and `>` the larger value has priority, else the smaller one. -/
def hasPriority (relop : RelOp) (upper lower : ℚ) : Bool :=
  match relop with
  | .eq | .ne => true
  | .ge | .gt => lower ≤ upper
  | _ => upper ≤ lower

@[simp] theorem hasPriority_le (upper lower : ℚ) :
    hasPriority .le upper lower = decide (upper ≤ lower) := rfl

/-- The configured value. That of a consumable is what is left for jobs, unless the queuing
system is imagined to be empty. -/
def configuredAttribute (qsFull zeroUtilization : Bool) (entry : CentryDef)
    (config : CentryValue) (actual : Option Usage) (startTime duration : ℕ) : Option Attribute :=
  let attr : Attribute := ⟨entry, config.stringval, some config.doubleval, none⟩
  if entry.consumable = .no then some attr
  else if qsFull then
    actual.map fun cr =>
      let utilized := if zeroUtilization then 0 else utilizationMax cr startTime duration false
      { attr with
        perSlot := none
        perJob := some (if entry.relop = .ge ∨ entry.relop = .gt then utilized
          else config.doubleval - utilized) }
  else some { attr with perSlot := none, perJob := some config.doubleval }

/-- A number takes the place of the value for the job, unless that has priority. A fixed value for
each slot is turned into one for the job first. -/
def Attribute.withLoad (attr : Attribute) (load : LoadValue) : Attribute :=
  if isStringType attr.entry.type then { attr with stringval := load.stringval }
  else
    match load.doubleval with
    | none => attr
    | some dval =>
      let attr := if attr.perSlot.isSome && attr.perJob.isNone then
        { attr with perJob := attr.perSlot, perSlot := none } else attr
      if attr.perJob.any (hasPriority attr.entry.relop · dval) then attr
      else { attr with perJob := some dval }

def loadCounts (qsFull : Bool) (entry : CentryDef) (attr : Option Attribute) (load : LoadValue) :
    Bool :=
  (qsFull || load.isStatic) && !(attr.isSome && (entry.relop = .eq || entry.relop = .ne))

/-- `get_attribute()` of a host or a resource quota rule. `none` says that the attribute is
missing there. -/
def getAttribute (qsFull zeroUtilization : Bool) (entry : CentryDef) (sources : AttributeSources)
    (startTime duration : ℕ) : Option Attribute :=
  let withLoad (attr : Option Attribute) : Option Attribute :=
    match sources.load with
    | none => attr
    | some load =>
      if loadCounts qsFull entry attr load then
        some ((attr.getD ⟨entry, [], none, none⟩).withLoad load)
      else attr
  match sources.config with
  | none => withLoad none
  | some config =>
    match configuredAttribute qsFull zeroUtilization entry config sources.actual startTime
      duration with
    | none => none
    | some attr => withLoad (some attr)

/-! ## Comparing -/

def resourceCmp (relop : RelOp) (req src : ℚ) : Bool :=
  match relop with
  | .eq => req = src
  | .le => req ≤ src
  | .lt => req < src
  | .gt => src < req
  | .ge => src ≤ req
  | .ne => req ≠ src
  | .excl => req = 0 || req ≤ src

@[simp] theorem resourceCmp_le (req src : ℚ) : resourceCmp .le req src = decide (req ≤ src) := rfl

variable (C : Comparison)

/-- The result of `string_base_cmp()` has to be found within the fuel of the evaluation. -/
def stringCmp (type : CEntryType) (relop : RelOp) (request offer : Name) : Bool :=
  match sgeEvalExpression C type (some request) (some offer) false false with
  | none => false
  | some (c, _) =>
    match relop with
    | .eq => c = 0
    | .le => c ≤ 0
    | .lt => c < 0
    | .gt => 0 < c
    | .ge => 0 ≤ c
    | .ne => c ≠ 0
    | .excl => false

/-- `compare_complexes()` of a request. What is not offered per job or per slot limits nothing. -/
def compareComplexes (slots : ℤ) (request : CentryValue) (src : Attribute) : Bool :=
  if isStringType src.entry.type then
    stringCmp C src.entry.type src.entry.relop request.stringval src.stringval
  else
    src.perJob.all (resourceCmp src.entry.relop (request.doubleval * slots)) &&
      src.perSlot.all (resourceCmp src.entry.relop request.doubleval)

def matchStaticResource (slots : ℤ) (request : CentryValue) (src : Attribute)
    (allowNonRequestable : Bool) : Dispatch :=
  if !allowNonRequestable && src.entry.requestable = .no then .neverCat
  else if compareComplexes C slots request src then .ok
  else .neverCat

/-! ## The time of an offer -/

/-- What the checks read of an assignment, and whether the queuing system is full. -/
structure SchedulerView where
  now : ℕ
  duration : ℕ
  scheduleBased : Bool
  qsFull : Bool
  deriving DecidableEq

def usageOrIdle (actual : Option Usage) : Usage := actual.getD (Usage.new "")

def utilizedEntries (actual : Option Usage) : ℕ :=
  ((actual.bind fun cr => cr.utilized).getD []).length

/-- The search from the end of the queue. A time of 0 is now. -/
def riQueueEnd (a : SchedulerView) (usage : Usage) (total : ℚ) (rep : AttributeRequest)
    (slots : ℤ) : Dispatch × ℕ :=
  let threshold := total - rep.value.doubleval * slots
  if threshold < 0 then (.neverCat, dispatchTimeQueueEnd)
  else
    let when_ := utilizationBelow a.now a.duration usage threshold (rep.value.doubleval ≠ 0)
    let answer (when_ : ℕ) : Dispatch × ℕ := (.ok, if when_ = 0 then a.now else when_)
    match rep.groupBelow with
    | none => answer when_
    | some groupBelow =>
      let groupWhen := groupBelow (rep.value.doubleval * slots)
      if groupWhen = uint64Max then (.neverCat, dispatchTimeQueueEnd)
      else answer (max groupWhen when_)

/-- An exclusive request needs the object for itself, also now. -/
def riExclusive (a : SchedulerView) (actual : Option Usage) (request : ℚ) (startTime : ℕ) :
    Dispatch :=
  let isExclusive := decide (request ≠ 0)
  if utilizationMax (usageOrIdle actual) startTime a.duration isExclusive = 0 then
    if a.scheduleBased || utilizedEntries actual ≠ 0 then
      if utilizationMax (usageOrIdle actual) a.now a.duration isExclusive = 0 then .ok
      else .neverCat
    else .ok
  else .neverCat

/-- The resource has to be there from the start until the job ends. -/
def riUntilFinish (a : SchedulerView) (actual : Option Usage) (total request : ℚ) (slots : ℤ)
    (startTime : ℕ) : Dispatch :=
  let readyTime := if startTime = dispatchTimeNow then a.now else startTime
  let util := utilizationMax (usageOrIdle actual) readyTime a.duration false
  if total - util < request * slots then .neverCat else .ok

/-- The result and the start time that is written back. -/
def riTimeBySlots (a : SchedulerView) (entry : CentryDef) (rep : AttributeRequest)
    (sources : AttributeSources) (allowNonRequestable : Bool) (slots : ℤ) (startTime : ℕ) :
    Dispatch × ℕ :=
  -- consumables are treated below in schedule based mode
  match getAttribute a.qsFull a.scheduleBased entry sources dispatchTimeNow 0 with
  | none => (.missingAttr, startTime)
  | some cplx =>
    let ret := matchStaticResource C slots rep.value cplx allowNonRequestable
    if ret ≠ .ok ∨
        (a.scheduleBased = false ∧ utilizedEntries sources.actual = 0 ∧ entry.relop ≠ .excl) then
      (ret, startTime)
    else if entry.consumable = .no then
      (.ok, if startTime = dispatchTimeQueueEnd then a.now else startTime)
    else
      match sources.config with
      | none => (.missingAttr, startTime)
      | some capacity =>
        if rep.resolved = false then (.neverCat, startTime)
        else if startTime = dispatchTimeQueueEnd then
          riQueueEnd a (usageOrIdle sources.actual) capacity.doubleval rep slots
        else if entry.relop = .excl then
          (riExclusive a sources.actual rep.value.doubleval startTime, startTime)
        else
          (riUntilFinish a sources.actual capacity.doubleval rep.value.doubleval slots
            startTime, startTime)

end Functions

end ClusterScheduler.Sched
