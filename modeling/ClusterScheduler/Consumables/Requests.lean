import ClusterScheduler.Foundation.Ledger

/-!
# Requests for consumables

A job is booked with the amounts it requests, or with the default requests of the
consumables it does not name. A parallel job can request for all its tasks, for the
master task and for the slave tasks.

* `CEntry`, `Job`, `Pe` — what the booking functions read.
* `jobGetContributionByScope`, `consumableDoBooking`, `consumableGetDebitSlots`,
  `adjustSlaveTaskDebitSlots`, `hostDoPerHostBooking` — functions of the source.
* `consumableDebits` — the amounts for one consumable, as they are added.
* `consumableDebits_neg` — undebiting adds the opposite amounts.

Amounts are exact. The parser of a default request is a parameter.
-/

namespace ClusterScheduler.Consumables

open Foundation

/-! ## Data -/

inductive Consumable where
  | no
  | yes
  | job
  | host
  deriving DecidableEq

inductive ValType where
  | int | str | time | mem | bool | cstr | host | double | restr | rsmap
  deriving DecidableEq

inductive RelOp where
  | eq | ge | gt | lt | le | ne | excl
  deriving DecidableEq

/-- A complex entry. -/
structure CEntry where
  name : String
  shortcut : String
  valtype : ValType
  relop : RelOp
  consumable : Consumable
  defaultval : String
  deriving DecidableEq

/-- A hard request, with the amount parsed when it was built. -/
structure Request where
  name : String
  doubleval : ℚ
  deriving DecidableEq

inductive Scope where
  | global
  | master
  | slave
  deriving DecidableEq

structure RequestSet where
  scope : Scope
  hardResourceList : List Request
  deriving DecidableEq

/-- What is read of a job. `ar` is the advance reservation it runs in, or 0. -/
structure Job where
  jobNumber : ℕ
  owner : String
  group : String
  grpList : List String
  project : Option String
  ar : ℕ
  requestSetList : List RequestSet
  deriving DecidableEq

/-- What is read of a parallel environment. -/
structure Pe where
  name : String
  jobIsFirstTask : Bool
  ignoreSlaveRequestsOnMasterHost : Bool
  deriving DecidableEq

/-- The parser of numbers; `none` is a string it refuses. -/
abbrev ParseUlongVal := ValType → String → Option ℚ

/-! ## Functions of the source -/

def sgeAttrSlots : String := "slots"

def centryListLocate (l : List CEntry) (name : String) : Option CEntry :=
  (lookup CEntry.name name l).or (lookup CEntry.shortcut name l)

def jobGetHardResourceList (job : Job) (scope : Scope) : List Request :=
  ((lookup RequestSet.scope scope job.requestSetList).map (·.hardResourceList)).getD []

def jobGetHardRequest (job : Job) (name : String) (scope : Scope) : Option Request :=
  lookup Request.name name (jobGetHardResourceList job scope)

/-- A default request of zero is no contribution. -/
def jobGetContributionByScope (parse : ParseUlongVal) (job : Job) (name : String)
    (dcep : CEntry) (scope : Scope) : Option ℚ :=
  match jobGetHardRequest job name scope with
  | some request => some request.doubleval
  | none =>
    match parse dcep.valtype dcep.defaultval with
    | some value => if value = 0 then none else some value
    | none => none

def slotSignum (slots : ℤ) : ℤ := if 0 < slots then 1 else if slots < 0 then -1 else 0

def consumableDoBooking (consumable : Consumable) (isMasterTask doPerHostBooking : Bool) :
    Bool :=
  match consumable with
  | .no => false
  | .yes => true
  | .job => isMasterTask
  | .host => doPerHostBooking

def consumableGetDebitSlots (consumable : Consumable) (slots : ℤ) : ℤ :=
  if consumable = .job ∨ consumable = .host then slotSignum slots else slots

def adjustSlaveTaskDebitSlots (pe : Pe) (slaveDebitSlots : ℤ) : ℤ :=
  if pe.jobIsFirstTask then
    if 0 < slaveDebitSlots then slaveDebitSlots - 1 else slaveDebitSlots + 1
  else slaveDebitSlots

/-- A host is booked when it is not the one before. The second component is the host
remembered. -/
def hostDoPerHostBooking (lastHostname : Option String) (hostname : String) :
    Bool × Option String :=
  if lastHostname = some hostname then (false, lastHostname) else (true, some hostname)

/-! ## The amounts of one consumable -/

/-- What is added to an element: to the amount in use, or to the amount jobs take
that do not ask for an exclusive resource. -/
structure Amount where
  nonexclusive : Bool
  value : ℚ
  deriving DecidableEq

section Debits

variable (parse : ParseUlongVal) (job : Job) (pe : Option Pe) (name : String) (dcep : CEntry)
  (slots : ℤ) (isMasterTask : Bool)

/-- A contribution booked for a number of slots. Zero is not booked. -/
def bookFor (slots : ℤ) (contribution : Option ℚ) : List ℚ :=
  match contribution with
  | some dval => if dval ≠ 0 then [slots * dval] else []
  | none => []

def slaveSlots (pe : Pe) : ℤ :=
  if isMasterTask then adjustSlaveTaskDebitSlots pe slots else slots

/-- The request of the slave tasks, which does not count on the master host when the
parallel environment says so. -/
def slaveContribution (pe : Pe) : Option ℚ :=
  if isMasterTask && pe.ignoreSlaveRequestsOnMasterHost then
    some (if name = sgeAttrSlots then 1 else 0)
  else jobGetContributionByScope parse job name dcep .slave

def masterDebits : List ℚ :=
  if isMasterTask then
    bookFor (slotSignum (consumableGetDebitSlots dcep.consumable slots))
      (jobGetContributionByScope parse job name dcep .master)
  else []

/-- The slave tasks of a parallel job. -/
def slaveDebits (pe : Pe) : List ℚ :=
  if slaveSlots slots isMasterTask pe ≠ 0 then
    bookFor (consumableGetDebitSlots dcep.consumable (slaveSlots slots isMasterTask pe))
      (slaveContribution parse job name dcep isMasterTask pe)
  else []

/-- What is requested: for all tasks in one step, else for master and slave tasks. -/
def explicitDebits : List ℚ :=
  match jobGetContributionByScope parse job name dcep .global with
  | some dval => bookFor (consumableGetDebitSlots dcep.consumable slots) (some dval)
  | none =>
    match pe with
    | some pe => masterDebits parse job name dcep slots isMasterTask ++
        slaveDebits parse job name dcep slots isMasterTask pe
    | none => []

/-- Without a request an exclusive resource is booked implicitly. -/
def withImplicit (explicit : List ℚ) : List Amount :=
  if explicit = [] ∧ dcep.relop = .excl then
    [⟨true, consumableGetDebitSlots dcep.consumable slots⟩]
  else explicit.map (⟨false, ·⟩)

def consumableDebits : List Amount :=
  withImplicit dcep slots (explicitDebits parse job pe name dcep slots isMasterTask)

end Debits

def total (nonexclusive : Bool) (l : List Amount) : ℚ :=
  ((l.filter (·.nonexclusive = nonexclusive)).map Amount.value).sum

/-! ## Undebiting -/

section Neg

variable {parse : ParseUlongVal} {job : Job} {pe : Option Pe} {name : String} {dcep : CEntry}
  {slots : ℤ} {isMasterTask : Bool}

theorem slotSignum_neg : slotSignum (-slots) = -slotSignum slots := by
  unfold slotSignum
  split_ifs <;> omega

theorem slotSignum_eq_zero : slotSignum slots = 0 ↔ slots = 0 := by
  unfold slotSignum
  split_ifs with hpos hneg
  · exact iff_of_false (by decide) (by omega)
  · exact iff_of_false (by decide) (by omega)
  · exact iff_of_true rfl (by omega)

variable {c : Consumable}

theorem consumableGetDebitSlots_neg :
    consumableGetDebitSlots c (-slots) = -consumableGetDebitSlots c slots := by
  unfold consumableGetDebitSlots
  split_ifs
  · exact slotSignum_neg
  · rfl

theorem consumableGetDebitSlots_eq_zero : consumableGetDebitSlots c slots = 0 ↔ slots = 0 := by
  unfold consumableGetDebitSlots
  split_ifs
  · exact slotSignum_eq_zero
  · rfl

/-- The sign is kept when the slot of the master task is taken out. -/
theorem slaveSlots_neg (h : slots ≠ 0) (pe : Pe) :
    slaveSlots (-slots) isMasterTask pe = -slaveSlots slots isMasterTask pe := by
  have hsign : 0 < -slots ↔ ¬ 0 < slots := by omega
  simp only [slaveSlots, adjustSlaveTaskDebitSlots, hsign]
  split_ifs <;> omega

theorem bookFor_neg {contribution : Option ℚ} :
    bookFor (-slots) contribution = (bookFor slots contribution).map (-·) := by
  cases contribution with
  | none => rfl
  | some dval =>
    simp only [bookFor]
    split_ifs <;> simp

theorem masterDebits_neg :
    masterDebits parse job name dcep (-slots) isMasterTask =
      (masterDebits parse job name dcep slots isMasterTask).map (-·) := by
  unfold masterDebits
  split_ifs
  · rw [consumableGetDebitSlots_neg, slotSignum_neg, bookFor_neg]
  · rfl

theorem slaveDebits_neg (h : slots ≠ 0) (pe : Pe) :
    slaveDebits parse job name dcep (-slots) isMasterTask pe =
      (slaveDebits parse job name dcep slots isMasterTask pe).map (-·) := by
  unfold slaveDebits
  rw [slaveSlots_neg h, consumableGetDebitSlots_neg, bookFor_neg]
  simp only [ne_eq, neg_eq_zero]
  split_ifs
  · rfl
  · rfl

theorem explicitDebits_neg (h : slots ≠ 0) :
    explicitDebits parse job pe name dcep (-slots) isMasterTask =
      (explicitDebits parse job pe name dcep slots isMasterTask).map (-·) := by
  unfold explicitDebits
  cases jobGetContributionByScope parse job name dcep .global with
  | some dval =>
    rw [consumableGetDebitSlots_neg]
    exact bookFor_neg
  | none =>
    cases pe with
    | none => rfl
    | some pe =>
      rw [List.map_append]
      exact congrArg₂ (· ++ ·) masterDebits_neg (slaveDebits_neg h pe)

/-- **Undebiting adds the opposite amounts.** -/
theorem consumableDebits_neg (h : slots ≠ 0) :
    consumableDebits parse job pe name dcep (-slots) isMasterTask =
      (consumableDebits parse job pe name dcep slots isMasterTask).map
        fun a => ⟨a.nonexclusive, -a.value⟩ := by
  unfold consumableDebits withImplicit
  simp only [explicitDebits_neg h, consumableGetDebitSlots_neg, List.map_eq_nil_iff]
  split_ifs
  · simp
  · simp

variable {b : Bool}

@[simp] theorem total_nil : total b [] = 0 := rfl

theorem total_cons (a : Amount) (l : List Amount) :
    total b (a :: l) = (if a.nonexclusive = b then a.value else 0) + total b l := by
  unfold total
  by_cases ha : a.nonexclusive = b <;> simp [ha]

theorem total_append (l l' : List Amount) : total b (l ++ l') = total b l + total b l' := by
  simp [total]

theorem total_explicit (l : List ℚ) : total false (l.map (⟨false, ·⟩)) = l.sum := by
  induction l with
  | nil => rfl
  | cons x l ih => rw [List.map_cons, total_cons, ih, if_pos rfl, List.sum_cons]

theorem sum_withImplicit (l : List ℚ) : total false (withImplicit dcep slots l) = l.sum := by
  unfold withImplicit
  split_ifs with h
  · rw [h.1]
    rfl
  · exact total_explicit l

theorem total_neg (l : List Amount) :
    total b (l.map fun a => ⟨a.nonexclusive, -a.value⟩) = -total b l := by
  induction l with
  | nil => simp
  | cons a l ih =>
    rw [List.map_cons, total_cons, ih, total_cons, neg_add]
    split_ifs <;> simp

theorem total_consumableDebits_neg (h : slots ≠ 0) :
    total b (consumableDebits parse job pe name dcep (-slots) isMasterTask) =
      -total b (consumableDebits parse job pe name dcep slots isMasterTask) := by
  rw [consumableDebits_neg h, total_neg]

end Neg

end ClusterScheduler.Consumables
