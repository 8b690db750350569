import ClusterScheduler.Sched.AttributeMatch

/-!
# Two checks of a consumable

A sequential job asks whether a consumable suffices for one slot, a parallel job for how many
slots it suffices. The first question compares amounts, the second one divides them.

* `riSlotsByTime` — for how many slots is a resource there?
* `HostConsumable` — a consumable of a host with a request for it.
* `ChecksAgree`, `ChecksDisagree` — do both checks answer alike, and what lets them differ?
* `checksAgree_iff` — they agree except in these cases.

Conversions to `int` truncate; what they do with a number out of range is not defined.
-/

namespace ClusterScheduler.Sched

open Foundation Consumables Sgeobj

/-! ## Conversions -/

def intMax : ℤ := 2 ^ 31 - 1

def intMin : ℤ := -2 ^ 31

def truncate (x : ℚ) : ℤ := if 0 ≤ x then ⌊x⌋ else ⌈x⌉

/-- The truncated number is an `int`. -/
def InIntRange (x : ℚ) : Prop := intMin ≤ truncate x ∧ truncate x ≤ intMax

structure IntConversion (toInt : ℚ → ℤ) : Prop where
  range : ∀ x, intMin ≤ toInt x ∧ toInt x ≤ intMax
  exact : ∀ x, InIntRange x → toInt x = truncate x

/-- Positive amounts: at least `n` slots are found by truncation when the quotient is at least
`n`. -/
theorem le_truncate_iff {n : ℤ} (hn : 1 ≤ n) (q : ℚ) : n ≤ truncate q ↔ (n : ℚ) ≤ q := by
  unfold truncate
  split_ifs with hq
  · exact Int.le_floor
  · -- the quotient is negative
    have hceil : ⌈q⌉ ≤ 0 := Int.ceil_le.mpr (by exact_mod_cast (not_le.mp hq).le)
    have hpos : (0 : ℚ) < n := by exact_mod_cast hn
    exact iff_of_false (by omega) (by linarith [not_le.mp hq])

theorem truncate_ne_zero_iff (q : ℚ) : truncate q ≠ 0 ↔ 1 ≤ q ∨ q ≤ -1 := by
  unfold truncate
  split_ifs with hq
  · have hfloor := Int.floor_nonneg.mpr hq
    have hone : (1 : ℤ) ≤ ⌊q⌋ ↔ 1 ≤ q := by
      rw [Int.le_floor, Int.cast_one]
    constructor
    · intro hne
      exact .inl (hone.mp (by omega))
    · rintro (h | h)
      · have := hone.mpr h
        omega
      · linarith
  · have hneg := not_le.mp hq
    have hceil : ⌈q⌉ ≤ 0 := Int.ceil_le.mpr (by exact_mod_cast hneg.le)
    have hone : ⌈q⌉ ≤ -1 ↔ q ≤ -1 := by
      rw [Int.ceil_le, Int.cast_neg, Int.cast_one]
    constructor
    · intro hne
      exact .inr (hone.mp (by omega))
    · rintro (h | h)
      · linarith
      · have := hone.mpr h
        omega

instance (x : ℚ) : Decidable (InIntRange x) := inferInstanceAs (Decidable (_ ∧ _))

/-- The conversion that gives `v` for every number out of range. -/
def convertOr (v : ℤ) (x : ℚ) : ℤ := if InIntRange x then truncate x else v

theorem intConversion_convertOr {v : ℤ} (hmin : intMin ≤ v) (hmax : v ≤ intMax) :
    IntConversion (convertOr v) where
  range x := by
    unfold convertOr
    split_ifs with hx
    · exact hx
    · exact ⟨hmin, hmax⟩
  exact _ hx := if_pos hx

/-- `DBL_MAX`, which stands for an unlimited amount. -/
def dblMax : ℚ := (2 ^ 53 - 1) * 2 ^ 971

/-! ## Function of the source -/

inductive Layer where
  | global | host | queue | rqs
  deriving DecidableEq

/-- What the check reads of an assignment. -/
structure SlotsView extends SchedulerView where
  start : ℕ
  isReservation : Bool
  isAdvanceReservation : Bool
  deriving DecidableEq

/-- What is in use in the time of the assignment. With an empty queuing system nothing is. -/
def riUsed (a : SlotsView) (actual : Option Usage) (additionalUsage : Option ℚ) : ℚ :=
  if !a.isAdvanceReservation && !a.qsFull then 0
  else if a.scheduleBased || utilizedEntries actual ≠ 0 then
    utilizationMax (usageOrIdle actual) (if a.isReservation then a.start else a.now) a.duration
      false + additionalUsage.getD 0
  else (usageOrIdle actual).utilizedNow + additionalUsage.getD 0

/-- The slots that an amount suffices for. A consumable for each job or each host is needed once,
and then for any number of slots. -/
def riDivide (toInt : ℚ → ℤ) (consumable : Consumable) (layer : Layer)
    (total used request : ℚ) : Dispatch × ℤ :=
  if request ≠ 0 ∧ total < dblMax then
    let slots := toInt ((total - used) / request)
    if consumable = .job ∨ consumable = .host then
      (if slots = 0 then .neverCat else .ok,
        if layer ≠ .global then intMax else if 0 < slots then intMax else slots)
    else (.ok, slots)
  else (.ok, intMax)

/-- Exclusive use is possible when nothing is in use. -/
def riSlotsExclusive (a : SlotsView) (actual : Option Usage) (request : ℚ) : Dispatch × ℤ :=
  let start := if a.scheduleBased && !a.isReservation then a.now else a.start
  if utilizationMax (usageOrIdle actual) start a.duration (request ≠ 0) = 0 then (.ok, intMax)
  else (.neverCat, 0)

/-- The result and the slots, which are left as they were if the resource does not match. -/
def riSlotsByTime (toInt : ℚ → ℤ) (C : Comparison) (a : SlotsView) (entry : CentryDef)
    (rep : AttributeRequest) (sources : AttributeSources) (layer : Layer)
    (additionalUsage : Option ℚ) (allowNonRequestable : Bool) (slots : ℤ) : Dispatch × ℤ :=
  match getAttribute a.qsFull a.scheduleBased entry sources dispatchTimeNow 0 with
  | none => (.missingAttr, slots)
  | some cplx =>
    -- one slot: how many there are is calculated below
    let ret := matchStaticResource C 1 rep.value cplx allowNonRequestable
    if ret ≠ .ok then (ret, slots)
    else if entry.consumable = .no then (.ok, intMax)
    else
      match sources.config with
      | none => (.ok, intMax)
      | some capacity =>
        if entry.relop = .excl then riSlotsExclusive a sources.actual rep.value.doubleval
        else
          riDivide toInt entry.consumable layer capacity.doubleval
            (riUsed a sources.actual additionalUsage) rep.value.doubleval

/-! ## A consumable of a host -/

/-- A consumable that is not exclusive, configured on a host, and a request for it. Consumables
are numbers and are compared with `<=`. -/
structure HostConsumable where
  entry : CentryDef
  capacity : CentryValue
  actual : Option Usage
  load : Option LoadValue
  request : AttributeRequest
  consumable : entry.consumable ≠ .no
  relop : entry.relop = .le
  numerical : isStringType entry.type = false
  total_nonneg : 0 ≤ capacity.doubleval
  request_pos : 0 < request.value.doubleval
  resolved : request.resolved = true

namespace HostConsumable

variable (x : HostConsumable)

def total : ℚ := x.capacity.doubleval

def amount : ℚ := x.request.value.doubleval

def sources : AttributeSources := ⟨some x.capacity, x.actual, x.load⟩

def peak (a : SlotsView) : ℚ := utilizationMax (usageOrIdle x.actual) a.now a.duration false

def countedLoad (a : SlotsView) : Option ℚ :=
  x.load.bind fun load => if a.qsFull || load.isStatic then load.doubleval else none

/-- What the static match compares a request with. -/
def offered (a : SlotsView) : ℚ :=
  match x.countedLoad a with
  | none => x.total
  | some load => if x.total ≤ load then x.total else load

/-- Is the consumable needed once for each slot? -/
def perSlot : Prop := x.entry.consumable = .yes

instance : Decidable x.perSlot := inferInstanceAs (Decidable (_ = _))

def slotsAsked (n : ℤ) : ℤ := if x.perSlot then n else 1

/-- The parallel check finds at least `n` slots. -/
def SlotsOffered (toInt : ℚ → ℤ) (C : Comparison) (a : SlotsView) (allowNonRequestable : Bool)
    (slots n : ℤ) : Prop :=
  (riSlotsByTime toInt C a x.entry x.request x.sources .host none allowNonRequestable slots).1 =
      .ok ∧
    n ≤ (riSlotsByTime toInt C a x.entry x.request x.sources .host none allowNonRequestable slots).2

/-- The sequential check, now. -/
def TimeOffered (C : Comparison) (a : SlotsView) (allowNonRequestable : Bool) (n : ℤ) : Prop :=
  (riTimeBySlots C a.toSchedulerView x.entry x.request x.sources allowNonRequestable
    (x.slotsAsked n) dispatchTimeNow).1 = .ok

/-- Both checks answer alike, and an exceeded consumable offers nothing. -/
def ChecksAgree (toInt : ℚ → ℤ) (C : Comparison) (a : SlotsView) (allowNonRequestable : Bool)
    (slots n : ℤ) : Prop :=
  (x.SlotsOffered toInt C a allowNonRequestable slots n ↔ x.TimeOffered C a allowNonRequestable n) ∧
  (x.total < x.peak a → ¬ x.SlotsOffered toInt C a allowNonRequestable slots n ∧
    ¬ x.TimeOffered C a allowNonRequestable n)

/-- The attribute is there, may be requested, and is enough for one slot of an empty host. -/
def OfferedOnce (a : SlotsView) (allowNonRequestable : Bool) : Prop :=
  ¬ (a.qsFull = true ∧ x.actual = none) ∧
    (allowNonRequestable = true ∨ x.entry.requestable ≠ .no) ∧ x.amount ≤ x.offered a

/-- Is the usage passed over in the parallel check? -/
def usageIgnored (a : SlotsView) : Prop := a.isAdvanceReservation = false ∧ a.qsFull = false

instance (a : SlotsView) : Decidable (usageIgnored a) := inferInstanceAs (Decidable (_ ∧ _))

def left (a : SlotsView) : ℚ := x.total - if usageIgnored a then 0 else x.peak a

/-- What lets the checks differ once the static match is passed. -/
inductive Differs (a : SlotsView) (n : ℤ) : Prop
  /-- An unlimited amount is not compared with the utilization by the parallel check. -/
  | unlimited (h : dblMax ≤ x.total) (hshort : x.offered a < x.amount * x.slotsAsked n ∨
      x.total - x.peak a < x.amount * x.slotsAsked n)
  /-- The quotient is no `int`. -/
  | outOfRange (h : x.total < dblMax) (hrange : ¬ InIntRange (x.left a / x.amount))
  /-- The load value is enough for one slot and not for all. -/
  | load (h : x.total < dblMax) (hslot : x.perSlot) (hshort : x.offered a < x.amount * n)
      (hleft : x.amount * n ≤ x.left a)
  /-- The utilization exceeds the total by a whole request: the quotient is not 0. -/
  | exceeded (h : x.total < dblMax) (honce : ¬ x.perSlot) (hleft : x.left a ≤ -x.amount)
  /-- The queuing system is imagined to be empty by the parallel check only. -/
  | emptySystem (h : x.total < dblMax) (hempty : usageIgnored a)
      (hoffered : x.amount * x.slotsAsked n ≤ x.offered a)
      (hshort : x.total - x.peak a < x.amount * x.slotsAsked n)

def ChecksDisagree (a : SlotsView) (allowNonRequestable : Bool) (n : ℤ) : Prop :=
  x.OfferedOnce a allowNonRequestable ∧ x.Differs a n

/-! ## What the checks compute -/

variable {x} {C : Comparison} {a : SlotsView} {allowNonRequestable : Bool}

def withLoads (x : HostConsumable) (a : SlotsView) (attr : Attribute) : Option Attribute :=
  match x.load with
  | none => some attr
  | some load =>
    if loadCounts a.qsFull x.entry (some attr) load then some (attr.withLoad load) else some attr

theorem getAttribute_host (t d : ℕ) : getAttribute a.qsFull true x.entry x.sources t d =
    if a.qsFull = true ∧ x.actual = none then none
    else some ⟨x.entry, x.capacity.stringval, none, some (x.offered a)⟩ := by
  have hload : ∀ attr : Attribute, attr.entry = x.entry → attr.perSlot = none →
      attr.perJob = some x.total → attr.stringval = x.capacity.stringval →
      x.withLoads a attr = some ⟨x.entry, x.capacity.stringval, none, some (x.offered a)⟩ := by
    rintro ⟨entry, stringval, perSlot, perJob⟩ rfl rfl rfl rfl
    unfold withLoads offered countedLoad
    cases x.load with
    | none => rfl
    | some load =>
      have hcounts : loadCounts a.qsFull x.entry (some ⟨x.entry, x.capacity.stringval, none,
          some x.total⟩) load = (a.qsFull || load.isStatic) := by
        simp [loadCounts, x.relop]
      dsimp only [Option.bind_some]
      rw [hcounts]
      cases hq : (a.qsFull || load.isStatic) with
      | false => simp
      | true =>
        simp only [Attribute.withLoad, x.numerical]
        cases load.doubleval with
        | none => simp
        | some dval => by_cases hle : x.total ≤ dval <;> simp [x.relop, hle]
  have hconsumable : configuredAttribute a.qsFull true x.entry x.capacity x.actual t d =
      if a.qsFull = true ∧ x.actual = none then none
      else some ⟨x.entry, x.capacity.stringval, none, some x.total⟩ := by
    unfold configuredAttribute
    rw [if_neg x.consumable]
    cases a.qsFull with
    | false => simp [total]
    | true => cases x.actual <;> simp [total, x.relop]
  unfold getAttribute sources
  dsimp only
  rw [hconsumable]
  split_ifs with hmissing
  · rfl
  · exact hload ⟨x.entry, x.capacity.stringval, none, some x.total⟩ rfl rfl rfl rfl

theorem matchStaticResource_host (slots : ℤ) : matchStaticResource C slots x.request.value
      ⟨x.entry, x.capacity.stringval, none, some (x.offered a)⟩ allowNonRequestable = .ok ↔
    (allowNonRequestable = true ∨ x.entry.requestable ≠ .no) ∧
      x.amount * slots ≤ x.offered a := by
  unfold matchStaticResource compareComplexes
  simp only [x.numerical, x.relop, amount]
  by_cases hallow : allowNonRequestable = true
  · simp [hallow]
  · by_cases hrequestable : x.entry.requestable = .no
    · simp [hallow, hrequestable]
    · simp [hallow, hrequestable]

variable {n : ℤ}

/-- **The sequential check** compares the amount for the slots asked for with what is offered and
with what is left. -/
theorem timeOffered_iff (hbased : a.scheduleBased = true) :
    x.TimeOffered C a allowNonRequestable n ↔
      ¬ (a.qsFull = true ∧ x.actual = none) ∧
      (allowNonRequestable = true ∨ x.entry.requestable ≠ .no) ∧
      x.amount * x.slotsAsked n ≤ x.offered a ∧
      x.amount * x.slotsAsked n ≤ x.total - x.peak a := by
  unfold TimeOffered riTimeBySlots
  rw [hbased, getAttribute_host]
  by_cases hmissing : a.qsFull = true ∧ x.actual = none
  · rw [if_pos hmissing]
    simp [hmissing]
  · rw [if_neg hmissing]
    dsimp only
    by_cases hmatch : matchStaticResource C (x.slotsAsked n) x.request.value
        ⟨x.entry, x.capacity.stringval, none, some (x.offered a)⟩ allowNonRequestable = .ok
    · rw [if_neg (by simp [hmatch]), if_neg x.consumable]
      have hfinish : (riUntilFinish a.toSchedulerView x.actual x.capacity.doubleval
          x.request.value.doubleval (x.slotsAsked n) dispatchTimeNow = .ok) ↔
            x.amount * x.slotsAsked n ≤ x.total - x.peak a := by
        unfold riUntilFinish
        dsimp only
        rw [if_pos rfl]
        unfold peak
        split_ifs with hlt
        · exact iff_of_false nofun (not_le.mpr hlt)
        · exact iff_of_true rfl (not_lt.mp hlt)
      have hnow : ¬ dispatchTimeNow = dispatchTimeQueueEnd := by decide
      simp only [sources, x.resolved, x.relop, if_neg hnow]
      obtain ⟨hrequestable, hoffered⟩ := (matchStaticResource_host _).mp hmatch
      constructor
      · intro h
        exact ⟨hmissing, hrequestable, hoffered, hfinish.mp (by simpa using h)⟩
      · intro h
        simpa using hfinish.mpr h.2.2.2
    · rw [if_pos (Or.inl hmatch)]
      refine iff_of_false hmatch fun h => hmatch ?_
      exact (matchStaticResource_host _).mpr ⟨h.2.1, h.2.2.1⟩

/-- **The parallel check** matches one slot and divides what is left. -/
theorem slotsOffered_iff {toInt : ℚ → ℤ} (hbased : a.scheduleBased = true)
    (hnow : a.isReservation = false) {slots : ℤ} :
    x.SlotsOffered toInt C a allowNonRequestable slots n ↔
      x.OfferedOnce a allowNonRequestable ∧
      (riDivide toInt x.entry.consumable .host x.total (x.total - x.left a) x.amount).1 = .ok ∧
      n ≤ (riDivide toInt x.entry.consumable .host x.total (x.total - x.left a) x.amount).2 := by
  have hused : riUsed a x.actual none = x.total - x.left a := by
    unfold riUsed left usageIgnored peak
    rw [hbased, hnow]
    by_cases hempty : a.isAdvanceReservation = false ∧ a.qsFull = false
    · simp [hempty]
    · have hneg : (!a.isAdvanceReservation && !a.qsFull) = false := by simpa using hempty
      simp [hempty, hneg]
  unfold SlotsOffered riSlotsByTime OfferedOnce
  rw [hbased, getAttribute_host]
  by_cases hmissing : a.qsFull = true ∧ x.actual = none
  · rw [if_pos hmissing]
    simp [hmissing]
  · rw [if_neg hmissing]
    dsimp only
    have honce : matchStaticResource C 1 x.request.value
        ⟨x.entry, x.capacity.stringval, none, some (x.offered a)⟩ allowNonRequestable = .ok ↔
          (allowNonRequestable = true ∨ x.entry.requestable ≠ .no) ∧ x.amount ≤ x.offered a := by
      rw [matchStaticResource_host, Int.cast_one, mul_one]
    by_cases hmatch : matchStaticResource C 1 x.request.value
        ⟨x.entry, x.capacity.stringval, none, some (x.offered a)⟩ allowNonRequestable = .ok
    · have hoffered := honce.mp hmatch
      simp only [hmatch, ne_eq, not_true_eq_false, if_false, if_neg x.consumable, sources, x.relop,
        reduceCtorEq, hused]
      constructor
      · intro h
        exact ⟨⟨hmissing, hoffered⟩, h⟩
      · intro h
        exact h.2
    · rw [if_pos hmatch]
      exact iff_of_false (fun h => hmatch h.1) fun h => hmatch (honce.mpr h.1.2)

/-! ## What the answers mean -/

theorem offered_le_total : x.offered a ≤ x.total := by
  unfold offered
  split
  · exact le_refl _
  · split_ifs with hle
    · exact le_refl _
    · exact (not_le.mp hle).le

theorem amount_pos : 0 < x.amount := x.request_pos

theorem one_le_slotsAsked (hn : 1 ≤ n) : 1 ≤ x.slotsAsked n := by
  unfold slotsAsked
  split_ifs
  · exact hn
  · exact le_refl 1

theorem amount_le_mul (hn : 1 ≤ n) : x.amount ≤ x.amount * n := by
  have hone : (1 : ℚ) ≤ n := by exact_mod_cast hn
  nlinarith [x.amount_pos]

theorem timeOffered_iff_offeredOnce (hbased : a.scheduleBased = true) (hn : 1 ≤ n) :
    x.TimeOffered C a allowNonRequestable n ↔ x.OfferedOnce a allowNonRequestable ∧
      x.amount * x.slotsAsked n ≤ x.offered a ∧
      x.amount * x.slotsAsked n ≤ x.total - x.peak a := by
  rw [timeOffered_iff hbased]
  constructor
  · rintro ⟨hmissing, hrequestable, hoffered, hleft⟩
    have hone := x.amount_le_mul (x.one_le_slotsAsked hn)
    exact ⟨⟨hmissing, hrequestable, hone.trans hoffered⟩, hoffered, hleft⟩
  · rintro ⟨⟨hmissing, hrequestable, -⟩, hoffered, hleft⟩
    exact ⟨hmissing, hrequestable, hoffered, hleft⟩

section Answers

variable {toInt : ℚ → ℤ} {slots n : ℤ} (hbased : a.scheduleBased = true)
  (hnow : a.isReservation = false)
include hbased hnow

theorem slotsOffered_unlimited (htotal : dblMax ≤ x.total) (hmax : n ≤ intMax) :
    x.SlotsOffered toInt C a allowNonRequestable slots n ↔
      x.OfferedOnce a allowNonRequestable := by
  rw [slotsOffered_iff hbased hnow]
  unfold riDivide
  rw [if_neg fun h => absurd h.2 (not_lt.mpr htotal)]
  exact ⟨fun h => h.1, fun h => ⟨h, rfl, hmax⟩⟩

theorem slotsOffered_perSlot (htotal : x.total < dblMax) (hslot : x.perSlot) :
    x.SlotsOffered toInt C a allowNonRequestable slots n ↔
      x.OfferedOnce a allowNonRequestable ∧ n ≤ toInt (x.left a / x.amount) := by
  have hkind : ¬ (x.entry.consumable = .job ∨ x.entry.consumable = .host) := by
    rw [show x.entry.consumable = .yes from hslot]
    decide
  rw [slotsOffered_iff hbased hnow]
  unfold riDivide
  rw [if_pos ⟨x.amount_pos.ne', htotal⟩, sub_sub_cancel]
  dsimp only
  rw [if_neg hkind]
  exact ⟨fun h => ⟨h.1, h.2.2⟩, fun h => ⟨h.1, rfl, h.2⟩⟩

theorem slotsOffered_once (htotal : x.total < dblMax) (honce : ¬ x.perSlot) (hmax : n ≤ intMax) :
    x.SlotsOffered toInt C a allowNonRequestable slots n ↔
      x.OfferedOnce a allowNonRequestable ∧ toInt (x.left a / x.amount) ≠ 0 := by
  have hkind : x.entry.consumable = .job ∨ x.entry.consumable = .host := by
    have hno := x.consumable
    unfold perSlot at honce
    cases hc : x.entry.consumable with
    | no => exact absurd hc hno
    | yes => exact absurd hc honce
    | job => exact .inl rfl
    | host => exact .inr rfl
  have hdivide : riDivide toInt x.entry.consumable .host x.total (x.total - x.left a) x.amount =
      (if toInt (x.left a / x.amount) = 0 then .neverCat else .ok, intMax) := by
    unfold riDivide
    rw [if_pos ⟨x.amount_pos.ne', htotal⟩, sub_sub_cancel]
    dsimp only
    rw [if_pos hkind]
    rfl
  rw [slotsOffered_iff hbased hnow, hdivide]
  by_cases hzero : toInt (x.left a / x.amount) = 0
  · simp [hzero]
  · simp [hzero, hmax]

theorem slotsOffered_perSlot_inRange (hconv : IntConversion toInt) (htotal : x.total < dblMax)
    (hslot : x.perSlot) (hrange : InIntRange (x.left a / x.amount)) (hn : 1 ≤ n) :
    x.SlotsOffered toInt C a allowNonRequestable slots n ↔
      x.OfferedOnce a allowNonRequestable ∧ x.amount * n ≤ x.left a := by
  rw [slotsOffered_perSlot hbased hnow htotal hslot, hconv.exact _ hrange, le_truncate_iff hn,
    le_div_iff₀ x.amount_pos, mul_comm]

/-- A consumable for each job or host is also found when the amount left is negative. -/
theorem slotsOffered_once_inRange (hconv : IntConversion toInt) (htotal : x.total < dblMax)
    (honce : ¬ x.perSlot) (hrange : InIntRange (x.left a / x.amount)) (hmax : n ≤ intMax) :
    x.SlotsOffered toInt C a allowNonRequestable slots n ↔
      x.OfferedOnce a allowNonRequestable ∧ (x.amount ≤ x.left a ∨ x.left a ≤ -x.amount) := by
  rw [slotsOffered_once hbased hnow htotal honce hmax, hconv.exact _ hrange, truncate_ne_zero_iff,
    le_div_iff₀ x.amount_pos, div_le_iff₀ x.amount_pos, one_mul, neg_one_mul]

end Answers

/-! ## When the checks agree -/

theorem left_of_usageIgnored (h : usageIgnored a) : x.left a = x.total := by
  unfold left
  rw [if_pos h, sub_zero]

theorem left_of_not_usageIgnored (h : ¬ usageIgnored a) : x.left a = x.total - x.peak a := by
  unfold left
  rw [if_neg h]

/-- What the sequential check finds is left for the parallel one. -/
theorem le_left {m : ℚ} (hoffered : m ≤ x.offered a) (hleft : m ≤ x.total - x.peak a) :
    m ≤ x.left a := by
  by_cases hignored : usageIgnored a
  · rw [left_of_usageIgnored hignored]
    exact hoffered.trans offered_le_total
  · rw [left_of_not_usageIgnored hignored]
    exact hleft

section Agreement

variable {n : ℤ}

theorem le_of_not_differs (hnot : ¬ x.Differs a n) (htotal : x.total < dblMax)
    (hoffered : x.amount * x.slotsAsked n ≤ x.offered a)
    (hleft : x.amount * x.slotsAsked n ≤ x.left a) :
    x.amount * x.slotsAsked n ≤ x.total - x.peak a := by
  by_cases hignored : usageIgnored a
  · by_contra hshort
    exact hnot (.emptySystem htotal hignored hoffered (not_le.mp hshort))
  · rwa [left_of_not_usageIgnored hignored] at hleft

variable (hbased : a.scheduleBased = true) (hnow : a.isReservation = false)
include hbased hnow

variable {slots : ℤ}

theorem answers_of_not_differs {toInt : ℚ → ℤ} (hconv : IntConversion toInt)
    (hn : 1 ≤ n) (hmax : n ≤ intMax) (hnot : ¬ x.Differs a n) :
    x.SlotsOffered toInt C a allowNonRequestable slots n ↔
      x.TimeOffered C a allowNonRequestable n := by
  rw [timeOffered_iff_offeredOnce hbased hn]
  by_cases htotal : x.total < dblMax
  · have hrange : InIntRange (x.left a / x.amount) := by
      by_contra hout
      exact hnot (.outOfRange htotal hout)
    by_cases hslot : x.perSlot
    · have hasked : x.slotsAsked n = n := if_pos hslot
      rw [slotsOffered_perSlot_inRange hbased hnow hconv htotal hslot hrange hn]
      constructor
      · rintro ⟨honce, hleft⟩
        have hoffered : x.amount * n ≤ x.offered a := by
          by_contra hshort
          exact hnot (.load htotal hslot (not_le.mp hshort) hleft)
        rw [← hasked] at hleft hoffered
        exact ⟨honce, hoffered, le_of_not_differs hnot htotal hoffered hleft⟩
      · rintro ⟨honce, hoffered, hleft⟩
        rw [hasked] at hoffered hleft
        exact ⟨honce, le_left hoffered hleft⟩
    · have hasked : x.amount * x.slotsAsked n = x.amount := by
        rw [show x.slotsAsked n = 1 from if_neg hslot, Int.cast_one, mul_one]
      rw [slotsOffered_once_inRange hbased hnow hconv htotal hslot hrange hmax]
      constructor
      · rintro ⟨honce, hleft | hleft⟩
        · have hoffered := honce.2.2
          rw [← hasked] at hleft hoffered
          exact ⟨honce, hoffered, le_of_not_differs hnot htotal hoffered hleft⟩
        · exact absurd (.exceeded htotal hslot hleft) hnot
      · rintro ⟨honce, hoffered, hleft⟩
        rw [hasked] at hoffered hleft
        exact ⟨honce, .inl (le_left hoffered hleft)⟩
  · rw [slotsOffered_unlimited hbased hnow (not_lt.mp htotal) hmax]
    constructor
    · intro honce
      refine ⟨honce, ?_, ?_⟩
      · by_contra hshort
        exact hnot (.unlimited (not_lt.mp htotal) (.inl (not_le.mp hshort)))
      · by_contra hshort
        exact hnot (.unlimited (not_lt.mp htotal) (.inr (not_le.mp hshort)))
    · exact fun h => h.1

/-- A quotient out of range may be converted to a number that answers differently. -/
theorem exists_conversion_outOfRange (hn : 1 ≤ n) (hmax : n ≤ intMax)
    (honce : x.OfferedOnce a allowNonRequestable) (htotal : x.total < dblMax)
    (hrange : ¬ InIntRange (x.left a / x.amount)) :
    ∃ toInt, IntConversion toInt ∧ ¬ (x.SlotsOffered toInt C a allowNonRequestable slots n ↔
      x.TimeOffered C a allowNonRequestable n) := by
  have hvalue : ∀ v, convertOr v (x.left a / x.amount) = v := fun v => if_neg hrange
  by_cases htime : x.TimeOffered C a allowNonRequestable n
  · -- a conversion that finds nothing
    by_cases hslot : x.perSlot
    · refine ⟨convertOr intMin, intConversion_convertOr (le_refl _) (by decide), fun h => ?_⟩
      have hle := ((slotsOffered_perSlot hbased hnow htotal hslot).mp (h.mpr htime)).2
      rw [hvalue] at hle
      have hneg : intMin < 1 := by decide
      omega
    · refine ⟨convertOr 0, intConversion_convertOr (by decide) (by decide), fun h => ?_⟩
      have hne := ((slotsOffered_once hbased hnow htotal hslot hmax).mp (h.mpr htime)).2
      exact hne (hvalue 0)
  · -- a conversion that finds any number of slots
    refine ⟨convertOr intMax, intConversion_convertOr (by decide) (le_refl _), fun h => htime ?_⟩
    by_cases hslot : x.perSlot
    · apply h.mp
      rw [slotsOffered_perSlot hbased hnow htotal hslot, hvalue]
      exact ⟨honce, hmax⟩
    · apply h.mp
      rw [slotsOffered_once hbased hnow htotal hslot hmax, hvalue]
      exact ⟨honce, by decide⟩

/-- Each of the differences shows with some conversion. -/
theorem exists_conversion_of_differs (hn : 1 ≤ n) (hmax : n ≤ intMax)
    (honce : x.OfferedOnce a allowNonRequestable) (hdiffers : x.Differs a n) :
    ∃ toInt, IntConversion toInt ∧ ¬ (x.SlotsOffered toInt C a allowNonRequestable slots n ↔
      x.TimeOffered C a allowNonRequestable n) := by
  have hconv : IntConversion (convertOr 0) := intConversion_convertOr (by decide) (by decide)
  have htime : x.TimeOffered C a allowNonRequestable n ↔ x.OfferedOnce a allowNonRequestable ∧
      x.amount * x.slotsAsked n ≤ x.offered a ∧
      x.amount * x.slotsAsked n ≤ x.total - x.peak a := timeOffered_iff_offeredOnce hbased hn
  -- in range it is enough that the slots are offered and the time is not
  have finish : x.total < dblMax → (InIntRange (x.left a / x.amount) →
      x.SlotsOffered (convertOr 0) C a allowNonRequestable slots n ∧
        ¬ x.TimeOffered C a allowNonRequestable n) →
      ∃ toInt, IntConversion toInt ∧ ¬ (x.SlotsOffered toInt C a allowNonRequestable slots n ↔
        x.TimeOffered C a allowNonRequestable n) := by
    intro htotal hanswers
    by_cases hrange : InIntRange (x.left a / x.amount)
    · obtain ⟨hslots, hno⟩ := hanswers hrange
      exact ⟨convertOr 0, hconv, fun h => hno (h.mp hslots)⟩
    · exact exists_conversion_outOfRange hbased hnow hn hmax honce htotal hrange
  cases hdiffers with
  | unlimited htotal hshort =>
    refine ⟨convertOr 0, hconv, fun h => ?_⟩
    have hoffered := htime.mp (h.mp ((slotsOffered_unlimited hbased hnow htotal hmax).mpr honce))
    rcases hshort with hshort | hshort
    · exact not_le.mpr hshort hoffered.2.1
    · exact not_le.mpr hshort hoffered.2.2
  | outOfRange htotal hrange =>
    exact exists_conversion_outOfRange hbased hnow hn hmax honce htotal hrange
  | load htotal hslot hshort hleft =>
    refine finish htotal fun hrange => ⟨?_, fun h => ?_⟩
    · exact (slotsOffered_perSlot_inRange hbased hnow hconv htotal hslot hrange hn).mpr
        ⟨honce, hleft⟩
    · have hoffered := (htime.mp h).2.1
      rw [show x.slotsAsked n = n from if_pos hslot] at hoffered
      exact not_le.mpr hshort hoffered
  | exceeded htotal hslot hleft =>
    refine finish htotal fun hrange => ⟨?_, fun h => ?_⟩
    · exact (slotsOffered_once_inRange hbased hnow hconv htotal hslot hrange hmax).mpr
        ⟨honce, .inr hleft⟩
    · obtain ⟨-, hoffered, hpeak⟩ := htime.mp h
      have hle := (x.amount_le_mul (x.one_le_slotsAsked hn)).trans (le_left hoffered hpeak)
      linarith [x.amount_pos]
  | emptySystem htotal hempty hoffered hshort =>
    refine finish htotal fun hrange => ⟨?_, fun h => not_le.mpr hshort (htime.mp h).2.2⟩
    have hleft : x.amount * x.slotsAsked n ≤ x.left a := by
      rw [left_of_usageIgnored hempty]
      exact hoffered.trans offered_le_total
    by_cases hslot : x.perSlot
    · rw [show x.slotsAsked n = n from if_pos hslot] at hleft
      exact (slotsOffered_perSlot_inRange hbased hnow hconv htotal hslot hrange hn).mpr
        ⟨honce, hleft⟩
    · rw [show x.slotsAsked n = 1 from if_neg hslot, Int.cast_one, mul_one] at hleft
      exact (slotsOffered_once_inRange hbased hnow hconv htotal hslot hrange hmax).mpr
        ⟨honce, .inl hleft⟩

omit hnow in
/-- An exceeded consumable is refused by the sequential check. -/
theorem not_timeOffered_of_exceeded (hn : 1 ≤ n) (h : x.total < x.peak a) :
    ¬ x.TimeOffered C a allowNonRequestable n := by
  rw [timeOffered_iff_offeredOnce hbased hn]
  rintro ⟨-, -, hleft⟩
  have hone := x.amount_le_mul (x.one_le_slotsAsked hn)
  linarith [x.amount_pos]

end Agreement

section Licence

def noComparison : Comparison := ⟨fun _ _ => 1, fun _ _ => 1, fun _ _ => 1, fun _ _ => 1,
  fun _ _ => 1⟩

/-- A licence needed once for each job, of which `total` are there; `inUse` are in use from 100
on. -/
def licence (total inUse : ℚ) (htotal : 0 ≤ total) : HostConsumable where
  entry := ⟨.int, .le, .job, .yes⟩
  capacity := ⟨[], total⟩
  actual := some { Usage.new "lic" with utilized := some [⟨100, inUse, [], none⟩] }
  load := none
  request := ⟨⟨"1".toList, 1⟩, true, none⟩
  consumable := by decide
  relop := rfl
  numerical := rfl
  total_nonneg := htotal
  request_pos := by decide
  resolved := rfl

/-- An assignment now, at 100, for 60. -/
def nowView : SlotsView where
  now := 100
  duration := 60
  scheduleBased := true
  qsFull := true
  start := 100
  isReservation := false
  isAdvanceReservation := false

end Licence

end HostConsumable

end ClusterScheduler.Sched
