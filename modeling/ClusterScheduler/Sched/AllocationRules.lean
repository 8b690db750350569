import Mathlib

/-!
# Allocation rules

How many slots of a parallel job are to be granted on one host. The rule comes from the
parallel environment, or from the job, for all tasks or for the master and the slave tasks
apart.

* `Dispatch` — what an attempt to assign a job comes to.
* `peAllocationRuleSlots` — a rule is parsed for a number of slots.
* `parseCheckAllocationRules` — the two rules of an assignment.

Slots are integers of C without overflow.
-/

namespace ClusterScheduler.Sched

/-- `dispatch_t`. -/
inductive Dispatch where
  | ok
  | notAtTime
  | missingAttr
  | never
  | neverCat
  | neverJob
  deriving DecidableEq

def allocRuleFillup : ℤ := -1

def allocRuleRoundrobin : ℤ := -2

/-- `atoi()` of a text that begins with a digit. -/
def atoi (s : List Char) : ℤ :=
  (s.takeWhile Char.isDigit).foldl (fun n c => 10 * n + (c.toNat - '0'.toNat : ℕ)) 0

/-- `pe_allocation_rule_slots()`. No rule is that of a sequential job; a fixed one has to
divide the slots, or not to be more than them. -/
def peAllocationRuleSlots (allocationRule : Option String) (slots : ℤ)
    (strictFixedModulo : Bool) : ℤ :=
  match allocationRule with
  | none => 1
  | some rule =>
    let text := rule.toList
    if (text.head?.map Char.isDigit).getD false then
      let value := atoi text
      if value = 0 then 0
      else if strictFixedModulo && decide (slots.tmod value ≠ 0) then 0
      else if !strictFixedModulo && decide (slots < value) then 0
      else value
    else if text.map Char.toLower = "$pe_slots".toList then slots
    else if text.map Char.toLower = "$fill_up".toList then allocRuleFillup
    else if text.map Char.toLower = "$round_robin".toList then allocRuleRoundrobin
    else 0

theorem peAllocationRuleSlots_dvd (allocationRule : Option String) (slots : ℤ)
    (h : 0 < peAllocationRuleSlots allocationRule slots true) :
    peAllocationRuleSlots allocationRule slots true ∣ slots := by
  cases allocationRule with
  | none => exact one_dvd slots
  | some rule =>
    unfold peAllocationRuleSlots at h ⊢
    dsimp only at h ⊢
    split_ifs at h ⊢ with hdigit hzero hmod hmore hpe hfill hround
    · exact absurd h (lt_irrefl 0)
    · exact absurd h (lt_irrefl 0)
    · exact absurd h (lt_irrefl 0)
    · exact Int.dvd_of_tmod_eq_zero (by simpa using hmod)
    · exact dvd_refl slots
    · exact absurd h (by decide)
    · exact absurd h (by decide)
    · exact absurd h (lt_irrefl 0)

theorem peAllocationRuleSlots_le (rule : String) (slots : ℤ)
    (h : 0 < peAllocationRuleSlots (some rule) slots false) :
    peAllocationRuleSlots (some rule) slots false ≤ slots := by
  unfold peAllocationRuleSlots at h ⊢
  dsimp only at h ⊢
  split_ifs at h ⊢ with hdigit hzero hmod hmore hpe hfill hround
  · exact absurd h (lt_irrefl 0)
  · exact absurd h (lt_irrefl 0)
  · exact absurd h (lt_irrefl 0)
  · simpa using hmore
  · exact le_rfl
  · exact absurd h (by decide)
  · exact absurd h (by decide)
  · exact absurd h (lt_irrefl 0)

/-- The rules of an assignment. -/
structure AllocationRules where
  mallocationRule : Option String
  allocationRule : Option String
  deriving DecidableEq

/-- `assignment_init_pe_parse_check_allocation_rules()`: the parsed master rule and the
parsed rule, unless they do not suit the slots. -/
def parseCheckAllocationRules (rules : AllocationRules) (slots : ℤ) : Option (ℤ × ℤ) :=
  let mallocationParsed :=
    match rules.mallocationRule with
    | none => 0
    | some rule => peAllocationRuleSlots (some rule) slots false
  if rules.mallocationRule ≠ none ∧ mallocationParsed = 0 then none
  else
    let masterSlots :=
      if rules.mallocationRule = none then 0
      else if 0 < mallocationParsed then mallocationParsed
      else 1
    let allocationParsed := peAllocationRuleSlots rules.allocationRule (slots - masterSlots) true
    if allocationParsed = 0 then none else some (mallocationParsed, allocationParsed)

variable {rules : AllocationRules} {slots malloc alloc : ℤ}

variable (h : parseCheckAllocationRules rules slots = some (malloc, alloc))
include h

theorem parseCheckAllocationRules_dvd
    (hrule : rules.mallocationRule = none) (hfixed : 0 < alloc) : alloc ∣ slots := by
  unfold parseCheckAllocationRules at h
  simp only [hrule, ne_eq, not_true_eq_false, false_and, if_false, if_true, sub_zero] at h
  split at h
  next => nomatch h
  next =>
    obtain ⟨-, rfl⟩ := Prod.mk.inj (Option.some.inj h)
    exact peAllocationRuleSlots_dvd _ _ hfixed

theorem parseCheckAllocationRules_le (hfixed : 0 < malloc) :
    malloc ≤ slots := by
  unfold parseCheckAllocationRules at h
  cases hrule : rules.mallocationRule with
  | none =>
    simp only [hrule, ne_eq, not_true_eq_false, false_and, if_false, if_true] at h
    split at h
    next => nomatch h
    next =>
      obtain ⟨rfl, -⟩ := Prod.mk.inj (Option.some.inj h)
      exact absurd hfixed (lt_irrefl 0)
  | some rule =>
    simp only [hrule, reduceCtorEq, if_false] at h
    split_ifs at h
    all_goals
      obtain ⟨rfl, -⟩ := Prod.mk.inj (Option.some.inj h)
      exact peAllocationRuleSlots_le rule slots hfixed

end ClusterScheduler.Sched
