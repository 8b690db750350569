import ClusterScheduler.Consumables.Usage

/-!
# Checking a booking before it is made

A task that was scheduled some time ago is only started when the resources are still there.
The functions that debit a host do this check too: with `just_check` they book nothing and
report in a flag, which the three parts of the check share.

* `debitHostConsumableCheck` — the check of a host: amounts, instances, threads.
* `explicitSteps` — the steps in which the requests for one consumable are booked.
* `debitHostConsumable_of_check` — what the check of the amounts promises of the booking.
* `rsmapsCheck_flag` — the check of instances leaves the flag.
-/

namespace ClusterScheduler.Consumables

open Foundation Sched Sgeobj

/-! ## Data -/

/-- A complex value of a host: its capacity, and the instances of a resource map. -/
structure ConfiguredValue where
  name : String
  doubleval : ℚ
  resourceMapList : List Resl

/-- A request that is booked in one step, and what the step before it books. -/
structure DebitStep where
  slots : ℤ
  request : ℚ
  additionalRequest : ℚ

/-! ## Functions of the source -/

def rcDebitConsumableExplicitRequestCheck (capacity now : ℚ) (isExclusive : Bool)
    (s : DebitStep) : Bool :=
  let slots := if isExclusive then 1 else s.slots
  !decide (capacity - now - slots * s.request - s.additionalRequest < 0)

def rcDebitConsumableImplicitExclusiveCheck (now : ℚ) : Bool := !decide (0 < now)

section Check

variable (parse : ParseUlongVal) (centries : List CEntry) (job : Job) (pe : Option Pe)

section Steps

variable (name : String) (dcep : CEntry) (slots : ℤ) (isMasterTask : Bool)

def stepFor (slots : ℤ) (additionalRequest : ℚ) (contribution : Option ℚ) : List DebitStep :=
  match contribution with
  | some dval => if dval ≠ 0 then [⟨slots, dval, additionalRequest⟩] else []
  | none => []

def masterContribution : Option ℚ :=
  if isMasterTask then jobGetContributionByScope parse job name dcep .master else none

def masterSteps : List DebitStep :=
  stepFor (slotSignum (consumableGetDebitSlots dcep.consumable slots)) 0
    (masterContribution parse job name dcep isMasterTask)

/-- What the master task takes was not booked by the check. -/
def slaveSteps (pe : Pe) : List DebitStep :=
  if slaveSlots slots isMasterTask pe ≠ 0 then
    stepFor (consumableGetDebitSlots dcep.consumable (slaveSlots slots isMasterTask pe))
      ((masterContribution parse job name dcep isMasterTask).getD 0)
      (slaveContribution parse job name dcep isMasterTask pe)
  else []

/-- The steps of `explicitDebits`. -/
def explicitSteps : List DebitStep :=
  match jobGetContributionByScope parse job name dcep .global with
  | some dval => stepFor (consumableGetDebitSlots dcep.consumable slots) 0 (some dval)
  | none =>
    match pe with
    | some pe => masterSteps parse job name dcep slots isMasterTask ++
        slaveSteps parse job name dcep slots isMasterTask pe
    | none => []

/-- The check of one consumable. Without a step an exclusive one has to be free. -/
def checkConsumable (capacity now : ℚ) : Bool :=
  let steps := explicitSteps parse job pe name dcep slots isMasterTask
  if steps.isEmpty && dcep.relop = .excl then rcDebitConsumableImplicitExclusiveCheck now
  else steps.all (rcDebitConsumableExplicitRequestCheck capacity now (dcep.relop = .excl))

end Steps

variable (slots : ℤ) (isMasterTask doPerHostBooking : Bool)

/-- The flag of the check of `rcDebitConsumable`, which looks at the amounts in `actual`. -/
def rcDebitConsumableCheck (actual : List Usage) : List ConfiguredValue → Bool
  | [] => true
  | crConfig :: config =>
    match centryListLocate centries crConfig.name with
    -- the function returns, the flag is as it was set in the beginning
    | none => true
    | some dcep =>
      if consumableDoBooking dcep.consumable isMasterTask doPerHostBooking then
        if checkConsumable parse job pe crConfig.name dcep slots isMasterTask
            crConfig.doubleval (nowAt false crConfig.name actual) then
          rcDebitConsumableCheck actual config
        else false
      else rcDebitConsumableCheck actual config

end Check

def checkLoop {α β : Type} (check : α × Bool → β → α × Bool) : List β → α × Bool → α × Bool
  | [], s => s
  | b :: l, s => if (check s b).2 then checkLoop check l (check s b) else check s b

def configuredAmount (config : List ConfiguredValue) (ceName id : String) : ℕ :=
  (((lookup ConfiguredValue.name ceName config).bind fun complexValue =>
    lookup Resl.value id complexValue.resourceMapList).map Resl.amount).getD 0

/-- The elements that are looked up are made. Without an element of the map nothing is
checked. The difference is one of 32 bit numbers without a sign. -/
def hostDebitRsmapCheck (config : List ConfiguredValue) (ceName : String)
    (s : List Usage × Bool) (resl : Resl) : List Usage × Bool :=
  match lookup (·.name) ceName s.1 with
  | none => s
  | some resource =>
    let utilized := ((lookup Resl.value resl.value resource.utilizedNowResourceMapList).map
      Resl.amount).getD 0
    let left : ℤ := ((configuredAmount config ceName resl.value : ℤ) - utilized - resl.amount) %
      2 ^ 32
    (modifyFirst (·.name) ceName (fun resource =>
      { resource with
        utilizedNowResourceMapList := upsert Resl.value resl.value ⟨resl.value, 0⟩ id
          resource.utilizedNowResourceMapList }) s.1, if left < 0 then false else s.2)

def jaTaskDebitHostRsmapCheck (config : List ConfiguredValue) (s : List Usage × Bool)
    (gru : GrantedResource) : List Usage × Bool :=
  checkLoop (hostDebitRsmapCheck config gru.name) gru.resourceMapList s

def jaTaskDebitHostRsmapsCheck (config : List ConfiguredValue) (hostName : String)
    (grants : List GrantedResource) (s : List Usage × Bool) : List Usage × Bool :=
  checkLoop (jaTaskDebitHostRsmapCheck config)
    (grants.filter fun gru => gru.host = hostName ∧ gru.type = .resourceMap) s

/-- The flag is set, whatever it was. -/
def hostDebitBindingCheck (ceName : String) (s : List Usage × Bool) (bindingToUse : List Char) :
    List Usage × Bool :=
  (updateUsage ceName id s.1,
    match (usageAt ceName s.1).utilizedNowBindingInuse with
    | none => true
    | some bindingInUse => bindingToUse ≠ bindingInUse)

def jaTaskDebitHostBindingCheck (s : List Usage × Bool) (gru : GrantedResource) :
    List Usage × Bool :=
  checkLoop (hostDebitBindingCheck gru.name) gru.bindingInuse s

def jaTaskDebitHostBindingsCheck (hostName : String) (grants : List GrantedResource)
    (s : List Usage × Bool) : List Usage × Bool :=
  checkLoop jaTaskDebitHostBindingCheck
    (grants.filter fun gru => gru.host = hostName ∧ gru.type = .binding) s

/-- What the check of a host leaves of what is in use, and its flag. -/
def debitHostConsumableCheck (parse : ParseUlongVal) (centries : List CEntry) (job : Job)
    (grants : List GrantedResource) (pe : Option Pe) (hostName : String)
    (config : List ConfiguredValue) (slots : ℤ) (isMasterTask doPerHostBooking : Bool)
    (actual : List Usage) : List Usage × Bool :=
  jaTaskDebitHostBindingsCheck hostName grants
    (jaTaskDebitHostRsmapsCheck config hostName grants
      (actual, rcDebitConsumableCheck parse centries job pe slots isMasterTask doPerHostBooking
        actual config))

/-! ## The flag -/

section Flag

variable {α β : Type} {check : α × Bool → β → α × Bool}

theorem checkLoop_flag (h : ∀ s b, (check s b).2 = s.2) (l : List β) (s : α × Bool) :
    (checkLoop check l s).2 = s.2 := by
  induction l generalizing s with
  | nil => rfl
  | cons b l ih =>
    rw [checkLoop]
    split_ifs with hflag
    · rw [ih, h]
    · exact h s b

variable {config : List ConfiguredValue} {hostName : String} {grants : List GrantedResource}

theorem rsmapCheck_flag (ceName : String) (s : List Usage × Bool) (resl : Resl) :
    (hostDebitRsmapCheck config ceName s resl).2 = s.2 := by
  unfold hostDebitRsmapCheck
  cases lookup (·.name) ceName s.1 with
  | none => rfl
  | some resource =>
    apply if_neg
    rw [not_lt]
    exact Int.emod_nonneg _ (by decide)

/-- **Instances never lower the flag**, whatever is left of them. -/
theorem rsmapsCheck_flag (s : List Usage × Bool) :
    (jaTaskDebitHostRsmapsCheck config hostName grants s).2 = s.2 := by
  apply checkLoop_flag
  intro s gru
  apply checkLoop_flag
  exact rsmapCheck_flag gru.name

end Flag

/-! ## The amounts -/

def DebitStep.amount (s : DebitStep) : ℚ := s.slots * s.request

def DebitStep.counted (isExclusive : Bool) (s : DebitStep) : ℚ :=
  (if isExclusive then 1 else s.slots) * s.request

section Amounts

variable {parse : ParseUlongVal} {centries : List CEntry} {job : Job} {pe : Option Pe}
  {name : String} {dcep : CEntry} {slots : ℤ} {isMasterTask doPerHostBooking isExclusive : Bool}
  {capacity now : ℚ} {actual : List Usage} {config : List ConfiguredValue}

theorem bookFor_steps (additionalRequest : ℚ) (contribution : Option ℚ) :
    bookFor slots contribution =
      (stepFor slots additionalRequest contribution).map DebitStep.amount := by
  cases contribution with
  | none => rfl
  | some dval =>
    rw [bookFor, stepFor]
    split_ifs
    · rfl
    · rfl

theorem masterDebits_steps : masterDebits parse job name dcep slots isMasterTask =
    (masterSteps parse job name dcep slots isMasterTask).map DebitStep.amount := by
  unfold masterDebits masterSteps masterContribution
  split_ifs
  · exact bookFor_steps 0 _
  · rfl

theorem slaveDebits_steps (pe : Pe) : slaveDebits parse job name dcep slots isMasterTask pe =
    (slaveSteps parse job name dcep slots isMasterTask pe).map DebitStep.amount := by
  unfold slaveDebits slaveSteps
  split_ifs
  · exact bookFor_steps _ _
  · rfl

theorem explicitDebits_steps : explicitDebits parse job pe name dcep slots isMasterTask =
    (explicitSteps parse job pe name dcep slots isMasterTask).map DebitStep.amount := by
  unfold explicitDebits explicitSteps
  cases jobGetContributionByScope parse job name dcep .global with
  | some dval => exact bookFor_steps 0 _
  | none =>
    cases pe with
    | none => rfl
    | some pe =>
      dsimp only
      rw [List.map_append, masterDebits_steps, slaveDebits_steps]

theorem explicitRequestCheck_iff {s : DebitStep} :
    rcDebitConsumableExplicitRequestCheck capacity now isExclusive s = true ↔
      now + s.counted isExclusive + s.additionalRequest ≤ capacity := by
  have hcounted : ((if isExclusive then 1 else s.slots : ℤ) : ℚ) * s.request =
      s.counted isExclusive := by
    unfold DebitStep.counted
    split_ifs
    · rw [Int.cast_one]
    · rfl
  rw [rcDebitConsumableExplicitRequestCheck, Bool.not_eq_true', decide_eq_false_iff_not, not_lt,
    hcounted]
  constructor
  · intro h
    linarith
  · intro h
    linarith

theorem stepFor_cases (slots : ℤ) (additionalRequest : ℚ) (contribution : Option ℚ) :
    (contribution.getD 0 = 0 ∧ stepFor slots additionalRequest contribution = []) ∨
      stepFor slots additionalRequest contribution =
        [⟨slots, contribution.getD 0, additionalRequest⟩] := by
  cases contribution with
  | none => exact .inl ⟨rfl, rfl⟩
  | some dval =>
    by_cases hdval : dval = 0
    · exact .inl ⟨hdval, if_neg (not_not_intro hdval)⟩
    · exact .inr (if_pos hdval)

theorem counted_one (request additionalRequest : ℚ) :
    DebitStep.counted isExclusive ⟨1, request, additionalRequest⟩ = request := by
  unfold DebitStep.counted
  split_ifs
  · exact one_mul request
  · rw [Int.cast_one, one_mul]

theorem counted_le_of_steps {master slave : Option ℚ} {slots : ℤ}
    (hne : stepFor 1 0 master ++ stepFor slots (master.getD 0) slave ≠ [])
    (hall : (stepFor 1 0 master ++ stepFor slots (master.getD 0) slave).all
      (rcDebitConsumableExplicitRequestCheck capacity now isExclusive) = true) :
    now + ((stepFor 1 0 master ++ stepFor slots (master.getD 0) slave).map
      (DebitStep.counted isExclusive)).sum ≤ capacity := by
  simp only [List.all_eq_true, explicitRequestCheck_iff] at hall
  rcases stepFor_cases 1 0 master with ⟨hzero, hmaster⟩ | hmaster
  · rcases stepFor_cases slots (master.getD 0) slave with ⟨-, hslave⟩ | hslave
    · rw [hmaster, hslave] at hne
      exact absurd rfl hne
    · rw [hmaster, hslave] at hall ⊢
      have h := hall _ (List.mem_singleton_self _)
      rw [List.nil_append, List.map_singleton, List.sum_singleton]
      linarith
  · rcases stepFor_cases slots (master.getD 0) slave with ⟨-, hslave⟩ | hslave
    · rw [hmaster, hslave] at hall ⊢
      have h := hall _ (List.mem_singleton_self _)
      rw [List.append_nil, List.map_singleton, List.sum_singleton]
      linarith
    · rw [hmaster, hslave] at hall ⊢
      have h := hall _ (List.mem_append_right _ (List.mem_singleton_self _))
      rw [List.map_append, List.sum_append, List.map_singleton, List.map_singleton,
        List.sum_singleton, List.sum_singleton, counted_one]
      linarith

variable (parse job pe name dcep isMasterTask) in
theorem explicitSteps_eq (hslots : 0 < slots) : ∃ master slave slots',
    explicitSteps parse job pe name dcep slots isMasterTask =
      stepFor 1 0 master ++ stepFor slots' (master.getD 0) slave := by
  have hone : slotSignum (consumableGetDebitSlots dcep.consumable slots) = 1 := by
    have hpos : slotSignum slots = 1 := if_pos hslots
    unfold consumableGetDebitSlots
    split_ifs
    · rw [hpos]
      rfl
    · exact hpos
  unfold explicitSteps
  cases jobGetContributionByScope parse job name dcep .global with
  | some dval => exact ⟨none, some dval, _, rfl⟩
  | none =>
    cases pe with
    | none => exact ⟨none, none, 0, rfl⟩
    | some pe =>
      refine ⟨masterContribution parse job name dcep isMasterTask, ?_⟩
      unfold masterSteps slaveSteps
      rw [hone]
      dsimp only
      split_ifs
      · exact ⟨_, _, rfl⟩
      · exact ⟨none, 0, rfl⟩

theorem counted_le_of_check (hslots : 0 < slots)
    (hcheck : checkConsumable parse job pe name dcep slots isMasterTask capacity now = true)
    (hne : explicitSteps parse job pe name dcep slots isMasterTask ≠ []) :
    now + ((explicitSteps parse job pe name dcep slots isMasterTask).map
      (DebitStep.counted (dcep.relop = .excl))).sum ≤ capacity := by
  have hall : (explicitSteps parse job pe name dcep slots isMasterTask).all
      (rcDebitConsumableExplicitRequestCheck capacity now (dcep.relop = .excl)) = true := by
    have hempty : (explicitSteps parse job pe name dcep slots isMasterTask).isEmpty = false :=
      List.isEmpty_eq_false_iff.mpr hne
    unfold checkConsumable at hcheck
    simpa [hempty] using hcheck
  obtain ⟨master, slave, slots', heq⟩ :=
    explicitSteps_eq parse job pe name dcep isMasterTask hslots
  rw [heq] at hne hall ⊢
  exact counted_le_of_steps hne hall

theorem total_consumableDebits :
    total false (consumableDebits parse job pe name dcep slots isMasterTask) =
      ((explicitSteps parse job pe name dcep slots isMasterTask).map DebitStep.amount).sum := by
  rw [consumableDebits, sum_withImplicit, explicitDebits_steps]

theorem configDebits_of_notMem {names : List String} (h : name ∉ names) :
    configDebits parse centries job pe slots isMasterTask doPerHostBooking name names = [] := by
  induction names with
  | nil => rfl
  | cons n names ih =>
    obtain ⟨hne, hrest⟩ := List.ne_and_not_mem_of_not_mem_cons h
    rw [configDebits]
    cases centryListLocate centries n with
    | none => rfl
    | some dcep => exact (congrArg₂ _ (if_neg fun hn => hne hn.1.symm) (ih hrest)).trans rfl

theorem checked_of_check (hdistinct : (config.map (·.name)).Nodup)
    (hcheck : rcDebitConsumableCheck parse centries job pe slots isMasterTask doPerHostBooking
      actual config = true) {cr : ConfiguredValue} (hcr : cr ∈ config)
    (hdcep : centryListLocate centries cr.name = some dcep) :
    configDebits parse centries job pe slots isMasterTask doPerHostBooking cr.name
        (config.map (·.name)) = [] ∨
      configDebits parse centries job pe slots isMasterTask doPerHostBooking cr.name
          (config.map (·.name)) = consumableDebits parse job pe cr.name dcep slots isMasterTask ∧
        checkConsumable parse job pe cr.name dcep slots isMasterTask cr.doubleval
          (nowAt false cr.name actual) = true := by
  induction config with
  | nil => cases hcr
  | cons c config ih =>
    rw [List.map_cons, List.nodup_cons] at hdistinct
    obtain ⟨hfresh, hdistinct⟩ := hdistinct
    rw [rcDebitConsumableCheck] at hcheck
    rw [List.map_cons, configDebits]
    rcases List.mem_cons.mp hcr with rfl | hmem
    · rw [hdcep] at hcheck ⊢
      dsimp only at hcheck ⊢
      rw [configDebits_of_notMem hfresh, List.append_nil]
      split_ifs at hcheck with hdo hone
      · exact .inr ⟨if_pos ⟨rfl, hdo⟩, hone⟩
      · exact .inl (if_neg fun h => hdo h.2)
    · -- the names differ, so what is booked of this one comes behind
      have hne : c.name ≠ cr.name := fun heq => hfresh (heq ▸ List.mem_map_of_mem hmem)
      cases hlocate : centryListLocate centries c.name with
      | none => exact .inl rfl
      | some dcep' =>
        rw [hlocate] at hcheck
        dsimp only at hcheck ⊢
        rw [if_neg fun h => hne h.1, List.nil_append]
        apply ih hdistinct _ hmem
        split_ifs at hcheck with hdo hone
        · exact hcheck
        · exact hcheck

end Amounts

/-! ## The check of a host -/

section Host

variable {parse : ParseUlongVal} {centries : List CEntry} {job : Job} {pe : Option Pe}
  {grants : List GrantedResource} {hostName : String} {config : List ConfiguredValue}
  {slots : ℤ} {isMasterTask doPerHostBooking : Bool} {actual : List Usage}

theorem debitHostCheck_flag (hnone : ∀ gru ∈ grants, gru.host = hostName → gru.type ≠ .binding) :
    (debitHostConsumableCheck parse centries job grants pe hostName config slots isMasterTask
      doPerHostBooking actual).2 =
      rcDebitConsumableCheck parse centries job pe slots isMasterTask doPerHostBooking actual
        config := by
  have hempty : (grants.filter fun gru => gru.host = hostName ∧ gru.type = .binding) = [] := by
    rw [List.filter_eq_nil_iff]
    intro gru hgru hboth
    obtain ⟨hhost, htype⟩ := of_decide_eq_true hboth
    exact hnone gru hgru hhost htype
  unfold debitHostConsumableCheck jaTaskDebitHostBindingsCheck
  rw [hempty]
  exact rsmapsCheck_flag _

/-- **The check of the amounts is sound.** When no threads are granted on the host and the
check reports that the booking fits, the booking keeps every consumable that is not exclusive
within its capacity. An exclusive one is left as it is, or it is within its capacity with the
requests counted for one slot. -/
theorem debitHostConsumable_of_check (hslots : 0 < slots) (hdistinct : (config.map (·.name)).Nodup)
    (hnone : ∀ gru ∈ grants, gru.host = hostName → gru.type ≠ .binding)
    (hcheck : (debitHostConsumableCheck parse centries job grants pe hostName config slots
      isMasterTask doPerHostBooking actual).2 = true) {cr : ConfiguredValue} (hcr : cr ∈ config)
    {dcep : CEntry} (hdcep : centryListLocate centries cr.name = some dcep) :
    let before := nowAt false cr.name actual
    let after := nowAt false cr.name (debitHostConsumable parse centries job grants pe hostName
      (config.map (·.name)) slots isMasterTask doPerHostBooking actual)
    (dcep.relop ≠ .excl → before ≤ cr.doubleval → after ≤ cr.doubleval) ∧
    (dcep.relop = .excl → after = before ∨
      before + ((explicitSteps parse job pe cr.name dcep slots isMasterTask).map
        (·.request)).sum ≤ cr.doubleval) := by
  intro before after
  have hafter : after = before + total false (configDebits parse centries job pe slots
      isMasterTask doPerHostBooking cr.name (config.map (·.name))) :=
    posts_now_host.adds actual trivial
  rw [debitHostCheck_flag hnone] at hcheck
  rcases checked_of_check hdistinct hcheck hcr hdcep with hnil | ⟨hdebits, hone⟩
  · rw [hnil, total_nil, add_zero] at hafter
    exact ⟨fun _ h => hafter ▸ h, fun _ => .inl hafter⟩
  · rw [hdebits, total_consumableDebits] at hafter
    by_cases hnil : explicitSteps parse job pe cr.name dcep slots isMasterTask = []
    · rw [hnil, List.map_nil, List.sum_nil, add_zero] at hafter
      exact ⟨fun _ h => hafter ▸ h, fun _ => .inl hafter⟩
    · have hcounted := counted_le_of_check hslots hone hnil
      constructor
      · intro hexcl _
        simp only [hexcl, decide_false] at hcounted
        rw [hafter]
        exact hcounted
      · intro hexcl
        simp only [hexcl, decide_true] at hcounted
        refine .inr ((le_of_eq ?_).trans hcounted)
        congr 2
        apply List.map_congr_left
        intro s _
        exact (one_mul s.request).symm

end Host

/-! ## A host with an exclusive consumable -/

def exclusiveName : String := "exclusive"

def exclusiveCEntry : CEntry where
  name := exclusiveName
  shortcut := "excl"
  valtype := .bool
  relop := .excl
  consumable := .yes
  defaultval := "0"

def slotsJob (exclusive : List Request) : Job where
  jobNumber := 1
  owner := "owner"
  group := "group"
  grpList := []
  project := none
  ar := 0
  requestSetList := [⟨.global, ⟨sgeAttrSlots, 1⟩ :: exclusive⟩]

def slotsEntry : CEntry := ⟨sgeAttrSlots, "s", .int, .le, .yes, "1"⟩

def twoSlotHost : List ConfiguredValue := [⟨sgeAttrSlots, 2, []⟩, ⟨exclusiveName, 1, []⟩]

/-- Two tasks on both slots of the idle host. -/
theorem debitHostConsumable_of_check_slots :
    let pe : Pe := ⟨"mpi", true, false⟩
    let after := nowAt false sgeAttrSlots (debitHostConsumable (fun _ _ => none)
      [slotsEntry, exclusiveCEntry] (slotsJob []) [] (some pe) "node" (twoSlotHost.map (·.name)) 2
      true true [])
    after ≤ 2 := by
  intro pe after
  have hcheck : (debitHostConsumableCheck (fun _ _ => none) [slotsEntry, exclusiveCEntry]
      (slotsJob []) [] (some pe) "node" twoSlotHost 2 true true []).2 = true := by decide +kernel
  have hcr : ⟨sgeAttrSlots, 2, []⟩ ∈ twoSlotHost := .head _
  have hdcep : centryListLocate [slotsEntry, exclusiveCEntry] sgeAttrSlots = some slotsEntry := by
    decide
  have hsound := debitHostConsumable_of_check (by decide) (by decide)
    (fun _ hgru => absurd hgru List.not_mem_nil) hcheck hcr hdcep
  exact hsound.1 (by decide) (by decide +kernel)

/-- **An exclusive consumable is booked for every slot.** The job has the idle host for itself
and books two of one. -/
theorem exclusive_exceeds :
    let pe : Pe := ⟨"mpi", true, false⟩
    let job := slotsJob [⟨exclusiveName, 1⟩]
    (debitHostConsumableCheck (fun _ _ => none) [slotsEntry, exclusiveCEntry] job [] (some pe)
      "node" twoSlotHost 2 true true []).2 = true ∧
    nowAt false exclusiveName [] ≤ 1 ∧
    ¬ nowAt false exclusiveName (debitHostConsumable (fun _ _ => none)
      [slotsEntry, exclusiveCEntry] job [] (some pe) "node" (twoSlotHost.map (·.name)) 2 true true
      []) ≤ 1 := by
  refine ⟨?_, ?_, ?_⟩
  · decide +kernel
  · decide +kernel
  · decide +kernel

end ClusterScheduler.Consumables
