import ClusterScheduler.Consumables.Requests
import ClusterScheduler.Sched.ResourceUtilization

/-!
# Booking the consumables in use

Hosts, queue instances and advance reservations have a list of what is in use of
their consumables. Starting a task adds to it, and ending it adds the opposite.

* `Usage` — an element of such a list.
* `rcDebitConsumable` — the amounts of all consumables configured.
* `hostDebitRsmap`, `hostDebitBinding` — the instances of resource maps and the
  threads that were granted.
* `debitHostConsumable`, `qinstanceDebitConsumable` — what is debited of a host
  and of a queue instance.
* `usageAt_rcDebit` — what they add.

Host names are resolved, so one host has one name. Nothing is only checked here:
`just_check` is absent.
-/

namespace ClusterScheduler.Consumables

open Foundation Sched Sgeobj

/-! ## Data -/

/-- What is in use of one consumable, now and in the schedule. -/
structure Usage extends Rue where
  utilizedNow : ℚ
  utilizedNowNonexclusive : ℚ
  utilizedNowResourceMapList : List Resl
  utilizedNowBindingInuse : Option (List Char)

/-- An element that was just created. -/
def Usage.new (name : String) : Usage where
  toRue := Rue.fresh name
  utilizedNow := 0
  utilizedNowNonexclusive := 0
  utilizedNowResourceMapList := []
  utilizedNowBindingInuse := none

/-- A host or a queue instance by name, of the cluster or of an advance reservation. -/
inductive Place where
  | host (name : String)
  | queue (fullName : String)
  | arHost (ar : ℕ) (name : String)
  | arQueue (ar : ℕ) (fullName : String)
  deriving DecidableEq

def sgeGlobalName : String := "global"

/-- What is in use at each place. -/
abbrev Books := Place → List Usage

inductive GruType where
  | hardRequest
  | resourceMap
  | binding
  deriving DecidableEq

/-- A granted resource: an amount, instances of a resource map, or threads. -/
structure GrantedResource where
  type : GruType
  name : String
  host : String
  resourceMapList : List Resl
  bindingInuse : List (List Char)

/-! ## Functions of the source -/

def updateUsage (name : String) (f : Usage → Usage) (actual : List Usage) : List Usage :=
  upsert (·.name) name (Usage.new name) f actual

def ensureUsage (consumable : Consumable) (name : String) (actual : List Usage) : List Usage :=
  if consumable ≠ .no then updateUsage name id actual else actual

def Usage.add (cr : Usage) (a : Amount) : Usage :=
  if a.nonexclusive then
    { cr with utilizedNowNonexclusive := cr.utilizedNowNonexclusive + a.value }
  else { cr with utilizedNow := cr.utilizedNow + a.value }

def Usage.addAll (cr : Usage) (l : List Amount) : Usage := l.foldl Usage.add cr

section Debit

variable (parse : ParseUlongVal) (centries : List CEntry)

/-- `config` has the names of the consumables configured, `actual` the elements. A
consumable that is not defined is an error: what follows is not booked. -/
def rcDebitConsumable (jep : Option Job) (pe : Option Pe) (slots : ℤ)
    (isMasterTask doPerHostBooking : Bool) (mods : ℤ) :
    List String → List Usage → ℤ × List Usage
  | [], actual => (mods, actual)
  | name :: config, actual =>
    match centryListLocate centries name with
    | none => (-1, actual)
    | some dcep =>
      let actual := ensureUsage dcep.consumable name actual
      match jep with
      | none => rcDebitConsumable jep pe slots isMasterTask doPerHostBooking mods config actual
      | some job =>
        if consumableDoBooking dcep.consumable isMasterTask doPerHostBooking then
          let debits := consumableDebits parse job pe name dcep slots isMasterTask
          rcDebitConsumable jep pe slots isMasterTask doPerHostBooking
            (mods + debits.length) config (updateUsage name (·.addAll debits) actual)
        else
          rcDebitConsumable jep pe slots isMasterTask doPerHostBooking mods config actual

def addUlong (amount : ℤ) (resl : Resl) : Resl :=
  { resl with amount := ((resl.amount + amount) % 2 ^ 32).toNat }

def debitResl (slots : ℤ) (resl : Resl) (l : List Resl) : List Resl :=
  upsert Resl.value resl.value { value := resl.value, amount := 0 }
    (addUlong (if slots < 0 then -(resl.amount : ℤ) else resl.amount)) l

/-- Nothing is booked on a host without an element of the map. -/
def hostDebitRsmap (ceName : String) (slots : ℤ) (actual : List Usage) (resl : Resl) :
    List Usage :=
  modifyFirst (·.name) ceName (fun resource =>
    { resource with
      utilizedNowResourceMapList := debitResl slots resl resource.utilizedNowResourceMapList })
    actual

def jaTaskDebitHostRsmap (slots : ℤ) (actual : List Usage) (gru : GrantedResource) : List Usage :=
  gru.resourceMapList.foldl (hostDebitRsmap gru.name slots) actual

def jaTaskDebitHostRsmaps (hostName : String) (slots : ℤ) (grants : List GrantedResource)
    (actual : List Usage) : List Usage :=
  (grants.filter fun gru => gru.host = hostName ∧ gru.type = .resourceMap).foldl
    (jaTaskDebitHostRsmap slots) actual

def hostDebitBinding (ceName : String) (slots : ℤ) (actual : List Usage)
    (bindingToUse : List Char) : List Usage :=
  updateUsage ceName (fun resource =>
    { resource with
      utilizedNowBindingInuse :=
        match resource.utilizedNowBindingInuse with
        | some now => elemMarkNodesAsUsedOrUnused (some now) (parseToTree now)
            (parseToTree bindingToUse) (0 < slots)
        | none => elemMarkNodesAsUsedOrUnused none (parseToTree bindingToUse)
            (parseToTree bindingToUse) (0 < slots) }) actual

def jaTaskDebitHostBinding (slots : ℤ) (actual : List Usage) (gru : GrantedResource) :
    List Usage :=
  gru.bindingInuse.foldl (hostDebitBinding gru.name slots) actual

def jaTaskDebitHostBindings (hostName : String) (slots : ℤ) (grants : List GrantedResource)
    (actual : List Usage) : List Usage :=
  (grants.filter fun gru => gru.host = hostName ∧ gru.type = .binding).foldl
    (jaTaskDebitHostBinding slots) actual

/-- The consumables of a host, then the instances and the threads granted on it. -/
def debitHostConsumable (job : Job) (grants : List GrantedResource) (pe : Option Pe)
    (hostName : String) (config : List String) (slots : ℤ)
    (isMasterTask doPerHostBooking : Bool) (actual : List Usage) : List Usage :=
  jaTaskDebitHostBindings hostName slots grants
    (jaTaskDebitHostRsmaps hostName slots grants
      (rcDebitConsumable parse centries (some job) pe slots isMasterTask doPerHostBooking 0
        config actual).2)

def qinstanceDebitConsumable (job : Job) (pe : Option Pe) (config : List String) (slots : ℤ)
    (isMasterTask doPerHostBooking : Bool) (actual : List Usage) : List Usage :=
  (rcDebitConsumable parse centries (some job) pe slots isMasterTask doPerHostBooking 0
    config actual).2

end Debit

/-- Change what is in use at a place, if it is in the lists. -/
def atPlace (config : Option (List String)) (place : Place)
    (f : List String → List Usage → List Usage) (books : Books) : Books :=
  match config with
  | some config => Function.update books place (f config (books place))
  | none => books

/-! ## Reading the elements -/

def usageAt (name : String) (actual : List Usage) : Usage :=
  (lookup (·.name) name actual).getD (Usage.new name)

def Usage.now (nonexclusive : Bool) (u : Usage) : ℚ :=
  if nonexclusive then u.utilizedNowNonexclusive else u.utilizedNow

def nowAt (nonexclusive : Bool) (name : String) (actual : List Usage) : ℚ :=
  (usageAt name actual).now nonexclusive

def amountOf (id : String) (l : List Resl) : ZMod (2 ^ 32) :=
  (((lookup Resl.value id l).map Resl.amount).getD 0 : ℕ)

def mapAt (name id : String) (actual : List Usage) : ZMod (2 ^ 32) :=
  amountOf id (usageAt name actual).utilizedNowResourceMapList

/-- The consumable has an element. -/
def Known (name : String) (actual : List Usage) : Prop := (lookup (·.name) name actual).isSome

instance (name : String) (actual : List Usage) : Decidable (Known name actual) :=
  inferInstanceAs (Decidable (_ = true))

variable {name name' : String} {actual : List Usage} {b : Bool}

section Update

variable {f : Usage → Usage}

variable (hf : ∀ u, (f u).name = u.name)
include hf

theorem lookup_updateUsage :
    lookup (·.name) name' (updateUsage name f actual) =
      if name' = name then some (f (usageAt name actual))
      else lookup (·.name) name' actual := by
  rw [updateUsage, lookup_upsert hf (by rfl)]
  rfl

theorem usageAt_updateUsage :
    usageAt name' (updateUsage name f actual) =
      if name' = name then f (usageAt name actual) else usageAt name' actual := by
  rw [usageAt, lookup_updateUsage hf]
  split_ifs with h
  · rfl
  · rfl

theorem known_updateUsage :
    Known name' (updateUsage name f actual) ↔ name' = name ∨ Known name' actual := by
  rw [Known, lookup_updateUsage hf]
  split_ifs with h
  · simp [h]
  · simp [h, Known]

omit hf

variable {c : Consumable}

theorem usageAt_ensureUsage : usageAt name' (ensureUsage c name actual) = usageAt name' actual := by
  unfold ensureUsage
  split_ifs
  · rw [usageAt_updateUsage fun _ => by rfl]
    split_ifs with h
    · rw [h]
      rfl
    · rfl
  · rfl

theorem known_ensureUsage :
    Known name' (ensureUsage c name actual) ↔ c ≠ .no ∧ name' = name ∨ Known name' actual := by
  unfold ensureUsage
  split_ifs with hc
  · rw [known_updateUsage fun _ => by rfl]
    simp [hc]
  · simp [hc]

end Update

theorem add_name (u : Usage) (a : Amount) : (u.add a).name = u.name := by
  unfold Usage.add
  split_ifs <;> rfl

theorem addAll_name (l : List Amount) (u : Usage) : (u.addAll l).name = u.name := by
  induction l generalizing u with
  | nil => rfl
  | cons a l ih => exact (ih (u.add a)).trans (add_name u a)

theorem add_now (u : Usage) (a : Amount) :
    (u.add a).now b = u.now b + if a.nonexclusive = b then a.value else 0 := by
  unfold Usage.add Usage.now
  cases a.nonexclusive <;> cases b <;> simp

theorem addAll_now (l : List Amount) (u : Usage) : (u.addAll l).now b = u.now b + total b l := by
  induction l generalizing u with
  | nil => exact (add_zero _).symm
  | cons a l ih =>
    show ((u.add a).addAll l).now b = _
    rw [ih, add_now, total_cons, add_assoc]

theorem add_resourceMap (u : Usage) (a : Amount) :
    (u.add a).utilizedNowResourceMapList = u.utilizedNowResourceMapList := by
  unfold Usage.add
  split_ifs <;> rfl

theorem addAll_resourceMap (l : List Amount) (u : Usage) :
    (u.addAll l).utilizedNowResourceMapList = u.utilizedNowResourceMapList := by
  induction l generalizing u with
  | nil => rfl
  | cons a l ih => exact (ih (u.add a)).trans (add_resourceMap u a)

/-! ## What is debited of the consumables configured -/

section Consumables

variable (parse : ParseUlongVal) (centries : List CEntry)

/-- The amounts added for one consumable while the configured ones are gone through. -/
def configDebits (job : Job) (pe : Option Pe) (slots : ℤ)
    (isMasterTask doPerHostBooking : Bool) (name : String) : List String → List Amount
  | [] => []
  | n :: config =>
    match centryListLocate centries n with
    | none => []
    | some dcep =>
      (if n = name ∧ consumableDoBooking dcep.consumable isMasterTask doPerHostBooking then
        consumableDebits parse job pe n dcep slots isMasterTask
      else []) ++ configDebits job pe slots isMasterTask doPerHostBooking name config

/-- The consumables an element is made for. -/
def ensured : List String → List String
  | [] => []
  | n :: config =>
    match centryListLocate centries n with
    | none => []
    | some dcep => (if dcep.consumable ≠ .no then [n] else []) ++ ensured config

variable {parse centries} {job : Job} {pe : Option Pe} {slots : ℤ}
  {isMasterTask doPerHostBooking : Bool}

theorem doBooking_ne_no {c : Consumable} (h : consumableDoBooking c isMasterTask
    doPerHostBooking = true) : c ≠ .no := by
  rintro rfl
  exact absurd h (by simp [consumableDoBooking])

/-- **The element of a consumable** after all configured ones were debited. -/
theorem usageAt_rcDebit (config : List String) (mods : ℤ) (actual : List Usage) :
    usageAt name (rcDebitConsumable parse centries (some job) pe slots isMasterTask
      doPerHostBooking mods config actual).2 = (usageAt name actual).addAll
        (configDebits parse centries job pe slots isMasterTask doPerHostBooking name config) := by
  induction config generalizing mods actual with
  | nil => rfl
  | cons n config ih =>
    rw [rcDebitConsumable, configDebits]
    cases hlocate : centryListLocate centries n with
    | none => rfl
    | some dcep =>
      dsimp only
      split_ifs with hdo hboth hboth
      · rw [ih, usageAt_updateUsage (addAll_name _), if_pos hboth.1.symm, hboth.1,
          usageAt_ensureUsage, Usage.addAll, Usage.addAll, ← List.foldl_append]
        rfl
      · have hne : name ≠ n := fun h => hboth ⟨h.symm, hdo⟩
        rw [ih, usageAt_updateUsage (addAll_name _), if_neg hne, usageAt_ensureUsage]
        rfl
      · exact absurd hboth.2 hdo
      · rw [ih, usageAt_ensureUsage]
        rfl

theorem known_rcDebit (config : List String) (mods : ℤ) (actual : List Usage) :
    Known name (rcDebitConsumable parse centries (some job) pe slots isMasterTask
      doPerHostBooking mods config actual).2 ↔
      name ∈ ensured centries config ∨ Known name actual := by
  induction config generalizing mods actual with
  | nil => simp [rcDebitConsumable, ensured]
  | cons n config ih =>
    rw [rcDebitConsumable, ensured]
    cases hlocate : centryListLocate centries n with
    | none => simp
    | some dcep =>
      have hmem : name ∈ (if dcep.consumable ≠ .no then [n] else []) ↔
          dcep.consumable ≠ .no ∧ name = n := by
        split_ifs with hno <;> simp [hno]
      dsimp only
      rw [List.mem_append, hmem]
      split_ifs with hdo
      · have hno := doBooking_ne_no hdo
        rw [ih, known_updateUsage (addAll_name _), known_ensureUsage]
        tauto
      · rw [ih, known_ensureUsage]
        tauto

theorem total_configDebits_neg (h : slots ≠ 0) (config : List String) :
    total b (configDebits parse centries job pe (-slots) isMasterTask doPerHostBooking name
      config) = -total b (configDebits parse centries job pe slots isMasterTask doPerHostBooking
        name config) := by
  induction config with
  | nil => simp [configDebits]
  | cons n config ih =>
    rw [configDebits, configDebits]
    cases centryListLocate centries n with
    | none => simp
    | some dcep =>
      dsimp only
      rw [total_append, total_append, ih, neg_add]
      congr 1
      split_ifs
      · exact total_consumableDebits_neg h
      · simp

end Consumables

/-! ## What is debited of the instances of resource maps -/

section Rsmap

variable {inst ceName hostName : String} {slots : ℤ} {resl : Resl} {grants : List GrantedResource}

def signedAmount (slots : ℤ) (resl : Resl) : ZMod (2 ^ 32) :=
  if slots < 0 then -(resl.amount : ZMod (2 ^ 32)) else resl.amount

theorem addUlong_amount (amount : ℤ) (r : Resl) :
    ((addUlong amount r).amount : ZMod (2 ^ 32)) = r.amount + amount := by
  have hnonneg := Int.emod_nonneg ((r.amount : ℤ) + amount) (show (2 ^ 32 : ℤ) ≠ 0 by decide)
  have hcast : (((addUlong amount r).amount : ℤ) : ZMod (2 ^ 32)) =
      (((r.amount : ℤ) + amount : ℤ) : ZMod (2 ^ 32)) := by
    rw [ZMod.intCast_eq_intCast_iff']
    show ((((r.amount : ℤ) + amount) % 2 ^ 32).toNat : ℤ) % _ = _
    rw [Int.toNat_of_nonneg hnonneg]
    exact Int.emod_emod_of_dvd _ (dvd_refl _)
  simpa using hcast

theorem amountOf_debitResl (l : List Resl) :
    amountOf inst (debitResl slots resl l) =
      amountOf inst l + if inst = resl.value then signedAmount slots resl else 0 := by
  rw [debitResl, amountOf, lookup_upsert (fun _ => by rfl) (by rfl)]
  split_ifs with h hneg
  · rw [Option.map_some, Option.getD_some, addUlong_amount, amountOf, h, signedAmount, if_pos hneg]
    cases lookup Resl.value resl.value l <;> simp
  · rw [Option.map_some, Option.getD_some, addUlong_amount, amountOf, h, signedAmount, if_neg hneg]
    cases lookup Resl.value resl.value l <;> simp
  · rw [add_zero]
    rfl

theorem lookup_rsmap :
    lookup (·.name) name (hostDebitRsmap ceName slots actual resl) =
      if name = ceName then (lookup (·.name) ceName actual).map fun resource =>
        { resource with
          utilizedNowResourceMapList := debitResl slots resl resource.utilizedNowResourceMapList }
      else lookup (·.name) name actual := by
  rw [hostDebitRsmap, lookup_modifyFirst fun _ => by rfl]

theorem known_rsmap : Known name (hostDebitRsmap ceName slots actual resl) ↔
    Known name actual := by
  rw [Known, lookup_rsmap]
  split_ifs with h
  · rw [Option.isSome_map, h]
    exact Iff.rfl
  · exact Iff.rfl

/-- An instance is booked in the element of its map, if there is one. -/
theorem mapAt_rsmap (hknown : name = ceName → Known ceName actual) :
    mapAt name inst (hostDebitRsmap ceName slots actual resl) = mapAt name inst actual +
      if name = ceName ∧ inst = resl.value then signedAmount slots resl else 0 := by
  rw [mapAt, usageAt, lookup_rsmap]
  by_cases h : name = ceName
  · obtain ⟨resource, hfind⟩ := Option.isSome_iff_exists.mp (hknown h)
    rw [if_pos h, mapAt, usageAt, h, hfind]
    simp only [Option.map_some, Option.getD_some, amountOf_debitResl, true_and]
  · rw [if_neg h, if_neg fun hc => h hc.1, add_zero]
    rfl

theorem mapAt_rsmap_unknown (h : ¬ Known name actual) :
    mapAt name inst (hostDebitRsmap ceName slots actual resl) = mapAt name inst actual := by
  have hnone : lookup (·.name) name actual = none := Option.not_isSome_iff_eq_none.mp h
  rw [mapAt, usageAt, lookup_rsmap, mapAt, usageAt, hnone]
  split_ifs with hname
  · rw [← hname, hnone]
    rfl
  · rfl

/-- The amount of an instance in the grants for a host, with the sign of the booking. -/
def grantedAmount (grants : List GrantedResource) (hostName name inst : String) (slots : ℤ) :
    ZMod (2 ^ 32) :=
  ((grants.filter fun gru => gru.host = hostName ∧ gru.type = .resourceMap).map fun gru =>
    (gru.resourceMapList.map fun resl =>
      if name = gru.name ∧ inst = resl.value then signedAmount slots resl else 0).sum).sum

theorem grantedAmount_neg (h : slots ≠ 0) :
    grantedAmount grants hostName name inst (-slots) =
      -grantedAmount grants hostName name inst slots := by
  have hsigned : ∀ resl, signedAmount (-slots) resl = -signedAmount slots resl := by
    intro resl
    unfold signedAmount
    rcases lt_or_gt_of_ne h with hlt | hgt
    · rw [if_neg (by omega), if_pos hlt, neg_neg]
    · rw [if_pos (by omega), if_neg (by omega)]
  have hone : ∀ (name' : String) (resl : Resl),
      (if name = name' ∧ inst = resl.value then signedAmount (-slots) resl else 0) =
        -if name = name' ∧ inst = resl.value then signedAmount slots resl else 0 := by
    intro name' resl
    rw [hsigned]
    split_ifs <;> simp
  simp only [grantedAmount, hone, sum_map_neg]

theorem posts_rsmaps (inst : String) (known : Prop) [Decidable known] :
    Posts (fun actual => Known name actual ↔ known) (mapAt name inst)
      (jaTaskDebitHostRsmaps hostName slots grants)
      (if known then grantedAmount grants hostName name inst slots else 0) := by
  have hone : ∀ (ceName : String) (resl : Resl), Posts (fun actual => Known name actual ↔ known)
      (mapAt name inst) (hostDebitRsmap ceName slots · resl)
      (if known ∧ name = ceName ∧ inst = resl.value then signedAmount slots resl else 0) := by
    intro ceName resl
    refine ⟨fun actual h => known_rsmap.trans h, fun actual h => ?_⟩
    by_cases hk : known
    · rw [mapAt_rsmap fun hn => hn ▸ h.mpr hk]
      simp [hk]
    · rw [mapAt_rsmap_unknown fun hn => hk (h.mp hn)]
      simp [hk]
  have hgru := fun gru : GrantedResource => Posts.foldl gru.resourceMapList
    fun resl _ => hone gru.name resl
  have hall := Posts.foldl
    (grants.filter fun gru => gru.host = hostName ∧ gru.type = .resourceMap)
    fun gru _ => hgru gru
  refine hall.congr ?_
  by_cases hk : known
  · simp [hk, grantedAmount]
  · simp [hk]

end Rsmap

/-! ## What is debited of a host and of a queue instance -/

section Host

variable {parse : ParseUlongVal} {centries : List CEntry} {job : Job} {pe : Option Pe}
  {grants : List GrantedResource} {hostName inst : String} {config : List String} {slots : ℤ}
  {isMasterTask doPerHostBooking : Bool}

/-- The amount of a consumable that is added to a field. -/
def configTotal (parse : ParseUlongVal) (centries : List CEntry) (job : Job) (pe : Option Pe)
    (slots : ℤ) (isMasterTask doPerHostBooking b : Bool) (name : String)
    (config : List String) : ℚ :=
  total b (configDebits parse centries job pe slots isMasterTask doPerHostBooking name config)

/-- An operation that leaves the two amounts of every element. -/
theorem posts_now_of_same {op : List Usage → List Usage}
    (h : ∀ actual, (usageAt name (op actual)).utilizedNow = (usageAt name actual).utilizedNow ∧
      (usageAt name (op actual)).utilizedNowNonexclusive =
        (usageAt name actual).utilizedNowNonexclusive) :
    Posts (fun _ => True) (nowAt b name) op 0 where
  keeps := fun _ _ => trivial
  adds := fun actual _ => by
    rw [nowAt, nowAt, Usage.now, Usage.now, (h actual).1, (h actual).2, add_zero]

variable {mods : ℤ}

theorem posts_now_rcDebit : Posts (fun _ => True) (nowAt b name)
    (fun actual => (rcDebitConsumable parse centries (some job) pe slots isMasterTask
      doPerHostBooking mods config actual).2)
    (configTotal parse centries job pe slots isMasterTask doPerHostBooking b name config) where
  keeps := fun _ _ => trivial
  adds := fun actual _ => by
    rw [nowAt, usageAt_rcDebit, addAll_now]
    rfl

theorem posts_now_rsmaps : Posts (fun _ => True) (nowAt b name)
    (jaTaskDebitHostRsmaps hostName slots grants) 0 := by
  have hone : ∀ (ceName : String) (resl : Resl), Posts (fun _ => True) (nowAt b name)
      (hostDebitRsmap ceName slots · resl) 0 := by
    intro ceName resl
    refine posts_now_of_same fun actual => ?_
    rw [usageAt, lookup_rsmap]
    by_cases h : name = ceName
    · rw [if_pos h, usageAt, h]
      cases lookup (·.name) ceName actual <;> exact ⟨rfl, rfl⟩
    · rw [if_neg h]
      exact ⟨rfl, rfl⟩
  have hgru := fun gru : GrantedResource => Posts.foldl gru.resourceMapList
    fun resl _ => hone gru.name resl
  have hall := Posts.foldl
    (grants.filter fun gru => gru.host = hostName ∧ gru.type = .resourceMap)
    fun gru _ => hgru gru
  exact hall.congr (by simp)

theorem posts_now_bindings : Posts (fun _ => True) (nowAt b name)
    (jaTaskDebitHostBindings hostName slots grants) 0 := by
  have hone : ∀ (ceName : String) (use : List Char), Posts (fun _ => True) (nowAt b name)
      (hostDebitBinding ceName slots · use) 0 := by
    intro ceName use
    refine posts_now_of_same fun actual => ?_
    rw [hostDebitBinding, usageAt_updateUsage fun _ => by rfl]
    split_ifs with h
    · rw [h]
      exact ⟨rfl, rfl⟩
    · exact ⟨rfl, rfl⟩
  have hgru := fun gru : GrantedResource => Posts.foldl gru.bindingInuse
    fun use _ => hone gru.name use
  have hall := Posts.foldl
    (grants.filter fun gru => gru.host = hostName ∧ gru.type = .binding)
    fun gru _ => hgru gru
  exact hall.congr (by simp)

/-- **The amounts in use** that are debited of a host are those of its consumables. -/
theorem posts_now_host : Posts (fun _ => True) (nowAt b name)
    (debitHostConsumable parse centries job grants pe hostName config slots isMasterTask
      doPerHostBooking)
    (configTotal parse centries job pe slots isMasterTask doPerHostBooking b name config) :=
  ((posts_now_bindings.comp posts_now_rsmaps).comp posts_now_rcDebit).congr
    (by rw [add_zero, add_zero])

theorem posts_now_qinstance : Posts (fun _ => True) (nowAt b name)
    (qinstanceDebitConsumable parse centries job pe config slots isMasterTask doPerHostBooking)
    (configTotal parse centries job pe slots isMasterTask doPerHostBooking b name config) :=
  posts_now_rcDebit

theorem configTotal_neg (h : slots ≠ 0) :
    configTotal parse centries job pe (-slots) isMasterTask doPerHostBooking b name config =
      -configTotal parse centries job pe slots isMasterTask doPerHostBooking b name config :=
  total_configDebits_neg h config

/-! ## Instances debited of a host -/

theorem mapAt_rcDebit :
    mapAt name inst (rcDebitConsumable parse centries (some job) pe slots isMasterTask
      doPerHostBooking mods config actual).2 = mapAt name inst actual := by
  rw [mapAt, usageAt_rcDebit, addAll_resourceMap]
  rfl

def GrantsOk (grants : List GrantedResource) : Prop :=
  ∀ gru ∈ grants, (gru.type = .binding → gru.name = sgeAttrSlots) ∧
    (gru.type = .resourceMap → gru.name ≠ sgeAttrSlots)

theorem mapAt_bindings :
    mapAt name inst (jaTaskDebitHostBindings hostName slots grants actual) =
      mapAt name inst actual := by
  have hone : ∀ (ceName : String) (use : List Char), Posts (fun _ => True) (mapAt name inst)
      (hostDebitBinding ceName slots · use) 0 := by
    intro ceName use
    refine ⟨fun _ _ => trivial, fun actual _ => ?_⟩
    rw [mapAt, hostDebitBinding, usageAt_updateUsage fun _ => by rfl, mapAt, add_zero]
    split_ifs with h
    · rw [h]
    · rfl
  have hgru := fun gru : GrantedResource => Posts.foldl gru.bindingInuse
    fun use _ => hone gru.name use
  have hall := Posts.foldl
    (grants.filter fun gru => gru.host = hostName ∧ gru.type = .binding)
    fun gru _ => hgru gru
  exact (hall.adds actual trivial).trans (by simp)

theorem known_bindings (hgrants : GrantsOk grants) (hname : name ≠ sgeAttrSlots) :
    Known name (jaTaskDebitHostBindings hostName slots grants actual) ↔ Known name actual := by
  have hgru : ∀ (ceName : String) (l : List (List Char)) (actual : List Usage), ceName ≠ name →
      (Known name (l.foldl (hostDebitBinding ceName slots) actual) ↔ Known name actual) := by
    intro ceName l
    induction l with
    | nil => exact fun _ _ => Iff.rfl
    | cons use l ih =>
      intro actual hne
      refine (ih _ hne).trans ?_
      rw [hostDebitBinding, known_updateUsage fun _ => by rfl]
      exact or_iff_right (Ne.symm hne)
  rw [jaTaskDebitHostBindings]
  have hall : ∀ gru ∈ grants.filter fun gru => gru.host = hostName ∧ gru.type = .binding,
      gru.name ≠ name := by
    intro gru hm heq
    obtain ⟨hm, hp⟩ := List.mem_filter.mp hm
    have htype : gru.type = .binding := (of_decide_eq_true hp).2
    exact hname (heq ▸ (hgrants gru hm).1 htype)
  generalize (grants.filter _) = l at hall
  induction l generalizing actual with
  | nil => exact Iff.rfl
  | cons gru l ih =>
    exact (ih fun g hg => hall g (List.mem_cons_of_mem gru hg)).trans
      (hgru gru.name gru.bindingInuse actual (hall gru (.head _)))

theorem known_debitHost (h : Known name actual) :
    Known name (debitHostConsumable parse centries job grants pe hostName config slots isMasterTask
      doPerHostBooking actual) := by
  have hrsmaps : ∀ actual, Known name actual →
      Known name (jaTaskDebitHostRsmaps hostName slots grants actual) := fun actual h =>
    List.foldlRecOn (motive := Known name) _ _ h fun _ h gru _ =>
      List.foldlRecOn (motive := Known name) _ _ h fun _ h _ _ => known_rsmap.mpr h
  have hbindings : ∀ actual, Known name actual →
      Known name (jaTaskDebitHostBindings hostName slots grants actual) := fun actual h =>
    List.foldlRecOn (motive := Known name) _ _ h fun _ h gru _ =>
      List.foldlRecOn (motive := Known name) _ _ h fun _ h _ _ =>
        (known_updateUsage fun _ => by rfl).mpr (.inr h)
  exact hbindings _ (hrsmaps _ ((known_rcDebit _ _ _).mpr (.inr h)))

/-- The element of a resource map is there when it is configured, else it stays as it
was in the beginning. -/
def Settled (centries : List CEntry) (config : List String) (name : String) (known : Prop)
    (actual : List Usage) : Prop :=
  name ≠ sgeAttrSlots → name ∉ ensured centries config → (Known name actual ↔ known)

/-- What is debited of an instance: the grants for the host, once. -/
def mapTotal (centries : List CEntry) (config : List String) (known : Prop) [Decidable known]
    (grants : List GrantedResource) (hostName name inst : String) (slots : ℤ) : ZMod (2 ^ 32) :=
  if name ∈ ensured centries config ∨ known then
    grantedAmount grants hostName name inst slots
  else 0

theorem grantedAmount_slots (hgrants : GrantsOk grants) :
    grantedAmount grants hostName sgeAttrSlots inst slots = 0 := by
  refine List.sum_eq_zero fun x hx => ?_
  obtain ⟨gru, hm, rfl⟩ := List.mem_map.mp hx
  obtain ⟨hm, hp⟩ := List.mem_filter.mp hm
  have htype : gru.type = .resourceMap := (of_decide_eq_true hp).2
  have hne := ((hgrants gru hm).2 htype).symm
  simp [hne]

/-- **Instances** that are debited of a host. -/
theorem posts_map_host (known : Prop) [Decidable known] (hgrants : GrantsOk grants) :
    Posts (Settled centries config name known) (mapAt name inst)
      (debitHostConsumable parse centries job grants pe hostName config slots isMasterTask
        doPerHostBooking) (mapTotal centries config known grants hostName name inst slots) where
  keeps := by
    intro actual h hname hensured
    rw [debitHostConsumable, known_bindings hgrants hname]
    refine (posts_rsmaps inst known).keeps _ ?_
    rw [known_rcDebit, or_iff_right hensured]
    exact h hname hensured
  adds := by
    intro actual h
    rw [debitHostConsumable, mapAt_bindings, mapTotal]
    by_cases hname : name = sgeAttrSlots
    · subst hname
      rw [(posts_rsmaps inst _).adds _ Iff.rfl, mapAt_rcDebit, grantedAmount_slots hgrants,
        ite_self, ite_self]
    · have hknown : Known name (rcDebitConsumable parse centries (some job) pe slots isMasterTask
          doPerHostBooking 0 config actual).2 ↔ name ∈ ensured centries config ∨ known := by
        rw [known_rcDebit]
        by_cases hensured : name ∈ ensured centries config
        · simp [hensured]
        · rw [h hname hensured]
      rw [(posts_rsmaps inst _).adds _ hknown, mapAt_rcDebit]

theorem mapTotal_neg {known : Prop} [Decidable known] (h : slots ≠ 0) :
    mapTotal centries config known grants hostName name inst (-slots) =
      -mapTotal centries config known grants hostName name inst slots := by
  unfold mapTotal
  split_ifs
  · exact grantedAmount_neg h
  · exact neg_zero.symm

end Host

end ClusterScheduler.Consumables
