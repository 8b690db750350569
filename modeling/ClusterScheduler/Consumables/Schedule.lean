import ClusterScheduler.Consumables.QuotaSchedule

/-!
# Booking an assignment

The scheduler books an assignment that starts now twice: in what is in use now, and
in the diagrams it looks for free windows in.

* `Assignment` — a job with the queue instances granted to it.
* `rcAddJobUtilization` — the diagrams of one host or queue instance.
* `debitJobFromHosts`, `debitJobFromQueues` — what is in use now.
* `addJobUtilization` — the diagrams.
* `bookingsAgree_iff` — both book the same, unless a consumable
  for each host is configured at a queue instance.

Load, suspension and the resource quotas are left out; quotas have a module of their own.
-/

namespace ClusterScheduler.Consumables

open Foundation Sched

/-! ## Data -/

structure GrantedQueue extends Granted where
  bindingToUse : List (List Char)

/-- An assignment of a job outside of advance reservations. `hosts` and `queues` are the
lists of the scheduler, given by the consumables configured for each name. -/
structure Assignment where
  job : Job
  pe : Option Pe
  gdil : List GrantedQueue
  grants : List GrantedResource
  window : JobWindow
  hosts : String → Option (List String)
  queues : String → Option (List String)
  forJobScheduling : Bool

/-! ## Functions of the source -/

section Functions

variable (parse : ParseUlongVal) (centries : List CEntry)

/-- A call for a host or a queue instance. -/
def rcCall (a : Assignment) (tag : Tag) (binding : List (List Char)) (rsmap : List Resl)
    (amount : Amount) : Booking where
  startTime := a.window.startTime
  duration := a.window.duration
  utilization := amount.value
  level := tag
  forJob := a.forJobScheduling
  implicitNonExclusive := amount.nonexclusive
  bindingTouse := binding
  rsmapInuse := rsmap
  maxReservations := a.window.maxReservations
  start_lt := a.window.start_lt
  duration_lt := a.window.duration_lt

/-- The instances granted of a map on an object. -/
def rsmapInuse (a : Assignment) (tag : Tag) (dcep : CEntry) (name objName : String) :
    List Resl :=
  if (tag = .hostTag ∨ tag = .globalTag) ∧ dcep.valtype = .rsmap then
    match a.grants.find? fun gru => gru.name = name ∧ gru.host = objName with
    | some gru => if gru.type = .resourceMap then gru.resourceMapList else []
    | none => []
  else []

/-- The calls for one consumable. A request for all tasks takes the threads along on
hosts only, and what is booked implicitly has no instances. -/
def rcCalls (a : Assignment) (g : GrantedQueue) (tag : Tag) (objName : String) (slots : ℤ)
    (isMasterTask : Bool) (name : String) (dcep : CEntry) : List Booking :=
  let binding :=
    if (jobGetContributionByScope parse a.job name dcep .global).isSome ∧ tag ≠ .hostTag then []
    else g.bindingToUse
  (consumableDebits parse a.job a.pe name dcep slots isMasterTask).map fun amount =>
    if amount.nonexclusive then rcCall a tag g.bindingToUse [] amount
    else rcCall a tag binding (rsmapInuse a tag dcep name objName) amount

def rcAddLoop (a : Assignment) (g : GrantedQueue) (tag : Tag) (objName : String) (slots : ℤ)
    (isMasterTask doPerHostBooking : Bool) : List String → List Usage → List Usage
  | [], actual => actual
  | name :: config, actual =>
    match centryListLocate centries name with
    | none => actual
    | some dcep =>
      let actual := ensureUsage dcep.consumable name actual
      if consumableDoBooking dcep.consumable isMasterTask doPerHostBooking then
        let calls := rcCalls parse a g tag objName slots isMasterTask name dcep
        rcAddLoop a g tag objName slots isMasterTask doPerHostBooking config
          (updateUsage name (fun u => calls.foldl Usage.schedule u) actual)
      else rcAddLoop a g tag objName slots isMasterTask doPerHostBooking config actual

/-- Nothing is booked for no slots. The slots are negative when a booking is taken back. -/
def rcAddJobUtilization (a : Assignment) (g : GrantedQueue) (tag : Tag) (objName : String)
    (slots : ℤ) (isMasterTask doPerHostBooking : Bool) (config : List String)
    (actual : List Usage) : List Usage :=
  if slots = 0 then actual
  else rcAddLoop parse centries a g tag objName slots isMasterTask doPerHostBooking config actual

def debitHost (a : Assignment) (g : GrantedQueue) (hostName : String)
    (isMasterTask doPerHostBooking : Bool) : Books → Books :=
  atPlace (a.hosts hostName) (.host hostName) fun config =>
    debitHostConsumable parse centries a.job a.grants a.pe hostName config g.slots isMasterTask
      doPerHostBooking

def debitJobFromHosts (a : Assignment) : Bool → Bool → Option String → List GrantedQueue →
    Books → Books
  | _, _, _, [], books => books
  | isMasterTask, doPerGlobalHostBooking, lastHostname, g :: gdil, books =>
    let perHost := hostDoPerHostBooking lastHostname g.qhostname
    let books := debitHost parse centries a g sgeGlobalName isMasterTask
      doPerGlobalHostBooking books
    let books := debitHost parse centries a g g.qhostname isMasterTask perHost.1 books
    debitJobFromHosts a false false perHost.2 gdil books

/-- A queue instance that is not in the list is passed by, and its host does not count
as booked. -/
def debitJobFromQueues (a : Assignment) : Bool → Option String → List GrantedQueue →
    Books → Books
  | _, _, [], books => books
  | masterTask, lastHostname, g :: gdil, books =>
    if g.slots ≠ 0 then
      match a.queues g.qname with
      | none => debitJobFromQueues a false lastHostname gdil books
      | some config =>
        let perHost := hostDoPerHostBooking lastHostname g.qhostname
        debitJobFromQueues a false perHost.2 gdil
          (Function.update books (.queue g.qname)
            (qinstanceDebitConsumable parse centries a.job a.pe config g.slots masterTask
              perHost.1 (books (.queue g.qname))))
    else debitJobFromQueues a false lastHostname gdil books

def addJobUtilization (a : Assignment) : Bool → Bool → Option String → List GrantedQueue →
    Books → Books
  | _, _, _, [], books => books
  | isMasterTask, doPerGlobalHostBooking, lastEhName, g :: gdil, books =>
    let perHost := hostDoPerHostBooking lastEhName g.qhostname
    let books := atPlace (a.hosts sgeGlobalName) (.host sgeGlobalName)
      (rcAddJobUtilization parse centries a g .globalTag sgeGlobalName g.slots isMasterTask
        doPerGlobalHostBooking) books
    let books := atPlace (a.hosts g.qhostname) (.host g.qhostname)
      (rcAddJobUtilization parse centries a g .hostTag g.qhostname g.slots isMasterTask
        perHost.1) books
    let books := atPlace (a.queues g.qname) (.queue g.qname)
      (rcAddJobUtilization parse centries a g .queueTag g.qname g.slots isMasterTask false) books
    addJobUtilization a false false perHost.2 gdil books

def debitScheduledJobNow (a : Assignment) (books : Books) : Books :=
  debitJobFromQueues parse centries a true none a.gdil
    (debitJobFromHosts parse centries a true true none a.gdil books)

def debitScheduledJob (a : Assignment) (books : Books) : Books :=
  addJobUtilization parse centries a true true none a.gdil
    (debitScheduledJobNow parse centries a books)

end Functions

/-! ## What is in use -/

section Now

variable {parse : ParseUlongVal} {centries : List CEntry} {a : Assignment} {p : Place}
  {name : String} {b isMasterTask doPerHostBooking : Bool}

/-- The amount added to a consumable of one place by a booking at another. -/
def placeTotal (parse : ParseUlongVal) (centries : List CEntry) (a : Assignment)
    (g : GrantedQueue) (config : Option (List String)) (place : Place)
    (isMasterTask doPerHostBooking : Bool) (p : Place) (name : String) (b : Bool) : ℚ :=
  if p = place then
    match config with
    | some config => configTotal parse centries a.job a.pe g.slots isMasterTask doPerHostBooking b
        name config
    | none => 0
  else 0

def hostTotal (parse : ParseUlongVal) (centries : List CEntry) (a : Assignment) (p : Place)
    (name : String) (b : Bool) : Bool → Bool → Option String → List GrantedQueue → ℚ
  | _, _, _, [] => 0
  | isMasterTask, doPerGlobalHostBooking, lastHostname, g :: gdil =>
    let perHost := hostDoPerHostBooking lastHostname g.qhostname
    placeTotal parse centries a g (a.hosts sgeGlobalName) (.host sgeGlobalName) isMasterTask
        doPerGlobalHostBooking p name b +
      placeTotal parse centries a g (a.hosts g.qhostname) (.host g.qhostname) isMasterTask
        perHost.1 p name b +
      hostTotal parse centries a p name b false false perHost.2 gdil

def queueTotal (parse : ParseUlongVal) (centries : List CEntry) (a : Assignment) (p : Place)
    (name : String) (b : Bool) : Bool → Option String → List GrantedQueue → ℚ
  | _, _, [] => 0
  | isMasterTask, lastHostname, g :: gdil =>
    if (a.queues g.qname).isSome then
      let perHost := hostDoPerHostBooking lastHostname g.qhostname
      placeTotal parse centries a g (a.queues g.qname) (.queue g.qname) isMasterTask
          perHost.1 p name b +
        queueTotal parse centries a p name b false perHost.2 gdil
    else queueTotal parse centries a p name b false lastHostname gdil

theorem nowAt_debitHost (g : GrantedQueue) (hostName : String) (books : Books) :
    nowAt b name (debitHost parse centries a g hostName isMasterTask doPerHostBooking books p) =
      nowAt b name (books p) + placeTotal parse centries a g (a.hosts hostName) (.host hostName)
        isMasterTask doPerHostBooking p name b := by
  rw [debitHost]
  unfold placeTotal
  cases a.hosts hostName with
  | none =>
    show nowAt b name (books p) = _
    simp
  | some config =>
    by_cases hp : p = .host hostName
    · rw [if_pos hp, hp, atPlace, Function.update_self]
      exact posts_now_host.adds _ trivial
    · rw [if_neg hp, atPlace, Function.update_of_ne hp, add_zero]

theorem nowAt_hosts (gdil : List GrantedQueue) (isMasterTask doPerGlobalHostBooking : Bool)
    (last : Option String) (books : Books) :
    nowAt b name (debitJobFromHosts parse centries a isMasterTask doPerGlobalHostBooking last gdil
      books p) = nowAt b name (books p) + hostTotal parse centries a p name b isMasterTask
        doPerGlobalHostBooking last gdil := by
  induction gdil generalizing isMasterTask doPerGlobalHostBooking last books with
  | nil => simp [debitJobFromHosts, hostTotal]
  | cons g gdil ih =>
    rw [debitJobFromHosts, hostTotal, ih, nowAt_debitHost, nowAt_debitHost, add_assoc,
      add_assoc, add_assoc]

theorem nowAt_queues (gdil : List GrantedQueue) (hslots : ∀ g ∈ gdil, g.slots ≠ 0)
    (isMasterTask : Bool) (last : Option String) (books : Books) :
    nowAt b name (debitJobFromQueues parse centries a isMasterTask last gdil books p) =
      nowAt b name (books p) + queueTotal parse centries a p name b isMasterTask last gdil := by
  induction gdil generalizing isMasterTask last books with
  | nil => simp [debitJobFromQueues, queueTotal]
  | cons g gdil ih =>
    have ih := ih fun x hx => hslots x (List.mem_cons_of_mem g hx)
    rw [debitJobFromQueues, if_pos (hslots g List.mem_cons_self), queueTotal]
    cases hconfig : a.queues g.qname with
    | none =>
      simp only [Option.isSome_none, Bool.false_eq_true, if_false]
      exact ih false last books
    | some config =>
      simp only [Option.isSome_some, if_true]
      rw [ih, ← add_assoc]
      unfold placeTotal
      congr 1
      by_cases hp : p = .queue g.qname
      · rw [if_pos hp, hp, Function.update_self]
        exact posts_now_qinstance.adds _ trivial
      · rw [if_neg hp, Function.update_of_ne hp, add_zero]

end Now

/-! ## The calls for the diagrams -/

section Calls

variable (parse : ParseUlongVal) (centries : List CEntry) (a : Assignment)

/-- The calls for the element of one consumable of an object. -/
def configCalls (g : GrantedQueue) (tag : Tag) (objName : String) (slots : ℤ)
    (isMasterTask doPerHostBooking : Bool) (name : String) : List String → List Booking
  | [] => []
  | n :: config =>
    match centryListLocate centries n with
    | none => []
    | some dcep =>
      (if n = name ∧ consumableDoBooking dcep.consumable isMasterTask doPerHostBooking then
        rcCalls parse a g tag objName slots isMasterTask n dcep
      else []) ++ configCalls g tag objName slots isMasterTask doPerHostBooking name config

def placeCalls (g : GrantedQueue) (config : Option (List String)) (place : Place) (tag : Tag)
    (objName : String) (isMasterTask doPerHostBooking : Bool) (p : Place) (name : String) :
    List Booking :=
  if p = place ∧ g.slots ≠ 0 then
    match config with
    | some config => configCalls parse centries a g tag objName g.slots isMasterTask
        doPerHostBooking name config
    | none => []
  else []

/-- The calls an assignment makes for the element of a consumable at a place. -/
def scheduleCalls (p : Place) (name : String) : Bool → Bool → Option String →
    List GrantedQueue → List Booking
  | _, _, _, [] => []
  | isMasterTask, doPerGlobalHostBooking, lastEhName, g :: gdil =>
    let perHost := hostDoPerHostBooking lastEhName g.qhostname
    placeCalls parse centries a g (a.hosts sgeGlobalName) (.host sgeGlobalName) .globalTag
        sgeGlobalName isMasterTask doPerGlobalHostBooking p name ++
      placeCalls parse centries a g (a.hosts g.qhostname) (.host g.qhostname) .hostTag
        g.qhostname isMasterTask perHost.1 p name ++
      placeCalls parse centries a g (a.queues g.qname) (.queue g.qname) .queueTag g.qname
        isMasterTask false p name ++
      scheduleCalls p name false false perHost.2 gdil

variable {parse centries a} {g : GrantedQueue} {tag : Tag} {objName name : String} {slots : ℤ}
  {isMasterTask doPerHostBooking b : Bool} {p : Place}

theorem usageAt_rcAddJobUtilization (hslots : slots ≠ 0) (config : List String)
    (actual : List Usage) :
    usageAt name (rcAddJobUtilization parse centries a g tag objName slots isMasterTask
      doPerHostBooking config actual) = (configCalls parse centries a g tag objName slots
        isMasterTask doPerHostBooking name config).foldl Usage.schedule (usageAt name actual) := by
  rw [rcAddJobUtilization, if_neg hslots]
  induction config generalizing actual with
  | nil => rfl
  | cons n config ih =>
    rw [rcAddLoop, configCalls]
    cases hlocate : centryListLocate centries n with
    | none => rfl
    | some dcep =>
      dsimp only
      rw [List.foldl_append]
      split_ifs with hdo hboth hboth
      · rw [ih, usageAt_updateUsage (schedule_name _), if_pos hboth.1.symm, hboth.1,
          usageAt_ensureUsage]
      · have hne : name ≠ n := fun h => hboth ⟨h.symm, hdo⟩
        rw [ih, usageAt_updateUsage (schedule_name _), if_neg hne, usageAt_ensureUsage]
        rfl
      · exact absurd hboth.2 hdo
      · rw [ih, usageAt_ensureUsage]
        rfl

theorem usageAt_atPlace (config : Option (List String)) (place : Place) (books : Books) :
    usageAt name (atPlace config place (rcAddJobUtilization parse centries a g tag objName
      g.slots isMasterTask doPerHostBooking) books p) =
      (placeCalls parse centries a g config place tag objName isMasterTask doPerHostBooking p
        name).foldl Usage.schedule (usageAt name (books p)) := by
  unfold placeCalls
  cases config with
  | none =>
    show usageAt name (books p) = _
    simp
  | some config =>
    by_cases hp : p = place
    · rw [hp, atPlace, Function.update_self]
      by_cases hslots : g.slots = 0
      · simp [hslots, rcAddJobUtilization]
      · rw [if_pos ⟨rfl, hslots⟩]
        exact usageAt_rcAddJobUtilization (Nat.cast_ne_zero.mpr hslots) config _
    · rw [atPlace, Function.update_of_ne hp, if_neg fun h => hp h.1]
      rfl

/-- **The diagrams** after an assignment are those its calls make. -/
theorem usageAt_addJobUtilization (gdil : List GrantedQueue)
    (isMasterTask doPerGlobalHostBooking : Bool) (last : Option String) (books : Books) :
    usageAt name (addJobUtilization parse centries a isMasterTask doPerGlobalHostBooking last gdil
      books p) = (scheduleCalls parse centries a p name isMasterTask doPerGlobalHostBooking last
        gdil).foldl Usage.schedule (usageAt name (books p)) := by
  induction gdil generalizing isMasterTask doPerGlobalHostBooking last books with
  | nil => rfl
  | cons g gdil ih =>
    rw [addJobUtilization, scheduleCalls, ih, usageAt_atPlace, usageAt_atPlace, usageAt_atPlace,
      List.foldl_append, List.foldl_append, List.foldl_append]

theorem schedule_now (calls : List Booking) (u : Usage) :
    (calls.foldl Usage.schedule u).now b = u.now b := by
  induction calls generalizing u with
  | nil => rfl
  | cons call calls ih => exact (ih (u.schedule call)).trans rfl

theorem nowAt_addJobUtilization (books : Books) (gdil : List GrantedQueue) :
    nowAt b name (addJobUtilization parse centries a true true none gdil books p) =
      nowAt b name (books p) := by
  rw [nowAt, usageAt_addJobUtilization, schedule_now]
  rfl

theorem callTotal_append (calls calls' : List Booking) :
    callTotal b (calls ++ calls') = callTotal b calls + callTotal b calls' := by
  simp [callTotal]

theorem callTotal_rcCalls (dcep : CEntry) :
    callTotal b (rcCalls parse a g tag objName slots isMasterTask name dcep) =
      total b (consumableDebits parse a.job a.pe name dcep slots isMasterTask) := by
  rw [rcCalls]
  generalize consumableDebits parse a.job a.pe name dcep slots isMasterTask = l
  induction l with
  | nil => rfl
  | cons amount l ih =>
    rw [List.map_cons, callTotal_cons, ih, total_cons]
    congr 1
    obtain ⟨nonexclusive, value⟩ := amount
    cases nonexclusive <;> rfl

theorem callTotal_configCalls (config : List String) :
    callTotal b (configCalls parse centries a g tag objName slots isMasterTask doPerHostBooking
      name config) = configTotal parse centries a.job a.pe slots isMasterTask doPerHostBooking b
        name config := by
  rw [configTotal]
  induction config with
  | nil => rfl
  | cons n config ih =>
    rw [configCalls, configDebits]
    cases centryListLocate centries n with
    | none => rfl
    | some dcep =>
      dsimp only
      rw [callTotal_append, total_append, ih]
      congr 1
      split_ifs
      · exact callTotal_rcCalls dcep
      · rfl

theorem callTotal_placeCalls (hslots : g.slots ≠ 0) (config : Option (List String))
    (place : Place) :
    callTotal b (placeCalls parse centries a g config place tag objName isMasterTask
      doPerHostBooking p name) =
      placeTotal parse centries a g config place isMasterTask doPerHostBooking p name b := by
  unfold placeCalls placeTotal
  by_cases hp : p = place
  · rw [if_pos ⟨hp, hslots⟩, if_pos hp]
    cases config with
    | none => rfl
    | some config => exact callTotal_configCalls config
  · rw [if_neg fun h => hp h.1, if_neg hp]
    rfl

end Calls

/-! ## Consumables for each host at a queue instance -/

section PerHost

variable (parse : ParseUlongVal) (centries : List CEntry) (a : Assignment)

/-- The consumables for each host among the configured ones. -/
def perHostConsumables : List String → List (String × CEntry)
  | [] => []
  | n :: config =>
    match centryListLocate centries n with
    | none => []
    | some dcep => (if dcep.consumable = .host then [(n, dcep)] else []) ++
        perHostConsumables config

/-- The granted queue instances of the list of the scheduler that are the first of their
host there, with the consumables configured, and whether they are the first granted. -/
def firstOfHost : Bool → Option String → List GrantedQueue →
    List (GrantedQueue × List String × Bool)
  | _, _, [] => []
  | isMasterTask, lastHostname, g :: gdil =>
    match a.queues g.qname with
    | none => firstOfHost false lastHostname gdil
    | some config =>
      let perHost := hostDoPerHostBooking lastHostname g.qhostname
      (if perHost.1 then [(g, config, isMasterTask)] else []) ++
        firstOfHost false perHost.2 gdil

/-- The job takes some of a consumable: by a request, by a default, or because the
consumable is exclusive. -/
def Wants (job : Job) (pe : Option Pe) (name : String) (dcep : CEntry) (slots : ℤ)
    (isMasterTask : Bool) : Prop :=
  dcep.relop = .excl ∨
    (∃ d, jobGetContributionByScope parse job name dcep .global = some d ∧ d ≠ 0) ∨
    (jobGetContributionByScope parse job name dcep .global = none ∧ ∃ p, pe = some p ∧
      ((isMasterTask = true ∧
          ∃ d, jobGetContributionByScope parse job name dcep .master = some d ∧ d ≠ 0) ∨
        (slaveSlots slots isMasterTask p ≠ 0 ∧
          ∃ d, slaveContribution parse job name dcep isMasterTask p = some d ∧ d ≠ 0)))

/-- No queue instance that is the first of its host has a consumable for each host that
the job takes. -/
def NoPerHostAtQueues : Prop :=
  ∀ first ∈ firstOfHost a true none a.gdil,
    ∀ c ∈ perHostConsumables centries first.2.1,
      ¬ Wants parse a.job a.pe c.1 c.2 first.1.slots first.2.2

variable {parse centries a} {job : Job} {pe : Option Pe} {name : String} {dcep : CEntry}
  {slots : ℤ} {isMasterTask doPerHostBooking b : Bool}

variable {contribution : Option ℚ}

theorem bookFor_eq_nil :
    bookFor slots contribution = [] ↔ ¬ ∃ d, contribution = some d ∧ d ≠ 0 := by
  cases contribution with
  | none => simp [bookFor]
  | some d => simp [bookFor]

theorem withImplicit_eq_nil {l : List ℚ} :
    withImplicit dcep slots l = [] ↔ ¬ dcep.relop = .excl ∧ l = [] := by
  unfold withImplicit
  split_ifs with h
  · exact iff_of_false (fun hf => hf) fun hn => hn.1 h.2
  · rw [List.map_eq_nil_iff]
    exact ⟨fun hl => ⟨fun hexcl => h ⟨hl, hexcl⟩, hl⟩, And.right⟩

theorem consumableDebits_eq_nil : consumableDebits parse job pe name dcep slots isMasterTask = [] ↔
    ¬ Wants parse job pe name dcep slots isMasterTask := by
  rw [consumableDebits, withImplicit_eq_nil, Wants, not_or]
  refine and_congr_right fun _ => ?_
  unfold explicitDebits
  cases hglobal : jobGetContributionByScope parse job name dcep .global with
  | some d => simp [bookFor_eq_nil]
  | none =>
    cases pe with
    | none => simp
    | some p =>
      have hmaster : masterDebits parse job name dcep slots isMasterTask = [] ↔
          ¬ (isMasterTask = true ∧
            ∃ d, jobGetContributionByScope parse job name dcep .master = some d ∧ d ≠ 0) := by
        unfold masterDebits
        split_ifs with hm <;> simp [hm, bookFor_eq_nil]
      have hslave : slaveDebits parse job name dcep slots isMasterTask p = [] ↔
          ¬ (slaveSlots slots isMasterTask p ≠ 0 ∧
            ∃ d, slaveContribution parse job name dcep isMasterTask p = some d ∧ d ≠ 0) := by
        unfold slaveDebits
        split_ifs with hs
        · rw [bookFor_eq_nil, not_and]
          exact ⟨fun h _ => h, fun h => h hs⟩
        · exact iff_of_true rfl fun h => hs h.1
      rw [List.append_eq_nil_iff, hmaster, hslave]
      simp

/-- What is booked of a consumable for each host at a queue instance. -/
def perHostTotal (parse : ParseUlongVal) (centries : List CEntry) (a : Assignment) (p : Place)
    (name : String) (b : Bool) (first : GrantedQueue × List String × Bool) : ℚ :=
  if p = .queue first.1.qname then
    ((perHostConsumables centries first.2.1).map fun c =>
      if c.1 = name then
        total b (consumableDebits parse a.job a.pe c.1 c.2 first.1.slots first.2.2)
      else 0).sum
  else 0

theorem configTotal_perHost (g : GrantedQueue) (config : List String) :
    configTotal parse centries a.job a.pe g.slots isMasterTask true b name config =
      configTotal parse centries a.job a.pe g.slots isMasterTask false b name config +
        ((perHostConsumables centries config).map fun c =>
          if c.1 = name then
            total b (consumableDebits parse a.job a.pe c.1 c.2 g.slots isMasterTask)
          else 0).sum := by
  unfold configTotal
  induction config with
  | nil => simp [configDebits, perHostConsumables]
  | cons n config ih =>
    rw [configDebits, configDebits, perHostConsumables]
    cases centryListLocate centries n with
    | none => simp
    | some dcep =>
      dsimp only
      rw [total_append, total_append, ih, List.map_append, List.sum_append]
      by_cases hn : n = name
      · cases hc : dcep.consumable <;> cases isMasterTask <;>
          simp [hn, consumableDoBooking] <;> ring
      · cases hc : dcep.consumable <;> simp [hn]

variable {p : Place}

theorem placeTotal_perHost (g : GrantedQueue) (config : List String) (flag : Bool) :
    placeTotal parse centries a g (some config) (.queue g.qname) isMasterTask flag p name b =
      placeTotal parse centries a g (some config) (.queue g.qname) isMasterTask false p name b +
        (if flag then perHostTotal parse centries a p name b (g, config, isMasterTask) else 0) := by
  cases flag with
  | false => simp
  | true =>
    unfold placeTotal perHostTotal
    by_cases hp : p = .queue g.qname
    · simp only [hp, if_true]
      exact configTotal_perHost g config
    · simp [hp]

theorem total_eq_calls (gdil : List GrantedQueue) (hslots : ∀ g ∈ gdil, g.slots ≠ 0)
    (isMasterTask doPerGlobalHostBooking : Bool) (last last' : Option String) :
    hostTotal parse centries a p name b isMasterTask doPerGlobalHostBooking last gdil +
        queueTotal parse centries a p name b isMasterTask last' gdil =
      callTotal b (scheduleCalls parse centries a p name isMasterTask doPerGlobalHostBooking last
        gdil) + ((firstOfHost a isMasterTask last' gdil).map
          (perHostTotal parse centries a p name b)).sum := by
  induction gdil generalizing isMasterTask doPerGlobalHostBooking last last' with
  | nil => simp [hostTotal, queueTotal, scheduleCalls, firstOfHost, callTotal]
  | cons g gdil ih =>
    have ih := ih fun x hx => hslots x (List.mem_cons_of_mem g hx)
    rw [hostTotal, queueTotal, scheduleCalls, firstOfHost]
    simp only [callTotal_append, callTotal_placeCalls (hslots g List.mem_cons_self)]
    cases hconfig : a.queues g.qname with
    | none =>
      have hnone : placeTotal parse centries a g none (.queue g.qname) isMasterTask false p name
          b = 0 := by
        unfold placeTotal
        exact ite_self 0
      simp only [Option.isSome_none, Bool.false_eq_true, if_false, hnone]
      linarith [ih false false (hostDoPerHostBooking last g.qhostname).2 last']
    | some config =>
      simp only [Option.isSome_some, if_true]
      rw [placeTotal_perHost g config, List.map_append, List.sum_append]
      have hfirst : ((if (hostDoPerHostBooking last' g.qhostname).1 = true then
          [(g, config, isMasterTask)] else []).map (perHostTotal parse centries a p name b)).sum =
          if (hostDoPerHostBooking last' g.qhostname).1 = true then
            perHostTotal parse centries a p name b (g, config, isMasterTask) else 0 := by
        split_ifs <;> simp
      rw [hfirst]
      linarith [ih false false (hostDoPerHostBooking last g.qhostname).2
        (hostDoPerHostBooking last' g.qhostname).2]

/-! ## Amounts that are not negative -/

/-- No request and no default is negative. -/
def NotNegative (parse : ParseUlongVal) (job : Job) : Prop :=
  ∀ name dcep scope d, jobGetContributionByScope parse job name dcep scope = some d → 0 ≤ d

theorem bookFor_pos (hslots : 0 < slots)
    (h : ∀ d, contribution = some d → 0 ≤ d) : ∀ x ∈ bookFor slots contribution, 0 < x := by
  intro x hx
  cases contribution with
  | none => simp [bookFor] at hx
  | some d =>
    by_cases hd : d = 0
    · simp [bookFor, hd] at hx
    · rw [bookFor, if_pos hd, List.mem_singleton] at hx
      rw [hx]
      exact mul_pos (by exact_mod_cast hslots) (lt_of_le_of_ne (h d rfl) (Ne.symm hd))

theorem slotSignum_pos (h : 0 < slots) : slotSignum slots = 1 := if_pos h

theorem consumableGetDebitSlots_pos {c : Consumable} (h : 0 < slots) :
    0 < consumableGetDebitSlots c slots := by
  unfold consumableGetDebitSlots
  split_ifs
  · rw [slotSignum_pos h]
    exact Int.one_pos
  · exact h

theorem consumableDebits_pos (hjob : NotNegative parse job) (h : 0 < slots) :
    ∀ x ∈ consumableDebits parse job pe name dcep slots isMasterTask, 0 < x.value := by
  have hdebit := consumableGetDebitSlots_pos (c := dcep.consumable) h
  have hexplicit : ∀ x ∈ explicitDebits parse job pe name dcep slots isMasterTask, 0 < x := by
    unfold explicitDebits
    cases hglobal : jobGetContributionByScope parse job name dcep .global with
    | some d => exact bookFor_pos hdebit fun d' hd' => hjob _ _ _ _ (hglobal.trans hd')
    | none =>
      cases pe with
      | none => simp
      | some p =>
        intro x hx
        rcases List.mem_append.mp hx with hx | hx
        · unfold masterDebits at hx
          split_ifs at hx
          · rw [slotSignum_pos hdebit] at hx
            exact bookFor_pos Int.one_pos (hjob _ _ _) x hx
          · simp at hx
        · unfold slaveDebits at hx
          split_ifs at hx with hslave
          · have hpos : 0 < slaveSlots slots isMasterTask p := by
              have hnonneg : 0 ≤ slaveSlots slots isMasterTask p := by
                unfold slaveSlots adjustSlaveTaskDebitSlots
                split_ifs <;> omega
              omega
            refine bookFor_pos (consumableGetDebitSlots_pos hpos) ?_ x hx
            intro d hd
            unfold slaveContribution at hd
            split_ifs at hd
            · exact Option.some.inj hd ▸ zero_le_one
            · exact Option.some.inj hd ▸ le_refl 0
            · exact hjob _ _ _ _ hd
          · simp at hx
  intro x hx
  unfold consumableDebits withImplicit at hx
  split_ifs at hx
  · rw [List.mem_singleton.mp hx]
    exact Int.cast_pos.mpr hdebit
  · obtain ⟨y, hy, rfl⟩ := List.mem_map.mp hx
    exact hexplicit y hy

variable {l : List Amount}

theorem total_nonneg (h : ∀ x ∈ l, 0 < x.value) : 0 ≤ total b l := by
  refine List.sum_nonneg fun x hx => ?_
  obtain ⟨y, hy, rfl⟩ := List.mem_map.mp hx
  exact (h y (List.mem_filter.mp hy).1).le

theorem eq_nil_of_total (h : ∀ x ∈ l, 0 < x.value) (hzero : ∀ b, total b l = 0) : l = [] := by
  cases l with
  | nil => rfl
  | cons x l =>
    have hsum := hzero x.nonexclusive
    have hrest := total_nonneg (b := x.nonexclusive) fun y hy => h y (List.mem_cons_of_mem x hy)
    rw [total_cons, if_pos rfl] at hsum
    linarith [h x List.mem_cons_self]

/-! ## Both bookings -/

/-- The amounts in use grow by what the calls for the diagrams book. -/
def BookingsAgree (parse : ParseUlongVal) (centries : List CEntry) (a : Assignment)
    (books : Books) : Prop :=
  ∀ p name b, nowAt b name (debitScheduledJob parse centries a books p) - nowAt b name (books p) =
    callTotal b (scheduleCalls parse centries a p name true true none a.gdil)

theorem bookingsAgree_iff {books : Books} (hslots : ∀ g ∈ a.gdil, g.slots ≠ 0) :
    BookingsAgree parse centries a books ↔ ∀ p name b,
      ((firstOfHost a true none a.gdil).map (perHostTotal parse centries a p name b)).sum = 0 := by
  refine forall₃_congr fun p name b => ?_
  have hnow : nowAt b name (debitScheduledJob parse centries a books p) =
      nowAt b name (books p) + (hostTotal parse centries a p name b true true none a.gdil +
        queueTotal parse centries a p name b true none a.gdil) := by
    rw [debitScheduledJob, nowAt_addJobUtilization, debitScheduledJobNow,
      nowAt_queues a.gdil hslots, nowAt_hosts, add_assoc]
  rw [hnow, total_eq_calls a.gdil hslots, add_sub_cancel_left, add_eq_left]

theorem firstOfHost_mem {gdil : List GrantedQueue} {first : GrantedQueue × List String × Bool}
    {last : Option String} (h : first ∈ firstOfHost a isMasterTask last gdil) : first.1 ∈ gdil := by
  induction gdil generalizing isMasterTask last with
  | nil => simp [firstOfHost] at h
  | cons g gdil ih =>
    rw [firstOfHost] at h
    cases hconfig : a.queues g.qname with
    | none =>
      rw [hconfig] at h
      exact List.mem_cons_of_mem g (ih h)
    | some config =>
      rw [hconfig] at h
      rcases List.mem_append.mp h with h | h
      · split_ifs at h
        · rw [List.mem_singleton.mp h]
          exact .head _
        · simp at h
      · exact List.mem_cons_of_mem g (ih h)

/-- **Consumable bookings agree between now and schedule** when no consumable for each
host is booked at a queue instance, and, amounts being not negative, only then. -/
theorem consumable_bookings_agree (parse : ParseUlongVal) (centries : List CEntry)
    (a : Assignment) (books : Books) (hslots : ∀ g ∈ a.gdil, g.slots ≠ 0) :
    (NoPerHostAtQueues parse centries a → BookingsAgree parse centries a books) ∧
      (NotNegative parse a.job → BookingsAgree parse centries a books →
        NoPerHostAtQueues parse centries a) := by
  rw [bookingsAgree_iff hslots]
  constructor
  · intro hnone p name b
    refine List.sum_eq_zero fun x hx => ?_
    obtain ⟨first, hfirst, rfl⟩ := List.mem_map.mp hx
    unfold perHostTotal
    split_ifs
    · refine List.sum_eq_zero fun y hy => ?_
      obtain ⟨c, hc, rfl⟩ := List.mem_map.mp hy
      rw [consumableDebits_eq_nil.mpr (hnone first hfirst c hc)]
      exact ite_self 0
    · rfl
  · intro hjob hzero first hfirst c hc
    have hpos : ∀ first ∈ firstOfHost a true none a.gdil, ∀ c : String × CEntry,
        ∀ x ∈ consumableDebits parse a.job a.pe c.1 c.2 first.1.slots first.2.2, 0 < x.value :=
      fun first hfirst c => consumableDebits_pos hjob
        (by exact_mod_cast Nat.pos_of_ne_zero (hslots _ (firstOfHost_mem hfirst)))
    have hterm : ∀ first ∈ firstOfHost a true none a.gdil, ∀ (c : String × CEntry) (name : String)
        (b : Bool), 0 ≤ if c.1 = name then
          total b (consumableDebits parse a.job a.pe c.1 c.2 first.1.slots first.2.2) else 0 := by
      intro first hfirst c name b
      split_ifs
      · exact total_nonneg (hpos first hfirst c)
      · exact le_refl 0
    have hnonneg : ∀ first ∈ firstOfHost a true none a.gdil, ∀ p name b,
        0 ≤ perHostTotal parse centries a p name b first := by
      intro first hfirst p name b
      unfold perHostTotal
      split_ifs
      · refine List.sum_nonneg fun x hx => ?_
        obtain ⟨c, -, rfl⟩ := List.mem_map.mp hx
        exact hterm first hfirst c name b
      · exact le_refl 0
    rw [← consumableDebits_eq_nil]
    refine eq_nil_of_total (hpos first hfirst c) fun b => ?_
    -- the amount is one of a sum of amounts that are not negative, and the sum is zero
    have hle := List.single_le_sum (fun x hx => by
        obtain ⟨first', hfirst', rfl⟩ := List.mem_map.mp hx
        exact hnonneg first' hfirst' (.queue first.1.qname) c.1 b) _ (List.mem_map_of_mem hfirst)
    rw [hzero, perHostTotal, if_pos rfl] at hle
    have hle' := List.single_le_sum (fun x hx => by
        obtain ⟨c', -, rfl⟩ := List.mem_map.mp hx
        exact hterm first hfirst c' c.1 b) _ (List.mem_map_of_mem hc)
    rw [if_pos rfl] at hle'
    exact le_antisymm (hle'.trans hle) (total_nonneg (hpos first hfirst c))

end PerHost

/-! ## A licence for each host -/

/-- A consumable for each host. -/
def licenceCEntry : CEntry where
  name := "licence"
  shortcut := "lic"
  valtype := .int
  relop := .le
  consumable := .host
  defaultval := "0"

/-- A job that takes a licence, on one queue instance. The licence is configured at the
host or at the queue instance. -/
def licenceAssignment (atHost atQueue : List String) : Assignment where
  job := { plainJob with requestSetList := [⟨.global, [⟨"licence", 1⟩]⟩] }
  pe := none
  gdil := [⟨⟨"all.q@node", "node", 1⟩, []⟩]
  grants := []
  window := hourWindow
  hosts := fun name => if name = "node" then some atHost else none
  queues := fun name => if name = "all.q@node" then some atQueue else none
  forJobScheduling := true

/-- The licence of a host. -/
theorem consumable_bookings_agree_host :
    BookingsAgree parseDigit [licenceCEntry] (licenceAssignment ["licence"] []) fun _ => [] := by
  refine (consumable_bookings_agree parseDigit [licenceCEntry] (licenceAssignment ["licence"] [])
    (fun _ => []) (by decide)).1 ?_
  intro first hfirst c hc
  have hconfig : ∀ first ∈ firstOfHost (licenceAssignment ["licence"] []) true none
      (licenceAssignment ["licence"] []).gdil, first.2.1 = [] := by
    intro first hfirst
    obtain rfl := List.mem_singleton.mp (show first ∈ [_] from hfirst)
    rfl
  rw [hconfig first hfirst] at hc
  simp [perHostConsumables] at hc

/-- **A licence of a queue instance** is in use now, and its diagram stays empty. -/
theorem queue_licence_unbooked :
    ¬ BookingsAgree parseDigit [licenceCEntry] (licenceAssignment [] ["licence"]) fun _ => [] := by
  intro hagree
  have hnow := hagree (.queue "all.q@node") "licence" false
  revert hnow
  decide +kernel

end ClusterScheduler.Consumables
