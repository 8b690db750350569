import ClusterScheduler.Consumables.Quotas
import ClusterScheduler.Sched.AttributeMatch

/-!
# Reservations and resource quotas

A sequential reservation asks every resource quota set for the time from which on its limits leave
room. The answer for a rule is kept in a list, under the name of the rule and of its usage.

* `rqsLimitationReached` — the limits of one rule.
* `rqsBySlots` — the rules of all sets.
* `requestedTimes` — the times of the single limits.
* `closingTimes` — the times of those limits that come last in their rules.
* `rqsBySlots_waits_iff` — the answer waits for every limit exactly if no time is later than all
  closing times.

Filters, dynamic limits and the search among the instances of a resource map are parameters. The
queues and hosts that are sorted out on the way do not enter the answer.
-/

namespace ClusterScheduler.Sched

open Foundation Consumables Sgeobj

/-! ## Data -/

/-- An entry of the complex configuration. -/
structure QuotaCentry where
  name : String
  shortcut : String
  entry : CentryDef
  defaultval : Option CentryValue

/-- A hard request of the job. -/
structure QuotaRequest where
  name : String
  shortcut : String
  request : AttributeRequest

/-- `RQRL_Type`. The value of a dynamic limit is that of a host. -/
structure QuotaLimit where
  name : String
  value : Name
  dvalue : String → ℚ
  usage : List Usage

structure QuotaRule where
  name : Option String
  filters : RuleFilters
  limits : List QuotaLimit

structure QuotaSet where
  name : String
  enabled : Bool
  rules : List QuotaRule

structure LimitEntry where
  name : String
  result : Dispatch
  time : ℕ
  deriving DecidableEq

/-- What is read of the assignment of a sequential job. -/
structure QuotaView extends SchedulerView where
  start : ℕ
  isReservation : Bool
  user : String
  group : String
  grpList : List String
  project : Option String
  requests : List QuotaRequest
  centryList : List QuotaCentry

/-! ## Functions of the source -/

section Functions

variable (C : Comparison) (env : QuotaEnv) (a : QuotaView) (queue host : String)

def quotaCentryLocate (name : String) : Option QuotaCentry :=
  (lookup QuotaCentry.name name a.centryList).or (lookup QuotaCentry.shortcut name a.centryList)

def quotaRequestLocate (name : String) : Option QuotaRequest :=
  (lookup QuotaRequest.name name a.requests).or (lookup QuotaRequest.shortcut name a.requests)

def implicitSlotsRequest : QuotaRequest := ⟨sgeAttrSlots, "", ⟨"1".toList, 1⟩, true, none⟩

/-- What the job asks of a limit. -/
inductive LimitDemand where
  /-- Nothing: the limit is passed over. -/
  | ignored
  /-- A complex that has to be requested is not. -/
  | forced
  | requested (request : QuotaRequest)

def limitDemand (rawCentry : QuotaCentry) (limitName : String) : LimitDemand :=
  match quotaRequestLocate a limitName with
  | some request => .requested request
  | none =>
    if rawCentry.name = sgeAttrSlots then .requested implicitSlotsRequest
    else
      match rawCentry.entry.consumable, rawCentry.defaultval with
      | .yes, some value | .job, some value | .host, some value =>
        -- default requests with zero value are ignored
        if value.doubleval = 0 ∧ rawCentry.entry.relop ≠ .excl then .ignored
        else .requested ⟨rawCentry.name, rawCentry.shortcut, value,
          rawCentry.entry.type ≠ .none, none⟩
      | _, _ => if rawCentry.entry.requestable = .forced then .forced else .ignored

def quotaQuery : RuleQuery := ⟨a.user, a.group, a.grpList, a.project, none, host, queue⟩

/-- What `ri_time_by_slots()` says of one limit, asked for one slot. -/
def limitAnswer (rule : QuotaRule) (rawCentry : QuotaCentry) (limit : QuotaLimit)
    (request : QuotaRequest) : Dispatch × ℕ :=
  let rueName := rqsGetRueString env rule.filters (quotaQuery a queue host)
  let sources : AttributeSources :=
    { config :=
        if request.name = rawCentry.name then some ⟨limit.value, limit.dvalue host⟩ else none
      actual :=
        if request.name = limit.name then some (usageAt rueName limit.usage) else none
      load := none }
  riTimeBySlots C a.toSchedulerView rawCentry.entry request.request sources false 1 a.start

/-- The loop over the limits; `ret` and `start` are the answer so far. -/
def rqsLimitationLoop (rule : QuotaRule) : List QuotaLimit → Dispatch → ℕ → Dispatch × ℕ
  | [], ret, start => (ret, start)
  | limit :: rest, ret, start =>
    match quotaCentryLocate a limit.name with
    | none => rqsLimitationLoop rule rest ret start
    | some rawCentry =>
      match limitDemand a rawCentry limit.name with
      | .ignored => rqsLimitationLoop rule rest ret start
      | .forced => (.neverCat, start)
      | .requested request =>
        let answer := limitAnswer C env a queue host rule rawCentry limit request
        if answer.1 ≠ .ok then (answer.1, start)
        else
          -- the time of an earlier limit is lost
          rqsLimitationLoop rule rest .ok (if a.isReservation then answer.2 else start)

def rqsLimitationReached (rule : QuotaRule) : Dispatch × ℕ :=
  rqsLimitationLoop C env a queue host rule rule.limits .missingAttr a.start

/-- The rule that matches, with the name that stands for it. -/
def quotaMatchingRule (rqs : QuotaSet) : Option (QuotaRule × String) :=
  match rqs.rules.findIdx? fun rule => env.rqsIsMatchingRule rule.filters
      (quotaQuery a queue host) with
  | none => none
  | some i =>
    rqs.rules[i]?.map fun rule => (rule, rqs.name ++ "/" ++ rule.name.getD (toString (i + 1)))

def limitKey (rule : QuotaRule) (ruleName : String) : String :=
  ruleName ++ "=" ++ rqsGetRueString env rule.filters (quotaQuery a queue host)

/-- Check the limits of a rule or reuse an earlier answer. -/
def ruleEntry (rule : QuotaRule) (ruleName : String) (limitList : List LimitEntry) :
    LimitEntry × List LimitEntry :=
  let key := limitKey env a queue host rule ruleName
  match lookup LimitEntry.name key limitList with
  | some entry => (entry, limitList)
  | none =>
    let answer := rqsLimitationReached C env a queue host rule
    let entry : LimitEntry := ⟨key, answer.1, answer.2⟩
    (entry, limitList ++ [entry])

structure QuotaAnswer where
  result : Dispatch
  ttRqsAll : ℕ
  limitList : List LimitEntry

def rqsBySlots : List QuotaSet → ℕ → List LimitEntry → QuotaAnswer
  | [], ttRqsAll, limitList => ⟨.ok, ttRqsAll, limitList⟩
  | rqs :: rest, ttRqsAll, limitList =>
    if !rqs.enabled then rqsBySlots rest ttRqsAll limitList
    else
      match quotaMatchingRule env a queue host rqs with
      | none => rqsBySlots rest ttRqsAll limitList
      | some (rule, ruleName) =>
        let (entry, limitList') := ruleEntry C env a queue host rule ruleName limitList
        if entry.result = .missingAttr then rqsBySlots rest ttRqsAll limitList'
        else if entry.result ≠ .ok then ⟨entry.result, ttRqsAll, limitList'⟩
        else rqsBySlots rest (max ttRqsAll entry.time) limitList'

/-! ## The times of the limits -/

/-- What one round of the loop says, `none` for a limit that is passed over. -/
def limitOutcome (rule : QuotaRule) (limit : QuotaLimit) : Option (Dispatch × ℕ) :=
  match quotaCentryLocate a limit.name with
  | none => none
  | some rawCentry =>
    match limitDemand a rawCentry limit.name with
    | .ignored => none
    | .forced => some (.neverCat, a.start)
    | .requested request => some (limitAnswer C env a queue host rule rawCentry limit request)

def okTime (answer : Dispatch × ℕ) : Option ℕ := if answer.1 = .ok then some answer.2 else none

def timesOf (rule : QuotaRule) (limits : List QuotaLimit) : List ℕ :=
  limits.filterMap fun limit => (limitOutcome C env a queue host rule limit).bind okTime

def requestedTimes (rule : QuotaRule) : List ℕ := timesOf C env a queue host rule rule.limits

/-- Every limit that is requested leaves room at some time. -/
def AllServed (rule : QuotaRule) (limits : List QuotaLimit) : Prop :=
  ∀ limit ∈ limits, ∀ answer ∈ limitOutcome C env a queue host rule limit, answer.1 = .ok

instance (rule : QuotaRule) (limits : List QuotaLimit) :
    Decidable (AllServed C env a queue host rule limits) :=
  inferInstanceAs (Decidable (∀ limit ∈ limits, ∀ answer ∈ _, _))

/-- The time of the last requested limit, if all of them leave room. -/
def closingTime (rule : QuotaRule) : Option ℕ :=
  if AllServed C env a queue host rule rule.limits then
    (requestedTimes C env a queue host rule).getLast?
  else none

def matchingRules (sets : List QuotaSet) : List QuotaRule :=
  sets.filterMap fun rqs =>
    if rqs.enabled then (quotaMatchingRule env a queue host rqs).map Prod.fst else none

/-- Of rules with one key the first one decides. -/
def decidingRules : List QuotaSet → List String → List QuotaRule
  | [], _ => []
  | rqs :: rest, seen =>
    if !rqs.enabled then decidingRules rest seen
    else
      match quotaMatchingRule env a queue host rqs with
      | none => decidingRules rest seen
      | some (rule, ruleName) =>
        let key := limitKey env a queue host rule ruleName
        if key ∈ seen then decidingRules rest seen
        else rule :: decidingRules rest (seen ++ [key])

def closingTimes (sets : List QuotaSet) (seen : List String) : List ℕ :=
  (decidingRules env a queue host sets seen).filterMap (closingTime C env a queue host)

/-- No limit has a time later than all closing times. -/
def LastLimitsDecide (sets : List QuotaSet) : Prop :=
  ∀ rule ∈ matchingRules env a queue host sets,
    ∀ t ∈ requestedTimes C env a queue host rule,
      t ≤ (closingTimes C env a queue host sets []).foldr max 0

/-- The answer waits for every requested limit, and asking again with the answers kept gives the
same. -/
structure WaitsForLimits (sets : List QuotaSet) (answer : QuotaAnswer) : Prop where
  waits : ∀ rule ∈ matchingRules env a queue host sets,
    ∀ t ∈ requestedTimes C env a queue host rule, t ≤ answer.ttRqsAll
  kept : rqsBySlots C env a queue host sets 0 answer.limitList = answer

end Functions

/-! ## One rule -/

section OneRule

variable {C : Comparison} {env : QuotaEnv} {a : QuotaView} {queue host : String}
  {rule : QuotaRule}

theorem rqsLimitationLoop_cons (limit : QuotaLimit) (rest : List QuotaLimit) (ret : Dispatch)
    (start : ℕ) : rqsLimitationLoop C env a queue host rule (limit :: rest) ret start =
      match limitOutcome C env a queue host rule limit with
      | none => rqsLimitationLoop C env a queue host rule rest ret start
      | some answer =>
        if answer.1 ≠ .ok then (answer.1, start)
        else rqsLimitationLoop C env a queue host rule rest .ok
          (if a.isReservation then answer.2 else start) := by
  unfold limitOutcome
  rw [rqsLimitationLoop]
  cases quotaCentryLocate a limit.name with
  | none => rfl
  | some rawCentry =>
    dsimp only
    cases limitDemand a rawCentry limit.name with
    | ignored => rfl
    | forced => rfl
    | requested request => rfl

variable {limits : List QuotaLimit}

theorem rqsLimitationLoop_of_served (hres : a.isReservation = true)
    (h : AllServed C env a queue host rule limits) (ret : Dispatch) (start : ℕ) :
    rqsLimitationLoop C env a queue host rule limits ret start =
      match (timesOf C env a queue host rule limits).getLast? with
      | none => (ret, start)
      | some t => (.ok, t) := by
  induction limits generalizing ret start with
  | nil => rfl
  | cons limit rest ih =>
    have hrest : AllServed C env a queue host rule rest := fun l hl =>
      h l (.tail _ hl)
    rw [rqsLimitationLoop_cons]
    unfold timesOf at ih ⊢
    rw [List.filterMap_cons]
    cases houtcome : limitOutcome C env a queue host rule limit with
    | none => exact ih hrest ret start
    | some answer =>
      have hok : answer.1 = .ok := h limit (.head _) answer houtcome
      have htime : okTime answer = some answer.2 := if_pos hok
      dsimp only [Option.bind_some]
      rw [if_neg (not_not.mpr hok), if_pos hres, htime, ih hrest .ok answer.2]
      dsimp only
      rw [List.getLast?_cons]
      cases (List.filterMap _ rest).getLast? with
      | none => rfl
      | some t => rfl

theorem rqsLimitationLoop_of_not_served
    (h : ¬ AllServed C env a queue host rule limits) (ret : Dispatch) (start : ℕ) :
    (rqsLimitationLoop C env a queue host rule limits ret start).1 ≠ .ok := by
  induction limits generalizing ret start with
  | nil => exact absurd (List.forall_mem_nil _) h
  | cons limit rest ih =>
    rw [rqsLimitationLoop_cons]
    cases houtcome : limitOutcome C env a queue host rule limit with
    | none =>
      apply ih
      intro hrest
      apply h
      intro l hl answer hanswer
      rcases List.mem_cons.mp hl with rfl | hl
      · rw [houtcome] at hanswer
        cases hanswer
      · exact hrest l hl answer hanswer
    | some answer =>
      dsimp only
      split_ifs with hok hres
      · exact hok
      all_goals
        apply ih
        intro hrest
        apply h
        intro l hl answer' hanswer
        rcases List.mem_cons.mp hl with rfl | hl
        · rw [houtcome] at hanswer
          exact Option.mem_some.mp hanswer ▸ not_not.mp hok
        · exact hrest l hl answer' hanswer

/-- **A rule is passed** at the time of its last requested limit. -/
theorem rqsLimitationReached_ok_iff (hres : a.isReservation = true) {t : ℕ} :
    rqsLimitationReached C env a queue host rule = (.ok, t) ↔
      closingTime C env a queue host rule = some t := by
  unfold rqsLimitationReached closingTime
  by_cases hserved : AllServed C env a queue host rule rule.limits
  · rw [if_pos hserved, rqsLimitationLoop_of_served hres hserved]
    unfold requestedTimes
    cases (timesOf C env a queue host rule rule.limits).getLast? with
    | none => simp
    | some c => simp
  · rw [if_neg hserved]
    refine iff_of_false (fun h => ?_) nofun
    exact rqsLimitationLoop_of_not_served hserved _ _ (congrArg Prod.fst h)

end OneRule

/-! ## All rules -/

section AllRules

variable {C : Comparison} {env : QuotaEnv} {a : QuotaView} {queue host : String}
  {sets : List QuotaSet} {limitList : List LimitEntry} {ttRqsAll : ℕ}

/-- The answers kept were passed, and their times are counted. -/
def Counted (limitList : List LimitEntry) (ttRqsAll : ℕ) : Prop :=
  ∀ entry ∈ limitList, entry.result = .missingAttr ∨ entry.result = .ok ∧ entry.time ≤ ttRqsAll

variable {entry : LimitEntry}

theorem Counted.append (h : Counted limitList ttRqsAll) {tt : ℕ} (hle : ttRqsAll ≤ tt)
    (hentry : entry.result = .missingAttr ∨ entry.result = .ok ∧ entry.time ≤ tt) :
    Counted (limitList ++ [entry]) tt := by
  intro e he
  rcases List.mem_append.mp he with he | he
  · exact (h e he).imp_right fun h => ⟨h.1, h.2.trans hle⟩
  · exact List.mem_singleton.mp he ▸ hentry

theorem foldr_max_cons (t : ℕ) (l : List ℕ) (tt : ℕ) :
    max tt ((t :: l).foldr max 0) = max (max tt t) (l.foldr max 0) := by
  rw [List.foldr_cons, max_assoc]

variable {rule : QuotaRule} {ruleName : String}

theorem ruleEntry_of_some
    (h : lookup LimitEntry.name (limitKey env a queue host rule ruleName) limitList = some entry) :
    ruleEntry C env a queue host rule ruleName limitList = (entry, limitList) := by
  unfold ruleEntry
  dsimp only
  rw [h]

theorem ruleEntry_of_none
    (h : lookup LimitEntry.name (limitKey env a queue host rule ruleName) limitList = none) :
    ruleEntry C env a queue host rule ruleName limitList =
      (⟨limitKey env a queue host rule ruleName, (rqsLimitationReached C env a queue host rule).1,
          (rqsLimitationReached C env a queue host rule).2⟩,
        limitList ++ [⟨limitKey env a queue host rule ruleName,
          (rqsLimitationReached C env a queue host rule).1,
          (rqsLimitationReached C env a queue host rule).2⟩]) := by
  unfold ruleEntry
  dsimp only
  rw [h]

/-- **The time over all quotas** is the largest closing time. -/
theorem rqsBySlots_ttRqsAll (hres : a.isReservation = true) (hcounted : Counted limitList ttRqsAll)
    (hok : (rqsBySlots C env a queue host sets ttRqsAll limitList).result = .ok) :
    (rqsBySlots C env a queue host sets ttRqsAll limitList).ttRqsAll =
      max ttRqsAll ((closingTimes C env a queue host sets (limitList.map (·.name))).foldr max
        0) := by
  induction sets generalizing ttRqsAll limitList with
  | nil => exact (max_eq_left (Nat.zero_le _)).symm
  | cons rqs rest ih =>
    unfold closingTimes at ih ⊢
    rw [rqsBySlots] at hok ⊢
    rw [decidingRules]
    by_cases henabled : (!rqs.enabled) = true
    · rw [if_pos henabled] at hok ⊢
      rw [if_pos henabled]
      exact ih hcounted hok
    · rw [if_neg henabled] at hok ⊢
      rw [if_neg henabled]
      cases hrule : quotaMatchingRule env a queue host rqs with
      | none =>
        rw [hrule] at hok
        exact ih hcounted hok
      | some found =>
        obtain ⟨rule, ruleName⟩ := found
        rw [hrule] at hok
        dsimp only at hok ⊢
        cases hentry : lookup LimitEntry.name (limitKey env a queue host rule ruleName)
            limitList with
        | some entry =>
          -- the key was used before: nothing new is counted
          have hmem : entry ∈ limitList := List.mem_of_find?_eq_some hentry
          have hseen : limitKey env a queue host rule ruleName ∈
              limitList.map (·.name) := by
            rw [← lookup_key hentry]
            exact List.mem_map_of_mem hmem
          rw [ruleEntry_of_some hentry] at hok ⊢
          rw [if_pos hseen]
          dsimp only at hok ⊢
          rcases hcounted entry hmem with hmissing | ⟨hentryOk, hle⟩
          · rw [if_pos hmissing] at hok ⊢
            exact ih hcounted hok
          · have hne : ¬ entry.result = .missingAttr := by rw [hentryOk]; decide
            rw [if_neg hne, if_neg (not_not.mpr hentryOk), max_eq_left hle] at hok ⊢
            exact ih hcounted hok
        | none =>
          have hnew := lookup_eq_none.mp hentry
          rw [ruleEntry_of_none hentry] at hok ⊢
          rw [if_neg hnew, List.filterMap_cons]
          dsimp only at hok ⊢
          by_cases hmissing : (rqsLimitationReached C env a queue host rule).1 = .missingAttr
          · have hclosing : closingTime C env a queue host rule = none := by
              by_contra hsome
              obtain ⟨t, ht⟩ := Option.ne_none_iff_exists'.mp hsome
              rw [(rqsLimitationReached_ok_iff hres).mpr ht] at hmissing
              cases hmissing
            rw [if_pos hmissing] at hok ⊢
            rw [hclosing]
            have hnext := ih (hcounted.append (le_refl _) (.inl hmissing)) hok
            rwa [List.map_append] at hnext
          · rw [if_neg hmissing] at hok ⊢
            by_cases hpassed : (rqsLimitationReached C env a queue host rule).1 = .ok
            · have hclosing : closingTime C env a queue host rule =
                  some (rqsLimitationReached C env a queue host rule).2 :=
                (rqsLimitationReached_ok_iff hres).mp (Prod.ext hpassed rfl)
              rw [if_neg (not_not.mpr hpassed)] at hok ⊢
              rw [hclosing, foldr_max_cons]
              have hcounted' : Counted (limitList ++ [⟨limitKey env a queue host rule ruleName,
                    (rqsLimitationReached C env a queue host rule).1,
                    (rqsLimitationReached C env a queue host rule).2⟩])
                  (max ttRqsAll (rqsLimitationReached C env a queue host rule).2) :=
                hcounted.append (le_max_left _ _) (.inr ⟨hpassed, le_max_right _ _⟩)
              have hnext := ih hcounted' hok
              rwa [List.map_append] at hnext
            · rw [if_pos hpassed] at hok
              exact absurd hok hpassed

theorem rqsBySlots_keeps {key : String} (h : lookup LimitEntry.name key limitList = some entry) :
    lookup LimitEntry.name key (rqsBySlots C env a queue host sets ttRqsAll limitList).limitList =
      some entry := by
  induction sets generalizing ttRqsAll limitList with
  | nil => exact h
  | cons rqs rest ih =>
    rw [rqsBySlots]
    split
    · exact ih h
    · split
      · exact ih h
      · next rule ruleName hrule =>
          have hlist : lookup LimitEntry.name key
              (ruleEntry C env a queue host rule ruleName limitList).2 = some entry := by
            cases hentry : lookup LimitEntry.name (limitKey env a queue host rule ruleName)
                limitList with
            | some entry' => rwa [ruleEntry_of_some hentry]
            | none =>
              rw [ruleEntry_of_none hentry]
              dsimp only
              rw [lookup_append, h]
              rfl
          dsimp only
          split_ifs
          · exact ih hlist
          · exact hlist
          · exact ih hlist

theorem lookup_ruleEntry (rule : QuotaRule) (ruleName : String) (limitList : List LimitEntry) :
    lookup LimitEntry.name (limitKey env a queue host rule ruleName)
        (ruleEntry C env a queue host rule ruleName limitList).2 =
      some (ruleEntry C env a queue host rule ruleName limitList).1 := by
  cases hentry : lookup LimitEntry.name (limitKey env a queue host rule ruleName) limitList with
  | some entry => rw [ruleEntry_of_some hentry, hentry]
  | none =>
    rw [ruleEntry_of_none hentry]
    dsimp only
    rw [lookup_append, hentry, lookup_cons, if_pos rfl]
    rfl

/-- **Asking again** with all answers kept gives the same time, and keeps nothing new. -/
theorem rqsBySlots_again
    (hok : (rqsBySlots C env a queue host sets ttRqsAll limitList).result = .ok)
    {kept : List LimitEntry} (hkept : ∀ key entry, lookup LimitEntry.name key
        (rqsBySlots C env a queue host sets ttRqsAll limitList).limitList = some entry →
      lookup LimitEntry.name key kept = some entry) :
    rqsBySlots C env a queue host sets ttRqsAll kept =
      ⟨.ok, (rqsBySlots C env a queue host sets ttRqsAll limitList).ttRqsAll, kept⟩ := by
  induction sets generalizing ttRqsAll limitList with
  | nil => rfl
  | cons rqs rest ih =>
    rw [rqsBySlots] at hok hkept ⊢
    rw [rqsBySlots]
    by_cases henabled : (!rqs.enabled) = true
    · rw [if_pos henabled] at hok hkept ⊢
      rw [if_pos henabled]
      exact ih hok hkept
    · rw [if_neg henabled] at hok hkept ⊢
      rw [if_neg henabled]
      cases hrule : quotaMatchingRule env a queue host rqs with
      | none =>
        rw [hrule] at hok hkept
        exact ih hok hkept
      | some found =>
        obtain ⟨rule, ruleName⟩ := found
        rw [hrule] at hok hkept
        dsimp only at hok hkept ⊢
        have hfound : lookup LimitEntry.name (limitKey env a queue host rule ruleName)
            (ruleEntry C env a queue host rule ruleName limitList).2 =
              some (ruleEntry C env a queue host rule ruleName limitList).1 :=
          lookup_ruleEntry rule ruleName limitList
        generalize ruleEntry C env a queue host rule ruleName limitList = r at hok hkept hfound ⊢
        obtain ⟨entry, limitList'⟩ := r
        dsimp only at hok hkept hfound ⊢
        by_cases hmissing : entry.result = .missingAttr
        · rw [if_pos hmissing] at hok hkept ⊢
          rw [ruleEntry_of_some (hkept _ _ (rqsBySlots_keeps hfound))]
          dsimp only
          rw [if_pos hmissing]
          exact ih hok hkept
        · rw [if_neg hmissing] at hok hkept ⊢
          by_cases hpassed : entry.result = .ok
          · rw [if_neg (not_not.mpr hpassed)] at hok hkept ⊢
            rw [ruleEntry_of_some (hkept _ _ (rqsBySlots_keeps hfound))]
            dsimp only
            rw [if_neg hmissing, if_neg (not_not.mpr hpassed)]
            exact ih hok hkept
          · rw [if_pos hpassed] at hok
            exact absurd hok hpassed

end AllRules

/-! ## The whole answer -/

/-- **The answer waits for every limit** exactly if no limit has a time later than the last
requested limits of the rules. -/
theorem rqsBySlots_waits_iff (C : Comparison) (env : QuotaEnv) (a : QuotaView)
    (queue host : String) (sets : List QuotaSet) (hres : a.isReservation = true)
    (hok : (rqsBySlots C env a queue host sets 0 []).result = .ok) :
    WaitsForLimits C env a queue host sets (rqsBySlots C env a queue host sets 0 []) ↔
      LastLimitsDecide C env a queue host sets := by
  have hnone : Counted [] 0 := fun entry hentry => absurd hentry List.not_mem_nil
  have htime := rqsBySlots_ttRqsAll hres hnone hok
  rw [Nat.zero_max] at htime
  constructor
  · intro h rule hrule t ht
    exact htime ▸ h.waits rule hrule t ht
  · intro h
    refine ⟨fun rule hrule t ht => htime ▸ h rule hrule t ht, ?_⟩
    rw [rqsBySlots_again hok fun _ _ h => h, ← hok]

section TwoLimits

def everyRule : QuotaEnv := ⟨fun _ _ => true, id⟩

def numbersOnly : Comparison := ⟨fun _ _ => 1, fun _ _ => 1, fun _ _ => 1, fun _ _ => 1,
  fun _ _ => 1⟩

def countedCentry (name : String) : QuotaCentry := ⟨name, name, ⟨.int, .le, .yes, .yes⟩, none⟩

def licenceReservation : QuotaView where
  now := 100
  duration := 60
  scheduleBased := true
  qsFull := true
  start := dispatchTimeQueueEnd
  isReservation := true
  user := "u"
  group := "g"
  grpList := []
  project := none
  requests := [⟨"lic", "lic", ⟨"1".toList, 1⟩, true, none⟩]
  centryList := [countedCentry "lic", countedCentry "slots"]

/-- One licence is there, in use from 100 to 500. -/
def licenceLimit : QuotaLimit where
  name := "lic"
  value := "1".toList
  dvalue := fun _ => 1
  usage := [{ Usage.new "/////" with utilized := some [⟨100, 1, [], none⟩, ⟨500, 0, [], none⟩] }]

def slotsLimitOfTen : QuotaLimit := ⟨"slots", "10".toList, fun _ => 10, []⟩

def oneRule (limits : List QuotaLimit) : List QuotaSet :=
  [⟨"set", true, [⟨some "rule", ⟨none, none, none, none, none⟩, limits⟩]⟩]

/-- The licence is the last limit: the reservation waits for it. -/
theorem rqsBySlots_waits_oneRule :
    WaitsForLimits numbersOnly everyRule licenceReservation "q" "h"
      (oneRule [slotsLimitOfTen, licenceLimit])
      (rqsBySlots numbersOnly everyRule licenceReservation "q" "h"
        (oneRule [slotsLimitOfTen, licenceLimit]) 0 []) := by
  refine (rqsBySlots_waits_iff numbersOnly everyRule licenceReservation "q" "h" _ rfl
    (by decide +kernel)).mpr ?_
  unfold LastLimitsDecide
  decide +kernel

/-- **A later limit overwrites the time.** The licence is free from 500 on, and the slots, checked
after it, from now on: the reservation is made for 100. -/
theorem rqsBySlots_overwrites :
    (rqsBySlots numbersOnly everyRule licenceReservation "q" "h"
        (oneRule [licenceLimit, slotsLimitOfTen]) 0 []).result = .ok ∧
    (rqsBySlots numbersOnly everyRule licenceReservation "q" "h"
        (oneRule [licenceLimit, slotsLimitOfTen]) 0 []).ttRqsAll = 100 ∧
    limitAnswer numbersOnly everyRule licenceReservation "q" "h"
        ⟨some "rule", ⟨none, none, none, none, none⟩, [licenceLimit, slotsLimitOfTen]⟩
        (countedCentry "lic") licenceLimit ⟨"lic", "lic", ⟨"1".toList, 1⟩, true, none⟩ =
      (.ok, 500) ∧
    ¬ WaitsForLimits numbersOnly everyRule licenceReservation "q" "h"
      (oneRule [licenceLimit, slotsLimitOfTen])
      (rqsBySlots numbersOnly everyRule licenceReservation "q" "h"
        (oneRule [licenceLimit, slotsLimitOfTen]) 0 []) := by
  have htime : (rqsBySlots numbersOnly everyRule licenceReservation "q" "h"
      (oneRule [licenceLimit, slotsLimitOfTen]) 0 []).ttRqsAll = 100 := by decide +kernel
  refine ⟨by decide +kernel, htime, by decide +kernel, fun h => ?_⟩
  have hrule : ⟨some "rule", ⟨none, none, none, none, none⟩, [licenceLimit, slotsLimitOfTen]⟩ ∈
      matchingRules everyRule licenceReservation "q" "h"
        (oneRule [licenceLimit, slotsLimitOfTen]) := .head _
  have hwait := h.waits _ hrule 500 (by decide +kernel)
  rw [htime] at hwait
  exact absurd hwait (by decide)

end TwoLimits

end ClusterScheduler.Sched
