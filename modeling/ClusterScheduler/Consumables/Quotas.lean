import ClusterScheduler.Consumables.Usage

/-!
# Booking resource quotas

A resource quota set has rules, and the first one that matches a job, a host and a
queue is booked. Each limit of a rule counts what is in use in elements of its own,
one for each name the rule expands to.

* `Limit`, `Rule`, `Rqs` — a quota set.
* `rqsGetMatchingRule`, `rqsGetRueString` — which rule is booked, in which element.
* `rqsDebitRuleUsage`, `rqsDebitConsumable` — booking.
* `posts_limit` — what is added to an element of a limit.

Whether the filters of a rule match is a parameter.
-/

namespace ClusterScheduler.Consumables

open Foundation Sched

/-! ## Data -/

/-- What one filter of a rule names; an expanding one counts for each name. -/
structure Filter where
  scope : List String
  xscope : List String
  expand : Bool
  deriving DecidableEq

structure RuleFilters where
  users : Option Filter
  projects : Option Filter
  pes : Option Filter
  queues : Option Filter
  hosts : Option Filter
  deriving DecidableEq

structure Limit where
  name : String
  usage : List Usage

structure Rule where
  filters : RuleFilters
  limits : List Limit

structure Rqs where
  enabled : Bool
  rules : List Rule

/-- What a rule is matched with. -/
structure RuleQuery where
  user : String
  group : String
  grpList : List String
  project : Option String
  pe : Option String
  host : String
  queue : String

/-- Matching over the user sets and host groups, and the form of a host name. -/
structure QuotaEnv where
  rqsIsMatchingRule : RuleFilters → RuleQuery → Bool
  sgeHostcpy : String → String

/-- An entry of a granted destination list. -/
structure Granted where
  qname : String
  qhostname : String
  slots : ℕ
  deriving DecidableEq

/-! ## Functions of the source -/

def cqueueGetNameFromQinstance (queueInstance : String) : String :=
  String.ofList (queueInstance.toList.takeWhile (· ≠ '@'))

def rqsGetMatchingRule (env : QuotaEnv) (rules : List Rule) (query : RuleQuery) : Option ℕ :=
  rules.findIdx? fun rule => env.rqsIsMatchingRule rule.filters query

def ruePart (filter : Option Filter) (value : Option String) : String :=
  match filter, value with
  | some filter, some value => if filter.expand then value else ""
  | _, _ => ""

def rqsGetRueString (env : QuotaEnv) (filters : RuleFilters) (query : RuleQuery) : String :=
  ruePart filters.users (some query.user) ++ "/" ++ ruePart filters.projects query.project ++
    "/" ++ ruePart filters.pes query.pe ++ "/" ++ ruePart filters.queues (some query.queue) ++
    "/" ++ ruePart filters.hosts (some (env.sgeHostcpy query.host)) ++ "/"

def Usage.isIdle (u : Usage) : Bool :=
  u.utilizedNow = 0 ∧ u.utilizedNowNonexclusive = 0 ∧ u.utilized.isNone ∧
    u.utilizedNonexclusive.isNone

section Debit

variable (parse : ParseUlongVal) (centries : List CEntry)

/-- One round of the loop through the limits. An element nothing is left in is removed. -/
def rqsDebitLimit (job : Option Job) (pe : Option Pe) (rueName : String) (slots : ℤ)
    (isMasterTask doPerHostBooking : Bool) (limit : Limit) : ℕ × Limit :=
  match centryListLocate centries limit.name with
  | none => (0, limit)
  | some rawCentry =>
    if !consumableDoBooking rawCentry.consumable isMasterTask doPerHostBooking then (0, limit)
    else
      match job with
      | none => (0, { limit with usage := updateUsage rueName id limit.usage })
      | some job =>
        let debits := consumableDebits parse job pe limit.name rawCentry slots isMasterTask
        let usage := updateUsage rueName (·.addAll debits) limit.usage
        (debits.length, { limit with
          usage :=
            if (usageAt rueName usage).isIdle then usage.eraseP (·.name = rueName)
            else usage })

def rqsDebitRuleUsage (job : Option Job) (pe : Option Pe) (limits : List Limit)
    (rueName : String) (slots : ℤ) (isMasterTask doPerHostBooking : Bool) : ℕ × List Limit :=
  let rounds := limits.map
    (rqsDebitLimit parse centries job pe rueName slots isMasterTask doPerHostBooking)
  ((rounds.map Prod.fst).sum, rounds.map Prod.snd)

variable (env : QuotaEnv)

def ruleQuery (job : Job) (pe : Option Pe) (granted : Granted) : RuleQuery where
  user := job.owner
  group := job.group
  grpList := job.grpList
  project := job.project
  pe := pe.map Pe.name
  host := granted.qhostname
  queue := cqueueGetNameFromQinstance granted.qname

def debitRule (job : Job) (granted : Granted) (pe : Option Pe) (slots : ℤ)
    (isMasterTask doPerHostBooking : Bool) (rule : Rule) : Rule :=
  { rule with
    limits := (rqsDebitRuleUsage parse centries (some job) pe rule.limits
      (rqsGetRueString env rule.filters (ruleQuery job pe granted)) slots isMasterTask
      doPerHostBooking).2 }

def rqsDebitConsumable (job : Job) (granted : Granted) (pe : Option Pe) (slots : ℤ)
    (isMasterTask doPerHostBooking : Bool) (rqs : Rqs) : Rqs :=
  if !rqs.enabled then rqs
  else
    match rqsGetMatchingRule env rqs.rules (ruleQuery job pe granted) with
    | none => rqs
    | some i => { rqs with
        rules := rqs.rules.modify i
          (debitRule parse centries env job granted pe slots isMasterTask doPerHostBooking) }

end Debit

/-! ## What is added to an element of a limit -/

section Limit

variable {parse : ParseUlongVal} {centries : List CEntry} {job : Job} {pe : Option Pe}
  {slots : ℤ} {isMasterTask doPerHostBooking b : Bool} {rueName name : String}

/-- The amounts added for a limit, in order. -/
def limitDebits (parse : ParseUlongVal) (centries : List CEntry) (job : Job) (pe : Option Pe)
    (slots : ℤ) (isMasterTask doPerHostBooking : Bool) (limitName : String) : List Amount :=
  match centryListLocate centries limitName with
  | none => []
  | some rawCentry =>
    if consumableDoBooking rawCentry.consumable isMasterTask doPerHostBooking then
      consumableDebits parse job pe limitName rawCentry slots isMasterTask
    else []

/-- The elements have different names. -/
def DistinctNames (usage : List Usage) : Prop := (usage.map (·.name)).Nodup

theorem debitLimit_name (limit : Limit) : (rqsDebitLimit parse centries (some job) pe rueName
    slots isMasterTask doPerHostBooking limit).2.name = limit.name := by
  rw [rqsDebitLimit]
  cases centryListLocate centries limit.name with
  | none => rfl
  | some rawCentry =>
    dsimp only
    split_ifs <;> rfl

variable {limit : Limit}

theorem debitLimit_distinct (h : DistinctNames limit.usage) :
    DistinctNames (rqsDebitLimit parse centries (some job) pe rueName slots isMasterTask
      doPerHostBooking limit).2.usage := by
  rw [rqsDebitLimit]
  cases centryListLocate centries limit.name with
  | none => exact h
  | some rawCentry =>
    have hupdate : ∀ l, DistinctNames (updateUsage rueName (·.addAll l) limit.usage) :=
      fun l => nodup_upsert (addAll_name l) (by rfl) h
    dsimp only
    split_ifs
    · exact h
    · exact nodup_eraseP (hupdate _) _
    · exact hupdate _

theorem nowAt_removed {usage : List Usage} (h : DistinctNames usage)
    (hidle : (usageAt rueName usage).isIdle = true) :
    nowAt b name (usage.eraseP (·.name = rueName)) = nowAt b name usage := by
  obtain ⟨hnow, hnonexclusive, -⟩ := of_decide_eq_true hidle
  rw [nowAt, usageAt, lookup_eraseP h]
  split_ifs with hn
  · rw [nowAt, hn, Usage.now, Usage.now, hnow, hnonexclusive]
    cases b <;> rfl
  · rfl

/-- **What is added to an element of a limit.** An element that is removed had nothing
in use any more. -/
theorem nowAt_debitLimit (h : DistinctNames limit.usage) :
    nowAt b name (rqsDebitLimit parse centries (some job) pe rueName slots isMasterTask
      doPerHostBooking limit).2.usage = nowAt b name limit.usage +
        if name = rueName then total b (limitDebits parse centries job pe slots isMasterTask
          doPerHostBooking limit.name) else 0 := by
  rw [rqsDebitLimit, limitDebits]
  cases centryListLocate centries limit.name with
  | none => simp
  | some rawCentry =>
    dsimp only
    cases hdo : consumableDoBooking rawCentry.consumable isMasterTask doPerHostBooking with
    | false => simp
    | true =>
      generalize consumableDebits parse job pe limit.name rawCentry slots isMasterTask = debits
      have hnow : nowAt b name (updateUsage rueName (·.addAll debits) limit.usage) =
          nowAt b name limit.usage + if name = rueName then total b debits else 0 := by
        rw [nowAt, usageAt_updateUsage (addAll_name debits), nowAt]
        split_ifs with hn
        · rw [addAll_now, hn]
        · rw [add_zero]
      have hdistinct : DistinctNames (updateUsage rueName (·.addAll debits) limit.usage) :=
        nodup_upsert (addAll_name debits) (by rfl) h
      generalize updateUsage rueName (·.addAll debits) limit.usage = usage at hnow hdistinct
      simp only [Bool.not_true, Bool.false_eq_true, if_false, if_true]
      rw [← hnow]
      split_ifs with hidle
      · exact nowAt_removed hdistinct hidle
      · rfl

end Limit

/-! ## A limit in a list of quota sets -/

section Sets

variable {parse : ParseUlongVal} {centries : List CEntry} {env : QuotaEnv} {job : Job}
  {pe : Option Pe} {granted : Granted} {slots : ℤ} {isMasterTask doPerHostBooking b : Bool}
  {rueName : String} {i j k : ℕ}

def limitAt (i j k : ℕ) (sets : List Rqs) : Option Limit :=
  (sets[i]?.bind (·.rules[j]?)).bind (·.limits[k]?)

def limitNow (i j k : ℕ) (b : Bool) (rueName : String) (sets : List Rqs) : ℚ :=
  ((limitAt i j k sets).map fun limit => nowAt b rueName limit.usage).getD 0

/-- What is configured around a limit. -/
structure LimitForm where
  enabled : Bool
  filters : List RuleFilters
  ruleFilters : RuleFilters
  limitName : String

/-- There is a limit at the position, with this around it. -/
def HasForm (form : LimitForm) (i j k : ℕ) (sets : List Rqs) : Prop :=
  ∃ rqs rule limit, sets[i]? = some rqs ∧ rqs.rules[j]? = some rule ∧
    rule.limits[k]? = some limit ∧ rqs.enabled = form.enabled ∧
    rqs.rules.map (·.filters) = form.filters ∧ rule.filters = form.ruleFilters ∧
    limit.name = form.limitName ∧ DistinctNames limit.usage

variable {form : LimitForm} {sets : List Rqs}

theorem HasForm.limit {i j k : ℕ}
    (h : HasForm form i j k sets) : ∃ limit, limitAt i j k sets = some limit := by
  obtain ⟨rqs, rule, limit, hrqs, hrule, hlimit, -⟩ := h
  exact ⟨limit, by rw [limitAt, hrqs, Option.bind_some, hrule, Option.bind_some, hlimit]⟩

theorem exists_form {i j k : ℕ} {limit : Limit}
    (hlimit : limitAt i j k sets = some limit) (hdistinct : DistinctNames limit.usage) :
    ∃ form, HasForm form i j k sets := by
  obtain ⟨rule, hbind, hat⟩ := Option.bind_eq_some_iff.mp hlimit
  obtain ⟨rqs, hrqs, hrule⟩ := Option.bind_eq_some_iff.mp hbind
  exact ⟨⟨rqs.enabled, rqs.rules.map (·.filters), rule.filters, limit.name⟩, rqs, rule, limit,
    hrqs, hrule, hat, rfl, rfl, rfl, rfl, hdistinct⟩

/-- What is added to an element of the limit: only when its rule is the one that matches
and the element is the one of the job. -/
def limitAmount (parse : ParseUlongVal) (centries : List CEntry) (env : QuotaEnv) (job : Job)
    (granted : Granted) (pe : Option Pe) (slots : ℤ) (isMasterTask doPerHostBooking : Bool)
    (form : LimitForm) (j : ℕ) (b : Bool) (rueName : String) : ℚ :=
  if form.enabled = true ∧
      form.filters.findIdx? (env.rqsIsMatchingRule · (ruleQuery job pe granted)) = some j ∧
      rueName = rqsGetRueString env form.ruleFilters (ruleQuery job pe granted) then
    total b (limitDebits parse centries job pe slots isMasterTask doPerHostBooking form.limitName)
  else 0

theorem limitAmount_neg (h : slots ≠ 0) :
    limitAmount parse centries env job granted pe (-slots) isMasterTask doPerHostBooking form j b
      rueName = -limitAmount parse centries env job granted pe slots isMasterTask doPerHostBooking
        form j b rueName := by
  unfold limitAmount limitDebits
  split_ifs
  · cases centryListLocate centries form.limitName with
    | none => simp
    | some rawCentry =>
      dsimp only
      split_ifs
      · exact total_consumableDebits_neg h
      · simp
  · exact neg_zero.symm

theorem matchingRule_eq (rules : List Rule) (query : RuleQuery) :
    rqsGetMatchingRule env rules query =
      (rules.map (·.filters)).findIdx? (env.rqsIsMatchingRule · query) := by
  rw [List.findIdx?_map]
  rfl

section One

variable (parse centries env job pe granted slots isMasterTask doPerHostBooking)

theorem debitConsumable_form (rqs : Rqs) :
    (rqsDebitConsumable parse centries env job granted pe slots isMasterTask doPerHostBooking
      rqs).enabled = rqs.enabled ∧
    (rqsDebitConsumable parse centries env job granted pe slots isMasterTask doPerHostBooking
      rqs).rules.map (·.filters) = rqs.rules.map (·.filters) := by
  unfold rqsDebitConsumable
  cases rqsGetMatchingRule env rqs.rules (ruleQuery job pe granted) with
  | none =>
    split_ifs
    · exact ⟨rfl, rfl⟩
    · exact ⟨rfl, rfl⟩
  | some i =>
    split_ifs
    · exact ⟨rfl, rfl⟩
    · constructor
      · rfl
      · apply List.ext_getElem?
        intro n
        simp only [List.getElem?_map, List.getElem?_modify]
        cases rqs.rules[n]? with
        | none => rfl
        | some rule =>
          show some _ = some _
          split_ifs
          · rfl
          · rfl

theorem debitConsumable_limit {rqs : Rqs} {rule : Rule} {limit : Limit}
    (hrule : rqs.rules[j]? = some rule) (hlimit : rule.limits[k]? = some limit) :
    ∃ rule', (rqsDebitConsumable parse centries env job granted pe slots isMasterTask
        doPerHostBooking rqs).rules[j]? = some rule' ∧ rule'.filters = rule.filters ∧
      rule'.limits[k]? = some (if rqs.enabled = true ∧
            rqsGetMatchingRule env rqs.rules (ruleQuery job pe granted) = some j then
          (rqsDebitLimit parse centries (some job) pe
            (rqsGetRueString env rule.filters (ruleQuery job pe granted)) slots isMasterTask
            doPerHostBooking limit).2
        else limit) := by
  unfold rqsDebitConsumable
  cases hmatch : rqsGetMatchingRule env rqs.rules (ruleQuery job pe granted) with
  | none =>
    refine ⟨rule, ?_, rfl, ?_⟩
    · rw [ite_self]
      exact hrule
    · rw [if_neg fun h => nomatch h.2]
      exact hlimit
  | some i =>
    cases henabled : rqs.enabled with
    | false => exact ⟨rule, hrule, rfl, hlimit⟩
    | true =>
      by_cases hij : i = j
      · refine ⟨debitRule parse centries env job granted pe slots isMasterTask
          doPerHostBooking rule, ?_, rfl, ?_⟩
        · show (rqs.rules.modify i _)[j]? = some (debitRule parse centries env job granted pe
            slots isMasterTask doPerHostBooking rule)
          rw [List.getElem?_modify, hrule]
          exact congrArg some (if_pos hij)
        · rw [if_pos ⟨rfl, congrArg some hij⟩]
          show (List.map Prod.snd (List.map _ rule.limits))[k]? = _
          rw [List.getElem?_map, List.getElem?_map, hlimit]
          rfl
      · refine ⟨rule, ?_, rfl, ?_⟩
        · show (rqs.rules.modify i _)[j]? = some rule
          rw [List.getElem?_modify, hrule]
          exact congrArg some (if_neg hij)
        · rw [if_neg fun h => hij (Option.some.inj h.2)]
          exact hlimit

end One

/-- **What is booked in an element of a limit.** -/
theorem posts_limit (form : LimitForm) (b : Bool) (rueName : String) :
    Posts (HasForm form i j k) (limitNow i j k b rueName)
      (List.map (rqsDebitConsumable parse centries env job granted pe slots isMasterTask
        doPerHostBooking))
      (limitAmount parse centries env job granted pe slots isMasterTask doPerHostBooking form j b
        rueName) where
  keeps := by
    rintro sets ⟨rqs, rule, limit, hrqs, hrule, hlimit, henabled, hfilters, hrulefilters, hname,
      hdistinct⟩
    obtain ⟨rule', hrule', hrulefilters', hlimit'⟩ := debitConsumable_limit parse centries env
      job pe granted slots isMasterTask doPerHostBooking hrule hlimit
    have hform := debitConsumable_form parse centries env job pe granted slots isMasterTask
      doPerHostBooking rqs
    refine ⟨_, rule', _, ?_, hrule', hlimit', hform.1.trans henabled, hform.2.trans hfilters,
      hrulefilters'.trans hrulefilters, ?_, ?_⟩
    · rw [List.getElem?_map, hrqs]
      rfl
    · split_ifs
      · exact (debitLimit_name limit).trans hname
      · exact hname
    · split_ifs
      · exact debitLimit_distinct hdistinct
      · exact hdistinct
  adds := by
    rintro sets ⟨rqs, rule, limit, hrqs, hrule, hlimit, henabled, hfilters, hrulefilters, hname,
      hdistinct⟩
    obtain ⟨rule', hrule', -, hlimit'⟩ := debitConsumable_limit parse centries env
      job pe granted slots isMasterTask doPerHostBooking hrule hlimit
    have hbefore : limitAt i j k sets = some limit := by
      rw [limitAt, hrqs, Option.bind_some, hrule]
      exact hlimit
    rw [limitNow, limitAt, List.getElem?_map, hrqs, Option.map_some, Option.bind_some, hrule',
      Option.bind_some, hlimit', limitNow, hbefore, limitAmount, matchingRule_eq, henabled,
      hfilters, hrulefilters]
    simp only [Option.map_some, Option.getD_some]
    split_ifs with hbook hboth hboth
    · rw [nowAt_debitLimit hdistinct, if_pos hboth.2.2, hname]
    · rw [nowAt_debitLimit hdistinct, if_neg fun h => hboth ⟨hbook.1, hbook.2, h⟩]
    · exact absurd ⟨hboth.1, hboth.2.1⟩ hbook
    · exact (add_zero _).symm

end Sets

end ClusterScheduler.Consumables
