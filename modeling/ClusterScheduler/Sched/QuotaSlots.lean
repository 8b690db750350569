import ClusterScheduler.Sched.GrantedList

/-!
# Slots of quotas

What is left of the quotas while slots are taken, given back and granted.

* `Accounted` — what an allocation leaves of the quotas is what it found without the slots it
  took, and not negative.
* `Overdraws` — the one case in which an amount below zero is taken from the quotas.
* `QuotaExact` — in a state between two hosts every quota is what it was when it was computed
  without the slots granted for it.
* `quotaExact_of_visits` — it holds in every state of a run that does not overdraw.
-/

namespace ClusterScheduler.Sched

/-! ## Taking slots from quotas -/

def usedBy (job : ParallelJob) (name : String) (l : List QueueSlots) : ℤ :=
  ((l.filter fun qs => decide (name ∈ job.limitNames qs.qname)).map (·.slots)).sum

section Debit

variable {limits : String → Option ℤ}

variable (limits) in
theorem debitRqsSlots_apply {names : List String} (hnodup : names.Nodup) (slots : ℤ)
    (name : String) :
    debitRqsSlots limits names slots name =
      if name ∈ names then (limits name).map (· - slots) else limits name := by
  induction names generalizing limits with
  | nil => rfl
  | cons first names ih =>
    obtain ⟨hfirst, hnodup⟩ := List.nodup_cons.mp hnodup
    rw [debitRqsSlots, List.foldl_cons]
    refine (ih _ hnodup).trans ?_
    by_cases hname : name = first
    · subst hname
      simp [hfirst]
    · simp [hname]

theorem checkRqsSlots_spec (names : List String) {slots : ℤ} (hslots : 0 ≤ slots)
    (hlimits : ∀ name left, limits name = some left → 0 ≤ left) :
    0 ≤ checkRqsSlots limits names slots ∧
      (checkRqsSlots limits names slots ≠ 0 → ∀ name ∈ names,
        ∃ left, limits name = some left ∧ checkRqsSlots limits names slots ≤ left) := by
  induction names generalizing slots with
  | nil => exact ⟨hslots, fun _ => nofun⟩
  | cons name names ih =>
    cases hleft : limits name with
    | none => exact ⟨by simp [checkRqsSlots, hleft],
        fun hne => absurd (by simp [checkRqsSlots, hleft]) hne⟩
    | some left =>
      by_cases hzero : min slots left = 0
      · exact ⟨by simp [checkRqsSlots, hleft, hzero],
          fun hne => absurd (by simp [checkRqsSlots, hleft, hzero]) hne⟩
      · have heq : checkRqsSlots limits (name :: names) slots =
            checkRqsSlots limits names (min slots left) := by
          simp [checkRqsSlots, hleft, hzero]
        obtain ⟨hnonneg, hall⟩ := ih (le_min hslots (hlimits name left hleft))
        rw [heq]
        refine ⟨hnonneg, fun hne => List.forall_mem_cons.mpr ⟨⟨left, hleft, ?_⟩, hall hne⟩⟩
        have hle := checkRqsSlots_le limits names (lt_of_le_of_ne hnonneg hne.symm)
        exact hle.trans (min_le_right _ _)

end Debit

/-! ## Allocations -/

section Allocate

variable {job : ParallelJob} {o : HostOffer} {call : AllocateCall} {limits : String → Option ℤ}

/-- Slots were taken from these quotas, for the queue instances that have some. -/
structure Accounted (job : ParallelJob) (limits : String → Option ℤ) (st : AllocateState) :
    Prop where
  limits_eq : ∀ name, st.limits name = (limits name).map (· - usedBy job name st.queueSlots)
  nonneg : ∀ name left, st.limits name = some left → 0 ≤ left
  covered : ∀ qs ∈ st.queueSlots, ∀ name ∈ job.limitNames qs.qname, limits name ≠ none

theorem Accounted.nil (hlimits : ∀ name left, limits name = some left → 0 ≤ left) (got : Bool)
    (k : ℤ) : Accounted job limits ⟨limits, got, k, []⟩ where
  limits_eq := fun name => by simp [usedBy]
  nonneg := hlimits
  covered := nofun

theorem usedBy_cons (name : String) (qs : QueueSlots) (l : List QueueSlots) :
    usedBy job name (qs :: l) =
      (if name ∈ job.limitNames qs.qname then qs.slots else 0) + usedBy job name l := by
  unfold usedBy
  by_cases h : name ∈ job.limitNames qs.qname <;> simp [h]

theorem usedBy_append (name : String) (l l' : List QueueSlots) :
    usedBy job name (l ++ l') = usedBy job name l + usedBy job name l' := by
  simp [usedBy]

theorem usedBy_take (name : String) (st : AllocateState) (q : QueueInstance) (k : ℤ)
    (limits : String → Option ℤ) :
    usedBy job name (st.take job o q k limits).queueSlots =
      usedBy job name st.queueSlots + if name ∈ job.limitNames q.qname then k else 0 := by
  cases hsuits : (!st.gotMasterQueue && o.master q.qname) with
  | true =>
    rw [AllocateState.take_master hsuits]
    exact (usedBy_cons name _ _).trans (add_comm _ _)
  | false =>
    rw [AllocateState.take_slave hsuits]
    refine (usedBy_append name _ _).trans (congrArg _ ?_)
    exact (usedBy_cons name _ _).trans (by simp [usedBy])

variable {st : AllocateState} {q : QueueInstance}

/-- An amount that is not negative is taken from the quotas as it is from the queue instance. -/
theorem Accounted.allocate (hrqs : job.noRqs = false) (h : Accounted job limits st)
    (htried : 0 ≤ slotsToTry job o call st q) :
    Accounted job limits (allocateQueue job o call st q) := by
  obtain ⟨hnonneg, hall⟩ := checkRqsSlots_spec (job.limitNames q.qname) htried h.nonneg
  have hdebit : debitFor job st.limits q (slotsToTry job o call st q) =
      parallelCheckAndDebitRqsSlots st.limits (job.limitNames q.qname)
        (slotsToTry job o call st q) := by
    simp [debitFor, hrqs]
  rw [allocateQueue_eq, hdebit, parallelCheckAndDebitRqsSlots]
  dsimp only
  split
  next hpos =>
    rw [if_pos hpos.ne']
    have hdebited := debitRqsSlots_apply st.limits (job.limitNames_nodup q.qname)
      (checkRqsSlots st.limits (job.limitNames q.qname) (slotsToTry job o call st q))
    refine ⟨fun name => ?_, fun name left hleft => ?_, fun qs hqs name hname => ?_⟩
    · rw [usedBy_take]
      refine (hdebited name).trans ?_
      rw [h.limits_eq name]
      by_cases hname : name ∈ job.limitNames q.qname
      · simp [hname, Option.map_map, Function.comp_def, sub_sub]
      · simp [hname]
    · have hleft := (hdebited name).symm.trans hleft
      split at hleft
      next hname =>
        obtain ⟨left', hleft', hle⟩ := hall hpos.ne' name hname
        rw [hleft', Option.map_some] at hleft
        exact Option.some.inj hleft ▸ sub_nonneg.mpr hle
      next => exact h.nonneg name left hleft
    · rcases AllocateState.mem_take hqs with hold | hq
      · exact h.covered qs hold name hname
      · obtain ⟨left', hleft', -⟩ := hall hpos.ne' name (hq ▸ hname)
        intro hnone
        rw [h.limits_eq name, hnone] at hleft'
        cases hleft'
  next hpos =>
    rw [if_neg (by omega)]
    exact ⟨h.limits_eq, h.nonneg, h.covered⟩

theorem checkRqsSlots_of_none {names : List String} {name : String} (hname : name ∈ names)
    (hnone : limits name = none) (slots : ℤ) : checkRqsSlots limits names slots = 0 := by
  induction names generalizing slots with
  | nil => cases hname
  | cons first names ih =>
    cases hfirst : limits first with
    | none => simp [checkRqsSlots, hfirst]
    | some left =>
      have hmem : name ∈ names := by
        refine (List.mem_cons.mp hname).resolve_left fun heq => ?_
        rw [← heq, hnone] at hfirst
        cases hfirst
      by_cases hzero : min slots left = 0
      · simp [checkRqsSlots, hfirst, hzero]
      · simpa [checkRqsSlots, hfirst, hzero] using ih hmem (min slots left)

/-- An amount below zero changes nothing where no quota counts, or one is missing. -/
theorem Accounted.allocate_neg (hrqs : job.noRqs = false) (h : Accounted job limits st)
    (htried : slotsToTry job o call st q < 0) (hnames : job.limitNames q.qname = [] ∨
      ∃ name ∈ job.limitNames q.qname, st.limits name = none) :
    Accounted job limits (allocateQueue job o call st q) := by
  have hsame : debitFor job st.limits q (slotsToTry job o call st q) =
      (checkRqsSlots st.limits (job.limitNames q.qname) (slotsToTry job o call st q), st.limits) ∧
      ¬ 0 < checkRqsSlots st.limits (job.limitNames q.qname) (slotsToTry job o call st q) := by
    rcases hnames with hnil | ⟨name, hname, hnone⟩
    · simp [debitFor, hrqs, hnil, parallelCheckAndDebitRqsSlots, checkRqsSlots, debitRqsSlots,
        htried.le]
    · simp [debitFor, hrqs, parallelCheckAndDebitRqsSlots, checkRqsSlots_of_none hname hnone]
  rw [allocateQueue_eq, hsame.1, if_neg hsame.2]
  exact ⟨h.limits_eq, h.nonneg, h.covered⟩

theorem Accounted.revert (hrqs : job.noRqs = false)
    (hlimits : ∀ name left, limits name = some left → 0 ≤ left)
    (h : Accounted job limits st) : Accounted job limits (parallelRevertRqs job st) := by
  have hback : ∀ (l : List QueueSlots) (limits' : String → Option ℤ) (name : String),
      l.foldl (fun limits qs => if job.noRqs then limits else
        parallelRevertRqsSlotDebitation limits (job.limitNames qs.qname) qs.slots) limits' name =
        (limits' name).map (· + usedBy job name l) := by
    intro l
    induction l with
    | nil => exact fun limits' name => by simp [usedBy]
    | cons qs l ih =>
      intro limits' name
      rw [List.foldl_cons, ih, hrqs, usedBy_cons]
      simp only [if_false, Bool.false_eq_true, parallelRevertRqsSlotDebitation]
      rw [debitRqsSlots_apply _ (job.limitNames_nodup qs.qname)]
      by_cases hname : name ∈ job.limitNames qs.qname
      · simp [hname, Option.map_map, Function.comp_def, add_assoc]
      · simp [hname]
  have hsame : (parallelRevertRqs job st).limits = limits := by
    ext1 name
    refine (hback st.queueSlots st.limits name).trans ?_
    rw [h.limits_eq name, Option.map_map]
    simp [Function.comp_def]
  have hempty : Accounted job limits
      ⟨limits, (parallelRevertRqs job st).gotMasterQueue, 0, []⟩ := Accounted.nil hlimits _ 0
  rw [← hsame] at hempty ⊢
  exact hempty

/-- An amount below zero is tried only when a slot is left where none is missing. -/
theorem slotsToTry_neg (htag : o.tag q.qname ≠ 0) (h : slotsToTry job o call st q < 0) :
    call.haveMasterHost = false ∧ o.master q.qname = false ∧
      call.accuHostSlots + st.rqsHslots = job.slots ∧
      (call.maxslots - st.rqsHslots) % 2 ^ 32 = 0 := by
  have hmod : 0 ≤ (call.maxslots - st.rqsHslots) % 2 ^ 32 := Int.emod_nonneg _ (by norm_num)
  have hmin : minTag (o.tag q.qname) (call.maxslots - st.rqsHslots) =
      min (o.tag q.qname : ℤ) ((call.maxslots - st.rqsHslots) % 2 ^ 32) := rfl
  have hpos : (1 : ℤ) ≤ o.tag q.qname := by omega
  unfold slotsToTry at h
  grind

theorem allocateQueue_nonneg (q : QueueInstance) (h : 0 ≤ st.rqsHslots) :
    0 ≤ (allocateQueue job o call st q).rqsHslots := by
  obtain ⟨limits, heq⟩ | ⟨k, limits, hk, -, heq⟩ :=
    allocateQueue_cases job o call st q
  · rw [heq]
    exact h
  · rw [heq]
    exact add_nonneg h hk.le

/-- The rule is that of filling up, all slots are there, and the first queue instance that
offers something does not suit the master task, but counts for quotas. The slot that is to be
left for the master task is then taken from an amount of zero. -/
def DebitsMinusOne (job : ParallelJob) (o : HostOffer) (host : String)
    (limits : String → Option ℤ) (parsed remaining : ℤ) : Prop :=
  ¬ 0 < parsed ∧ parsed ≠ allocRuleRoundrobin ∧ remaining = 0 ∧
    ∃ q, (job.queues.filter (·.host = host)).find? (o.tag ·.qname ≠ 0) = some q ∧
      o.master q.qname = false ∧ job.limitNames q.qname ≠ [] ∧
      ∀ name ∈ job.limitNames q.qname, limits name ≠ none

variable {host : String} {hslots : ℤ}

variable {parsed remaining : ℤ}

variable (hrqs : job.noRqs = false)
include hrqs

variable (hlimits : ∀ name left, limits name = some left → 0 ≤ left)
include hlimits

theorem walkHost_accounted (got : Bool)
    (hhslots : 1 ≤ hslots) (hmax : call.maxslots = min hslots (ruleMax parsed remaining))
    (hcall : call.haveMasterHost = true ∨
      (parsed < 2 ^ 32 ∧ call.accuHostSlots = job.slots - remaining ∧
        ¬ DebitsMinusOne job o host limits parsed remaining)) :
    Accounted job limits (walkHost job o call host limits got) := by
  refine (walkHost_induct (fun st => Accounted job limits st ∧ 0 ≤ st.rqsHslots ∧
    (0 ≤ call.maxslots → st.rqsHslots ≤ call.maxslots)) host ?_
    ⟨Accounted.nil hlimits got 0, le_rfl, id⟩).1
  · rintro q st - - htag hfirst ⟨h, hnonneg, hle⟩
    refine ⟨?_, allocateQueue_nonneg q hnonneg, fun h0 => allocateQueue_le q (hle h0)⟩
    rcases le_or_gt 0 (slotsToTry job o call st q) with htried | hneg
    · exact h.allocate hrqs htried
    obtain ⟨hmissing, hmaster, hall, hmod⟩ := slotsToTry_neg htag hneg
    obtain ⟨hparsed, haccu, hminus⟩ := hcall.resolve_left (by simp [hmissing])
    have hrem : st.rqsHslots = remaining := by omega
    -- what is missing of the amount wanted is a multiple of the word size, so nothing is
    have hfull : ∀ bound, call.maxslots = min hslots bound → 0 ≤ bound → bound < 2 ^ 32 →
        st.rqsHslots = call.maxslots := fun bound hbound h0 hlt => by omega
    by_cases hfixed : 0 < parsed
    · rw [ruleMax, if_pos hfixed] at hmax
      have heq := hfull parsed hmax hfixed.le hparsed
      obtain ⟨rfl, -⟩ := hfirst.resolve_left fun hne => hne heq
      have hzero : 0 = call.maxslots := heq
      omega
    · rw [ruleMax, if_neg hfixed] at hmax
      by_cases hround : parsed = allocRuleRoundrobin
      · rw [if_pos hround] at hmax
        have heq := hfull 1 hmax one_pos.le (by norm_num)
        obtain ⟨rfl, -⟩ := hfirst.resolve_left fun hne => hne heq
        have hzero : 0 = call.maxslots := heq
        omega
      · rw [if_neg hround] at hmax
        have heq : st.rqsHslots = call.maxslots := by omega
        obtain ⟨rfl, hfind⟩ := hfirst.resolve_left fun hne => hne heq
        have hzero : (0 : ℤ) = remaining := hrem
        refine h.allocate_neg hrqs hneg ?_
        by_contra hnames
        simp only [not_or, not_exists, not_and] at hnames
        exact hminus ⟨hfixed, hround, hzero.symm, q, hfind, hmaster, hnames⟩

theorem parallelAllocateQueueSlots_accounted (got : Bool)
    (hhslots : 1 ≤ hslots) (hmax : call.maxslots = min hslots (ruleMax parsed remaining))
    (hcall : call.haveMasterHost = true ∨
      (parsed < 2 ^ 32 ∧ call.accuHostSlots = job.slots - remaining ∧
        ¬ DebitsMinusOne job o host limits parsed remaining)) :
    Accounted job limits (parallelAllocateQueueSlots job o call host limits got) := by
  have hwalk := walkHost_accounted hrqs hlimits got hhslots hmax hcall
  rw [parallelAllocateQueueSlots_eq]
  split
  · exact hwalk.revert hrqs hlimits
  · exact hwalk

/-- What a host gives is taken from the quotas, unless it is visited for a master task when all
slots are there. -/
theorem takeHostSlots_accounted {accu : ℤ}
    {haveMasterHost : Bool} (hhslots : 1 ≤ hslots)
    (htagging : hslots ≤ (minmaxSlots job haveMasterHost accu).maxslotsForTagging)
    (hminus : haveMasterHost = false → job.hasMasterRule = true →
      ¬ DebitsMinusOne job o host limits job.mallocationParsed (job.slots - accu)) :
    Accounted job limits (takeHostSlots job o host (minmaxSlots job haveMasterHost accu) hslots
      haveMasterHost accu limits).1 := by
  have hlt := job.slots_lt
  by_cases hrule : haveMasterHost = false ∧
      0 < (minmaxSlots job haveMasterHost accu).minslotsMaster
  · obtain ⟨rfl, hpos⟩ := hrule
    have hruled : job.hasMasterRule = true := by
      by_contra hnone
      rw [minslotsMaster_only (Or.inr (Bool.eq_false_iff.mpr hnone))] at hpos
      exact lt_irrefl 0 hpos
    have hmalloc : job.mallocationParsed < 2 ^ 32 := by
      by_cases hfixed : 0 < job.mallocationParsed
      · have hle := parseCheckAllocationRules_le job.parsed hfixed
        omega
      · omega
    have hmaster : Accounted job limits
        (masterAttempt job o host (minmaxSlots job false accu) hslots accu limits) :=
      parallelAllocateQueueSlots_accounted hrqs hlimits _ hhslots
        (congrArg (min hslots) (maxslotsMaster_missing hruled accu))
        (Or.inr ⟨hmalloc, by ring, hminus rfl hruled⟩)
    by_cases hback : (masterAttempt job o host (minmaxSlots job false accu) hslots accu
        limits).rqsHslots = 0 ∧ 0 < (minmaxSlots job false accu).minslotsSlaves
    · rw [takeHostSlots_fallback hpos hback.1 hback.2]
      have hempty : (masterAttempt job o host (minmaxSlots job false accu) hslots accu
          limits).queueSlots = [] :=
        ((parallelAllocateQueueSlots_cases job o _ host limits false).resolve_right fun hst =>
          hst.slots_pos.ne' hback.1).2
      have hsame : (masterAttempt job o host (minmaxSlots job false accu) hslots accu
          limits).limits = limits := by
        ext1 name
        simp [hmaster.limits_eq name, hempty, usedBy]
      obtain ⟨hzero, -⟩ | ⟨-, hmax⟩ := minmaxSlots_slaves job false accu
      · exact absurd hzero hback.2.ne'
      · rw [hsame]
        exact parallelAllocateQueueSlots_accounted hrqs hlimits _ hhslots
          (congrArg (min hslots) hmax) (Or.inl rfl)
    · rw [takeHostSlots_master hpos hback]
      exact hmaster
  · rw [takeHostSlots_only hrule]
    have honly : haveMasterHost = true ∨ job.hasMasterRule = false := by
      refine or_iff_not_imp_left.mpr fun hhave => ?_
      obtain rfl := Bool.eq_false_iff.mpr hhave
      by_contra hruled
      refine hrule ⟨rfl, ?_⟩
      rw [minslotsMaster_missing (by simpa using hruled)]
      exact ruleMin_pos _
    have hmax : (minmaxSlots job haveMasterHost accu).maxslotsSlaves =
        ruleMax job.allocationParsed (job.slots - accu) := by
      simp [minmaxSlots_only honly]
    refine parallelAllocateQueueSlots_accounted hrqs hlimits _ hhslots
      (congrArg (min hslots) hmax) (honly.imp id fun hnone => ?_)
    refine ⟨?_, by ring, fun ⟨hfixed, _, hzero, _⟩ => ?_⟩
    · by_cases hfixed : 0 < job.allocationParsed
      · have hdvd := parseCheckAllocationRules_dvd job.parsed
          (by simpa [ParallelJob.hasMasterRule] using hnone) hfixed
        have hle := Int.le_of_dvd job.slots_pos hdvd
        omega
      · omega
    · have hbound : (minmaxSlots job haveMasterHost accu).maxslotsForTagging =
          job.slots - accu := by
        rw [minmaxSlots_only honly]
        unfold minmaxSlaves
        rw [if_neg hfixed]
        split <;> rfl
      omega

end Allocate

/-! ## Between two hosts -/

section Quotas

variable (job : ParallelJob)

def slotsOfQuota (name : String) (gdil : List GrantedSlots) : ℤ :=
  slotsOf (fun qname _ => decide (name ∈ job.limitNames qname)) gdil

/-- Every quota is what it was when it was computed without the slots that are granted, and not
negative. -/
def QuotaExact (s : ParallelState) : Prop :=
  ∀ name left, s.limits name = some left → 0 ≤ left ∧
    ∃ first, s.firstLimits name = some first ∧ left = first - slotsOfQuota job name s.gdil

/-- The host is tried for the master task when all slots are there, see `DebitsMinusOne`. -/
def Overdraws (s : ParallelState) (host : String) (o : HostOffer) : Prop :=
  let m := minmaxSlots job s.haveMasterHost s.accuHostSlots
  s.haveMasterHost = false ∧ job.hasMasterRule = true ∧ job.noRqs = false ∧
    m.minslotsForTagging ≤ tagHostSlots job o host m.minslotsForTagging m.maxslotsForTagging ∧
    DebitsMinusOne job o host (tagLimits job s.limits o) job.mallocationParsed
      (job.slots - s.accuHostSlots)

/-- The quotas the visit computes are not negative, and it does not overdraw them. -/
def WithinQuotas (s : ParallelState) (o : HostOffer) : Prop :=
  ∀ host rest, s.rest = host :: rest → skipsHost job s host o = false →
    job.queues.any (·.host = host) = true →
    (∀ name left, s.limits name = none → tagLimits job s.limits o name = some left → 0 ≤ left) ∧
      ¬ Overdraws job s host o

structure Quotas (limits firstLimits : String → Option ℤ) (gdil : List GrantedSlots) : Prop where
  limits_eq : ∀ name, limits name = (firstLimits name).map (· - slotsOfQuota job name gdil)
  nonneg : ∀ name left, limits name = some left → 0 ≤ left
  covered : ∀ e ∈ gdil, ∀ name ∈ job.limitNames e.qname, limits name ≠ none

variable {job}

variable {limits : String → Option ℤ}

variable {name : String}

theorem computeLimits_of_some {left : ℤ}
    (h : limits name = some left) (newLimits : List (String × ℤ)) :
    computeLimits limits newLimits name = some left := by
  induction newLimits generalizing limits with
  | nil => exact h
  | cons p newLimits ih =>
    rw [computeLimits, List.foldl_cons]
    refine ih ?_
    split
    next hnone =>
      have hne : name ≠ p.1 := by
        rintro rfl
        exact nomatch h.symm.trans hnone
      simp [hne, h]
    next => exact h

variable {gdil : List GrantedSlots}

/-- A quota that is computed now has no granted slots yet. -/
theorem slotsOfQuota_of_notMem
    (h : ∀ e ∈ gdil, name ∉ job.limitNames e.qname) : slotsOfQuota job name gdil = 0 := by
  have hnone : gdil.filter (fun e => decide (name ∈ job.limitNames e.qname)) = [] :=
    List.filter_eq_nil_iff.mpr fun e he hmem => h e he (of_decide_eq_true hmem)
  rw [slotsOfQuota, slotsOf, hnone]
  rfl

variable {firstLimits : String → Option ℤ}

theorem computeLimits_eq
    (heq : ∀ name, limits name = (firstLimits name).map (· - slotsOfQuota job name gdil))
    (hcovered : ∀ e ∈ gdil, ∀ name ∈ job.limitNames e.qname, limits name ≠ none)
    (newLimits : List (String × ℤ)) (name : String) :
    computeLimits limits newLimits name =
      (computeLimits firstLimits newLimits name).map (· - slotsOfQuota job name gdil) := by
  induction newLimits generalizing limits firstLimits with
  | nil => exact heq name
  | cons p newLimits ih =>
    have hiff : limits p.1 = none ↔ firstLimits p.1 = none := by
      rw [heq, Option.map_eq_none_iff]
    rw [computeLimits, computeLimits, List.foldl_cons, List.foldl_cons]
    by_cases hnone : limits p.1 = none
    · rw [if_pos hnone, if_pos (hiff.mp hnone)]
      refine ih (fun name' => ?_) fun e he name' hname' => ?_
      · by_cases hname' : name' = p.1
        · subst hname'
          have hzero : slotsOfQuota job p.1 gdil = 0 :=
            slotsOfQuota_of_notMem fun e he hmem => hcovered e he p.1 hmem hnone
          simp [hzero]
        · simp [hname', heq name']
      · by_cases heq' : name' = p.1
        · simp [heq']
        · simpa [heq'] using hcovered e he name' hname'
    · rw [if_neg hnone, if_neg fun h => hnone (hiff.mpr h)]
      exact ih heq hcovered

def triedSlots (job : ParallelJob) (s : ParallelState) (host : String) (o : HostOffer) :
    AllocateState :=
  let m := minmaxSlots job s.haveMasterHost s.accuHostSlots
  (takeHostSlots job o host m (tagHostSlots job o host m.minslotsForTagging m.maxslotsForTagging)
    s.haveMasterHost s.accuHostSlots (tagLimits job s.limits o)).1

variable (job) in
theorem triedSlots_cases (s : ParallelState) (host : String) (o : HostOffer) :
    ((triedSlots job s host o).rqsHslots = 0 ∧ (triedSlots job s host o).queueSlots = []) ∨
      (0 < (triedSlots job s host o).rqsHslots ∧
        ∃ got, Taken o (hostQnames job host) got (triedSlots job s host o)) :=
  (takeHostSlots_cases job o host _ _ _ _ _).imp_right fun hby => hby.taken

theorem grantHostSlots_quotas (s : ParallelState) (host : String) (taken : AllocateState × Bool) :
    (grantHostSlots s host taken).limits = taken.1.limits ∧
      (grantHostSlots s host taken).firstLimits = s.firstLimits ∧
      (grantHostSlots s host taken).gdil =
        if 0 < taken.1.rqsHslots then taken.1.queueSlots.foldl (grantQueueSlots host) s.gdil
        else s.gdil := by
  by_cases hpos : 0 < taken.1.rqsHslots
  · rw [if_pos hpos, grantHostSlots, if_pos hpos]
    exact ⟨rfl, rfl, rfl⟩
  · rw [if_neg hpos, grantHostSlots, if_neg hpos]
    exact ⟨rfl, rfl, rfl⟩

variable (job) in
theorem visitHost_quotas (s : ParallelState) (host : String) (o : HostOffer) :
    let m := minmaxSlots job s.haveMasterHost s.accuHostSlots
    (job.queues.any (·.host = host) = false ∧ (visitHost job s host o).limits = s.limits ∧
        (visitHost job s host o).firstLimits = s.firstLimits ∧
        (visitHost job s host o).gdil = s.gdil) ∨
      (job.queues.any (·.host = host) = true ∧
        (visitHost job s host o).firstLimits = tagLimits job s.firstLimits o ∧
        (((visitHost job s host o).limits = tagLimits job s.limits o ∧
            (visitHost job s host o).gdil = s.gdil) ∨ (m.minslotsForTagging ≤
              tagHostSlots job o host m.minslotsForTagging m.maxslotsForTagging ∧
            (visitHost job s host o).limits = (triedSlots job s host o).limits ∧
            (visitHost job s host o).gdil =
              (triedSlots job s host o).queueSlots.foldl (grantQueueSlots host) s.gdil))) := by
  dsimp only
  by_cases hany : job.queues.any (·.host = host) = true
  · refine Or.inr ⟨hany, ?_⟩
    rw [visitHost, if_pos hany]
    unfold visitQueues
    dsimp only
    split
    next henough =>
      refine ⟨(grantHostSlots_quotas _ _ _).2.1.trans rfl,
        Or.inr ⟨henough, (grantHostSlots_quotas _ _ _).1.trans rfl, ?_⟩⟩
      refine (grantHostSlots_quotas _ _ _).2.2.trans ?_
      change (if 0 < (triedSlots job s host o).rqsHslots then
        (triedSlots job s host o).queueSlots.foldl (grantQueueSlots host) s.gdil else s.gdil) = _
      rcases triedSlots_cases job s host o with ⟨hzero, hnil⟩ | ⟨hpos, -⟩
      · rw [if_neg hzero.not_gt, hnil]
        rfl
      · rw [if_pos hpos]
    next => exact ⟨rfl, Or.inl ⟨rfl, rfl⟩⟩
  · refine Or.inl ⟨Bool.eq_false_iff.mpr hany, ?_⟩
    rw [visitHost, if_neg hany]
    exact ⟨rfl, rfl, rfl⟩

theorem nextRound_quotas (s : ParallelState) :
    (nextRound job s).limits = s.limits ∧ (nextRound job s).firstLimits = s.firstLimits ∧
      (nextRound job s).gdil = s.gdil := by
  unfold nextRound
  split <;> exact ⟨rfl, rfl, rfl⟩

variable {s' : ParallelState}

theorem visitNext_quotas {s : ParallelState} {host : String} {rest : List String}
    {o : HostOffer} (hrest : s.rest = host :: rest) (h : visitNext job s o = some s') :
    (s'.limits = s.limits ∧ s'.firstLimits = s.firstLimits ∧ s'.gdil = s.gdil) ∨
      (skipsHost job s host o = false ∧
        s'.limits = (visitHost job { s with rest := rest } host o).limits ∧
        s'.firstLimits = (visitHost job { s with rest := rest } host o).firstLimits ∧
        s'.gdil = (visitHost job { s with rest := rest } host o).gdil) := by
  unfold visitNext at h
  rw [hrest] at h
  dsimp only at h
  split at h
  next =>
    cases h
    exact Or.inl (nextRound_quotas _)
  next hskip =>
    refine Or.inr ⟨Bool.eq_false_iff.mpr hskip, ?_⟩
    split at h
    next =>
      cases h
      exact ⟨rfl, rfl, rfl⟩
    next =>
      cases h
      exact nextRound_quotas _

theorem Quotas.tagLimits
    {o : HostOffer} (hrqs : job.noRqs = false) (h : Quotas job limits firstLimits gdil)
    (hnew : ∀ name left, limits name = none → tagLimits job limits o name = some left → 0 ≤ left) :
    Quotas job (tagLimits job limits o) (tagLimits job firstLimits o) gdil := by
  have hkeeps : ∀ name left, limits name = some left →
      Sched.tagLimits job limits o name = some left := fun name left hleft => by
    simpa [Sched.tagLimits, hrqs] using computeLimits_of_some hleft o.newLimits
  refine ⟨fun name => ?_, fun name left hleft => ?_, fun e he name hname => ?_⟩
  · simpa [Sched.tagLimits, hrqs] using
      computeLimits_eq h.limits_eq h.covered o.newLimits name
  · cases hold : limits name with
    | none => exact hnew name left hold hleft
    | some left' =>
      obtain rfl := Option.some.inj (hleft.symm.trans (hkeeps name left' hold))
      exact h.nonneg name left hold
  · obtain ⟨left, hleft⟩ := Option.ne_none_iff_exists'.mp (h.covered e he name hname)
    simp [hkeeps name left hleft]

theorem Quotas.grant {host : String} {st : AllocateState} (h : Quotas job limits firstLimits gdil)
    (hgranted : Granted job gdil) (hst : Accounted job limits st)
    (hmem : ∀ qs ∈ st.queueSlots, qs.qname ∈ hostQnames job host)
    (hpos : ∀ qs ∈ st.queueSlots, 0 < qs.slots) :
    Quotas job st.limits firstLimits (st.queueSlots.foldl (grantQueueSlots host) gdil) := by
  have hslots : ∀ name, slotsOfQuota job name
      (st.queueSlots.foldl (grantQueueSlots host) gdil) =
        slotsOfQuota job name gdil + usedBy job name st.queueSlots := fun name =>
    (hgranted.foldl hmem hpos).2 fun qname _ => decide (name ∈ job.limitNames qname)
  refine ⟨fun name => ?_, hst.nonneg, fun e he name hname => ?_⟩
  · rw [hst.limits_eq, h.limits_eq, Option.map_map, hslots]
    simp [Function.comp_def, sub_sub]
  · rw [hst.limits_eq, ne_eq, Option.map_eq_none_iff]
    rcases mem_foldl_qname (List.mem_map_of_mem he) with hnew | hold
    · obtain ⟨qs, hqs, hqname⟩ := List.mem_map.mp hnew
      exact hst.covered qs hqs name (hqname ▸ hname)
    · obtain ⟨e', he', hqname⟩ := List.mem_map.mp hold
      exact h.covered e' he' name (hqname ▸ hname)

theorem tagHostSlots_le (o : HostOffer) (host : String) (minSlots maxSlots : ℤ) :
    tagHostSlots job o host minSlots maxSlots ≤ maxSlots := by
  unfold tagHostSlots
  dsimp only
  split
  · exact (min_le_right _ _).trans (min_le_right _ _)
  · exact min_le_right _ _

theorem Quotas.next {s : ParallelState} {o : HostOffer} (hrqs : job.noRqs = false)
    (hs : Attempt job s) (h : Quotas job s.limits s.firstLimits s.gdil)
    (hvisit : WithinQuotas job s o) (hnext : visitNext job s o = some s') :
    Quotas job s'.limits s'.firstLimits s'.gdil := by
  obtain ⟨host, rest, hrest⟩ := visitNext_rest hnext
  obtain ⟨hlimits, hfirst, hgdil⟩ | ⟨hskip, hlimits, hfirst, hgdil⟩ :=
    visitNext_quotas hrest hnext
  · rw [hlimits, hfirst, hgdil]
    exact h
  · rw [hlimits, hfirst, hgdil]
    obtain ⟨-, hlimits, hfirst, hgdil⟩ | ⟨hany, hfirst, hcase⟩ :=
      visitHost_quotas job { s with rest := rest } host o
    · rw [hlimits, hfirst, hgdil]
      exact h
    · obtain ⟨hnew, hnot⟩ := hvisit host rest hrest hskip hany
      have htagged := h.tagLimits hrqs hnew
      obtain ⟨hlimits, hgdil⟩ | ⟨henough, hlimits, hgdil⟩ := hcase
      · rw [hlimits, hfirst, hgdil]
        exact htagged
      · rw [hlimits, hfirst, hgdil]
        have haccounted : Accounted job (Sched.tagLimits job s.limits o)
            (triedSlots job s host o) :=
          takeHostSlots_accounted hrqs htagged.nonneg
            ((one_le_minslotsForTagging _ _).trans henough) (tagHostSlots_le _ _ _ _)
            fun hmissing hruled hminus => hnot ⟨hmissing, hruled, hrqs, henough, hminus⟩
        rcases triedSlots_cases job s host o with ⟨-, hnil⟩ | ⟨-, got, hof⟩
        · have hempty : ∀ qs ∈ (triedSlots job s host o).queueSlots, False := by simp [hnil]
          exact htagged.grant hs.granted haccounted (fun qs hqs => (hempty qs hqs).elim)
            fun qs hqs => (hempty qs hqs).elim
        · exact htagged.grant hs.granted haccounted hof.mem hof.pos

theorem parallelAllocateQueueSlots_limits (hrqs : job.noRqs = true) {o : HostOffer}
    {call : AllocateCall} (host : String) (limits : String → Option ℤ) (got : Bool) :
    (parallelAllocateQueueSlots job o call host limits got).limits = limits := by
  have hwalk : (walkHost job o call host limits got).limits = limits := by
    refine walkHost_induct (fun st => st.limits = limits) host
      (fun q st _ _ _ _ h => ?_) rfl
    rw [allocateQueue_eq, debitFor, if_pos hrqs]
    split <;> exact h
  rw [parallelAllocateQueueSlots_eq]
  split
  · rw [parallelRevertRqs]
    simp only [hrqs, if_true]
    refine Eq.trans ?_ hwalk
    generalize (walkHost job o call host limits got).queueSlots = l
    induction l with
    | nil => rfl
    | cons qs l ih => exact ih
  · exact hwalk

theorem triedSlots_limits (hrqs : job.noRqs = true) (s : ParallelState) (host : String)
    (o : HostOffer) : (triedSlots job s host o).limits = s.limits := by
  have htag : tagLimits job s.limits o = s.limits := if_pos hrqs
  unfold triedSlots
  dsimp only
  rw [htag]
  unfold takeHostSlots
  dsimp only
  split_ifs
  · exact (parallelAllocateQueueSlots_limits hrqs _ _ _).trans
      (parallelAllocateQueueSlots_limits hrqs _ _ _)
  · exact parallelAllocateQueueSlots_limits hrqs _ _ _
  · exact parallelAllocateQueueSlots_limits hrqs _ _ _

theorem visitNext_limits (hrqs : job.noRqs = true) {s : ParallelState} {o : HostOffer}
    (hnext : visitNext job s o = some s') : s'.limits = s.limits := by
  obtain ⟨host, rest, hrest⟩ := visitNext_rest hnext
  obtain ⟨hlimits, -⟩ | ⟨-, hlimits, -⟩ := visitNext_quotas hrest hnext
  · exact hlimits
  · rw [hlimits]
    obtain ⟨-, hlimits, -⟩ | ⟨-, -, ⟨hlimits, -⟩ | ⟨-, hlimits, -⟩⟩ :=
      visitHost_quotas job { s with rest := rest } host o
    · exact hlimits
    · exact hlimits.trans (if_pos hrqs)
    · exact hlimits.trans (triedSlots_limits hrqs _ host o)

/-- In every state of a run that does not overdraw, the quotas are exact. -/
theorem quotaExact_of_visits (offers : List HostOffer) (s : ParallelState)
    (hrun : attemptRun job (.init job) offers = some s)
    (hvisits : EveryVisit job (WithinQuotas job) (.init job) offers) : QuotaExact job s := by
  cases hrqs : job.noRqs with
  | false =>
    have hquotas : Quotas job s.limits s.firstLimits s.gdil := Attempt.run_induct
      (fun s => Quotas job s.limits s.firstLimits s.gdil)
      (fun _ _ _ hs h hvisit hnext => h.next hrqs hs hvisit hnext)
      ⟨fun _ => rfl, nofun, nofun⟩ hvisits hrun
    intro name left hleft
    refine ⟨hquotas.nonneg name left hleft, ?_⟩
    obtain ⟨first, hfirst, heq⟩ :=
      Option.map_eq_some_iff.mp ((hquotas.limits_eq name).symm.trans hleft)
    exact ⟨first, hfirst, heq.symm⟩
  | true =>
    have hnone : ∀ name, s.limits name = none :=
      attemptRun_keeps (fun s => ∀ name, s.limits name = none)
        (fun _ _ _ h hnext => visitNext_limits hrqs hnext ▸ h) (fun _ => rfl) hrun
    intro name left hleft
    exact nomatch (hnone name).symm.trans hleft

end Quotas

/-- One slot, with a rule for the master task. All queue instances count for one quota. -/
def quotaJob : ParallelJob where
  slots := 1
  rules := ⟨some "$fill_up", some "1"⟩
  mallocationParsed := allocRuleFillup
  allocationParsed := 1
  globalSlots := 1
  isSoft := false
  noRqs := false
  haveMasterAndSlaveQueueRequest := false
  slaveRejected := fun _ => false
  queues := [⟨"a1", "a", 0⟩, ⟨"b1", "b", 0⟩, ⟨"c1", "c", 0⟩]
  hosts := ["a", "b", "c"]
  limitNames := fun _ => ["slots"]
  parsed := by decide +kernel
  limitNames_nodup := fun _ => List.nodup_singleton _

/-- One slot in every queue instance, and five of the quota. Only `c1` suits the master task. -/
def oneOfFive : HostOffer where
  skipped := false
  hostSlots := 1
  tag := fun _ => 1
  master := fun name => name == "c1"
  newLimits := [("slots", 5)]

/-- The first host takes one slot of the quota. -/
theorem quotaExact_of_visits_one : QuotaExact quotaJob (attemptEnd quotaJob [oneOfFive]) := by
  refine quotaExact_of_visits [oneOfFive] _ rfl ⟨fun host rest hrest _ _ => ⟨?_, ?_⟩, ?_⟩
  · intro name left _ hleft
    by_cases hname : name = "slots"
    · subst hname
      obtain rfl : 5 = left := Option.some.inj hleft
      decide
    · have hnone : tagLimits quotaJob (ParallelState.init quotaJob).limits oneOfFive name =
          none := by
        simp [tagLimits, quotaJob, computeLimits, oneOfFive, ParallelState.init, hname]
      cases hnone.symm.trans hleft
  · rintro ⟨-, -, -, -, -, -, hzero, -⟩
    exact absurd hzero (by decide)
  · exact fun _ _ => trivial

/-- On the second host a slot is given to the quota, and then one is taken. -/
theorem quotaExact_overdrawn :
    ¬ ∀ job offers s, attemptRun job (.init job) offers = some s → QuotaExact job s := by
  intro h
  have hexact : QuotaExact quotaJob (attemptEnd quotaJob [oneOfFive, oneOfFive]) :=
    h quotaJob [oneOfFive, oneOfFive] _ rfl
  have hleft : (attemptEnd quotaJob [oneOfFive, oneOfFive]).limits "slots" = some 4 := by
    decide +kernel
  have hfirst : (attemptEnd quotaJob [oneOfFive, oneOfFive]).firstLimits "slots" = some 5 := by
    decide +kernel
  have hslots : slotsOfQuota quotaJob "slots"
      (attemptEnd quotaJob [oneOfFive, oneOfFive]).gdil = 2 := by decide +kernel
  obtain ⟨-, first, hfirst', heq⟩ := hexact "slots" 4 hleft
  obtain rfl := Option.some.inj (hfirst.symm.trans hfirst')
  rw [hslots] at heq
  exact absurd heq (by decide)

end ClusterScheduler.Sched
