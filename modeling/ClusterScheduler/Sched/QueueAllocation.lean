import ClusterScheduler.Sched.ParallelAllocation

/-!
# What an allocation takes

Slots are taken from the queue instances of one host, with what is left of the quotas.

* `Taken` — what holds while the queue instances are walked: the slots add up, none is more
  than the tag, every queue instance occurs once, and a master queue comes first.
* `LeavesSlots` — one slot is left for the master task while no queue instance suits it.
* `Allocated` — what holds of an allocation that was not given back.
* `takeHostSlots_cases` — with which rule the slots of a host are taken.
-/

namespace ClusterScheduler.Sched

/-! ## How much is tried -/

theorem checkRqsSlots_le (limits : String → Option ℤ) (names : List String) {slots : ℤ}
    (h : 0 < checkRqsSlots limits names slots) : checkRqsSlots limits names slots ≤ slots := by
  induction names generalizing slots with
  | nil => exact le_rfl
  | cons name names ih =>
    cases hleft : limits name with
    | none => simp [checkRqsSlots, hleft] at h
    | some left =>
      by_cases hz : min slots left = 0
      · simp [checkRqsSlots, hleft, hz] at h
      · simp only [checkRqsSlots, hleft, hz, if_false] at h ⊢
        exact (ih h).trans (min_le_left _ _)

theorem minTag_le_tag (tag : ℕ) (amount : ℤ) : minTag tag amount ≤ tag := by
  unfold minTag
  apply min_le_left

theorem minTag_le {amount : ℤ} (tag : ℕ) (h : 0 ≤ amount) : minTag tag amount ≤ amount := by
  have hmod : amount % 2 ^ 32 ≤ amount := by omega
  exact (min_le_right _ _).trans hmod

section Allocate

variable {job : ParallelJob} {o : HostOffer} {call : AllocateCall}

theorem slotsToTry_le (st : AllocateState) (q : QueueInstance) :
    slotsToTry job o call st q ≤ minTag (o.tag q.qname) (call.maxslots - st.rqsHslots) := by
  unfold slotsToTry
  grind

theorem slotsToTry_leaves {st : AllocateState} {q : QueueInstance}
    (hcall : call.haveMasterHost = false) (hst : st.gotMasterQueue = false)
    (hmaster : o.master q.qname = false) (hmax : call.maxslots ≤ job.slots - call.accuHostSlots)
    (hroom : st.rqsHslots ≤ call.maxslots) :
    call.accuHostSlots + st.rqsHslots + slotsToTry job o call st q < job.slots := by
  have hle := minTag_le (o.tag q.qname) (sub_nonneg.mpr hroom)
  unfold slotsToTry
  grind

/-! ## One queue instance -/

def AllocateState.take (job : ParallelJob) (o : HostOffer) (st : AllocateState)
    (q : QueueInstance) (k : ℤ) (limits : String → Option ℤ) : AllocateState :=
  let isMasterQueue := !st.gotMasterQueue && o.master q.qname
  let qs : QueueSlots := ⟨isMasterQueue, q.qname, k, if job.isSoft then q.softViolation else 0⟩
  { limits := limits
    gotMasterQueue := st.gotMasterQueue || isMasterQueue
    rqsHslots := st.rqsHslots + k
    queueSlots := if isMasterQueue then qs :: st.queueSlots else st.queueSlots ++ [qs] }

/-- How many slots the quotas give, and the quotas without them. -/
def debitFor (job : ParallelJob) (limits : String → Option ℤ) (q : QueueInstance) (tried : ℤ) :
    ℤ × (String → Option ℤ) :=
  if job.noRqs then (tried, limits)
  else parallelCheckAndDebitRqsSlots limits (job.limitNames q.qname) tried

theorem allocateQueue_eq (st : AllocateState) (q : QueueInstance) :
    allocateQueue job o call st q =
      if 0 < (debitFor job st.limits q (slotsToTry job o call st q)).1 then
        st.take job o q (debitFor job st.limits q (slotsToTry job o call st q)).1
          (debitFor job st.limits q (slotsToTry job o call st q)).2
      else { st with limits := (debitFor job st.limits q (slotsToTry job o call st q)).2 } := rfl

theorem debitFor_le (limits : String → Option ℤ) (q : QueueInstance) {tried : ℤ}
    (h : 0 < (debitFor job limits q tried).1) : (debitFor job limits q tried).1 ≤ tried := by
  by_cases hrqs : job.noRqs = true
  · simp [debitFor, hrqs]
  · simp only [debitFor, hrqs, if_false, Bool.false_eq_true] at h ⊢
    exact checkRqsSlots_le _ _ h

variable (job o call) in
/-- Slots are taken, at most those that are tried, or only the quotas change. -/
theorem allocateQueue_cases (st : AllocateState) (q : QueueInstance) :
    (∃ limits, allocateQueue job o call st q = { st with limits := limits }) ∨
      ∃ k limits, 0 < k ∧ k ≤ slotsToTry job o call st q ∧
        allocateQueue job o call st q = st.take job o q k limits := by
  rw [allocateQueue_eq]
  split
  next hpos => exact Or.inr ⟨_, _, hpos, debitFor_le _ _ hpos, rfl⟩
  next => exact Or.inl ⟨_, rfl⟩

/-- Slots taken from queue instances with these names, on top of the flag `got`. -/
structure Taken (o : HostOffer) (names : List String) (got : Bool) (st : AllocateState) :
    Prop where
  sum : st.rqsHslots = (st.queueSlots.map (·.slots)).sum
  pos : ∀ qs ∈ st.queueSlots, 0 < qs.slots
  le_tag : ∀ qs ∈ st.queueSlots, qs.slots ≤ o.tag qs.qname
  nodup : (st.queueSlots.map (·.qname)).Nodup
  mem : ∀ qs ∈ st.queueSlots, qs.qname ∈ names
  master :
    (st.gotMasterQueue = got ∧ ∀ qs ∈ st.queueSlots, qs.isMasterQueue = false) ∨
      (got = false ∧ st.gotMasterQueue = true ∧ ∃ qs tail, st.queueSlots = qs :: tail ∧
        qs.isMasterQueue = true ∧ o.master qs.qname = true ∧ ∀ qs ∈ tail, qs.isMasterQueue = false)

theorem Taken.nil (names : List String) (limits : String → Option ℤ) (got : Bool) :
    Taken o names got ⟨limits, got, 0, []⟩ where
  sum := rfl
  pos := nofun
  le_tag := nofun
  nodup := List.nodup_nil
  mem := nofun
  master := Or.inl ⟨rfl, nofun⟩

theorem AllocateState.take_master {st : AllocateState} {q : QueueInstance}
    (h : (!st.gotMasterQueue && o.master q.qname) = true) (k : ℤ) (limits : String → Option ℤ) :
    st.take job o q k limits = ⟨limits, true, st.rqsHslots + k,
        ⟨true, q.qname, k, if job.isSoft then q.softViolation else 0⟩ :: st.queueSlots⟩ := by
  simp [AllocateState.take, h]

theorem AllocateState.take_slave {st : AllocateState} {q : QueueInstance}
    (h : (!st.gotMasterQueue && o.master q.qname) = false) (k : ℤ) (limits : String → Option ℤ) :
    st.take job o q k limits = ⟨limits, st.gotMasterQueue, st.rqsHslots + k,
        st.queueSlots ++ [⟨false, q.qname, k, if job.isSoft then q.softViolation else 0⟩]⟩ := by
  simp [AllocateState.take, h]

variable {names : List String}

variable {k : ℤ}

/-- One more queue instance. The first one that suits the master task comes first. -/
theorem Taken.take {got : Bool} {st : AllocateState} {q : QueueInstance} (h : Taken o names got st)
    (hq : q.qname ∈ names) (hfresh : q.qname ∉ st.queueSlots.map (·.qname)) (hk : 0 < k)
    (htag : k ≤ o.tag q.qname) (limits : String → Option ℤ) :
    Taken o names got (st.take job o q k limits) := by
  cases hnew : (!st.gotMasterQueue && o.master q.qname) with
  | true =>
    have hsuits := Bool.and_eq_true_iff.mp hnew
    have hst : st.gotMasterQueue = false := by simpa using hsuits.1
    have hold : st.gotMasterQueue = got ∧ ∀ qs ∈ st.queueSlots, qs.isMasterQueue = false :=
      h.master.resolve_right fun ⟨_, hgot, _⟩ => Bool.false_ne_true (hst.symm.trans hgot)
    rw [AllocateState.take_master hnew]
    exact
      { sum := by simp only [List.map_cons, List.sum_cons, h.sum, add_comm]
        pos := List.forall_mem_cons.mpr ⟨hk, h.pos⟩
        le_tag := List.forall_mem_cons.mpr ⟨htag, h.le_tag⟩
        nodup := List.nodup_cons.mpr ⟨hfresh, h.nodup⟩
        mem := List.forall_mem_cons.mpr ⟨hq, h.mem⟩
        master := Or.inr ⟨hold.1 ▸ hst, rfl, _, _, rfl, rfl, hsuits.2, hold.2⟩ }
  | false =>
    rw [AllocateState.take_slave hnew]
    exact
      { sum := by simp [h.sum]
        pos := List.forall_mem_append.mpr ⟨h.pos, by simpa using hk⟩
        le_tag := List.forall_mem_append.mpr ⟨h.le_tag, by simpa using htag⟩
        nodup := by
          rw [List.map_append]
          exact h.nodup.append (List.nodup_singleton _)
            (List.disjoint_singleton.mpr hfresh)
        mem := List.forall_mem_append.mpr ⟨h.mem, by simpa using hq⟩
        master := by
          rcases h.master with ⟨hgot, hnone⟩ | ⟨hgot, hst, qs, tail, heq, hflag, hsuits, htail⟩
          · exact Or.inl ⟨hgot, List.forall_mem_append.mpr ⟨hnone, by simp⟩⟩
          · exact Or.inr ⟨hgot, hst, qs, _, congrArg (· ++ _) heq, hflag, hsuits,
              List.forall_mem_append.mpr ⟨htail, by simp⟩⟩ }

variable {qs : QueueSlots}

theorem AllocateState.mem_take {st : AllocateState} {q : QueueInstance}
    {limits : String → Option ℤ} (h : qs ∈ (st.take job o q k limits).queueSlots) :
    qs ∈ st.queueSlots ∨ qs.qname = q.qname := by
  cases hsuits : (!st.gotMasterQueue && o.master q.qname) with
  | true =>
    rw [AllocateState.take_master hsuits] at h
    exact (List.mem_cons.mp h).symm.imp_right (congrArg QueueSlots.qname)
  | false =>
    rw [AllocateState.take_slave hsuits] at h
    exact (List.mem_append.mp h).imp_right fun hmem =>
      congrArg QueueSlots.qname (List.mem_singleton.mp hmem)

theorem mem_allocateQueue {st : AllocateState} {q : QueueInstance}
    (h : qs ∈ (allocateQueue job o call st q).queueSlots) :
    qs ∈ st.queueSlots ∨ qs.qname = q.qname := by
  obtain ⟨limits, heq⟩ | ⟨k, limits, -, -, heq⟩ :=
    allocateQueue_cases job o call st q
  · rw [heq] at h
    exact Or.inl h
  · rw [heq] at h
    exact AllocateState.mem_take h

theorem Taken.allocateQueue {got : Bool} {st : AllocateState}
    {q : QueueInstance} (h : Taken o names got st) (hq : q.qname ∈ names)
    (hfresh : q.qname ∉ st.queueSlots.map (·.qname)) :
    Taken o names got (allocateQueue job o call st q) := by
  obtain ⟨limits, heq⟩ | ⟨k, limits, hk, htried, heq⟩ :=
    allocateQueue_cases job o call st q
  · rw [heq]
    exact { h with }
  · rw [heq]
    have htag := htried.trans ((slotsToTry_le st q).trans (minTag_le_tag _ _))
    exact h.take hq hfresh hk htag limits

/-! ## The queue instances of a host -/

theorem allocateLoop_induct {Inv : AllocateState → Prop} {all queues : List QueueInstance}
    {st₀ st : AllocateState}
    (hstep : ∀ q st, q ∈ all → q.qname ∉ st.queueSlots.map (·.qname) → o.tag q.qname ≠ 0 →
      (st.rqsHslots ≠ call.maxslots ∨ st = st₀ ∧ all.find? (o.tag ·.qname ≠ 0) = some q) →
      Inv st → Inv (allocateQueue job o call st q))
    (hsub : queues ⊆ all) (hnodup : (queues.map (·.qname)).Nodup)
    (hfresh : ∀ q ∈ queues, q.qname ∉ st.queueSlots.map (·.qname))
    (hmissing : st.rqsHslots ≠ call.maxslots ∨
      st = st₀ ∧ all.find? (o.tag ·.qname ≠ 0) = queues.find? (o.tag ·.qname ≠ 0))
    (h : Inv st) : Inv (allocateLoop job o call queues st) := by
  induction queues generalizing st with
  | nil => exact h
  | cons q queues ih =>
    obtain ⟨hq, hqs⟩ := List.cons_subset.mp hsub
    obtain ⟨hnew, hnodup⟩ := List.nodup_cons.mp hnodup
    obtain ⟨hqfresh, hfresh⟩ := List.forall_mem_cons.mp hfresh
    by_cases htag : o.tag q.qname = 0
    · rw [allocateLoop, if_pos htag]
      refine ih hqs hnodup hfresh (hmissing.imp_right fun hfirst => ⟨hfirst.1, ?_⟩) h
      simpa [htag] using hfirst.2
    · rw [allocateLoop, if_neg htag]
      have hnext := hstep q st hq hqfresh htag
        (hmissing.imp_right fun hfirst => ⟨hfirst.1, by simpa [htag] using hfirst.2⟩) h
      dsimp only
      split
      next => exact hnext
      next hmissing' =>
        refine ih hqs hnodup (fun q' hq' hmem => ?_) (Or.inl hmissing') hnext
        obtain ⟨qs, hqs', hname⟩ := List.mem_map.mp hmem
        rcases mem_allocateQueue hqs' with hold | hq'q
        · exact hfresh q' hq' (List.mem_map.mpr ⟨qs, hold, hname⟩)
        · exact hnew (List.mem_map.mpr ⟨q', hq', hname.symm.trans hq'q⟩)

variable (job o call)

def walkHost (host : String) (limits : String → Option ℤ) (got : Bool) : AllocateState :=
  allocateLoop job o call (job.queues.filter (·.host = host)) ⟨limits, got, 0, []⟩

def hostQnames (host : String) : List String :=
  (job.queues.filter (·.host = host)).map (·.qname)

variable {job o call}

/-- What one queue instance keeps holds after the queue instances of a host. -/
theorem walkHost_induct (Inv : AllocateState → Prop) (host : String) {limits : String → Option ℤ}
    {got : Bool} (hstep : ∀ q st, q ∈ job.queues.filter (·.host = host) →
      q.qname ∉ st.queueSlots.map (·.qname) → o.tag q.qname ≠ 0 →
      (st.rqsHslots ≠ call.maxslots ∨ st = ⟨limits, got, 0, []⟩ ∧
        (job.queues.filter (·.host = host)).find? (o.tag ·.qname ≠ 0) = some q) → Inv st →
      Inv (allocateQueue job o call st q)) (h : Inv ⟨limits, got, 0, []⟩) :
    Inv (walkHost job o call host limits got) :=
  allocateLoop_induct hstep (List.Subset.refl _)
    (job.qnames_nodup.sublist (List.filter_sublist.map _)) (fun _ _ => List.not_mem_nil)
    (Or.inr ⟨rfl, rfl⟩) h

variable (job o call) in
theorem walkHost_taken (host : String) (limits : String → Option ℤ) (got : Bool) :
    Taken o (hostQnames job host) got (walkHost job o call host limits got) :=
  walkHost_induct (Taken o (hostQnames job host) got) host
    (fun _ _ hq hfresh _ _ h => h.allocateQueue (List.mem_map_of_mem hq) hfresh)
    (Taken.nil _ limits got)

theorem allocateQueue_le {st : AllocateState} (q : QueueInstance)
    (h : st.rqsHslots ≤ call.maxslots) :
    (allocateQueue job o call st q).rqsHslots ≤ call.maxslots := by
  obtain ⟨limits, heq⟩ | ⟨k, limits, -, htried, heq⟩ :=
    allocateQueue_cases job o call st q
  · rw [heq]
    exact h
  · have hk := htried.trans ((slotsToTry_le st q).trans (minTag_le _ (sub_nonneg.mpr h)))
    rw [heq]
    exact le_sub_iff_add_le'.mp hk

/-- A slot is left for the master task while there is no queue instance for it. -/
def LeavesSlots (job : ParallelJob) (call : AllocateCall) (st : AllocateState) : Prop :=
  st.rqsHslots ≤ call.maxslots ∧
    (st.gotMasterQueue = false → call.accuHostSlots + st.rqsHslots < job.slots)

theorem LeavesSlots.allocateQueue {st : AllocateState} (q : QueueInstance)
    (hcall : call.haveMasterHost = false) (hmax : call.maxslots ≤ job.slots - call.accuHostSlots)
    (h : LeavesSlots job call st) : LeavesSlots job call (allocateQueue job o call st q) := by
  refine ⟨allocateQueue_le q h.1, ?_⟩
  obtain ⟨limits, heq⟩ | ⟨k, limits, -, htried, heq⟩ :=
    allocateQueue_cases job o call st q
  · rw [heq]
    exact h.2
  · rw [heq]
    intro hgot
    obtain ⟨hst, hsuits⟩ := Bool.or_eq_false_iff.mp hgot
    have hmaster : o.master q.qname = false := by simpa [hst] using hsuits
    have hleaves := slotsToTry_leaves (o := o) (q := q) hcall hst hmaster hmax h.1
    have hsum : (st.take job o q k limits).rqsHslots = st.rqsHslots + k := rfl
    linarith

/-! ## An allocation -/

/-- What holds of the slots of an allocation that is of use. -/
structure Allocated (job : ParallelJob) (o : HostOffer) (call : AllocateCall) (host : String)
    (got : Bool) (st : AllocateState) : Prop extends Taken o (hostQnames job host) got st where
  slots_pos : 0 < st.rqsHslots
  min_le : call.minslots ≤ st.rqsHslots
  le_max : 0 ≤ call.maxslots → st.rqsHslots ≤ call.maxslots
  got_of_only : call.onlyWithMaster = true → st.gotMasterQueue = true
  leaves : call.haveMasterHost = false → call.maxslots ≤ job.slots - call.accuHostSlots →
    call.accuHostSlots < job.slots → 0 ≤ call.maxslots → st.gotMasterQueue = false →
    call.accuHostSlots + st.rqsHslots < job.slots

/-- The slots of an allocation, and those given back, are not negative. -/
theorem Taken.nonneg {got : Bool} {st : AllocateState}
    (h : Taken o names got st) : 0 ≤ st.rqsHslots := by
  rw [h.sum]
  apply List.sum_nonneg
  simpa using fun qs hqs => (h.pos qs hqs).le

theorem parallelAllocateQueueSlots_eq (host : String) (limits : String → Option ℤ) (got : Bool) :
    parallelAllocateQueueSlots job o call host limits got =
      if 0 < (walkHost job o call host limits got).rqsHslots ∧
          (call.onlyWithMaster = true ∧
            (walkHost job o call host limits got).gotMasterQueue = false ∨
          (walkHost job o call host limits got).rqsHslots < call.minslots) then
        parallelRevertRqs job (walkHost job o call host limits got)
      else walkHost job o call host limits got := rfl

variable (job o call) in
/-- Slots are given back, there are none, or they are of use. -/
theorem parallelAllocateQueueSlots_cases (host : String) (limits : String → Option ℤ) (got : Bool) :
    ((parallelAllocateQueueSlots job o call host limits got).rqsHslots = 0 ∧
      (parallelAllocateQueueSlots job o call host limits got).queueSlots = []) ∨
    Allocated job o call host got (parallelAllocateQueueSlots job o call host limits got) := by
  have htaken := walkHost_taken job o call host limits got
  rw [parallelAllocateQueueSlots_eq]
  split
  next => exact Or.inl ⟨rfl, rfl⟩
  next hkeep =>
    rcases htaken.nonneg.eq_or_lt with hzero | hpos
    · refine Or.inl ⟨hzero.symm, ?_⟩
      by_contra hne
      obtain ⟨qs, tail, heq⟩ := List.exists_cons_of_ne_nil hne
      have hsum := htaken.sum
      rw [heq, List.map_cons, List.sum_cons] at hsum
      have hqs := htaken.pos qs (by simp [heq])
      have htail : 0 ≤ (tail.map (·.slots)).sum :=
        List.sum_nonneg (by simpa using fun x hx => (htaken.pos x (by simp [heq, hx])).le)
      linarith
    · simp only [not_and, not_or, not_lt] at hkeep
      refine Or.inr
        { toTaken := htaken
          slots_pos := hpos
          min_le := (hkeep hpos).2
          le_max := fun hmax =>
            walkHost_induct (fun st => st.rqsHslots ≤ call.maxslots) host
              (fun q _ _ _ _ _ h => allocateQueue_le q h) hmax
          got_of_only := fun honly => by simpa using (hkeep hpos).1 honly
          leaves := fun hcall hmax haccu h0 => ?_ }
      exact (walkHost_induct (LeavesSlots job call) host
        (fun q _ _ _ _ _ h => h.allocateQueue q hcall hmax)
        ⟨h0, fun _ => by simpa using haccu⟩).2

/-! ## The slots of a host -/

end Allocate

section Take

variable (job : ParallelJob)

/-- The host is tried with the master rule. -/
def masterAttempt (o : HostOffer) (host : String) (m : MinmaxSlots) (hslots accu : ℤ)
    (limits : String → Option ℤ) : AllocateState :=
  parallelAllocateQueueSlots job o
    ⟨false, true, m.minslotsMaster, min hslots m.maxslotsMaster, accu⟩ host limits false

/-- With which rule slots are taken, and whether there is a master queue for the caller. -/
inductive TakenBy (o : HostOffer) (host : String) (m : MinmaxSlots) (hslots : ℤ)
    (haveMasterHost : Bool) (accu : ℤ) (limits : String → Option ℤ) :
    AllocateState × Bool → Prop
  /-- The master rule. -/
  | master {st} (hmissing : haveMasterHost = false) (hrule : 0 < m.minslotsMaster)
      (hst : Allocated job o ⟨false, true, m.minslotsMaster, min hslots m.maxslotsMaster, accu⟩
        host false st) : TakenBy o host m hslots haveMasterHost accu limits (st, true)
  /-- The slave rule after the master rule, with the flag the master rule left. -/
  | fallback {st} (hmissing : haveMasterHost = false)
      (hrule : 0 < m.minslotsMaster) (hslaves : 0 < m.minslotsSlaves)
      (hnone : (masterAttempt job o host m hslots accu limits).rqsHslots = 0)
      (hst : Allocated job o
        ⟨true, false, m.minslotsSlaves, min hslots m.maxslotsSlaves, accu + m.minslotsMaster⟩
        host true st) :
      TakenBy o host m hslots haveMasterHost accu limits
        (st, (masterAttempt job o host m hslots accu limits).gotMasterQueue)
  /-- The one rule there is. -/
  | only {st} (hrule : haveMasterHost = true ∨ m.minslotsMaster ≤ 0)
      (hst : Allocated job o
        ⟨haveMasterHost, false, m.minslotsSlaves, min hslots m.maxslotsSlaves, accu⟩ host
        haveMasterHost st) :
      TakenBy o host m hslots haveMasterHost accu limits (st, st.gotMasterQueue)

section Equations

variable {job} {o : HostOffer} {host : String} {m : MinmaxSlots} {hslots accu : ℤ}
  {limits : String → Option ℤ}

theorem takeHostSlots_fallback (hrule : 0 < m.minslotsMaster)
    (hnone : (masterAttempt job o host m hslots accu limits).rqsHslots = 0)
    (hslaves : 0 < m.minslotsSlaves) :
    takeHostSlots job o host m hslots false accu limits = (parallelAllocateQueueSlots job o
        ⟨true, false, m.minslotsSlaves, min hslots m.maxslotsSlaves, accu + m.minslotsMaster⟩ host
        (masterAttempt job o host m hslots accu limits).limits true,
        (masterAttempt job o host m hslots accu limits).gotMasterQueue) := by
  unfold takeHostSlots
  rw [if_pos (by simpa using hrule)]
  exact if_pos ⟨hnone, hslaves⟩

theorem takeHostSlots_master (hrule : 0 < m.minslotsMaster)
    (hkeep : ¬ ((masterAttempt job o host m hslots accu limits).rqsHslots = 0 ∧
      0 < m.minslotsSlaves)) :
    takeHostSlots job o host m hslots false accu limits =
      (masterAttempt job o host m hslots accu limits,
        (masterAttempt job o host m hslots accu limits).gotMasterQueue) := by
  unfold takeHostSlots
  rw [if_pos (by simpa using hrule)]
  exact if_neg hkeep

theorem takeHostSlots_only {haveMasterHost : Bool}
    (hrule : ¬ (haveMasterHost = false ∧ 0 < m.minslotsMaster)) :
    takeHostSlots job o host m hslots haveMasterHost accu limits = (parallelAllocateQueueSlots job o
        ⟨haveMasterHost, false, m.minslotsSlaves, min hslots m.maxslotsSlaves, accu⟩ host limits
        haveMasterHost, (parallelAllocateQueueSlots job o
        ⟨haveMasterHost, false, m.minslotsSlaves, min hslots m.maxslotsSlaves, accu⟩ host limits
        haveMasterHost).gotMasterQueue) := by
  unfold takeHostSlots
  exact if_neg (by simpa using hrule)

end Equations

/-- The slots of a host are taken with one of the rules, or there are none. -/
theorem takeHostSlots_cases (o : HostOffer) (host : String) (m : MinmaxSlots) (hslots : ℤ)
    (haveMasterHost : Bool) (accu : ℤ) (limits : String → Option ℤ) :
    ((takeHostSlots job o host m hslots haveMasterHost accu limits).1.rqsHslots = 0 ∧
        (takeHostSlots job o host m hslots haveMasterHost accu limits).1.queueSlots = []) ∨
      TakenBy job o host m hslots haveMasterHost accu limits
        (takeHostSlots job o host m hslots haveMasterHost accu limits) := by
  by_cases hrule : haveMasterHost = false ∧ 0 < m.minslotsMaster
  · obtain ⟨rfl, hpos⟩ := hrule
    by_cases hback : (masterAttempt job o host m hslots accu limits).rqsHslots = 0 ∧
        0 < m.minslotsSlaves
    · rw [takeHostSlots_fallback hpos hback.1 hback.2]
      refine (parallelAllocateQueueSlots_cases job o _ host _ true).imp_right fun hst => ?_
      exact .fallback rfl hpos hback.2 hback.1 hst
    · rw [takeHostSlots_master hpos hback]
      refine (parallelAllocateQueueSlots_cases job o
        ⟨false, true, m.minslotsMaster, min hslots m.maxslotsMaster, accu⟩ host limits
          false).imp_right fun hst => ?_
      have hgot : (masterAttempt job o host m hslots accu limits).gotMasterQueue = true :=
        hst.got_of_only rfl
      rw [hgot]
      exact .master rfl hpos hst
  · rw [takeHostSlots_only hrule]
    refine (parallelAllocateQueueSlots_cases job o _ host limits haveMasterHost).imp_right fun hst => ?_
    exact .only (by simpa [or_iff_not_imp_left] using hrule) hst

end Take

end ClusterScheduler.Sched
