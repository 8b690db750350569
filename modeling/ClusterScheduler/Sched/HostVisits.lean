import ClusterScheduler.Sched.QueueAllocation

/-!
# Visits of hosts

What one visit adds to the slots of a parallel job.

* `ruleMin`, `ruleMax` — how many slots a rule wants at least and at most; `Amount` is what
  it gives.
* `visitTaken` — the slots a visit takes, if it takes some.
* `Progress`, `Progress.grant` — the part of the attempt that slots are granted to.
* `visitNext_progress` — a visit grants the slots it takes, and nothing else.
-/

namespace ClusterScheduler.Sched

/-! ## The amounts of a rule -/

def ruleMin (parsed : ℤ) : ℤ := if 0 < parsed then parsed else 1

def ruleMax (parsed remaining : ℤ) : ℤ :=
  if 0 < parsed then parsed else if parsed = allocRuleRoundrobin then 1 else remaining

/-- What a rule gives on a host. -/
structure Amount (parsed remaining slots : ℤ) : Prop where
  min_le : ruleMin parsed ≤ slots
  fixed : 0 < parsed → slots = parsed
  roundRobin : parsed = allocRuleRoundrobin → slots = 1
  le_remaining : ruleMin parsed ≤ remaining → slots ≤ remaining

theorem ruleMin_pos (parsed : ℤ) : 0 < ruleMin parsed := by
  unfold ruleMin
  split
  next h => exact h
  next => exact one_pos

variable {parsed remaining : ℤ}

theorem ruleMax_le (h : ruleMin parsed ≤ remaining) : ruleMax parsed remaining ≤ remaining := by
  unfold ruleMin at h
  unfold ruleMax
  split_ifs at h ⊢
  · exact h
  · exact h
  · exact le_rfl

theorem ruleMax_pos (h : ruleMin parsed ≤ remaining) : 0 < ruleMax parsed remaining := by
  unfold ruleMin at h
  unfold ruleMax
  split_ifs at h ⊢ with hfixed
  · exact hfixed
  · exact one_pos
  · exact h

theorem Allocated.amount {job : ParallelJob} {o : HostOffer} {call : AllocateCall} {host : String}
    {got : Bool} {st : AllocateState} {hslots : ℤ} (h : Allocated job o call host got st)
    (hhslots : 1 ≤ hslots) (hmin : call.minslots = ruleMin parsed)
    (hmax : call.maxslots = min hslots (ruleMax parsed remaining)) :
    Amount parsed remaining st.rqsHslots := by
  have hle := h.min_le
  have hub := h.le_max
  rw [hmin] at hle
  rw [hmax] at hub
  constructor
  · exact hle
  · intro hfixed
    simp only [ruleMin, ruleMax, hfixed, if_true] at hle hub
    exact le_antisymm ((hub (by omega)).trans (min_le_right _ _)) hle
  · rintro rfl
    simp only [ruleMin, ruleMax, show ¬ (0 : ℤ) < allocRuleRoundrobin by decide, if_false,
      if_true] at hle hub
    exact le_antisymm ((hub (by omega)).trans (min_le_right _ _)) hle
  · intro hrem
    unfold ruleMin at hrem
    unfold ruleMax at hub
    split at hub
    next hfixed =>
      rw [if_pos hfixed] at hrem
      exact (hub (by omega)).trans ((min_le_right _ _).trans hrem)
    next hfixed =>
      rw [if_neg hfixed] at hrem
      split at hub <;> exact (hub (by omega)).trans (by omega)

section Minmax

variable {job : ParallelJob}

@[simp] theorem minmaxSlaves_minslotsMaster (m : MinmaxSlots) (b : Bool) :
    (minmaxSlaves job m b).minslotsMaster = m.minslotsMaster := by
  unfold minmaxSlaves
  split_ifs <;> rfl

@[simp] theorem minmaxSlaves_maxslotsMaster (m : MinmaxSlots) (b : Bool) :
    (minmaxSlaves job m b).maxslotsMaster = m.maxslotsMaster := by
  unfold minmaxSlaves
  split_ifs <;> rfl

@[simp] theorem minmaxSlaves_minslotsSlaves (m : MinmaxSlots) (b : Bool) :
    (minmaxSlaves job m b).minslotsSlaves = ruleMin job.allocationParsed := by
  unfold minmaxSlaves ruleMin
  split_ifs <;> rfl

@[simp] theorem minmaxSlaves_maxslotsSlaves (m : MinmaxSlots) (b : Bool) :
    (minmaxSlaves job m b).maxslotsSlaves = ruleMax job.allocationParsed m.maxslotsSlaves := by
  unfold minmaxSlaves ruleMax
  split_ifs <;> rfl

theorem minmaxSlaves_tagging {m : MinmaxSlots} (b : Bool) (h : 1 ≤ m.minslotsForTagging) :
    1 ≤ (minmaxSlaves job m b).minslotsForTagging := by
  unfold minmaxSlaves
  split_ifs with hfixed hb
  · exact le_min h hfixed
  · exact hfixed
  · exact h
  · exact h

theorem minmaxSlots_only {haveMasterHost : Bool}
    (h : haveMasterHost = true ∨ job.hasMasterRule = false) (accu : ℤ) :
    minmaxSlots job haveMasterHost accu = minmaxSlaves job
        ⟨false, 0, job.slots - accu, 0, job.slots - accu, 1, job.slots - accu⟩ false := by
  have hcond : ¬ ((!haveMasterHost && job.hasMasterRule) = true) := by
    rcases h with h | h <;> simp [h]
  exact if_neg hcond

theorem minmaxSlots_missing (h : job.hasMasterRule = true) (accu : ℤ) :
    minmaxSlots job false accu =
      if (minmaxMaster job (job.slots - accu)).2 then
        minmaxSlaves job (minmaxMaster job (job.slots - accu)).1 true
      else (minmaxMaster job (job.slots - accu)).1 := by
  exact if_pos (by simpa using h)

theorem minslotsMaster_only {haveMasterHost : Bool}
    (h : haveMasterHost = true ∨ job.hasMasterRule = false) (accu : ℤ) :
    (minmaxSlots job haveMasterHost accu).minslotsMaster = 0 := by
  simp [minmaxSlots_only h]

theorem minslotsMaster_missing (h : job.hasMasterRule = true) (accu : ℤ) :
    (minmaxSlots job false accu).minslotsMaster = ruleMin job.mallocationParsed := by
  rw [minmaxSlots_missing h]
  split <;> simp [minmaxMaster, ruleMin]

theorem maxslotsMaster_missing (h : job.hasMasterRule = true) (accu : ℤ) :
    (minmaxSlots job false accu).maxslotsMaster =
      ruleMax job.mallocationParsed (job.slots - accu) := by
  rw [minmaxSlots_missing h]
  split <;> simp [minmaxMaster, ruleMax]

variable (job) in
/-- The slave rule is used with its own amounts, or not at all. -/
theorem minmaxSlots_slaves (haveMasterHost : Bool) (accu : ℤ) :
    (minmaxSlots job haveMasterHost accu).minslotsSlaves = 0 ∧ haveMasterHost = false ∧
        job.hasMasterRule = true ∨
      (minmaxSlots job haveMasterHost accu).minslotsSlaves = ruleMin job.allocationParsed ∧
        (minmaxSlots job haveMasterHost accu).maxslotsSlaves =
          ruleMax job.allocationParsed (job.slots - accu) := by
  by_cases h : haveMasterHost = true ∨ job.hasMasterRule = false
  · simp [minmaxSlots_only h]
  · simp only [not_or, Bool.not_eq_true, Bool.not_eq_false] at h
    rw [h.1, minmaxSlots_missing h.2]
    split
    next => exact Or.inr (by simp [minmaxMaster])
    next => exact Or.inl ⟨by simp [minmaxMaster], rfl, h.2⟩

theorem one_le_minslotsForTagging (haveMasterHost : Bool) (accu : ℤ) :
    1 ≤ (minmaxSlots job haveMasterHost accu).minslotsForTagging := by
  by_cases h : haveMasterHost = true ∨ job.hasMasterRule = false
  · rw [minmaxSlots_only h]
    exact minmaxSlaves_tagging _ le_rfl
  · simp only [not_or, Bool.not_eq_true, Bool.not_eq_false] at h
    have hmaster : 1 ≤ (minmaxMaster job (job.slots - accu)).1.minslotsForTagging := by
      have hpos : 0 < ruleMin job.mallocationParsed := ruleMin_pos _
      simpa [minmaxMaster, ruleMin, Int.add_one_le_iff] using Int.add_one_le_iff.mpr hpos
    rw [h.1, minmaxSlots_missing h.2]
    split
    next => exact minmaxSlaves_tagging _ hmaster
    next => exact hmaster

end Minmax

/-! ## What a visit takes -/

section Visit

variable (job : ParallelJob)

/-- The slots a visit of the host takes, if it takes some. -/
def visitTaken (s : ParallelState) (host : String) (o : HostOffer) :
    Option (AllocateState × Bool) :=
  let m := minmaxSlots job s.haveMasterHost s.accuHostSlots
  let hslots := tagHostSlots job o host m.minslotsForTagging m.maxslotsForTagging
  let taken := takeHostSlots job o host m hslots s.haveMasterHost s.accuHostSlots
    (tagLimits job s.limits o)
  if skipsHost job s host o = false ∧ job.queues.any (·.host = host) = true ∧
      m.minslotsForTagging ≤ hslots ∧ 0 < taken.1.rqsHslots then some taken
  else none

/-- The part of the attempt that slots are granted to. -/
structure Progress where
  gdil : List GrantedSlots
  accuHostSlots : ℤ
  haveMasterHost : Bool
  masterHost : Option String
  masterQueue : Option String

def ParallelState.progress (s : ParallelState) : Progress :=
  ⟨s.gdil, s.accuHostSlots, s.haveMasterHost, s.masterHost, s.masterQueue⟩

def Progress.grant (p : Progress) (host : String) (taken : AllocateState × Bool) : Progress where
  gdil := taken.1.queueSlots.foldl (grantQueueSlots host) p.gdil
  accuHostSlots := p.accuHostSlots + taken.1.rqsHslots
  haveMasterHost := p.haveMasterHost || taken.2
  masterHost := if taken.2 && p.masterHost.isNone then some host else p.masterHost
  masterQueue :=
    if p.masterQueue.isSome then p.masterQueue
    else (taken.1.queueSlots.find? (·.isMasterQueue)).map (·.qname)

variable {job}

variable (s : ParallelState)
include s

@[simp] theorem nextRound_progress :
    (nextRound job s).progress = s.progress := by
  unfold nextRound
  split <;> rfl

theorem nextRound_enough : (nextRound job s).enough job = s.enough job := by
  unfold nextRound
  split <;> rfl

theorem grantHostSlots_progress (host : String) (taken : AllocateState × Bool) :
    (grantHostSlots s host taken).progress =
      if 0 < taken.1.rqsHslots then s.progress.grant host taken else s.progress := by
  by_cases hpos : 0 < taken.1.rqsHslots
  · rw [if_pos hpos, grantHostSlots, if_pos hpos]
    rfl
  · rw [if_neg hpos, grantHostSlots, if_neg hpos]
    rfl

theorem visitHost_progress (host : String) (o : HostOffer)
    (hskip : skipsHost job s host o = false) :
    (visitHost job s host o).progress =
      (visitTaken job s host o).elim s.progress (s.progress.grant host) := by
  by_cases hany : job.queues.any (·.host = host) = true
  · rw [visitHost, if_pos hany]
    unfold visitQueues visitTaken
    dsimp only
    split
    next henough =>
      rw [grantHostSlots_progress]
      split
      next hpos =>
        rw [if_pos ⟨hskip, hany, henough, hpos⟩]
        rfl
      next hpos =>
        rw [if_neg fun hall => hpos hall.2.2.2]
        rfl
    next henough =>
      rw [if_neg fun hall => henough hall.2.2.1]
      rfl
  · rw [visitHost, if_neg hany, visitTaken, if_neg fun hall => hany hall.2.1]
    rfl

omit s

variable {s' : ParallelState}

variable {rest : List String}

/-- A visit grants the slots it takes, and nothing else. -/
theorem visitNext_progress {s : ParallelState} {host : String}
    {o : HostOffer} (hrest : s.rest = host :: rest) (h : visitNext job s o = some s') :
    s'.progress = (visitTaken job s host o).elim s.progress (s.progress.grant host) := by
  unfold visitNext at h
  rw [hrest] at h
  dsimp only at h
  split at h
  next hskip =>
    cases h
    rw [visitTaken, if_neg fun hall => Bool.false_ne_true (hall.1.symm.trans hskip)]
    exact nextRound_progress _
  next hskip =>
    have hvisit := visitHost_progress { s with rest := rest } host o (Bool.eq_false_iff.mpr hskip)
    split at h
    next => exact Option.some.inj h ▸ hvisit
    next => exact Option.some.inj h ▸ (nextRound_progress _).trans hvisit

theorem visitNext_rest {s : ParallelState} {o : HostOffer} (h : visitNext job s o = some s') :
    ∃ host rest, s.rest = host :: rest := by
  apply List.exists_cons_of_ne_nil
  intro hnil
  rw [visitNext, hnil] at h
  nomatch h

theorem nextRound_rest (s : ParallelState) :
    (nextRound job s).rest = s.rest ∨
      (s.doRoundRobin = true ∧ (nextRound job s).rest = job.hosts) := by
  unfold nextRound
  split
  next hround => exact Or.inr ⟨hround.2.1, rfl⟩
  next => exact Or.inl rfl

theorem nextRound_doRoundRobin (s : ParallelState) :
    (nextRound job s).doRoundRobin = s.doRoundRobin := by
  unfold nextRound
  split <;> rfl

variable (job) in
theorem visitHost_rest (s : ParallelState) (host : String) (o : HostOffer) :
    (visitHost job s host o).rest = s.rest ∧
      (visitHost job s host o).doRoundRobin =
        (minmaxSlots job s.haveMasterHost s.accuHostSlots).doRoundRobin := by
  unfold visitHost visitQueues grantHostSlots
  dsimp only
  split_ifs <;> exact ⟨rfl, rfl⟩

theorem visitNext_hosts {s : ParallelState} {host : String}
    {o : HostOffer} (hrest : s.rest = host :: rest) (h : visitNext job s o = some s') :
    (s'.doRoundRobin = s.doRoundRobin ∨
      s'.doRoundRobin = (minmaxSlots job s.haveMasterHost s.accuHostSlots).doRoundRobin) ∧
    (s'.rest = [] ∨ s'.rest = rest ∨ s'.doRoundRobin = true) := by
  unfold visitNext at h
  rw [hrest] at h
  dsimp only at h
  have hvisit := visitHost_rest job { s with rest := rest } host o
  split at h
  next =>
    cases h
    refine ⟨Or.inl (nextRound_doRoundRobin _), Or.inr ?_⟩
    rw [nextRound_doRoundRobin]
    exact (nextRound_rest _).imp_right And.left
  next =>
    split at h
    next =>
      cases h
      exact ⟨Or.inr hvisit.2, Or.inl rfl⟩
    next =>
      cases h
      rw [nextRound_doRoundRobin]
      exact ⟨Or.inr hvisit.2, Or.inr ((nextRound_rest _).imp (Eq.trans · hvisit.1) And.left)⟩

theorem visitNext_missing {s : ParallelState} {o : HostOffer}
    (hmissing : s.rest ≠ [] → s.enough job = false) (h : visitNext job s o = some s')
    (hrest : s'.rest ≠ []) : s'.enough job = false := by
  unfold visitNext at h
  split at h
  next => nomatch h
  next host rest hs =>
    dsimp only at h
    split at h
    next =>
      cases h
      rw [nextRound_enough]
      exact hmissing (by simp [hs])
    next =>
      split at h
      next =>
        cases h
        exact absurd rfl hrest
      next hmore =>
        cases h
        rw [nextRound_enough]
        exact Bool.eq_false_iff.mpr hmore

theorem skipsHost_of_visitTaken {s : ParallelState} {host : String} {o : HostOffer}
    {taken : AllocateState × Bool} (h : visitTaken job s host o = some taken) :
    skipsHost job s host o = false := by
  unfold visitTaken at h
  dsimp only at h
  split at h
  next hall => exact hall.1
  next => nomatch h

theorem visitTaken_takenBy {s : ParallelState} {host : String} {o : HostOffer}
    {taken : AllocateState × Bool} (h : visitTaken job s host o = some taken) :
    ∃ hslots, 1 ≤ hslots ∧
      TakenBy job o host (minmaxSlots job s.haveMasterHost s.accuHostSlots) hslots
        s.haveMasterHost s.accuHostSlots (tagLimits job s.limits o) taken := by
  unfold visitTaken at h
  dsimp only at h
  split at h
  next hall =>
    cases h
    refine ⟨_, (one_le_minslotsForTagging _ _).trans hall.2.2.1, ?_⟩
    exact (takeHostSlots_cases job o host _ _ _ _ _).resolve_left fun hnone =>
      hall.2.2.2.ne' hnone.1
  next => nomatch h

variable {m : MinmaxSlots} {hslots accu : ℤ} {haveMasterHost : Bool} {limits : String → Option ℤ}

theorem TakenBy.masterFirst {o : HostOffer} {host : String} {taken : AllocateState × Bool}
    (h : TakenBy job o host m hslots haveMasterHost accu limits taken) :
    (∀ qs ∈ taken.1.queueSlots, qs.isMasterQueue = false) ∨
      (haveMasterHost = false ∧ taken.2 = true ∧ ∃ qs tail, taken.1.queueSlots = qs :: tail ∧
        qs.isMasterQueue = true ∧ o.master qs.qname = true ∧
        ∀ qs ∈ tail, qs.isMasterQueue = false) := by
  cases h with
  | master hmissing hrule hst =>
    rcases hst.master with ⟨hgot, -⟩ | ⟨-, -, hfirst⟩
    · exact absurd (hgot.symm.trans (hst.got_of_only rfl)) Bool.false_ne_true
    · exact Or.inr ⟨hmissing, rfl, hfirst⟩
  | fallback hmissing hrule hslaves hnone hst =>
    exact Or.inl (hst.master.resolve_right fun hfirst => absurd hfirst.1.symm
      Bool.false_ne_true).2
  | only hrule hst =>
    exact hst.master.imp And.right fun ⟨hmissing, hgot, hfirst⟩ => ⟨hmissing, hgot, hfirst⟩

theorem TakenBy.taken {o : HostOffer} {host : String} {taken : AllocateState × Bool}
    (h : TakenBy job o host m hslots haveMasterHost accu limits taken) :
    0 < taken.1.rqsHslots ∧ ∃ got, Taken o (hostQnames job host) got taken.1 := by
  cases h with
  | master hmissing hrule hst => exact ⟨hst.slots_pos, _, hst.toTaken⟩
  | fallback hmissing hrule hslaves hnone hst => exact ⟨hst.slots_pos, _, hst.toTaken⟩
  | only hrule hst => exact ⟨hst.slots_pos, _, hst.toTaken⟩

/-! ## Runs -/

variable {offers : List HostOffer}

theorem attemptRun_keeps (Inv : ParallelState → Prop)
    (hstep : ∀ s o s', Inv s → visitNext job s o = some s' → Inv s') {s : ParallelState}
    (hs : Inv s) (hrun : attemptRun job s offers = some s') : Inv s' := by
  induction offers generalizing s with
  | nil => exact Option.some.inj hrun ▸ hs
  | cons o offers ih =>
    obtain ⟨s₁, hnext, hrun⟩ := Option.bind_eq_some_iff.mp hrun
    exact ih (hstep s o s₁ hs hnext) hrun

variable {P : ParallelState → HostOffer → Prop}

theorem EveryVisit.cons {s : ParallelState} {o : HostOffer}
    (hvisit : P s o) (hnext : visitNext job s o = some s') (h : EveryVisit job P s' offers) :
    EveryVisit job P s (o :: offers) :=
  ⟨hvisit, fun _ hnext' => Option.some.inj (hnext.symm.trans hnext') ▸ h⟩

/-- What holds at the end, and is not lost on the way back, tells about every visit. -/
theorem EveryVisit.of_end (Inv End : ParallelState → Prop)
    (hstep : ∀ s o s', Inv s → visitNext job s o = some s' → Inv s')
    (hback : ∀ s o s', Inv s → visitNext job s o = some s' → End s' → End s ∧ P s o)
    {s : ParallelState} (hs : Inv s) (hrun : attemptRun job s offers = some s') (hend : End s') :
    End s ∧ EveryVisit job P s offers := by
  induction offers generalizing s with
  | nil => exact ⟨Option.some.inj hrun ▸ hend, trivial⟩
  | cons o offers ih =>
    obtain ⟨s₁, hnext, hrun⟩ := Option.bind_eq_some_iff.mp hrun
    obtain ⟨hend₁, hrest⟩ := ih (hstep s o s₁ hs hnext) hrun
    obtain ⟨hends, hvisit⟩ := hback s o s₁ hs hnext hend₁
    refine ⟨hends, hvisit, fun s₂ hnext₂ => ?_⟩
    obtain rfl := Option.some.inj (hnext.symm.trans hnext₂)
    exact hrest

end Visit

end ClusterScheduler.Sched
