import ClusterScheduler.Sched.SequentialVisit

/-!
# The best queue instance so far

What the search knows between two queue instances.

* `Searched` — skip lists and tags, for every kind of assignment.
* `BestRule` — what has to be kept by a queue instance that is passed over, or accepted.
* `BestNow`, `BestHard`, `BestSoft` — the best queue instance so far, for an assignment now, for
  a reservation, and for a reservation with soft requests.
-/

namespace ClusterScheduler.Sched

section Tags

variable {s : SequentialState} {qname : String} {k : ℕ}

variable (name : String)
include name

theorem setTag_tag :
    ((s.setTag qname k).tags name).tag = if name = qname then k else (s.tags name).tag := by
  by_cases h : name = qname
  · subst h
    simp [SequentialState.setTag]
  · simp [SequentialState.setTag, h]

@[simp] theorem setTag_availableAt :
    ((s.setTag qname k).tags name).availableAt = (s.tags name).availableAt := by
  by_cases h : name = qname
  · subst h
    simp [SequentialState.setTag]
  · simp [SequentialState.setTag, h]

@[simp] theorem setTag_softViolation :
    ((s.setTag qname k).tags name).softViolation = (s.tags name).softViolation := by
  by_cases h : name = qname
  · subst h
    simp [SequentialState.setTag]
  · simp [SequentialState.setTag, h]

theorem untagBest_tag :
    (s.untagBest.tags name).tag = if s.bestQep = some name then 0 else (s.tags name).tag := by
  unfold SequentialState.untagBest
  cases hbest : s.bestQep with
  | none => simp
  | some best => simp [setTag_tag, eq_comm]

@[simp] theorem untagBest_availableAt :
    (s.untagBest.tags name).availableAt = (s.tags name).availableAt := by
  unfold SequentialState.untagBest
  cases s.bestQep <;> simp

@[simp] theorem untagBest_softViolation :
    (s.untagBest.tags name).softViolation = (s.tags name).softViolation := by
  unfold SequentialState.untagBest
  cases s.bestQep <;> simp

omit name

@[simp] theorem untagBest_bestQueueResult : s.untagBest.bestQueueResult = s.bestQueueResult := by
  unfold SequentialState.untagBest
  cases s.bestQep <;> rfl

end Tags

section Best

variable (a : SequentialAssignment) (s₀ : SequentialStart)

def SequentialAssignment.violations (q : SequentialQueue) : ℕ := (a.queueTime q.qname).violations

/-! ## What holds for every assignment -/

/-- Between two queue instances. -/
structure Searched (pre : List SequentialQueue) (s : SequentialState) : Prop where
  skip : SkipOk a s₀ s
  untouched : ∀ name, name ∉ pre.map (·.qname) → (s.tags name).tag = (s₀.tags name).tag ∧
    (s.tags name).availableAt = (s₀.tags name).availableAt
  global : s.gotSolution = true → a.isReservation = true → a.globalTime.time ≤ s.ttBest

variable {a s₀}

theorem Searched.init : Searched a s₀ [] (.init s₀) where
  skip := ⟨List.Subset.refl _, List.Subset.refl _, fun _ h => Or.inl h, fun _ h => Or.inl h,
    nofun, nofun, nofun⟩
  untouched := fun _ _ => ⟨rfl, rfl⟩
  global := nofun

variable {pre : List SequentialQueue} {q : SequentialQueue}

variable {name : String}

theorem notMem_append
    (h : name ∉ (pre ++ [q]).map (·.qname)) : name ∉ pre.map (·.qname) ∧ name ≠ q.qname := by
  simpa [not_or] using h

variable {s s' : SequentialState}

theorem Searched.pass (h : Searched a s₀ pre s) (hsame : SameBest (s.setTag q.qname 0) s' q.qname)
    (hskip : SkipOk a s₀ s') : Searched a s₀ (pre ++ [q]) s' where
  skip := hskip
  untouched := fun name hname => by
    obtain ⟨hpre, hne⟩ := notMem_append hname
    rw [hsame.tag, hsame.availableAt, setTag_tag, if_neg hne, setTag_availableAt]
    exact h.untouched name hpre
  global := fun hgot hres => by
    rw [hsame.ttBest]
    exact h.global (hsame.gotSolution ▸ hgot) hres

theorem not_cut (h : Searched a s₀ pre s) (hgot : s.gotSolution = true) (hcut : ¬ Cut a s q) :
    (a.isReservation = true → a.start q ≤ s.ttBest ∧ (a.hostTime q.host).time < s.ttBest ∧
      (a.queueTime q.qname).time < s.ttBest ∧ 0 < s.ttBest) ∧
    (a.isReservation = false → a.violations q < s.violationsBest) := by
  simp only [Cut, SequentialState.cuts, isNotBetter, hgot, Bool.true_and, Bool.or_eq_true,
    Bool.and_eq_true, decide_eq_true_eq, not_or, not_and, not_le] at hcut
  obtain ⟨h0, hhost, hqueue⟩ := hcut
  refine ⟨fun hres => ?_, fun hres => hqueue.2 (by simp [hres])⟩
  have hglobal := h.global hgot hres
  have hth := hhost.1 hres
  have htq := hqueue.1 hres
  exact ⟨max_le htq.le (max_le hth.le hglobal), hth, htq, h0.1 hres⟩

/-- The state after a queue instance that is accepted while the loop goes on. -/
def accepted (a : SequentialAssignment) (s : SequentialState) (q : SequentialQueue) :
    SequentialState :=
  { (if a.isSoft then compareQueue a (acceptTags a s q) q.qname (comparedTime a q)
      (a.violations q) else acceptTags a s q) with
    gotSolution := true
    violationsBest := a.violations q
    ttBest := comparedTime a q }

theorem acceptQueue_of_found (hviolations : (s.tags q.qname).softViolation = a.violations q)
    (h : foundQueue a q (a.violations q) = true) :
    acceptQueue a s q = ((acceptTags a s q).untagBest, true) := by
  rw [acceptQueue_eq hviolations]
  exact if_pos h

theorem acceptQueue_of_not_found (hviolations : (s.tags q.qname).softViolation = a.violations q)
    (h : foundQueue a q (a.violations q) = false) :
    acceptQueue a s q = (accepted a s q, false) := by
  rw [acceptQueue_eq hviolations]
  exact if_neg (Bool.eq_false_iff.mp h)

/-- Which queue instance is tagged by the comparison. -/
def beats (a : SequentialAssignment) (s : SequentialState) (q : SequentialQueue) : Prop :=
  if a.isReservation then
    a.start q < s.bestQepTt ∨ (a.start q = s.bestQepTt ∧ a.violations q < s.bestQepViolations)
  else a.violations q < s.bestQepViolations

instance (s : SequentialState) (q : SequentialQueue) : Decidable (beats a s q) := by
  unfold beats
  infer_instance

theorem compareQueue_eq (s : SequentialState) (q : SequentialQueue) :
    compareQueue a s q.qname (comparedTime a q) (a.violations q) =
      if beats a s q then
        { s.untagBest with
          bestQep := some q.qname
          bestQepTt := if a.isReservation then a.start q else s.bestQepTt
          bestQepViolations := a.violations q }
      else s.setTag q.qname 0 := by
  unfold compareQueue beats comparedTime
  by_cases hres : a.isReservation = true <;> simp [hres]

theorem accepted_lists (s : SequentialState) (q : SequentialQueue) :
    (accepted a s q).skipCqueues = s.skipCqueues ∧ (accepted a s q).skipHosts = s.skipHosts ∧
      (accepted a s q).unclearCqueues = s.unclearCqueues ∧
      (accepted a s q).unclearHosts = s.unclearHosts ∧
      (accepted a s q).bestQueueResult = .ok := by
  have huntag (s : SequentialState) : s.untagBest.skipCqueues = s.skipCqueues ∧
      s.untagBest.skipHosts = s.skipHosts ∧ s.untagBest.unclearCqueues = s.unclearCqueues ∧
      s.untagBest.unclearHosts = s.unclearHosts ∧
      s.untagBest.bestQueueResult = s.bestQueueResult := by
    unfold SequentialState.untagBest
    cases s.bestQep <;> exact ⟨rfl, rfl, rfl, rfl, rfl⟩
  unfold accepted
  rw [compareQueue_eq]
  split
  · split
    · exact huntag (acceptTags a s q)
    · exact ⟨rfl, rfl, rfl, rfl, rfl⟩
  · exact ⟨rfl, rfl, rfl, rfl, rfl⟩

theorem acceptTags_tag (s : SequentialState) (q : SequentialQueue) (name : String) :
    ((acceptTags a s q).tags name).tag = if name = q.qname then 1 else (s.tags name).tag := by
  by_cases h : name = q.qname
  · subst h
    simp [acceptTags]
  · simp [acceptTags, h]

theorem acceptTags_availableAt (hres : a.isReservation = true) (s : SequentialState)
    (q : SequentialQueue) (name : String) :
    ((acceptTags a s q).tags name).availableAt =
      if name = q.qname then a.start q else (s.tags name).availableAt := by
  by_cases h : name = q.qname
  · subst h
    simp [acceptTags, hres]
  · simp [acceptTags, h]

@[simp] theorem acceptTags_softViolation (s : SequentialState) (q : SequentialQueue)
    (name : String) :
    ((acceptTags a s q).tags name).softViolation = (s.tags name).softViolation := by
  by_cases h : name = q.qname
  · subst h
    simp [acceptTags]
  · simp [acceptTags, h]

theorem accepted_tag (h : s.bestQep ≠ some q.qname) (name : String) :
    ((accepted a s q).tags name).tag =
      if name = q.qname then (if a.isSoft = true ∧ ¬ beats a s q then 0 else 1)
      else if a.isSoft = true ∧ beats a s q ∧ s.bestQep = some name then 0
      else (s.tags name).tag := by
  have hbeats : beats a (acceptTags a s q) q ↔ beats a s q := Iff.rfl
  have hbest : (acceptTags a s q).bestQep = s.bestQep := rfl
  unfold accepted
  rw [compareQueue_eq]
  by_cases hsoft : a.isSoft = true
  · by_cases hbetter : beats a s q
    · by_cases hname : name = q.qname
      · subst hname
        simp [hsoft, hbetter, hbeats, untagBest_tag, hbest, acceptTags_tag, h]
      · simp [hsoft, hbetter, hbeats, untagBest_tag, hbest, acceptTags_tag, hname]
    · by_cases hname : name = q.qname <;>
        simp [hsoft, hbetter, hbeats, setTag_tag, acceptTags_tag, hname]
  · simp [hsoft, acceptTags_tag]

theorem accepted_availableAt (hres : a.isReservation = true) (s : SequentialState)
    (q : SequentialQueue) (name : String) :
    ((accepted a s q).tags name).availableAt =
      if name = q.qname then a.start q else (s.tags name).availableAt := by
  rw [← acceptTags_availableAt hres]
  unfold accepted
  rw [compareQueue_eq]
  split
  · split <;> simp
  · rfl

theorem accepted_availableAt_of_ne (s : SequentialState) (h : name ≠ q.qname) :
    ((accepted a s q).tags name).availableAt = (s.tags name).availableAt := by
  have htags : ((acceptTags a s q).tags name).availableAt = (s.tags name).availableAt := by
    simp [acceptTags, h]
  unfold accepted
  rw [compareQueue_eq]
  split
  · split <;> simpa using htags
  · exact htags

theorem accepted_softViolation (s : SequentialState) (q : SequentialQueue) (name : String) :
    ((accepted a s q).tags name).softViolation = (s.tags name).softViolation := by
  unfold accepted
  rw [compareQueue_eq]
  split
  · split <;> simp
  · simp

/-- The fields of the best queue instance after a comparison. -/
theorem accepted_best (s : SequentialState) (q : SequentialQueue) :
    (accepted a s q).bestQep = (if a.isSoft = true ∧ beats a s q then some q.qname else s.bestQep) ∧
      (accepted a s q).bestQepViolations =
        (if a.isSoft = true ∧ beats a s q then a.violations q else s.bestQepViolations) ∧
      (a.isReservation = true → (accepted a s q).bestQepTt =
        if a.isSoft = true ∧ beats a s q then a.start q else s.bestQepTt) := by
  have hbeats : beats a (acceptTags a s q) q ↔ beats a s q := Iff.rfl
  unfold accepted
  rw [compareQueue_eq]
  by_cases hsoft : a.isSoft = true
  · by_cases hbetter : beats a s q
    · refine ⟨?_, ?_, fun hres => ?_⟩
      · simp [hsoft, hbetter, hbeats]
      · simp [hsoft, hbetter, hbeats]
      · simp [hsoft, hbetter, hbeats, hres]
    · have hstop : ¬ (a.isSoft = true ∧ beats a s q) := fun hall => hbetter hall.2
      rw [if_neg hstop, if_neg hstop, if_neg hstop, if_pos hsoft, if_neg (mt hbeats.mp hbetter)]
      exact ⟨rfl, rfl, fun _ => rfl⟩
  · have hstop : ¬ (a.isSoft = true ∧ beats a s q) := fun hall => hsoft hall.1
    rw [if_neg hstop, if_neg hstop, if_neg hstop, if_neg hsoft]
    exact ⟨rfl, rfl, fun _ => rfl⟩

/-- A branch that is cut stays cut when a better queue instance is found. -/
theorem cuts_mono {violations time : ℕ} (hgot : s'.gotSolution = true)
    (hres : a.isReservation = true → s'.ttBest ≤ s.ttBest)
    (hnow : a.isReservation = false → s'.violationsBest ≤ s.violationsBest)
    (h : s.cuts a violations time = true) : s'.cuts a violations time = true := by
  simp only [SequentialState.cuts, isNotBetter, hgot, Bool.true_and, Bool.or_eq_true,
    Bool.and_eq_true, decide_eq_true_eq, Bool.not_eq_true'] at h ⊢
  obtain ⟨-, ⟨hmode, hle⟩ | ⟨hmode, hle⟩⟩ := h
  · exact Or.inl ⟨hmode, (hres hmode).trans hle⟩
  · exact Or.inr ⟨hmode, (hnow hmode).trans hle⟩

/-- A queue instance that is accepted while the loop goes on. -/
theorem Searched.accept (h : Searched a s₀ pre s)
    (hsame : SameBest (s.setTag q.qname 0) s' q.qname) (hskip : SkipOk a s₀ s')
    (hcut : ¬ Cut a s q) (hbest : ∀ name, s.bestQep = some name → name ∈ pre.map (·.qname))
    (hnew : q.qname ∉ pre.map (·.qname)) : Searched a s₀ (pre ++ [q]) (accepted a s' q) where
  skip := by
    obtain ⟨hcqueues, hhosts, hclear, hclear', hresult⟩ := accepted_lists (a := a) s' q
    refine ⟨hcqueues ▸ hskip.cqueues_sub, hhosts ▸ hskip.hosts_sub, hcqueues ▸ hskip.cqueues,
      fun host hmem => ?_, hclear ▸ hskip.clearCqueues, hclear' ▸ hskip.clearHosts,
      fun _ => hresult⟩
    -- a host was skipped for a cut only against a best queue instance that is now improved
    rcases hskip.hosts host (hhosts ▸ hmem) with hold | hrejected | hmatch | hpasses | hcuts
    · exact Or.inl hold
    · exact Or.inr (Or.inl hrejected)
    · exact Or.inr (Or.inr (Or.inl hmatch))
    · exact Or.inr (Or.inr (Or.inr (Or.inl hpasses)))
    · refine Or.inr (Or.inr (Or.inr (Or.inr (cuts_mono rfl (fun hres => ?_) (fun hnow => ?_)
        hcuts))))
      all_goals
        have hgot : s.gotSolution = true := by
          rw [hsame.cuts] at hcuts
          exact (Bool.and_eq_true_iff.mp hcuts).1
        have hbetter := not_cut h hgot hcut
      · have hle : comparedTime a q ≤ s.ttBest := by
          rw [comparedTime, if_pos hres]
          exact (hbetter.1 hres).1
        rwa [hsame.ttBest]
      · rw [hsame.violationsBest]
        exact (hbetter.2 hnow).le
  untouched := fun name hname => by
    obtain ⟨hpre, hne⟩ := notMem_append hname
    have hbest' : s'.bestQep ≠ some q.qname := fun heq =>
      hnew (hbest _ (hsame.bestQep.symm.trans heq))
    have hnotBest : s'.bestQep ≠ some name := fun heq =>
      hpre (hbest _ (hsame.bestQep.symm.trans heq))
    rw [accepted_tag hbest', if_neg hne, if_neg fun hall => hnotBest hall.2.2,
      accepted_availableAt_of_ne _ hne, hsame.tag, hsame.availableAt, setTag_tag, if_neg hne,
      setTag_availableAt]
    exact h.untouched name hpre
  global := fun _ hres => by
    change a.globalTime.time ≤ comparedTime a q
    rw [comparedTime, if_pos hres]
    exact (le_max_right _ _).trans (le_max_right _ _)

/-! ## The best one so far -/

/-- No queue instance is suitable yet. -/
structure Fresh (a : SequentialAssignment) (s₀ : SequentialStart) (pre : List SequentialQueue)
    (s : SequentialState) : Prop where
  unsuitable : ∀ q ∈ pre, ¬ Suitable a s₀ q
  tag : ∀ q ∈ pre, (s.tags q.qname).tag = 0
  bestQep : s.bestQep = none
  bestQepTt : s.bestQepTt = uint64Max
  bestQepViolations : s.bestQepViolations = uint32Max

/-- One queue instance is tagged, the best one. -/
structure OnlyTagged (a : SequentialAssignment) (s₀ : SequentialStart)
    (pre : List SequentialQueue) (s : SequentialState) (b : SequentialQueue) : Prop where
  mem : b ∈ pre
  suits : Suitable a s₀ b
  tag : ∀ q ∈ pre, (s.tags q.qname).tag ≠ 0 ↔ q.qname = b.qname
  availableAt : a.isReservation = true → (s.tags b.qname).availableAt = a.start b
  softViolation : (s.tags b.qname).softViolation = a.violations b
  bestQep : s.bestQep = some b.qname
  bestQepTt : a.isReservation = true → s.bestQepTt = a.start b
  bestQepViolations : s.bestQepViolations = a.violations b

/-- What holds between two queue instances: there is none yet, or the best one is known. -/
structure SearchInv (a : SequentialAssignment) (s₀ : SequentialStart)
    (Best : List SequentialQueue → SequentialState → Prop) (pre : List SequentialQueue)
    (s : SequentialState) : Prop where
  searched : Searched a s₀ pre s
  none : s.gotSolution = false → Fresh a s₀ pre s
  some : s.gotSolution = true → Best pre s

theorem SearchInv.init (Best : List SequentialQueue → SequentialState → Prop) :
    SearchInv a s₀ Best [] (.init s₀) where
  searched := .init
  none := fun _ => ⟨nofun, nofun, rfl, rfl, rfl⟩
  some := nofun

/-- A queue instance passes all steps, and `s'` is the state before it is accepted. -/
structure Accepts (a : SequentialAssignment) (s₀ : SequentialStart) (s : SequentialState)
    (q : SequentialQueue) (s' : SequentialState) : Prop where
  suits : Suitable a s₀ q
  not_cut : ¬ Cut a s q
  same : SameBest (s.setTag q.qname 0) s' q.qname
  softViolation : (s'.tags q.qname).softViolation = a.violations q

/-- What makes `Best` hold after every queue instance. -/
structure BestRule (a : SequentialAssignment) (s₀ : SequentialStart)
    (Best : List SequentialQueue → SequentialState → Prop) : Prop where
  mem : ∀ {pre s name}, Best pre s → s.bestQep = some name → name ∈ pre.map (·.qname)
  pass : ∀ {pre s q s'}, Searched a s₀ pre s → q ∈ a.queues → q.qname ∉ pre.map (·.qname) →
    s.gotSolution = true → Best pre s → ¬ (Suitable a s₀ q ∧ ¬ Cut a s q) →
    SameBest (s.setTag q.qname 0) s' q.qname → Best (pre ++ [q]) s'
  accept : ∀ {pre s q s'}, SearchInv a s₀ Best pre s → q.qname ∉ pre.map (·.qname) →
    Accepts a s₀ s q s' → foundQueue a q (a.violations q) = false →
    Best (pre ++ [q]) (accepted a s' q)

section Loop

variable {Best : List SequentialQueue → SequentialState → Prop}

variable {pre : List SequentialQueue} {s : SequentialState}

theorem SearchInv.bestQep_mem (hrule : BestRule a s₀ Best) (h : SearchInv a s₀ Best pre s)
    {name : String} (hbest : s.bestQep = Option.some name) : name ∈ pre.map (·.qname) := by
  cases hgot : s.gotSolution with
  | true => exact hrule.mem (h.some hgot) hbest
  | false => exact nomatch (h.none hgot).bestQep.symm.trans hbest

theorem not_cut_of_fresh (hgot : s.gotSolution = false) (q : SequentialQueue) : ¬ Cut a s q := by
  simp [Cut, SequentialState.cuts, hgot]

variable {q : SequentialQueue}

theorem Fresh.pass {s' : SequentialState}
    (h : Fresh a s₀ pre s) (hsame : SameBest (s.setTag q.qname 0) s' q.qname)
    (hsuits : ¬ Suitable a s₀ q) : Fresh a s₀ (pre ++ [q]) s' where
  unsuitable := List.forall_mem_append.mpr
    ⟨h.unsuitable, List.forall_mem_singleton.mpr hsuits⟩
  tag := fun x hx => by
    rw [hsame.tag, setTag_tag]
    rcases List.mem_append.mp hx with hpre | hlast
    · split
      · rfl
      · exact h.tag x hpre
    · rw [List.mem_singleton.mp hlast]
      exact if_pos rfl
  bestQep := hsame.bestQep.trans h.bestQep
  bestQepTt := hsame.bestQepTt.trans h.bestQepTt
  bestQepViolations := hsame.bestQepViolations.trans h.bestQepViolations

variable {post : List SequentialQueue}

theorem qname_notMem (hall : a.queues = pre ++ q :: post) : q.qname ∉ pre.map (·.qname) := by
  have hnodup := a.qnames_nodup
  rw [hall, List.map_append, List.map_cons] at hnodup
  exact fun hmem => (List.nodup_append.mp hnodup).2.2 _ hmem _ (.head _) rfl

theorem SearchInv.step (hrule : BestRule a s₀ Best) (hall : a.queues = pre ++ q :: post)
    (h : SearchInv a s₀ Best pre s) (hgoes : (visitQueue a s q).2 = false) :
    SearchInv a s₀ Best (pre ++ [q]) (visitQueue a s q).1 := by
  have hnew := qname_notMem hall
  rcases visitQueue_cases q h.searched.skip with
    ⟨hstop, -, hsame, hskip⟩ | ⟨⟨hsuits, hcut⟩, s', hsame, hskip, hviolations, heq⟩
  · refine ⟨h.searched.pass hsame hskip, fun hgot => ?_, fun hgot => ?_⟩
    · have hgot := hsame.gotSolution.symm.trans hgot
      exact (h.none hgot).pass hsame fun hsuits => hstop ⟨hsuits, not_cut_of_fresh hgot q⟩
    · have hgot := hsame.gotSolution.symm.trans hgot
      have hmem : q ∈ a.queues := hall ▸ List.mem_append_right _ (.head _)
      exact hrule.pass h.searched hmem hnew hgot (h.some hgot) hstop hsame
  · have haccepts : Accepts a s₀ s q s' := ⟨hsuits, hcut, hsame, hviolations⟩
    rw [heq] at hgoes ⊢
    cases hfound : foundQueue a q (a.violations q) with
    | true =>
      rw [acceptQueue_of_found hviolations hfound] at hgoes
      nomatch hgoes
    | false =>
      rw [acceptQueue_of_not_found hviolations hfound]
      exact ⟨h.searched.accept hsame hskip hcut (fun _ => h.bestQep_mem hrule) hnew, nofun,
        fun _ => hrule.accept h hnew haccepts hfound⟩

/-- The loop ends behind the last queue instance, or at one that cannot be improved. -/
theorem BestRule.loop (hrule : BestRule a s₀ Best) :
    SearchInv a s₀ Best a.queues (visitQueueList a (.init s₀) a.queues) ∨
      ∃ pre q post s s', a.queues = pre ++ q :: post ∧ SearchInv a s₀ Best pre s ∧
        Accepts a s₀ s q s' ∧ foundQueue a q (a.violations q) = true ∧
        visitQueueList a (.init s₀) a.queues = (acceptTags a s' q).untagBest := by
  have hstep (pre : List SequentialQueue) (q : SequentialQueue) (post : List SequentialQueue)
      (s : SequentialState) (hall : a.queues = pre ++ q :: post) (h : SearchInv a s₀ Best pre s)
      (hgoes : (visitQueue a s q).2 = false) :
      SearchInv a s₀ Best (pre ++ [q]) (visitQueue a s q).1 := h.step hrule hall hgoes
  rcases visitQueueList_cases hstep (List.nil_append a.queues).symm (.init Best) with
    hend | ⟨pre, q, post, s, hall, h, hleft, heq⟩
  · exact Or.inl hend
  · refine Or.inr ⟨pre, q, post, s, ?_⟩
    rcases visitQueue_cases q h.searched.skip with
      ⟨-, hgoes, -, -⟩ | ⟨⟨hsuits, hcut⟩, s', hsame, hskip, hviolations, hvisit⟩
    · exact absurd (hgoes.symm.trans hleft) Bool.false_ne_true
    · rw [hvisit] at hleft heq
      cases hfound : foundQueue a q (a.violations q) with
      | false =>
        rw [acceptQueue_of_not_found hviolations hfound] at hleft
        nomatch hleft
      | true =>
        rw [acceptQueue_of_found hviolations hfound] at heq
        exact ⟨s', hall, h, ⟨hsuits, hcut, hsame, hviolations⟩, rfl, heq⟩

end Loop

/-! ## One tagged queue instance -/

section OnlyTagged

variable {pre : List SequentialQueue} {s s' : SequentialState} {q b : SequentialQueue}

theorem ne_of_notMem (hnew : q.qname ∉ pre.map (·.qname)) {x : SequentialQueue} (hx : x ∈ pre) :
    x.qname ≠ q.qname :=
  fun heq => hnew (heq ▸ List.mem_map_of_mem hx)

theorem OnlyTagged.pass (h : OnlyTagged a s₀ pre s b) (hnew : q.qname ∉ pre.map (·.qname))
    (hsame : SameBest (s.setTag q.qname 0) s' q.qname) : OnlyTagged a s₀ (pre ++ [q]) s' b where
  mem := List.mem_append_left _ h.mem
  suits := h.suits
  tag := by
    refine List.forall_mem_append.mpr ⟨fun x hx => ?_, List.forall_mem_singleton.mpr ?_⟩
    · rw [hsame.tag, setTag_tag, if_neg (ne_of_notMem hnew hx)]
      exact h.tag x hx
    · rw [hsame.tag, setTag_tag, if_pos rfl]
      exact ⟨nofun, fun heq => absurd heq.symm (ne_of_notMem hnew h.mem)⟩
  availableAt := fun hres => by
    rw [hsame.availableAt, setTag_availableAt]
    exact h.availableAt hres
  softViolation := by
    rw [hsame.softViolation _ (ne_of_notMem hnew h.mem), setTag_softViolation]
    exact h.softViolation
  bestQep := hsame.bestQep.trans h.bestQep
  bestQepTt := fun hres => hsame.bestQepTt.trans (h.bestQepTt hres)
  bestQepViolations := hsame.bestQepViolations.trans h.bestQepViolations

theorem Accepts.bestQep_ne (haccepts : Accepts a s₀ s q s') (hnew : q.qname ∉ pre.map (·.qname))
    (hbest : ∀ name, s.bestQep = some name → name ∈ pre.map (·.qname)) :
    s'.bestQep ≠ some q.qname :=
  fun heq => hnew (hbest _ (haccepts.same.bestQep.symm.trans heq))

theorem OnlyTagged.keep (h : OnlyTagged a s₀ pre s b) (hnew : q.qname ∉ pre.map (·.qname))
    (haccepts : Accepts a s₀ s q s') (hsoft : a.isSoft = true) (hstop : ¬ beats a s' q) :
    OnlyTagged a s₀ (pre ++ [q]) (accepted a s' q) b := by
  have hpass : OnlyTagged a s₀ (pre ++ [q]) s' b := h.pass hnew haccepts.same
  have hbne : b.qname ≠ q.qname := ne_of_notMem hnew h.mem
  have hne : s'.bestQep ≠ some q.qname := fun heq =>
    hbne (Option.some.inj (hpass.bestQep.symm.trans heq))
  have hstops : ¬ (a.isSoft = true ∧ beats a s' q) := fun hall => hstop hall.2
  obtain ⟨hbest, hbestViolations, hbestTt⟩ := accepted_best (a := a) s' q
  rw [if_neg hstops] at hbest hbestViolations hbestTt
  refine ⟨hpass.mem, h.suits, fun x hx => ?_, fun hres => ?_, ?_, hbest.trans hpass.bestQep,
    fun hres => (hbestTt hres).trans (hpass.bestQepTt hres),
    hbestViolations.trans hpass.bestQepViolations⟩
  · rw [accepted_tag hne]
    by_cases hname : x.qname = q.qname
    · rw [if_pos hname, if_pos ⟨hsoft, hstop⟩, hname]
      exact ⟨nofun, fun heq => absurd heq.symm hbne⟩
    · rw [if_neg hname, if_neg fun hall => hstop hall.2.1]
      exact hpass.tag x hx
  · rw [accepted_availableAt_of_ne _ hbne]
    exact hpass.availableAt hres
  · rw [accepted_softViolation]
    exact hpass.softViolation

theorem OnlyTagged.new (htags : ∀ x ∈ pre, (s.tags x.qname).tag ≠ 0 → s.bestQep = some x.qname)
    (hbest : ∀ name, s.bestQep = some name → name ∈ pre.map (·.qname))
    (hnew : q.qname ∉ pre.map (·.qname)) (haccepts : Accepts a s₀ s q s')
    (hsoft : a.isSoft = true) (hbeats : beats a s' q) :
    OnlyTagged a s₀ (pre ++ [q]) (accepted a s' q) q := by
  have hne : s'.bestQep ≠ some q.qname := haccepts.bestQep_ne hnew hbest
  obtain ⟨hqep, hviolations, htt⟩ := accepted_best (a := a) s' q
  rw [if_pos ⟨hsoft, hbeats⟩] at hqep hviolations htt
  refine ⟨List.mem_append_right _ (.head _), haccepts.suits, ?_, fun hres => ?_, ?_,
    hqep, htt, hviolations⟩
  · refine List.forall_mem_append.mpr ⟨fun x hx => ?_, List.forall_mem_singleton.mpr ?_⟩
    · have hname : x.qname ≠ q.qname := ne_of_notMem hnew hx
      rw [accepted_tag hne, if_neg hname, haccepts.same.bestQep, haccepts.same.tag, setTag_tag,
        if_neg hname]
      refine iff_of_false (not_not_intro ?_) hname
      split
      next => rfl
      next hnot =>
        by_contra htag
        exact hnot ⟨hsoft, hbeats, htags x hx htag⟩
    · rw [accepted_tag hne, if_pos rfl, if_neg fun hall => hall.2 hbeats]
      exact iff_of_true Nat.one_ne_zero rfl
  · rw [accepted_availableAt hres, if_pos rfl]
  · rw [accepted_softViolation]
    exact haccepts.softViolation

theorem Fresh.tags_eq (h : Fresh a s₀ pre s) :
    ∀ x ∈ pre, (s.tags x.qname).tag ≠ 0 → s.bestQep = some x.qname :=
  fun x hx htag => absurd (h.tag x hx) htag

theorem OnlyTagged.tags_eq (h : OnlyTagged a s₀ pre s b) :
    ∀ x ∈ pre, (s.tags x.qname).tag ≠ 0 → s.bestQep = some x.qname :=
  fun x hx htag => by rw [h.bestQep, (h.tag x hx).mp htag]

theorem OnlyTagged.bestQep_mem (h : OnlyTagged a s₀ pre s b) {name : String}
    (hbest : s.bestQep = some name) : name ∈ pre.map (·.qname) := by
  rw [← Option.some.inj (h.bestQep.symm.trans hbest)]
  exact List.mem_map_of_mem h.mem

end OnlyTagged

/-! ## An assignment now -/

/-- The best queue instance so far has the fewest violations. -/
def BestNow (a : SequentialAssignment) (s₀ : SequentialStart) (pre : List SequentialQueue)
    (s : SequentialState) : Prop :=
  a.isSoft = true ∧ ∃ b, OnlyTagged a s₀ pre s b ∧ s.violationsBest = a.violations b ∧
    ∀ q ∈ pre, Suitable a s₀ q → a.violations b ≤ a.violations q

theorem violations_le_of_cut
    (hnow : a.isReservation = false) (hq : q ∈ a.queues) (hcut : Cut a s q) :
    s.violationsBest ≤ a.violations q := by
  have hhost : (a.hostTime q.host).violations ≤ a.violations q := a.queue_violations q hq
  simp only [Cut, SequentialState.cuts, isNotBetter, hnow, Bool.and_eq_true, Bool.false_and,
    Bool.false_or, Bool.not_false, Bool.true_and, decide_eq_true_eq] at hcut
  rcases hcut with ⟨-, hle⟩ | ⟨-, hle⟩ | ⟨-, hle⟩
  · exact hle.trans (Nat.zero_le _)
  · exact hle.trans hhost
  · exact hle

/-- Every suitable queue instance seen so far is left behind by the new one. -/
theorem BestNow.rule (hnow : a.isReservation = false) : BestRule a s₀ (BestNow a s₀) where
  mem := fun ⟨_, _, honly, _⟩ hbest => honly.bestQep_mem hbest
  pass := fun {pre s q s'} _ hq hnew _ ⟨hsoft, b, honly, hviolations, hle⟩ hstop hsame => by
    refine ⟨hsoft, b, honly.pass hnew hsame, hsame.violationsBest.trans hviolations, ?_⟩
    refine List.forall_mem_append.mpr ⟨hle, List.forall_mem_singleton.mpr fun hsuits => ?_⟩
    have hcut : Cut a s q := by
      by_contra hcut
      exact hstop ⟨hsuits, hcut⟩
    rw [← hviolations]
    exact violations_le_of_cut hnow hq hcut
  accept := fun {pre s q s'} h hnew haccepts hfound => by
    have hsoft : a.isSoft = true := by
      cases hsoft : a.isSoft with
      | true => rfl
      | false => simp [foundQueue, hnow, hsoft] at hfound
    have hbeats_iff : beats a s' q ↔ a.violations q < s.bestQepViolations := by
      rw [← show s'.bestQepViolations = s.bestQepViolations from haccepts.same.bestQepViolations]
      simp [beats, hnow]
    cases hgot : s.gotSolution with
    | false =>
      have hfresh := h.none hgot
      have hbeats : beats a s' q := by
        rw [hbeats_iff, hfresh.bestQepViolations]
        exact (a.violations_lt q.qname).trans (by decide)
      refine ⟨hsoft, q, .new hfresh.tags_eq ?_ hnew haccepts hsoft hbeats, rfl, ?_⟩
      · simp [hfresh.bestQep]
      · exact List.forall_mem_append.mpr ⟨fun x hx hsuits =>
          absurd hsuits (hfresh.unsuitable x hx), List.forall_mem_singleton.mpr fun _ => le_rfl⟩
    | true =>
      obtain ⟨-, b, honly, hviolations, hle⟩ := h.some hgot
      have hlt := (not_cut h.searched hgot haccepts.not_cut).2 hnow
      have hbeats : beats a s' q := by
        rw [hbeats_iff, honly.bestQepViolations, ← hviolations]
        exact hlt
      refine ⟨hsoft, q, .new honly.tags_eq (fun _ => honly.bestQep_mem) hnew haccepts hsoft
        hbeats, rfl, ?_⟩
      refine List.forall_mem_append.mpr ⟨fun x hx hsuits => ?_,
        List.forall_mem_singleton.mpr fun _ => le_rfl⟩
      rw [hviolations] at hlt
      exact hlt.le.trans (hle x hx hsuits)

/-! ## A reservation without soft requests -/

def SequentialAssignment.queueStart (a : SequentialAssignment) (q : SequentialQueue) : ℕ :=
  max (a.queueTime q.qname).time (a.hostTime q.host).time

theorem start_eq (q : SequentialQueue) : a.start q = max (a.queueStart q) a.globalTime.time := by
  rw [SequentialAssignment.start, SequentialAssignment.queueStart, max_assoc]

/-- The accepted queue instances stay tagged, and the last one is the earliest. -/
structure BestHard (a : SequentialAssignment) (s₀ : SequentialStart)
    (pre : List SequentialQueue) (s : SequentialState) : Prop where
  bestQep : s.bestQep = none
  tagged : ∀ q ∈ pre, (s.tags q.qname).tag ≠ 0 →
    Suitable a s₀ q ∧ (s.tags q.qname).availableAt = a.start q
  earliest : ∀ q ∈ pre, Suitable a s₀ q → s.ttBest ≤ a.queueStart q
  reached : ∃ q ∈ pre, (s.tags q.qname).tag ≠ 0 ∧ a.start q = s.ttBest
  global_lt : a.globalTime.time < s.ttBest

variable (hres : a.isReservation = true)
include hres

theorem ttBest_le_of_cut (hcut : Cut a s q) :
    s.ttBest = 0 ∨ s.ttBest ≤ (a.hostTime q.host).time ∨ s.ttBest ≤ (a.queueTime q.qname).time := by
  simp only [Cut, SequentialState.cuts, isNotBetter, hres, Bool.and_eq_true, Bool.true_and,
    Bool.not_true, Bool.false_and, Bool.or_false, decide_eq_true_eq, Nat.le_zero_eq] at hcut
  exact hcut.imp And.right (Or.imp And.right And.right)

theorem ttBest_le_queueStart (hcut : Cut a s q) : s.ttBest ≤ a.queueStart q := by
  rcases ttBest_le_of_cut hres hcut with hzero | hhost | hqueue
  · rw [hzero]
    exact Nat.zero_le _
  · exact le_max_of_le_right hhost
  · exact le_max_of_le_left hqueue

/-- A queue instance ends the loop when only the global layer delays it. -/
theorem foundQueue_hard (hhard : a.isSoft = false) (q : SequentialQueue) (violations : ℕ) :
    foundQueue a q violations = decide (a.queueStart q ≤ a.globalTime.time) := by
  rw [foundQueue, if_pos hres, hhard, Bool.not_false, Bool.and_true]
  rfl

theorem BestHard.rule (hhard : a.isSoft = false) : BestRule a s₀ (BestHard a s₀) where
  mem := fun hbest heq => nomatch hbest.bestQep.symm.trans heq
  pass := fun {pre s q s'} _ hq hnew _ hbest hstop hsame => by
    have htt : s'.ttBest = s.ttBest := hsame.ttBest
    have htag (x : SequentialQueue) (hx : x ∈ pre) :
        (s'.tags x.qname).tag = (s.tags x.qname).tag := by
      rw [hsame.tag, setTag_tag, if_neg (ne_of_notMem hnew hx)]
    refine ⟨hsame.bestQep.trans hbest.bestQep, ?_, ?_, ?_, htt ▸ hbest.global_lt⟩
    · refine List.forall_mem_append.mpr ⟨fun x hx => ?_, List.forall_mem_singleton.mpr ?_⟩
      · rw [htag x hx, hsame.availableAt, setTag_availableAt]
        exact hbest.tagged x hx
      · rw [hsame.tag, setTag_tag, if_pos rfl]
        exact nofun
    · refine List.forall_mem_append.mpr
        ⟨htt ▸ hbest.earliest, List.forall_mem_singleton.mpr fun hsuits => ?_⟩
      have hcut : Cut a s q := by
        by_contra hcut
        exact hstop ⟨hsuits, hcut⟩
      exact htt ▸ ttBest_le_queueStart hres hcut
    · obtain ⟨b, hb, htagged, hstart⟩ := hbest.reached
      exact ⟨b, List.mem_append_left _ hb, by rwa [htag b hb], hstart.trans htt.symm⟩
  accept := fun {pre s q s'} h hnew haccepts hfound => by
    have hsoft : ¬ a.isSoft = true := Bool.eq_false_iff.mp hhard
    have hglobal : a.globalTime.time < a.queueStart q := by
      rw [foundQueue_hard hres hhard] at hfound
      exact not_le.mp (of_decide_eq_false hfound)
    have hstart : a.start q = a.queueStart q := by
      rw [start_eq]
      exact max_eq_left hglobal.le
    have htt : (accepted a s' q).ttBest = a.queueStart q := (if_pos hres).trans hstart
    have hqep : (accepted a s' q).bestQep = s'.bestQep := by
      rw [(accepted_best s' q).1, if_neg fun hall => hsoft hall.1]
    have hnone : s.bestQep = none := by
      cases hgot : s.gotSolution with
      | false => exact (h.none hgot).bestQep
      | true => exact (h.some hgot).bestQep
    have hnone' : s'.bestQep = none := haccepts.same.bestQep.trans hnone
    have hne : s'.bestQep ≠ some q.qname := by
      rw [hnone']
      exact nofun
    have hlast : ((accepted a s' q).tags q.qname).tag = 1 := by
      rw [accepted_tag hne, if_pos rfl, if_neg fun hall => hsoft hall.1]
    have hold (x : SequentialQueue) (hx : x ∈ pre) :
        ((accepted a s' q).tags x.qname).tag = (s.tags x.qname).tag := by
      have hname := ne_of_notMem hnew hx
      rw [accepted_tag hne, if_neg hname, if_neg fun hall => hsoft hall.1, haccepts.same.tag,
        setTag_tag, if_neg hname]
    refine ⟨hqep.trans hnone', ?_, ?_, ?_, htt ▸ hglobal⟩
    · refine List.forall_mem_append.mpr ⟨fun x hx htag => ?_,
        List.forall_mem_singleton.mpr fun _ => ⟨haccepts.suits, ?_⟩⟩
      · rw [hold x hx] at htag
        rw [accepted_availableAt_of_ne _ (ne_of_notMem hnew hx), haccepts.same.availableAt,
          setTag_availableAt]
        cases hgot : s.gotSolution with
        | false => exact absurd ((h.none hgot).tag x hx) htag
        | true => exact (h.some hgot).tagged x hx htag
      · rw [accepted_availableAt hres, if_pos rfl]
    · refine List.forall_mem_append.mpr ⟨fun x hx hsuits => ?_,
        List.forall_mem_singleton.mpr fun _ => htt.le⟩
      cases hgot : s.gotSolution with
      | false => exact absurd hsuits ((h.none hgot).unsuitable x hx)
      | true =>
        obtain ⟨-, hhost, hqueue, -⟩ := (not_cut h.searched hgot haccepts.not_cut).1 hres
        have hearlier : a.queueStart q ≤ s.ttBest := (max_lt hqueue hhost).le
        rw [htt]
        exact hearlier.trans ((h.some hgot).earliest x hx hsuits)
    · refine ⟨q, List.mem_append_right _ (.head _), ?_, hstart.trans htt.symm⟩
      rw [hlast]
      exact Nat.one_ne_zero

omit hres

/-! ## A reservation with soft requests -/

structure FirstEarliest (a : SequentialAssignment) (s₀ : SequentialStart)
    (before after : List SequentialQueue) (first : SequentialQueue) : Prop where
  suits : Suitable a s₀ first
  before_lt : ∀ q ∈ before, Suitable a s₀ q → a.start first < a.start q
  after_le : ∀ q ∈ after, Suitable a s₀ q → a.start first ≤ a.start q

variable {first : SequentialQueue}

theorem FirstEarliest.start_le {before after queues : List SequentialQueue}
    (h : FirstEarliest a s₀ before after first) (hall : queues = before ++ first :: after)
    {x : SequentialQueue} (hx : x ∈ queues) (hsuits : Suitable a s₀ x) :
    a.start first ≤ a.start x := by
  rw [hall] at hx
  rcases List.mem_append.mp hx with hx | hx
  · exact (h.before_lt x hx hsuits).le
  · rcases List.mem_cons.mp hx with rfl | hx
    · exact le_rfl
    · exact h.after_le x hx hsuits

/-- The earliest queue instances whose violations are compared: the first one, and those that
wait for the global layer only. -/
def Compared (a : SequentialAssignment) (s₀ : SequentialStart) (first q : SequentialQueue) :
    Prop :=
  q = first ∨ (Suitable a s₀ q ∧ a.start q = a.start first ∧ a.queueStart q < a.start first)

/-- The best queue instance so far has the fewest violations of those that are compared. -/
def BestSoft (a : SequentialAssignment) (s₀ : SequentialStart) (pre : List SequentialQueue)
    (s : SequentialState) : Prop :=
  ∃ before first after b, pre = before ++ first :: after ∧
    FirstEarliest a s₀ before after first ∧ OnlyTagged a s₀ pre s b ∧ Compared a s₀ first b ∧
    s.ttBest = a.start first ∧ ∀ q ∈ pre, Compared a s₀ first q → a.violations b ≤ a.violations q

/-- The best queue instance so far is among the earliest. -/
theorem Compared.start_eq (h : Compared a s₀ first q) : a.start q = a.start first :=
  h.elim (congrArg a.start) fun hother => hother.2.1

theorem BestSoft.rule (hres : a.isReservation = true) (hsoft : a.isSoft = true) :
    BestRule a s₀ (BestSoft a s₀) where
  mem := fun ⟨_, _, _, _, _, _, honly, _⟩ hbest => honly.bestQep_mem hbest
  pass := fun {pre s q s'} _ hq hnew _ hbest hstop hsame => by
    obtain ⟨before, first, after, b, rfl, hfirst, honly, hcompared, htt, hle⟩ := hbest
    have hlate : Suitable a s₀ q → a.start first ≤ a.queueStart q := fun hsuits => by
      have hcut : Cut a s q := by
        by_contra hcut
        exact hstop ⟨hsuits, hcut⟩
      exact htt ▸ ttBest_le_queueStart hres hcut
    refine ⟨before, first, after ++ [q], b, by simp, ?_, honly.pass hnew hsame, hcompared,
      hsame.ttBest.trans htt, ?_⟩
    · refine ⟨hfirst.suits, hfirst.before_lt, List.forall_mem_append.mpr
        ⟨hfirst.after_le, List.forall_mem_singleton.mpr fun hsuits => ?_⟩⟩
      rw [Sched.start_eq q]
      exact le_max_of_le_left (hlate hsuits)
    · refine List.forall_mem_append.mpr ⟨hle, List.forall_mem_singleton.mpr fun hother => ?_⟩
      rcases hother with rfl | ⟨hsuits, -, hearly⟩
      · exact absurd (List.mem_map_of_mem (by simp)) hnew
      · exact absurd (hlate hsuits) hearly.not_ge
  accept := fun {pre s q s'} h hnew haccepts hfound => by
    have hbeats_iff : beats a s' q ↔ a.start q < s.bestQepTt ∨
        (a.start q = s.bestQepTt ∧ a.violations q < s.bestQepViolations) := by
      rw [beats, if_pos hres, haccepts.same.bestQepTt, haccepts.same.bestQepViolations]
      rfl
    have htt : (accepted a s' q).ttBest = a.start q := if_pos hres
    -- a queue instance earlier than all before it is the first of the earliest, and compared alone
    have hfirst (hbeats : beats a s' q) (hlt : ∀ x ∈ pre, Suitable a s₀ x → a.start q < a.start x)
        (htags : ∀ x ∈ pre, (s.tags x.qname).tag ≠ 0 → s.bestQep = some x.qname)
        (hbest : ∀ name, s.bestQep = some name → name ∈ pre.map (·.qname)) :
        BestSoft a s₀ (pre ++ [q]) (accepted a s' q) := by
      refine ⟨pre, q, [], q, rfl, ⟨haccepts.suits, hlt, nofun⟩,
        .new htags hbest hnew haccepts hsoft hbeats, Or.inl rfl, htt, ?_⟩
      refine List.forall_mem_append.mpr ⟨fun x hx hother => ?_,
        List.forall_mem_singleton.mpr fun _ => le_rfl⟩
      rcases hother with rfl | ⟨hsuits, hstart, -⟩
      · exact le_rfl
      · exact absurd hstart (hlt x hx hsuits).ne'
    cases hgot : s.gotSolution with
    | false =>
      have hfresh := h.none hgot
      refine hfirst ?_ (fun x hx hsuits => absurd hsuits (hfresh.unsuitable x hx))
        hfresh.tags_eq (by simp [hfresh.bestQep])
      rw [hbeats_iff, hfresh.bestQepTt, hfresh.bestQepViolations]
      have hmax : a.start q ≤ uint64Max :=
        max_le (a.queue_le _) (max_le (a.host_le _) a.global_le)
      rcases hmax.lt_or_eq with hlt | heq
      · exact Or.inl hlt
      · exact Or.inr ⟨heq, (a.violations_lt q.qname).trans (by decide)⟩
    | true =>
      obtain ⟨before, first, after, b, rfl, hearliest, honly, hcompared, hbest, hle⟩ :=
        h.some hgot
      obtain ⟨hstart, hhost, hqueue, -⟩ := (not_cut h.searched hgot haccepts.not_cut).1 hres
      rw [hbest] at hstart hhost hqueue
      have hearly : a.queueStart q < a.start first := max_lt hqueue hhost
      have hqepTt : s.bestQepTt = a.start first :=
        (honly.bestQepTt hres).trans hcompared.start_eq
      rw [hqepTt, honly.bestQepViolations] at hbeats_iff
      rcases hstart.lt_or_eq with hlt | heq
      · exact hfirst (hbeats_iff.mpr (Or.inl hlt))
          (fun x hx hsuits => hlt.trans_le (hearliest.start_le rfl hx hsuits)) honly.tags_eq
          fun _ => honly.bestQep_mem
      · have hother : Compared a s₀ first q := Or.inr ⟨haccepts.suits, heq, hearly⟩
        have hearliest' : FirstEarliest a s₀ before (after ++ [q]) first :=
          ⟨hearliest.suits, hearliest.before_lt, List.forall_mem_append.mpr
            ⟨hearliest.after_le, List.forall_mem_singleton.mpr fun _ => heq.ge⟩⟩
        by_cases hbeats : beats a s' q
        · refine ⟨before, first, after ++ [q], q, by simp, hearliest',
            .new honly.tags_eq (fun _ => honly.bestQep_mem) hnew haccepts hsoft hbeats, hother,
            htt.trans heq, ?_⟩
          have hless : a.violations q < a.violations b :=
            (hbeats_iff.mp hbeats).elim (fun hlt => absurd heq hlt.ne) And.right
          exact List.forall_mem_append.mpr ⟨fun x hx hx' => hless.le.trans (hle x hx hx'),
            List.forall_mem_singleton.mpr fun _ => le_rfl⟩
        · refine ⟨before, first, after ++ [q], b, by simp, hearliest',
            honly.keep hnew haccepts hsoft hbeats, hcompared, htt.trans heq, ?_⟩
          refine List.forall_mem_append.mpr ⟨hle, List.forall_mem_singleton.mpr fun _ => ?_⟩
          by_contra hless
          exact hbeats (hbeats_iff.mpr (Or.inr ⟨heq, not_le.mp hless⟩))

end Best

end ClusterScheduler.Sched
