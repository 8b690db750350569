import ClusterScheduler.Sched.SequentialSearch

/-!
# One step of the search

What the search does with one queue instance, apart from skip lists and messages.

* `Suitable` — the job can run in the queue instance.
* `Cut` — the queue instance is left out for what is known of its layers.
* `SkipOk` — the skip lists hold what is unsuitable or cut.
* `visitQueue_cases` — a queue instance is passed over, or accepted.
-/

namespace ClusterScheduler.Sched

section Visit

variable (a : SequentialAssignment) (s₀ : SequentialStart)

/-- The job can run in the queue instance, at once or later. -/
structure Suitable (q : SequentialQueue) : Prop where
  cqueue_notMem : q.cqname ∉ s₀.skipCqueues
  host_notMem : q.host ∉ s₀.skipHosts
  cqueue : a.cqueueMatchStatic q.cqname = true
  known : a.hostKnown q.host = true
  notRejected : a.ehRejected q.host = false
  host : a.hostMatchStatic q.host = .ok
  queue : a.queueMatchStatic q.qname = true
  hostTime : (a.hostTime q.host).passes = true
  queueTime : (a.queueTime q.qname).result = .ok

/-- The queue instance is not better than the best one so far, by one of its layers. -/
def Cut (s : SequentialState) (q : SequentialQueue) : Prop :=
  s.cuts a 0 0 = true ∨
    s.cuts a (a.hostTime q.host).violations (a.hostTime q.host).time = true ∨
    s.cuts a (a.queueTime q.qname).violations (a.queueTime q.qname).time = true

/-- No queue instance of the host can be used, or is worth it. -/
def SkipHost (s : SequentialState) (host : String) : Prop :=
  host ∈ s₀.skipHosts ∨ a.ehRejected host = true ∨ a.hostMatchStatic host ≠ .ok ∨
    (a.hostTime host).passes = false ∨
    s.cuts a (a.hostTime host).violations (a.hostTime host).time = true

/-- The skip lists hold what cannot be used, and the result is that of a suitable queue
instance as soon as there is one. -/
structure SkipOk (s : SequentialState) : Prop where
  cqueues_sub : s₀.skipCqueues ⊆ s.skipCqueues
  hosts_sub : s₀.skipHosts ⊆ s.skipHosts
  cqueues : ∀ cqname ∈ s.skipCqueues,
    cqname ∈ s₀.skipCqueues ∨ a.cqueueMatchStatic cqname = false
  hosts : ∀ host ∈ s.skipHosts, SkipHost a s₀ s host
  clearCqueues : ∀ cqname ∈ s.unclearCqueues, a.cqueueMatchStatic cqname = true
  clearHosts : ∀ host ∈ s.unclearHosts,
    a.ehRejected host = false ∧ a.hostMatchStatic host = .ok
  result : s.gotSolution = true → s.bestQueueResult = .ok

/-- The part of the state that tags and compares queue instances. -/
structure SameBest (s s' : SequentialState) (qname : String) : Prop where
  tag : ∀ name, (s'.tags name).tag = (s.tags name).tag
  availableAt : ∀ name, (s'.tags name).availableAt = (s.tags name).availableAt
  softViolation : ∀ name, name ≠ qname →
    (s'.tags name).softViolation = (s.tags name).softViolation
  gotSolution : s'.gotSolution = s.gotSolution
  ttBest : s'.ttBest = s.ttBest
  violationsBest : s'.violationsBest = s.violationsBest
  bestQep : s'.bestQep = s.bestQep
  bestQepTt : s'.bestQepTt = s.bestQepTt
  bestQepViolations : s'.bestQepViolations = s.bestQepViolations

variable {a s₀}

variable {s : SequentialState} {qname : String}

theorem SameBest.same {cqueues hosts clear clear' result} :
    SameBest s { s with
      skipCqueues := cqueues
      skipHosts := hosts
      unclearCqueues := clear
      unclearHosts := clear'
      bestQueueResult := result } qname :=
  ⟨fun _ => rfl, fun _ => rfl, fun _ _ => rfl, rfl, rfl, rfl, rfl, rfl, rfl⟩

theorem SameBest.trans {s' s'' : SequentialState} (h : SameBest s s' qname)
    (h' : SameBest s' s'' qname) : SameBest s s'' qname where
  tag := fun name => (h'.tag name).trans (h.tag name)
  availableAt := fun name => (h'.availableAt name).trans (h.availableAt name)
  softViolation := fun name hne => (h'.softViolation name hne).trans (h.softViolation name hne)
  gotSolution := h'.gotSolution.trans h.gotSolution
  ttBest := h'.ttBest.trans h.ttBest
  violationsBest := h'.violationsBest.trans h.violationsBest
  bestQep := h'.bestQep.trans h.bestQep
  bestQepTt := h'.bestQepTt.trans h.bestQepTt
  bestQepViolations := h'.bestQepViolations.trans h.bestQepViolations

theorem SameBest.cuts {s' : SequentialState} (h : SameBest s s' qname)
    (violations time : ℕ) : s'.cuts a violations time = s.cuts a violations time := by
  rw [SequentialState.cuts, SequentialState.cuts, h.gotSolution, h.violationsBest, h.ttBest]

/-- A step that passes a queue instance over, or goes on with it. -/
inductive StepOk (a : SequentialAssignment) (s₀ : SequentialStart) (s : SequentialState)
    (q : SequentialQueue) (goes : Prop) :
    Except SequentialState SequentialState → Prop
  | passed {s'} (hsame : SameBest s s' q.qname) (hskip : SkipOk a s₀ s') (hstop : ¬ goes) :
      StepOk a s₀ s q goes (.error s')
  | goesOn {s'} (hsame : SameBest s s' q.qname) (hskip : SkipOk a s₀ s') (hgoes : goes) :
      StepOk a s₀ s q goes (.ok s')

variable {r : Dispatch}

theorem findBestResult_ok (h : r ≠ .never) : findBestResult r .ok = .ok := by
  simp [findBestResult, h]

/-- A result that is no error does not hide a suitable queue instance. -/
theorem SkipOk.addResult (h : SkipOk a s₀ s) (hr : r ≠ .never) : SkipOk a s₀ (s.addResult r) :=
  { h with
    result := fun hgot => by
      have hok := h.result hgot
      simp only [SequentialState.addResult, hok]
      exact findBestResult_ok hr }

theorem SkipOk.skipHost (h : SkipOk a s₀ s) {host : String}
    (hhost : SkipHost a s₀ s host) : SkipOk a s₀ { s with skipHosts := host :: s.skipHosts } :=
  { h with
    hosts_sub := fun _ hmem => .tail _ (h.hosts_sub hmem)
    hosts := List.forall_mem_cons.mpr ⟨hhost, h.hosts⟩ }

theorem SkipOk.of_same {s' : SequentialState} (h : SkipOk a s₀ s) (hsame : SameBest s s' qname)
    (hcqueues : s'.skipCqueues = s.skipCqueues) (hhosts : s'.skipHosts = s.skipHosts)
    (hclear : s'.unclearCqueues = s.unclearCqueues) (hclear' : s'.unclearHosts = s.unclearHosts)
    (hresult : s'.bestQueueResult = s.bestQueueResult) : SkipOk a s₀ s' where
  cqueues_sub := hcqueues ▸ h.cqueues_sub
  hosts_sub := hhosts ▸ h.hosts_sub
  cqueues := hcqueues ▸ h.cqueues
  hosts := fun host hmem => by
    rw [SkipHost, hsame.cuts]
    exact h.hosts host (hhosts ▸ hmem)
  clearCqueues := hclear ▸ h.clearCqueues
  clearHosts := hclear' ▸ h.clearHosts
  result := fun hgot => hresult.trans (h.result (hsame.gotSolution ▸ hgot))

/-! ## The steps -/

variable {q : SequentialQueue}

variable {goes goes' : Prop} {f : SequentialState → Except SequentialState SequentialState}

theorem StepOk.bind {r : Except SequentialState SequentialState} (h : StepOk a s₀ s q goes r)
    (hf : ∀ s', SameBest s s' q.qname → SkipOk a s₀ s' → StepOk a s₀ s' q goes' (f s')) :
    StepOk a s₀ s q (goes ∧ goes') (r >>= f) := by
  cases h with
  | passed hsame hskip hstop => exact .passed hsame hskip fun hall => hstop hall.1
  | @goesOn s' hsame hskip hgoes =>
    have hnext := hf s' hsame hskip
    change StepOk a s₀ s q (goes ∧ goes') (f s')
    generalize f s' = next at hnext ⊢
    cases hnext with
    | passed hsame' hskip' hstop =>
      exact .passed (hsame.trans hsame') hskip' fun hall => hstop hall.2
    | goesOn hsame' hskip' hgoes' => exact .goesOn (hsame.trans hsame') hskip' ⟨hgoes, hgoes'⟩

section Steps

variable {s : SequentialState} (q : SequentialQueue)

variable (h : SkipOk a s₀ s)
include h

theorem foreclose_ok :
    StepOk a s₀ s q (q.cqname ∉ s.skipCqueues ∧ q.host ∉ s.skipHosts ∧ s.cuts a 0 0 = false)
      (foreclose a s q) := by
  unfold foreclose
  split
  next hstop =>
    refine .passed .same h fun hgoes => ?_
    rcases hstop with hcqueue | hhost | hcut
    · exact hgoes.1 hcqueue
    · exact hgoes.2.1 hhost
    · exact Bool.false_ne_true (hgoes.2.2.symm.trans hcut)
  next hgoes =>
    simp only [not_or, Bool.not_eq_true] at hgoes
    exact .goesOn .same h hgoes

theorem matchCqueue_ok :
    StepOk a s₀ s q (a.cqueueMatchStatic q.cqname = true) (matchCqueue a s q) := by
  unfold matchCqueue
  split
  next hclear => exact .goesOn .same h (h.clearCqueues _ hclear)
  next =>
    split
    next hmatch =>
      exact .goesOn .same
        { h with clearCqueues := List.forall_mem_cons.mpr ⟨hmatch, h.clearCqueues⟩ } hmatch
    next hmatch =>
      have hskip : SkipOk a s₀ { s with skipCqueues := q.cqname :: s.skipCqueues } :=
        { h with
          cqueues_sub := fun _ hmem => .tail _ (h.cqueues_sub hmem)
          cqueues := List.forall_mem_cons.mpr
            ⟨Or.inr (Bool.eq_false_iff.mpr hmatch), h.cqueues⟩ }
      exact .passed .same (hskip.addResult nofun) hmatch

theorem matchHost_ok :
    StepOk a s₀ s q (a.hostKnown q.host = true ∧ a.ehRejected q.host = false ∧
      a.hostMatchStatic q.host = .ok) (matchHost a s q) := by
  unfold matchHost
  split
  next hknown =>
    exact .passed .same h fun hgoes => Bool.false_ne_true (hknown.symm.trans hgoes.1)
  next hknown =>
    have hknown : a.hostKnown q.host = true := by simpa using hknown
    split
    next hclear => exact .goesOn .same h ⟨hknown, h.clearHosts _ hclear⟩
    next =>
      split
      next hrejected =>
        refine .passed .same ((h.skipHost (Or.inr (Or.inl hrejected))).addResult nofun)
          fun hgoes => Bool.false_ne_true (hgoes.2.1.symm.trans hrejected)
      next hrejected =>
        split
        next hmatch =>
          exact .passed .same
            ((h.skipHost (Or.inr (Or.inr (Or.inl hmatch)))).addResult (a.hostMatch_ne _))
            fun hgoes => hmatch hgoes.2.2
        next hmatch =>
          have hok : a.ehRejected q.host = false ∧ a.hostMatchStatic q.host = .ok :=
            ⟨by simpa using hrejected, not_not.mp hmatch⟩
          exact .goesOn .same
            { h with clearHosts := List.forall_mem_cons.mpr ⟨hok, h.clearHosts⟩ } ⟨hknown, hok⟩

theorem matchQueue_ok : StepOk a s₀ s q (a.queueMatchStatic q.qname = true) (matchQueue a s q) := by
  unfold matchQueue
  split
  next hmatch => exact .goesOn .same h hmatch
  next hmatch => exact .passed .same (h.addResult nofun) hmatch

theorem matchHostTime_ok :
    StepOk a s₀ s q ((a.hostTime q.host).passes = true ∧
      s.cuts a (a.hostTime q.host).violations (a.hostTime q.host).time = false)
      (matchHostTime a s q) := by
  unfold matchHostTime
  dsimp only
  split
  next hpasses =>
    exact .passed .same
      ((h.skipHost (Or.inr (Or.inr (Or.inr (Or.inl hpasses))))).addResult (a.host_ne _))
      fun hgoes => Bool.false_ne_true (hpasses.symm.trans hgoes.1)
  next hpasses =>
    split
    next hcut =>
      exact .passed .same (h.skipHost (Or.inr (Or.inr (Or.inr (Or.inr hcut)))))
        fun hgoes => Bool.false_ne_true (hgoes.2.symm.trans hcut)
    next hcut => exact .goesOn .same h ⟨by simpa using hpasses, by simpa using hcut⟩

theorem matchQueueTime_ok :
    StepOk a s₀ s q ((a.queueTime q.qname).result = .ok ∧
      s.cuts a (a.queueTime q.qname).violations (a.queueTime q.qname).time = false)
      (matchQueueTime a s q) := by
  have hsame : SameBest s
      { s with
        tags := Function.update s.tags q.qname
          { s.tags q.qname with softViolation := (a.queueTime q.qname).violations } }
      q.qname := by
    refine ⟨fun name => ?_, fun name => ?_, fun name hne => ?_, rfl, rfl, rfl, rfl, rfl, rfl⟩
    · by_cases hname : name = q.qname
      · subst hname
        simp
      · simp [hname]
    · by_cases hname : name = q.qname
      · subst hname
        simp
      · simp [hname]
    · simp [hne]
  have hskip := h.of_same hsame rfl rfl rfl rfl rfl
  unfold matchQueueTime
  dsimp only
  split
  next hresult =>
    exact .passed .same (h.addResult (a.queue_ne _)) fun hgoes => hresult hgoes.1
  next hresult =>
    split
    next hcut =>
      refine .passed hsame hskip fun hgoes => ?_
      rw [hsame.cuts] at hcut
      exact Bool.false_ne_true (hgoes.2.symm.trans hcut)
    next hcut =>
      refine .goesOn hsame hskip ⟨not_not.mp hresult, ?_⟩
      rw [hsame.cuts] at hcut
      simpa using hcut

omit h

theorem matchQueueTime_softViolation {s' : SequentialState} (h : matchQueueTime a s q = .ok s') :
    (s'.tags q.qname).softViolation = (a.queueTime q.qname).violations := by
  unfold matchQueueTime at h
  dsimp only at h
  split at h
  next => nomatch h
  next =>
    split at h
    next => nomatch h
    next =>
      obtain rfl := Except.ok.inj h
      simp

end Steps

theorem StepOk.congr {r : Except SequentialState SequentialState}
    (h : StepOk a s₀ s q goes r) (hiff : goes ↔ goes') : StepOk a s₀ s q goes' r := propext hiff ▸ h

theorem goes_iff (h : SkipOk a s₀ s) :
    ((q.cqname ∉ s.skipCqueues ∧ q.host ∉ s.skipHosts ∧ s.cuts a 0 0 = false) ∧
      a.cqueueMatchStatic q.cqname = true ∧
      (a.hostKnown q.host = true ∧ a.ehRejected q.host = false ∧ a.hostMatchStatic q.host = .ok) ∧
      a.queueMatchStatic q.qname = true ∧ ((a.hostTime q.host).passes = true ∧
        s.cuts a (a.hostTime q.host).violations (a.hostTime q.host).time = false) ∧
      (a.queueTime q.qname).result = .ok ∧
        s.cuts a (a.queueTime q.qname).violations (a.queueTime q.qname).time = false) ↔
    Suitable a s₀ q ∧ ¬ Cut a s q := by
  simp only [Cut, not_or, Bool.not_eq_true]
  constructor
  · rintro ⟨⟨hcq, hhost, hcut⟩, hcqueue, ⟨hknown, hrejected, hmatch⟩, hqueue, ⟨hpasses, hcuth⟩,
      hresult, hcutq⟩
    exact ⟨⟨fun hmem => hcq (h.cqueues_sub hmem), fun hmem => hhost (h.hosts_sub hmem), hcqueue,
      hknown, hrejected, hmatch, hqueue, hpasses, hresult⟩, hcut, hcuth, hcutq⟩
  · rintro ⟨hsuits, hcut, hcuth, hcutq⟩
    refine ⟨⟨fun hmem => ?_, fun hmem => ?_, hcut⟩, hsuits.cqueue,
      ⟨hsuits.known, hsuits.notRejected, hsuits.host⟩, hsuits.queue, ⟨hsuits.hostTime, hcuth⟩,
      hsuits.queueTime, hcutq⟩
    · rcases h.cqueues _ hmem with hold | hfails
      · exact hsuits.cqueue_notMem hold
      · exact Bool.false_ne_true (hfails.symm.trans hsuits.cqueue)
    · rcases h.hosts _ hmem with hold | hrejected | hmatch | hpasses | hcut'
      · exact hsuits.host_notMem hold
      · exact Bool.false_ne_true (hsuits.notRejected.symm.trans hrejected)
      · exact hmatch hsuits.host
      · exact Bool.false_ne_true (hpasses.symm.trans hsuits.hostTime)
      · exact Bool.false_ne_true (hcuth.symm.trans hcut')

theorem bind_ok {x : Except SequentialState SequentialState}
    (h : (x >>= f) = .ok s) : ∃ s', f s' = .ok s := by
  cases x with
  | error s' => nomatch h
  | ok s' => exact ⟨s', h⟩

/-- A queue instance is passed over, or all steps go on with it. -/
theorem matchSteps_ok (q : SequentialQueue) (h : SkipOk a s₀ s) :
    StepOk a s₀ (s.setTag q.qname 0) q (Suitable a s₀ q ∧ ¬ Cut a s q) (matchSteps a s q) ∧
    ∀ s', matchSteps a s q = .ok s' →
      (s'.tags q.qname).softViolation = (a.queueTime q.qname).violations := by
  have h₀ : SkipOk a s₀ (s.setTag q.qname 0) :=
    ⟨h.cqueues_sub, h.hosts_sub, h.cqueues, h.hosts, h.clearCqueues, h.clearHosts, h.result⟩
  constructor
  · have hcut (s' : SequentialState) (hsame : SameBest (s.setTag q.qname 0) s' q.qname)
        (violations time : ℕ) : s'.cuts a violations time = s.cuts a violations time :=
      hsame.cuts violations time
    refine StepOk.congr ?_ (goes_iff h)
    refine (foreclose_ok q h₀).bind fun s₁ hsame₁ h₁ => ?_
    refine (matchCqueue_ok q h₁).bind fun s₂ hsame₂ h₂ => ?_
    refine (matchHost_ok q h₂).bind fun s₃ hsame₃ h₃ => ?_
    refine (matchQueue_ok q h₃).bind fun s₄ hsame₄ h₄ => ?_
    have hsame := ((hsame₁.trans hsame₂).trans hsame₃).trans hsame₄
    refine ((matchHostTime_ok q h₄).congr ?_).bind fun s₅ hsame₅ h₅ => ?_
    · rw [hcut s₄ hsame]
    · refine (matchQueueTime_ok q h₅).congr ?_
      rw [hcut s₅ (hsame.trans hsame₅)]
  · intro s' heq
    obtain ⟨s₁, heq⟩ := bind_ok heq
    obtain ⟨s₂, heq⟩ := bind_ok heq
    obtain ⟨s₃, heq⟩ := bind_ok heq
    obtain ⟨s₄, heq⟩ := bind_ok heq
    obtain ⟨s₅, heq⟩ := bind_ok heq
    exact matchQueueTime_softViolation q heq

theorem visitQueue_cases (q : SequentialQueue) (h : SkipOk a s₀ s) :
    (¬ (Suitable a s₀ q ∧ ¬ Cut a s q) ∧ (visitQueue a s q).2 = false ∧
        SameBest (s.setTag q.qname 0) (visitQueue a s q).1 q.qname ∧
        SkipOk a s₀ (visitQueue a s q).1) ∨
      ((Suitable a s₀ q ∧ ¬ Cut a s q) ∧ ∃ s', SameBest (s.setTag q.qname 0) s' q.qname ∧
        SkipOk a s₀ s' ∧ (s'.tags q.qname).softViolation = (a.queueTime q.qname).violations ∧
        visitQueue a s q = acceptQueue a s' q) := by
  obtain ⟨hsteps, hviolations⟩ := matchSteps_ok q h
  unfold visitQueue
  cases hr : matchSteps a s q with
  | error s' =>
    rw [hr] at hsteps
    cases hsteps with
    | passed hsame hskip hstop => exact Or.inl ⟨hstop, rfl, hsame, hskip⟩
  | ok s' =>
    rw [hr] at hsteps
    cases hsteps with
    | goesOn hsame hskip hgoes =>
      exact Or.inr ⟨hgoes, s', hsame, hskip, hviolations s' hr, rfl⟩

/-! ## The loop -/

/-- What holds before every queue instance holds at the end, or the loop is left at one. -/
theorem visitQueueList_cases {Inv : List SequentialQueue → SequentialState → Prop}
    (hstep : ∀ pre q post s, a.queues = pre ++ q :: post → Inv pre s →
      (visitQueue a s q).2 = false → Inv (pre ++ [q]) (visitQueue a s q).1)
    {pre queues : List SequentialQueue} (hall : a.queues = pre ++ queues) (h : Inv pre s) :
    Inv a.queues (visitQueueList a s queues) ∨
      ∃ pre' q post s', a.queues = pre' ++ q :: post ∧ Inv pre' s' ∧
        (visitQueue a s' q).2 = true ∧ visitQueueList a s queues = (visitQueue a s' q).1 := by
  induction queues generalizing pre s with
  | nil =>
    rw [List.append_nil] at hall
    exact Or.inl (hall ▸ h)
  | cons q queues ih =>
    rw [visitQueueList]
    split
    next hleft => exact Or.inr ⟨pre, q, queues, s, hall, h, hleft, rfl⟩
    next hgoes =>
      have hall' : a.queues = (pre ++ [q]) ++ queues := by simpa using hall
      exact ih hall' (hstep pre q queues s hall h (Bool.eq_false_iff.mpr hgoes))

/-! ## Acceptance -/

/-- What an accepted queue instance makes of the state, before it is compared. -/
def acceptTags (a : SequentialAssignment) (s : SequentialState) (q : SequentialQueue) :
    SequentialState :=
  { s with
    tags := Function.update s.tags q.qname
      { s.tags q.qname with
        tag := 1
        availableAt := if a.isReservation then a.start q else (s.tags q.qname).availableAt }
    bestQueueResult := .ok }

def comparedTime (a : SequentialAssignment) (q : SequentialQueue) : ℕ :=
  if a.isReservation then a.start q else 0

theorem acceptQueue_eq (h : (s.tags q.qname).softViolation = (a.queueTime q.qname).violations) :
    acceptQueue a s q =
      if foundQueue a q (a.queueTime q.qname).violations then
        ((acceptTags a s q).untagBest, true)
      else ({ (if a.isSoft then compareQueue a (acceptTags a s q) q.qname (comparedTime a q)
              (a.queueTime q.qname).violations else acceptTags a s q) with
            gotSolution := true
            violationsBest := (a.queueTime q.qname).violations
            ttBest := comparedTime a q }, false) := by
  have hviolations : (if a.isSoft then (s.tags q.qname).softViolation else 0) =
      (a.queueTime q.qname).violations := by
    cases hsoft : a.isSoft with
    | true => simpa using h
    | false => simp [a.violations_hard hsoft]
  unfold acceptQueue
  rw [hviolations]
  cases hres : a.isReservation <;> simp [acceptTags, comparedTime, hres]

end Visit

end ClusterScheduler.Sched
