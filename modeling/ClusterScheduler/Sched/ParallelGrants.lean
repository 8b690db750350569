import ClusterScheduler.Sched.GrantedList

/-!
# How many slots are granted

An attempt ends well when there are at least the slots that were asked for. When there are
exactly so many, and when the fixed rules are kept.

* `Accounts` — what queue instances offer, together with what they gave, is at most what they
  have.
* `GrantsSlots`, `Room` — the slots asked for are granted, and what every visit has to leave.
* `grantsSlots_iff` — exactly then are so many slots granted.
* `FixedRules`, `OwnMasterHost` — the amounts of fixed rules, and when they are kept.
-/

namespace ClusterScheduler.Sched

/-! ## What a rule gives on a visit -/

section Rule

variable {job : ParallelJob} {s : ParallelState} {o : HostOffer} {host : String} {hslots : ℤ}
  {limits : String → Option ℤ} {taken : AllocateState × Bool}

/-- The rule a visit takes slots by, and how many it takes. -/
inductive VisitRule (job : ParallelJob) (s : ParallelState) (taken : AllocateState × Bool) : Prop
  | master (missing : s.haveMasterHost = false) (ruled : job.hasMasterRule = true)
      (found : taken.2 = true)
      (flagged : taken.1.queueSlots.any (·.isMasterQueue) = true)
      (amount : Amount job.mallocationParsed (job.slots - s.accuHostSlots) taken.1.rqsHslots)
  | fallback (missing : s.haveMasterHost = false) (ruled : job.hasMasterRule = true)
      (flagged : taken.1.queueSlots.any (·.isMasterQueue) = false)
      (amount : Amount job.allocationParsed (job.slots - s.accuHostSlots) taken.1.rqsHslots)
  | only (rule : s.haveMasterHost = true ∨ job.hasMasterRule = false)
      (amount : Amount job.allocationParsed (job.slots - s.accuHostSlots) taken.1.rqsHslots)
      (leaves : s.haveMasterHost = false → s.accuHostSlots < job.slots →
        ruleMin job.allocationParsed ≤ job.slots - s.accuHostSlots → taken.2 = false →
        s.accuHostSlots + taken.1.rqsHslots < job.slots)

theorem TakenBy.visitRule
    (hby : TakenBy job o host (minmaxSlots job s.haveMasterHost s.accuHostSlots) hslots
      s.haveMasterHost s.accuHostSlots limits taken) (hhslots : 1 ≤ hslots) :
    VisitRule job s taken := by
  have hruled : s.haveMasterHost = false →
      0 < (minmaxSlots job s.haveMasterHost s.accuHostSlots).minslotsMaster →
      job.hasMasterRule = true := by
    intro hmissing hpos
    by_contra hnone
    rw [minslotsMaster_only (Or.inr (Bool.eq_false_iff.mpr hnone))] at hpos
    exact lt_irrefl 0 hpos
  cases hby with
  | master hmissing hrule hst =>
    have hruled := hruled hmissing hrule
    rw [hmissing] at hst
    refine .master hmissing hruled rfl ?_ (hst.amount hhslots
      (minslotsMaster_missing hruled _) (congrArg (min hslots) (maxslotsMaster_missing hruled _)))
    rcases hst.master with ⟨hgot, -⟩ | ⟨-, -, qs, tail, heq, hflag, -⟩
    · exact absurd (hgot.symm.trans (hst.got_of_only rfl)) Bool.false_ne_true
    · exact List.any_eq_true.mpr ⟨qs, by simp [heq], hflag⟩
  | fallback hmissing hrule hslaves hnone hst =>
    obtain ⟨hzero, -⟩ | ⟨hmin, hmax⟩ :=
      minmaxSlots_slaves job s.haveMasterHost s.accuHostSlots
    · exact absurd hzero hslaves.ne'
    · refine .fallback hmissing (hruled hmissing hrule) ?_
        (hst.amount hhslots hmin (congrArg (min hslots) hmax))
      have hslave := (hst.master.resolve_right fun hfirst =>
        absurd hfirst.1.symm Bool.false_ne_true).2
      exact List.any_eq_false.mpr fun qs hqs => by simp [hslave qs hqs]
  | only hrule hst =>
    have hrule' : s.haveMasterHost = true ∨ job.hasMasterRule = false := by
      refine or_iff_not_imp_left.mpr fun hmissing => ?_
      by_contra hruled
      have hmissing := Bool.eq_false_iff.mpr hmissing
      have hle := hrule.resolve_left (by simp [hmissing])
      rw [hmissing, minslotsMaster_missing (by simpa using hruled)] at hle
      exact absurd (ruleMin_pos _) (not_lt.mpr hle)
    obtain ⟨-, hmissing, hruled⟩ | ⟨hmin, hmax⟩ :=
      minmaxSlots_slaves job s.haveMasterHost s.accuHostSlots
    · rcases hrule' with hhave | hnone
      · exact absurd (hmissing.symm.trans hhave) Bool.false_ne_true
      · exact absurd (hnone.symm.trans hruled) Bool.false_ne_true
    · refine .only hrule' (hst.amount hhslots hmin (congrArg (min hslots) hmax))
        fun hmissing hroom hrem hgot => hst.leaves hmissing ?_ hroom ?_ hgot
      · rw [hmax]
        exact (min_le_right _ _).trans (ruleMax_le hrem)
      · rw [hmax]
        exact le_min (by omega) (ruleMax_pos hrem).le

theorem VisitRule.pos (h : VisitRule job s taken) : 0 < taken.1.rqsHslots := by
  cases h with
  | master _ _ _ _ amount => exact (ruleMin_pos _).trans_le amount.min_le
  | fallback _ _ _ amount => exact (ruleMin_pos _).trans_le amount.min_le
  | only _ amount _ => exact (ruleMin_pos _).trans_le amount.min_le

end Rule

/-! ## The slots asked for -/

section Grants

variable (job : ParallelJob)

/-- The slots asked for are granted, and no queue instance has more than its capacity. -/
def GrantsSlots (capacity : String → ℤ) (s : ParallelState) : Prop :=
  slotsOf (fun _ _ => true) s.gdil = job.slots ∧ ∀ e ∈ s.gdil, e.slots ≤ capacity e.qname

def Accounts (capacity : String → ℤ) (s : ParallelState) (o : HostOffer) : Prop :=
  ∀ qname, o.tag qname ≠ 0 →
    (o.tag qname : ℤ) + slotsOf (fun name _ => name == qname) s.gdil ≤ capacity qname

/-- Where there is a master rule, the visit that finds the master host finds at least as many
slots missing as the rule it takes them by wants, and from then on what is missing is a
multiple of a fixed rule. -/
def Room (s : ParallelState) (o : HostOffer) : Prop :=
  ∀ host rest, s.rest = host :: rest →
    (s.haveMasterHost = true → 0 < job.allocationParsed →
      job.allocationParsed ∣ job.slots - s.accuHostSlots) ∧
    ∀ taken, visitTaken job s host o = some taken → s.haveMasterHost = false → taken.2 = true →
      job.hasMasterRule = true →
      ruleMin (if taken.1.queueSlots.any (·.isMasterQueue) then job.mallocationParsed
        else job.allocationParsed) ≤ job.slots - s.accuHostSlots

variable {job}

/-- There are not too many slots. -/
structure Within (job : ParallelJob) (s : ParallelState) : Prop where
  le : s.haveMasterHost = true → s.accuHostSlots ≤ job.slots
  lt : s.haveMasterHost = false → job.hasMasterRule = false → s.accuHostSlots < job.slots
  dvd : job.hasMasterRule = false → 0 < job.allocationParsed →
    job.allocationParsed ∣ job.slots - s.accuHostSlots

theorem Within.init : Within job (.init job) where
  le := nofun
  lt := fun _ _ => job.slots_pos
  dvd := fun hnone hfixed => by
    have hdvd := parseCheckAllocationRules_dvd job.parsed (Option.isSome_eq_false_iff.mp hnone |>
      Option.isNone_iff_eq_none.mp) hfixed
    simpa [ParallelState.init] using hdvd

theorem ruleMin_le_of_dvd {parsed remaining : ℤ} (hpos : 0 < remaining)
    (h : 0 < parsed → parsed ∣ remaining) : ruleMin parsed ≤ remaining := by
  unfold ruleMin
  split
  next hfixed => exact Int.le_of_dvd hpos (h hfixed)
  next => exact hpos

variable {s s' : ParallelState} {o : HostOffer}

theorem Within.next (hs : Attempt job s)
    (h : Within job s) (hroom : Room job s o) (hnext : visitNext job s o = some s') :
    Within job s' := by
  obtain ⟨host, rest, hrest, ⟨-, hprogress⟩ | ⟨taken, hslots, htaken, hhslots, hby, hprogress⟩⟩ :=
    visitNext_cases hnext
  all_goals
    have haccu : s'.accuHostSlots = _ := congrArg Progress.accuHostSlots hprogress
    have hhave : s'.haveMasterHost = _ := congrArg Progress.haveMasterHost hprogress
  · constructor <;> rw [haccu]
    · rw [hhave]
      exact h.le
    · rw [hhave]
      exact h.lt
    · exact h.dvd
  · obtain ⟨hdvd, hfinds⟩ := hroom host rest hrest
    have haccu : s'.accuHostSlots = s.accuHostSlots + taken.1.rqsHslots := haccu
    have hhave : s'.haveMasterHost = (s.haveMasterHost || taken.2) := hhave
    cases hby.visitRule hhslots with
    | master hmissing hruled hfound hflag amount =>
      have hmin := hfinds taken htaken hmissing hfound hruled
      rw [if_pos hflag] at hmin
      have hle := amount.le_remaining hmin
      refine ⟨fun _ => by linarith, fun hmissing' => ?_, fun hnone => ?_⟩
      · simp [hhave, hfound] at hmissing'
      · exact absurd (hnone.symm.trans hruled) Bool.false_ne_true
    | fallback hmissing hruled hflag amount =>
      refine ⟨fun hmaster => ?_, fun _ hnone => ?_, fun hnone => ?_⟩
      · have hfound : taken.2 = true := by simpa [hhave, hmissing] using hmaster
        have hmin := hfinds taken htaken hmissing hfound hruled
        rw [if_neg (by simp [hflag])] at hmin
        have hle := amount.le_remaining hmin
        linarith
      all_goals exact absurd (hnone.symm.trans hruled) Bool.false_ne_true
    | only hrule amount hleaves =>
      have hmore : 0 < job.slots - s.accuHostSlots := by
        rcases Bool.eq_false_or_eq_true s.haveMasterHost with hmaster | hmissing
        · have hmissing := hs.missing (by simp [hrest])
          simpa [ParallelState.enough, hmaster] using hmissing
        · have hlt := h.lt hmissing (hrule.resolve_left (by simp [hmissing]))
          linarith
      have hdvd' : 0 < job.allocationParsed →
          job.allocationParsed ∣ job.slots - s.accuHostSlots :=
        fun hfixed => hrule.elim (fun hmaster => hdvd hmaster hfixed)
          fun hnone => h.dvd hnone hfixed
      have hmin := ruleMin_le_of_dvd hmore hdvd'
      have hle := amount.le_remaining hmin
      refine ⟨fun _ => by linarith, fun hmissing' _ => ?_, fun _ hfixed => ?_⟩
      · obtain ⟨hmissing, hgot⟩ := Bool.or_eq_false_iff.mp (hhave ▸ hmissing')
        rw [haccu]
        exact hleaves hmissing (sub_pos.mp hmore) hmin hgot
      · rw [haccu, amount.fixed hfixed, ← sub_sub]
        exact dvd_sub_self_right.mpr (hdvd' hfixed)

/-- What is granted is not too much at the end only if it was not on the way. -/
theorem Room.of_next (hnext : visitNext job s o = some s')
    (h : s'.accuHostSlots ≤ job.slots ∧ (s'.haveMasterHost = true → 0 < job.allocationParsed →
      job.allocationParsed ∣ job.slots - s'.accuHostSlots)) :
    (s.accuHostSlots ≤ job.slots ∧ (s.haveMasterHost = true → 0 < job.allocationParsed →
      job.allocationParsed ∣ job.slots - s.accuHostSlots)) ∧ Room job s o := by
  obtain ⟨host, rest, hrest, ⟨hnone, hprogress⟩ |
    ⟨taken, hslots, htaken, hhslots, hby, hprogress⟩⟩ := visitNext_cases hnext
  all_goals
    have haccu : s'.accuHostSlots = _ := congrArg Progress.accuHostSlots hprogress
    have hhave : s'.haveMasterHost = _ := congrArg Progress.haveMasterHost hprogress
  · have hsame : s'.accuHostSlots = s.accuHostSlots := haccu
    rw [hsame, hhave] at h
    refine ⟨h, fun host' rest' hrest' => ⟨h.2, fun taken htaken => ?_⟩⟩
    obtain ⟨rfl, rfl⟩ := List.cons.inj (hrest.symm.trans hrest')
    exact nomatch hnone.symm.trans htaken
  · have haccu : s'.accuHostSlots = s.accuHostSlots + taken.1.rqsHslots := haccu
    have hhave : s'.haveMasterHost = (s.haveMasterHost || taken.2) := hhave
    have hrule := hby.visitRule hhslots
    have hpos := hrule.pos
    rw [haccu, hhave] at h
    have hdvd : s.haveMasterHost = true → 0 < job.allocationParsed →
        job.allocationParsed ∣ job.slots - s.accuHostSlots := by
      intro hmaster hfixed
      have hdvd := h.2 (by simp [hmaster]) hfixed
      cases hrule with
      | master hmissing => exact absurd (hmissing.symm.trans hmaster) Bool.false_ne_true
      | fallback hmissing => exact absurd (hmissing.symm.trans hmaster) Bool.false_ne_true
      | only _ amount _ =>
        rw [amount.fixed hfixed, ← sub_sub] at hdvd
        exact dvd_sub_self_right.mp hdvd
    refine ⟨⟨by linarith, hdvd⟩, fun host' rest' hrest' => ⟨hdvd, ?_⟩⟩
    intro taken' htaken' hmissing hfound hruled
    obtain ⟨rfl, rfl⟩ := List.cons.inj (hrest.symm.trans hrest')
    obtain rfl := Option.some.inj (htaken.symm.trans htaken')
    cases hrule with
    | master _ _ _ hflag amount =>
      rw [if_pos hflag]
      linarith [amount.min_le]
    | fallback _ _ hflag amount =>
      rw [if_neg (by simp [hflag])]
      linarith [amount.min_le]
    | only hrule =>
      rcases hrule with hmaster | hnone
      · exact absurd (hmissing.symm.trans hmaster) Bool.false_ne_true
      · exact absurd (hnone.symm.trans hruled) Bool.false_ne_true

/-- A queue instance occurs at most once among the slots taken. -/
theorem sum_filter_qname {l : List QueueSlots} (h : (l.map (·.qname)).Nodup) (qname : String) :
    ((l.filter (·.qname == qname)).map (·.slots)).sum = 0 ∨
      ∃ qs ∈ l, qs.qname = qname ∧
        ((l.filter (·.qname == qname)).map (·.slots)).sum = qs.slots := by
  induction l with
  | nil => exact Or.inl rfl
  | cons qs l ih =>
    obtain ⟨hfresh, hl⟩ := List.nodup_cons.mp h
    by_cases hname : qs.qname = qname
    · have hnone : l.filter (·.qname == qname) = [] := by
        refine List.filter_eq_nil_iff.mpr fun x hx hxname => hfresh ?_
        exact List.mem_map.mpr ⟨x, hx, (eq_of_beq hxname).trans hname.symm⟩
      exact Or.inr ⟨qs, .head _, hname, by simp [hname, hnone]⟩
    · rw [List.filter_cons_of_neg (by simpa using hname)]
      exact (ih hl).imp_right fun ⟨x, hx, hsum⟩ => ⟨x, .tail _ hx, hsum⟩

/-- No queue instance has more slots than its capacity. -/
def WithinCapacity (capacity : String → ℤ) (s : ParallelState) : Prop :=
  ∀ qname, slotsOf (fun name _ => name == qname) s.gdil = 0 ∨
    slotsOf (fun name _ => name == qname) s.gdil ≤ capacity qname

theorem WithinCapacity.next {capacity : String → ℤ}
    (hs : Attempt job s) (h : WithinCapacity capacity s) (haccounts : Accounts capacity s o)
    (hnext : visitNext job s o = some s') : WithinCapacity capacity s' := by
  obtain ⟨host, rest, -, ⟨-, hprogress⟩ | ⟨taken, hslots, -, -, hby, hprogress⟩⟩ :=
    visitNext_cases hnext
  all_goals
    have hgdil : s'.gdil = _ := congrArg Progress.gdil hprogress
  · rw [WithinCapacity, hgdil]
    exact h
  · obtain ⟨-, got, hof⟩ := hby.taken
    intro qname
    rw [hgdil]
    have hsum := (hs.granted.foldl hof.mem hof.pos).2 fun name _ => name == qname
    rw [show slotsOf _ (s.progress.grant host taken).gdil = _ from hsum]
    rcases sum_filter_qname hof.nodup qname with hzero | ⟨qs, hqs, rfl, heq⟩
    · rw [hzero, add_zero]
      exact h qname
    · have hpos := hof.pos qs hqs
      have htag := hof.le_tag qs hqs
      have hle := haccounts qs.qname (by omega)
      rw [heq]
      exact Or.inr (by linarith)

/-- The slots of an element count for its queue instance. -/
theorem Granted.le_slotsOf {gdil : List GrantedSlots} (h : Granted job gdil) {e : GrantedSlots}
    (he : e ∈ gdil) : e.slots ≤ slotsOf (fun name _ => name == e.qname) gdil := by
  apply List.single_le_sum
  · intro k hk
    obtain ⟨x, hx, rfl⟩ := List.mem_map.mp hk
    exact (h.slots_pos x (List.mem_filter.mp hx).1).le
  · exact List.mem_map.mpr ⟨e, List.mem_filter.mpr ⟨he, by simp⟩, rfl⟩

/-- Exactly then the slots that were asked for are granted. -/
theorem grantsSlots_iff (capacity : String → ℤ) (offers : List HostOffer) (s : ParallelState)
    (hrun : attemptRun job (.init job) offers = some s) (hok : s.isOk job)
    (haccounts : EveryVisit job (Accounts capacity) (.init job) offers) :
    GrantsSlots job capacity s ↔ EveryVisit job (Room job) (.init job) offers := by
  have hs := Attempt.of_run hrun
  obtain ⟨henough, hmaster⟩ := Bool.and_eq_true_iff.mp hok.2
  have henough : job.slots ≤ s.accuHostSlots := by simpa using henough
  have hcapacity : WithinCapacity capacity s := Attempt.run_induct (WithinCapacity capacity)
    (fun _ _ _ hs h hvisit hnext => h.next hs hvisit hnext) (fun _ => Or.inl rfl) haccounts hrun
  constructor
  · intro hgrants
    have haccu : s.accuHostSlots = job.slots := hs.sum.symm.trans hgrants.1
    refine (EveryVisit.of_end (fun _ => True) _ (fun _ _ _ _ _ => trivial)
      (fun _ _ _ _ hnext hend => Room.of_next hnext hend) trivial hrun ⟨haccu.le, ?_⟩).2
    intro _ _
    rw [haccu, sub_self]
    exact dvd_zero _
  · intro hvisits
    have hwithin : Within job s := Attempt.run_induct (Within job)
      (fun _ _ _ hs h hvisit hnext => h.next hs hvisit hnext) Within.init hvisits hrun
    refine ⟨hs.sum.trans (le_antisymm (hwithin.le hmaster) henough), fun e he => ?_⟩
    have hle := hs.granted.le_slotsOf he
    have hpos := hs.granted.slots_pos e he
    rcases hcapacity e.qname with hzero | hcap
    · linarith
    · exact hle.trans hcap

end Grants

/-! ## Fixed rules -/

section Fixed

variable (job : ParallelJob)

def slotsOnHost (host : String) (gdil : List GrantedSlots) : ℤ :=
  slotsOf (fun _ host' => host' == host) gdil

/-- The host of the first element has the slots of the master rule, and every other host those
of the slave rule if that is fixed. -/
def FixedRules (s : ParallelState) : Prop :=
  ∃ e tail, s.gdil = e :: tail ∧ slotsOnHost e.host s.gdil = job.mallocationParsed ∧
    (0 < job.allocationParsed → ∀ x ∈ s.gdil, x.host ≠ e.host →
      slotsOnHost x.host s.gdil = job.allocationParsed)

/-- The visit that finds the master host takes slots of a master queue, and nothing was granted
on the host before. -/
def OwnMasterHost (s : ParallelState) (o : HostOffer) : Prop :=
  ∀ host rest taken, s.rest = host :: rest → visitTaken job s host o = some taken →
    s.haveMasterHost = false → taken.2 = true →
    taken.1.queueSlots.any (·.isMasterQueue) = true ∧ host ∉ s.gdil.map (·.host)

/-- With fixed rules every host is visited once. -/
structure SinglePass (s : ParallelState) : Prop where
  doRoundRobin : s.doRoundRobin = false
  rest_nodup : s.rest.Nodup
  fresh : ∀ host ∈ s.gdil.map (·.host), host ∉ s.rest

/-- The amounts of fixed rules, before and after the master host is found. -/
structure FixedSoFar (s : ParallelState) : Prop where
  single : 0 < job.allocationParsed → SinglePass s
  slaves : s.haveMasterHost = false → 0 < job.allocationParsed →
    ∀ host ∈ s.gdil.map (·.host), slotsOnHost host s.gdil = job.allocationParsed
  found : s.haveMasterHost = true → ∃ e tail, s.gdil = e :: tail ∧ s.masterHost = some e.host ∧
    slotsOnHost e.host s.gdil = job.mallocationParsed ∧
    (0 < job.allocationParsed → ∀ host ∈ s.gdil.map (·.host), host ≠ e.host →
      slotsOnHost host s.gdil = job.allocationParsed)

variable {job}

variable {host : String} {gdil : List GrantedSlots}

theorem slotsOnHost_of_notMem (h : host ∉ gdil.map (·.host)) : slotsOnHost host gdil = 0 := by
  have hnone : gdil.filter (fun e => e.host == host) = [] :=
    List.filter_eq_nil_iff.mpr fun e he hhost =>
      h (List.mem_map.mpr ⟨e, he, eq_of_beq hhost⟩)
  rw [slotsOnHost, slotsOf, hnone]
  rfl

variable {o : HostOffer} {got : Bool}

theorem slotsOnHost_foldl {st : AllocateState} (h : Granted job gdil)
    (hof : Taken o (hostQnames job host) got st) (host' : String) :
    slotsOnHost host' (st.queueSlots.foldl (grantQueueSlots host) gdil) =
      slotsOnHost host' gdil + if host = host' then st.rqsHslots else 0 := by
  refine ((h.foldl hof.mem hof.pos).2 _).trans ?_
  by_cases hhost : host = host'
  · simp [hhost, slotsOnHost, hof.sum]
  · have hother : (host == host') = false := by simpa using hhost
    simp [hhost, hother, slotsOnHost]

theorem mem_foldl_host {host' : String} {l : List QueueSlots}
    (h : host' ∈ (l.foldl (grantQueueSlots host) gdil).map (·.host)) :
    host' = host ∨ host' ∈ gdil.map (·.host) := by
  induction l generalizing gdil with
  | nil => exact Or.inr h
  | cons qs l ih =>
    rcases ih h with hhost | hmem
    · exact Or.inl hhost
    · by_cases hname : qs.qname ∈ gdil.map (·.qname)
      · rw [grantQueueSlots_of_mem hname, addSlots_map_host] at hmem
        exact Or.inr hmem
      · rw [grantQueueSlots_of_notMem hname] at hmem
        have hperm := (parallelAddQueueToGdil_perm gdil ⟨qs.qname, host, qs.slots⟩
          qs.isMasterQueue).map (·.host)
        exact List.mem_cons.mp (hperm.mem_iff.mp hmem)

theorem hasMasterRule_of_fixed (h : 0 < job.mallocationParsed) : job.hasMasterRule = true := by
  by_contra hnone
  have hparsed := job.parsed
  have hrule : job.rules.mallocationRule = none := by
    simpa [ParallelJob.hasMasterRule] using hnone
  simp only [parseCheckAllocationRules, hrule, ne_eq, not_true_eq_false, false_and, if_false,
    if_true] at hparsed
  split at hparsed
  next => nomatch hparsed
  next =>
    obtain ⟨hzero, -⟩ := Prod.mk.inj (Option.some.inj hparsed)
    exact h.ne hzero

/-- There is one pass over the hosts when both rules are fixed. -/
theorem minmaxSlots_doRoundRobin (hmalloc : 0 < job.mallocationParsed)
    (halloc : 0 < job.allocationParsed) (haveMasterHost : Bool) (accu : ℤ) :
    (minmaxSlots job haveMasterHost accu).doRoundRobin = false := by
  cases haveMasterHost with
  | true => simp [minmaxSlots_only (Or.inl rfl), minmaxSlaves, halloc]
  | false =>
    rw [minmaxSlots_missing (hasMasterRule_of_fixed hmalloc)]
    split <;> simp [minmaxSlaves, minmaxMaster, halloc, hmalloc]

variable {s s' : ParallelState}

theorem SinglePass.next
    {rest : List String} (hmalloc : 0 < job.mallocationParsed) (halloc : 0 < job.allocationParsed)
    (h : SinglePass s) (hrest : s.rest = host :: rest) (hnext : visitNext job s o = some s')
    (hhosts : ∀ host' ∈ s'.gdil.map (·.host), host' = host ∨ host' ∈ s.gdil.map (·.host)) :
    SinglePass s' := by
  obtain ⟨hround, hleft⟩ := visitNext_hosts hrest hnext
  rw [minmaxSlots_doRoundRobin hmalloc halloc, h.doRoundRobin, or_self] at hround
  have hnodup := h.rest_nodup
  rw [hrest] at hnodup
  obtain ⟨hfresh, hnodup⟩ := List.nodup_cons.mp hnodup
  rcases hleft with hnil | hrest' | hagain
  · exact ⟨hround, hnil ▸ List.nodup_nil, fun _ _ => hnil ▸ List.not_mem_nil⟩
  · refine ⟨hround, hrest' ▸ hnodup, fun host' hmem => ?_⟩
    rw [hrest']
    rcases hhosts host' hmem with rfl | hold
    · exact hfresh
    · intro hleft
      exact h.fresh host' hold (hrest ▸ .tail _ hleft)
  · exact absurd (hround.symm.trans hagain) Bool.false_ne_true

variable {taken : AllocateState × Bool}

theorem slotsOnHost_next (hs : Attempt job s) (hof : Taken o (hostQnames job host) got taken.1)
    (hgdil : s'.gdil = taken.1.queueSlots.foldl (grantQueueSlots host) s.gdil) (host' : String) :
    slotsOnHost host' s'.gdil =
      slotsOnHost host' s.gdil + if host = host' then taken.1.rqsHslots else 0 := by
  rw [hgdil]
  exact slotsOnHost_foldl hs.granted hof host'

theorem head_next
    {e : GrantedSlots} {tail : List GrantedSlots} (hs : Attempt job s) (hs' : Attempt job s')
    (hslaves : ∀ qs ∈ taken.1.queueSlots, qs.isMasterQueue = false) (heq : s.gdil = e :: tail)
    (hgdil : s'.gdil = taken.1.queueSlots.foldl (grantQueueSlots host) s.gdil) :
    ∃ e' tail', s'.gdil = e' :: tail' ∧ e'.host = e.host := by
  have hhead := head?_foldl host hslaves (by simp [heq] : s.gdil ≠ [])
  rw [← hgdil, heq] at hhead
  cases hnew : s'.gdil with
  | nil =>
    rw [hnew] at hhead
    nomatch hhead
  | cons e' tail' =>
    rw [hnew] at hhead
    obtain hname : e'.qname = e.qname := by simpa using hhead
    have hmem := hs'.granted.of_host e' (by simp [hnew])
    rw [hname] at hmem
    exact ⟨e', tail', rfl,
      host_of_mem_hostQnames hmem (hs.granted.of_host e (by simp [heq]))⟩

theorem head_master (hs' : Attempt job s') (hof : Taken o (hostQnames job host) got taken.1)
    (hflag : taken.1.queueSlots.any (·.isMasterQueue) = true) (hs : Attempt job s)
    (hnew : host ∉ s.gdil.map (·.host))
    (hgdil : s'.gdil = taken.1.queueSlots.foldl (grantQueueSlots host) s.gdil) :
    ∃ e tail, s'.gdil = e :: tail ∧ e.host = host := by
  rcases hof.master with ⟨-, hnone⟩ | ⟨-, -, qs, tail, heq, hqs, -, hslaves⟩
  · obtain ⟨qs, hqs, hmaster⟩ := List.any_eq_true.mp hflag
    exact absurd ((hnone qs hqs).symm.trans hmaster) Bool.false_ne_true
  · have hmem := hof.mem qs (by simp [heq])
    have hfresh : qs.qname ∉ s.gdil.map (·.qname) := by
      intro hold
      obtain ⟨x, hx, hname⟩ := List.mem_map.mp hold
      exact hnew (List.mem_map.mpr ⟨x, hx, hs.granted.host_eq hmem x hx hname⟩)
    rw [heq, List.foldl_cons, grantQueueSlots_of_notMem hfresh, parallelAddQueueToGdil,
      if_pos hqs] at hgdil
    have hhead := head?_foldl host hslaves
      (List.cons_ne_nil (⟨qs.qname, host, qs.slots⟩ : GrantedSlots) s.gdil)
    rw [← hgdil] at hhead
    cases hnew' : s'.gdil with
    | nil =>
      rw [hnew'] at hhead
      cases hhead
    | cons e tail' =>
      rw [hnew'] at hhead
      obtain hname : e.qname = qs.qname := by simpa using hhead
      have hmem' := hs'.granted.of_host e (by simp [hnew'])
      rw [hname] at hmem'
      exact ⟨e, tail', rfl, host_of_mem_hostQnames hmem' hmem⟩

theorem FixedSoFar.next
    (hmalloc : 0 < job.mallocationParsed) (hs : Attempt job s) (h : FixedSoFar job s)
    (hown : OwnMasterHost job s o) (hnext : visitNext job s o = some s') : FixedSoFar job s' := by
  have hs' := hs.next hnext
  obtain ⟨host, rest, hrest, ⟨-, hprogress⟩ | ⟨taken, hslots, htaken, hhslots, hby, hprogress⟩⟩ :=
    visitNext_cases hnext
  all_goals
    have hgdil : s'.gdil = _ := congrArg Progress.gdil hprogress
    have hhave : s'.haveMasterHost = _ := congrArg Progress.haveMasterHost hprogress
    have hmaster : s'.masterHost = _ := congrArg Progress.masterHost hprogress
  · have hsame : s'.gdil = s.gdil := hgdil
    refine ⟨fun halloc => (h.single halloc).next hmalloc halloc hrest hnext fun _ hmem =>
      Or.inr (hsame ▸ hmem), ?_, ?_⟩
    · rw [hhave, hsame]
      exact h.slaves
    · rw [hhave, hsame, hmaster]
      exact h.found
  · have hgdil : s'.gdil = taken.1.queueSlots.foldl (grantQueueSlots host) s.gdil := hgdil
    have hhosts : ∀ host' ∈ s'.gdil.map (·.host),
        host' = host ∨ host' ∈ s.gdil.map (·.host) := fun _ hmem => mem_foldl_host (hgdil ▸ hmem)
    obtain ⟨-, got, hof⟩ := hby.taken
    have hslotsOn := slotsOnHost_next hs hof hgdil
    have hfresh : 0 < job.allocationParsed → slotsOnHost host s.gdil = 0 := fun halloc =>
      slotsOnHost_of_notMem fun hmem => (h.single halloc).fresh host hmem (by simp [hrest])
    have hrule := hby.visitRule hhslots
    have hruled := hasMasterRule_of_fixed hmalloc
    refine ⟨fun halloc => (h.single halloc).next hmalloc halloc hrest hnext hhosts,
      fun hmissing halloc host' hmem => ?_, fun hfound => ?_⟩
    · obtain ⟨hmissing, hnotFound⟩ := Bool.or_eq_false_iff.mp (hhave ▸ hmissing)
      have hamount : taken.1.rqsHslots = job.allocationParsed := by
        cases hrule with
        | master _ _ hgot => exact absurd (hnotFound.symm.trans hgot) Bool.false_ne_true
        | fallback _ _ _ amount => exact amount.fixed halloc
        | only _ amount _ => exact amount.fixed halloc
      rw [hslotsOn]
      by_cases hhost : host = host'
      · rw [if_pos hhost, ← hhost, hfresh halloc, hamount, zero_add]
      · rw [if_neg hhost, add_zero]
        exact h.slaves hmissing halloc host' ((hhosts host' hmem).resolve_left (Ne.symm hhost))
    · by_cases hold : s.haveMasterHost = true
      · -- the master host is skipped, the others get slots by the slave rule
        obtain ⟨e, tail, heq, hmhost, hslots, hothers⟩ := h.found hold
        have hslaves := slaves_of_not_found hby (by simp [hold])
        obtain ⟨e', tail', heq', hehost⟩ := head_next hs hs' hslaves heq hgdil
        have hskip := skipsHost_of_visitTaken htaken
        have hother : host ≠ e.host := by
          rintro rfl
          simp [skipsHost, hold, hmhost, hmalloc] at hskip
        refine ⟨e', tail', heq', ?_, ?_, fun halloc host' hmem hne => ?_⟩
        · rw [hmaster, hehost, ← hmhost]
          simp [Progress.grant, ParallelState.progress, hmhost]
        · rw [hehost, hslotsOn, if_neg hother, add_zero]
          exact hslots
        · have hamount : taken.1.rqsHslots = job.allocationParsed := by
            cases hrule with
            | master hmissing => exact absurd (hmissing.symm.trans hold) Bool.false_ne_true
            | fallback hmissing => exact absurd (hmissing.symm.trans hold) Bool.false_ne_true
            | only _ amount _ => exact amount.fixed halloc
          rw [hslotsOn]
          by_cases hhost : host = host'
          · rw [if_pos hhost, ← hhost, hfresh halloc, hamount, zero_add]
          · rw [if_neg hhost, add_zero]
            exact hothers halloc host' ((hhosts host' hmem).resolve_left (Ne.symm hhost))
              (hehost ▸ hne)
      · have hmissing := Bool.eq_false_iff.mpr hold
        have hgot : taken.2 = true := by
          simpa [Progress.grant, ParallelState.progress, hmissing] using hhave.symm.trans hfound
        obtain ⟨hflag, hnew⟩ := hown host rest taken hrest htaken hmissing hgot
        have hamount : taken.1.rqsHslots = job.mallocationParsed := by
          cases hrule with
          | master _ _ _ _ amount => exact amount.fixed hmalloc
          | fallback _ _ hnone => exact absurd (hnone.symm.trans hflag) Bool.false_ne_true
          | only hrule =>
            rcases hrule with hhave | hnone
            · exact absurd hhave hold
            · exact absurd (hnone.symm.trans hruled) Bool.false_ne_true
        obtain ⟨e, tail, heq, hehost⟩ := head_master hs' hof hflag hs hnew hgdil
        have hnone : s.masterHost = none := by
          simpa [hmissing] using hs.masterHost.symm
        refine ⟨e, tail, heq, ?_, ?_, fun halloc host' hmem hne => ?_⟩
        · rw [hmaster, hehost]
          simp [Progress.grant, ParallelState.progress, hnone, hgot]
        · rw [hehost, hslotsOn, if_pos rfl, slotsOnHost_of_notMem hnew, zero_add, hamount]
        · have hhost : host ≠ host' := fun heq' => hne (heq'.symm.trans hehost.symm)
          rw [hslotsOn, if_neg hhost, add_zero]
          exact h.slaves hmissing halloc host' ((hhosts host' hmem).resolve_left (Ne.symm hhost))

/-- Fixed rules are kept when the master host is a host of its own. -/
theorem fixedRules_of_ownMasterHost (offers : List HostOffer) (s : ParallelState)
    (hmalloc : 0 < job.mallocationParsed) (hrun : attemptRun job (.init job) offers = some s)
    (hok : s.isOk job) (hown : EveryVisit job (OwnMasterHost job) (.init job) offers) :
    FixedRules job s := by
  have hinit : FixedSoFar job (.init job) := by
    refine ⟨fun halloc => ⟨rfl, ?_, nofun⟩, fun _ _ _ hmem => absurd hmem List.not_mem_nil, nofun⟩
    unfold ParallelState.init
    dsimp only
    split
    next => exact List.nodup_nil
    next => exact job.hosts_nodup
  have hfixed : FixedSoFar job s := Attempt.run_induct (FixedSoFar job)
    (fun _ _ _ hs h hvisit hnext => h.next hmalloc hs hvisit hnext) hinit hown hrun
  obtain ⟨e, tail, heq, -, hslots, hothers⟩ := hfixed.found (Bool.and_eq_true_iff.mp hok.2).2
  exact ⟨e, tail, heq, hslots, fun halloc x hx =>
    hothers halloc x.host (List.mem_map_of_mem hx)⟩

end Fixed

/-- Three slots, two of them on the master host. Only `m1` suits the master task. -/
def masterTwoJob : ParallelJob where
  slots := 3
  rules := ⟨some "2", some "$fill_up"⟩
  mallocationParsed := 2
  allocationParsed := allocRuleFillup
  globalSlots := 3
  isSoft := false
  noRqs := false
  haveMasterAndSlaveQueueRequest := false
  slaveRejected := fun _ => false
  queues := [⟨"c1", "c", 0⟩, ⟨"m1", "m", 0⟩, ⟨"d1", "d", 0⟩]
  hosts := ["c", "m", "d"]
  limitNames := fun _ => []
  parsed := by decide +kernel
  slots_pos := roundRobinJob.slots_pos
  slots_lt := roundRobinJob.slots_lt
  limitNames_nodup := fun _ => List.nodup_nil

/-- Every host has two slots, in these queue instances. -/
def twoSlotsIn (qnames : List String) : HostOffer where
  skipped := false
  hostSlots := 2
  tag := fun name => if name ∈ qnames then 2 else 0
  master := fun name => name == "m1"
  newLimits := []

variable {s : ParallelState}

theorem accounts_twoSlotsIn {capacity : String → ℤ} {qnames : List String}
    (h : ∀ qname ∈ qnames, 2 + slotsOf (fun name _ => name == qname) s.gdil ≤ capacity qname) :
    Accounts capacity s (twoSlotsIn qnames) := by
  intro qname htag
  by_cases hmem : qname ∈ qnames
  · simpa [twoSlotsIn, hmem] using h qname hmem
  · exact absurd (if_neg hmem) htag

/-- With `c1` in use the slots are those of `m1` and one of `d1`. -/
theorem grantsSlots_iff_three :
    GrantsSlots masterTwoJob (fun _ => 2)
        (attemptEnd masterTwoJob [twoSlotsIn ["m1"], twoSlotsIn ["m1"], twoSlotsIn ["d1"]]) ↔
      EveryVisit masterTwoJob (Room masterTwoJob) (.init masterTwoJob)
        [twoSlotsIn ["m1"], twoSlotsIn ["m1"], twoSlotsIn ["d1"]] := by
  refine grantsSlots_iff (fun _ => 2) _ _ rfl ⟨by decide +kernel, by decide +kernel⟩ ?_
  refine .cons (accounts_twoSlotsIn (by decide +kernel)) rfl ?_
  refine .cons (accounts_twoSlotsIn (by decide +kernel)) rfl ?_
  exact .cons (accounts_twoSlotsIn (by decide +kernel)) rfl trivial

/-- Two slots are granted on `c`, and the two for the master task on top of them. -/
theorem grantsSlots_too_many :
    ¬ ∀ job capacity offers s, attemptRun job (.init job) offers = some s → s.isOk job →
      EveryVisit job (Accounts capacity) (.init job) offers → GrantsSlots job capacity s := by
  intro h
  have hslots : slotsOf (fun _ _ => true)
      (attemptEnd masterTwoJob [twoSlotsIn ["c1"], twoSlotsIn ["m1"]]).gdil = 4 := by
    decide +kernel
  have haccounts : EveryVisit masterTwoJob (Accounts fun _ => 2) (.init masterTwoJob)
      [twoSlotsIn ["c1"], twoSlotsIn ["m1"]] := by
    refine .cons (accounts_twoSlotsIn (by decide +kernel)) rfl ?_
    exact .cons (accounts_twoSlotsIn (by decide +kernel)) rfl trivial
  have hgrants := h masterTwoJob (fun _ => 2) [twoSlotsIn ["c1"], twoSlotsIn ["m1"]] _ rfl
    ⟨by decide +kernel, by decide +kernel⟩ haccounts
  exact absurd (hslots.symm.trans hgrants.1) (by decide)

/-- Four slots in rounds, two of them on the master host. `a2` suits the master task. -/
def masterRoundJob : ParallelJob where
  slots := 4
  rules := ⟨some "2", some "$round_robin"⟩
  mallocationParsed := 2
  allocationParsed := allocRuleRoundrobin
  globalSlots := 4
  isSoft := false
  noRqs := false
  haveMasterAndSlaveQueueRequest := false
  slaveRejected := fun _ => false
  queues := [⟨"a1", "a", 0⟩, ⟨"a2", "a", 0⟩, ⟨"b1", "b", 0⟩]
  hosts := ["a", "b"]
  limitNames := fun _ => []
  parsed := by decide +kernel
  limitNames_nodup := fun _ => List.nodup_nil

/-- Two slots in each of these queue instances. -/
def twoEachIn (qnames : List String) : HostOffer where
  skipped := false
  hostSlots := 2
  tag := fun name => if name ∈ qnames then 2 else 0
  master := fun name => name == "a2"
  newLimits := []

theorem ownMasterHost_of_all {job : ParallelJob} {o : HostOffer}
    {host : String} {rest : List String} (hrest : s.rest = host :: rest)
    (hflag : (visitTaken job s host o).all (·.1.queueSlots.any (·.isMasterQueue)) = true)
    (hnew : host ∉ s.gdil.map (·.host)) : OwnMasterHost job s o := by
  intro host' rest' taken hrest' htaken _ _
  obtain ⟨rfl, rfl⟩ := List.cons.inj (hrest.symm.trans hrest')
  rw [htaken] at hflag
  exact ⟨hflag, hnew⟩

/-- `a2` is found in the first round. -/
theorem fixedRules_of_ownMasterHost_a2 :
    FixedRules masterRoundJob
      (attemptEnd masterRoundJob (List.replicate 4 (twoEachIn ["a2", "b1"]))) := by
  refine fixedRules_of_ownMasterHost (List.replicate 4 (twoEachIn ["a2", "b1"])) _ (by decide)
    rfl ⟨by decide +kernel, by decide +kernel⟩ ?_
  refine .cons (ownMasterHost_of_all rfl (by decide +kernel) (by decide)) rfl ?_
  refine .cons (fun _ _ _ _ _ hmissing => absurd hmissing (by decide +kernel)) rfl ?_
  refine .cons (fun _ _ _ _ _ hmissing => absurd hmissing (by decide +kernel)) rfl ?_
  exact .cons (fun _ _ _ _ _ hmissing => absurd hmissing (by decide +kernel)) rfl trivial

/-- In the first round `a` gives a slot of `a1`, in the second one two more, one of `a2`. -/
theorem fixedRules_three_slots :
    ¬ ∀ job offers s, 0 < job.mallocationParsed →
      attemptRun job (.init job) offers = some s → s.isOk job → FixedRules job s := by
  intro h
  obtain ⟨e, tail, heq, hslots, -⟩ := h masterRoundJob
    (List.replicate 3 (twoEachIn ["a1", "a2", "b1"]))
    (attemptEnd masterRoundJob (List.replicate 3 (twoEachIn ["a1", "a2", "b1"]))) (by decide) rfl
    ⟨by decide +kernel, by decide +kernel⟩
  have hhost : ((attemptEnd masterRoundJob
      (List.replicate 3 (twoEachIn ["a1", "a2", "b1"]))).gdil.map (·.host)).head? = some "a" := by
    decide +kernel
  have hthree : slotsOnHost "a" (attemptEnd masterRoundJob
      (List.replicate 3 (twoEachIn ["a1", "a2", "b1"]))).gdil = 3 := by decide +kernel
  rw [heq] at hhost
  have hehost : e.host = "a" := by simpa using hhost
  rw [hehost] at hslots
  exact absurd (hthree.symm.trans hslots) (by decide)

end ClusterScheduler.Sched
