import ClusterScheduler.Sched.HostVisits

/-!
# The granted list

How the list of granted slots grows, and which shape it has.

* `slotsOf` — the slots of the elements with a property of the queue instance and its host;
  they grow by what is granted.
* `Grouped` — all elements of one host are neighbours.
* `Granted` — what holds of the list in every state of an attempt.
* `shape_iff` — when the list begins with the master queue and is grouped.
-/

namespace ClusterScheduler.Sched

/-! ## Elements of the list -/

theorem insertBehindHost_perm (e : GrantedSlots) (gdil : List GrantedSlots) :
    (insertBehindHost e gdil).Perm (e :: gdil) := by
  induction gdil with
  | nil => exact List.Perm.refl _
  | cons x gdil ih =>
    rw [insertBehindHost]
    split
    · exact List.Perm.swap e x gdil
    · exact (ih.cons x).trans (List.Perm.swap e x gdil)

theorem sublist_insertBehindHost (e : GrantedSlots) (gdil : List GrantedSlots) :
    gdil.Sublist (insertBehindHost e gdil) := by
  induction gdil with
  | nil => exact List.nil_sublist _
  | cons x gdil ih =>
    rw [insertBehindHost]
    split
    · exact (List.sublist_cons_self e gdil).cons_cons x
    · exact ih.cons_cons x

theorem head?_insertBehindHost (e x : GrantedSlots) (gdil : List GrantedSlots) :
    (insertBehindHost e (x :: gdil)).head? = some x := by
  rw [insertBehindHost]
  split <;> rfl

section Grant

variable {host : String} {gdil : List GrantedSlots} {qs : QueueSlots}

def addSlots (gdil : List GrantedSlots) (qs : QueueSlots) : List GrantedSlots :=
  gdil.map fun e => if e.qname = qs.qname then { e with slots := e.slots + qs.slots } else e

theorem grantQueueSlots_of_mem (h : qs.qname ∈ gdil.map (·.qname)) :
    grantQueueSlots host gdil qs = addSlots gdil qs := by
  obtain ⟨e, he, hname⟩ := List.mem_map.mp h
  exact if_pos (List.any_eq_true.mpr ⟨e, he, decide_eq_true hname⟩)

theorem grantQueueSlots_of_notMem (h : qs.qname ∉ gdil.map (·.qname)) :
    grantQueueSlots host gdil qs =
      parallelAddQueueToGdil gdil ⟨qs.qname, host, qs.slots⟩ qs.isMasterQueue := by
  refine if_neg fun hany => h ?_
  obtain ⟨e, he, hname⟩ := List.any_eq_true.mp hany
  exact List.mem_map.mpr ⟨e, he, of_decide_eq_true hname⟩

variable (gdil) in
theorem parallelAddQueueToGdil_perm (e : GrantedSlots) (isMasterQueue : Bool) :
    (parallelAddQueueToGdil gdil e isMasterQueue).Perm (e :: gdil) := by
  unfold parallelAddQueueToGdil
  split
  · exact List.Perm.refl _
  · exact insertBehindHost_perm e gdil

theorem addSlots_map_qname : (addSlots gdil qs).map (·.qname) = gdil.map (·.qname) := by
  rw [addSlots, List.map_map]
  apply List.map_congr_left
  intro e _
  dsimp only [Function.comp_apply]
  split <;> rfl

theorem addSlots_map_host : (addSlots gdil qs).map (·.host) = gdil.map (·.host) := by
  rw [addSlots, List.map_map]
  apply List.map_congr_left
  intro e _
  dsimp only [Function.comp_apply]
  split <;> rfl

end Grant

/-! ## Slots of some elements -/

def slotsOf (p : String → String → Bool) (gdil : List GrantedSlots) : ℤ :=
  ((gdil.filter fun e => p e.qname e.host).map (·.slots)).sum

section SlotsOf

variable {p : String → String → Bool} {host : String} {gdil : List GrantedSlots}
  {qs : QueueSlots}

@[simp] theorem slotsOf_nil : slotsOf p [] = 0 := rfl

theorem slotsOf_cons (e : GrantedSlots) :
    slotsOf p (e :: gdil) = (if p e.qname e.host then e.slots else 0) + slotsOf p gdil := by
  unfold slotsOf
  by_cases h : p e.qname e.host = true <;> simp [h]

theorem slotsOf_perm {gdil' : List GrantedSlots} (h : gdil.Perm gdil') :
    slotsOf p gdil = slotsOf p gdil' :=
  ((h.filter _).map _).sum_eq

theorem addSlots_of_notMem (h : qs.qname ∉ gdil.map (·.qname)) : addSlots gdil qs = gdil := by
  rw [addSlots]
  conv_rhs => rw [← List.map_id gdil]
  apply List.map_congr_left
  intro e he
  exact if_neg fun hname => h (List.mem_map.mpr ⟨e, he, hname⟩)

theorem slotsOf_addSlots (hmem : qs.qname ∈ gdil.map (·.qname))
    (hnodup : (gdil.map (·.qname)).Nodup) (hhost : ∀ e ∈ gdil, e.qname = qs.qname → e.host = host) :
    slotsOf p (addSlots gdil qs) = slotsOf p gdil + if p qs.qname host then qs.slots else 0 := by
  induction gdil with
  | nil => cases hmem
  | cons x gdil ih =>
    obtain ⟨hx, hnodup⟩ := List.nodup_cons.mp hnodup
    by_cases hname : x.qname = qs.qname
    · have hcons : addSlots (x :: gdil) qs = { x with slots := x.slots + qs.slots } :: gdil := by
        have hx' : qs.qname ∉ gdil.map (·.qname) := by
          rw [← hname]
          exact hx
        have htail := addSlots_of_notMem hx'
        rw [addSlots] at htail ⊢
        rw [List.map_cons, if_pos hname, htail]
      have hxhost := hhost x (.head _) hname
      rw [hcons, slotsOf_cons, slotsOf_cons, ← hxhost, ← hname]
      by_cases hp : p x.qname x.host = true
      · simp only [hp, if_true]
        ring
      · simp [hp]
    · have hcons : addSlots (x :: gdil) qs = x :: addSlots gdil qs := by
        rw [addSlots, List.map_cons, if_neg hname, addSlots]
      have hmem' := (List.mem_cons.mp hmem).resolve_left (Ne.symm hname)
      rw [hcons, slotsOf_cons, slotsOf_cons,
        ih hmem' hnodup fun e he => hhost e (.tail _ he), add_assoc]

theorem slotsOf_grantQueueSlots (hnodup : (gdil.map (·.qname)).Nodup)
    (hhost : ∀ e ∈ gdil, e.qname = qs.qname → e.host = host) :
    slotsOf p (grantQueueSlots host gdil qs) =
      slotsOf p gdil + if p qs.qname host then qs.slots else 0 := by
  by_cases hmem : qs.qname ∈ gdil.map (·.qname)
  · rw [grantQueueSlots_of_mem hmem, slotsOf_addSlots hmem hnodup hhost]
  · rw [grantQueueSlots_of_notMem hmem, slotsOf_perm (parallelAddQueueToGdil_perm _ _ _),
      slotsOf_cons, add_comm]

end SlotsOf

/-! ## What holds of every granted list -/

/-- Every queue instance occurs once, with its host and with slots. -/
structure Granted (job : ParallelJob) (gdil : List GrantedSlots) : Prop where
  qnames_nodup : (gdil.map (·.qname)).Nodup
  of_host : ∀ e ∈ gdil, e.qname ∈ hostQnames job e.host
  slots_pos : ∀ e ∈ gdil, 0 < e.slots

section Granted

variable {job : ParallelJob} {host : String} {gdil : List GrantedSlots} {qs : QueueSlots}

theorem Granted.nil : Granted job [] := ⟨List.nodup_nil, nofun, nofun⟩

variable {qname : String}

theorem host_of_mem_hostQnames {host' : String} (h : qname ∈ hostQnames job host)
    (h' : qname ∈ hostQnames job host') : host = host' := by
  obtain ⟨q, hq, rfl⟩ := List.mem_map.mp h
  obtain ⟨q', hq', hname⟩ := List.mem_map.mp h'
  obtain ⟨hmem, hhost⟩ := List.mem_filter.mp hq
  obtain ⟨hmem', hhost'⟩ := List.mem_filter.mp hq'
  obtain rfl := List.inj_on_of_nodup_map job.qnames_nodup hmem' hmem hname
  exact (of_decide_eq_true hhost).symm.trans (of_decide_eq_true hhost')

theorem Granted.host_eq (h : Granted job gdil) (hqs : qs.qname ∈ hostQnames job host) :
    ∀ e ∈ gdil, e.qname = qs.qname → e.host = host :=
  fun e he hname => host_of_mem_hostQnames (h.of_host e he) (hname ▸ hqs)

theorem Granted.grantQueueSlots (h : Granted job gdil) (hqs : qs.qname ∈ hostQnames job host)
    (hpos : 0 < qs.slots) : Granted job (grantQueueSlots host gdil qs) := by
  by_cases hmem : qs.qname ∈ gdil.map (·.qname)
  · rw [grantQueueSlots_of_mem hmem]
    have hgrown : ∀ e ∈ addSlots gdil qs, ∃ e' ∈ gdil, e.qname = e'.qname ∧ e.host = e'.host ∧
        e'.slots ≤ e.slots := by
      intro e he
      obtain ⟨e', he', rfl⟩ := List.mem_map.mp he
      refine ⟨e', he', ?_⟩
      split
      next => exact ⟨rfl, rfl, le_add_of_nonneg_right hpos.le⟩
      next => exact ⟨rfl, rfl, le_rfl⟩
    refine ⟨addSlots_map_qname.symm ▸ h.qnames_nodup, fun e he => ?_, fun e he => ?_⟩
    · obtain ⟨e', he', hname, hhost, -⟩ := hgrown e he
      rw [hname, hhost]
      exact h.of_host e' he'
    · obtain ⟨e', he', -, -, hle⟩ := hgrown e he
      exact (h.slots_pos e' he').trans_le hle
  · rw [grantQueueSlots_of_notMem hmem]
    have hperm := parallelAddQueueToGdil_perm gdil ⟨qs.qname, host, qs.slots⟩
      qs.isMasterQueue
    refine ⟨(hperm.map _).nodup_iff.mpr (List.nodup_cons.mpr ⟨hmem, h.qnames_nodup⟩),
      fun e he => ?_, fun e he => ?_⟩
    · rcases List.mem_cons.mp (hperm.mem_iff.mp he) with rfl | he
      exacts [hqs, h.of_host e he]
    · rcases List.mem_cons.mp (hperm.mem_iff.mp he) with rfl | he
      exacts [hpos, h.slots_pos e he]

variable {l : List QueueSlots}

theorem Granted.foldl (h : Granted job gdil)
    (hqs : ∀ qs ∈ l, qs.qname ∈ hostQnames job host) (hpos : ∀ qs ∈ l, 0 < qs.slots) :
    Granted job (l.foldl (Sched.grantQueueSlots host) gdil) ∧
      ∀ p, slotsOf p (l.foldl (Sched.grantQueueSlots host) gdil) =
        slotsOf p gdil + ((l.filter (p ·.qname host)).map (·.slots)).sum := by
  induction l generalizing gdil with
  | nil => exact ⟨h, fun p => by simp⟩
  | cons qs l ih =>
    obtain ⟨hqs₀, hqs⟩ := List.forall_mem_cons.mp hqs
    obtain ⟨hpos₀, hpos⟩ := List.forall_mem_cons.mp hpos
    obtain ⟨hgranted, hslots⟩ := ih (h.grantQueueSlots hqs₀ hpos₀) hqs hpos
    refine ⟨hgranted, fun p => ?_⟩
    rw [List.foldl_cons, hslots, slotsOf_grantQueueSlots h.qnames_nodup (h.host_eq hqs₀)]
    by_cases hp : p qs.qname host = true <;> simp [hp, add_assoc]

theorem mem_foldl_qname (h : qname ∈ (l.foldl (grantQueueSlots host) gdil).map (·.qname)) :
    qname ∈ l.map (·.qname) ∨ qname ∈ gdil.map (·.qname) := by
  induction l generalizing gdil with
  | nil => exact Or.inr h
  | cons qs l ih =>
    rcases ih h with hmem | hmem
    · exact Or.inl (.tail _ hmem)
    · by_cases hname : qs.qname ∈ gdil.map (·.qname)
      · rw [grantQueueSlots_of_mem hname, addSlots_map_qname] at hmem
        exact Or.inr hmem
      · rw [grantQueueSlots_of_notMem hname] at hmem
        have hperm := (parallelAddQueueToGdil_perm gdil ⟨qs.qname, host, qs.slots⟩
          qs.isMasterQueue).map (·.qname)
        rcases List.mem_cons.mp (hperm.mem_iff.mp hmem) with heq | hold
        · exact Or.inl (heq ▸ (.head _))
        · exact Or.inr hold

end Granted

/-! ## What holds in every state -/

/-- The list and what the attempt remembers of it. -/
structure Attempt (job : ParallelJob) (s : ParallelState) : Prop where
  granted : Granted job s.gdil
  sum : slotsOf (fun _ _ => true) s.gdil = s.accuHostSlots
  accu_nonneg : 0 ≤ s.accuHostSlots
  accu_pos : s.haveMasterHost = true → 0 < s.accuHostSlots
  missing : s.rest ≠ [] → s.enough job = false
  masterHost : s.haveMasterHost = s.masterHost.isSome
  masterQueue : s.haveMasterHost = false → s.masterQueue = none

section Attempt

variable {job : ParallelJob} {s s' : ParallelState} {o : HostOffer}

theorem Attempt.init : Attempt job (.init job) where
  granted := Granted.nil
  sum := rfl
  accu_nonneg := le_rfl
  accu_pos := nofun
  missing := fun _ => by simp [ParallelState.enough, ParallelState.init]
  masterHost := rfl
  masterQueue := fun _ => rfl

theorem visitNext_cases (h : visitNext job s o = some s') :
    ∃ host rest, s.rest = host :: rest ∧
      ((visitTaken job s host o = none ∧ s'.progress = s.progress) ∨
        ∃ taken hslots, visitTaken job s host o = some taken ∧ 1 ≤ hslots ∧
          TakenBy job o host (minmaxSlots job s.haveMasterHost s.accuHostSlots) hslots
            s.haveMasterHost s.accuHostSlots (tagLimits job s.limits o) taken ∧
          s'.progress = s.progress.grant host taken) := by
  obtain ⟨host, rest, hrest⟩ := visitNext_rest h
  have hprogress := visitNext_progress hrest h
  refine ⟨host, rest, hrest, ?_⟩
  cases htaken : visitTaken job s host o with
  | none => exact Or.inl ⟨rfl, by simpa [htaken] using hprogress⟩
  | some taken =>
    obtain ⟨hslots, hpos, hby⟩ := visitTaken_takenBy htaken
    exact Or.inr ⟨taken, hslots, rfl, hpos, hby, by simpa [htaken] using hprogress⟩

theorem Attempt.next (h : Attempt job s) (hnext : visitNext job s o = some s') :
    Attempt job s' := by
  obtain ⟨host, rest, hrest, ⟨-, hprogress⟩ | ⟨taken, hslots, -, -, hby, hprogress⟩⟩ :=
    visitNext_cases hnext
  all_goals
    have hgdil : s'.gdil = _ := congrArg Progress.gdil hprogress
    have haccu : s'.accuHostSlots = _ := congrArg Progress.accuHostSlots hprogress
    have hhave : s'.haveMasterHost = _ := congrArg Progress.haveMasterHost hprogress
    have hmaster : s'.masterHost = _ := congrArg Progress.masterHost hprogress
    have hqueue : s'.masterQueue = _ := congrArg Progress.masterQueue hprogress
  · exact
      { granted := hgdil ▸ h.granted
        sum := by
          rw [hgdil, haccu]
          exact h.sum
        accu_nonneg := by
          rw [haccu]
          exact h.accu_nonneg
        accu_pos := by
          rw [hhave, haccu]
          exact h.accu_pos
        missing := visitNext_missing h.missing hnext
        masterHost := by
          rw [hhave, hmaster]
          exact h.masterHost
        masterQueue := by
          rw [hhave, hqueue]
          exact h.masterQueue }
  · obtain ⟨hpos, got, htaken⟩ := hby.taken
    have haccu_pos : 0 < s'.accuHostSlots := by
      rw [haccu]
      exact add_pos_of_nonneg_of_pos h.accu_nonneg hpos
    obtain ⟨hgranted, hslots'⟩ := h.granted.foldl htaken.mem htaken.pos
    exact
      { granted := hgdil ▸ hgranted
        sum := by
          rw [hgdil, haccu]
          refine (hslots' _).trans ?_
          rw [h.sum, List.filter_true, ← htaken.sum]
          rfl
        accu_nonneg := haccu_pos.le
        accu_pos := fun _ => haccu_pos
        missing := visitNext_missing h.missing hnext
        masterHost := by
          rw [hhave, hmaster]
          simp only [Progress.grant, ParallelState.progress, h.masterHost]
          cases taken.2 <;> cases s.masterHost <;> rfl
        masterQueue := by
          rw [hhave, hqueue]
          intro hmissing
          obtain ⟨hold, hnew⟩ := Bool.or_eq_false_iff.mp hmissing
          have hnone : ∀ qs ∈ taken.1.queueSlots, qs.isMasterQueue = false :=
            hby.masterFirst.resolve_right fun hfirst =>
              Bool.false_ne_true (hnew.symm.trans hfirst.2.1)
          have hfind : taken.1.queueSlots.find? (·.isMasterQueue) = none :=
            List.find?_eq_none.mpr fun qs hqs => by simp [hnone qs hqs]
          simp [Progress.grant, ParallelState.progress, h.masterQueue hold, hfind] }

variable {offers : List HostOffer}

theorem Attempt.run_induct {P : ParallelState → HostOffer → Prop} (Inv : ParallelState → Prop)
    (hstep : ∀ s o s', Attempt job s → Inv s → P s o → visitNext job s o = some s' → Inv s')
    (hinit : Inv (.init job)) (hvisits : EveryVisit job P (.init job) offers)
    (hrun : attemptRun job (.init job) offers = some s) : Inv s :=
  (attemptRun_induct (fun s => Attempt job s ∧ Inv s)
    (fun s o s' h hvisit hnext => ⟨h.1.next hnext, hstep s o s' h.1 h.2 hvisit hnext⟩)
    ⟨Attempt.init, hinit⟩ hvisits hrun).2

theorem Attempt.of_run (hrun : attemptRun job (.init job) offers = some s) : Attempt job s :=
  attemptRun_keeps (Attempt job) (fun _ _ _ h hnext => h.next hnext) Attempt.init hrun

end Attempt

/-! ## The shape of the list -/

/-- All elements of one host are neighbours. -/
def Grouped (gdil : List GrantedSlots) : Prop :=
  ∀ a b, [a, b, a].Sublist (gdil.map (·.host)) → b = a

theorem Grouped.of_sublist {gdil gdil' : List GrantedSlots}
    (hsub : (gdil.map (·.host)).Sublist (gdil'.map (·.host))) (h : Grouped gdil') :
    Grouped gdil := fun a b hab => h a b (hab.trans hsub)

theorem grouped_cons (e : GrantedSlots) (gdil : List GrantedSlots) :
    Grouped (e :: gdil) ↔
      (e.host ∈ gdil.map (·.host) → (gdil.map (·.host)).head? = some e.host) ∧ Grouped gdil := by
  constructor
  · intro h
    refine ⟨fun hmem => ?_, h.of_sublist (List.sublist_cons_self _ _)⟩
    cases gdil with
    | nil => cases hmem
    | cons x gdil =>
      by_cases hx : e.host = x.host
      · simp [hx]
      · have htail := (List.mem_cons.mp hmem).resolve_left hx
        have hsub : [e.host, x.host, e.host].Sublist ((e :: x :: gdil).map (·.host)) :=
          ((List.singleton_sublist.mpr htail).cons_cons _).cons_cons _
        exact absurd (h _ _ hsub).symm hx
  · rintro ⟨hhead, htail⟩ a b hab
    cases hab with
    | cons _ hab => exact htail a b hab
    | cons_cons _ hab =>
      have hmem : e.host ∈ gdil.map (·.host) := hab.subset (by simp)
      have hfirst := hhead hmem
      cases gdil with
      | nil => cases hmem
      | cons x gdil =>
        obtain hx : x.host = e.host := by simpa using hfirst
        cases hab with
        | cons _ hab =>
          refine htail e.host b ?_
          rw [List.map_cons, hx]
          exact hab.cons_cons _
        | cons_cons _ hab => exact hx

section Shape

variable {host : String} {gdil : List GrantedSlots} {qs : QueueSlots}

theorem Grouped.insertBehindHost {e : GrantedSlots} (h : Grouped gdil) :
    Grouped (insertBehindHost e gdil) := by
  induction gdil with
  | nil => exact (grouped_cons e []).mpr ⟨nofun, h⟩
  | cons x gdil ih =>
    obtain ⟨hx, hgdil⟩ := (grouped_cons x gdil).mp h
    rw [Sched.insertBehindHost]
    split
    next hlast =>
      obtain ⟨hxe, hnone⟩ := hlast
      have hnotMem : e.host ∉ gdil.map (·.host) := by
        intro hmem
        obtain ⟨y, hy, hye⟩ := List.mem_map.mp hmem
        exact of_decide_eq_true (List.all_eq_true.mp hnone y hy) hye
      refine (grouped_cons x _).mpr ⟨fun _ => by simp [hxe], ?_⟩
      exact (grouped_cons e gdil).mpr ⟨fun hmem => absurd hmem hnotMem, hgdil⟩
    next hlast =>
      refine (grouped_cons x _).mpr ⟨fun hmem => ?_, ih hgdil⟩
      have hmem' : x.host ∈ gdil.map (·.host) := by
        rcases List.mem_cons.mp (((insertBehindHost_perm e gdil).map _).mem_iff.mp hmem) with
          hxe | hmem'
        · by_contra hnotMem
          refine hlast ⟨hxe, List.all_eq_true.mpr fun y hy => decide_eq_true fun hye => ?_⟩
          exact hnotMem (List.mem_map.mpr ⟨y, hy, hye.trans hxe.symm⟩)
        · exact hmem'
      have hhead := hx hmem'
      cases gdil with
      | nil => cases hmem'
      | cons y gdil =>
        rw [List.head?_map, head?_insertBehindHost]
        simpa using hhead

theorem sublist_grantQueueSlots :
    (gdil.map (·.host)).Sublist ((grantQueueSlots host gdil qs).map (·.host)) := by
  by_cases hmem : qs.qname ∈ gdil.map (·.qname)
  · rw [grantQueueSlots_of_mem hmem, addSlots_map_host]
  · rw [grantQueueSlots_of_notMem hmem, parallelAddQueueToGdil]
    split
    · exact List.sublist_cons_self _ _
    · exact (sublist_insertBehindHost _ _).map _

theorem grantQueueSlots_ne_nil (host : String) (gdil : List GrantedSlots) (qs : QueueSlots) :
    grantQueueSlots host gdil qs ≠ [] := by
  intro hnil
  by_cases hmem : qs.qname ∈ gdil.map (·.qname)
  · rw [grantQueueSlots_of_mem hmem, addSlots, List.map_eq_nil_iff] at hnil
    rw [hnil] at hmem
    nomatch hmem
  · rw [grantQueueSlots_of_notMem hmem] at hnil
    have hperm := parallelAddQueueToGdil_perm gdil ⟨qs.qname, host, qs.slots⟩
      qs.isMasterQueue
    rw [hnil] at hperm
    nomatch hperm.nil_eq

theorem sublist_foldl (l : List QueueSlots) :
    (gdil.map (·.host)).Sublist ((l.foldl (grantQueueSlots host) gdil).map (·.host)) := by
  induction l generalizing gdil with
  | nil => exact List.Sublist.refl _
  | cons qs l ih => exact sublist_grantQueueSlots.trans ih

theorem Grouped.foldl {l : List QueueSlots} (hslaves : ∀ qs ∈ l, qs.isMasterQueue = false)
    (h : Grouped gdil) : Grouped (l.foldl (grantQueueSlots host) gdil) := by
  induction l generalizing gdil with
  | nil => exact h
  | cons qs l ih =>
    obtain ⟨hqs, hl⟩ := List.forall_mem_cons.mp hslaves
    refine ih hl ?_
    by_cases hmem : qs.qname ∈ gdil.map (·.qname)
    · rw [grantQueueSlots_of_mem hmem]
      refine h.of_sublist ?_
      rw [addSlots_map_host]
    · rw [grantQueueSlots_of_notMem hmem, parallelAddQueueToGdil, if_neg (by simp [hqs])]
      exact h.insertBehindHost

variable (host) in
theorem head?_foldl {l : List QueueSlots} (hslaves : ∀ qs ∈ l, qs.isMasterQueue = false)
    (hne : gdil ≠ []) :
    ((l.foldl (grantQueueSlots host) gdil).map (·.qname)).head? = (gdil.map (·.qname)).head? := by
  induction l generalizing gdil with
  | nil => rfl
  | cons qs l ih =>
    obtain ⟨hqs, hl⟩ := List.forall_mem_cons.mp hslaves
    obtain ⟨x, gdil, rfl⟩ := List.exists_cons_of_ne_nil hne
    have hhead : ((grantQueueSlots host (x :: gdil) qs).map (·.qname)).head? =
        some x.qname := by
      by_cases hmem : qs.qname ∈ (x :: gdil).map (·.qname)
      · rw [grantQueueSlots_of_mem hmem, addSlots_map_qname]
        rfl
      · rw [grantQueueSlots_of_notMem hmem, parallelAddQueueToGdil, if_neg (by simp [hqs]),
          List.head?_map, head?_insertBehindHost]
        rfl
    rw [List.foldl_cons, ih hl, hhead]
    · rfl
    · intro hnil
      rw [hnil] at hhead
      nomatch hhead

end Shape

/-! ## The master queue in front -/

section MasterInFront

variable (job : ParallelJob)

/-- The list begins with the queue instance chosen for the master task, every queue instance
occurs once, and the elements of a host are neighbours. -/
structure Shape (s : ParallelState) : Prop where
  master : ∃ e tail, s.gdil = e :: tail ∧ s.masterQueue = some e.qname
  qnames_nodup : (s.gdil.map (·.qname)).Nodup
  grouped : Grouped s.gdil

/-- The visit that finds the master host also takes slots of a master queue. That comes first
without splitting its host: the host is new to the list or at the beginning of it, and the
queue instance is new or the first. -/
def MasterInFront (s : ParallelState) (o : HostOffer) : Prop :=
  ∀ host rest taken, s.rest = host :: rest → visitTaken job s host o = some taken →
    s.haveMasterHost = false → taken.2 = true →
    ∃ qs tail, taken.1.queueSlots = qs :: tail ∧ qs.isMasterQueue = true ∧
      (host ∉ s.gdil.map (·.host) ∨ ∃ e gdil, s.gdil = e :: gdil ∧ e.host = host ∧
        (qs.qname ∈ s.gdil.map (·.qname) → e.qname = qs.qname))

variable {job}

/-- The list begins with the master queue, as soon as there is a master host. -/
structure Front (s : ParallelState) : Prop where
  grouped : Grouped s.gdil
  master : s.haveMasterHost = true →
    (s.gdil.map (·.qname)).head? = s.masterQueue ∧ s.masterQueue ≠ none

theorem Front.init : Front (.init job) where
  grouped := fun _ _ h => nomatch h
  master := nofun

variable {host : String}

theorem grantMaster_iff {gdil : List GrantedSlots} {qs : QueueSlots} (hgranted : Granted job gdil)
    (hqs : qs.qname ∈ hostQnames job host) (hflag : qs.isMasterQueue = true) :
    Grouped (grantQueueSlots host gdil qs) ∧
        ((grantQueueSlots host gdil qs).map (·.qname)).head? = some qs.qname ↔
      Grouped gdil ∧ (host ∉ gdil.map (·.host) ∨ ∃ e tail, gdil = e :: tail ∧ e.host = host ∧
        (qs.qname ∈ gdil.map (·.qname) → e.qname = qs.qname)) := by
  by_cases hmem : qs.qname ∈ gdil.map (·.qname)
  · have hgrouped : Grouped (addSlots gdil qs) ↔ Grouped gdil := by
      rw [Grouped, addSlots_map_host, Grouped]
    rw [grantQueueSlots_of_mem hmem, addSlots_map_qname, hgrouped]
    refine and_congr_right fun _ => ⟨fun hhead => Or.inr ?_, ?_⟩
    · cases gdil with
      | nil => nomatch hhead
      | cons e tail =>
        have hname : e.qname = qs.qname := by simpa using hhead
        exact ⟨e, tail, rfl, hgranted.host_eq hqs e (.head _) hname, fun _ => hname⟩
    · rintro (hnone | ⟨e, tail, rfl, -, hname⟩)
      · obtain ⟨e, he, hname⟩ := List.mem_map.mp hmem
        exact absurd (List.mem_map.mpr ⟨e, he, hgranted.host_eq hqs e he hname⟩) hnone
      · simp [hname hmem]
  · rw [grantQueueSlots_of_notMem hmem, parallelAddQueueToGdil, if_pos hflag, grouped_cons]
    constructor
    · rintro ⟨⟨hhead, hgrouped⟩, -⟩
      refine ⟨hgrouped, or_iff_not_imp_left.mpr fun hhost => ?_⟩
      have hfirst := hhead (not_not.mp hhost)
      cases gdil with
      | nil => nomatch hfirst
      | cons e tail => exact ⟨e, tail, rfl, by simpa using hfirst, fun h => absurd h hmem⟩
    · rintro ⟨hgrouped, hplace⟩
      refine ⟨⟨fun hhost => ?_, hgrouped⟩, rfl⟩
      obtain ⟨e, tail, rfl, hehost, -⟩ := hplace.resolve_left fun hnone => hnone hhost
      simp [hehost]

variable {s : ParallelState} {o : HostOffer}

theorem slaves_of_not_found {hslots : ℤ} {taken : AllocateState × Bool}
    (hby : TakenBy job o host (minmaxSlots job s.haveMasterHost s.accuHostSlots) hslots
      s.haveMasterHost s.accuHostSlots (tagLimits job s.limits o) taken)
    (h : ¬ (s.haveMasterHost = false ∧ taken.2 = true)) :
    ∀ qs ∈ taken.1.queueSlots, qs.isMasterQueue = false :=
  hby.masterFirst.resolve_right fun hfirst => h ⟨hfirst.1, hfirst.2.1⟩

theorem ne_nil_of_haveMasterHost
    (h : (s.gdil.map (·.qname)).head? = s.masterQueue ∧ s.masterQueue ≠ none) : s.gdil ≠ [] := by
  rintro hnil
  rw [hnil] at h
  exact h.2 h.1.symm

variable {s' : ParallelState}

theorem Front.next (hs : Attempt job s)
    (h : Front s) (hfront : MasterInFront job s o) (hnext : visitNext job s o = some s') :
    Front s' := by
  obtain ⟨host, rest, hrest, ⟨-, hprogress⟩ | ⟨taken, hslots, htaken, -, hby, hprogress⟩⟩ :=
    visitNext_cases hnext
  all_goals
    have hgdil : s'.gdil = _ := congrArg Progress.gdil hprogress
    have hhave : s'.haveMasterHost = _ := congrArg Progress.haveMasterHost hprogress
    have hqueue : s'.masterQueue = _ := congrArg Progress.masterQueue hprogress
  · refine ⟨hgdil ▸ h.grouped, ?_⟩
    rw [hgdil, hhave, hqueue]
    exact h.master
  · by_cases hfound : s.haveMasterHost = false ∧ taken.2 = true
    · obtain ⟨qs, tail, heq, hflag, hplace⟩ := hfront host rest taken hrest htaken hfound.1
        hfound.2
      obtain ⟨-, got, hof⟩ := hby.taken
      have hslaves : ∀ qs ∈ tail, qs.isMasterQueue = false := by
        rcases hby.masterFirst with hnone | ⟨-, -, qs', tail', heq', -, -, hslaves⟩
        · exact absurd (hnone qs (by simp [heq])) (by simp [hflag])
        · obtain ⟨-, rfl⟩ := List.cons.inj (heq.symm.trans heq')
          exact hslaves
      have hmem := hof.mem qs (by simp [heq])
      obtain ⟨hgrouped, hhead⟩ := (grantMaster_iff hs.granted hmem hflag).mpr ⟨h.grouped, hplace⟩
      have hgdil' : s'.gdil = tail.foldl (grantQueueSlots host)
          (grantQueueSlots host s.gdil qs) := by
        rw [hgdil]
        simp only [Progress.grant, heq]
        rfl
      have hqueue' : s'.masterQueue = some qs.qname := by
        rw [hqueue]
        simp [Progress.grant, ParallelState.progress, hs.masterQueue hfound.1, heq, hflag]
      have hne := grantQueueSlots_ne_nil host s.gdil qs
      refine ⟨hgdil' ▸ hgrouped.foldl hslaves, fun _ => ⟨?_, by simp [hqueue']⟩⟩
      rw [hgdil', hqueue', head?_foldl _ hslaves hne, hhead]
    · have hslaves := slaves_of_not_found hby hfound
      refine ⟨hgdil ▸ h.grouped.foldl hslaves, fun hmaster => ?_⟩
      have hold : s.haveMasterHost = true := by
        rw [hhave] at hmaster
        by_contra hmissing
        have hmissing := Bool.eq_false_iff.mpr hmissing
        refine hfound ⟨hmissing, ?_⟩
        simpa [Progress.grant, ParallelState.progress, hmissing] using hmaster
      have hfirst := h.master hold
      have hsame : s'.masterQueue = s.masterQueue := by
        rw [hqueue]
        exact if_pos (Option.isSome_iff_ne_none.mpr hfirst.2)
      rw [hgdil, hsame]
      refine ⟨?_, hfirst.2⟩
      exact (head?_foldl _ hslaves (ne_nil_of_haveMasterHost hfirst)).trans hfirst.1

theorem Attempt.ne_nil (h : Attempt job s) (hmaster : s.haveMasterHost = true) : s.gdil ≠ [] := by
  intro hnil
  have hsum := h.sum
  rw [hnil, slotsOf_nil] at hsum
  exact (h.accu_pos hmaster).ne hsum

theorem Front.back (hs : Attempt job s)
    (hnext : visitNext job s o = some s') (h : s'.haveMasterHost = true → Front s') :
    (s.haveMasterHost = true → Front s) ∧ MasterInFront job s o := by
  obtain ⟨host, rest, hrest, ⟨hnone, hprogress⟩ | ⟨taken, hslots, htaken, -, hby, hprogress⟩⟩ :=
    visitNext_cases hnext
  all_goals
    have hgdil : s'.gdil = _ := congrArg Progress.gdil hprogress
    have hhave : s'.haveMasterHost = _ := congrArg Progress.haveMasterHost hprogress
    have hqueue : s'.masterQueue = _ := congrArg Progress.masterQueue hprogress
  · refine ⟨fun hmaster => ?_, fun host' rest' taken hrest' htaken => ?_⟩
    · have hfront := h (hhave.trans hmaster)
      have hgrouped := hfront.grouped
      have hfirst := hfront.master (hhave.trans hmaster)
      rw [hgdil] at hgrouped hfirst
      rw [hqueue] at hfirst
      exact ⟨hgrouped, fun _ => hfirst⟩
    · obtain ⟨rfl, rfl⟩ := List.cons.inj (hrest.symm.trans hrest')
      exact nomatch hnone.symm.trans htaken
  · refine ⟨fun hmaster => ?_, fun host' rest' taken' hrest' htaken' hmissing hfound => ?_⟩
    · have hmaster' : s'.haveMasterHost = true := by
        rw [hhave]
        simp [Progress.grant, ParallelState.progress, hmaster]
      have hfront := h hmaster'
      have hslaves := slaves_of_not_found hby (by simp [hmaster])
      have hgrouped := hfront.grouped
      rw [hgdil] at hgrouped
      obtain ⟨hhead, hsome⟩ := hfront.master hmaster'
      have hfind : taken.1.queueSlots.find? (·.isMasterQueue) = none :=
        List.find?_eq_none.mpr fun qs hqs => by simp [hslaves qs hqs]
      have hsame : s'.masterQueue = s.masterQueue := by
        rw [hqueue]
        cases hold : s.masterQueue <;>
          simp [Progress.grant, ParallelState.progress, hold, hfind]
      refine ⟨hgrouped.of_sublist (sublist_foldl _), fun _ => ?_⟩
      rw [hsame] at hhead hsome
      refine ⟨?_, hsome⟩
      rw [← hhead, hgdil]
      exact (head?_foldl _ hslaves (hs.ne_nil hmaster)).symm
    · obtain ⟨rfl, rfl⟩ := List.cons.inj (hrest.symm.trans hrest')
      obtain rfl := Option.some.inj (htaken.symm.trans htaken')
      have hmaster' : s'.haveMasterHost = true := by
        rw [hhave]
        simp [Progress.grant, hfound]
      have hfront := h hmaster'
      obtain ⟨hhead, hsome⟩ := hfront.master hmaster'
      rw [hqueue] at hhead hsome
      rcases hby.masterFirst with hslaves | ⟨-, -, qs, tail, heq, hflag, -, hslaves⟩
      · have hfind : taken.1.queueSlots.find? (·.isMasterQueue) = none :=
          List.find?_eq_none.mpr fun qs hqs => by simp [hslaves qs hqs]
        refine absurd ?_ hsome
        simp [Progress.grant, ParallelState.progress, hs.masterQueue hmissing, hfind]
      · obtain ⟨-, got, hof⟩ := hby.taken
        refine ⟨qs, tail, heq, hflag, ?_⟩
        have hgdil' : s'.gdil = tail.foldl (grantQueueSlots host)
            (grantQueueSlots host s.gdil qs) := by
          rw [hgdil]
          simp only [Progress.grant, heq]
          rfl
        have hqueue' : s'.masterQueue = some qs.qname := by
          rw [hqueue]
          simp [Progress.grant, ParallelState.progress, hs.masterQueue hmissing, heq, hflag]
        have hgrouped := hfront.grouped
        rw [hgdil'] at hgrouped
        have hmem := hof.mem qs (by simp [heq])
        refine ((grantMaster_iff hs.granted hmem hflag).mp
          ⟨hgrouped.of_sublist (sublist_foldl _), ?_⟩).2
        rw [← hqueue', ← (hfront.master hmaster').1, hgdil']
        exact (head?_foldl _ hslaves (grantQueueSlots_ne_nil _ _ _)).symm

/-- The shape of the list tells how the master queue was found. -/
theorem shape_iff (offers : List HostOffer) (s : ParallelState)
    (hrun : attemptRun job (.init job) offers = some s) (hok : s.isOk job) :
    Shape s ↔ EveryVisit job (MasterInFront job) (.init job) offers := by
  have hs := Attempt.of_run hrun
  have hmaster : s.haveMasterHost = true := (Bool.and_eq_true_iff.mp hok.2).2
  constructor
  · rintro ⟨⟨e, tail, heq, hqueue⟩, -, hgrouped⟩
    have hend : s.haveMasterHost = true → Front s := fun _ =>
      ⟨hgrouped, fun _ => by simp [heq, hqueue]⟩
    exact (EveryVisit.of_end (Attempt job) (fun s => s.haveMasterHost = true → Front s)
      (fun _ _ _ h hnext => h.next hnext) (fun _ _ _ h hnext hfront =>
        Front.back h hnext hfront) Attempt.init hrun hend).2
  · intro hvisits
    have hfront : Front s := Attempt.run_induct Front
      (fun _ _ _ hs h hvisit hnext => h.next hs hvisit hnext) Front.init hvisits hrun
    obtain ⟨hhead, -⟩ := hfront.master hmaster
    obtain ⟨e, tail, heq⟩ := List.exists_cons_of_ne_nil (hs.ne_nil hmaster)
    refine ⟨⟨e, tail, heq, ?_⟩, hs.granted.qnames_nodup, hfront.grouped⟩
    rw [← hhead, heq]
    rfl

end MasterInFront

/-- Three slots in rounds over two hosts. The master task is to run in `a2`. -/
def roundRobinJob : ParallelJob where
  slots := 3
  rules := ⟨none, some "$round_robin"⟩
  mallocationParsed := 0
  allocationParsed := allocRuleRoundrobin
  globalSlots := 3
  isSoft := false
  noRqs := false
  haveMasterAndSlaveQueueRequest := false
  slaveRejected := fun _ => false
  queues := [⟨"b1", "b", 0⟩, ⟨"a1", "a", 0⟩, ⟨"a2", "a", 0⟩]
  hosts := ["b", "a"]
  limitNames := fun _ => []
  parsed := by decide +kernel
  limitNames_nodup := fun _ => List.nodup_nil

/-- Every one of these queue instances offers a slot. -/
def offersIn (qnames : List String) : HostOffer where
  skipped := false
  hostSlots := 2
  tag := fun name => if name ∈ qnames then 1 else 0
  master := fun name => name == "a2"
  newLimits := []

def attemptEnd (job : ParallelJob) (offers : List HostOffer) : ParallelState :=
  (attemptRun job (.init job) offers).getD (.init job)

/-- With `a1` in use the master queue is found in the first round. -/
theorem shape_iff_in_order :
    Shape (attemptEnd roundRobinJob (List.replicate 3 (offersIn ["b1", "a2"]))) ↔
      EveryVisit roundRobinJob (MasterInFront roundRobinJob) (.init roundRobinJob)
        (List.replicate 3 (offersIn ["b1", "a2"])) :=
  shape_iff _ _ rfl ⟨by decide +kernel, by decide +kernel⟩

/-- The first round takes slots of `b1` and `a1`, the second one finds the master queue `a2`.
It is put before `b1`, and `a1` stays behind. -/
theorem shape_split :
    ¬ ∀ job offers s, attemptRun job (.init job) offers = some s → s.isOk job → Shape s := by
  intro h
  have hgdil : (attemptEnd roundRobinJob
      (List.replicate 4 (offersIn ["b1", "a1", "a2"]))).gdil.map (·.host) = ["a", "b", "a"] := by
    decide +kernel
  have hshape : Shape (attemptEnd roundRobinJob
      (List.replicate 4 (offersIn ["b1", "a1", "a2"]))) :=
    h roundRobinJob (List.replicate 4 (offersIn ["b1", "a1", "a2"])) _ rfl
      ⟨by decide +kernel, by decide +kernel⟩
  have hgrouped := hshape.grouped "a" "b" (hgdil ▸ List.Sublist.refl _)
  exact absurd hgrouped (by decide)

end ClusterScheduler.Sched
