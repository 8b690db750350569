import ClusterScheduler.Qmaster.HostGroupRequests
import ClusterScheduler.Sgeobj.HostGroupResolution

/-! # The graph of the host groups

References between groups never form a cycle, whatever requests the qmaster is
sent (`GroupsOk`, `handle_ok`), so that both walks return and with them every
request (`handle_returns`).

- `ModifiedOk` — what `hgroupMod` guarantees of a group it accepts: each reference
  was there before, or it names a group that does not lead back.
- `acyclic_chainIn` — such a group may take its place in the list.
- `ClosedNames` — every reference names a group. Names are compared by their first
  255 characters only, so this needs references that the comparison tells apart
  from the names of other groups (`Exact`); see `longReference_accepted`.
-/

namespace ClusterScheduler.Qmaster

open Relation Foundation Sgeobj

variable {B : Bootstrap} {E : Environment}

/-! ## Lists of groups with the same members -/

/-- The same groups, in any order and with any caches. -/
def SameGroups (M M' : List HGroup) : Prop := ∀ p, p ∈ skeleton M ↔ p ∈ skeleton M'

variable {M' : List HGroup}

theorem SameGroups.symm {M : List HGroup} (h : SameGroups M M') : SameGroups M' M :=
  fun p => (h p).symm

theorem SameGroups.of_perm {M : List HGroup} (h : M.Perm M') : SameGroups M M' :=
  fun _ => (h.map _).mem_iff

theorem SameGroups.of_skeleton {M : List HGroup} (h : skeleton M = skeleton M') : SameGroups M M' :=
  fun p => by rw [h]

theorem SameGroups.refers {M : List HGroup} (h : SameGroups M M') (a b : Name) :
    Refers B M a b ↔ Refers B M' a b := by
  rw [refers_skeleton, refers_skeleton]
  exact exists_congr fun p => and_congr_left' (h p)

theorem SameGroups.acyclic {M : List HGroup} (h : SameGroups M M')
    (hM : Acyclic (Refers B M)) : Acyclic (Refers B M') :=
  hM.mono fun a b => (h.refers a b).mpr

/-! ## Members of the new list -/

theorem mem_matchKnown (sub : SubCommand) (n : ℕ) (full reduced : List Name) (x : Name) :
    (x ∈ (matchKnown B sub n full reduced).1 → x ∈ full) ∧
      (x ∈ (matchKnown B sub n full reduced).2.1 → x ∈ reduced) := by
  induction n generalizing full reduced with
  | zero => exact ⟨id, id⟩
  | succ n ih =>
    unfold matchKnown
    split
    · exact ⟨id, id⟩
    · split_ifs
      · exact ⟨(ih _ _).1, fun h => List.mem_of_mem_erase ((ih _ _).2 h)⟩
      · exact ⟨id, List.mem_of_mem_erase⟩
      · exact ⟨fun h => List.mem_of_mem_eraseP ((ih _ _).1 h),
          fun h => List.mem_of_mem_erase ((ih _ _).2 h)⟩

variable {sub : SubCommand} {x : Name}

theorem mem_attrModSubList {full reduced : List Name}
    (h : x ∈ attrModSubList B sub full reduced) : x ∈ full ∨ x ∈ reduced := by
  have hknown := mem_matchKnown (B := B) sub reduced.length full reduced x
  unfold attrModSubList at h
  split at h
  · revert hknown h
    rcases matchKnown B sub reduced.length full reduced with ⟨full', rest, _ | _⟩
    · exact fun hknown h => .inl (hknown.1 h)
    · intro hknown h
      dsimp only at h
      split at h
      · exact .inl (hknown.1 h)
      · exact (List.mem_append.mp h).imp hknown.1 hknown.2
  · exact .inr h

variable {list : List Name}

theorem mem_dropRepeated {done : List Name} (h : x ∈ dropRepeated B done list) :
    x ∈ done ∨ x ∈ list := by
  induction list generalizing done with
  | nil => exact .inl h
  | cons name list ih =>
    unfold dropRepeated at h
    split at h
    · exact (ih h).imp_right (List.mem_cons_of_mem _)
    · rcases ih h with hx | hx
      · rcases List.mem_append.mp hx with hx | hx
        · exact .inl hx
        · exact .inr (List.mem_singleton.mp hx ▸ (.head _))
      · exact .inr (.tail _ hx)

theorem mem_hrefListMakeUniq {hashed : Bool}
    (h : x ∈ hrefListMakeUniq B hashed list) : x ∈ list := by
  unfold hrefListMakeUniq at h
  split at h
  · have := mem_dropRepeated (List.mem_reverse.mp h)
    simpa using this
  · simpa using mem_dropRepeated h

theorem mem_resolveHostnames {resolved : List Name} {ignoreErrors : Bool}
    (h : hrefListResolveHostnames E list ignoreErrors = some resolved)
    (hx : x ∈ resolved) : ∃ name ∈ list, x = name ∨ E.resolve name = some x := by
  unfold hrefListResolveHostnames at h
  induction list generalizing resolved with
  | nil =>
    obtain rfl : [] = resolved := by simpa using h
    cases hx
  | cons name list ih =>
    rw [List.mapM_cons] at h
    obtain ⟨y, hy, hrest⟩ := Option.bind_eq_some_iff.mp h
    obtain ⟨ys, hys, heq⟩ := Option.bind_eq_some_iff.mp hrest
    obtain rfl : y :: ys = resolved := by simpa using heq
    rcases List.mem_cons.mp hx with rfl | hx
    · refine ⟨name, .head _, ?_⟩
      split at hy
      · exact .inl (Option.some.inj hy).symm
      · exact absurd hy (by simp)
      · split at hy
        · right
          rw [← hy]
          assumption
        · split at hy
          · exact .inl (Option.some.inj hy).symm
          · exact absurd hy (by simp)
    · obtain ⟨name', hname', hres⟩ := ih hys hx
      exact ⟨name', .tail _ hname', hres⟩

/-! ## What is accepted -/

variable (B) in
/-- Each reference of the group was there before, or it names a group that does not
lead back. -/
def MembersOk (M : List HGroup) (g : HGroup) : Prop :=
  ∀ r ∈ g.hostList, isHgroupName r = true →
    Refers B M (hostKey B g.name) (hostKey B r) ∨
    (∃ g' ∈ M, hostKey B g'.name = hostKey B r) ∧
      ¬ ReflTransGen (Refers B M) (hostKey B r) (hostKey B g.name)

variable {name : Name}

theorem exists_of_locate {M : List HGroup} (h : (hgroupListLocate B M name).isSome = true) :
    ∃ g ∈ M, hostKey B g.name = hostKey B name := by
  obtain ⟨g, hg, hkey⟩ := List.find?_isSome.mp h
  exact ⟨g, hg, by simpa using hkey⟩

theorem reference_checked {M : List HGroup} {fuel : ℕ} {r : Name}
    {addGroups occupants : List Name} (hr : hrefListHasMember B addGroups r = true)
    (hgroup : isHgroupName r = true) (hexists : hgroupListExists B M addGroups = true)
    (hup : hgroupFindAllReferencees B M fuel name = some occupants)
    (hcycle : addGroups.any (hrefListHasMember B (hrefListAdd B occupants name)) = false) :
    (∃ g' ∈ M, hostKey B g'.name = hostKey B r) ∧
      ¬ ReflTransGen (Refers B M) (hostKey B r) (hostKey B name) := by
  obtain ⟨x, hx, hxkey⟩ := hrefListHasMember_iff.mp hr
  constructor
  · have hlocate := List.all_eq_true.mp hexists x hx
    rw [isHgroupName_of_hostKey hxkey, hgroup, Bool.not_true, Bool.false_or] at hlocate
    obtain ⟨g, hg, hkey⟩ := exists_of_locate hlocate
    exact ⟨g, hg, hkey.trans hxkey⟩
  · intro hpath
    have hno := List.any_eq_false.mp hcycle x hx
    refine hno (hasMember_hrefListAdd.mpr ?_)
    rw [← hxkey] at hpath
    rcases reflTransGen_iff_eq_or_transGen.mp hpath with heq | hpath
    · exact .inr heq
    · left
      have hname : isHgroupName name = true := by
        obtain ⟨_, -, _, -, -, r', -, hr', hkey⟩ := TransGen.tail'_iff.mp hpath
        rw [← isHgroupName_of_hostKey hkey, hr']
      exact findAllReferencees_complete hup
        (by simp [hrefListAdd, hrefListHasMember, hrefListLocate]) hname hpath

variable {hgroup : HGroup} {m : Modified}

theorem hgroupModHostlist_accepts {M : List HGroup} {fuel : ℕ}
    (h : hgroupModHostlist B E fuel M hgroup list sub = some (.ok m)) :
    ∃ resolved diffHosts addHosts remHosts occupants before after,
      hrefListResolveHostnames E list true = some resolved ∧
      m.hgroup.name = hgroup.name ∧
      m.hgroup.hostList =
        hrefListMakeUniq B E.hashed (attrModSubList B sub hgroup.hostList resolved) ∧
      hgroupListExists B M (hrefListCompare B m.hgroup.hostList hgroup.hostList).groups = true ∧
      hrefListFindEffectiveDiff B fuel M (hrefListCompare B m.hgroup.hostList hgroup.hostList)
        (hrefListCompare B hgroup.hostList m.hgroup.hostList) = some (diffHosts, remHosts) ∧
      hrefListResolveHostnames E diffHosts false = some addHosts ∧
      hgroupFindAllReferencees B M fuel hgroup.name = some occupants ∧
      (hrefListCompare B m.hgroup.hostList hgroup.hostList).groups.any
        (hrefListHasMember B (hrefListAdd B occupants hgroup.name)) = false ∧
      findAllReferences B M fuel hgroup.hostList ⟨[], []⟩ = some before ∧
      findAllReferences B M fuel m.hgroup.hostList ⟨[], []⟩ = some after ∧
      m.addHosts = hrefListRemoveExisting B addHosts before.hosts ∧
      m.remHosts = hrefListRemoveExisting B remHosts after.hosts := by
  unfold hgroupModHostlist at h
  cases hres : hrefListResolveHostnames E list true with
  | none => simp [hres] at h
  | some resolved =>
  rw [hres] at h
  dsimp only at h
  split at h
  case isTrue => simp at h
  split at h
  case isTrue => simp at h
  split at h
  case isTrue => simp at h
  case isFalse hexists =>
  obtain ⟨⟨diffHosts, remHosts⟩, hdiff, h⟩ := Option.bind_eq_some_iff.mp h
  dsimp only at h
  split at h
  · simp at h
  next addHosts hadd =>
  obtain ⟨occupants, hup, h⟩ := Option.bind_eq_some_iff.mp h
  split at h
  case isTrue => simp at h
  case isFalse hcycle =>
  obtain ⟨before, hbefore, h⟩ := Option.bind_eq_some_iff.mp h
  obtain ⟨after, hafter, h⟩ := Option.bind_eq_some_iff.mp h
  obtain rfl := Except.ok.inj (Option.some.inj h)
  exact ⟨resolved, diffHosts, addHosts, remHosts, occupants, before, after, rfl, rfl, rfl,
    by simpa [hrefListFindDiff] using hexists, hdiff, hadd, hup,
    by simpa [hrefListFindDiff] using hcycle, hbefore, hafter, rfl, rfl⟩

theorem hgroupModHostlist_ok {M : List HGroup} {fuel : ℕ}
    (h : hgroupModHostlist B E fuel M hgroup list sub = some (.ok m))
    (hold : ∀ r ∈ hgroup.hostList, isHgroupName r = true →
      Refers B M (hostKey B hgroup.name) (hostKey B r)) :
    m.hgroup.name = hgroup.name ∧ MembersOk B M m.hgroup ∧
      ∀ r ∈ m.hgroup.hostList,
        r ∈ hgroup.hostList ∨ ∃ name ∈ list, r = name ∨ E.resolve name = some r := by
  obtain ⟨resolved, -, -, -, occupants, -, -, hres, hname, hhrefs, hexists, -, -, hup, hcycle, -⟩ :=
    hgroupModHostlist_accepts h
  refine ⟨hname, fun r hr hgroupname => ?_, fun r hr => ?_⟩
  · rw [hname]
    by_cases hmem : hrefListHasMember B hgroup.hostList r = true
    · left
      obtain ⟨r', hr', hkey⟩ := hrefListHasMember_iff.mp hmem
      rw [← hkey]
      exact hold r' hr' (by rw [isHgroupName_of_hostKey hkey, hgroupname])
    · right
      have hadded := (hrefListCompare_lists (B := B) m.hgroup.hostList hgroup.hostList).2
      exact reference_checked
        (hadded.complete r ⟨hgroupname, hr, Bool.eq_false_iff.mpr hmem⟩)
        hgroupname hexists hup hcycle
  · rw [hhrefs] at hr
    rcases mem_attrModSubList (mem_hrefListMakeUniq hr) with hr | hr
    · exact .inl hr
    · exact .inr (mem_resolveHostnames hres hr)

theorem perm_dechain_locate (M : List HGroup) (name : Name) :
    (dechain B M name ++ (hgroupListLocate B M name).toList).Perm M := by
  unfold dechain hgroupListLocate
  induction M with
  | nil => exact .refl _
  | cons g M ih =>
    by_cases hkey : hostKey B g.name = hostKey B name
    · rw [List.eraseP_cons_of_pos (by simpa using hkey), List.find?_cons_of_pos (by simpa using hkey)]
      exact List.perm_append_singleton g M
    · rw [List.eraseP_cons_of_neg (by simpa using hkey), List.find?_cons_of_neg (by simpa using hkey)]
      exact ih.cons g

theorem queueRounds_perm {fuel : ℕ} {cqueues : List CQueue}
    {M : List HGroup} {ok : Bool} (h : queueRounds B E fuel m cqueues M = some (ok, M')) :
    M'.Perm M := by
  induction cqueues generalizing M with
  | nil =>
    obtain ⟨-, rfl⟩ := Prod.mk.inj (Option.some.inj h)
    exact .refl _
  | cons cqueue cqueues ih =>
    unfold queueRounds at h
    split at h
    · obtain ⟨before, -, h⟩ := Option.bind_eq_some_iff.mp h
      obtain ⟨after, -, h⟩ := Option.bind_eq_some_iff.mp h
      dsimp only at h
      split at h
      · exact (ih h).trans (perm_dechain_locate M m.hgroup.name)
      · obtain ⟨-, rfl⟩ := Prod.mk.inj (Option.some.inj h)
        exact perm_dechain_locate M m.hgroup.name
    · exact ih h

variable {result : Except HgroupError HGroup}

theorem hgroupModQueues_spec {fuel : ℕ} {M : List HGroup}
    (h : hgroupModQueues B E fuel M m = some (result, M')) :
    M'.Perm M ∧ ∀ hgroup, result = .ok hgroup → hgroup = m.hgroup := by
  unfold hgroupModQueues at h
  split at h
  · cases h
    exact ⟨.refl _, fun _ heq => by simp at heq⟩
  · obtain ⟨⟨ok, M₁⟩, hrounds, h⟩ := Option.map_eq_some_iff.mp h
    have hperm := queueRounds_perm hrounds
    dsimp only at h
    split_ifs at h <;> obtain ⟨rfl, rfl⟩ := Prod.mk.inj h <;> refine ⟨hperm, fun _ heq => ?_⟩
    · simp at heq
    · simp at heq
    · exact (Except.ok.inj heq).symm

variable {add : Bool}

variable {hgroup' : HGroup}

/-- The name is that of the request for a new group, and stays otherwise. -/
theorem hgroupModName_ok (h : hgroupModName B hgroup name add = .ok hgroup') :
    hgroup'.hostList = hgroup.hostList ∧
      hgroup'.name = if add then name else hgroup.name := by
  unfold hgroupModName at h
  split_ifs at h with _ hadd <;> obtain rfl := Except.ok.inj h
  · exact ⟨rfl, by rw [if_pos hadd]⟩
  · exact ⟨rfl, by rw [if_neg hadd]⟩

variable {elem : ReducedElem}

theorem hgroupMod_spec {fuel : ℕ} {M : List HGroup}
    (h : hgroupMod B E fuel M hgroup elem add = some (result, M'))
    (hold : ∀ r ∈ hgroup.hostList, isHgroupName r = true →
      Refers B M (hostKey B (if add then elem.name else hgroup.name)) (hostKey B r)) :
    M'.Perm M ∧ ∀ hgroup', result = .ok hgroup' →
      hgroup'.name = (if add then elem.name else hgroup.name) ∧ MembersOk B M hgroup' ∧
      ∀ r ∈ hgroup'.hostList, r ∈ hgroup.hostList ∨
        ∃ list, elem.hostList = some list ∧
          ∃ name ∈ list, r = name ∨ E.resolve name = some r := by
  unfold hgroupMod at h
  split at h
  · cases h
    exact ⟨.refl _, fun _ heq => by simp at heq⟩
  case h_2 named hnamed =>
  obtain ⟨hlist, hname⟩ := hgroupModName_ok hnamed
  rw [← hname, ← hlist] at hold
  split at h
  · cases h
    refine ⟨.refl _, fun hgroup' heq => ?_⟩
    obtain rfl := Except.ok.inj heq
    exact ⟨hname, fun r hr hgroup => .inl (hold r hr hgroup), fun r hr => .inl (hlist ▸ hr)⟩
  case h_2 list hsome =>
  obtain ⟨modified, hmodified, h⟩ := Option.bind_eq_some_iff.mp h
  cases modified with
  | error e =>
    cases h
    exact ⟨.refl _, fun _ heq => by simp at heq⟩
  | ok m =>
    obtain ⟨hmname, hmembers, hfrom⟩ := hgroupModHostlist_ok hmodified hold
    obtain ⟨hperm, hsame⟩ := hgroupModQueues_spec h
    refine ⟨hperm, fun hgroup' heq => ?_⟩
    obtain rfl := hsame hgroup' heq
    refine ⟨hmname.trans hname, hmembers, fun r hr => ?_⟩
    rcases hfrom r hr with hr | hr
    · exact .inl (hlist ▸ hr)
    · exact .inr ⟨list, hsome, hr⟩

/-! ## One group in the place of another -/

variable {a b : Name}

theorem refers_chainIn {M : List HGroup} {g : HGroup} (h : Refers B (chainIn B M g) a b) :
    Refers B M a b ∨ a = hostKey B g.name ∧
      ∃ r ∈ g.hostList, isHgroupName r = true ∧ hostKey B r = b := by
  obtain ⟨g', hg', hname, hr⟩ := h
  rcases List.mem_append.mp hg' with hg' | hg'
  · exact .inl ⟨g', List.mem_of_mem_eraseP hg', hname, hr⟩
  · obtain rfl := List.mem_singleton.mp hg'
    exact .inr ⟨hname.symm, hr⟩

/-- **No cycle**: a group with checked references may take its place. -/
theorem acyclic_chainIn {M : List HGroup} {g : HGroup} (hM : Acyclic (Refers B M))
    (hg : MembersOk B M g) : Acyclic (Refers B (chainIn B M g)) := by
  refine hM.redirect (v := hostKey B g.name)
    (T := fun b => ¬ ReflTransGen (Refers B M) b (hostKey B g.name)) (fun a b hab => ?_)
    fun t ht => ht
  rcases refers_chainIn hab with hab | ⟨rfl, r, hr, hgroup, rfl⟩
  · exact .inl hab
  · exact (hg r hr hgroup).imp id fun h => ⟨rfl, h.2⟩

theorem mem_chainIn_of_mem {M : List HGroup} {g g' : HGroup} (h : g' ∈ M)
    (hkey : hostKey B g'.name ≠ hostKey B g.name) : g' ∈ chainIn B M g :=
  List.mem_append_left _ ((List.mem_eraseP_of_neg (by simpa using hkey)).mpr h)

theorem hostKey_of_mem_dechain {M : List HGroup} (h : Distinct B M) {g : HGroup}
    (hg : g ∈ dechain B M name) : hostKey B g.name ≠ hostKey B name := by
  intro hkey
  have hperm := perm_dechain_locate (B := B) M name
  rw [h.locate (List.mem_of_mem_eraseP hg) hkey] at hperm
  have hnodup := (hperm.map fun g : HGroup => hostKey B g.name).nodup_iff.mpr h
  rw [List.map_append, List.nodup_append] at hnodup
  exact hnodup.2.2 _ (List.mem_map_of_mem hg) _ (by simp) rfl

theorem distinct_dechain {M : List HGroup} (h : Distinct B M) (name : Name) :
    Distinct B (dechain B M name) :=
  List.Nodup.sublist ((List.eraseP_sublist).map _) h

theorem distinct_chainIn {M : List HGroup} (h : Distinct B M) (g : HGroup) :
    Distinct B (chainIn B M g) := by
  unfold Distinct chainIn
  rw [List.map_append, List.nodup_append]
  refine ⟨distinct_dechain h g.name, List.nodup_singleton _, ?_⟩
  rintro a ha b hb rfl
  obtain ⟨g', hg', rfl⟩ := List.mem_map.mp ha
  exact hostKey_of_mem_dechain h hg' (by simpa using hb)

theorem distinct_of_perm {M : List HGroup} (hperm : M'.Perm M) (h : Distinct B M) : Distinct B M' :=
  (hperm.map _).nodup_iff.mpr h

/-! ## Names instead of keys -/

/-- A group called `a` has a reference to `b`, both without case. -/
def NameRefers (M : List HGroup) (a b : Name) : Prop :=
  ∃ g ∈ M, foldName g.name = a ∧
    ∃ r ∈ g.hostList, isHgroupName r = true ∧ foldName r = b

/-- Every reference names a group. -/
def ClosedNames (M : List HGroup) : Prop :=
  ∀ g ∈ M, ∀ r ∈ g.hostList, isHgroupName r = true → ∃ g' ∈ M, foldName g'.name = foldName r

theorem SameGroups.closedNames {M : List HGroup} (h : SameGroups M M') (hM : ClosedNames M) :
    ClosedNames M' := by
  intro g hg r hr hgroup
  obtain ⟨g₁, hg₁, heq⟩ := List.mem_map.mp ((h _).mpr (List.mem_map_of_mem hg))
  rw [Prod.mk.injEq] at heq
  obtain ⟨g₂, hg₂, hname⟩ := hM g₁ hg₁ r (heq.2 ▸ hr) hgroup
  obtain ⟨g₃, hg₃, heq₃⟩ := List.mem_map.mp ((h _).mp (List.mem_map_of_mem hg₂))
  rw [Prod.mk.injEq] at heq₃
  exact ⟨g₃, hg₃, heq₃.1 ▸ hname⟩

theorem transGen_refers {M : List HGroup} (h : TransGen (NameRefers M) a b)
    (ha : isHgroupName a = true) :
    isHgroupName b = true ∧ TransGen (Refers B M) (hostKey B a) (hostKey B b) := by
  have hstep : ∀ {a b : Name}, isHgroupName a = true → NameRefers M a b →
      isHgroupName b = true ∧ Refers B M (hostKey B a) (hostKey B b) := by
    rintro a b ha ⟨g, hg, rfl, r, hr, hgroup, rfl⟩
    rw [isHgroupName_foldName] at ha ⊢
    exact ⟨hgroup, g, hg, hostKey_of_foldName B ha (foldName_foldName _).symm, r, hr, hgroup,
      hostKey_of_foldName B hgroup (foldName_foldName _).symm⟩
  induction h with
  | single hedge => exact ⟨(hstep ha hedge).1, .single (hstep ha hedge).2⟩
  | tail _ hedge ih => exact ⟨(hstep ih.1 hedge).1, ih.2.tail (hstep ih.1 hedge).2⟩

theorem acyclic_nameRefers {M : List HGroup} (h : Acyclic (Refers B M)) :
    Acyclic (NameRefers M) := by
  intro a hcycle
  have ha : isHgroupName a = true := by
    obtain ⟨_, -, _, -, -, r, -, hr, rfl⟩ := TransGen.tail'_iff.mp hcycle
    rw [isHgroupName_foldName, hr]
  exact h _ (transGen_refers hcycle ha).2

theorem transGen_nameRefers {M : List HGroup} (hdistinct : Distinct B M) (hclosed : ClosedNames M)
    (h : TransGen (Refers B M) a b) {g : HGroup} (hg : g ∈ M) (hkey : hostKey B g.name = a) :
    ∃ g' ∈ M, hostKey B g'.name = b ∧
      TransGen (NameRefers M) (foldName g.name) (foldName g'.name) := by
  have hstep : ∀ {a b : Name}, Refers B M a b → ∀ g ∈ M, hostKey B g.name = a →
      ∃ g' ∈ M, hostKey B g'.name = b ∧ NameRefers M (foldName g.name) (foldName g'.name) := by
    rintro a b ⟨g₁, hg₁, hkey₁, r, hr, hgroup, rfl⟩ g hg hkey
    obtain rfl := hdistinct.eq_of_key hg hg₁ (hkey.trans hkey₁.symm)
    obtain ⟨g', hg', hname⟩ := hclosed g hg r hr hgroup
    exact ⟨g', hg', (hostKey_of_foldName B hgroup hname.symm).symm, g, hg, rfl, r, hr, hgroup,
      hname.symm⟩
  induction h with
  | single hedge =>
    obtain ⟨g', hg', hkey', hedge'⟩ := hstep hedge g hg hkey
    exact ⟨g', hg', hkey', .single hedge'⟩
  | tail _ hedge ih =>
    obtain ⟨g₁, hg₁, hkey₁, hpath⟩ := ih
    obtain ⟨g', hg', hkey', hedge'⟩ := hstep hedge g₁ hg₁ hkey₁
    exact ⟨g', hg', hkey', hpath.tail hedge'⟩

theorem acyclic_refers {M : List HGroup} (hdistinct : Distinct B M) (hclosed : ClosedNames M)
    (h : Acyclic (NameRefers M)) : Acyclic (Refers B M) := by
  intro a hcycle
  obtain ⟨_, ⟨g, hg, hkey, -⟩, -⟩ := TransGen.head'_iff.mp hcycle
  obtain ⟨g', hg', hkey', hpath⟩ := transGen_nameRefers hdistinct hclosed hcycle hg hkey
  obtain rfl := hdistinct.eq_of_key hg hg' (hkey.trans hkey'.symm)
  exact h _ hpath

/-! ## Every reference names a group -/

/-- The comparison of host fields takes none of the request's references for the name
of another group. -/
def Exact (B : Bootstrap) (E : Environment) (M : List HGroup) : Request → Prop
  | .delete _ => True
  | .add elem | .modify elem =>
    ∀ list, elem.hostList = some list → ∀ name ∈ list, ∀ r, r = name ∨ E.resolve name = some r →
      isHgroupName r = true → ∀ g ∈ M, hostKey B g.name = hostKey B r →
        foldName g.name = foldName r

theorem closedNames_chainIn {M : List HGroup} {g : HGroup} (hM : ClosedNames M)
    (hreplaces : ∀ g' ∈ M, hostKey B g'.name = hostKey B g.name → foldName g'.name = foldName g.name)
    (hg : ∀ r ∈ g.hostList, isHgroupName r = true → ∃ g' ∈ M, foldName g'.name = foldName r) :
    ClosedNames (chainIn B M g) := by
  have hstill : ∀ r, (∃ g' ∈ M, foldName g'.name = foldName r) →
      ∃ g' ∈ chainIn B M g, foldName g'.name = foldName r := by
    rintro r ⟨g', hg', hname⟩
    by_cases hkey : hostKey B g'.name = hostKey B g.name
    · exact ⟨g, List.mem_append_right _ (List.mem_singleton_self g),
        (hreplaces g' hg' hkey).symm.trans hname⟩
    · exact ⟨g', mem_chainIn_of_mem hg' hkey, hname⟩
  intro g₁ hg₁ r hr hgroup
  rcases List.mem_append.mp hg₁ with hg₁ | hg₁
  · exact hstill r (hM g₁ (List.mem_of_mem_eraseP hg₁) r hr hgroup)
  · obtain rfl := List.mem_singleton.mp hg₁
    exact hstill r (hg r hr hgroup)

theorem members_name_groups {M : List HGroup} (hM : ClosedNames M)
    (hexact : ∀ list, elem.hostList = some list → ∀ name ∈ list, ∀ r,
      r = name ∨ E.resolve name = some r → isHgroupName r = true →
      ∀ g ∈ M, hostKey B g.name = hostKey B r → foldName g.name = foldName r)
    (hold : hgroup ∈ M ∨ hgroup.hostList = []) (hmembers : MembersOk B M hgroup')
    (hfrom : ∀ r ∈ hgroup'.hostList, r ∈ hgroup.hostList ∨ ∃ list, elem.hostList = some list ∧
      ∃ name ∈ list, r = name ∨ E.resolve name = some r) :
    ∀ r ∈ hgroup'.hostList, isHgroupName r = true → ∃ g' ∈ M, foldName g'.name = foldName r := by
  intro r hr hgroupname
  rcases hfrom r hr with hin | ⟨list, hlist, name, hname, hres⟩
  · rcases hold with hold | hold
    · exact hM hgroup hold r hin hgroupname
    · exact absurd (hold ▸ hin) List.not_mem_nil
  -- some group has the key, so it has the name
  · have hkey : ∃ g' ∈ M, hostKey B g'.name = hostKey B r := by
      rcases hmembers r hr hgroupname with ⟨g₁, hg₁, -, r₁, hr₁, hgroup₁, hkey₁⟩ | ⟨hkey, -⟩
      · obtain ⟨g', hg', hname'⟩ := hM g₁ hg₁ r₁ hr₁ hgroup₁
        exact ⟨g', hg', (hostKey_of_foldName B hgroup₁ hname'.symm).symm.trans hkey₁⟩
      · exact hkey
    obtain ⟨g', hg', hkey⟩ := hkey
    exact ⟨g', hg', hexact list hlist name hname r hres hgroupname g' hg' hkey⟩

/-! ## One request -/

/-- What holds of the master list in every state. -/
structure GroupsOk (B : Bootstrap) (M : List HGroup) : Prop where
  distinct : Distinct B M
  acyclic : Acyclic (Refers B M)

theorem GroupsOk.of_perm {M : List HGroup} (hperm : M'.Perm M) (h : GroupsOk B M) : GroupsOk B M' :=
  ⟨distinct_of_perm hperm h.distinct, (SameGroups.of_perm hperm.symm).acyclic h.acyclic⟩

theorem GroupsOk.of_skeleton {M : List HGroup} (hsk : skeleton M' = skeleton M)
    (h : GroupsOk B M) : GroupsOk B M' :=
  ⟨(distinct_skeleton hsk).mpr h.distinct, (SameGroups.of_skeleton hsk.symm).acyclic h.acyclic⟩

/-- An accepted change, with the new group `g` in its place. -/
theorem chainIn_ok {M M₁ : List HGroup} {g : HGroup} (hM : GroupsOk B M) (hperm : M₁.Perm M)
    (hg : MembersOk B M g) : GroupsOk B (chainIn B M₁ g) := by
  have hsame := SameGroups.of_perm hperm
  refine ⟨distinct_chainIn (distinct_of_perm hperm hM.distinct) g,
    acyclic_chainIn (hsame.symm.acyclic hM.acyclic) fun r hr hgroup => ?_⟩
  refine (hg r hr hgroup).imp (hsame.refers _ _).mpr ?_
  rintro ⟨⟨g', hg', hkey⟩, hback⟩
  refine ⟨⟨g', hperm.mem_iff.mpr hg', hkey⟩, fun hpath => hback ?_⟩
  exact ReflTransGen.mono (fun a b hab => (hsame.refers a b).mp hab) _ _ hpath

theorem old_members {M : List HGroup}
    (hadd : ¬ (add && (hgroupListLocate B M elem.name).isSome) = true)
    (hmod : ¬ (!add && (hgroupListLocate B M elem.name).isNone) = true) :
    let hgroup := (hgroupListLocate B M elem.name).getD emptyGroup
    let name := if add then elem.name else hgroup.name
    (hgroup ∈ M ∨ hgroup.hostList = []) ∧
      (∀ r ∈ hgroup.hostList, isHgroupName r = true → Refers B M (hostKey B name) (hostKey B r)) ∧
      (Distinct B M → ∀ g' ∈ M, hostKey B g'.name = hostKey B name → g'.name = name) := by
  cases hlocate : hgroupListLocate B M elem.name with
  | none =>
    obtain rfl : add = true := by simpa [hlocate] using hmod
    refine ⟨.inr rfl, List.forall_mem_nil _, fun _ g' hg' hkey => ?_⟩
    have := List.find?_eq_none.mp hlocate g' hg'
    exact absurd hkey (by simpa using this)
  | some g =>
    obtain rfl : add = false := by simpa [hlocate] using hadd
    have hg : g ∈ M := List.mem_of_find?_eq_some hlocate
    refine ⟨.inl hg, fun r hr hgroup => ⟨g, hg, rfl, r, hr, hgroup, rfl⟩, ?_⟩
    intro hdistinct g' hg' hkey
    rw [hdistinct.eq_of_key hg' hg hkey]
    rfl

theorem gdiAddMod_ok {fuel : ℕ} {S S' : HostGroups} {answer : Except HgroupError Unit}
    (h : gdiAddMod B E fuel S elem add = some (answer, S')) (hS : GroupsOk B S.groups) :
    GroupsOk B S'.groups ∧
      ((∀ list, elem.hostList = some list → ∀ name ∈ list, ∀ r,
        r = name ∨ E.resolve name = some r → isHgroupName r = true →
        ∀ g ∈ S.groups, hostKey B g.name = hostKey B r → foldName g.name = foldName r) →
      ClosedNames S.groups → ClosedNames S'.groups) := by
  unfold gdiAddMod at h
  dsimp only at h
  split at h
  case isTrue =>
    obtain ⟨-, rfl⟩ := Prod.mk.inj (Option.some.inj h)
    exact ⟨hS, fun _ hclosed => hclosed⟩
  case isFalse hadd =>
  split at h
  case isTrue =>
    obtain ⟨-, rfl⟩ := Prod.mk.inj (Option.some.inj h)
    exact ⟨hS, fun _ hclosed => hclosed⟩
  case isFalse hmod =>
  obtain ⟨hold, holdrefs, hreplaces⟩ := old_members hadd hmod
  obtain ⟨⟨result, M⟩, hmodified, h⟩ := Option.bind_eq_some_iff.mp h
  obtain ⟨hperm, hresult⟩ := hgroupMod_spec hmodified holdrefs
  have hsame := SameGroups.of_perm hperm.symm
  cases result with
  | error e =>
    obtain ⟨-, rfl⟩ := Prod.mk.inj (Option.some.inj h)
    exact ⟨hS.of_perm hperm, fun _ hclosed => hsame.closedNames hclosed⟩
  | ok hgroup =>
    obtain ⟨hname, hmembers, hfrom⟩ := hresult hgroup rfl
    dsimp only at h
    split at h
    · obtain ⟨-, rfl⟩ := Prod.mk.inj (Option.some.inj h)
      exact ⟨hS.of_perm hperm, fun _ hclosed => hsame.closedNames hclosed⟩
    · obtain ⟨T, hrefresh, heq⟩ := Option.map_eq_some_iff.mp h
      obtain ⟨-, rfl⟩ := Prod.mk.inj heq
      have hchained := chainIn_ok hS hperm hmembers
      have hsk := (refreshCaches_fresh hchained.distinct
        (List.mem_append_right _ (List.mem_singleton_self hgroup)) hrefresh).1
      refine ⟨hchained.of_skeleton hsk, fun hexact hclosed => ?_⟩
      refine (SameGroups.of_skeleton hsk.symm).closedNames ?_
      refine closedNames_chainIn (hsame.closedNames hclosed) (fun g' hg' hkey => ?_) ?_
      · rw [hname] at hkey ⊢
        rw [hreplaces hS.distinct g' (hperm.mem_iff.mp hg') hkey]
      · intro r hr hgroupname
        obtain ⟨g', hg', hname'⟩ :=
          members_name_groups hclosed hexact hold hmembers hfrom r hr hgroupname
        exact ⟨g', hperm.mem_iff.mpr hg', hname'⟩

theorem hgroupDel_spec (S : HostGroups) (name : Name) :
    (hgroupDel B E S name).2 = S ∨
      ∃ hgroup ∈ S.groups,
        (hgroupDel B E S name).2 = { S with groups := dechain B S.groups hgroup.name } ∧
        ∀ a, ¬ Refers B S.groups a (hostKey B hgroup.name) := by
  unfold hgroupDel
  split
  · exact .inl rfl
  split
  · exact .inl rfl
  split
  · exact .inl rfl
  case h_2 hgroup hlocate =>
  split
  · exact .inl rfl
  case isFalse hfree =>
  split
  · exact .inl rfl
  refine .inr ⟨hgroup, List.mem_of_find?_eq_some hlocate, rfl, ?_⟩
  rintro a ⟨g, hg, rfl, r, hr, hgroupname, hkey⟩
  have hfound : hrefListHasMember B
      (findReferencees B S.groups (hrefListAdd B [] hgroup.name) []) g.name = true := by
    refine hasMember_findReferencees.mpr (.inr ⟨hgroup.name, ?_, ?_, g, hg, rfl, r, hr,
      hgroupname, hkey⟩)
    · simp [hrefListAdd, hrefListHasMember, hrefListLocate]
    · rw [← isHgroupName_of_hostKey hkey, hgroupname]
  obtain ⟨o, ho, -⟩ := hrefListHasMember_iff.mp hfound
  exact hfree (.inl (List.ne_nil_of_mem ho))

theorem hgroupDel_ok {S : HostGroups} (name : Name) (hS : GroupsOk B S.groups) :
    GroupsOk B (hgroupDel B E S name).2.groups ∧
      (ClosedNames S.groups → ClosedNames (hgroupDel B E S name).2.groups) := by
  rcases hgroupDel_spec S name with heq | ⟨hgroup, hin, heq, hfree⟩
  · rw [heq]
    exact ⟨hS, id⟩
  · rw [heq]
    have hsub : ∀ g ∈ dechain B S.groups hgroup.name, g ∈ S.groups :=
      fun g hg => List.mem_of_mem_eraseP hg
    refine ⟨⟨distinct_dechain hS.distinct _, hS.acyclic.mono ?_⟩, fun hclosed => ?_⟩
    · rintro a b ⟨g, hg, hr⟩
      exact ⟨g, hsub g hg, hr⟩
    · intro g hg r hr hgroupname
      obtain ⟨g', hg', hname⟩ := hclosed g (hsub g hg) r hr hgroupname
      refine ⟨g', (List.mem_eraseP_of_neg ?_).mpr hg', hname⟩
      -- the group referred to is not the one deleted
      intro hkey
      refine hfree _ ⟨g, hsub g hg, rfl, r, hr, hgroupname, ?_⟩
      rw [hostKey_of_foldName B hgroupname hname.symm]
      simpa using hkey

/-- **One request** keeps the references acyclic, and if it is exact closed. -/
theorem handle_ok {fuel : ℕ} {S S' : HostGroups} {request : Request}
    {answer : Except HgroupError Unit} (h : handle B E fuel S request = some (answer, S'))
    (hS : GroupsOk B S.groups) :
    GroupsOk B S'.groups ∧
      (Exact B E S.groups request → ClosedNames S.groups → ClosedNames S'.groups) := by
  cases request with
  | add elem =>
    have hadd : gdiAddMod B E fuel S elem true = some (answer, S') := h
    exact gdiAddMod_ok hadd hS
  | modify elem =>
    have hmodify : gdiAddMod B E fuel S elem false = some (answer, S') := h
    exact gdiAddMod_ok hmodify hS
  | delete name =>
    have heq := congrArg Prod.snd (Option.some.inj h)
    dsimp only at heq
    rw [← heq]
    have hdel := hgroupDel_ok (B := B) (E := E) name hS
    exact ⟨hdel.1, fun _ => hdel.2⟩

/-! ## Every request returns -/

theorem effectiveDiff_returns {fuel : ℕ} {M : List HGroup} (h : Acyclic (Refers B M))
    (hfuel : M.length + 2 ≤ fuel) (added removed : Used) :
    ∃ diff, hrefListFindEffectiveDiff B fuel M added removed = some diff := by
  obtain ⟨add, hadd⟩ := Option.isSome_iff_exists.mp
    (findAllReferences_returns h hfuel added.groups added.hosts)
  obtain ⟨rem, hrem⟩ := Option.isSome_iff_exists.mp
    (findAllReferences_returns h hfuel removed.groups removed.hosts)
  unfold hrefListFindEffectiveDiff
  rw [hadd, Option.bind_some, hrem, Option.map_some]
  exact ⟨_, rfl⟩

theorem hgroupModHostlist_returns {fuel : ℕ} {M : List HGroup} (h : Acyclic (Refers B M))
    (hfuel : M.length + 2 ≤ fuel) (hgroup : HGroup) (list : List Name) (sub : SubCommand) :
    (hgroupModHostlist B E fuel M hgroup list sub).isSome = true := by
  unfold hgroupModHostlist
  split
  · rfl
  case h_2 resolved _ =>
  dsimp only
  split_ifs
  · rfl
  · rfl
  · rfl
  obtain ⟨diff, hdiff⟩ := effectiveDiff_returns h hfuel
    (hrefListFindDiff B (hrefListMakeUniq B E.hashed
      (attrModSubList B sub hgroup.hostList resolved)) hgroup.hostList).1
    (hrefListFindDiff B (hrefListMakeUniq B E.hashed
      (attrModSubList B sub hgroup.hostList resolved)) hgroup.hostList).2
  rw [hdiff, Option.bind_some]
  split
  · rfl
  obtain ⟨occupants, hup⟩ := Option.isSome_iff_exists.mp
    (findAllReferencees_returns h hfuel (hrefListAdd B [] hgroup.name))
  have hup' : hgroupFindAllReferencees B M fuel hgroup.name = some occupants := hup
  rw [hup', Option.bind_some]
  split_ifs
  · rfl
  obtain ⟨before, hbefore⟩ := Option.isSome_iff_exists.mp
    (findAllReferences_returns h hfuel hgroup.hostList [])
  obtain ⟨after, hafter⟩ := Option.isSome_iff_exists.mp
    (findAllReferences_returns h hfuel (hrefListMakeUniq B E.hashed
      (attrModSubList B sub hgroup.hostList resolved)) [])
  rw [hbefore, Option.bind_some, hafter, Option.bind_some]
  rfl

theorem length_chainIn_le (M : List HGroup) (g : HGroup) :
    (chainIn B M g).length ≤ M.length + 1 := by
  unfold chainIn dechain
  rw [List.length_append, List.length_singleton]
  exact Nat.succ_le_succ List.length_eraseP_le

theorem queueRounds_returns {fuel : ℕ} (cqueues : List CQueue)
    {M₀ M : List HGroup} (h : GroupsOk B M₀) (hm : MembersOk B M₀ m.hgroup)
    (hperm : M.Perm M₀) (hfuel : M₀.length + 3 ≤ fuel) :
    (queueRounds B E fuel m cqueues M).isSome = true := by
  induction cqueues generalizing M with
  | nil => rfl
  | cons cqueue cqueues ih =>
    have hlength : (chainIn B M m.hgroup).length ≤ M₀.length + 1 :=
      hperm.length_eq ▸ length_chainIn_le M m.hgroup
    have hfuel₁ : M.length + 2 ≤ fuel := by
      rw [hperm.length_eq]
      omega
    have hfuel₂ : (chainIn B M m.hgroup).length + 2 ≤ fuel := by omega
    unfold queueRounds
    split
    · obtain ⟨before, hbefore⟩ := Option.isSome_iff_exists.mp
        (findAllReferences_returns (h.of_perm hperm).acyclic hfuel₁
          (cqueueGetHostlist B M cqueue) [])
      obtain ⟨after, hafter⟩ := Option.isSome_iff_exists.mp
        (findAllReferences_returns (chainIn_ok h hperm hm).acyclic hfuel₂
          (cqueueGetHostlist B (chainIn B M m.hgroup) cqueue) [])
      rw [hbefore, Option.bind_some]
      dsimp only
      rw [hafter, Option.bind_some]
      split
      · exact ih ((perm_dechain_locate M m.hgroup.name).trans hperm)
      · rfl
    · exact ih hperm

theorem hgroupModQueues_returns {fuel : ℕ} {M : List HGroup} (h : GroupsOk B M)
    (hm : MembersOk B M m.hgroup) (hfuel : M.length + 3 ≤ fuel) :
    (hgroupModQueues B E fuel M m).isSome = true := by
  unfold hgroupModQueues
  split
  · rfl
  · rw [Option.isSome_map]
    exact queueRounds_returns E.cqueues h hm (.refl _) hfuel

theorem hgroupMod_returns {fuel : ℕ} {M : List HGroup} (h : GroupsOk B M)
    (hfuel : M.length + 3 ≤ fuel) (hold : ∀ r ∈ hgroup.hostList, isHgroupName r = true →
      Refers B M (hostKey B (if add then elem.name else hgroup.name)) (hostKey B r)) :
    (hgroupMod B E fuel M hgroup elem add).isSome = true := by
  unfold hgroupMod
  split
  · rfl
  case h_2 named hnamed =>
  obtain ⟨hlist, hname⟩ := hgroupModName_ok hnamed
  rw [← hname, ← hlist] at hold
  split
  · rfl
  case h_2 list _ =>
  obtain ⟨modified, hmodified⟩ := Option.isSome_iff_exists.mp
    (hgroupModHostlist_returns (E := E) h.acyclic (by omega : M.length + 2 ≤ fuel) named list
      elem.subCommand)
  rw [hmodified, Option.bind_some]
  cases modified with
  | error e => rfl
  | ok m => exact hgroupModQueues_returns h (hgroupModHostlist_ok hmodified hold).2.1 hfuel

/-- **Every request returns**, accepted or refused. -/
theorem handle_returns {fuel : ℕ} {S : HostGroups} (h : GroupsOk B S.groups)
    (hfuel : S.groups.length + 3 ≤ fuel) (request : Request) :
    (handle B E fuel S request).isSome = true := by
  have hchange : ∀ elem add, (gdiAddMod B E fuel S elem add).isSome = true := by
    intro elem add
    unfold gdiAddMod
    dsimp only
    split
    case isTrue => rfl
    case isFalse hadd =>
    split
    case isTrue => rfl
    case isFalse hmod =>
    obtain ⟨-, hold, -⟩ := old_members hadd hmod
    obtain ⟨⟨result, M⟩, hmodified⟩ := Option.isSome_iff_exists.mp
      (hgroupMod_returns (E := E) h hfuel hold)
    obtain ⟨hperm, hresult⟩ := hgroupMod_spec hmodified hold
    rw [hmodified, Option.bind_some]
    cases result with
    | error e => rfl
    | ok hgroup =>
      have hlength : (chainIn B M hgroup).length ≤ S.groups.length + 1 :=
        hperm.length_eq ▸ length_chainIn_le M hgroup
      dsimp only
      split
      · rfl
      · rw [Option.isSome_map]
        exact refreshCaches_returns (chainIn_ok h hperm (hresult hgroup rfl).2.1).acyclic
          (by dsimp only; omega) hgroup
  cases request with
  | add elem => exact hchange elem true
  | modify elem => exact hchange elem false
  | delete name => rfl

/-! ## Runs -/

variable (B) in
/-- The states that requests which meet `P` lead to, accepted or refused. -/
inductive Reached (P : Environment → List HGroup → Request → Prop) (S₀ : HostGroups) :
    HostGroups → Prop
  | start : Reached P S₀ S₀
  | step {S S' : HostGroups} (E : Environment) (request : Request) (fuel : ℕ)
      {answer : Except HgroupError Unit} (hreached : Reached P S₀ S)
      (hmeets : P E S.groups request) (hhandle : handle B E fuel S request = some (answer, S')) :
      Reached P S₀ S'

theorem reached_ok {P : Environment → List HGroup → Request → Prop} {S₀ S : HostGroups}
    (h : Reached B P S₀ S) (hS₀ : GroupsOk B S₀.groups) : GroupsOk B S.groups := by
  induction h with
  | start => exact hS₀
  | step _ _ _ _ _ hhandle ih => exact (handle_ok hhandle ih).1

theorem reached_closed {S₀ S : HostGroups} (h : Reached B (Exact B) S₀ S)
    (hS₀ : GroupsOk B S₀.groups) (hclosed : ClosedNames S₀.groups) : ClosedNames S.groups := by
  induction h with
  | start => exact hclosed
  | step _ _ _ hreached hmeets hhandle ih =>
    exact (handle_ok hhandle (reached_ok hreached hS₀)).2 hmeets ih

/-- **The graph of the host groups.** Requests that are exact keep the references
acyclic and closed, so that both walks return from every list, and with them every
further request. -/
theorem hostGroups_acyclic_closed (B : Bootstrap) (S₀ S : HostGroups)
    (hdistinct : Distinct B S₀.groups) (hacyclic : Acyclic (NameRefers S₀.groups))
    (hclosed : ClosedNames S₀.groups) (hreached : Reached B (Exact B) S₀ S) :
    Acyclic (NameRefers S.groups) ∧ ClosedNames S.groups ∧
      (∀ fuel, S.groups.length + 2 ≤ fuel → ∀ list,
        (∀ hosts, (findAllReferences B S.groups fuel list ⟨hosts, []⟩).isSome = true) ∧
        (findAllReferencees B S.groups fuel list []).isSome = true) ∧
      ∀ fuel, S.groups.length + 3 ≤ fuel → ∀ E request,
        (handle B E fuel S request).isSome = true := by
  have hS₀ : GroupsOk B S₀.groups := ⟨hdistinct, acyclic_refers hdistinct hclosed hacyclic⟩
  have hS := reached_ok hreached hS₀
  refine ⟨acyclic_nameRefers hS.acyclic, reached_closed hreached hS₀ hclosed, ?_, ?_⟩
  · exact fun fuel hfuel list => ⟨findAllReferences_returns hS.acyclic hfuel list,
      findAllReferencees_returns hS.acyclic hfuel list⟩
  · exact fun fuel hfuel E request => handle_returns hS hfuel request

instance (M : List HGroup) : Decidable (ClosedNames M) :=
  inferInstanceAs (Decidable (∀ g ∈ M, ∀ r ∈ g.hostList, isHgroupName r = true →
    ∃ g' ∈ M, foldName g'.name = foldName r))

def plainBootstrap : Bootstrap := ⟨false, none⟩

/-- Every host resolves to itself, and no queue minds. -/
def plainEnvironment : Environment where
  resolve := some
  qualifiedHostname := "master".toList
  cqueues := []
  handleQinstances _ _ _ := true
  addMissingHosts _ := true
  spools := true
  hashed := false

def addRequest (name : Name) (members : List Name) : Request :=
  .add ⟨name, some members, ⟨false, false, false⟩⟩

def twoGroups : HostGroups :=
  ⟨[⟨"@a".toList, [], [], 0⟩, ⟨"@b".toList, ["@A".toList], [], 2⟩], 2⟩

/-- A group refers to `@a` in upper case. -/
theorem hostGroups_acyclic_closed_two :
    Acyclic (NameRefers twoGroups.groups) ∧ ClosedNames twoGroups.groups ∧
      (∀ fuel, twoGroups.groups.length + 2 ≤ fuel → ∀ list,
        (∀ hosts, (findAllReferences plainBootstrap twoGroups.groups fuel list
          ⟨hosts, []⟩).isSome = true) ∧
        (findAllReferencees plainBootstrap twoGroups.groups fuel list []).isSome = true) ∧
      ∀ fuel, twoGroups.groups.length + 3 ≤ fuel → ∀ E request,
        (handle plainBootstrap E fuel twoGroups request).isSome = true := by
  have hstart : ∀ a b, ¬ NameRefers [⟨"@a".toList, [], [], 0⟩] a b := by
    rintro a b ⟨g, hg, -, r, hr, -⟩
    obtain rfl := List.mem_singleton.mp hg
    exact absurd hr List.not_mem_nil
  refine hostGroups_acyclic_closed plainBootstrap ⟨[⟨"@a".toList, [], [], 0⟩], 1⟩ twoGroups
    (List.nodup_singleton _) (fun a hcycle => ?_) (by decide) ?_
  · obtain ⟨b, -, hedge⟩ := TransGen.tail'_iff.mp hcycle
    exact hstart b a hedge
  · have hhandle : handle plainBootstrap plainEnvironment 4 ⟨[⟨"@a".toList, [], [], 0⟩], 1⟩
        (addRequest "@b".toList ["@A".toList]) = some (.ok (), twoGroups) := by
      decide +kernel
    refine .step plainEnvironment _ 4 .start ?_ hhandle
    rintro _ ⟨rfl⟩ name hname r hr hgroup g hg hkey
    obtain rfl := List.mem_singleton.mp hname
    obtain rfl := List.mem_singleton.mp hg
    obtain rfl : r = "@A".toList := hr.elim id fun h => (Option.some.inj h).symm
    decide

def longName : Name := '@' :: List.replicate 254 'a'

/-- A reference with one character more is taken for the group, and accepted. -/
theorem longReference_accepted :
    ¬ ∀ (B : Bootstrap) (S₀ S : HostGroups), Distinct B S₀.groups →
      Acyclic (NameRefers S₀.groups) → ClosedNames S₀.groups →
      Reached B (fun _ _ _ => True) S₀ S → ClosedNames S.groups := by
  intro hclaim
  have hopen : (handle plainBootstrap plainEnvironment 4 ⟨[⟨longName, [], [], 0⟩], 1⟩
      (addRequest "@b".toList [longName ++ ['b']])).map
        (fun p => decide (ClosedNames p.2.groups)) = some false := by
    decide +kernel
  obtain ⟨⟨answer, S⟩, hhandle, hnot⟩ := Option.map_eq_some_iff.mp hopen
  refine of_decide_eq_false hnot (hclaim plainBootstrap ⟨[⟨longName, [], [], 0⟩], 1⟩ S
    (List.nodup_singleton _) (fun a hcycle => ?_) (by decide +kernel)
    (.step plainEnvironment _ 4 .start trivial hhandle))
  obtain ⟨b, -, g, hg, -, r, hr, -⟩ := TransGen.tail'_iff.mp hcycle
  obtain rfl := List.mem_singleton.mp hg
  exact absurd hr List.not_mem_nil

end ClusterScheduler.Qmaster
