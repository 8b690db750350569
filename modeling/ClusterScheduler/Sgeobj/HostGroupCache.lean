import Mathlib.Data.List.Sort
import ClusterScheduler.Sgeobj.HostGroups

/-! # The resolved hosts of a group

Each group carries the hosts it resolves to, so that a membership test needs no
walk. `hgroupUpdateCache` fills the cache of one group, `hgroupListUpdateCaches`
that of all groups, and `hgroupRefreshCaches` that of one group and of all groups
that hold it.

`CacheOk` says that every cache is what the walk finds. A walk sees of the other
groups only those it comes to (`hgroupFindAllReferences_congr`), so that changing
one group leaves the walks of the groups that do not lead to it as they were.
-/

namespace ClusterScheduler.Sgeobj

open Relation Foundation

variable (B : Bootstrap)

/-- The host groups of the qmaster and the counter of `hgroup_update_cache`. -/
structure HostGroups where
  groups : List HGroup
  nextVersion : ℕ
  deriving DecidableEq

/-! ## Filling the caches -/

/-- The counter is a 32 bit number and skips `0`. -/
def succVersion (version : ℕ) : ℕ :=
  if (version + 1) % 2 ^ 32 = 0 then 1 else (version + 1) % 2 ^ 32

/-- Writing the cache of the group called `name`. -/
def setCache (name : Name) (hosts : List Name) (version : ℕ) (g : HGroup) : HGroup :=
  if g.name = name then { g with cachedHosts := hosts, cacheVersion := version } else g

/-- The cache of `hgroup`, which is an element of the list. -/
def hgroupUpdateCache (fuel : ℕ) (S : HostGroups) (hgroup : HGroup) : Option HostGroups :=
  (hgroupFindAllReferences B S.groups fuel hgroup.name).map fun used =>
    let version := succVersion S.nextVersion
    ⟨S.groups.map (setCache hgroup.name used.hosts version), version⟩

def hgroupListUpdateCaches (fuel : ℕ) (S : HostGroups) : Option HostGroups :=
  S.groups.foldlM (hgroupUpdateCache B fuel) S

def dropEqualNeighbours : List Name → List Name
  | [] => []
  | [a] => [a]
  | a :: b :: l =>
    if a = b then dropEqualNeighbours (b :: l) else a :: dropEqualNeighbours (b :: l)

/-- `lUniqHost` -/
def uniqHost (list : List Name) : List Name :=
  dropEqualNeighbours (list.insertionSort fun a b => foldName a ≤ foldName b)

/-- The cache of the group found under a name, if there is one. -/
def updateReferencee (fuel : ℕ) (S : HostGroups) (href : Name) : Option HostGroups :=
  match hgroupListLocate B S.groups href with
  | none => some S
  | some referencee => hgroupUpdateCache B fuel S referencee

def hgroupRefreshCaches (fuel : ℕ) (S : HostGroups) (hgroup : HGroup) : Option HostGroups :=
  (hgroupUpdateCache B fuel S hgroup).bind fun S =>
    (hgroupFindAllReferencees B S.groups fuel hgroup.name).bind fun referencees =>
      (uniqHost referencees).foldlM (updateReferencee B fuel) S

/-! ## Asking -/

def hgroupHasHostCache (hgroup : HGroup) : Bool := hgroup.cacheVersion ≠ 0

def hgroupCacheContainsHost (hgroup : HGroup) (hostname : Name) : Bool :=
  hrefListHasMember B hgroup.cachedHosts hostname

def hgroupContainsHost (fuel : ℕ) (master : List HGroup) (hgroup : HGroup) (hostname : Name) :
    Option Bool :=
  if hgroupHasHostCache hgroup then some (hgroupCacheContainsHost B hgroup hostname)
  else (hgroupFindAllReferences B master fuel hgroup.name).map fun used =>
    hrefListHasMember B used.hosts hostname

/-! ## What a walk depends on -/

variable {B}

/-- Two lists of groups agree on the members of the groups with the keys in `P`. -/
def AgreeOn (B : Bootstrap) (P : Name → Prop) (M M' : List HGroup) : Prop :=
  ∀ name, P (hostKey B name) →
    (hgroupListLocate B M name).map (·.hostList) = (hgroupListLocate B M' name).map (·.hostList)

variable {P : Name → Prop} {M' : List HGroup} {name : Name}

theorem addReferences_congr {M : List HGroup} (h : AgreeOn B P M M')
    (hname : isHgroupName name = true → P (hostKey B name)) (used : Used) :
    addReferences B M used name = addReferences B M' used name := by
  unfold addReferences
  split
  case h_1 hclass =>
    have := h name (hname (classifyMember_group.mp hclass))
    revert this
    cases hgroupListLocate B M name <;> cases hgroupListLocate B M' name <;>
      simp +contextual
  · rfl
  · rfl

variable {list : List Name}

theorem findReferences_congr {M : List HGroup} (h : AgreeOn B P M M')
    (hlist : ∀ name ∈ list, isHgroupName name = true → P (hostKey B name)) (used : Used) :
    findReferences B M list used = findReferences B M' list used := by
  unfold findReferences
  induction list generalizing used with
  | nil => rfl
  | cons name list ih =>
    rw [List.foldl_cons, List.foldl_cons, addReferences_congr h (hlist name List.mem_cons_self)]
    exact ih (fun n hn => hlist n (.tail _ hn)) _

theorem findAllReferences_congr {M : List HGroup} (h : AgreeOn B P M M')
    (hclosed : ∀ a b, P a → Refers B M a b → P b) (fuel : ℕ)
    (hlist : ∀ name ∈ list, isHgroupName name = true → P (hostKey B name)) {used : Used}
    (hused : used.groups = []) :
    findAllReferences B M fuel list used = findAllReferences B M' fuel list used := by
  induction fuel generalizing list used with
  | zero => rfl
  | succ fuel ih =>
    have hlevel := findReferences_congr h hlist used
    simp only [findAllReferences]
    rw [← hlevel]
    split
    · rfl
    · rw [ih ?_ rfl]
      intro name hname hgroup
      rcases refers_of_mem_findReferences hname with hin | ⟨n, hn, hngroup, href⟩
      · rw [hused] at hin
        cases hin
      · exact hclosed _ _ (hlist n hn hngroup) href

theorem hgroupFindAllReferences_congr {M : List HGroup} (h : AgreeOn B P M M')
    (hclosed : ∀ a b, P a → Refers B M a b → P b) (fuel : ℕ) (hname : P (hostKey B name)) :
    hgroupFindAllReferences B M fuel name = hgroupFindAllReferences B M' fuel name := by
  refine findAllReferences_congr h hclosed fuel (fun n hn _ => ?_) rfl
  obtain rfl : n = name := by simpa using mem_of_mem_hrefListAdd hn
  exact hname

/-! ## Names and members only -/

def skeleton (M : List HGroup) : List (Name × List Name) := M.map fun g => (g.name, g.hostList)

theorem exists_mem_of_skeleton {M : List HGroup} (h : skeleton M = skeleton M') {g : HGroup}
    (hg : g ∈ M) : ∃ g' ∈ M', g'.name = g.name := by
  have hin : (g.name, g.hostList) ∈ skeleton M' := by
    rw [← h]
    exact List.mem_map.mpr ⟨g, hg, rfl⟩
  obtain ⟨g', hg', heq⟩ := List.mem_map.mp hin
  exact ⟨g', hg', congrArg Prod.fst heq⟩

theorem hostList_hgroupListLocate (M : List HGroup) (name : Name) :
    (hgroupListLocate B M name).map (·.hostList) =
      ((skeleton M).find? fun p => hostKey B p.1 = hostKey B name).map (·.2) := by
  unfold hgroupListLocate skeleton
  rw [List.find?_map, Option.map_map]
  rfl

theorem refers_skeleton {M : List HGroup} {a b : Name} :
    Refers B M a b ↔ ∃ p ∈ skeleton M, hostKey B p.1 = a ∧
      ∃ r ∈ p.2, isHgroupName r = true ∧ hostKey B r = b := by
  simp [Refers, skeleton]

theorem hgroupFindAllReferences_skeleton {M : List HGroup} (h : skeleton M = skeleton M')
    (fuel : ℕ) (name : Name) :
    hgroupFindAllReferences B M fuel name = hgroupFindAllReferences B M' fuel name := by
  refine hgroupFindAllReferences_congr (P := fun _ => True) (fun n _ => ?_)
    (fun _ _ _ _ => trivial) fuel trivial
  rw [hostList_hgroupListLocate, hostList_hgroupListLocate, h]

/-! ## Fresh caches -/

variable (B) in
def Fresh (fuel : ℕ) (M : List HGroup) (g : HGroup) : Prop :=
  g.cacheVersion ≠ 0 ∧
    (hgroupFindAllReferences B M fuel g.name).map (·.hosts) = some g.cachedHosts

variable (B) in
/-- What a number of updates does: names and members stay, fresh caches stay fresh and
those of the groups named in `names` are fresh afterwards. -/
structure Refreshed (fuel : ℕ) (S S' : HostGroups) (names : List Name) : Prop where
  skeleton : skeleton S'.groups = skeleton S.groups
  fresh : ∀ g' ∈ S'.groups, (g'.name ∈ names → Fresh B fuel S'.groups g') ∧
    (Fresh B fuel S'.groups g' ∨ g' ∈ S.groups)

theorem Refreshed.refl (fuel : ℕ) (S : HostGroups) : Refreshed B fuel S S [] :=
  ⟨rfl, fun _ hg => ⟨fun h => absurd h List.not_mem_nil, .inr hg⟩⟩

theorem Fresh.skeleton {fuel : ℕ} {M : List HGroup} {g : HGroup} (h : Fresh B fuel M g)
    (hsk : skeleton M = skeleton M') : Fresh B fuel M' g := by
  refine ⟨h.1, ?_⟩
  rw [← hgroupFindAllReferences_skeleton hsk]
  exact h.2

theorem Refreshed.trans {fuel : ℕ} {S S' S'' : HostGroups} {names names' : List Name}
    (h : Refreshed B fuel S S' names) (h' : Refreshed B fuel S' S'' names') :
    Refreshed B fuel S S'' (names ++ names') := by
  refine ⟨h'.skeleton.trans h.skeleton, fun g hg => ?_⟩
  obtain ⟨hnamed, hold⟩ := h'.fresh g hg
  have hfirst : Fresh B fuel S'.groups g → Fresh B fuel S''.groups g :=
    fun hf => hf.skeleton h'.skeleton.symm
  refine ⟨fun hmem => ?_, ?_⟩
  · rcases List.mem_append.mp hmem with hmem | hmem
    · rcases hold with hf | hin
      · exact hf
      · exact hfirst ((h.fresh g hin).1 hmem)
    · exact hnamed hmem
  · rcases hold with hf | hin
    · exact .inl hf
    · exact (h.fresh g hin).2.imp_left hfirst

theorem succVersion_ne_zero (version : ℕ) : succVersion version ≠ 0 := by
  unfold succVersion
  split <;> omega

theorem setCache_name (name : Name) (hosts : List Name) (version : ℕ) (g : HGroup) :
    (setCache name hosts version g).name = g.name := by
  unfold setCache
  split <;> rfl

theorem setCache_hostList (name : Name) (hosts : List Name) (version : ℕ) (g : HGroup) :
    (setCache name hosts version g).hostList = g.hostList := by
  unfold setCache
  split <;> rfl

theorem setCache_of_eq {g : HGroup} (h : g.name = name) (hosts : List Name) (version : ℕ) :
    setCache name hosts version g = { g with cachedHosts := hosts, cacheVersion := version } :=
  if_pos h

theorem skeleton_setCache (name : Name) (hosts : List Name) (version : ℕ) (M : List HGroup) :
    skeleton (M.map (setCache name hosts version)) = skeleton M := by
  unfold skeleton
  rw [List.map_map]
  refine List.map_congr_left fun g _ => ?_
  rw [Function.comp_apply, setCache_name, setCache_hostList]

variable {hgroup : HGroup}

theorem refreshed_updateCache {fuel : ℕ} {S S' : HostGroups}
    (h : hgroupUpdateCache B fuel S hgroup = some S') : Refreshed B fuel S S' [hgroup.name] := by
  obtain ⟨used, hused, rfl⟩ := Option.map_eq_some_iff.mp h
  have hskeleton := skeleton_setCache hgroup.name used.hosts (succVersion S.nextVersion) S.groups
  refine ⟨hskeleton, fun g' hg' => ?_⟩
  obtain ⟨g, hg, rfl⟩ := List.mem_map.mp hg'
  rw [setCache_name, List.mem_singleton]
  by_cases hname : g.name = hgroup.name
  · have hfresh : Fresh B fuel (S.groups.map (setCache hgroup.name used.hosts
        (succVersion S.nextVersion))) (setCache hgroup.name used.hosts
        (succVersion S.nextVersion) g) := by
      rw [setCache_of_eq hname]
      refine ⟨succVersion_ne_zero _, ?_⟩
      rw [hgroupFindAllReferences_skeleton hskeleton]
      dsimp only
      rw [hname, hused]
      rfl
    exact ⟨fun _ => hfresh, .inl hfresh⟩
  · refine ⟨fun h => absurd h hname, .inr ?_⟩
    unfold setCache
    rw [if_neg hname]
    exact hg

theorem refreshed_updateCaches {fuel : ℕ} {S S' : HostGroups} {hgroups : List HGroup}
    (h : hgroups.foldlM (hgroupUpdateCache B fuel) S = some S') :
    Refreshed B fuel S S' (hgroups.map (·.name)) := by
  induction hgroups generalizing S with
  | nil =>
    obtain rfl : S = S' := by simpa using h
    exact .refl fuel S
  | cons hgroup hgroups ih =>
    rw [List.foldlM_cons] at h
    obtain ⟨T, hT, hrest⟩ := Option.bind_eq_some_iff.mp h
    exact (refreshed_updateCache hT).trans (ih hrest)

/-! ## One name, one group -/

variable (B) in
/-- No two groups are found under one key. -/
def Distinct (M : List HGroup) : Prop := (M.map fun g => hostKey B g.name).Nodup

theorem distinct_skeleton {M : List HGroup} (h : skeleton M = skeleton M') :
    Distinct B M ↔ Distinct B M' := by
  have hkeys : ∀ L : List HGroup,
      (L.map fun g => hostKey B g.name) = (skeleton L).map fun p => hostKey B p.1 := by
    intro L
    unfold skeleton
    rw [List.map_map]
    rfl
  unfold Distinct
  rw [hkeys, hkeys, h]

theorem Distinct.eq_of_key {M : List HGroup} (h : Distinct B M) {g g' : HGroup} (hg : g ∈ M)
    (hg' : g' ∈ M) (hkey : hostKey B g.name = hostKey B g'.name) : g = g' :=
  List.inj_on_of_nodup_map h hg hg' hkey

theorem Distinct.locate {M : List HGroup} (h : Distinct B M) {g : HGroup} (hg : g ∈ M)
    (hkey : hostKey B g.name = hostKey B name) : hgroupListLocate B M name = some g := by
  unfold hgroupListLocate
  cases hfind : M.find? fun g => hostKey B g.name = hostKey B name with
  | none =>
    have := List.find?_eq_none.mp hfind g hg
    simp [hkey] at this
  | some g' =>
    have hkey' : hostKey B g'.name = hostKey B name := by simpa using List.find?_some hfind
    rw [h.eq_of_key hg (List.mem_of_find?_eq_some hfind) (hkey.trans hkey'.symm)]

/-! ## Refreshing -/

variable {x : Name}

theorem mem_dropEqualNeighbours (list : List Name) : x ∈ dropEqualNeighbours list ↔ x ∈ list := by
  induction list using dropEqualNeighbours.induct with
  | case1 => simp [dropEqualNeighbours]
  | case2 a => simp [dropEqualNeighbours]
  | case3 b l ih => simp [dropEqualNeighbours, ih]
  | case4 a b l hne ih =>
    rw [dropEqualNeighbours, if_neg hne, List.mem_cons, ih, ← List.mem_cons]

theorem mem_uniqHost : x ∈ uniqHost list ↔ x ∈ list := by
  unfold uniqHost
  rw [mem_dropEqualNeighbours, List.mem_insertionSort]

theorem refreshed_updateReferencees {fuel : ℕ} {S S' : HostGroups} {hrefs : List Name}
    (hdistinct : Distinct B S.groups) (h : hrefs.foldlM (updateReferencee B fuel) S = some S') :
    ∃ names, Refreshed B fuel S S' names ∧
      ∀ g ∈ S.groups, hrefListHasMember B hrefs g.name = true → g.name ∈ names := by
  induction hrefs generalizing S with
  | nil =>
    obtain rfl : S = S' := by simpa using h
    exact ⟨[], .refl fuel S, fun g _ hmem => by simp [hrefListHasMember_iff] at hmem⟩
  | cons href hrefs ih =>
    rw [List.foldlM_cons] at h
    obtain ⟨T, hT, hrest⟩ := Option.bind_eq_some_iff.mp h
    have hfirst : ∃ names, Refreshed B fuel S T names ∧
        ∀ g ∈ S.groups, hostKey B href = hostKey B g.name → g.name ∈ names := by
      unfold updateReferencee at hT
      split at hT
      case h_1 hnone =>
        obtain rfl : S = T := by simpa using hT
        refine ⟨[], .refl fuel S, fun g hg hkey => ?_⟩
        rw [hdistinct.locate hg hkey.symm] at hnone
        exact absurd hnone (by simp)
      case h_2 referencee hsome =>
        refine ⟨_, refreshed_updateCache hT, fun g hg hkey => ?_⟩
        rw [hdistinct.locate hg hkey.symm] at hsome
        cases hsome
        exact List.mem_singleton_self _
    obtain ⟨names, hS, hnames⟩ := hfirst
    obtain ⟨names', hS', hnames'⟩ := ih ((distinct_skeleton hS.skeleton).mpr hdistinct) hrest
    refine ⟨names ++ names', hS.trans hS', fun g hg hmem => List.mem_append.mpr ?_⟩
    rw [hrefListHasMember_iff, List.exists_mem_cons_iff] at hmem
    rcases hmem with hkey | hmem
    · exact .inl (hnames g hg hkey)
    · right
      obtain ⟨g', hg', hname⟩ := exists_mem_of_skeleton hS.skeleton.symm hg
      rw [← hname]
      exact hnames' g' hg' (hrefListHasMember_iff.mpr (by rw [hname]; exact hmem))

/-- **Refreshing reaches every group that leads to the changed one.** -/
theorem refreshCaches_fresh {fuel : ℕ} {S S' : HostGroups} (hdistinct : Distinct B S.groups)
    (hin : hgroup ∈ S.groups) (h : hgroupRefreshCaches B fuel S hgroup = some S') :
    skeleton S'.groups = skeleton S.groups ∧ ∀ g ∈ S'.groups,
      (ReflTransGen (Refers B S.groups) (hostKey B g.name) (hostKey B hgroup.name) →
        Fresh B fuel S'.groups g) ∧
      (Fresh B fuel S'.groups g ∨ g ∈ S.groups) := by
  obtain ⟨T, hT, hrest⟩ := Option.bind_eq_some_iff.mp h
  obtain ⟨referencees, hup, hfold⟩ := Option.bind_eq_some_iff.mp hrest
  have hself := refreshed_updateCache hT
  obtain ⟨names, hrefs, hnames⟩ := refreshed_updateReferencees
    ((distinct_skeleton hself.skeleton).mpr hdistinct) hfold
  have hall := hself.trans hrefs
  refine ⟨hall.skeleton, fun g hg => ⟨fun hpath => ?_, (hall.fresh g hg).2⟩⟩
  refine (hall.fresh g hg).1 (List.mem_append.mpr ?_)
  rcases reflTransGen_iff_eq_or_transGen.mp hpath with hkey | hpath
  · left
    obtain ⟨g', hg', hname⟩ := exists_mem_of_skeleton hall.skeleton hg
    rw [← hname] at hkey ⊢
    rw [hdistinct.eq_of_key hg' hin hkey.symm]
    exact List.mem_singleton_self _
  · right
    have hpath' : TransGen (Refers B T.groups) (hostKey B g.name) (hostKey B hgroup.name) := by
      refine TransGen.mono (fun a b hab => ?_) _ _ hpath
      rw [refers_skeleton] at hab ⊢
      rwa [hself.skeleton]
    have hgroup : isHgroupName hgroup.name = true := by
      obtain ⟨_, -, _, -, -, r, -, hr, hrkey⟩ := TransGen.tail'_iff.mp hpath'
      rw [← isHgroupName_of_hostKey hrkey, hr]
    have hmem := findAllReferencees_complete hup (by simp [hrefListAdd, hrefListHasMember,
      hrefListLocate]) hgroup hpath'
    obtain ⟨g', hg', hname⟩ := exists_mem_of_skeleton hrefs.skeleton hg
    rw [← hname]
    refine hnames g' hg' ?_
    rw [hname, hrefListHasMember_iff]
    obtain ⟨o, ho, hokey⟩ := hrefListHasMember_iff.mp hmem
    exact ⟨o, mem_uniqHost.mpr ho, hokey⟩

/-! ## Refreshing returns -/

theorem updateCache_returns {fuel : ℕ} {S : HostGroups} (h : Acyclic (Refers B S.groups))
    (hfuel : S.groups.length + 2 ≤ fuel) (hgroup : HGroup) :
    ∃ S', hgroupUpdateCache B fuel S hgroup = some S' ∧ Acyclic (Refers B S'.groups) ∧
      S'.groups.length = S.groups.length := by
  obtain ⟨used, hused⟩ := Option.isSome_iff_exists.mp
    (findAllReferences_returns h hfuel (hrefListAdd B [] hgroup.name) [])
  have hupdate : hgroupUpdateCache B fuel S hgroup = some ⟨S.groups.map (setCache hgroup.name
      used.hosts (succVersion S.nextVersion)), succVersion S.nextVersion⟩ := by
    unfold hgroupUpdateCache hgroupFindAllReferences
    rw [hused]
    rfl
  have hsk := (refreshed_updateCache hupdate).skeleton
  refine ⟨_, hupdate, h.mono fun a b hab => ?_, List.length_map _⟩
  rw [refers_skeleton] at hab ⊢
  rwa [← hsk]

theorem updateReferencees_return {fuel : ℕ} {S : HostGroups} (h : Acyclic (Refers B S.groups))
    (hfuel : S.groups.length + 2 ≤ fuel) (hrefs : List Name) :
    (hrefs.foldlM (updateReferencee B fuel) S).isSome = true := by
  induction hrefs generalizing S with
  | nil => rfl
  | cons href hrefs ih =>
    rw [List.foldlM_cons]
    cases hlocate : hgroupListLocate B S.groups href with
    | none =>
      have hstep : updateReferencee B fuel S href = some S := by
        unfold updateReferencee
        rw [hlocate]
      rw [hstep]
      exact ih h hfuel
    | some g =>
      obtain ⟨S', hS', hacyclic, hlength⟩ := updateCache_returns h hfuel g
      have hstep : updateReferencee B fuel S href = some S' := by
        unfold updateReferencee
        rw [hlocate]
        exact hS'
      rw [hstep]
      exact ih hacyclic (by omega)

theorem refreshCaches_returns {fuel : ℕ} {S : HostGroups} (h : Acyclic (Refers B S.groups))
    (hfuel : S.groups.length + 2 ≤ fuel) (hgroup : HGroup) :
    (hgroupRefreshCaches B fuel S hgroup).isSome = true := by
  obtain ⟨S', hS', hacyclic, hlength⟩ := updateCache_returns h hfuel hgroup
  obtain ⟨referencees, hup⟩ := Option.isSome_iff_exists.mp
    (findAllReferencees_returns hacyclic (hlength ▸ hfuel) (hrefListAdd B [] hgroup.name))
  have hup' : hgroupFindAllReferencees B S'.groups fuel hgroup.name = some referencees := hup
  unfold hgroupRefreshCaches
  rw [hS', Option.bind_some, hup', Option.bind_some]
  exact updateReferencees_return hacyclic (hlength ▸ hfuel) _

end ClusterScheduler.Sgeobj
