import ClusterScheduler.Foundation.PartialFold
import ClusterScheduler.Qmaster.HostGroupGraph

/-! # The caches agree with the walk

`CachesOk` holds of a list when every group has a cache, and each holds what the walk
finds. It is kept when

- a group takes its place in the list and is refreshed (`cachesOk_put`): a group that
  is not refreshed does not lead to it, and its walk is what it was,
- a group that nothing refers to is deleted (`cachesOk_dechain`),
- the list is reordered (`cachesOk_perm`).

`caches_agree` is the result for runs of changes, `requests_agree` the one for runs of
requests to the qmaster.
-/

namespace ClusterScheduler.Qmaster

open Relation Foundation Sgeobj

variable {B : Bootstrap} {E : Environment} {fuel : ℕ}

variable (B fuel) in
structure CachesOk (M : List HGroup) : Prop where
  distinct : Distinct B M
  fresh : ∀ g ∈ M, Fresh B fuel M g

/-! ## Where a name is found -/

theorem find?_eraseP {α : Type*} {p q : α → Bool} (h : ∀ x, q x = true → p x = false)
    (l : List α) : (l.eraseP q).find? p = l.find? p := by
  induction l with
  | nil => rfl
  | cons x l ih =>
    by_cases hq : q x = true
    · rw [List.eraseP_cons_of_pos hq, List.find?_cons_of_neg (by simp [h x hq])]
    · rw [List.eraseP_cons_of_neg hq, List.find?_cons, List.find?_cons, ih]

variable {name n : Name}

theorem locate_dechain {M : List HGroup} (hkey : hostKey B n ≠ hostKey B name) :
    hgroupListLocate B (dechain B M name) n = hgroupListLocate B M n := by
  refine find?_eraseP (fun g hg => ?_) M
  have hg' : hostKey B g.name = hostKey B name := by simpa using hg
  simpa [hg'] using hkey.symm

variable {g : HGroup}

theorem locate_chainIn {M : List HGroup} (hkey : hostKey B n ≠ hostKey B g.name) :
    hgroupListLocate B (chainIn B M g) n = hgroupListLocate B M n := by
  have hlast : hgroupListLocate B [g] n = none := by
    simpa [hgroupListLocate] using hkey.symm
  have happend : hgroupListLocate B (chainIn B M g) n =
      (hgroupListLocate B (dechain B M g.name) n).or (hgroupListLocate B [g] n) :=
    List.find?_append
  rw [happend, hlast, Option.or_none, locate_dechain hkey]

variable {M' : List HGroup}

theorem locate_perm {M : List HGroup} (hperm : M'.Perm M) (h : Distinct B M) (n : Name) :
    hgroupListLocate B M' n = hgroupListLocate B M n := by
  have h' : Distinct B M' := distinct_of_perm hperm h
  cases hlocate : hgroupListLocate B M n with
  | some g =>
    refine h'.locate (hperm.mem_iff.mpr (List.mem_of_find?_eq_some hlocate)) ?_
    simpa using List.find?_some hlocate
  | none =>
    refine List.find?_eq_none.mpr fun g hg => ?_
    exact List.find?_eq_none.mp hlocate g (hperm.mem_iff.mp hg)

/-! ## What keeps the caches -/

/-- A fresh cache stays fresh when the groups its walk comes to stay as they are. -/
theorem fresh_congr {P : Name → Prop} {M : List HGroup} (hg : Fresh B fuel M g)
    (hagree : ∀ n, P (hostKey B n) → hgroupListLocate B M' n = hgroupListLocate B M n)
    (hclosed : ∀ a b, P a → Refers B M' a b → P b) (hP : P (hostKey B g.name)) :
    Fresh B fuel M' g := by
  have hagree' : AgreeOn B P M' M := fun n hn => by rw [hagree n hn]
  refine ⟨hg.1, ?_⟩
  rw [hgroupFindAllReferences_congr hagree' hclosed fuel hP]
  exact hg.2

theorem cachesOk_perm {M : List HGroup} (hperm : M'.Perm M) (h : CachesOk B fuel M) :
    CachesOk B fuel M' :=
  ⟨distinct_of_perm hperm h.distinct, fun g hg =>
    fresh_congr (P := fun _ => True) (h.fresh g (hperm.mem_iff.mp hg))
      (fun n _ => locate_perm hperm h.distinct n) (fun _ _ _ _ => trivial) trivial⟩

theorem cachesOk_dechain {M : List HGroup} (h : CachesOk B fuel M)
    (hfree : ∀ a, ¬ Refers B M a (hostKey B name)) : CachesOk B fuel (dechain B M name) := by
  refine ⟨distinct_dechain h.distinct name, fun g hg => ?_⟩
  refine fresh_congr (P := fun a => a ≠ hostKey B name) (h.fresh g (List.mem_of_mem_eraseP hg))
    (fun n => locate_dechain) ?_ (hostKey_of_mem_dechain h.distinct hg)
  rintro a b - ⟨g', hg', hkey, hr⟩ rfl
  exact hfree a ⟨g', List.mem_of_mem_eraseP hg', hkey, hr⟩

variable {S' : HostGroups}

/-- **A change reaches every cache it concerns.** -/
theorem cachesOk_put {S : HostGroups} (h : CachesOk B fuel S.groups)
    (hrefresh : hgroupRefreshCaches B fuel { S with groups := chainIn B S.groups g } g = some S') :
    CachesOk B fuel S'.groups := by
  have hdistinct := distinct_chainIn h.distinct g
  obtain ⟨hsk, hfresh⟩ := refreshCaches_fresh hdistinct
    (List.mem_append_right _ (List.mem_singleton_self g)) hrefresh
  refine ⟨(distinct_skeleton hsk).mpr hdistinct, fun g' hg' => ?_⟩
  obtain ⟨hleads, hother⟩ := hfresh g' hg'
  by_cases hpath : ReflTransGen (Refers B (chainIn B S.groups g)) (hostKey B g'.name)
      (hostKey B g.name)
  · exact hleads hpath
  rcases hother with hdone | hin
  · exact hdone
  -- the group does not lead to the changed one, and neither does any group it leads to
  have hold : g' ∈ S.groups := by
    rcases List.mem_append.mp hin with hin | hin
    · exact List.mem_of_mem_eraseP hin
    · rw [List.mem_singleton.mp hin] at hpath
      exact absurd .refl hpath
  refine Fresh.skeleton ?_ hsk.symm
  refine fresh_congr
    (P := fun a => ¬ ReflTransGen (Refers B (chainIn B S.groups g)) a (hostKey B g.name))
    (h.fresh g' hold) (fun n hn => locate_chainIn fun hkey => hn (hkey ▸ .refl)) ?_ hpath
  exact fun a b ha hab hb => ha (.head hab hb)

theorem cachesOk_del {S : HostGroups} (name : Name) (h : CachesOk B fuel S.groups) :
    CachesOk B fuel (hgroupDel B E S name).2.groups := by
  rcases hgroupDel_spec S name with heq | ⟨hgroup, -, heq, hfree⟩
  · rw [heq]
    exact h
  · rw [heq]
    exact cachesOk_dechain h hfree

theorem cachesOk_updateCaches {S : HostGroups} (hdistinct : Distinct B S.groups)
    (h : hgroupListUpdateCaches B fuel S = some S') : CachesOk B fuel S'.groups := by
  have hall := refreshed_updateCaches h
  refine ⟨(distinct_skeleton hall.skeleton).mpr hdistinct, fun g hg => ?_⟩
  obtain ⟨g', hg', hname⟩ := exists_mem_of_skeleton hall.skeleton hg
  exact (hall.fresh g hg).1 (List.mem_map.mpr ⟨g', hg', hname⟩)

/-! ## Runs of changes -/

/-- A group added or modified, or a request to delete one. -/
inductive Change where
  | put (hgroup : HGroup)
  | delete (E : Environment) (name : Name)

variable (B fuel) in
def applyChange (S : HostGroups) : Change → Option HostGroups
  | .put hgroup =>
    hgroupRefreshCaches B fuel { S with groups := chainIn B S.groups hgroup } hgroup
  | .delete E name => some (hgroupDel B E S name).2

theorem cachesOk_applyChange {S : HostGroups} {change : Change} (h : CachesOk B fuel S.groups)
    (happly : applyChange B fuel S change = some S') : CachesOk B fuel S'.groups := by
  cases change with
  | put hgroup => exact cachesOk_put h happly
  | delete E name =>
    cases happly
    exact cachesOk_del name h

theorem cachesOk_changes {S : HostGroups} {changes : List Change}
    (h : CachesOk B fuel S.groups) (hrun : changes.foldlM (applyChange B fuel) S = some S') :
    CachesOk B fuel S'.groups := by
  exact foldlM_preserves (P := fun S => CachesOk B fuel S.groups)
    (fun _ _ _ _ happly hS => cachesOk_applyChange hS happly) h hrun

theorem fresh_answers {M : List HGroup} (h : Fresh B fuel M g) :
    hgroupHasHostCache g = true ∧ ∃ used, hgroupFindAllReferences B M fuel g.name = some used ∧
      ∀ host, hgroupContainsHost B fuel M g host = some (hrefListHasMember B used.hosts host) := by
  obtain ⟨hversion, hwalk⟩ := h
  have hcache : hgroupHasHostCache g = true := by simpa [hgroupHasHostCache] using hversion
  obtain ⟨used, hused, hhosts⟩ := Option.map_eq_some_iff.mp hwalk
  refine ⟨hcache, used, hused, fun host => ?_⟩
  unfold hgroupContainsHost
  rw [if_pos hcache, hgroupCacheContainsHost, hhosts]

/-- **The resolved-host cache agrees with the walk** after every run of changes. -/
theorem caches_agree (B : Bootstrap) (fuel : ℕ) (S₀ S₁ S : HostGroups)
    (hdistinct : Distinct B S₀.groups) (hinit : hgroupListUpdateCaches B fuel S₀ = some S₁)
    (changes : List Change) (hrun : changes.foldlM (applyChange B fuel) S₁ = some S)
    (g : HGroup) (hg : g ∈ S.groups) :
    hgroupHasHostCache g = true ∧
      ∃ used, hgroupFindAllReferences B S.groups fuel g.name = some used ∧ ∀ host,
        hgroupContainsHost B fuel S.groups g host = some (hrefListHasMember B used.hosts host) :=
  fresh_answers ((cachesOk_changes (cachesOk_updateCaches hdistinct hinit) hrun).fresh g hg)

/-- A diamond: `@top` holds `@x` on two ways. -/
def diamond : HostGroups :=
  ⟨[⟨"@top".toList, ["@a".toList, "@b".toList], [], 0⟩, ⟨"@a".toList, ["@x".toList], [], 0⟩,
    ⟨"@b".toList, ["@X".toList], [], 0⟩, ⟨"@x".toList, ["h1".toList], [], 0⟩], 1⟩

/-- The bottom of the diamond changes, and a group is added and deleted again. -/
theorem caches_agree_diamond : ∃ S₁ S,
    hgroupListUpdateCaches plainBootstrap 6 diamond = some S₁ ∧
    [.put ⟨"@x".toList, ["h2".toList], ["h1".toList], 3⟩, .put ⟨"@y".toList, [], [], 0⟩,
      .delete plainEnvironment "@y".toList].foldlM (applyChange plainBootstrap 6) S₁ = some S ∧
    ∀ g ∈ S.groups, hgroupHasHostCache g = true ∧
      ∃ used, hgroupFindAllReferences plainBootstrap S.groups 6 g.name = some used ∧
        ∀ host, hgroupContainsHost plainBootstrap 6 S.groups g host =
          some (hrefListHasMember plainBootstrap used.hosts host) := by
  have hreturns : ((hgroupListUpdateCaches plainBootstrap 6 diamond).bind fun S₁ =>
      [.put ⟨"@x".toList, ["h2".toList], ["h1".toList], 3⟩, .put ⟨"@y".toList, [], [], 0⟩,
        .delete plainEnvironment "@y".toList].foldlM
          (applyChange plainBootstrap 6) S₁).isSome = true := by
    decide +kernel
  obtain ⟨S, hS⟩ := Option.isSome_iff_exists.mp hreturns
  obtain ⟨S₁, hinit, hrun⟩ := Option.bind_eq_some_iff.mp hS
  exact ⟨S₁, S, hinit, hrun,
    caches_agree plainBootstrap 6 diamond S₁ S (by unfold Distinct; decide) hinit _ hrun⟩

/-! ## Runs of requests -/

variable {answer : Except HgroupError Unit}

theorem gdiAddMod_cachesOk {S : HostGroups} {elem : ReducedElem} {add : Bool}
    (h : gdiAddMod B E fuel S elem add = some (answer, S')) (hS : CachesOk B fuel S.groups) :
    CachesOk B fuel S'.groups := by
  unfold gdiAddMod at h
  dsimp only at h
  split at h
  case isTrue =>
    obtain ⟨-, rfl⟩ := Prod.mk.inj (Option.some.inj h)
    exact hS
  case isFalse hadd =>
  split at h
  case isTrue =>
    obtain ⟨-, rfl⟩ := Prod.mk.inj (Option.some.inj h)
    exact hS
  case isFalse hmod =>
  obtain ⟨-, holdrefs, -⟩ := old_members hadd hmod
  obtain ⟨⟨result, M⟩, hmodified, h⟩ := Option.bind_eq_some_iff.mp h
  have hM := cachesOk_perm (hgroupMod_spec hmodified holdrefs).1 hS
  cases result with
  | error e =>
    obtain ⟨-, rfl⟩ := Prod.mk.inj (Option.some.inj h)
    exact hM
  | ok hgroup =>
    dsimp only at h
    split at h
    · obtain ⟨-, rfl⟩ := Prod.mk.inj (Option.some.inj h)
      exact hM
    · obtain ⟨T, hrefresh, heq⟩ := Option.map_eq_some_iff.mp h
      obtain ⟨-, rfl⟩ := Prod.mk.inj heq
      exact cachesOk_put (S := { S with groups := M }) hM hrefresh

/-- **One request** leaves every cache in agreement with the walk. -/
theorem handle_cachesOk {S : HostGroups} {request : Request}
    (h : handle B E fuel S request = some (answer, S')) (hS : CachesOk B fuel S.groups) :
    CachesOk B fuel S'.groups := by
  cases request with
  | add elem =>
    have hadd : gdiAddMod B E fuel S elem true = some (answer, S') := h
    exact gdiAddMod_cachesOk hadd hS
  | modify elem =>
    have hmodify : gdiAddMod B E fuel S elem false = some (answer, S') := h
    exact gdiAddMod_cachesOk hmodify hS
  | delete name =>
    have heq := congrArg Prod.snd (Option.some.inj h)
    dsimp only at heq
    rw [← heq]
    exact cachesOk_del name hS

def handleAll (B : Bootstrap) (fuel : ℕ) (S : HostGroups)
    (requests : List (Environment × Request)) : Option HostGroups :=
  requests.foldlM (fun S request => (handle B request.1 fuel S request.2).map Prod.snd) S

/-- Every group has a cache that says what the walk finds. -/
def CachesAgree (B : Bootstrap) (fuel : ℕ) (M : List HGroup) : Prop :=
  ∀ g ∈ M, hgroupHasHostCache g = true ∧
    ∃ used, hgroupFindAllReferences B M fuel g.name = some used ∧ ∀ host,
      hgroupContainsHost B fuel M g host = some (hrefListHasMember B used.hosts host)

/-- **The caches agree with the walk** after every run of requests, accepted or refused. -/
theorem requests_agree (B : Bootstrap) (fuel : ℕ) (S₀ S₁ S : HostGroups)
    (hdistinct : Distinct B S₀.groups) (hinit : hgroupListUpdateCaches B fuel S₀ = some S₁)
    (requests : List (Environment × Request)) (hrun : handleAll B fuel S₁ requests = some S) :
    CachesAgree B fuel S.groups := by
  have hS := foldlM_preserves (P := fun S => CachesOk B fuel S.groups)
    (fun S request _ S' hstep hS => by
      obtain ⟨read, hhandle, rfl⟩ := Option.map_eq_some_iff.mp hstep
      exact handle_cachesOk hhandle hS) (cachesOk_updateCaches hdistinct hinit) hrun
  exact fun g hg => fresh_answers (hS.fresh g hg)

/-- A group is added above the diamond, and its bottom is not deleted. -/
def aboveDiamond : List (Environment × Request) :=
  [(plainEnvironment, addRequest "@y".toList ["@top".toList]),
    (plainEnvironment, .delete "@x".toList)]

theorem requests_agree_diamond : ∃ S₁ S,
    hgroupListUpdateCaches plainBootstrap 9 diamond = some S₁ ∧
    handleAll plainBootstrap 9 S₁ aboveDiamond = some S ∧
    CachesAgree plainBootstrap 9 S.groups := by
  have hreturns : ((hgroupListUpdateCaches plainBootstrap 9 diamond).bind fun S₁ =>
      handleAll plainBootstrap 9 S₁ aboveDiamond).isSome = true := by
    decide +kernel
  obtain ⟨S, hS⟩ := Option.isSome_iff_exists.mp hreturns
  obtain ⟨S₁, hinit, hrun⟩ := Option.bind_eq_some_iff.mp hS
  exact ⟨S₁, S, hinit, hrun,
    requests_agree plainBootstrap 9 diamond S₁ S (by unfold Distinct; decide) hinit _ hrun⟩

end ClusterScheduler.Qmaster
