import ClusterScheduler.Qmaster.HostGroupGraph

/-! # The hosts a change of a group adds and removes

`hgroup_mod_hostlist` compares the two lists of members, resolves the groups that
come and go, and takes out what the other list resolves to as well.

- `Changed` — what is found for the members that are only in one of the lists.
- `RemainsOf` — what the comparison of both sides may leave of it.
- `effectiveDiff_remains`, `hgroupModHostlist_change` — the hosts handed on are those
  one list resolves to and the other does not.
-/

namespace ClusterScheduler.Qmaster

open Relation Foundation Sgeobj

variable {B : Bootstrap} {E : Environment} {M : List HGroup}

/-! ## Members of one list only -/

variable (B M) in
/-- A host among the members that are only in `thisList`, or one their groups resolve
to. -/
def Changed (thisList list : List Name) (x : Name) : Prop :=
  (isLiteralHost x = true ∧ x ∈ thisList ∧ hrefListHasMember B list x = false) ∨
    ResolvesTo B M (hrefListCompare B thisList list).groups x

theorem resolvesTo_mono {list list' : List Name} (h : list ⊆ list') {x : Name}
    (hx : ResolvesTo B M list x) : ResolvesTo B M list' x := by
  refine ⟨hx.1, hx.2.imp (fun hmem => h hmem) ?_⟩
  rintro ⟨g, hg, ⟨name, hname, hgroup, hpath⟩, hmem⟩
  exact ⟨g, hg, ⟨name, h hname, hgroup, hpath⟩, hmem⟩

theorem resolvesTo_of_changed {thisList list : List Name} {x : Name}
    (hx : Changed B M thisList list x) : ResolvesTo B M thisList x := by
  rcases hx with ⟨hhost, hmem, -⟩ | hx
  · exact ⟨hhost, .inl hmem⟩
  · exact resolvesTo_mono (fun n hn => ((hrefListCompare_lists _ _).2.sound n hn).2.1) hx

theorem changed_of_resolvesTo {thisList list : List Name} {x : Name}
    (hx : ResolvesTo B M thisList x)
    (hnot : ∀ y, ResolvesTo B M list y → hostKey B y ≠ hostKey B x) :
    Changed B M thisList list x := by
  obtain ⟨hhost, hmem | ⟨g, hg, ⟨name, hname, hgroup, hpath⟩, hmem⟩⟩ := hx
  · refine .inl ⟨hhost, hmem, Bool.eq_false_iff.mpr fun hold => ?_⟩
    obtain ⟨y, hy, hkey⟩ := hrefListHasMember_iff.mp hold
    exact hnot y ⟨isLiteralHost_of_hostKey hkey.symm hhost, .inl hy⟩ hkey
  · have hnew : hrefListHasMember B list name = false := Bool.eq_false_iff.mpr fun hold => by
      obtain ⟨r, hr, hkey⟩ := hrefListHasMember_iff.mp hold
      have hr' : isHgroupName r = true := (isHgroupName_of_hostKey hkey).trans hgroup
      rw [← hkey] at hpath
      exact hnot x ⟨hhost, .inr ⟨g, hg, ⟨r, hr, hr', hpath⟩, hmem⟩⟩ rfl
    have hlists := (hrefListCompare_lists (B := B) thisList list).2
    obtain ⟨r, hr, hkey⟩ :=
      hrefListHasMember_iff.mp (hlists.complete name ⟨hgroup, hname, hnew⟩)
    rw [← hkey] at hpath
    exact .inr ⟨hhost, .inr ⟨g, hg, ⟨r, hr, (hlists.sound r hr).1, hpath⟩, hmem⟩⟩

/-! ## The comparison of both sides -/

variable (B) in
/-- The names with `P`, some of those with `Q` left out. -/
structure RemainsOf (list : List Name) (P Q : Name → Prop) : Prop where
  sound : ∀ x ∈ list, P x
  complete : ∀ x, P x → (∀ y, Q y → hostKey B y ≠ hostKey B x) →
    hrefListHasMember B list x = true
  once : (list.map (hostKey B)).Nodup

theorem remains_of_lists {list : List Name} {P Q : Name → Prop}
    (h : ListsOnce B list P) : RemainsOf B list P Q :=
  ⟨h.sound, fun x hx _ => h.complete x hx, h.once⟩

theorem remains_compare {list other : List Name} {P Q : Name → Prop} (h : ListsOnce B list P)
    (hother : ListsOnce B other Q) (hhost : ∀ x, P x → isLiteralHost x = true) :
    RemainsOf B (hrefListCompare B list other).hosts P Q where
  sound x hx := h.sound x ((hrefListCompare_lists list other).1.sound x hx).2.1
  complete x hx hnot := by
    obtain ⟨y, hy, hkey⟩ := hrefListHasMember_iff.mp (h.complete x hx)
    have hnone : hrefListHasMember B other y = false := Bool.eq_false_iff.mpr fun hmem => by
      obtain ⟨z, hz, hzkey⟩ := hrefListHasMember_iff.mp hmem
      exact hnot z (hother.sound z hz) (hzkey.trans hkey)
    obtain ⟨z, hz, hzkey⟩ := hrefListHasMember_iff.mp
      ((hrefListCompare_lists list other).1.complete y ⟨hhost y (h.sound y hy), hy, hnone⟩)
    exact hrefListHasMember_iff.mpr ⟨z, hz, hzkey.trans hkey⟩
  once := (hrefListCompare_lists list other).1.once

/-- What the effective difference of two lists of members holds. -/
theorem effectiveDiff_remains (h : Distinct B M) {fuel : ℕ}
    {hrefs old addHosts remHosts : List Name}
    (hdiff : hrefListFindEffectiveDiff B fuel M (hrefListCompare B hrefs old)
      (hrefListCompare B old hrefs) = some (addHosts, remHosts)) :
    RemainsOf B addHosts (Changed B M hrefs old) (Changed B M old hrefs) ∧
      RemainsOf B remHosts (Changed B M old hrefs) (Changed B M hrefs old) := by
  obtain ⟨add, hadd, hdiff⟩ := Option.bind_eq_some_iff.mp hdiff
  obtain ⟨rem, hrem, hdiff⟩ := Option.map_eq_some_iff.mp hdiff
  have hadded : ListsOnce B add.hosts (Changed B M hrefs old) :=
    (findAllReferences_lists h (hrefListCompare_lists hrefs old).1 hadd).1
  have hremoved : ListsOnce B rem.hosts (Changed B M old hrefs) :=
    (findAllReferences_lists h (hrefListCompare_lists old hrefs).1 hrem).1
  split at hdiff
  · cases hdiff
    have hhost (thisList list : List Name) (x : Name) (hx : Changed B M thisList list x) :
        isLiteralHost x = true := (resolvesTo_of_changed hx).1
    exact ⟨remains_compare hadded hremoved (hhost _ _), remains_compare hremoved hadded (hhost _ _)⟩
  · cases hdiff
    exact ⟨remains_of_lists hadded, remains_of_lists hremoved⟩

/-! ## Taking out what the other list resolves to -/

theorem eraseP_eq_filter {list : List Name} (h : (list.map (hostKey B)).Nodup) (name : Name) :
    (list.eraseP fun href => hostKey B href = hostKey B name) =
      list.filter fun href => !decide (hostKey B href = hostKey B name) := by
  induction list with
  | nil => rfl
  | cons href list ih =>
    obtain ⟨hnot, hlist⟩ := List.nodup_cons.mp h
    by_cases hkey : hostKey B href = hostKey B name
    · rw [List.eraseP_cons_of_pos (by simpa using hkey),
        List.filter_cons_of_neg (by simpa using hkey)]
      refine (List.filter_eq_self.mpr fun x hx => ?_).symm
      have hne : hostKey B x ≠ hostKey B name := fun hx' =>
        hnot (List.mem_map.mpr ⟨x, hx, hx'.trans hkey.symm⟩)
      simpa using hne
    · rw [List.eraseP_cons_of_neg (by simpa using hkey),
        List.filter_cons_of_pos (by simpa using hkey), ih hlist]

theorem hrefListRemoveExisting_eq {thisList : List Name} (h : (thisList.map (hostKey B)).Nodup)
    (list : List Name) :
    hrefListRemoveExisting B thisList list =
      thisList.filter fun name => !hrefListHasMember B list name := by
  unfold hrefListRemoveExisting
  induction list generalizing thisList with
  | nil => exact (List.filter_eq_self.mpr fun _ _ => rfl).symm
  | cons name list ih =>
    have hkept : ((thisList.filter fun href =>
        !decide (hostKey B href = hostKey B name)).map (hostKey B)).Nodup :=
      h.sublist (List.filter_sublist.map _)
    rw [List.foldl_cons, eraseP_eq_filter h, ih hkept, List.filter_filter]
    refine List.filter_congr fun x _ => ?_
    have hcons : hrefListHasMember B (name :: list) x =
        (hrefListHasMember B list x || decide (hostKey B x = hostKey B name)) := by
      rw [Bool.eq_iff_iff, Bool.or_eq_true, hrefListHasMember_iff, hrefListHasMember_iff,
        List.exists_mem_cons_iff, or_comm, decide_eq_true_eq, eq_comm (a := hostKey B x)]
    rw [hcons, Bool.not_or]

theorem removeExisting_lists {thisList list hosts resolved : List Name}
    (h : RemainsOf B hosts (Changed B M thisList list) (Changed B M list thisList))
    (hresolved : ListsOnce B resolved (ResolvesTo B M list)) :
    ListsOnce B (hrefListRemoveExisting B hosts resolved) fun x =>
      ResolvesTo B M thisList x ∧ ∀ y, ResolvesTo B M list y → hostKey B y ≠ hostKey B x := by
  rw [hrefListRemoveExisting_eq h.once]
  refine ⟨fun x hx => ?_, fun x hx => ?_, h.once.sublist (List.filter_sublist.map _)⟩
  · obtain ⟨hmem, hnone⟩ := List.mem_filter.mp hx
    rw [Bool.not_eq_true'] at hnone
    refine ⟨resolvesTo_of_changed (h.sound x hmem), fun y hy hkey => ?_⟩
    obtain ⟨z, hz, hzkey⟩ := hrefListHasMember_iff.mp (hresolved.complete y hy)
    have hsome : hrefListHasMember B resolved x = true :=
      hrefListHasMember_iff.mpr ⟨z, hz, hzkey.trans hkey⟩
    exact absurd (hnone.symm.trans hsome) (by decide)
  · obtain ⟨hnew, hnot⟩ := hx
    obtain ⟨y, hy, hkey⟩ := hrefListHasMember_iff.mp
      (h.complete x (changed_of_resolvesTo hnew hnot) fun y hy =>
        hnot y (resolvesTo_of_changed hy))
    refine hrefListHasMember_iff.mpr ⟨y, List.mem_filter.mpr ⟨hy, ?_⟩, hkey⟩
    rw [Bool.not_eq_true']
    refine Bool.eq_false_iff.mpr fun hmem => ?_
    obtain ⟨z, hz, hzkey⟩ := hrefListHasMember_iff.mp hmem
    exact hnot z (hresolved.sound z hz) (hzkey.trans hkey)

/-! ## The change of a group -/

/-- Hosts that resolve to themselves, if at all, stay as they are. -/
theorem resolveHostnames_of_canonical {list resolved : List Name} {ignoreErrors : Bool}
    (hcanonical : ∀ x ∈ list, ∀ y, E.resolve x = some y → y = x)
    (h : hrefListResolveHostnames E list ignoreErrors = some resolved) : resolved = list := by
  unfold hrefListResolveHostnames at h
  induction list generalizing resolved with
  | nil => exact (Option.some.inj h).symm
  | cons name list ih =>
    rw [List.mapM_cons] at h
    obtain ⟨x, hx, hrest⟩ := Option.bind_eq_some_iff.mp h
    obtain ⟨xs, hxs, heq⟩ := Option.bind_eq_some_iff.mp hrest
    cases heq
    rw [ih (fun y hy => hcanonical y (.tail _ hy)) hxs]
    congr 1
    split at hx
    · exact (Option.some.inj hx).symm
    · exact absurd hx (by simp)
    · split at hx
      · next y hy =>
        obtain rfl := Option.some.inj hx
        exact hcanonical name (.head _) y hy
      · split at hx
        · exact (Option.some.inj hx).symm
        · exact absurd hx (by simp)

/-- **The change handed on is exact.** `hgroup_mod_hostlist` returns. When it accepts, the new
list of members is the old one changed as requested, and the hosts added are those the new
list resolves to and the old one does not, and the hosts removed those the old one resolves
to and the new one does not. -/
theorem hgroupModHostlist_change (h : Distinct B M) (hacyclic : Acyclic (Refers B M)) {fuel : ℕ}
    (hfuel : M.length + 2 ≤ fuel) (hgroup : HGroup) (list : List Name) (sub : SubCommand) :
    ∃ result, hgroupModHostlist B E fuel M hgroup list sub = some result ∧
      ∀ m, result = .ok m →
        (∃ resolved, hrefListResolveHostnames E list true = some resolved ∧ m.hgroup.hostList =
          hrefListMakeUniq B E.hashed (attrModSubList B sub hgroup.hostList resolved)) ∧
        ((∀ x, ResolvesTo B M m.hgroup.hostList x → ∀ y, E.resolve x = some y → y = x) →
        ListsOnce B m.addHosts (fun x => ResolvesTo B M m.hgroup.hostList x ∧
          ∀ y, ResolvesTo B M hgroup.hostList y → hostKey B y ≠ hostKey B x) ∧
        ListsOnce B m.remHosts (fun x => ResolvesTo B M hgroup.hostList x ∧
          ∀ y, ResolvesTo B M m.hgroup.hostList y → hostKey B y ≠ hostKey B x)) := by
  obtain ⟨result, hresult⟩ := Option.isSome_iff_exists.mp
    (hgroupModHostlist_returns (E := E) hacyclic hfuel hgroup list sub)
  refine ⟨result, hresult, ?_⟩
  rintro m rfl
  obtain ⟨resolved, diffHosts, addHosts, remHosts, -, before, after, hrequest, -, hmembers, -,
    hdiff, hresolved, -, -, hbefore, hafter, hadd, hrem⟩ := hgroupModHostlist_accepts hresult
  refine ⟨⟨resolved, hrequest, hmembers⟩, fun hcanonical => ?_⟩
  obtain ⟨hadded, hremoved⟩ := effectiveDiff_remains h hdiff
  obtain rfl := resolveHostnames_of_canonical
    (fun x hx => hcanonical x (resolvesTo_of_changed (hadded.sound x hx))) hresolved
  have hold : ListsOnce B before.hosts (ResolvesTo B M hgroup.hostList) :=
    (findAllReferences_lists h listsOnce_nil hbefore).1.congr fun x => iff_of_eq (false_or _)
  have hnew : ListsOnce B after.hosts (ResolvesTo B M m.hgroup.hostList) :=
    (findAllReferences_lists h listsOnce_nil hafter).1.congr fun x => iff_of_eq (false_or _)
  rw [hadd, hrem]
  exact ⟨removeExisting_lists hadded hold, removeExisting_lists hremoved hnew⟩

/-- `@top` loses one of the two ways to `@x`, and gets a host. -/
theorem hgroupModHostlist_change_twoWays : ∃ m,
    hgroupModHostlist plainBootstrap plainEnvironment 6 twoWays
      ⟨"@top".toList, ["h0".toList, "@a".toList, "@b".toList], [], 0⟩
      ["@b".toList, "h3".toList] ⟨false, false, false⟩ = some (.ok m) ∧
    ListsOnce plainBootstrap m.addHosts (fun x =>
      ResolvesTo plainBootstrap twoWays m.hgroup.hostList x ∧
        ∀ y, ResolvesTo plainBootstrap twoWays ["h0".toList, "@a".toList, "@b".toList] y →
          hostKey plainBootstrap y ≠ hostKey plainBootstrap x) ∧
    ListsOnce plainBootstrap m.remHosts (fun x =>
      ResolvesTo plainBootstrap twoWays ["h0".toList, "@a".toList, "@b".toList] x ∧
        ∀ y, ResolvesTo plainBootstrap twoWays m.hgroup.hostList y →
          hostKey plainBootstrap y ≠ hostKey plainBootstrap x) := by
  obtain ⟨result, hresult, hexact⟩ := hgroupModHostlist_change (E := plainEnvironment)
    distinct_twoWays acyclic_twoWays (le_refl 6)
    ⟨"@top".toList, ["h0".toList, "@a".toList, "@b".toList], [], 0⟩
    ["@b".toList, "h3".toList] ⟨false, false, false⟩
  have haccepted : (hgroupModHostlist plainBootstrap plainEnvironment 6 twoWays
      ⟨"@top".toList, ["h0".toList, "@a".toList, "@b".toList], [], 0⟩
      ["@b".toList, "h3".toList] ⟨false, false, false⟩).all (·.toBool) = true := by
    decide +kernel
  have hcanonical (x y : Name) (hxy : plainEnvironment.resolve x = some y) : y = x :=
    (Option.some.inj hxy).symm
  cases result with
  | error e =>
    rw [plainBootstrap, hresult] at haccepted
    exact absurd haccepted Bool.false_ne_true
  | ok m => exact ⟨m, hresult, (hexact m rfl).2 fun x _ y => hcanonical x y⟩

end ClusterScheduler.Qmaster
