import ClusterScheduler.Sgeobj.HostGroupCache

/-! # What a list of hosts and groups resolves to

The walks over the host groups against the graph of the references. Names are one
name when they have one key.

- `ListsOnce` — a list holds the names with a property, and none twice.
- `ResolvesTo`, `ReachedGroup` — the hosts and the groups in the groups a list leads
  to; `RefersToSome` — the groups that lead to the list.
- `findReferences_eq`, `hrefListCompare_eq` — which names a function of the lists meets.
- `findAllReferences_lists`, `findAllReferencees_lists` — whole walks.
-/

namespace ClusterScheduler.Sgeobj

open Relation Foundation

variable {B : Bootstrap} {M : List HGroup}

/-! ## Lists without a name twice -/

variable (B) in
structure ListsOnce (list : List Name) (P : Name → Prop) : Prop where
  sound : ∀ x ∈ list, P x
  complete : ∀ x, P x → hrefListHasMember B list x = true
  once : (list.map (hostKey B)).Nodup

theorem ListsOnce.congr {list : List Name} {P Q : Name → Prop} (h : ListsOnce B list P)
    (hPQ : ∀ x, P x ↔ Q x) : ListsOnce B list Q :=
  ⟨fun x hx => (hPQ x).mp (h.sound x hx), fun x hx => h.complete x ((hPQ x).mpr hx), h.once⟩

theorem listsOnce_nil : ListsOnce B [] fun _ => False :=
  ⟨List.forall_mem_nil _, fun _ hx => hx.elim, List.nodup_nil⟩

theorem hasMember_of_mem {list : List Name} {x : Name} (h : x ∈ list) :
    hrefListHasMember B list x = true :=
  hrefListHasMember_iff.mpr ⟨x, h, rfl⟩

theorem once_hrefListAdd {list : List Name} (h : (list.map (hostKey B)).Nodup) (name : Name) :
    ((hrefListAdd B list name).map (hostKey B)).Nodup := by
  unfold hrefListAdd
  split
  · exact h
  · next hnew =>
    rw [List.map_append, List.map_singleton]
    refine h.append (List.nodup_singleton _) fun k hk hk' => hnew ?_
    obtain ⟨href, hmem, rfl⟩ := List.mem_map.mp hk
    exact hrefListHasMember_iff.mpr ⟨href, hmem, List.mem_singleton.mp hk'⟩

theorem once_hrefListMerge {list : List Name} (h : (list.map (hostKey B)).Nodup)
    (other : List Name) : ((hrefListMerge B list other).map (hostKey B)).Nodup :=
  List.foldlRecOn (motive := fun list : List Name => (list.map (hostKey B)).Nodup)
    other _ h fun _ hlist name _ => once_hrefListAdd hlist name

theorem mem_of_mem_hrefListMerge {list other : List Name} {x : Name}
    (h : x ∈ hrefListMerge B list other) : x ∈ list ∨ x ∈ other := by
  unfold hrefListMerge at h
  induction other generalizing list with
  | nil => exact .inl h
  | cons name other ih =>
    rcases ih h with hx | hx
    · rcases mem_of_mem_hrefListAdd hx with hx | rfl
      · exact .inl hx
      · exact .inr (.head _)
    · exact .inr (.tail _ hx)

theorem ListsOnce.merge {list other : List Name} {P Q : Name → Prop} (h : ListsOnce B list P)
    (hsound : ∀ x ∈ other, Q x) (hcomplete : ∀ x, Q x → hrefListHasMember B other x = true) :
    ListsOnce B (hrefListMerge B list other) fun x => P x ∨ Q x where
  sound x hx := (mem_of_mem_hrefListMerge hx).imp (h.sound x) (hsound x)
  complete x hx := hasMember_hrefListMerge.mpr (hx.imp (h.complete x) (hcomplete x))
  once := once_hrefListMerge h.once other

/-! ## One level down -/

def isLiteralHost (name : Name) : Bool := classifyMember name = .literalHost

theorem not_literalHost_of_group {name : Name} (h : isHgroupName name = true) :
    ¬ isLiteralHost name = true := by
  simp [isLiteralHost, classifyMember_group.mpr h]

theorem isLiteralHost_iff {name : Name} :
    isLiteralHost name = true ↔ isHgroupName name = false ∧ isMatcher name = false := by
  unfold isLiteralHost classifyMember
  split_ifs <;> simp_all

theorem isLiteralHost_of_hostKey {m n : Name} (hkey : hostKey B m = hostKey B n)
    (hm : isLiteralHost m = true) : isLiteralHost n = true := by
  rw [isLiteralHost_iff] at hm ⊢
  refine ⟨(isHgroupName_of_hostKey hkey).symm.trans hm.1, Bool.eq_false_iff.mpr fun hn => ?_⟩
  have hmatcher := isMatcher_of_hostKey hkey.symm hn
  exact absurd (hmatcher.symm.trans hm.2) (by decide)

variable (B M) in
/-- What stands for a name of the list: a host for itself, a group for its members. -/
def expansion (name : Name) : List Name :=
  match classifyMember name with
  | .groupReference => ((hgroupListLocate B M name).map (·.hostList)).getD []
  | .matcher => []
  | .literalHost => [name]

theorem addReferences_eq (used : Used) (name : Name) :
    addReferences B M used name = (expansion B M name).foldl (addMember B) used := by
  unfold addReferences expansion
  cases hclass : classifyMember name with
  | groupReference => cases hgroupListLocate B M name <;> rfl
  | matcher => rfl
  | literalHost =>
    rw [List.foldl_cons, List.foldl_nil, addMember, hclass]

theorem foldl_addMember (names : List Name) (used : Used) :
    names.foldl (addMember B) used = ⟨hrefListMerge B used.hosts (names.filter isLiteralHost),
        hrefListMerge B used.groups (names.filter isHgroupName)⟩ := by
  induction names generalizing used with
  | nil => rfl
  | cons name names ih =>
    rw [List.foldl_cons, ih]
    unfold addMember
    cases hclass : classifyMember name with
    | groupReference =>
      have hgroup : isHgroupName name = true := classifyMember_group.mp hclass
      have hhost : ¬ isLiteralHost name = true := not_literalHost_of_group hgroup
      simp [hgroup, hhost, hrefListMerge]
    | matcher =>
      have hgroup : ¬ isHgroupName name = true := by simp [← classifyMember_group, hclass]
      have hhost : ¬ isLiteralHost name = true := by simp [isLiteralHost, hclass]
      simp [hgroup, hhost]
    | literalHost =>
      have hgroup : ¬ isHgroupName name = true := by simp [← classifyMember_group, hclass]
      have hhost : isLiteralHost name = true := by simp [isLiteralHost, hclass]
      simp [hgroup, hhost, hrefListMerge]

/-- Names met on a walk: the hosts and the groups among them are found. -/
theorem foldl_addMember_lists (names : List Name) (used : Used) {P Q : Name → Prop}
    (hhosts : ListsOnce B used.hosts P) (hgroups : ListsOnce B used.groups Q) :
    ListsOnce B (names.foldl (addMember B) used).hosts
        (fun x => P x ∨ isLiteralHost x = true ∧ x ∈ names) ∧
      ListsOnce B (names.foldl (addMember B) used).groups
        (fun x => Q x ∨ isHgroupName x = true ∧ x ∈ names) := by
  rw [foldl_addMember]
  constructor
  · refine hhosts.merge (fun x hx => ?_) fun x hx => hasMember_of_mem ?_
    · exact (List.mem_filter.mp hx).symm
    · exact List.mem_filter.mpr hx.symm
  · refine hgroups.merge (fun x hx => ?_) fun x hx => hasMember_of_mem ?_
    · exact (List.mem_filter.mp hx).symm
    · exact List.mem_filter.mpr hx.symm

/-- One level down meets the names that stand for those of the list. -/
theorem findReferences_eq (list : List Name) (used : Used) :
    findReferences B M list used = (list.flatMap (expansion B M)).foldl (addMember B) used := by
  rw [List.foldl_flatMap]
  unfold findReferences
  congr 1
  funext used name
  exact addReferences_eq used name

/-- A comparison meets the names that are not in the other list. -/
theorem hrefListCompare_eq (thisList list : List Name) :
    hrefListCompare B thisList list =
      (thisList.filter fun name => !hrefListHasMember B list name).foldl (addMember B)
        ⟨[], []⟩ := by
  rw [List.foldl_filter]
  unfold hrefListCompare
  congr 1
  funext added name
  unfold addMember
  cases hrefListHasMember B list name <;> cases classifyMember name <;> rfl

theorem hrefListCompare_lists (thisList list : List Name) :
    ListsOnce B (hrefListCompare B thisList list).hosts
        (fun x => isLiteralHost x = true ∧ x ∈ thisList ∧ hrefListHasMember B list x = false) ∧
      ListsOnce B (hrefListCompare B thisList list).groups
        (fun x => isHgroupName x = true ∧ x ∈ thisList ∧ hrefListHasMember B list x = false) := by
  have hmem (x : Name) : x ∈ thisList.filter (fun name => !hrefListHasMember B list name) ↔
      x ∈ thisList ∧ hrefListHasMember B list x = false := by
    rw [List.mem_filter, Bool.not_eq_true']
  rw [hrefListCompare_eq]
  obtain ⟨hhosts, hgroups⟩ := foldl_addMember_lists (B := B)
    (thisList.filter fun name => !hrefListHasMember B list name) ⟨[], []⟩
    listsOnce_nil listsOnce_nil
  constructor
  · exact hhosts.congr fun x => by rw [false_or, hmem]
  · exact hgroups.congr fun x => by rw [false_or, hmem]

theorem mem_expansion (h : Distinct B M) {name x : Name} :
    x ∈ expansion B M name ↔ isLiteralHost name = true ∧ x = name ∨
      isHgroupName name = true ∧ ∃ g ∈ M, hostKey B g.name = hostKey B name ∧ x ∈ g.hostList := by
  unfold expansion
  rw [← classifyMember_group, isLiteralHost, decide_eq_true_eq]
  cases classifyMember name with
  | matcher => simp
  | literalHost => simp
  | groupReference =>
    simp only [reduceCtorEq, false_and, true_and, false_or]
    constructor
    · intro hx
      cases hfind : hgroupListLocate B M name with
      | none => simp [hfind] at hx
      | some g =>
        refine ⟨g, List.mem_of_find?_eq_some hfind, by simpa using List.find?_some hfind, ?_⟩
        simpa [hfind] using hx
    · rintro ⟨g, hg, hkey, hx⟩
      simpa [h.locate hg hkey] using hx

/-! ## Groups a list leads to -/

variable (B M)

def LeadsTo (list : List Name) (k : Name) : Prop :=
  ∃ name ∈ list, isHgroupName name = true ∧ ReflTransGen (Refers B M) (hostKey B name) k

def ReachedMember (list : List Name) (x : Name) : Prop :=
  ∃ g ∈ M, LeadsTo B M list (hostKey B g.name) ∧ x ∈ g.hostList

/-- A host of the list, or of a group it leads to. -/
def ResolvesTo (list : List Name) (x : Name) : Prop :=
  isLiteralHost x = true ∧ (x ∈ list ∨ ReachedMember B M list x)

def ReachedGroup (list : List Name) (x : Name) : Prop :=
  isHgroupName x = true ∧ ReachedMember B M list x

/-- A group from which at least one reference leads to a group of the list. -/
def RefersToSome (list : List Name) (x : Name) : Prop :=
  (∃ g ∈ M, g.name = x) ∧ ∃ name ∈ list, isHgroupName name = true ∧
    TransGen (Refers B M) (hostKey B x) (hostKey B name)

def DirectMember (list : List Name) (x : Name) : Prop :=
  ∃ name ∈ list, isHgroupName name = true ∧
    ∃ g ∈ M, hostKey B g.name = hostKey B name ∧ x ∈ g.hostList

variable {B M}

/-- The members reached are those of the groups of the list, and what the groups among
these lead to. -/
theorem reachedMember_iff {list next : List Name} {x : Name}
    (hnext : ListsOnce B next fun r => isHgroupName r = true ∧ DirectMember B M list r) :
    ReachedMember B M list x ↔ DirectMember B M list x ∨ ReachedMember B M next x := by
  constructor
  · rintro ⟨g, hg, ⟨name, hname, hgroup, hpath⟩, hx⟩
    rcases ReflTransGen.cases_head hpath with hkey | ⟨c, ⟨g', hg', hkey, r, hr, hr', rfl⟩, hrest⟩
    · exact .inl ⟨name, hname, hgroup, g, hg, hkey.symm, hx⟩
    · -- the reference taken first is on the next level under its key
      have hdirect : DirectMember B M list r := ⟨name, hname, hgroup, g', hg', hkey, hr⟩
      obtain ⟨n, hn, hnkey⟩ := hrefListHasMember_iff.mp (hnext.complete r ⟨hr', hdirect⟩)
      refine .inr ⟨g, hg, ⟨n, hn, (hnext.sound n hn).1, ?_⟩, hx⟩
      rw [hnkey]
      exact hrest
  · rintro (⟨name, hname, hgroup, g, hg, hkey, hx⟩ | ⟨g, hg, ⟨n, hn, hn', hpath⟩, hx⟩)
    · refine ⟨g, hg, ⟨name, hname, hgroup, ?_⟩, hx⟩
      rw [hkey]
    · obtain ⟨name, hname, hgroup, g', hg', hkey, hr⟩ := (hnext.sound n hn).2
      exact ⟨g, hg, ⟨name, hname, hgroup, .head ⟨g', hg', hkey, n, hr, hn', rfl⟩ hpath⟩, hx⟩

/-! ## The walk down -/

theorem findReferences_lists (h : Distinct B M) (list : List Name) (used : Used)
    {P Q : Name → Prop} (hhosts : ListsOnce B used.hosts P) (hgroups : ListsOnce B used.groups Q) :
    ListsOnce B (findReferences B M list used).hosts
        (fun x => P x ∨ isLiteralHost x = true ∧ (x ∈ list ∨ DirectMember B M list x)) ∧
      ListsOnce B (findReferences B M list used).groups
        (fun x => Q x ∨ isHgroupName x = true ∧ DirectMember B M list x) := by
  have hmem (x : Name) : x ∈ list.flatMap (expansion B M) ↔
      isLiteralHost x = true ∧ x ∈ list ∨ DirectMember B M list x := by
    rw [List.mem_flatMap]
    simp only [mem_expansion h]
    constructor
    · rintro ⟨name, hname, ⟨hclass, rfl⟩ | ⟨hgroup, hx⟩⟩
      · exact .inl ⟨hclass, hname⟩
      · exact .inr ⟨name, hname, hgroup, hx⟩
    · rintro (⟨hclass, hx⟩ | ⟨name, hname, hgroup, hx⟩)
      · exact ⟨x, hx, .inl ⟨hclass, rfl⟩⟩
      · exact ⟨name, hname, .inr ⟨hgroup, hx⟩⟩
  rw [findReferences_eq]
  obtain ⟨hlevelHosts, hlevelGroups⟩ :=
    foldl_addMember_lists (list.flatMap (expansion B M)) used hhosts hgroups
  constructor
  · refine hlevelHosts.congr fun x => or_congr_right (and_congr_right fun hhost => ?_)
    rw [hmem, and_iff_right hhost]
  · refine hlevelGroups.congr fun x => or_congr_right (and_congr_right fun hgroup => ?_)
    rw [hmem]
    exact or_iff_right fun hhost => not_literalHost_of_group hgroup hhost.1

theorem findAllReferences_lists (h : Distinct B M) {fuel : ℕ} {list hosts : List Name}
    {used : Used} {P : Name → Prop} (hhosts : ListsOnce B hosts P)
    (hwalk : findAllReferences B M fuel list ⟨hosts, []⟩ = some used) :
    ListsOnce B used.hosts (fun x => P x ∨ ResolvesTo B M list x) ∧
      ListsOnce B used.groups (ReachedGroup B M list) := by
  -- induction on the levels: what is found below belongs to the groups of this level
  induction fuel generalizing list hosts used P with
  | zero => exact absurd hwalk (by simp [findAllReferences])
  | succ fuel ih =>
    obtain ⟨hlevel, hnext⟩ := findReferences_lists h list ⟨hosts, []⟩ hhosts listsOnce_nil
    replace hnext := hnext.congr fun x => iff_of_eq (false_or _)
    have hmember (x : Name) := reachedMember_iff (x := x) hnext
    simp only [findAllReferences] at hwalk
    generalize findReferences B M list ⟨hosts, []⟩ = level at hlevel hnext hmember hwalk
    split at hwalk
    · next hstop =>
      obtain rfl := Option.some.inj hwalk
      have hnone (x : Name) : ¬ ReachedMember B M level.groups x := by
        rw [hstop]
        rintro ⟨-, -, ⟨_, hname, -⟩, -⟩
        exact absurd hname List.not_mem_nil
      constructor
      · refine hlevel.congr fun x => ?_
        rw [ResolvesTo, hmember, or_iff_left (hnone x)]
      · refine hnext.congr fun x => ?_
        rw [ReachedGroup, hmember, or_iff_left (hnone x)]
    · obtain ⟨sub, hsub, rfl⟩ := Option.map_eq_some_iff.mp hwalk
      obtain ⟨hsubHosts, hsubGroups⟩ := ih listsOnce_nil hsub
      constructor
      · refine (hlevel.merge hsubHosts.sound hsubHosts.complete).congr fun x => ?_
        have hnot : isLiteralHost x = true → x ∉ level.groups := fun hhost hx =>
          not_literalHost_of_group (hnext.sound x hx).1 hhost
        simp only [ResolvesTo, hmember]
        tauto
      · refine (hnext.merge hsubGroups.sound hsubGroups.complete).congr fun x => ?_
        rw [ReachedGroup, ReachedGroup, hmember, and_or_left]

/-! ## The walk up -/

theorem once_findReferencees {list occupants : List Name} (h : (occupants.map (hostKey B)).Nodup) :
    ((findReferencees B M list occupants).map (hostKey B)).Nodup := by
  refine List.foldlRecOn (motive := fun list : List Name => (list.map (hostKey B)).Nodup)
    list _ h fun occupants hlist name _ => ?_
  unfold addReferencees
  split
  · refine List.foldlRecOn (motive := fun list : List Name => (list.map (hostKey B)).Nodup)
      M _ hlist fun occupants hlist g _ => ?_
    split
    · exact once_hrefListAdd hlist _
    · exact hlist
  · exact hlist

/-- The walk up lists exactly the groups that lead to one of the list. -/
theorem findAllReferencees_lists {fuel : ℕ} {list occupants : List Name}
    (hwalk : findAllReferencees B M fuel list [] = some occupants) :
    ListsOnce B occupants (RefersToSome B M list) := by
  suffices hsound : (∀ x ∈ occupants, RefersToSome B M list x) ∧
      (occupants.map (hostKey B)).Nodup by
    refine ⟨hsound.1, fun x hx => ?_, hsound.2⟩
    obtain ⟨-, name, hname, hgroup, hpath⟩ := hx
    exact findAllReferencees_complete hwalk hname hgroup hpath
  induction fuel generalizing list occupants with
  | zero => exact absurd hwalk (by simp [findAllReferencees])
  | succ fuel ih =>
    have hlevel (x : Name) (hx : x ∈ findReferencees B M list []) :
        (∃ g ∈ M, g.name = x) ∧ ∃ name ∈ list, isHgroupName name = true ∧
          Refers B M (hostKey B x) (hostKey B name) :=
      (mem_findReferencees hx).resolve_left List.not_mem_nil
    have honce : ((findReferencees B M list []).map (hostKey B)).Nodup :=
      once_findReferencees List.nodup_nil
    simp only [findAllReferencees] at hwalk
    generalize findReferencees B M list [] = level at hlevel honce hwalk
    have hdirect (x : Name) (hx : x ∈ level) : RefersToSome B M list x := by
      obtain ⟨hg, name, hname, hgroup, hedge⟩ := hlevel x hx
      exact ⟨hg, name, hname, hgroup, .single hedge⟩
    split at hwalk
    · cases hwalk
      exact ⟨hdirect, honce⟩
    · obtain ⟨sub, hsub, rfl⟩ := Option.map_eq_some_iff.mp hwalk
      refine ⟨fun x hx => ?_, once_hrefListMerge honce sub⟩
      rcases mem_of_mem_hrefListMerge hx with hx | hx
      · exact hdirect x hx
      · -- a path to the level goes on with the reference from there
        obtain ⟨hg, o, ho, -, hpath⟩ := (ih hsub).1 x hx
        obtain ⟨-, name, hname, hgroup, hedge⟩ := hlevel o ho
        exact ⟨hg, name, hname, hgroup, hpath.tail hedge⟩

/-! ## Whole walks -/

/-- **Resolution is reachability.** With acyclic references both walks return. The walk
down lists the hosts of the list and of every group it leads to, and the groups these
groups refer to; the walk up lists the groups that lead to one of the list. -/
theorem resolution_reaches (h : Distinct B M) (hacyclic : Acyclic (Refers B M)) {fuel : ℕ}
    (hfuel : M.length + 2 ≤ fuel) (list : List Name) :
    (∃ used, findAllReferences B M fuel list ⟨[], []⟩ = some used ∧
      ListsOnce B used.hosts (ResolvesTo B M list) ∧
      ListsOnce B used.groups (ReachedGroup B M list)) ∧
    ∃ occupants, findAllReferencees B M fuel list [] = some occupants ∧
      ListsOnce B occupants (RefersToSome B M list) := by
  constructor
  · obtain ⟨used, hused⟩ :=
      Option.isSome_iff_exists.mp (findAllReferences_returns hacyclic hfuel list [])
    obtain ⟨hhosts, hgroups⟩ := findAllReferences_lists h listsOnce_nil hused
    exact ⟨used, hused, hhosts.congr fun x => iff_of_eq (false_or _), hgroups⟩
  · obtain ⟨occupants, hwalk⟩ :=
      Option.isSome_iff_exists.mp (findAllReferencees_returns hacyclic hfuel list)
    exact ⟨occupants, hwalk, findAllReferencees_lists hwalk⟩

def twoWays : List HGroup :=
  [⟨"@top".toList, ["h0".toList, "@a".toList, "@b".toList], [], 0⟩,
    ⟨"@a".toList, ["@x".toList, "h1".toList], [], 0⟩, ⟨"@b".toList, ["@X".toList], [], 0⟩,
    ⟨"@x".toList, ["h1".toList, "h2".toList], [], 0⟩]

/-- How far the groups of `twoWays` are from `@x`. -/
def twoWaysRank (key : Name) : ℕ :=
  ["@X".toList, "@A".toList, "@B".toList, "@TOP".toList].idxOf key

theorem distinct_twoWays : Distinct ⟨false, none⟩ twoWays := by
  unfold Distinct
  decide

theorem acyclic_twoWays : Acyclic (Refers ⟨false, none⟩ twoWays) := by
  have hfalls : ∀ g ∈ twoWays, ∀ r ∈ g.hostList, isHgroupName r = true →
      twoWaysRank (hostKey ⟨false, none⟩ r) < twoWaysRank (hostKey ⟨false, none⟩ g.name) := by
    decide
  refine acyclic_of_falls twoWaysRank ?_
  rintro a b ⟨g, hg, rfl, r, hr, hgroup, rfl⟩
  exact hfalls g hg r hr hgroup

theorem resolution_reaches_twoWays :
    (∃ used, findAllReferences ⟨false, none⟩ twoWays 6 ["@top".toList] ⟨[], []⟩ = some used ∧
      ListsOnce ⟨false, none⟩ used.hosts (ResolvesTo ⟨false, none⟩ twoWays ["@top".toList]) ∧
      ListsOnce ⟨false, none⟩ used.groups
        (ReachedGroup ⟨false, none⟩ twoWays ["@top".toList])) ∧
    ∃ occupants, findAllReferencees ⟨false, none⟩ twoWays 6 ["@top".toList] [] =
        some occupants ∧
      ListsOnce ⟨false, none⟩ occupants
        (RefersToSome ⟨false, none⟩ twoWays ["@top".toList]) :=
  resolution_reaches distinct_twoWays acyclic_twoWays (le_refl 6) _

end ClusterScheduler.Sgeobj
