import Mathlib.Data.Set.Finite.List
import ClusterScheduler.Foundation.Digraph
import ClusterScheduler.Sgeobj.HostNames

/-! # Host groups

A host group lists hosts and other groups. The functions of the host reference
lists and of the host groups, as the qmaster uses them:

- `hrefListAdd`, `hrefListCompare`, … — lists of names without a name twice.
- `findAllReferences` — the walk down: what a list of names resolves to.
- `findAllReferencees` — the walk up: the groups that hold one of the names.

Both walks carry no set of visited groups. They take fuel here, and `none` stands
for a call that does not return. `Refers` is the graph they walk; on an acyclic
one they return (`findAllReferences_returns`, `findAllReferencees_returns`), and the
walk up misses no group (`findAllReferencees_complete`).
-/

namespace ClusterScheduler.Sgeobj

open Relation Foundation

/-- `HGRP_Type` -/
structure HGroup where
  name : Name
  hostList : List Name
  cachedHosts : List Name
  cacheVersion : ℕ
  deriving DecidableEq

/-- Hosts and groups found on a walk. -/
structure Used where
  hosts : List Name
  groups : List Name
  deriving DecidableEq

variable (B : Bootstrap)

/-! ## Lists of references -/

def hrefListLocate (list : List Name) (name : Name) : Option Name :=
  list.find? fun href => hostKey B href = hostKey B name

def hrefListHasMember (list : List Name) (name : Name) : Bool :=
  (hrefListLocate B list name).isSome

def hrefListAdd (list : List Name) (name : Name) : List Name :=
  if hrefListHasMember B list name then list else list ++ [name]

def hrefListMerge (list other : List Name) : List Name :=
  other.foldl (hrefListAdd B) list

/-- The hosts and groups of `thisList` that are not in `list`. -/
def hrefListCompare (thisList list : List Name) : Used :=
  thisList.foldl (fun added name =>
    match classifyMember name with
    | .matcher => added
    | .groupReference =>
      if hrefListHasMember B list name then added
      else { added with groups := hrefListAdd B added.groups name }
    | .literalHost =>
      if hrefListHasMember B list name then added
      else { added with hosts := hrefListAdd B added.hosts name }) ⟨[], []⟩

/-- What is only in `thisList`, and what is only in `list`. -/
def hrefListFindDiff (thisList list : List Name) : Used × Used :=
  (hrefListCompare B thisList list, hrefListCompare B list thisList)

def hrefListRemoveExisting (thisList list : List Name) : List Name :=
  list.foldl (fun left name => left.eraseP fun href => hostKey B href = hostKey B name) thisList

/-- Drop what is found under a key of an earlier name. -/
def dropRepeated : List Name → List Name → List Name
  | done, [] => done
  | done, name :: rest =>
    if hrefListHasMember B done name then dropRepeated done rest
    else dropRepeated (done ++ [name]) rest

/-- One name stays under each key: the first, or with a hash table, which knows the
last, the last. -/
def hrefListMakeUniq (hashed : Bool) (list : List Name) : List Name :=
  if hashed then (dropRepeated B [] list.reverse).reverse else dropRepeated B [] list

/-! ## Groups -/

def hgroupListLocate (master : List HGroup) (name : Name) : Option HGroup :=
  master.find? fun g => hostKey B g.name = hostKey B name

def hgroupListExists (master : List HGroup) (hrefs : List Name) : Bool :=
  hrefs.all fun name => !isHgroupName name || (hgroupListLocate B master name).isSome

/-! ## The walk down -/

def addMember (used : Used) (name : Name) : Used :=
  match classifyMember name with
  | .groupReference => { used with groups := hrefListAdd B used.groups name }
  | .matcher => used
  | .literalHost => { used with hosts := hrefListAdd B used.hosts name }

/-- One name of the list. A matcher stands for no host in this edition. -/
def addReferences (master : List HGroup) (used : Used) (name : Name) : Used :=
  match classifyMember name with
  | .groupReference =>
    match hgroupListLocate B master name with
    | none => used
    | some g => g.hostList.foldl (addMember B) used
  | .matcher => used
  | .literalHost => { used with hosts := hrefListAdd B used.hosts name }

def findReferences (master : List HGroup) (thisList : List Name) (used : Used) : Used :=
  thisList.foldl (addReferences B master) used

def findAllReferences (master : List HGroup) : ℕ → List Name → Used → Option Used
  | 0, _, _ => none
  | fuel + 1, thisList, used =>
    let used := findReferences B master thisList used
    if used.groups = [] then some used
    else (findAllReferences master fuel used.groups ⟨[], []⟩).map fun sub =>
      ⟨hrefListMerge B used.hosts sub.hosts, hrefListMerge B used.groups sub.groups⟩

def hgroupFindAllReferences (master : List HGroup) (fuel : ℕ) (name : Name) : Option Used :=
  findAllReferences B master fuel (hrefListAdd B [] name) ⟨[], []⟩

/-! ## The walk up -/

/-- The groups that have `name` as a member. -/
def addReferencees (master : List HGroup) (occupants : List Name) (name : Name) : List Name :=
  if isHgroupName name then
    master.foldl (fun occupants g =>
      if hrefListHasMember B g.hostList name then hrefListAdd B occupants g.name
      else occupants) occupants
  else occupants

def findReferencees (master : List HGroup) (thisList occupants : List Name) : List Name :=
  thisList.foldl (addReferencees B master) occupants

def findAllReferencees (master : List HGroup) : ℕ → List Name → List Name → Option (List Name)
  | 0, _, _ => none
  | fuel + 1, thisList, occupants =>
    let occupants := findReferencees B master thisList occupants
    if occupants = [] then some occupants
    else (findAllReferencees master fuel occupants []).map (hrefListMerge B occupants)

def hgroupFindAllReferencees (master : List HGroup) (fuel : ℕ) (name : Name) :
    Option (List Name) :=
  findAllReferencees B master fuel (hrefListAdd B [] name) []

/-! ## Members -/

variable {B}

variable {list : List Name} {name : Name}

theorem hrefListHasMember_iff :
    hrefListHasMember B list name = true ↔ ∃ href ∈ list, hostKey B href = hostKey B name := by
  simp [hrefListHasMember, hrefListLocate, List.find?_isSome]

variable {x : Name}

theorem mem_of_mem_hrefListAdd (h : x ∈ hrefListAdd B list name) : x ∈ list ∨ x = name := by
  unfold hrefListAdd at h
  split at h
  · exact .inl h
  · simpa using h

theorem hasMember_hrefListAdd :
    hrefListHasMember B (hrefListAdd B list name) x = true ↔
      hrefListHasMember B list x = true ∨ hostKey B name = hostKey B x := by
  unfold hrefListAdd
  split
  case isTrue hmem =>
    refine ⟨.inl, fun h => h.elim id fun hkey => ?_⟩
    obtain ⟨href, hin, hhref⟩ := hrefListHasMember_iff.mp hmem
    exact hrefListHasMember_iff.mpr ⟨href, hin, hhref.trans hkey⟩
  case isFalse => simp [hrefListHasMember_iff, or_and_right, exists_or]

theorem hasMember_hrefListMerge {other : List Name} :
    hrefListHasMember B (hrefListMerge B list other) x = true ↔
      hrefListHasMember B list x = true ∨ hrefListHasMember B other x = true := by
  unfold hrefListMerge
  induction other generalizing list with
  | nil => simp [hrefListHasMember_iff]
  | cons name other ih =>
    rw [List.foldl_cons, ih, hasMember_hrefListAdd]
    simp only [hrefListHasMember_iff, List.exists_mem_cons_iff]
    exact or_assoc

/-! ## The graph -/

variable (B) in
/-- A group with the key `a` has a reference to a group with the key `b`. -/
def Refers (master : List HGroup) (a b : Name) : Prop :=
  ∃ g ∈ master, hostKey B g.name = a ∧
    ∃ r ∈ g.hostList, isHgroupName r = true ∧ hostKey B r = b

theorem refers_sources_finite (master : List HGroup) : {a | ∃ b, Refers B master a b}.Finite := by
  refine (List.finite_toSet (master.map fun g => hostKey B g.name)).subset ?_
  rintro a ⟨b, g, hg, rfl, -⟩
  exact List.mem_map.mpr ⟨g, hg, rfl⟩

/-- There are no more vertices with an edge than groups. -/
theorem refers_sources_ncard (master : List HGroup) :
    {a | ∃ b, Refers B master a b}.ncard ≤ master.length := by
  set keys := master.map fun g => hostKey B g.name with hkeys
  have hsub : {a | ∃ b, Refers B master a b} ⊆ (keys.toFinset : Set Name) := by
    rintro a ⟨b, g, hg, rfl, -⟩
    exact List.mem_toFinset.mpr (List.mem_map.mpr ⟨g, hg, rfl⟩)
  calc {a | ∃ b, Refers B master a b}.ncard
      ≤ (keys.toFinset : Set Name).ncard := Set.ncard_le_ncard hsub (Finset.finite_toSet _)
    _ = keys.toFinset.card := Set.ncard_coe_finset _
    _ ≤ keys.length := List.toFinset_card_le _
    _ = master.length := List.length_map _

/-! ## The walk down returns -/

variable {u v : Used}

theorem groups_addMember (h : u.groups = v.groups) (name : Name) :
    (addMember B u name).groups = (addMember B v name).groups := by
  unfold addMember
  split
  · dsimp only
    rw [h]
  · exact h
  · exact h

theorem groups_foldl_addMember (h : u.groups = v.groups) (names : List Name) :
    (names.foldl (addMember B) u).groups = (names.foldl (addMember B) v).groups := by
  induction names generalizing u v with
  | nil => exact h
  | cons name names ih => exact ih (groups_addMember h name)

/-- The groups found do not depend on the hosts found so far. -/
theorem groups_findReferences (master : List HGroup) (h : u.groups = v.groups) (list : List Name) :
    (findReferences B master list u).groups = (findReferences B master list v).groups := by
  unfold findReferences
  induction list generalizing u v with
  | nil => exact h
  | cons name list ih =>
    refine ih ?_
    unfold addReferences
    split
    · split
      · exact h
      · exact groups_foldl_addMember h _
    · exact h
    · exact h

theorem mem_groups_foldl_addMember {names : List Name}
    (h : x ∈ (names.foldl (addMember B) u).groups) :
    x ∈ u.groups ∨ x ∈ names ∧ isHgroupName x = true := by
  induction names generalizing u with
  | nil => exact .inl h
  | cons name names ih =>
    rcases ih h with hx | ⟨hx, hgroup⟩
    · unfold addMember at hx
      split at hx
      case h_1 hclass =>
        rcases mem_of_mem_hrefListAdd hx with hx | rfl
        · exact .inl hx
        · exact .inr ⟨.head _, classifyMember_group.mp hclass⟩
      · exact .inl hx
      · exact .inl hx
    · exact .inr ⟨.tail _ hx, hgroup⟩

theorem refers_of_mem_findReferences {master : List HGroup}
    (h : x ∈ (findReferences B master list u).groups) :
    x ∈ u.groups ∨ ∃ name ∈ list, isHgroupName name = true ∧
      Refers B master (hostKey B name) (hostKey B x) := by
  unfold findReferences at h
  induction list generalizing u with
  | nil => exact .inl h
  | cons name list ih =>
    rcases ih h with hx | ⟨name', hname', href⟩
    · unfold addReferences at hx
      split at hx
      case h_1 hclass =>
        split at hx
        · exact .inl hx
        case h_2 g hg =>
          rcases mem_groups_foldl_addMember hx with hx | ⟨hx, hgroup⟩
          · exact .inl hx
          · have hkey : hostKey B g.name = hostKey B name := by
              simpa using List.find?_some hg
            exact .inr ⟨name, .head _, classifyMember_group.mp hclass, g,
              List.mem_of_find?_eq_some hg, hkey, x, hx, hgroup, rfl⟩
      · exact .inl hx
      · exact .inl hx
    · exact .inr ⟨name', .tail _ hname', href⟩

variable {fuel : ℕ}

theorem findAllReferences_returns {master : List HGroup} (h : Acyclic (Refers B master))
    (hfuel : master.length + 2 ≤ fuel) (list hosts : List Name) :
    (findAllReferences B master fuel list ⟨hosts, []⟩).isSome = true := by
  have hlevel := level_terminates (fun l => (findReferences B master l ⟨[], []⟩).groups)
    (fun n l => ∀ hosts, (findAllReferences B master n l ⟨hosts, []⟩).isSome = true)
    (fun n => depth (Refers B master) (hostKey B n)) ?_ ?_ ?_
  · obtain ⟨k, rfl⟩ := Nat.exists_eq_add_of_le' hfuel
    refine hlevel (k + master.length + 1) list (fun a _ => ?_) hosts
    have hle := depth_le (Refers B master) (refers_sources_finite master) (hostKey B a)
    have hcard := refers_sources_ncard (B := B) master
    omega
  · intro n l hstop hosts
    have hgroups := groups_findReferences (B := B) master (u := ⟨hosts, []⟩) (v := ⟨[], []⟩) rfl l
    simp only [findAllReferences]
    rw [if_pos (hgroups.trans hstop)]
    rfl
  · intro n l hnext hosts
    have hgroups := groups_findReferences (B := B) master (u := ⟨hosts, []⟩) (v := ⟨[], []⟩) rfl l
    simp only [findAllReferences]
    split
    · rfl
    · rw [hgroups, Option.isSome_map]
      exact hnext []
  · intro l b hb
    rcases refers_of_mem_findReferences hb with hb | ⟨a, ha, -, href⟩
    · cases hb
    · exact ⟨a, ha, depth_lt h (refers_sources_finite master) href⟩

/-! ## The walk up -/

variable {occupants : List Name}

theorem mem_foldl_addReferencees {master : List HGroup} (h : x ∈ master.foldl (fun occupants g =>
      if hrefListHasMember B g.hostList name then hrefListAdd B occupants g.name
      else occupants) occupants) :
    x ∈ occupants ∨ ∃ g ∈ master, g.name = x ∧ hrefListHasMember B g.hostList name = true := by
  induction master generalizing occupants with
  | nil => exact .inl h
  | cons g master ih =>
    rcases ih h with hx | ⟨g', hg', hname, hmem⟩
    · dsimp only at hx
      split at hx
      case isTrue hmem =>
        rcases mem_of_mem_hrefListAdd hx with hx | rfl
        · exact .inl hx
        · exact .inr ⟨g, .head _, rfl, hmem⟩
      · exact .inl hx
    · exact .inr ⟨g', .tail _ hg', hname, hmem⟩

theorem hasMember_foldl_addReferencees {master : List HGroup} :
    hrefListHasMember B (master.foldl (fun occupants g =>
      if hrefListHasMember B g.hostList name then hrefListAdd B occupants g.name
      else occupants) occupants) x = true ↔
    hrefListHasMember B occupants x = true ∨ ∃ g ∈ master,
      hrefListHasMember B g.hostList name = true ∧ hostKey B g.name = hostKey B x := by
  induction master generalizing occupants with
  | nil => simp
  | cons g master ih =>
    rw [List.foldl_cons, ih]
    split
    case isTrue hmem => simp [hasMember_hrefListAdd, hmem, or_assoc]
    case isFalse hmem => simp [hmem]

theorem refers_iff_hasMember {g : HGroup} (hname : isHgroupName name = true) :
    hrefListHasMember B g.hostList name = true ↔
      ∃ r ∈ g.hostList, isHgroupName r = true ∧ hostKey B r = hostKey B name := by
  rw [hrefListHasMember_iff]
  constructor
  · rintro ⟨r, hr, hkey⟩
    exact ⟨r, hr, by rw [isHgroupName_of_hostKey hkey, hname], hkey⟩
  · rintro ⟨r, hr, -, hkey⟩
    exact ⟨r, hr, hkey⟩

theorem mem_findReferencees {master : List HGroup}
    (h : x ∈ findReferencees B master list occupants) :
    x ∈ occupants ∨ (∃ g ∈ master, g.name = x) ∧ ∃ name ∈ list, isHgroupName name = true ∧
      Refers B master (hostKey B x) (hostKey B name) := by
  unfold findReferencees at h
  induction list generalizing occupants with
  | nil => exact .inl h
  | cons name list ih =>
    rcases ih h with hx | ⟨hg, name', hname', href⟩
    · unfold addReferencees at hx
      split at hx
      case isTrue hname =>
        rcases mem_foldl_addReferencees hx with hx | ⟨g, hg, rfl, hmem⟩
        · exact .inl hx
        · obtain ⟨r, hr, hgroup, hkey⟩ := (refers_iff_hasMember hname).mp hmem
          exact .inr ⟨⟨g, hg, rfl⟩, name, .head _, hname,
            g, hg, rfl, r, hr, hgroup, hkey⟩
      · exact .inl hx
    · exact .inr ⟨hg, name', .tail _ hname', href⟩

theorem refers_of_mem_findReferencees {master : List HGroup}
    (h : x ∈ findReferencees B master list occupants) :
    x ∈ occupants ∨ ∃ name ∈ list, Refers B master (hostKey B x) (hostKey B name) := by
  rcases mem_findReferencees h with hx | ⟨-, name, hname, -, href⟩
  · exact .inl hx
  · exact .inr ⟨name, hname, href⟩

theorem hasMember_findReferencees {master : List HGroup} :
    hrefListHasMember B (findReferencees B master list occupants) x = true ↔
      hrefListHasMember B occupants x = true ∨ ∃ name ∈ list, isHgroupName name = true ∧
        Refers B master (hostKey B x) (hostKey B name) := by
  unfold findReferencees
  induction list generalizing occupants with
  | nil => simp
  | cons name list ih =>
    rw [List.foldl_cons, ih, List.exists_mem_cons_iff, ← or_assoc]
    refine or_congr_left ?_
    unfold addReferencees
    split
    case isFalse hname => simp [hname]
    case isTrue hname =>
      rw [hasMember_foldl_addReferencees]
      refine or_congr_right ⟨?_, ?_⟩
      · rintro ⟨g, hg, hmem, hkey⟩
        obtain ⟨r, hr, hgroup, hr'⟩ := (refers_iff_hasMember hname).mp hmem
        exact ⟨hname, g, hg, hkey, r, hr, hgroup, hr'⟩
      · rintro ⟨-, g, hg, hkey, hr⟩
        exact ⟨g, hg, (refers_iff_hasMember hname).mpr hr, hkey⟩

theorem findAllReferencees_returns {master : List HGroup} (h : Acyclic (Refers B master))
    (hfuel : master.length + 2 ≤ fuel) (list : List Name) :
    (findAllReferencees B master fuel list []).isSome = true := by
  have hfin : {b | ∃ a, Function.swap (Refers B master) a b}.Finite := refers_sources_finite master
  have hlevel := level_terminates (fun l => findReferencees B master l [])
    (fun n l => (findAllReferencees B master n l []).isSome = true)
    (fun n => height (Function.swap (Refers B master)) (hostKey B n)) ?_ ?_ ?_
  · obtain ⟨k, rfl⟩ := Nat.exists_eq_add_of_le' hfuel
    refine hlevel (k + master.length + 1) list fun a _ => ?_
    have hle := height_le _ hfin (hostKey B a)
    have hcard := refers_sources_ncard (B := B) master
    exact lt_of_le_of_lt (hle.trans hcard) (by omega)
  · intro n l hstop
    simp only [findAllReferencees]
    rw [if_pos hstop]
    rfl
  · intro n l hnext
    simp only [findAllReferencees]
    split
    · rfl
    · rw [Option.isSome_map]
      exact hnext
  · intro l b hb
    rcases refers_of_mem_findReferencees hb with hb | ⟨a, ha, href⟩
    · cases hb
    · exact ⟨a, ha, height_lt h.swap hfin href⟩

/-- **The walk up misses no group**: it finds every group a path leads from to a name
of the list. -/
theorem findAllReferencees_complete {master : List HGroup} {result : List Name}
    (h : findAllReferencees B master fuel list occupants = some result) (hname : name ∈ list)
    (hgroup : isHgroupName name = true)
    (hpath : TransGen (Refers B master) (hostKey B x) (hostKey B name)) :
    hrefListHasMember B result x = true := by
  induction fuel generalizing list occupants result name with
  | zero => exact absurd h (by simp [findAllReferencees])
  | succ fuel ih =>
    obtain ⟨k, hfirst, hlast⟩ := TransGen.tail'_iff.mp hpath
    -- the group with the last edge is found on this level
    obtain ⟨g, hg, hk, href⟩ := hlast
    have hlevel : hrefListHasMember B (findReferencees B master list occupants) g.name = true :=
      hasMember_findReferencees.mpr (.inr ⟨name, hname, hgroup, g, hg, rfl, href⟩)
    obtain ⟨o, ho, hokey⟩ := hrefListHasMember_iff.mp hlevel
    simp only [findAllReferencees] at h
    rw [if_neg (List.ne_nil_of_mem ho)] at h
    obtain ⟨sub, hsub, rfl⟩ := Option.map_eq_some_iff.mp h
    rw [hasMember_hrefListMerge]
    rcases reflTransGen_iff_eq_or_transGen.mp hfirst with hx | hx
    · left
      exact hrefListHasMember_iff.mpr ⟨o, ho, by rw [hokey, hk, hx]⟩
    · right
      -- a group with an edge into it has the name of a group
      have hogroup : isHgroupName o = true := by
        obtain ⟨_, -, g', -, -, r, -, hr, hrkey⟩ := TransGen.tail'_iff.mp hx
        rw [isHgroupName_of_hostKey (hokey.trans (hk.trans hrkey.symm)), hr]
      exact ih hsub ho hogroup (by rw [hokey, hk]; exact hx)

end ClusterScheduler.Sgeobj
