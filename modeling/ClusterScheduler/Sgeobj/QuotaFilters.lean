import ClusterScheduler.Sgeobj.HostGroupResolution
import ClusterScheduler.Sgeobj.Usersets

/-!
# Filters of resource quota rules

A filter lists who is included and who is excluded, by names, patterns, access lists and host
groups. The value to match may be a pattern itself.

* `RqsFilter`, `FilterLists` — a filter, and the lists its names refer to.
* `literalEntry`, `patternEntry` — what one entry says to a value.
* `rqsMatchUserHostScope`, `rqsMatchHostScope`, `rqsFilterMatch` — functions of the source.
* `findSome_perm_iff` — when the first answer does not depend on the order.
* `OrderIrrelevant`, `UsersAsCovered` — what a filter should do.
* `OrderMatters` — an exclusion list has an answer of either kind to a pattern.
* `rqsFilterMatch_order_iff` — filters do what they should if and only if this is not so.
-/

namespace ClusterScheduler.Sgeobj

open Foundation

/-! ## Data -/

inductive FilterType where
  | users | projects | pes | queues | hosts
  deriving DecidableEq

/-- `RQRF_Type` -/
structure RqsFilter where
  scope : Option (List Name)
  xscope : Option (List Name)
  deriving DecidableEq

/-- The access lists and host groups, and the groups of the user. -/
structure FilterLists where
  bootstrap : Bootstrap
  comparison : Comparison
  usersets : List Userset
  hgroups : List HGroup
  group : Option Name
  grpList : Option (List Name)
  supGrpEval : Bool

namespace FilterLists

variable (lists : FilterLists)

def fnmatch (pattern s : Name) : Bool := Sgeobj.fnmatch lists.comparison pattern s

def contains (query : Name) (acl : Userset) : Bool :=
  sgeContainedInAccessList lists.comparison ⟨some query, lists.group, lists.grpList,
    lists.supGrpEval⟩ acl

def hostsOf (hgroup : HGroup) : List Name :=
  ((hgroupFindAllReferences lists.bootstrap lists.hgroups (hgroupFuel lists.hgroups)
    hgroup.name).map (·.hosts)).getD []

def groupHas (query : Name) (hgroup : HGroup) : Bool :=
  hrefListHasMember lists.bootstrap (lists.hostsOf hgroup) query ||
    (hasPattern query && (lists.hostsOf hgroup).any (lists.fnmatch query))

/-! ## One entry -/

def entryPattern (type : FilterType) (ep : Name) : Name :=
  if type = .hosts then referencePattern ep else ep

/-- If one of the two is a group, the group and the other one. -/
def groupQuery (value cp : Name) : Option (Name × Name) :=
  if !isHgroupName value && isHgroupName cp then some (cp, value)
  else if isHgroupName value && !isHgroupName cp then some (value, cp)
  else none

/-- The access lists of a name without its `@`. -/
def usersetsHave (groupName query : Name) : Bool :=
  if hasPattern groupName then
    lists.usersets.any fun acl => lists.fnmatch groupName acl.name && lists.contains query acl
  else (usersetLocate lists.usersets groupName).any (lists.contains query)

def hgroupsHave (groupName query : Name) : Bool :=
  if hasPattern groupName then
    lists.hgroups.any fun hgroup =>
      lists.fnmatch groupName hgroup.name && lists.groupHas query hgroup
  else (hgroupListLocate lists.bootstrap lists.hgroups groupName).any (lists.groupHas query)

def literalEntry (type : FilterType) (value ep : Name) : Bool :=
  let cp := entryPattern type ep
  lists.fnmatch cp value ||
    (groupQuery value cp).any fun q =>
      if type = .users then lists.usersetsHave q.1.tail q.2 else lists.hgroupsHave q.1 q.2

def patternGroupsHave (type : FilterType) (groupName query : Name) : Bool :=
  if type = .users then
    lists.usersets.any fun acl =>
      lists.fnmatch groupName.tail acl.name && lists.contains query acl
  else
    lists.hgroups.any fun hgroup =>
      lists.fnmatch groupName hgroup.name && (lists.hostsOf hgroup).any (lists.fnmatch query)

/-- What an entry says to a pattern. An exclusion that covers only a part of the pattern
says no, and no later entry is asked. -/
def patternEntry (type : FilterType) (isXscope : Bool) (value ep : Name) : Option Bool :=
  let cp := entryPattern type ep
  if lists.fnmatch value cp then
    if !isXscope then some true else if value = cp then some true else some false
  else if hasPattern cp && lists.fnmatch cp value then some true
  else if (groupQuery value cp).any fun q => lists.patternGroupsHave type q.1 q.2 then some true
  else none

end FilterLists

/-! ## Functions of the source -/

section Functions

variable (lists : FilterLists)

/-- The loop ends with the first entry that has an answer. -/
def rqsMatchUserHostScope (scope : Option (List Name)) (type : FilterType) (value : Name)
    (isXscope : Bool) : Bool :=
  if !hasPattern value then
    (scope.getD []).contains value || (scope.getD []).any (lists.literalEntry type value)
  else ((scope.getD []).findSome? (lists.patternEntry type isXscope value)).getD false

def rqsMatchHostScope (scope : Option (List Name)) (name : Name) (isXscope : Bool) : Bool :=
  if (scope.getD []).contains ['*'] then true
  else if hasPattern name || isHgroupName name then
    rqsMatchUserHostScope lists scope .hosts name isXscope
  else
    (scope.getD []).any fun ep =>
      !qrefListHostRejected lists.bootstrap lists.comparison lists.hgroups (referencePattern ep)
        name

def nameEntry (value cp : Name) : Bool :=
  cp = ['*'] || lists.fnmatch cp value || lists.fnmatch value cp

def nameScope (scope : Option (List Name)) (value : Name) : Bool :=
  (scope.getD []).contains value || (scope.getD []).any (nameEntry lists value)

def nameXscope (xscope : Option (List Name)) (value : Name) : Bool :=
  (xscope.getD []).contains value ||
    (value ≠ ['*'] && (xscope.getD []).any (nameEntry lists value))

def inScope (scope : Option (List Name)) (type : FilterType) (value : Name) : Bool :=
  match type with
  | .hosts => rqsMatchHostScope lists scope value false
  | .users => rqsMatchUserHostScope lists scope .users value false
  | .projects | .pes | .queues => nameScope lists scope value

def inXscope (xscope : Option (List Name)) (type : FilterType) (value : Name) : Bool :=
  match type with
  | .hosts => rqsMatchHostScope lists xscope value true
  | .users => rqsMatchUserHostScope lists xscope .users value true
  | .projects | .pes | .queues => nameXscope lists xscope value

def rqsFilterMatch (filter : Option RqsFilter) (type : FilterType) (value : Name) : Bool :=
  match filter with
  | none => true
  | some filter =>
    !inXscope lists filter.xscope type value &&
      (filter.scope.isNone || inScope lists filter.scope type value)

end Functions

/-! ## What a filter should do -/

def ListPerm : Option (List Name) → Option (List Name) → Prop := Option.Rel List.Perm

/-- No order of the names gives another verdict. -/
def OrderIrrelevant (lists : FilterLists) (filter : RqsFilter) (type : FilterType)
    (value : Name) : Prop :=
  ∀ scope xscope, ListPerm scope filter.scope → ListPerm xscope filter.xscope →
    rqsFilterMatch lists (some ⟨scope, xscope⟩) type value =
      rqsFilterMatch lists (some filter) type value

/-- An entry equals a user, matches it, or is an access list, or a pattern for access lists,
with the user. -/
def CoversUser (lists : FilterLists) (user entry : Name) : Prop :=
  entry = user ∨ lists.fnmatch entry user = true ∨
    isHgroupName entry = true ∧ ∃ acl ∈ lists.usersets,
      (if hasPattern entry.tail then lists.fnmatch entry.tail acl.name = true
        else usersetLocate lists.usersets entry.tail = some acl) ∧ lists.contains user acl = true

/-- A user is matched if no exclusion covers it, and an inclusion does or there are none. -/
def UsersAsCovered (lists : FilterLists) (filter : RqsFilter) (user : Name) : Prop :=
  rqsFilterMatch lists (some filter) .users user = true ↔
    (¬ ∃ entry ∈ filter.xscope.getD [], CoversUser lists user entry) ∧
      (filter.scope = none ∨ ∃ entry ∈ filter.scope.getD [], CoversUser lists user entry)

def IsUserName (value : Name) : Prop := hasPattern value = false ∧ isHgroupName value = false

/-- The value is a pattern, one exclusion covers only a part of it, and another one is all of
it, while the inclusions match. -/
structure OrderMatters (lists : FilterLists) (filter : RqsFilter) (type : FilterType)
    (value : Name) : Prop where
  pattern : hasPattern value = true
  scanned : type = .users ∨ type = .hosts ∧ ['*'] ∉ filter.xscope.getD []
  partly : ∃ entry ∈ filter.xscope.getD [], lists.patternEntry type true value entry = some false
  wholly : ∃ entry ∈ filter.xscope.getD [], lists.patternEntry type true value entry = some true
  included : filter.scope = none ∨ inScope lists filter.scope type value = true

/-! ## The first answer -/

section FirstAnswer

variable {α : Type*} {v : α → Option Bool} {l l' : List α}

theorem findSome_getD_eq_true (h : ∀ a ∈ l, v a ≠ some false) :
    (l.findSome? v).getD false = l.any fun a => v a = some true := by
  induction l with
  | nil => rfl
  | cons a l ih =>
    obtain ⟨ha, hl⟩ := List.forall_mem_cons.mp h
    rw [List.findSome?_cons, List.any_cons]
    cases hv : v a with
    | none => simpa using ih hl
    | some b =>
      cases b with
      | true => simp
      | false => exact absurd hv ha

theorem findSome_getD_eq_false (h : ∀ a ∈ l, v a ≠ some true) :
    (l.findSome? v).getD false = false := by
  cases hfind : l.findSome? v with
  | none => rfl
  | some b =>
    obtain ⟨a, ha, hv⟩ := List.exists_of_findSome?_eq_some hfind
    cases b with
    | true => exact absurd hv (h a ha)
    | false => rfl

/-- With only one kind of answer the order does not matter. -/
theorem findSome_perm (h : ¬ ((∃ a ∈ l, v a = some false) ∧ ∃ a ∈ l, v a = some true))
    (hperm : l'.Perm l) : (l'.findSome? v).getD false = (l.findSome? v).getD false := by
  rcases not_and_or.mp h with hno | hno
  · push Not at hno
    rw [findSome_getD_eq_true hno,
      findSome_getD_eq_true fun a ha => hno a (hperm.mem_iff.mp ha), hperm.any_eq]
  · push Not at hno
    rw [findSome_getD_eq_false hno,
      findSome_getD_eq_false fun a ha => hno a (hperm.mem_iff.mp ha)]

theorem exists_perm_findSome {a : α} {b : Bool} (ha : a ∈ l) (hv : v a = some b) :
    ∃ l' : List α, l'.Perm l ∧ (l'.findSome? v).getD false = b := by
  obtain ⟨l₁, l₂, rfl⟩ := List.append_of_mem ha
  refine ⟨a :: (l₁ ++ l₂), List.perm_middle.symm, ?_⟩
  rw [List.findSome?_cons, hv]
  rfl

/-- **The first answer** does not depend on the order if and only if there are not answers of
both kinds. -/
theorem findSome_perm_iff : (∀ l' : List α, l'.Perm l →
      (l'.findSome? v).getD false = (l.findSome? v).getD false) ↔
    ¬ ((∃ a ∈ l, v a = some false) ∧ ∃ a ∈ l, v a = some true) := by
  refine ⟨fun h => ?_, fun h l' hperm => findSome_perm h hperm⟩
  rintro ⟨⟨a, ha, hva⟩, a', ha', hva'⟩
  obtain ⟨l₁, hperm₁, hfalse⟩ := exists_perm_findSome ha hva
  obtain ⟨l₂, hperm₂, htrue⟩ := exists_perm_findSome ha' hva'
  exact Bool.false_ne_true ((hfalse.symm.trans (h l₁ hperm₁)).trans
    ((h l₂ hperm₂).symm.trans htrue))

end FirstAnswer

/-! ## The order of entries -/

section Order

variable {lists : FilterLists} {filter : RqsFilter} {type : FilterType} {value : Name}
  {l l' : Option (List Name)}

theorem ListPerm.getD (h : ListPerm l l') : (l.getD []).Perm (l'.getD []) := by
  cases h with
  | some hperm => exact hperm
  | none => exact List.Perm.nil

theorem ListPerm.isNone (h : ListPerm l l') : l.isNone = l'.isNone := by
  cases h <;> rfl

theorem ListPerm.refl : ∀ l : Option (List Name), ListPerm l l
  | some l => .some (List.Perm.refl l)
  | none => .none

/-- Answers of both kinds to a pattern. -/
def Mixed (lists : FilterLists) (type : FilterType) (isXscope : Bool) (value : Name)
    (l : Option (List Name)) : Prop :=
  (∃ entry ∈ l.getD [], lists.patternEntry type isXscope value entry = some false) ∧
    ∃ entry ∈ l.getD [], lists.patternEntry type isXscope value entry = some true

variable {isXscope : Bool}

theorem userHostScope_perm
    (h : hasPattern value = true → ¬ Mixed lists type isXscope value l') (hl : ListPerm l l') :
    rqsMatchUserHostScope lists l type value isXscope =
      rqsMatchUserHostScope lists l' type value isXscope := by
  unfold rqsMatchUserHostScope
  cases hpat : hasPattern value with
  | false =>
    rw [hl.getD.contains_eq, hl.getD.any_eq]
    rfl
  | true => exact findSome_perm (h hpat) hl.getD

theorem not_mixed_scope : ¬ Mixed lists type false value l := by
  rintro ⟨⟨entry, -, hentry⟩, -⟩
  simp only [FilterLists.patternEntry, Bool.not_false, if_true] at hentry
  split_ifs at hentry <;> simp at hentry

theorem hostScope_perm (h : hasPattern value = true →
      ['*'] ∉ l'.getD [] → ¬ Mixed lists .hosts isXscope value l') (hl : ListPerm l l') :
    rqsMatchHostScope lists l value isXscope = rqsMatchHostScope lists l' value isXscope := by
  unfold rqsMatchHostScope
  rw [hl.getD.contains_eq, hl.getD.any_eq]
  cases hstar : (l'.getD []).contains ['*'] with
  | true => rfl
  | false =>
    have hnot : ['*'] ∉ l'.getD [] := fun hmem =>
      Bool.false_ne_true (hstar.symm.trans (List.contains_iff_mem.mpr hmem))
    rw [userHostScope_perm (fun hpat => h hpat hnot) hl]

theorem inScope_perm (hl : ListPerm l l') :
    inScope lists l type value = inScope lists l' type value := by
  cases type with
  | hosts => exact hostScope_perm (fun _ _ => not_mixed_scope) hl
  | users => exact userHostScope_perm (fun _ => not_mixed_scope) hl
  | projects | pes | queues =>
    simp only [inScope, nameScope]
    rw [hl.getD.contains_eq, hl.getD.any_eq]

theorem inXscope_perm (h : hasPattern value = true →
      (type = .users ∨ type = .hosts ∧ ['*'] ∉ l'.getD []) → ¬ Mixed lists type true value l')
    (hl : ListPerm l l') : inXscope lists l type value = inXscope lists l' type value := by
  cases type with
  | hosts => exact hostScope_perm (fun hpat hstar => h hpat (.inr ⟨rfl, hstar⟩)) hl
  | users => exact userHostScope_perm (fun hpat => h hpat (.inl rfl)) hl
  | projects | pes | queues =>
    simp only [inXscope, nameXscope]
    rw [hl.getD.contains_eq, hl.getD.any_eq]

theorem rqsFilterMatch_eq (scope xscope : Option (List Name)) :
    rqsFilterMatch lists (some ⟨scope, xscope⟩) type value =
      (!inXscope lists xscope type value && (scope.isNone || inScope lists scope type value)) :=
  rfl

theorem orderIrrelevant_of_not (h : ¬ OrderMatters lists filter type value) :
    OrderIrrelevant lists filter type value := by
  intro scope xscope hscope hxscope
  rw [rqsFilterMatch_eq, rqsFilterMatch, hscope.isNone, inScope_perm hscope]
  cases hin : filter.scope.isNone || inScope lists filter.scope type value with
  | false => rw [Bool.and_false, Bool.and_false]
  | true =>
    have hincluded : filter.scope = none ∨ inScope lists filter.scope type value = true :=
      (Bool.or_eq_true_iff.mp hin).imp_left Option.isNone_iff_eq_none.mp
    rw [inXscope_perm (fun hpat hscan hmixed =>
      h ⟨hpat, hscan, hmixed.1, hmixed.2, hincluded⟩) hxscope]

/-- The exclusions that are scanned answer with the first answer of an entry. -/
theorem inXscope_scanned (hpat : hasPattern value = true)
    (hscan : type = .users ∨ type = .hosts ∧ ['*'] ∉ l.getD []) :
    inXscope lists l type value =
      ((l.getD []).findSome? (lists.patternEntry type true value)).getD false := by
  rcases hscan with rfl | ⟨rfl, hstar⟩
  · simp [inXscope, rqsMatchUserHostScope, hpat]
  · simp [inXscope, rqsMatchHostScope, rqsMatchUserHostScope, hpat, hstar]

theorem not_orderIrrelevant (h : OrderMatters lists filter type value) :
    ¬ OrderIrrelevant lists filter type value := by
  intro hirr
  obtain ⟨entry, hentry, -⟩ := h.partly
  cases hx : filter.xscope with
  | none => simp [hx] at hentry
  | some names =>
    have hscan := h.scanned
    have hmixed := And.intro h.partly h.wholly
    rw [hx, Option.getD_some] at hscan hmixed
    refine findSome_perm_iff.mp (fun names' hperm => ?_) hmixed
    have hsame := hirr filter.scope (some names') (ListPerm.refl _) (hx ▸ .some hperm)
    have hin : (filter.scope.isNone || inScope lists filter.scope type value) = true :=
      Bool.or_eq_true_iff.mpr (h.included.imp_left Option.isNone_iff_eq_none.mpr)
    rw [rqsFilterMatch_eq, rqsFilterMatch, hin, Bool.and_true, Bool.and_true, hx,
      inXscope_scanned (l := some names') h.pattern (hscan.imp_right fun hs =>
        ⟨hs.1, fun hmem => hs.2 (hperm.mem_iff.mp hmem)⟩),
      inXscope_scanned (l := some names) h.pattern hscan] at hsame
    exact Bool.not_inj hsame

/-! ## Users -/

theorem usersetsHave_iff {groupName query : Name} :
    lists.usersetsHave groupName query = true ↔
      ∃ acl ∈ lists.usersets, (if hasPattern groupName then lists.fnmatch groupName acl.name = true
          else usersetLocate lists.usersets groupName = some acl) ∧
        lists.contains query acl = true := by
  unfold FilterLists.usersetsHave
  by_cases hpat : hasPattern groupName = true
  · simp only [hpat, if_true, List.any_eq_true, Bool.and_eq_true]
  · rw [if_neg hpat, Option.any_eq_true]
    simp only [hpat]
    constructor
    · rintro ⟨acl, hlocate, hcontains⟩
      exact ⟨acl, List.mem_of_find?_eq_some hlocate, hlocate, hcontains⟩
    · rintro ⟨acl, -, hlocate, hcontains⟩
      exact ⟨acl, hlocate, hcontains⟩

variable {user : Name}

theorem literalEntry_user {entry : Name} (hgroup : isHgroupName user = false) :
    entry = user ∨ lists.literalEntry .users user entry = true ↔
      CoversUser lists user entry := by
  unfold CoversUser
  refine or_congr_right ?_
  have hquery : FilterLists.groupQuery user entry =
      if isHgroupName entry = true then some (entry, user) else none := by
    cases hentry : isHgroupName entry <;> simp [FilterLists.groupQuery, hgroup, hentry]
  simp only [FilterLists.literalEntry, FilterLists.entryPattern, Bool.or_eq_true, hquery,
    reduceCtorEq, if_false, if_true]
  refine or_congr_right ?_
  by_cases hentry : isHgroupName entry = true
  · rw [if_pos hentry, Option.any_some, usersetsHave_iff]
    exact (and_iff_right hentry).symm
  · simp [hentry]

theorem userScope_iff (huser : IsUserName user) (isXscope : Bool) :
    rqsMatchUserHostScope lists l .users user isXscope = true ↔
      ∃ entry ∈ l.getD [], CoversUser lists user entry := by
  unfold rqsMatchUserHostScope
  rw [huser.1, Bool.not_false, if_pos rfl, Bool.or_eq_true, List.contains_iff_mem, List.any_eq_true]
  constructor
  · rintro (hmem | ⟨entry, hmem, hentry⟩)
    · exact ⟨user, hmem, .inl rfl⟩
    · exact ⟨entry, hmem, (literalEntry_user huser.2).mp (.inr hentry)⟩
  · rintro ⟨entry, hmem, hcovers⟩
    rcases (literalEntry_user huser.2).mpr hcovers with rfl | hentry
    · exact .inl hmem
    · exact .inr ⟨entry, hmem, hentry⟩

theorem usersAsCovered (huser : IsUserName user) : UsersAsCovered lists filter user := by
  unfold UsersAsCovered rqsFilterMatch inXscope inScope
  dsimp only
  rw [Bool.and_eq_true, Bool.not_eq_true', ← Bool.not_eq_true, userScope_iff huser,
    Bool.or_eq_true, Option.isNone_iff_eq_none, userScope_iff huser]

/-- **Filters do what they should** if and only if the order of the names does not matter: no
order gives another verdict, and a user is matched exactly when the names cover it. -/
theorem rqsFilterMatch_order_iff (lists : FilterLists) (filter : RqsFilter) (type : FilterType)
    (value : Name) :
    (OrderIrrelevant lists filter type value ∧
      (type = .users → IsUserName value → UsersAsCovered lists filter value)) ↔
      ¬ OrderMatters lists filter type value :=
  ⟨fun h hmatters => not_orderIrrelevant hmatters h.1,
    fun h => ⟨orderIrrelevant_of_not h, fun _ huser => usersAsCovered huser⟩⟩

/-- A star at the end matches any rest; every other pattern matches itself. -/
def starComparison : Comparison where
  fnmatch p v := if p.getLast? = some '*' ∧ p.dropLast <+: v ∨ p = v then 0 else 1
  strcmp s t := if s = t then 0 else 1
  strcasecmp s t := if foldName s = foldName t then 0 else 1
  hostmatch p v := if p = v then 0 else 1
  hostcmp s t := if foldName s = foldName t then 0 else 1

def noLists : FilterLists := ⟨⟨false, none⟩, starComparison, [], [], none, none, false⟩

/-- The pattern `b*` and the exclusions `b1` and `b*`: the first one listed decides. -/
theorem rqsFilterMatch_order :
    rqsFilterMatch noLists (some ⟨none, some ["b1".toList, "b*".toList]⟩) .users "b*".toList =
      true ∧
    rqsFilterMatch noLists (some ⟨none, some ["b*".toList, "b1".toList]⟩) .users "b*".toList =
      false ∧
    ¬ OrderIrrelevant noLists ⟨none, some ["b1".toList, "b*".toList]⟩ .users "b*".toList := by
  have hfirst : rqsFilterMatch noLists (some ⟨none, some ["b1".toList, "b*".toList]⟩) .users
      "b*".toList = true := by decide +kernel
  have hsecond : rqsFilterMatch noLists (some ⟨none, some ["b*".toList, "b1".toList]⟩) .users
      "b*".toList = false := by decide +kernel
  refine ⟨hfirst, hsecond, fun h => ?_⟩
  have hsame := h none (some ["b*".toList, "b1".toList]) .none (.some (List.Perm.swap _ _ _))
  exact Bool.false_ne_true ((hsecond.symm.trans hsame).trans hfirst)

end Order

end ClusterScheduler.Sgeobj
