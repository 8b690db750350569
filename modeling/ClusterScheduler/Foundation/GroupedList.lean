import Mathlib.Data.List.Nodup
import Mathlib.Data.List.Perm.Basic

/-!
# Lists grouped by a key

A list of groups, each with a key of its own. An element is added to the group with its key, and
removed from the first group that has it; a group that has become empty is dropped.

* `GroupedList.add`, `GroupedList.remove` — the operations.
* `GroupedList.members` — the group with a key; `GroupedList.all` — all groups in a row.
* `members_addAll` — what was added with a key, in order.
* `count_removeAll` — a removal takes one occurrence.
* `members_removeAll` — if the removals leave none of the elements they are about, every group has
  lost just these.
-/

namespace ClusterScheduler.Foundation

/-- The elements that were added with the key. -/
structure Group (κ α : Type*) where
  key : κ
  members : List α

variable {κ α : Type*}

section Add

variable [DecidableEq κ]

def addTo : List (Group κ α) → κ → α → List (Group κ α)
  | [], key, a => [⟨key, [a]⟩]
  | group :: groups, key, a =>
    if group.key = key then { group with members := group.members ++ [a] } :: groups
    else group :: addTo groups key a

def membersOf (groups : List (Group κ α)) (key : κ) : List α :=
  ((groups.find? (·.key = key)).map Group.members).getD []

theorem keys_addTo (groups : List (Group κ α)) (key : κ) (a : α) :
    (addTo groups key a).map Group.key =
      if key ∈ groups.map Group.key then groups.map Group.key
      else groups.map Group.key ++ [key] := by
  induction groups with
  | nil => rfl
  | cons group groups ih =>
    unfold addTo
    by_cases hkey : group.key = key
    · simp [hkey]
    · rw [if_neg hkey, List.map_cons, ih, List.map_cons]
      by_cases hmem : key ∈ groups.map Group.key
      · rw [if_pos hmem, if_pos (.tail _ hmem)]
      · rw [if_neg hmem, if_neg, List.cons_append]
        exact fun h => (List.mem_cons.mp h).elim (fun h => hkey h.symm) hmem

variable {groups : List (Group κ α)}

theorem nodup_addTo (h : (groups.map Group.key).Nodup) (key : κ)
    (a : α) : ((addTo groups key a).map Group.key).Nodup := by
  rw [keys_addTo]
  split
  · exact h
  · rename_i hnew
    exact List.Nodup.append h (List.nodup_singleton key)
      (fun k hk hsame => hnew (List.mem_singleton.mp hsame ▸ hk))

theorem membersOf_cons (group : Group κ α) (groups : List (Group κ α)) (key : κ) :
    membersOf (group :: groups) key =
      if group.key = key then group.members else membersOf groups key := by
  unfold membersOf
  by_cases hkey : group.key = key
  · rw [if_pos hkey, List.find?_cons_of_pos (by simpa using hkey)]
    rfl
  · rw [if_neg hkey, List.find?_cons_of_neg (by simpa using hkey)]

theorem membersOf_addTo (groups : List (Group κ α)) (key key' : κ) (a : α) :
    membersOf (addTo groups key a) key' =
      membersOf groups key' ++ if key = key' then [a] else [] := by
  induction groups with
  | nil =>
    rw [addTo, membersOf_cons]
    rfl
  | cons group groups ih =>
    unfold addTo
    by_cases hkey : group.key = key
    · rw [if_pos hkey, membersOf_cons, membersOf_cons, ← hkey]
      split
      · rfl
      · rw [List.append_nil]
    · rw [if_neg hkey, membersOf_cons, membersOf_cons, ih]
      by_cases hkey' : group.key = key'
      · have hother : key ≠ key' := fun h => hkey (hkey'.trans h.symm)
        rw [if_pos hkey', if_pos hkey', if_neg hother, List.append_nil]
      · rw [if_neg hkey', if_neg hkey']

theorem membersOf_eq_nil {key : κ}
    (h : key ∉ groups.map Group.key) : membersOf groups key = [] := by
  have hnone : groups.find? (·.key = key) = none := by
    refine List.find?_eq_none.mpr fun group hgroup => ?_
    simpa using fun heq => h (List.mem_map.mpr ⟨group, hgroup, heq⟩)
  rw [membersOf, hnone]
  rfl

theorem membersOf_key (h : (groups.map Group.key).Nodup)
    {group : Group κ α} (hgroup : group ∈ groups) : membersOf groups group.key = group.members := by
  induction groups with
  | nil => cases hgroup
  | cons first groups ih =>
    obtain ⟨hnew, hrest⟩ := List.nodup_cons.mp h
    rw [membersOf_cons]
    rcases List.mem_cons.mp hgroup with rfl | hgroup
    · rw [if_pos rfl]
    · have hother : first.key ≠ group.key := fun heq =>
        hnew (List.mem_map.mpr ⟨group, hgroup, heq.symm⟩)
      rw [if_neg hother]
      exact ih hrest hgroup

end Add

section Remove

variable [DecidableEq α]

def removeFrom : List (Group κ α) → α → List (Group κ α)
  | [], _ => []
  | group :: groups, a =>
    if a ∈ group.members then
      if group.members.erase a = [] then groups
      else { group with members := group.members.erase a } :: groups
    else group :: removeFrom groups a

theorem keys_removeFrom_sublist (groups : List (Group κ α)) (a : α) :
    ((removeFrom groups a).map Group.key).Sublist (groups.map Group.key) := by
  induction groups with
  | nil => exact List.Sublist.refl _
  | cons group groups ih =>
    unfold removeFrom
    split
    · split
      · exact List.sublist_cons_self _ _
      · exact List.Sublist.refl _
    · exact ih.cons_cons _

theorem flatMap_removeFrom (groups : List (Group κ α)) (a : α) :
    (removeFrom groups a).flatMap Group.members = (groups.flatMap Group.members).erase a := by
  induction groups with
  | nil => rfl
  | cons group groups ih =>
    unfold removeFrom
    rw [List.flatMap_cons]
    by_cases ha : a ∈ group.members
    · rw [if_pos ha, List.erase_append_left _ ha]
      split
      · rename_i hempty
        rw [hempty, List.nil_append]
      · rw [List.flatMap_cons]
    · rw [if_neg ha, List.flatMap_cons, ih, List.erase_append_right _ ha]

theorem filter_erase_of_not {p : α → Bool} {a : α} (ha : p a = false) (l : List α) :
    (l.erase a).filter p = l.filter p := by
  induction l with
  | nil => rfl
  | cons b l ih =>
    by_cases hab : b = a
    · rw [hab, List.erase_cons_head, List.filter_cons_of_neg (by simp [ha])]
    · rw [List.erase_cons_tail (by simpa using hab), List.filter_cons, List.filter_cons, ih]

end Remove

section Both

variable [DecidableEq κ] [DecidableEq α]

theorem count_flatMap_addTo (groups : List (Group κ α)) (key : κ) (a b : α) :
    ((addTo groups key a).flatMap Group.members).count b =
      (groups.flatMap Group.members).count b + [a].count b := by
  induction groups with
  | nil => rw [addTo, List.flatMap_singleton, List.flatMap_nil, List.count_nil, Nat.zero_add]
  | cons group groups ih =>
    unfold addTo
    split
    · rw [List.flatMap_cons, List.flatMap_cons, List.count_append, List.count_append,
        List.count_append]
      omega
    · rw [List.flatMap_cons, List.flatMap_cons, List.count_append, List.count_append, ih]
      omega

theorem filter_membersOf_removeFrom {p : α → Bool} {a : α} (ha : p a = false)
    {groups : List (Group κ α)} (h : (groups.map Group.key).Nodup) (key : κ) :
    (membersOf (removeFrom groups a) key).filter p = (membersOf groups key).filter p := by
  induction groups with
  | nil => rfl
  | cons group groups ih =>
    obtain ⟨hnew, hrest⟩ := List.nodup_cons.mp h
    unfold removeFrom
    by_cases hmem : a ∈ group.members
    · rw [if_pos hmem, membersOf_cons]
      by_cases hkey : group.key = key
      · rw [if_pos hkey, ← filter_erase_of_not ha group.members]
        split
        · rename_i hempty
          rw [hempty, membersOf_eq_nil (hkey ▸ hnew)]
        · rw [membersOf_cons, if_pos hkey]
      · rw [if_neg hkey]
        split
        · rfl
        · rw [membersOf_cons, if_neg hkey]
    · rw [if_neg hmem, membersOf_cons, membersOf_cons]
      split
      · rfl
      · exact ih hrest

end Both

/-! ## The list with its invariant -/

structure GroupedList (κ α : Type*) where
  groups : List (Group κ α)
  nodup : (groups.map Group.key).Nodup

namespace GroupedList

def all (list : GroupedList κ α) : List α := list.groups.flatMap Group.members

def empty : GroupedList κ α := ⟨[], List.nodup_nil⟩

def add [DecidableEq κ] (list : GroupedList κ α) (key : κ) (a : α) : GroupedList κ α :=
  ⟨addTo list.groups key a, nodup_addTo list.nodup key a⟩

def members [DecidableEq κ] (list : GroupedList κ α) (key : κ) : List α :=
  membersOf list.groups key

def remove [DecidableEq α] (list : GroupedList κ α) (a : α) : GroupedList κ α :=
  ⟨removeFrom list.groups a, list.nodup.sublist (keys_removeFrom_sublist list.groups a)⟩

def addAll [DecidableEq κ] (list : GroupedList κ α) (items : List (κ × α)) : GroupedList κ α :=
  items.foldl (fun list item => list.add item.1 item.2) list

def removeAll [DecidableEq α] (list : GroupedList κ α) (items : List α) : GroupedList κ α :=
  items.foldl remove list

section Members

variable [DecidableEq κ] (list : GroupedList κ α)

theorem members_key {group : Group κ α} (h : group ∈ list.groups) :
    list.members group.key = group.members :=
  membersOf_key list.nodup h

theorem exists_group_of_mem {key : κ} {a : α} (h : a ∈ list.members key) :
    ∃ group ∈ list.groups, group.key = key ∧ list.members key = group.members := by
  unfold members membersOf at h ⊢
  cases hfind : list.groups.find? (·.key = key) with
  | none =>
    rw [hfind] at h
    cases h
  | some group =>
    refine ⟨group, List.mem_of_find?_eq_some hfind, ?_, rfl⟩
    simpa using List.find?_some hfind

theorem members_addAll (items : List (κ × α)) (key : κ) : (list.addAll items).members key =
    list.members key ++ (items.filter (·.1 = key)).map Prod.snd := by
  induction items generalizing list with
  | nil =>
    rw [List.filter_nil, List.map_nil, List.append_nil]
    rfl
  | cons item items ih =>
    rw [addAll, List.foldl_cons, ← addAll, ih, List.filter_cons]
    have hadd : (list.add item.1 item.2).members key =
        list.members key ++ if item.1 = key then [item.2] else [] :=
      membersOf_addTo list.groups item.1 key item.2
    rw [hadd, List.append_assoc]
    by_cases hkey : item.1 = key
    · rw [if_pos hkey, if_pos (decide_eq_true hkey), List.map_cons, List.singleton_append]
    · rw [if_neg hkey, if_neg (by simpa using hkey), List.nil_append]

end Members

section Counting

variable [DecidableEq κ] [DecidableEq α] (list : GroupedList κ α)

theorem count_addAll (items : List (κ × α)) (a : α) :
    (list.addAll items).all.count a = list.all.count a + (items.map Prod.snd).count a := by
  induction items generalizing list with
  | nil => rfl
  | cons item items ih =>
    have hadd : (list.add item.1 item.2).all.count a = list.all.count a + [item.2].count a :=
      count_flatMap_addTo list.groups item.1 item.2 a
    rw [addAll, List.foldl_cons, ← addAll, ih, hadd, List.map_cons, Nat.add_assoc,
      ← List.count_append, List.singleton_append]

omit [DecidableEq κ] in
theorem count_removeAll (items : List α) (a : α) :
    (list.removeAll items).all.count a = list.all.count a - items.count a := by
  induction items generalizing list with
  | nil => rfl
  | cons item items ih =>
    have hall : (list.remove item).all = list.all.erase item :=
      flatMap_removeFrom list.groups item
    rw [removeAll, List.foldl_cons, ← removeAll, ih, hall, List.count_erase, List.count_cons,
      Nat.sub_sub, Nat.add_comm]

theorem filter_members_removeAll (items : List α) (key : κ) :
    ((list.removeAll items).members key).filter (fun a => !items.contains a) =
      (list.members key).filter fun a => !items.contains a := by
  have hstep : ∀ (rest : List α) (list : GroupedList κ α), rest ⊆ items →
      ((list.removeAll rest).members key).filter (fun a => !items.contains a) =
        (list.members key).filter fun a => !items.contains a := by
    intro rest
    induction rest with
    | nil => exact fun _ _ => rfl
    | cons item rest ih =>
      intro list hsub
      obtain ⟨hitem, hrest⟩ := List.cons_subset.mp hsub
      rw [removeAll, List.foldl_cons, ← removeAll, ih _ hrest]
      exact filter_membersOf_removeFrom (by simpa using hitem) list.nodup key
  exact hstep items list (List.Subset.refl items)

/-- Removals that leave nothing of their elements take just these from every group. -/
theorem members_removeAll {items : List α} (h : ∀ a ∈ items, a ∉ (list.removeAll items).all)
    (key : κ) : (list.removeAll items).members key =
      (list.members key).filter fun a => !items.contains a := by
  rw [← filter_members_removeAll]
  refine (List.filter_eq_self.mpr fun a ha => ?_).symm
  obtain ⟨group, hgroup, -, hmembers⟩ := exists_group_of_mem _ ha
  have hleft : a ∈ (list.removeAll items).all := List.mem_flatMap.mpr ⟨group, hgroup, hmembers ▸ ha⟩
  simpa using fun hitem => h a hitem hleft

end Counting

end GroupedList

end ClusterScheduler.Foundation
