import ClusterScheduler.Sgeobj.HostGroupResolution

/-!
# Attributes of cluster queues

An attribute of a cluster queue is a list of profiles: a default value and values for hosts and
for host groups.

* `attrListFindValue` — the value for a host.
* `attrListFindValue_mem` — it is the value of a profile.
* `attrListFindValue_isSome` — with a default and acyclic groups there is one.
-/

namespace ClusterScheduler.Sgeobj

open Foundation

/-- A profile: a reference to a host or a host group, and the value. -/
structure HostAttr (α : Type*) where
  href : Name
  value : α
  deriving DecidableEq

def hostrefDefault : Name := "@/".toList

section Functions

variable {α : Type*} (B : Bootstrap) (hgroupList : List HGroup)

def attrListLocate (thisList : List (HostAttr α)) (hostOrGroup : Name) : Option (HostAttr α) :=
  thisList.find? fun attr => hostKey B attr.href = hostKey B hostOrGroup

/-- The loop over the profiles of host groups. A second group with the host makes the value
ambiguous: the inner `none`. -/
def findGroupValue (fuel : ℕ) (hostname : Name) :
    Option α → List (HostAttr α) → Option (Option α)
  | found, [] => some found
  | found, attr :: rest =>
    if attr.href ≠ hostrefDefault ∧ isHgroupName attr.href = true then
      match hgroupFindAllReferences B hgroupList fuel attr.href with
      | none => none
      | some used =>
        if hrefListHasMember B used.hosts hostname then
          match found with
          | none => findGroupValue fuel hostname (some attr.value) rest
          | some _ => some none
        else findGroupValue fuel hostname found rest
    else findGroupValue fuel hostname found rest

/-- `none` when there is no value, or when the walk through the groups does not end. -/
def attrListFindValue (fuel : ℕ) (thisList : List (HostAttr α)) (hostname : Name) : Option α :=
  match attrListLocate B thisList hostname with
  | some attr => some attr.value
  | none =>
    match findGroupValue B hgroupList fuel hostname none thisList with
    | none => none
    | some (some value) => some value
    | some none => (attrListLocate B thisList hostrefDefault).map (·.value)

end Functions

/-- The list contains a default entry. -/
def HasDefault {α : Type*} (B : Bootstrap) (thisList : List (HostAttr α)) : Prop :=
  (attrListLocate B thisList hostrefDefault).isSome = true

instance {α : Type*} (B : Bootstrap) (thisList : List (HostAttr α)) :
    Decidable (HasDefault B thisList) := inferInstanceAs (Decidable (_ = true))

variable {α : Type*} {B : Bootstrap} {hgroupList : List HGroup} {fuel : ℕ} {hostname : Name}

variable {thisList : List (HostAttr α)}

theorem attrListLocate_mem {name : Name} {attr : HostAttr α}
    (h : attrListLocate B thisList name = some attr) : attr ∈ thisList :=
  List.mem_of_find?_eq_some h

/-- The loop ends with what it started with, or with the value of a profile. -/
theorem findGroupValue_mem : ∀ {thisList : List (HostAttr α)} {found : Option α} {value : α},
    findGroupValue B hgroupList fuel hostname found thisList = some (some value) →
      found = some value ∨ ∃ attr ∈ thisList, attr.value = value
  | [], found, value, h => .inl (Option.some.inj h)
  | attr :: rest, found, value, h => by
      have later : ∀ {found' : Option α},
          findGroupValue B hgroupList fuel hostname found' rest = some (some value) →
            found' = some value ∨ ∃ attr' ∈ attr :: rest, attr'.value = value := by
        intro found' h'
        obtain hfound | ⟨attr', hmem, hvalue⟩ := findGroupValue_mem h'
        · exact .inl hfound
        · exact .inr ⟨attr', .tail _ hmem, hvalue⟩
      unfold findGroupValue at h
      split at h
      · split at h
        · cases h
        · split at h
          · split at h
            · -- the first group with the host
              obtain hfound | hmem := later h
              · exact .inr ⟨attr, .head _, Option.some.inj hfound⟩
              · exact .inr hmem
            · exact absurd (Option.some.inj h) nofun
          · exact later h
      · exact later h

/-- **The value for a host** is the value of a profile. -/
theorem attrListFindValue_mem {value : α}
    (h : attrListFindValue B hgroupList fuel thisList hostname = some value) :
    ∃ attr ∈ thisList, attr.value = value := by
  unfold attrListFindValue at h
  split at h
  · next attr hlocate => exact ⟨attr, attrListLocate_mem hlocate, Option.some.inj h⟩
  · split at h
    · cases h
    · next hfind =>
        cases h
        exact (findGroupValue_mem hfind).resolve_left nofun
    · obtain ⟨attr, hlocate, hvalue⟩ := Option.map_eq_some_iff.mp h
      exact ⟨attr, attrListLocate_mem hlocate, hvalue⟩

theorem findGroupValue_isSome (hostname : Name) (h : Acyclic (Refers B hgroupList))
    (hfuel : hgroupList.length + 2 ≤ fuel) : ∀ (thisList : List (HostAttr α)) (found : Option α),
      (findGroupValue B hgroupList fuel hostname found thisList).isSome = true
  | [], _ => rfl
  | attr :: rest, found => by
      have hwalk : (hgroupFindAllReferences B hgroupList fuel attr.href).isSome = true :=
        findAllReferences_returns h hfuel _ _
      unfold findGroupValue
      split
      · split
        · next hnone => rw [hnone] at hwalk; exact absurd hwalk nofun
        · split
          · split
            · exact findGroupValue_isSome hostname h hfuel rest _
            · rfl
          · exact findGroupValue_isSome hostname h hfuel rest _
      · exact findGroupValue_isSome hostname h hfuel rest _

/-- **There is a value** for every host if there is a default. -/
theorem attrListFindValue_isSome (hostname : Name) (hdefault : HasDefault B thisList)
    (h : Acyclic (Refers B hgroupList)) (hfuel : hgroupList.length + 2 ≤ fuel) :
    (attrListFindValue B hgroupList fuel thisList hostname).isSome = true := by
  have hloop := findGroupValue_isSome hostname h hfuel thisList none
  unfold attrListFindValue
  split
  · rfl
  · split
    · next hnone => rw [hnone] at hloop; exact absurd hloop nofun
    · rfl
    · rw [Option.isSome_map]
      exact hdefault

end ClusterScheduler.Sgeobj
