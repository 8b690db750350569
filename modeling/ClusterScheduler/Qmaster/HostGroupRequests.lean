import ClusterScheduler.Sgeobj.HostGroupCache

/-! # Requests for host groups

How the qmaster handles a request to add, modify or delete a host group:

- `attrModSubList`, `hrefListResolveHostnames` — the new list of members.
- `hgroupModHostlist`, `hgroupMod` — the checks, and the temporary change of the
  master list while the cluster queues are looked at (`queueRounds`).
- `gdiAddMod` — the new group takes the place of the old one when `hgroupMod`
  succeeds, and the caches are refreshed.
- `hgroupDel` — only groups that nothing refers to are deleted.

`handle` is one request. Whatever it asks of other parts of the qmaster is in
`Environment`.
-/

namespace ClusterScheduler.Qmaster

open Sgeobj

/-! ## Requests -/

structure SubCommand where
  change : Bool
  append : Bool
  remove : Bool

/-- The element a client sends. It need not carry a list of members. -/
structure ReducedElem where
  name : Name
  hostList : Option (List Name)
  subCommand : SubCommand

inductive Request where
  | add (elem : ReducedElem)
  | modify (elem : ReducedElem)
  | delete (name : Name)

inductive HgroupError where
  | alreadyExists | doesNotExist | reservedReadonly | queueGroupNoAdd | invalidName
  | noNameChange | memberRefused | notStrict | queueGroupNoRef | unknownGroup
  | cycle | noQmaster | qinstances | missingHosts | spooling
  | reservedNoDelete | queueGroupNoDelete | referenced
  deriving DecidableEq

/-- `CQ_Type`: the name and the hosts and groups its attribute lists mention. -/
structure CQueue where
  name : Name
  attributeHrefs : List Name

/-- What a request meets outside the host groups. -/
structure Environment where
  /-- `getuniquehostname` -/
  resolve : Name → Option Name
  qualifiedHostname : Name
  cqueues : List CQueue
  /-- `cqueue_handle_qinstances`, for a queue and the hosts added and removed -/
  handleQinstances : Name → List Name → List Name → Bool
  addMissingHosts : List Name → Bool
  /-- Whether the group can be written to the spool. -/
  spools : Bool
  /-- Whether the list of members is long enough for a hash table. -/
  hashed : Bool

variable (B : Bootstrap) (E : Environment)

/-! ## The new list of members -/

/-- The first loop of `attr_mod_sub_list`: elements found in the full list. The flag is
off when an element to be appended is there already. -/
def matchKnown (sub : SubCommand) : ℕ → List Name → List Name → List Name × List Name × Bool
  | 0, full, reduced => (full, reduced, true)
  | n + 1, full, reduced =>
    match reduced.find? fun r => full.any (hostcmp B r) with
    | none => (full, reduced, true)
    | some r =>
      if sub.change then matchKnown sub n full (reduced.erase r)
      else if sub.append then (full, reduced.erase r, false)
      else matchKnown sub n (full.eraseP (hostcmp B r)) (reduced.erase r)

/-- Changing `HGRP_host_list`. An element that is there already is equal to the new one. -/
def attrModSubList (sub : SubCommand) (full reduced : List Name) : List Name :=
  if sub.change || sub.append || sub.remove then
    match matchKnown B sub reduced.length full reduced with
    | (full, _, false) => full
    | (full, rest, true) => if sub.remove then full else full ++ rest
  else reduced

/-- Hosts are resolved, and a matcher is refused in this edition. -/
def hrefListResolveHostnames (list : List Name) (ignoreErrors : Bool) : Option (List Name) :=
  list.mapM fun name =>
    match classifyMember name with
    | .groupReference => some name
    | .matcher => none
    | .literalHost =>
      match E.resolve name with
      | some resolved => some resolved
      | none => if ignoreErrors then some name else none

def hgroupReservedDeltaIsStrict (group : Name) (current delta : List Name) (sub : SubCommand) :
    Bool :=
  if group = adminHostgroup ∨ group = submitHostgroup then
    delta.all fun name =>
      !(sub.append && hrefListHasMember B current name) &&
        !(sub.remove && !hrefListHasMember B current name)
  else true

/-- Hosts that groups add or remove, without those both do. -/
def hrefListFindEffectiveDiff (fuel : ℕ) (master : List HGroup) (added removed : Used) :
    Option (List Name × List Name) :=
  (findAllReferences B master fuel added.groups ⟨added.hosts, []⟩).bind fun add =>
    (findAllReferences B master fuel removed.groups ⟨removed.hosts, []⟩).map fun rem =>
      if add.hosts ≠ [] ∧ rem.hosts ≠ [] then
        let diff := hrefListFindDiff B add.hosts rem.hosts
        (diff.1.hosts, diff.2.hosts)
      else (add.hosts, rem.hosts)

/-! ## Modifying a group -/

/-- The group as it will be, and what its change means for others. -/
structure Modified where
  hgroup : HGroup
  addHosts : List Name
  remHosts : List Name
  occupantGroups : List Name

def hgroupModHostlist (fuel : ℕ) (master : List HGroup) (hgroup : HGroup) (list : List Name)
    (sub : SubCommand) : Option (Except HgroupError Modified) :=
  match hrefListResolveHostnames E list true with
  | none => some (.error .memberRefused)
  | some list =>
  if !hgroupReservedDeltaIsStrict B hgroup.name hgroup.hostList list sub then
    some (.error .notStrict)
  else
  let hrefs := hrefListMakeUniq B E.hashed (attrModSubList B sub hgroup.hostList list)
  if hrefs.any hgroupIsQueueGroup then some (.error .queueGroupNoRef)
  else
  let (added, removed) := hrefListFindDiff B hrefs hgroup.hostList
  if !hgroupListExists B master added.groups then some (.error .unknownGroup)
  else
  (hrefListFindEffectiveDiff B fuel master added removed).bind fun (addHosts, remHosts) =>
  match hrefListResolveHostnames E addHosts false with
  | none => some (.error .memberRefused)
  | some addHosts =>
  (hgroupFindAllReferencees B master fuel hgroup.name).bind fun occupants =>
  let occupants := hrefListAdd B occupants hgroup.name
  if added.groups.any (hrefListHasMember B occupants) then some (.error .cycle)
  else
  (findAllReferences B master fuel hgroup.hostList ⟨[], []⟩).bind fun before =>
  (findAllReferences B master fuel hrefs ⟨[], []⟩).bind fun after =>
  some (.ok
    { hgroup := { hgroup with hostList := hrefs }
      addHosts := hrefListRemoveExisting B addHosts before.hosts
      remHosts := hrefListRemoveExisting B remHosts after.hosts
      occupantGroups := occupants })

def dechain (master : List HGroup) (name : Name) : List HGroup :=
  master.eraseP fun g => hostKey B g.name = hostKey B name

def chainIn (master : List HGroup) (hgroup : HGroup) : List HGroup :=
  dechain B master hgroup.name ++ [hgroup]

def cqueueGetHostlist (master : List HGroup) (cqueue : CQueue) : List Name :=
  ((hgroupListLocate B master (hgroupQueueGroupName cqueue.name)).map (·.hostList)).getD []

def cqueueIsAHrefReferenced (cqueue : CQueue) (hrefs : List Name) : Bool :=
  hrefs.contains (hgroupQueueGroupName cqueue.name)

/-- The queues a change concerns, one after the other. The new group is in the master
list while the hosts of a queue are resolved; afterwards the old one is back, at the
end of the list. -/
def queueRounds (fuel : ℕ) (m : Modified) :
    List CQueue → List HGroup → Option (Bool × List HGroup)
  | [], master => some (true, master)
  | cqueue :: cqueues, master =>
    if cqueueIsAHrefReferenced cqueue m.occupantGroups then
      (findAllReferences B master fuel (cqueueGetHostlist B master cqueue) ⟨[], []⟩).bind
      fun before =>
      let swapped := chainIn B master m.hgroup
      (findAllReferences B swapped fuel (cqueueGetHostlist B swapped cqueue) ⟨[], []⟩).bind
      fun after =>
      let realRemHosts := (hrefListCompare B m.remHosts after.hosts).hosts
      let realAddHosts := (hrefListCompare B m.addHosts before.hosts).hosts
      let master := dechain B master m.hgroup.name ++
        (hgroupListLocate B master m.hgroup.name).toList
      if E.handleQinstances cqueue.name realAddHosts realRemHosts then
        queueRounds fuel m cqueues master
      else some (false, master)
    else queueRounds fuel m cqueues master

def hgroupModQueues (fuel : ℕ) (master : List HGroup) (m : Modified) :
    Option (Except HgroupError HGroup × List HGroup) :=
  if m.hgroup.name = adminHostgroup ∧
      !hrefListHasMember B m.hgroup.hostList E.qualifiedHostname then
    some (.error .noQmaster, master)
  else
  (queueRounds B E fuel m E.cqueues master).map fun (ok, master) =>
    if !ok then (.error .qinstances, master)
    else if (E.cqueues.any fun q => cqueueIsAHrefReferenced q m.occupantGroups) &&
        !E.addMissingHosts m.addHosts then (.error .missingHosts, master)
    else (.ok m.hgroup, master)

/-- The checks of the name; the group gets it when it is new. -/
def hgroupModName (hgroup : HGroup) (name : Name) (add : Bool) : Except HgroupError HGroup :=
  if hgroupIsSystemMaintained B name || !add && hgroupIsSystemMaintained B hgroup.name then
    .error .reservedReadonly
  else if add then
    if hgroupIsQueueGroup name then .error .queueGroupNoAdd
    else if hgroupCheckName name then .ok { hgroup with name := name }
    else .error .invalidName
  else if hostcmp B hgroup.name name then .ok hgroup
  else .error .noNameChange

def hgroupMod (fuel : ℕ) (master : List HGroup) (hgroup : HGroup) (elem : ReducedElem)
    (add : Bool) : Option (Except HgroupError HGroup × List HGroup) :=
  match hgroupModName B hgroup elem.name add with
  | .error e => some (.error e, master)
  | .ok hgroup =>
    match elem.hostList with
    | none => some (.ok hgroup, master)
    | some list =>
      (hgroupModHostlist B E fuel master hgroup list elem.subCommand).bind fun
        | .error e => some (.error e, master)
        | .ok m => hgroupModQueues B E fuel master m

def emptyGroup : HGroup := ⟨[], [], [], 0⟩

def gdiAddMod (fuel : ℕ) (S : HostGroups) (elem : ReducedElem) (add : Bool) :
    Option (Except HgroupError Unit × HostGroups) :=
  let old := hgroupListLocate B S.groups elem.name
  if add && old.isSome then some (.error .alreadyExists, S)
  else if !add && old.isNone then some (.error .doesNotExist, S)
  else
  (hgroupMod B E fuel S.groups (old.getD emptyGroup) elem add).bind fun
    | (.error e, master) => some (.error e, { S with groups := master })
    | (.ok hgroup, master) =>
      if !E.spools then some (.error .spooling, { S with groups := master })
      else
      (hgroupRefreshCaches B fuel { S with groups := chainIn B master hgroup } hgroup).map
        fun S => (.ok (), S)

/-! ## Deleting a group -/

def cqueueIsHgroupReferenced (cqueue : CQueue) (name : Name) : Bool :=
  hgroupQueueGroupName cqueue.name = name || hrefListHasMember B cqueue.attributeHrefs name

def hgroupDel (S : HostGroups) (name : Name) : Except HgroupError Unit × HostGroups :=
  if hgroupIsReserved B name then (.error .reservedNoDelete, S)
  else if hgroupIsQueueGroup name then (.error .queueGroupNoDelete, S)
  else
    match hgroupListLocate B S.groups name with
    | none => (.error .doesNotExist, S)
    | some hgroup =>
      if findReferencees B S.groups (hrefListAdd B [] hgroup.name) [] ≠ [] ∨
          E.cqueues.any fun q => cqueueIsHgroupReferenced B q hgroup.name then
        (.error .referenced, S)
      else if !E.spools then (.error .spooling, S)
      else (.ok (), { S with groups := dechain B S.groups hgroup.name })

/-! ## One request -/

def handle (fuel : ℕ) (S : HostGroups) : Request → Option (Except HgroupError Unit × HostGroups)
  | .add elem => gdiAddMod B E fuel S elem true
  | .modify elem => gdiAddMod B E fuel S elem false
  | .delete name => some (hgroupDel B E S name)

end ClusterScheduler.Qmaster
