import ClusterScheduler.Sgeobj.QueueReferences

/-!
# Access lists

An access list names users and, with a leading `@`, groups.

* `Userset`, `JobUser` — an access list, and who asks.
* `sgeContainedInAccessList` — does a list cover a user or one of the groups?
* `sgeContainedInAccessLists`, `sgeHasAccess` — lists given by names.
* `sgeHasAccess_iff` — what access means.
-/

namespace ClusterScheduler.Sgeobj

/-- `US_Type` -/
structure Userset where
  name : Name
  entries : List Name
  deriving DecidableEq

/-- A user with the groups. `supGrpEval` says that supplementary groups count. -/
structure JobUser where
  user : Option Name
  group : Option Name
  grpList : Option (List Name)
  supGrpEval : Bool
  deriving DecidableEq

/-! ## Functions of the source -/

section Functions

variable (C : Comparison)

def fnmatch (pattern s : Name) : Bool := C.fnmatch pattern s = 0

def findNameAsUser (userName : Name) (entries : List Name) : Bool :=
  entries.contains userName || (hasPattern userName && entries.any (fnmatch C userName))

def findNameAsGroup (groupName : Name) (entries : List Name) : Bool :=
  entries.contains ('@' :: groupName) ||
    (hasPattern groupName && entries.any (fnmatch C ('@' :: groupName)))

def sgeContainedInAccessList (who : JobUser) (acl : Userset) : Bool :=
  who.user.any (findNameAsUser C · acl.entries) ||
    who.group.any (findNameAsGroup C · acl.entries) ||
    (who.supGrpEval && (who.grpList.getD []).any (findNameAsGroup C · acl.entries))

def usersetLocate (aclList : List Userset) (name : Name) : Option Userset :=
  aclList.find? fun acl => acl.name = name

/-- `sge_contained_in_access_list_()`. A name without an access list is passed by. -/
def sgeContainedInAccessLists (who : JobUser) (acl : Option (List Name))
    (aclList : List Userset) : Bool :=
  (acl.getD []).any fun name => (usersetLocate aclList name).any (sgeContainedInAccessList C who)

/-- `sge_has_access_()`. Without an allowance list everybody has access. -/
def sgeHasAccess (who : JobUser) (acl xacl : Option (List Name)) (aclList : List Userset) : Bool :=
  if sgeContainedInAccessLists C who xacl aclList then false
  else
    match acl with
    | none => true
    | some acl => sgeContainedInAccessLists C who (some acl) aclList

end Functions

/-- **Access** is what is not excluded, and allowed if there is an allowance list. -/
theorem sgeHasAccess_iff {C : Comparison} {who : JobUser} {acl xacl : Option (List Name)}
    {aclList : List Userset} : sgeHasAccess C who acl xacl aclList = true ↔
      sgeContainedInAccessLists C who xacl aclList = false ∧
        (acl ≠ none → sgeContainedInAccessLists C who acl aclList = true) := by
  unfold sgeHasAccess
  cases hx : sgeContainedInAccessLists C who xacl aclList with
  | true => simp
  | false => cases acl <;> simp

end ClusterScheduler.Sgeobj
