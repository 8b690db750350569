import ClusterScheduler.Sgeobj.ExpressionGrammar
import ClusterScheduler.Sgeobj.HostGroupCache

/-!
# References to queues and hosts

A reference names cluster queues, or queue instances by a cluster queue and a host, which may be
an expression or a host group.

* `qrefHgroupRejected` — is a host no member of a group? The walk takes fuel.
* `qrefListHostRejected`, `qrefCqRejected`, `qrefListCqRejected` — does a reference, or a list of
  references, reject a host or a queue?
* `qrefListCqRejected_of_cq` — what is rejected without a host is rejected with every host.
-/

namespace ClusterScheduler.Sgeobj

open Foundation

/-! ## Patterns -/

/-- `ocs::is_pattern()`, of a string. -/
def hasPattern (s : Name) : Bool := s.any isPattern

def referencePattern (s : Name) : Name := if matcherKind s = .host then s.drop 5 else s

/-! ## Functions of the source -/

section Functions

variable (B : Bootstrap) (C : Comparison) (hgroupList : List HGroup)

def evalMatches (type : CEntryType) (expr value : Name) (useIsExpression isExpr : Bool) : Bool :=
  (sgeEvalExpression C type (some expr) (some value) useIsExpression isExpr).any (·.1 = 0)

/-- Members are compared, not matched. -/
def qrefHgroupRejected : ℕ → HGroup → Name → Bool
  | 0, _, _ => true
  | fuel + 1, hgroup, hostname =>
    if hgroupHasHostCache hgroup then !hgroupCacheContainsHost B hgroup hostname
    else
      !hgroup.hostList.any fun member =>
        if isHgroupName member then
          match hgroupListLocate B hgroupList member with
          | none => false
          | some sub => !qrefHgroupRejected fuel sub hostname
        else hostcmp B member hostname

def hgroupFuel : ℕ := hgroupList.length + 2

def qrefListHostRejected (href hostname : Name) : Bool :=
  if isHgroupName href then
    if isExpression href.tail then
      !hgroupList.any fun hgroup =>
        evalMatches C .host href.tail hgroup.name.tail true true &&
          !qrefHgroupRejected B hgroupList (hgroupFuel hgroupList) hgroup hostname
    else
      match hgroupListLocate B hgroupList href with
      | none => true
      | some hgroup => qrefHgroupRejected B hgroupList (hgroupFuel hgroupList) hgroup hostname
  else !evalMatches C .host href hostname false false

/-- The part before the first `@` is matched with the cluster queue, what follows with the
host. -/
def qrefCqRejected (qrefPattern cqname : Name) (hostname : Option Name) : Bool :=
  if qrefPattern.contains '@' then
    let wcCqueue := qrefPattern.takeWhile (· ≠ '@')
    let s := qrefPattern.dropWhile (· ≠ '@')
    if evalMatches C .str wcCqueue cqname false false then
      match hostname with
      | none => false
      | some hostname => qrefListHostRejected B C hgroupList s.tail hostname
    else true
  else !evalMatches C .str qrefPattern cqname false false

/-- Without a list nothing is rejected. -/
def qrefListCqRejected (qrefList : Option (List Name)) (cqname : Name) (hostname : Option Name) :
    Bool :=
  match qrefList with
  | none => false
  | some qrefList => qrefList.all fun name => qrefCqRejected B C hgroupList name cqname hostname

end Functions

variable {B : Bootstrap} {C : Comparison} {hgroupList hgroups hgroups' : List HGroup} {cqname : Name}

theorem qrefCqRejected_of_cq {qrefPattern : Name}
    (h : qrefCqRejected B C hgroups qrefPattern cqname none = true) (hostname : Option Name) :
    qrefCqRejected B C hgroups' qrefPattern cqname hostname = true := by
  unfold qrefCqRejected at h ⊢
  split
  · next hat =>
      rw [if_pos hat] at h
      dsimp only at h ⊢
      split
      · next hmatch => exact absurd h (by rw [if_pos hmatch]; exact Bool.false_ne_true)
      · rfl
  · next hat => rwa [if_neg hat] at h

/-- **A cluster queue that is rejected** is rejected on every host, and whatever the host groups
are. -/
theorem qrefListCqRejected_of_cq {qrefList : Option (List Name)}
    (h : qrefListCqRejected B C hgroups qrefList cqname none = true) (hostname : Option Name) :
    qrefListCqRejected B C hgroups' qrefList cqname hostname = true := by
  cases qrefList with
  | none => exact h
  | some qrefList =>
    refine List.all_eq_true.mpr fun name hname => ?_
    exact qrefCqRejected_of_cq (List.all_eq_true.mp h name hname) hostname

end ClusterScheduler.Sgeobj
