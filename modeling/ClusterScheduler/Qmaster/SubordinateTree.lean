import Mathlib
import ClusterScheduler.Foundation.Digraph
import ClusterScheduler.Foundation.PartialFold

/-!
# The slot-wise subordination tree

A queue instance may subordinate other queues on its host, queue-wise or slot-wise. Before a new
list is accepted the qmaster looks for loops, and it walks the slot-wise subordinations whenever a
job starts.

* `getSlotwiseSosTreeRoot`, `getSlotwiseSosSubTreeQinstances` — the walk up and the walk down.
* `checkNewSlotwiseSubordinateTree` — the test of a new list.
* `Subordinates` — the graph of the slot-wise subordinations on a host.
* `LoopsInSight` — the loops a new list would close are ones that the test looks for.
* `acyclic_setSubordinateList_iff` — a list that passes the test closes no loop if and only if
  all its loops are in sight.
* `acyclic_run` — so the graph stays acyclic as long as they are, and both walks come back.
-/

namespace ClusterScheduler.Qmaster

open Relation Foundation

/-! ## Cluster queues -/

/-- An entry of a subordinate list. `slotsSum` is 0 in a queue-wise list. -/
structure Subordinate where
  name : String
  threshold : ℕ
  slotsSum : ℕ
  seqNo : ℕ
  action : ℕ
deriving DecidableEq, Repr

structure QInstance where
  qname : String
  hostname : String
  subordinateList : List Subordinate
deriving DecidableEq, Repr

def QInstance.fullName (qi : QInstance) : String := qi.qname ++ "@" ++ qi.hostname

/-- A cluster queue. Its instances carry its name. -/
structure ClusterQueue where
  name : String
  qinstances : List QInstance
  named : ∀ qi ∈ qinstances, qi.qname = name

/-- The master list. The name is the key of a cluster queue. -/
structure ClusterQueueList where
  cqueues : List ClusterQueue
  unique : (cqueues.map ClusterQueue.name).Nodup

def ClusterQueue.locateQinstance (cqueue : ClusterQueue) (host : String) : Option QInstance :=
  cqueue.qinstances.find? (·.hostname = host)

/-- `cqueue_list_locate_qinstance()`. A name in a subordinate list is that of a cluster queue. -/
def ClusterQueueList.locateQinstance (queues : ClusterQueueList) (qname host : String) :
    Option QInstance :=
  (queues.cqueues.find? (·.name = qname)).bind (·.locateQinstance host)

def ClusterQueue.setSubordinateList (cqueue : ClusterQueue) (host : String) (list : List Subordinate) :
    ClusterQueue where
  name := cqueue.name
  qinstances := cqueue.qinstances.map fun qi =>
    if qi.hostname = host then { qi with subordinateList := list } else qi
  named := by
    intro qi hqi
    obtain ⟨old, hold, rfl⟩ := List.mem_map.mp hqi
    have hname := cqueue.named old hold
    split <;> exact hname

def ClusterQueueList.setSubordinateList (queues : ClusterQueueList) (qname host : String)
    (list : List Subordinate) : ClusterQueueList where
  cqueues := queues.cqueues.map fun cqueue =>
    if cqueue.name = qname then cqueue.setSubordinateList host list else cqueue
  unique := by
    have hnames : (queues.cqueues.map fun cqueue =>
        if cqueue.name = qname then cqueue.setSubordinateList host list else cqueue).map
          ClusterQueue.name = queues.cqueues.map ClusterQueue.name := by
      rw [List.map_map]
      refine List.map_congr_left fun cqueue _ => ?_
      rw [Function.comp_apply]
      split <;> rfl
    rw [hnames]
    exact queues.unique

/-! ## Functions of the source -/

/-- Looks into the first entry only. -/
def getSlotwiseSosThreshold (qi : QInstance) : ℕ :=
  match qi.subordinateList.head? with
  | some so => so.slotsSum
  | none => 0

/-- The first entry for the name is a slot-wise one. -/
def QInstance.listsSlotwise (qi : QInstance) (qname : String) : Bool :=
  match qi.subordinateList.find? (·.name = qname) with
  | some so => so.slotsSum != 0
  | none => false

/-- The result is overwritten for every superordinate that is found. -/
def getSlotwiseSosTreeRoot (queues : ClusterQueueList) : ℕ → QInstance → Option (Option QInstance)
  | 0, _ => none
  | fuel + 1, node =>
    queues.cqueues.foldlM (fun root cqueue =>
      match cqueue.locateQinstance node.hostname with
      | none => some root
      | some qinstance =>
        if qinstance.listsSlotwise node.qname then
          getSlotwiseSosTreeRoot queues fuel qinstance
        else some root)
      (if 0 < getSlotwiseSosThreshold node then some node else none)

/-- An element of the list that stands for the tree. -/
structure SsosQinstance where
  seqNo : ℕ
  action : ℕ
  depth : ℕ
  qinstance : QInstance
  parent : Option QInstance
deriving DecidableEq, Repr

def getSlotwiseSosSubTreeQinstances (queues : ClusterQueueList) :
    ℕ → QInstance → List SsosQinstance → ℕ → Option (List SsosQinstance)
  | 0, _, _, _ => none
  | fuel + 1, qinstance, tree, depth =>
    -- the root of the tree is added by the first call
    let (tree, depth) := if depth = 0 then ([⟨0, 0, 0, qinstance, none⟩], 1) else (tree, depth)
    qinstance.subordinateList.foldlM (fun tree so =>
      if 0 < so.slotsSum then
        match queues.locateQinstance so.name qinstance.hostname with
        | none => some tree
        | some sub => getSlotwiseSosSubTreeQinstances queues fuel sub
            (⟨so.seqNo, so.action, depth, sub, some qinstance⟩ :: tree) (depth + 1)
      else some tree) tree

/-- Removes from both lists what they have in common, one entry of each for a name. -/
def lDiffListStr (list₁ list₂ : List Subordinate) : List Subordinate × List Subordinate :=
  list₁.foldl (fun lists so =>
    if lists.2.any (·.name = so.name) then
      (lists.1.eraseP (·.name = so.name), lists.2.eraseP (·.name = so.name))
    else lists) (list₁, list₂)

def checkNewSlotwiseSubordinateTree (queues : ClusterQueueList) (fuel : ℕ) (qinstance : QInstance)
    (newSoList : List Subordinate) : Option Bool :=
  (getSlotwiseSosTreeRoot queues fuel qinstance).bind fun
    | none => some true
    | some root =>
      if 0 < getSlotwiseSosThreshold root then
        (getSlotwiseSosSubTreeQinstances queues fuel root [] 0).map fun tree =>
          newSoList.all fun so => !tree.any fun ssos => ssos.qinstance.qname = so.name
      else some true

/-- The test that `qinstance_modify_attribute()` makes of a new value: only the names that were
not in the old list are looked at. -/
def validConfig (queues : ClusterQueueList) (fuel : ℕ) (qinstance : QInstance)
    (newValue : List Subordinate) : Option Bool :=
  checkNewSlotwiseSubordinateTree queues fuel qinstance
    (lDiffListStr qinstance.subordinateList newValue).2

/-! ## Where a queue instance is found -/

section Locate

variable {queues : ClusterQueueList} {qname host : String} {qi : QInstance}

theorem locateQinstance_iff : queues.locateQinstance qname host = some qi ↔
    ∃ cqueue ∈ queues.cqueues, cqueue.name = qname ∧ cqueue.locateQinstance host = some qi := by
  unfold ClusterQueueList.locateQinstance
  constructor
  · intro h
    obtain ⟨cqueue, hfind, hlocate⟩ := Option.bind_eq_some_iff.mp h
    refine ⟨cqueue, List.mem_of_find?_eq_some hfind, ?_, hlocate⟩
    simpa using List.find?_some hfind
  · rintro ⟨cqueue, hmem, hname, hlocate⟩
    have hsome : (queues.cqueues.find? (·.name = qname)).isSome := by
      rw [List.find?_isSome]
      exact ⟨cqueue, hmem, by simpa using hname⟩
    obtain ⟨first, hfirst⟩ := Option.isSome_iff_exists.mp hsome
    have hsame : first = cqueue := by
      refine List.inj_on_of_nodup_map queues.unique (List.mem_of_find?_eq_some hfirst) hmem ?_
      have hfirstName : first.name = qname := by simpa using List.find?_some hfirst
      rw [hfirstName, hname]
    rw [hfirst, hsame]
    exact hlocate

theorem locateQinstance_spec (h : queues.locateQinstance qname host = some qi) :
    qi.qname = qname ∧ qi.hostname = host := by
  obtain ⟨cqueue, -, rfl, hlocate⟩ := locateQinstance_iff.mp h
  constructor
  · exact cqueue.named qi (List.mem_of_find?_eq_some hlocate)
  · simpa using List.find?_some hlocate

theorem ClusterQueue.locateQinstance_setSubordinateList (cqueue : ClusterQueue) (host : String)
    (list : List Subordinate) (host' : String) :
    (cqueue.setSubordinateList host list).locateQinstance host' =
      (cqueue.locateQinstance host').map fun qi =>
        if host' = host then { qi with subordinateList := list } else qi := by
  unfold ClusterQueue.locateQinstance ClusterQueue.setSubordinateList
  rw [List.find?_map]
  have hkey : ((fun qi : QInstance => decide (qi.hostname = host')) ∘ fun qi =>
      if qi.hostname = host then { qi with subordinateList := list } else qi) =
        fun qi => decide (qi.hostname = host') := by
    ext qi
    rw [Function.comp_apply]
    split <;> rfl
  rw [hkey]
  cases hfind : cqueue.qinstances.find? fun qi => decide (qi.hostname = host') with
  | none => rfl
  | some qi =>
    have hhost : qi.hostname = host' := by simpa using List.find?_some hfind
    rw [Option.map_some, Option.map_some, hhost]

theorem locateQinstance_setSubordinateList (queues : ClusterQueueList) (qname host : String)
    (list : List Subordinate) (qname' host' : String) :
    (queues.setSubordinateList qname host list).locateQinstance qname' host' =
      (queues.locateQinstance qname' host').map fun qi =>
        if qname' = qname ∧ host' = host then { qi with subordinateList := list } else qi := by
  unfold ClusterQueueList.locateQinstance ClusterQueueList.setSubordinateList
  rw [List.find?_map]
  have hkey : ((fun cqueue : ClusterQueue => decide (cqueue.name = qname')) ∘ fun cqueue =>
      if cqueue.name = qname then cqueue.setSubordinateList host list else cqueue) =
        fun cqueue => decide (cqueue.name = qname') := by
    ext cqueue
    rw [Function.comp_apply]
    split <;> rfl
  rw [hkey]
  cases hfind : queues.cqueues.find? fun cqueue => decide (cqueue.name = qname') with
  | none => rfl
  | some cqueue =>
    have hname : cqueue.name = qname' := by simpa using List.find?_some hfind
    rw [Option.map_some, Option.bind_some, Option.bind_some, hname]
    by_cases hq : qname' = qname
    · rw [if_pos hq, ClusterQueue.locateQinstance_setSubordinateList]
      simp only [hq, true_and]
    · rw [if_neg hq]
      simp [hq]

end Locate

/-! ## The graph of a host -/

/-- The slot-wise subordinations among the queue instances of a host. -/
def Subordinates (queues : ClusterQueueList) (host : String) (sup sub : String) : Prop :=
  ∃ qi, queues.locateQinstance sup host = some qi ∧
    (∃ so ∈ qi.subordinateList, so.name = sub ∧ 0 < so.slotsSum) ∧
    (queues.locateQinstance sub host).isSome

/-- A subordinate list is a queue-wise or a slot-wise one. -/
def Uniform (list : List Subordinate) : Prop :=
  (∀ so ∈ list, so.slotsSum = 0) ∨ ∀ so ∈ list, 0 < so.slotsSum

def UniformLists (queues : ClusterQueueList) : Prop :=
  ∀ qname host qi, queues.locateQinstance qname host = some qi → Uniform qi.subordinateList

def superordinates (queues : ClusterQueueList) (node : QInstance) : List QInstance :=
  queues.cqueues.filterMap fun cqueue =>
    (cqueue.locateQinstance node.hostname).filter (·.listsSlotwise node.qname)

/-- The queue instance that is reached by going on to the last superordinate. -/
inductive TopOf (queues : ClusterQueueList) : QInstance → QInstance → Prop
  | top {node} (hnone : superordinates queues node = []) : TopOf queues node node
  | up {node sup top} (hlast : (superordinates queues node).getLast? = some sup)
      (htop : TopOf queues sup top) : TopOf queues node top

/-- The test looks for every loop that the new list closes: it ends at a queue that the old list
did not name, and below the top of the tree that is inspected. -/
def LoopsInSight (queues : ClusterQueueList) (qi : QInstance) (list : List Subordinate) : Prop :=
  ∀ so ∈ list, 0 < so.slotsSum →
    ReflTransGen (Subordinates queues qi.hostname) so.name qi.qname →
      (∀ old ∈ qi.subordinateList, old.name ≠ so.name) ∧
      ∃ top, TopOf queues qi top ∧
        ReflTransGen (Subordinates queues qi.hostname) top.qname so.name

/-- The states that changes of subordinate lists lead to which pass the test and meet `C`. -/
inductive SubordinateRun (C : ClusterQueueList → QInstance → List Subordinate → Prop) :
    ClusterQueueList → Prop
  | start {queues} (hempty : ∀ cqueue ∈ queues.cqueues, ∀ qi ∈ cqueue.qinstances,
      qi.subordinateList = []) : SubordinateRun C queues
  | change {queues qname host} (qi : QInstance) {list : List Subordinate} (fuel : ℕ)
      (hrun : SubordinateRun C queues)
      (hlocate : queues.locateQinstance qname host = some qi) (huniform : Uniform list)
      (hself : ∀ so ∈ list, so.name ≠ qname)
      (hvalid : validConfig queues fuel qi list = some true) (hcond : C queues qi list) :
      SubordinateRun C (queues.setSubordinateList qname host list)

variable {queues : ClusterQueueList} {host : String} {qi node : QInstance}

/-! ## Uniform lists -/

theorem getSlotwiseSosThreshold_pos (hu : Uniform qi.subordinateList) {so : Subordinate}
    (hmem : so ∈ qi.subordinateList) (hpos : 0 < so.slotsSum) : 0 < getSlotwiseSosThreshold qi := by
  unfold getSlotwiseSosThreshold
  have hslotwise : ∀ so ∈ qi.subordinateList, 0 < so.slotsSum :=
    hu.resolve_left fun hzero => hpos.ne' (hzero so hmem)
  cases hhead : qi.subordinateList.head? with
  | none => exact absurd hmem (by simp [List.head?_eq_none_iff.mp hhead])
  | some first => exact hslotwise first (List.mem_of_mem_head? hhead)

theorem listsSlotwise_iff (hu : Uniform qi.subordinateList) (qname : String) :
    qi.listsSlotwise qname = true ↔ ∃ so ∈ qi.subordinateList, so.name = qname ∧
      0 < so.slotsSum := by
  unfold QInstance.listsSlotwise
  cases hfind : qi.subordinateList.find? (·.name = qname) with
  | none =>
    refine iff_of_false Bool.false_ne_true ?_
    rintro ⟨so, hmem, hname, -⟩
    exact List.find?_eq_none.mp hfind so hmem (by simpa using hname)
  | some first =>
    have hmem : first ∈ qi.subordinateList := List.mem_of_find?_eq_some hfind
    have hname : first.name = qname := by simpa using List.find?_some hfind
    constructor
    · intro hne
      exact ⟨first, hmem, hname, Nat.pos_of_ne_zero (by simpa using hne)⟩
    · rintro ⟨so, hso, -, hpos⟩
      have hslotwise := hu.resolve_left fun hzero => hpos.ne' (hzero so hso)
      simpa using (hslotwise first hmem).ne'

theorem mem_superordinates (hu : UniformLists queues)
    (hnode : (queues.locateQinstance node.qname node.hostname).isSome) {sup : QInstance} :
    sup ∈ superordinates queues node ↔
      queues.locateQinstance sup.qname node.hostname = some sup ∧
        Subordinates queues node.hostname sup.qname node.qname := by
  constructor
  · intro hsup
    obtain ⟨cqueue, hcqueue, hfilter⟩ := List.mem_filterMap.mp hsup
    obtain ⟨hlocate, hlists⟩ := Option.filter_eq_some_iff.mp hfilter
    have hname : sup.qname = cqueue.name :=
      cqueue.named sup (List.mem_of_find?_eq_some hlocate)
    have hfound : queues.locateQinstance sup.qname node.hostname = some sup :=
      locateQinstance_iff.mpr ⟨cqueue, hcqueue, hname.symm, hlocate⟩
    exact ⟨hfound, sup, hfound, (listsSlotwise_iff (hu _ _ _ hfound) _).mp hlists, hnode⟩
  · rintro ⟨hfound, qi, hlocate, hso, -⟩
    obtain rfl : sup = qi := Option.some.inj (hfound.symm.trans hlocate)
    obtain ⟨cqueue, hcqueue, -, hcq⟩ := locateQinstance_iff.mp hfound
    refine List.mem_filterMap.mpr ⟨cqueue, hcqueue, ?_⟩
    rw [hcq, Option.filter_some, (listsSlotwise_iff (hu _ _ _ hfound) _).mpr hso]
    rfl

/-! ## The walk up -/

theorem getSlotwiseSosTreeRoot_succ {fuel : ℕ} {root : Option QInstance}
    (h : getSlotwiseSosTreeRoot queues (fuel + 1) node = some root) :
    ((superordinates queues node).getLast? = none →
      root = if 0 < getSlotwiseSosThreshold node then some node else none) ∧
    ∀ sup, (superordinates queues node).getLast? = some sup →
      getSlotwiseSosTreeRoot queues fuel sup = some root := by
  unfold getSlotwiseSosTreeRoot at h
  refine foldlM_overwrite ?_ ?_ h
  · intro root cqueue _ hsel
    cases hlocate : cqueue.locateQinstance node.hostname with
    | none => rfl
    | some sup =>
      have hlists : sup.listsSlotwise node.qname = false := by
        rw [hlocate] at hsel
        simpa using hsel
      dsimp only
      rw [if_neg (by simp [hlists])]
  · intro root cqueue _ sup hsel
    obtain ⟨hlocate, hlists⟩ := Option.filter_eq_some_iff.mp hsel
    rw [hlocate]
    exact if_pos hlists

theorem TopOf.root {top : QInstance} (htop : TopOf queues node top) {fuel : ℕ}
    {root : Option QInstance} (h : getSlotwiseSosTreeRoot queues fuel node = some root) :
    root = if 0 < getSlotwiseSosThreshold top then some top else none := by
  induction htop generalizing fuel with
  | top hnone =>
    cases fuel with
    | zero => exact absurd h (by simp [getSlotwiseSosTreeRoot])
    | succ fuel =>
      exact (getSlotwiseSosTreeRoot_succ h).1 (by rw [hnone]; rfl)
  | up hlast _ ih =>
    cases fuel with
    | zero => exact absurd h (by simp [getSlotwiseSosTreeRoot])
    | succ fuel =>
      exact ih ((getSlotwiseSosTreeRoot_succ h).2 _ hlast)

theorem TopOf.located (hu : UniformLists queues) {top : QInstance} (htop : TopOf queues node top)
    (hnode : queues.locateQinstance node.qname node.hostname = some node) :
    top.hostname = node.hostname ∧
      queues.locateQinstance top.qname top.hostname = some top := by
  induction htop with
  | top _ => exact ⟨rfl, hnode⟩
  | up hlast _ ih =>
    have hsup := (mem_superordinates hu (by rw [hnode]; rfl)).mp (List.mem_of_getLast? hlast)
    have hhost := (locateQinstance_spec hsup.1).2
    rw [hhost] at ih
    exact ih hsup.1

/-! ## The walk down -/

section SubTree

variable {fuel depth : ℕ} {tree tree' : List SsosQinstance}

theorem getSlotwiseSosSubTreeQinstances_step {P : List SsosQinstance → Prop} {so : Subordinate}
    (hstop : P tree)
    (hdown : ∀ sub tree', 0 < so.slotsSum → queues.locateQinstance so.name qi.hostname = some sub →
      getSlotwiseSosSubTreeQinstances queues fuel sub
        (⟨so.seqNo, so.action, depth, sub, some qi⟩ :: tree) (depth + 1) = some tree' → P tree')
    (h : (if 0 < so.slotsSum then
      match queues.locateQinstance so.name qi.hostname with
      | none => some tree
      | some sub => getSlotwiseSosSubTreeQinstances queues fuel sub
          (⟨so.seqNo, so.action, depth, sub, some qi⟩ :: tree) (depth + 1)
      else some tree) = some tree') : P tree' := by
  split at h
  · rename_i hpos
    cases hsub : queues.locateQinstance so.name qi.hostname with
    | none =>
      rw [hsub] at h
      exact Option.some.inj h ▸ hstop
    | some sub =>
      rw [hsub] at h
      exact hdown sub tree' hpos hsub h
  · exact Option.some.inj h ▸ hstop

theorem subset_getSlotwiseSosSubTreeQinstances (hdepth : depth ≠ 0)
    (h : getSlotwiseSosSubTreeQinstances queues fuel qi tree depth = some tree') :
    tree ⊆ tree' := by
  induction fuel generalizing qi tree depth tree' with
  | zero => exact absurd h (by simp [getSlotwiseSosSubTreeQinstances])
  | succ fuel ih =>
    unfold getSlotwiseSosSubTreeQinstances at h
    rw [if_neg hdepth] at h
    refine foldlM_preserves (P := (tree ⊆ ·)) ?_ (List.Subset.refl tree) h
    intro t so _ t' hbody ht
    refine getSlotwiseSosSubTreeQinstances_step (P := (tree ⊆ ·)) ht ?_ hbody
    intro sub tree' _ _ hsub
    have hcons := ih (Nat.succ_ne_zero depth) hsub
    exact List.Subset.trans ht (List.Subset.trans (List.subset_cons_self _ _) hcons)

theorem mem_getSlotwiseSosSubTreeQinstances (hdepth : depth ≠ 0)
    (hqi : queues.locateQinstance qi.qname qi.hostname = some qi)
    (h : getSlotwiseSosSubTreeQinstances queues fuel qi tree depth = some tree') {p : String}
    (hpath : TransGen (Subordinates queues qi.hostname) qi.qname p) :
    ∃ ssos ∈ tree', ssos.qinstance.qname = p := by
  induction fuel generalizing qi tree depth tree' with
  | zero => exact absurd h (by simp [getSlotwiseSosSubTreeQinstances])
  | succ fuel ih =>
    unfold getSlotwiseSosSubTreeQinstances at h
    rw [if_neg hdepth] at h
    obtain ⟨q, ⟨qi', hqi', ⟨so, hso, rfl, hpos⟩, hexists⟩, hrest⟩ := TransGen.head'_iff.mp hpath
    obtain rfl : qi = qi' := Option.some.inj (hqi.symm.trans hqi')
    obtain ⟨sub, hsub⟩ := Option.isSome_iff_exists.mp hexists
    obtain ⟨hname, hhost⟩ := locateQinstance_spec hsub
    -- the path goes on from the subordinate of one entry; the other entries only add to the list
    refine foldlM_reaches (P := fun t => ∃ ssos ∈ t, ssos.qinstance.qname = p) hso ?_ ?_ h
    · intro t t' hbody
      rw [if_pos hpos, hsub] at hbody
      rcases reflTransGen_iff_eq_or_transGen.mp hrest with rfl | hrest
      · have hkeep := subset_getSlotwiseSosSubTreeQinstances (Nat.succ_ne_zero depth) hbody
        exact ⟨_, hkeep (.head _), hname⟩
      · refine ih (Nat.succ_ne_zero depth) ?_ hbody ?_
        · rw [hname, hhost]
          exact hsub
        · rw [hname, hhost]
          exact hrest
    · intro t so' _ t' hbody ht
      refine getSlotwiseSosSubTreeQinstances_step
        (P := fun t => ∃ ssos ∈ t, ssos.qinstance.qname = p) ht ?_ hbody
      intro sub tree' _ _ hdown
      obtain ⟨ssos, hmem, hp⟩ := ht
      have hkeep := subset_getSlotwiseSosSubTreeQinstances (Nat.succ_ne_zero depth) hdown
      exact ⟨ssos, hkeep (.tail _ hmem), hp⟩

def SsosQinstance.Below (queues : ClusterQueueList) (qi : QInstance) (ssos : SsosQinstance) : Prop :=
  0 < ssos.depth ∧ ssos.qinstance.hostname = qi.hostname ∧
    TransGen (Subordinates queues qi.hostname) qi.qname ssos.qinstance.qname

/-- What the walk adds to the list lies below the queue instance it starts from. -/
theorem below_of_mem_getSlotwiseSosSubTreeQinstances (hdepth : depth ≠ 0)
    (hqi : queues.locateQinstance qi.qname qi.hostname = some qi)
    (h : getSlotwiseSosSubTreeQinstances queues fuel qi tree depth = some tree')
    {ssos : SsosQinstance} (hmem : ssos ∈ tree') : ssos ∈ tree ∨ ssos.Below queues qi := by
  induction fuel generalizing qi tree depth tree' ssos with
  | zero => exact absurd h (by simp [getSlotwiseSosSubTreeQinstances])
  | succ fuel ih =>
    unfold getSlotwiseSosSubTreeQinstances at h
    rw [if_neg hdepth] at h
    refine foldlM_preserves (P := fun t => ∀ ssos ∈ t, ssos ∈ tree ∨ ssos.Below queues qi)
      ?_ (fun _ hold => .inl hold) h ssos hmem
    intro t so hso t' hbody ht
    refine getSlotwiseSosSubTreeQinstances_step
      (P := fun t => ∀ ssos ∈ t, ssos ∈ tree ∨ ssos.Below queues qi) ht ?_ hbody
    intro sub tree' hpos hsub hdown found hfound
    obtain ⟨hname, hhost⟩ := locateQinstance_spec hsub
    have hedge : Subordinates queues qi.hostname qi.qname sub.qname :=
      ⟨qi, hqi, ⟨so, hso, hname.symm, hpos⟩, by rw [hname, hsub]; rfl⟩
    -- found further down, the subordinate itself, or found before
    rcases ih (Nat.succ_ne_zero depth) (by rw [hname, hhost]; exact hsub) hdown hfound with
      hold | ⟨hdeep, hsame, hpath⟩
    · rcases List.mem_cons.mp hold with rfl | hold
      · exact .inr ⟨Nat.pos_of_ne_zero hdepth, hhost, .single hedge⟩
      · exact ht found hold
    · rw [hhost] at hsame hpath
      exact .inr ⟨hdeep, hsame, .head hedge hpath⟩

variable (hqi : queues.locateQinstance qi.qname qi.hostname = some qi)
  (h : getSlotwiseSosSubTreeQinstances queues fuel qi [] 0 = some tree)
include h

theorem getSlotwiseSosSubTreeQinstances_root : ∃ fuel,
    getSlotwiseSosSubTreeQinstances queues fuel qi [⟨0, 0, 0, qi, none⟩] 1 = some tree := by
  cases fuel with
  | zero => exact absurd h (by simp [getSlotwiseSosSubTreeQinstances])
  | succ fuel =>
    refine ⟨fuel + 1, ?_⟩
    unfold getSlotwiseSosSubTreeQinstances at h ⊢
    exact h

include hqi

/-- The tree under a root has the root and everything below it. -/
theorem mem_slotwiseSosTree {p : String}
    (hpath : ReflTransGen (Subordinates queues qi.hostname) qi.qname p) :
    ∃ ssos ∈ tree, ssos.qinstance.qname = p := by
  obtain ⟨fuel, hroot⟩ := getSlotwiseSosSubTreeQinstances_root h
  rcases reflTransGen_iff_eq_or_transGen.mp hpath with rfl | hpath
  · have hkeep := subset_getSlotwiseSosSubTreeQinstances Nat.one_ne_zero hroot
    exact ⟨_, hkeep (List.mem_singleton.mpr rfl), rfl⟩
  · exact mem_getSlotwiseSosSubTreeQinstances Nat.one_ne_zero hqi hroot hpath

theorem below_of_mem_slotwiseSosTree {ssos : SsosQinstance} (hmem : ssos ∈ tree) :
    ssos = ⟨0, 0, 0, qi, none⟩ ∨ ssos.Below queues qi := by
  obtain ⟨fuel, hroot⟩ := getSlotwiseSosSubTreeQinstances_root h
  exact (below_of_mem_getSlotwiseSosSubTreeQinstances Nat.one_ne_zero hqi hroot hmem).imp_left
    List.mem_singleton.mp

end SubTree

/-! ## Both walks come back -/

section Termination

theorem finite_names (queues : ClusterQueueList) :
    {q | ∃ host, (queues.locateQinstance q host).isSome}.Finite := by
  refine (queues.cqueues.map ClusterQueue.name).finite_toSet.subset ?_
  rintro q ⟨host, hq⟩
  obtain ⟨qi, hlocate⟩ := Option.isSome_iff_exists.mp hq
  obtain ⟨cqueue, hmem, rfl, -⟩ := locateQinstance_iff.mp hlocate
  exact List.mem_map_of_mem hmem

theorem finite_subordinates (queues : ClusterQueueList) (host : String) :
    {p | ∃ q, Subordinates queues host q p}.Finite :=
  (finite_names queues).subset fun _ ⟨_, _, _, _, hexists⟩ => ⟨host, hexists⟩

theorem finite_superordinates (queues : ClusterQueueList) (host : String) :
    {q | ∃ p, Function.swap (Subordinates queues host) p q}.Finite :=
  (finite_names queues).subset fun _ ⟨_, _, hlocate, _, _⟩ => ⟨host, by rw [hlocate]; rfl⟩

theorem getSlotwiseSosSubTreeQinstances_returns (hacyclic : Acyclic (Subordinates queues host))
    (n : ℕ) {qi : QInstance} (hqi : queues.locateQinstance qi.qname host = some qi)
    (hn : height (Subordinates queues host) qi.qname < n) (tree : List SsosQinstance) (depth : ℕ) :
    ∃ tree', getSlotwiseSosSubTreeQinstances queues n qi tree depth = some tree' := by
  induction n generalizing qi tree depth with
  | zero => exact absurd hn (Nat.not_lt_zero _)
  | succ n ih =>
    have hhost : qi.hostname = host := (locateQinstance_spec hqi).2
    unfold getSlotwiseSosSubTreeQinstances
    refine foldlM_total (fun t so hso => ?_) _
    split
    · rename_i hpos
      cases hsub : queues.locateQinstance so.name qi.hostname with
      | none => exact ⟨t, rfl⟩
      | some sub =>
        rw [hhost] at hsub
        have hname : sub.qname = so.name := (locateQinstance_spec hsub).1
        have hedge : Subordinates queues host qi.qname sub.qname :=
          ⟨qi, hqi, ⟨so, hso, hname.symm, hpos⟩, by rw [hname, hsub]; rfl⟩
        have hlt := height_lt hacyclic (finite_subordinates queues host) hedge
        exact ih (by rw [hname]; exact hsub) (by omega) _ _
    · exact ⟨t, rfl⟩

theorem getSlotwiseSosTreeRoot_returns (hu : UniformLists queues)
    (hacyclic : Acyclic (Subordinates queues host)) (n : ℕ) {qi : QInstance}
    (hqi : queues.locateQinstance qi.qname host = some qi)
    (hn : height (Function.swap (Subordinates queues host)) qi.qname < n) :
    ∃ root, getSlotwiseSosTreeRoot queues n qi = some root := by
  induction n generalizing qi with
  | zero => exact absurd hn (Nat.not_lt_zero _)
  | succ n ih =>
    have hhost : qi.hostname = host := (locateQinstance_spec hqi).2
    unfold getSlotwiseSosTreeRoot
    refine foldlM_total (fun root cqueue hcqueue => ?_) _
    cases hsup : cqueue.locateQinstance qi.hostname with
    | none => exact ⟨root, rfl⟩
    | some sup =>
      dsimp only
      split
      · rename_i hlists
        have hmem : sup ∈ superordinates queues qi :=
          List.mem_filterMap.mpr ⟨cqueue, hcqueue, by rw [hsup, Option.filter_some, hlists]; rfl⟩
        obtain ⟨hlocate, hedge⟩ := (mem_superordinates hu (by rw [hhost, hqi]; rfl)).mp hmem
        rw [hhost] at hlocate hedge
        have hlt := height_lt hacyclic.swap (finite_superordinates queues host) hedge
        exact ih hlocate (by omega)
      · exact ⟨root, rfl⟩

end Termination

/-! ## A change of a list -/

section Change

variable {qname : String} {list : List Subordinate}

theorem mem_lDiffListStr {old : List Subordinate} {so : Subordinate} (hso : so ∈ list)
    (hnew : ∀ o ∈ old, o.name ≠ so.name) : so ∈ (lDiffListStr old list).2 := by
  refine List.foldlRecOn (motive := fun lists : List Subordinate × List Subordinate =>
    so ∈ lists.2) old _ hso ?_
  intro lists hmem o ho
  split
  · refine (List.mem_eraseP_of_neg ?_).mpr hmem
    simpa using (hnew o ho).symm
  · exact hmem

/-- A list that passes the test names no queue of the tree that it did not name before. -/
theorem not_below_of_validConfig {fuel : ℕ} (hu : UniformLists queues)
    (hqi : queues.locateQinstance qi.qname qi.hostname = some qi)
    (hvalid : validConfig queues fuel qi list = some true) {so : Subordinate} (hso : so ∈ list)
    (hnew : ∀ old ∈ qi.subordinateList, old.name ≠ so.name) {top : QInstance}
    (htop : TopOf queues qi top) {p : String}
    (hedge : Subordinates queues qi.hostname top.qname p) :
    ¬ ReflTransGen (Subordinates queues qi.hostname) top.qname so.name := by
  intro hbelow
  obtain ⟨hhost, hlocate⟩ := htop.located hu hqi
  unfold validConfig checkNewSlotwiseSubordinateTree at hvalid
  obtain ⟨root, hroot, hcheck⟩ := Option.bind_eq_some_iff.mp hvalid
  have hpos : 0 < getSlotwiseSosThreshold top := by
    obtain ⟨top', htop', ⟨so', hso', -, hslots⟩, -⟩ := hedge
    rw [← hhost, hlocate] at htop'
    obtain rfl : top = top' := Option.some.inj htop'
    exact getSlotwiseSosThreshold_pos (hu _ _ _ hlocate) hso' hslots
  rw [htop.root hroot, if_pos hpos] at hcheck
  dsimp only at hcheck
  rw [if_pos hpos] at hcheck
  obtain ⟨tree, htree, hall⟩ := Option.map_eq_some_iff.mp hcheck
  rw [← hhost] at hbelow
  obtain ⟨ssos, hmem, hname⟩ := mem_slotwiseSosTree hlocate htree hbelow
  have hnone := List.all_eq_true.mp hall so (mem_lDiffListStr hso hnew)
  rw [Bool.not_eq_true', List.any_eq_false] at hnone
  exact hnone ssos hmem (by simpa using hname)

theorem subordinates_setSubordinateList
    (hqi : queues.locateQinstance qname host = some qi) (host' sup sub : String) :
    Subordinates (queues.setSubordinateList qname host list) host' sup sub ↔
      if sup = qname ∧ host' = host then
        (∃ so ∈ list, so.name = sub ∧ 0 < so.slotsSum) ∧
          (queues.locateQinstance sub host').isSome
      else Subordinates queues host' sup sub := by
  unfold Subordinates
  simp only [locateQinstance_setSubordinateList, Option.isSome_map, Option.map_eq_some_iff]
  split
  · rename_i heq
    obtain ⟨rfl, rfl⟩ := heq
    constructor
    · rintro ⟨_, ⟨old, _, rfl⟩, hso, hexists⟩
      exact ⟨by simpa using hso, hexists⟩
    · rintro ⟨hso, hexists⟩
      exact ⟨_, ⟨qi, hqi, rfl⟩, by simpa using hso, hexists⟩
  · constructor
    · rintro ⟨_, ⟨old, hold, rfl⟩, hrest⟩
      exact ⟨old, hold, hrest⟩
    · rintro ⟨old, hold, hrest⟩
      exact ⟨old, ⟨old, hold, rfl⟩, hrest⟩

theorem UniformLists.setSubordinateList (hu : UniformLists queues) (hlist : Uniform list) :
    UniformLists (queues.setSubordinateList qname host list) := by
  intro qname' host' qi hlocate
  rw [locateQinstance_setSubordinateList] at hlocate
  obtain ⟨old, hold, rfl⟩ := Option.map_eq_some_iff.mp hlocate
  split
  · exact hlist
  · exact hu _ _ _ hold

/-- **A list that passes the test closes no loop if and only if all loops are in sight.** -/
theorem acyclic_setSubordinateList_iff {fuel : ℕ} (hu : UniformLists queues)
    (hacyclic : ∀ host, Acyclic (Subordinates queues host))
    (hqi : queues.locateQinstance qname host = some qi) (hself : ∀ so ∈ list, so.name ≠ qname)
    (hvalid : validConfig queues fuel qi list = some true) :
    (∀ host', Acyclic (Subordinates (queues.setSubordinateList qname host list) host')) ↔
      LoopsInSight queues qi list := by
  obtain ⟨rfl, rfl⟩ := locateQinstance_spec hqi
  constructor
  · -- a queue above that the list names closes a loop, in sight or not
    intro hafter so hso hpos habove
    refine absurd ?_ (hafter qi.hostname qi.qname)
    have hexists : (queues.locateQinstance so.name qi.hostname).isSome := by
      have hloop := (reflTransGen_iff_eq_or_transGen.mp habove).resolve_left (hself so hso).symm
      obtain ⟨-, ⟨sup, hsup, -, -⟩, -⟩ := TransGen.head'_iff.mp hloop
      rw [hsup]
      rfl
    refine TransGen.head' (b := so.name) ?_ ((hacyclic qi.hostname).path_to ?_ habove)
    · rw [subordinates_setSubordinateList hqi, if_pos ⟨rfl, rfl⟩]
      exact ⟨⟨so, hso, rfl, hpos⟩, hexists⟩
    · intro a b ha hab
      rw [subordinates_setSubordinateList hqi, if_neg (fun h => ha h.1)]
      exact hab
  · intro hsight host'
    refine (hacyclic host').redirect (v := qi.qname)
      (T := fun p => host' = qi.hostname ∧ ∃ so ∈ list, so.name = p ∧ 0 < so.slotsSum) ?_ ?_
    · intro a b hab
      rw [subordinates_setSubordinateList hqi] at hab
      split at hab
      · rename_i heq
        exact .inr ⟨heq.1, heq.2, hab.1⟩
      · exact .inl hab
    · rintro p ⟨rfl, so, hso, rfl, hpos⟩ hpath
      obtain ⟨hnew, top, htop, hbelow⟩ := hsight so hso hpos hpath
      have hloop := (reflTransGen_iff_eq_or_transGen.mp hpath).resolve_left (hself so hso).symm
      obtain ⟨p, hedge, -⟩ := TransGen.head'_iff.mp (hloop.trans_right hbelow)
      exact not_below_of_validConfig hu hqi hvalid hso hnew htop hedge hbelow

end Change

/-! ## Runs -/

/-- What changes whose loops are in sight keep. -/
structure SubordinateInv (queues : ClusterQueueList) : Prop where
  uniform : UniformLists queues
  acyclic : ∀ host, Acyclic (Subordinates queues host)

variable (hempty : ∀ cqueue ∈ queues.cqueues, ∀ qi ∈ cqueue.qinstances, qi.subordinateList = [])
include hempty

theorem subordinateList_eq_nil {qname : String}
    (hlocate : queues.locateQinstance qname host = some qi) : qi.subordinateList = [] := by
  obtain ⟨cqueue, hmem, -, hfind⟩ := locateQinstance_iff.mp hlocate
  exact hempty cqueue hmem qi (List.mem_of_find?_eq_some hfind)

theorem not_subordinates_of_empty
    (sup sub : String) : ¬ Subordinates queues host sup sub := by
  rintro ⟨qi, hlocate, ⟨so, hso, -⟩, -⟩
  rw [subordinateList_eq_nil hempty hlocate] at hso
  exact List.not_mem_nil hso

omit hempty

theorem SubordinateRun.inv (hrun : SubordinateRun LoopsInSight queues) : SubordinateInv queues := by
  induction hrun with
  | start hempty =>
    constructor
    · intro qname host qi hlocate
      rw [subordinateList_eq_nil hempty hlocate]
      exact .inl fun so hso => absurd hso List.not_mem_nil
    · intro host q hpath
      obtain ⟨_, hedge, -⟩ := TransGen.head'_iff.mp hpath
      exact not_subordinates_of_empty hempty _ _ hedge
  | change _ _ _ hlocate huniform hself hvalid hsight ih =>
    constructor
    · exact ih.uniform.setSubordinateList huniform
    · exact (acyclic_setSubordinateList_iff ih.uniform ih.acyclic hlocate hself hvalid).mpr hsight

/-- **The graph of every host stays acyclic as long as the loops of the changes are in sight**,
and both walks come back from every queue instance. -/
theorem acyclic_run (hrun : SubordinateRun LoopsInSight queues) (host : String) :
    Acyclic (Subordinates queues host) ∧
    ∀ qi, queues.locateQinstance qi.qname host = some qi →
      (∃ fuel root, getSlotwiseSosTreeRoot queues fuel qi = some root) ∧
      ∃ fuel tree, getSlotwiseSosSubTreeQinstances queues fuel qi [] 0 = some tree := by
  have hacyclic := hrun.inv.acyclic host
  refine ⟨hacyclic, fun qi hqi => ⟨?_, ?_⟩⟩
  · exact ⟨_, getSlotwiseSosTreeRoot_returns hrun.inv.uniform hacyclic _ hqi (Nat.lt_succ_self _)⟩
  · exact ⟨_, getSlotwiseSosSubTreeQinstances_returns hacyclic _ hqi (Nat.lt_succ_self _) [] 0⟩

def twoClusterQueues : ClusterQueueList where
  cqueues :=
    [⟨"low", [⟨"low", "host", []⟩], by decide⟩, ⟨"high", [⟨"high", "host", []⟩], by decide⟩]
  unique := by decide

def oneSubordinate (qname : String) (slotsSum : ℕ) : List Subordinate :=
  [⟨qname, 0, slotsSum, 0, 0⟩]

theorem acyclic_run_twoClusterQueues :
    Acyclic (Subordinates
      (twoClusterQueues.setSubordinateList "high" "host" (oneSubordinate "low" 4)) "host") := by
  have hempty : ∀ cqueue ∈ twoClusterQueues.cqueues, ∀ qi ∈ cqueue.qinstances,
      qi.subordinateList = [] := by decide
  refine (acyclic_run (.change ⟨"high", "host", []⟩ 1 (.start hempty) (by decide)
    (.inr (by decide)) (by decide) (by decide +kernel) ?_) "host").1
  intro so hso _ habove
  obtain rfl : so = ⟨"low", 0, 4, 0, 0⟩ := List.mem_singleton.mp hso
  rcases ReflTransGen.cases_head habove with heq | ⟨_, hedge, -⟩
  · exact absurd heq (by decide)
  · exact absurd hedge (not_subordinates_of_empty hempty _ _)

/-- A queue-wise subordinate stays when the list is made a slot-wise one, and nothing is tested. -/
theorem not_acyclic_run :
    ¬ ∀ (queues : ClusterQueueList) (host : String),
      SubordinateRun (fun _ _ _ => True) queues → Acyclic (Subordinates queues host) := by
  intro h
  have hrun : SubordinateRun (fun _ _ _ => True)
      (((twoClusterQueues.setSubordinateList "high" "host" (oneSubordinate "low" 0)
        ).setSubordinateList "low" "host" (oneSubordinate "high" 4)
        ).setSubordinateList "high" "host" (oneSubordinate "low" 4)) := by
    refine .change ⟨"high", "host", oneSubordinate "low" 0⟩ 3 (.change ⟨"low", "host", []⟩ 3
      (.change ⟨"high", "host", []⟩ 3 (.start ?_) ?_ ?_ ?_ ?_ trivial)
      ?_ ?_ ?_ ?_ trivial) ?_ ?_ ?_ ?_ trivial
    all_goals first | decide +kernel | exact .inl (by decide) | exact .inr (by decide)
  refine h _ "host" hrun "low" (.head (b := "high") ?_ (.single ?_))
  · exact ⟨⟨"low", "host", oneSubordinate "high" 4⟩, by decide +kernel,
      ⟨_, List.mem_singleton.mpr rfl, rfl, by decide⟩, by decide +kernel⟩
  · exact ⟨⟨"high", "host", oneSubordinate "low" 4⟩, by decide +kernel,
      ⟨_, List.mem_singleton.mpr rfl, rfl, by decide⟩, by decide +kernel⟩

end ClusterScheduler.Qmaster
