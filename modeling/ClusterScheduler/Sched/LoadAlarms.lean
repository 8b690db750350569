import ClusterScheduler.Foundation.GroupedList
import ClusterScheduler.Foundation.PartialFold
import ClusterScheduler.Consumables.Usage

/-!
# The load list

A queue can have consumables as load thresholds, and a booking of the scheduler can then put the
queue into alarm state. The scheduler groups the queues by the consumables they share and by the
limit, so that one queue can stand for its group. A queue that leaves is taken out of the list.

* `sgeLoadAlarm` — is a queue in alarm state?
* `sgeCreateLoadList`, `sgeRemoveQueueFromLoadList`, `sgeLoadListAlarm` — the list.
* `sgeCreateLoadList_eq` — the list that is built, if there is no error.
* `mem_sgeLoadListAlarm` — the first queue of a group decides for all of it.
* `loadListExact_iff` — when the list refers to the queues that are left and tags those in alarm
  state.
-/

namespace ClusterScheduler.Sched.LoadAlarms

open Foundation Consumables

/-! ## Data -/

/-- An entry of `QU_load_thresholds`. -/
structure Threshold where
  name : String
  limit : String
  deriving DecidableEq

structure ConfigValue where
  name : String
  stringval : String
  doubleval : ℚ
  deriving DecidableEq

/-- A reference to a queue instance is its address. -/
structure Queue where
  address : ℕ
  qhostname : String
  loadThresholds : Option (List Threshold)
  consumableConfigList : List ConfigValue
  resourceUtilization : List Usage

structure QueueList where
  queues : List Queue
  distinct : (queues.map Queue.address).Nodup

/-- An execution host or the global host; `loadList` has names and values. -/
structure Host where
  name : String
  loadList : List (String × String)
  consumableConfigList : List ConfigValue
  resourceUtilization : List Usage

/-- The host list and the complex configuration. -/
structure Cluster where
  hosts : List Host
  centries : List CEntry

/-- How values are read. `attributeByName` is `get_attribute_by_name()`, what the global host, the
host and the queue offer now, as `CE_pj_stringval`. The results hold for every reader. -/
structure ValueReader where
  parseUlongVal : ValType → Option String → Option ℚ
  stringBaseCmp : ValType → String → Option String → ℤ
  attributeByName : Option Host → Host → Queue → String → Option (Option String)

/-! ## Functions of the source -/

def sgeGlobalName : String := "global"

def hostListLocate (cluster : Cluster) (name : String) : Option Host :=
  cluster.hosts.find? (·.name = name)

/-- That of the thresholds, where nothing exceeds the limit of an exclusive consumable. -/
def resourceCmp (relop : RelOp) (req src : ℚ) : Bool :=
  match relop with
  | .eq => req = src
  | .le => req ≤ src
  | .lt => req < src
  | .gt => src < req
  | .ge => src ≤ req
  | .ne => req ≠ src
  | .excl => false

/-- Without load adjustments. A value that is no number is an alarm. -/
def loadCheckAlarm (reader : ValueReader) (entry : CEntry) (loadValue : Option String)
    (limitValue : String) : Bool :=
  match entry.valtype with
  | .rsmap | .int | .time | .mem | .bool | .double =>
    match reader.parseUlongVal entry.valtype loadValue with
    | none => true
    | some load =>
      match reader.parseUlongVal entry.valtype (some limitValue) with
      | none => true
      | some limit => resourceCmp entry.relop load limit
  | .str | .cstr | .host | .restr => reader.stringBaseCmp entry.valtype limitValue loadValue = 0

/-- The value a threshold is compared with. The load value of the host goes before that of the
global host, and this before the configured value. -/
def loadValueOf (reader : ValueReader) (global : Option Host) (host : Host) (queue : Queue)
    (entry : CEntry) (name : String) : Option (Option String) :=
  if entry.consumable = .no then
    match host.loadList.find? (·.1 = name) with
    | some load => some (some load.2)
    | none =>
      match global.bind fun global => global.loadList.find? (·.1 = name) with
      | some load => some (some load.2)
      | none => (queue.consumableConfigList.find? (·.name = name)).map fun config =>
        some config.stringval
  else reader.attributeByName global host queue name

/-- `sge_load_alarm()` as the load list calls it: no load adjustments, and consumables count. -/
def sgeLoadAlarm (reader : ValueReader) (cluster : Cluster) (queue : Queue)
    (threshold : Option (List Threshold)) : Bool :=
  match threshold with
  | none => false
  | some threshold =>
    match hostListLocate cluster queue.qhostname with
    | none => true
    | some host => threshold.any fun tep =>
      match centryListLocate cluster.centries tep.name with
      | none => true
      | some entry =>
        match loadValueOf reader (hostListLocate cluster sgeGlobalName) host queue entry
          tep.name with
        | none => true
        | some loadValue => loadCheckAlarm reader entry loadValue tep.limit

/-- What identifies a group: three elements, each with its owner and its name, and the limit. -/
structure LoadKey where
  globalConsumable : Option String
  hostConsumable : Option (String × String)
  queueConsumable : Option (ℕ × String)
  limit : String
  deriving DecidableEq

/-- The groups refer to queues. No list is an empty one. -/
abbrev LoadList := GroupedList LoadKey ℕ

def locateConsumable (utilization : List Usage) (name : String) : Option String :=
  if utilization.any (·.name = name) then some name else none

def loadKey (global host : Host) (queue : Queue) (tep : Threshold) : LoadKey where
  globalConsumable := locateConsumable global.resourceUtilization tep.name
  hostConsumable := (locateConsumable host.resourceUtilization tep.name).map (host.name, ·)
  queueConsumable := (locateConsumable queue.resourceUtilization tep.name).map (queue.address, ·)
  limit := tep.limit

/-- One threshold of one queue; `none` is the way to `error`. -/
def addThreshold (cluster : Cluster) (global : Host) (queue : Queue) (list : LoadList)
    (tep : Threshold) : Option LoadList :=
  match centryListLocate cluster.centries tep.name with
  | none => none
  | some entry =>
    if entry.consumable = .no then some list
    else
      match hostListLocate cluster queue.qhostname with
      | none => none
      | some host => some (list.add (loadKey global host queue tep) queue.address)

def addQueue (cluster : Cluster) (global : Host) (list : LoadList) (queue : Queue) :
    Option LoadList :=
  (queue.loadThresholds.getD []).foldlM (addThreshold cluster global queue) list

/-- An error leaves no list. -/
def sgeCreateLoadList (cluster : Cluster) (queues : QueueList) : LoadList :=
  match hostListLocate cluster sgeGlobalName with
  | none => GroupedList.empty
  | some global =>
    (queues.queues.foldlM (addQueue cluster global) GroupedList.empty).getD GroupedList.empty

/-- Removes the first reference to a queue, from the first group that has one. -/
def removeQueues : LoadList → List ℕ → LoadList
  | list, [] => list
  | list, queue :: queues =>
    let list := list.remove queue
    if list.groups.isEmpty then GroupedList.empty else removeQueues list queues

def sgeRemoveQueueFromLoadList (list : LoadList) (queues : List ℕ) : LoadList :=
  if list.groups.isEmpty then list else removeQueues list queues

/-- The loop through a group. Nothing more is looked at after a queue that is not in alarm. -/
def tagGroup (alarm : ℕ → Bool) : Bool → List ℕ → List ℕ
  | _, [] => []
  | isCategoryAlarm, queue :: queues =>
    if isCategoryAlarm then queue :: tagGroup alarm true queues
    else if alarm queue then queue :: tagGroup alarm true queues
    else []

/-- The queues that are tagged, and whether there are any. `queueAt` reads a reference. -/
def sgeLoadListAlarm (reader : ValueReader) (cluster : Cluster) (queueAt : ℕ → Queue)
    (list : LoadList) : List ℕ × Bool :=
  let alarm (queue : ℕ) : Bool :=
    sgeLoadAlarm reader cluster (queueAt queue) (queueAt queue).loadThresholds
  let tagged := list.groups.flatMap fun group => tagGroup alarm false group.members
  (tagged, !tagged.isEmpty)

/-! ## The list that is built -/

def Threshold.isConsumable (cluster : Cluster) (tep : Threshold) : Bool :=
  (centryListLocate cluster.centries tep.name).any fun entry => entry.consumable ≠ .no

def consumableThresholds (cluster : Cluster) (queue : Queue) : List Threshold :=
  (queue.loadThresholds.getD []).filter (·.isConsumable cluster)

def thresholdOk (cluster : Cluster) (queue : Queue) (tep : Threshold) : Bool :=
  (centryListLocate cluster.centries tep.name).any fun entry =>
    entry.consumable = .no || (hostListLocate cluster queue.qhostname).isSome

def NoError (cluster : Cluster) (queues : QueueList) : Prop :=
  (hostListLocate cluster sgeGlobalName).isSome ∧
    ∀ queue ∈ queues.queues, ∀ tep ∈ queue.loadThresholds.getD [], thresholdOk cluster queue tep

/-- The references of a queue, one for each consumable threshold. -/
def queueRefs (cluster : Cluster) (queue : Queue) : List (LoadKey × ℕ) :=
  match hostListLocate cluster sgeGlobalName, hostListLocate cluster queue.qhostname with
  | some global, some host =>
    (consumableThresholds cluster queue).map fun tep =>
      (loadKey global host queue tep, queue.address)
  | _, _ => []

def loadRefs (cluster : Cluster) (queues : QueueList) : List (LoadKey × ℕ) :=
  queues.queues.flatMap (queueRefs cluster)

section Create

variable {cluster : Cluster} {global : Host}

theorem addThreshold_eq (queue : Queue) (list : LoadList) (tep : Threshold) :
    addThreshold cluster global queue list tep =
      if thresholdOk cluster queue tep then
        some (list.addAll (if tep.isConsumable cluster then
          (hostListLocate cluster queue.qhostname).toList.map fun host =>
            (loadKey global host queue tep, queue.address) else []))
      else none := by
  unfold addThreshold thresholdOk Threshold.isConsumable
  cases centryListLocate cluster.centries tep.name with
  | none => rfl
  | some entry =>
    by_cases hno : entry.consumable = .no
    · simp [hno, GroupedList.addAll]
    · cases hostListLocate cluster queue.qhostname with
      | none => simp [hno]
      | some host => simp [hno, GroupedList.addAll]

/-- The references that the loop through a queue adds are those of the queue. -/
theorem queueRefs_eq (hglobal : hostListLocate cluster sgeGlobalName = some global)
    (queue : Queue) : queueRefs cluster queue =
      (queue.loadThresholds.getD []).flatMap fun tep =>
        if tep.isConsumable cluster then
          (hostListLocate cluster queue.qhostname).toList.map fun host =>
            (loadKey global host queue tep, queue.address) else [] := by
  unfold queueRefs consumableThresholds
  rw [hglobal]
  cases hostListLocate cluster queue.qhostname with
  | none =>
    refine (List.flatMap_eq_nil_iff.mpr fun tep _ => ?_).symm
    split <;> rfl
  | some host =>
    dsimp only [Option.toList_some, List.map_cons, List.map_nil]
    induction queue.loadThresholds.getD [] with
    | nil => rfl
    | cons tep teps ih =>
      rw [List.filter_cons, List.flatMap_cons, ← ih]
      split
      · rfl
      · rfl

theorem addAll_append (list : LoadList) (refs refs' : List (LoadKey × ℕ)) :
    list.addAll (refs ++ refs') = (list.addAll refs).addAll refs' :=
  List.foldl_append

theorem foldl_addAll {α : Type*} (refs : α → List (LoadKey × ℕ)) (l : List α) (list : LoadList) :
    l.foldl (fun list a => list.addAll (refs a)) list = list.addAll (l.flatMap refs) := by
  induction l generalizing list with
  | nil => rfl
  | cons a l ih => rw [List.foldl_cons, ih, List.flatMap_cons, addAll_append]

/-- Without an error the list has all references, and with one it has none. -/
theorem sgeCreateLoadList_eq (cluster : Cluster) (queues : QueueList) :
    (NoError cluster queues →
      sgeCreateLoadList cluster queues = GroupedList.empty.addAll (loadRefs cluster queues)) ∧
    (¬ NoError cluster queues → sgeCreateLoadList cluster queues = GroupedList.empty) := by
  unfold sgeCreateLoadList NoError
  cases hglobal : hostListLocate cluster sgeGlobalName with
  | none => exact ⟨fun h => absurd h.1 (by simp), fun _ => rfl⟩
  | some global =>
    have hqueue : ∀ (list : LoadList) (queue : Queue),
        addQueue cluster global list queue =
          if (queue.loadThresholds.getD []).all (thresholdOk cluster queue) then
            some (list.addAll (queueRefs cluster queue)) else none := by
      intro list queue
      rw [addQueue, foldlM_all (addThreshold_eq queue), foldl_addAll, queueRefs_eq hglobal]
    dsimp only
    rw [foldlM_all hqueue, foldl_addAll, ← loadRefs]
    constructor
    · rintro ⟨-, hok⟩
      rw [if_pos (List.all_eq_true.mpr fun queue hqueue =>
        List.all_eq_true.mpr (hok queue hqueue))]
      rfl
    · intro herror
      rw [if_neg fun hall => herror ⟨rfl, fun queue hqueue =>
        List.all_eq_true.mp (List.all_eq_true.mp hall queue hqueue)⟩]
      rfl

end Create

/-! ## Removals -/

variable {list : LoadList}

theorem eq_empty (h : list.groups.isEmpty) : list = GroupedList.empty := by
  obtain ⟨groups, hnodup⟩ := list
  obtain rfl : groups = [] := List.isEmpty_iff.mp h
  rfl

theorem removeAll_empty (queues : List ℕ) :
    (GroupedList.empty : LoadList).removeAll queues = GroupedList.empty := by
  induction queues with
  | nil => rfl
  | cons queue queues ih => exact ih

/-- The way out when the list has become empty changes nothing. -/
theorem removeQueues_eq (list : LoadList) (queues : List ℕ) :
    removeQueues list queues = list.removeAll queues := by
  induction queues generalizing list with
  | nil => rfl
  | cons queue queues ih =>
    unfold removeQueues
    rw [GroupedList.removeAll, List.foldl_cons, ← GroupedList.removeAll]
    dsimp only
    split
    · rename_i hempty
      rw [eq_empty hempty, removeAll_empty]
    · exact ih _

theorem sgeRemoveQueueFromLoadList_eq (list : LoadList) (queues : List ℕ) :
    sgeRemoveQueueFromLoadList list queues = list.removeAll queues := by
  unfold sgeRemoveQueueFromLoadList
  split
  · rename_i hempty
    rw [eq_empty hempty, removeAll_empty]
  · exact removeQueues_eq list queues

theorem foldl_sgeRemoveQueueFromLoadList (list : LoadList) (removed : List (List ℕ)) :
    removed.foldl sgeRemoveQueueFromLoadList list = list.removeAll removed.flatten := by
  induction removed generalizing list with
  | nil => rfl
  | cons queues removed ih =>
    rw [List.foldl_cons, ih, sgeRemoveQueueFromLoadList_eq, List.flatten_cons,
      GroupedList.removeAll, GroupedList.removeAll, GroupedList.removeAll, List.foldl_append]

/-! ## The first queue of a group decides -/

theorem tagGroup_true (alarm : ℕ → Bool) (queues : List ℕ) :
    tagGroup alarm true queues = queues := by
  induction queues with
  | nil => rfl
  | cons queue queues ih => rw [tagGroup, if_pos rfl, ih]

variable {queue : ℕ}

theorem mem_tagGroup {alarm : ℕ → Bool} {queues : List ℕ} :
    queue ∈ tagGroup alarm false queues ↔
      queue ∈ queues ∧ ∃ first, queues.head? = some first ∧ alarm first := by
  cases queues with
  | nil => simp [tagGroup]
  | cons first queues =>
    rw [tagGroup, tagGroup_true, if_neg Bool.false_ne_true]
    cases halarm : alarm first <;> simp [halarm]

def alarmOf (reader : ValueReader) (cluster : Cluster) (queueAt : ℕ → Queue) (queue : ℕ) : Bool :=
  sgeLoadAlarm reader cluster (queueAt queue) (queueAt queue).loadThresholds

theorem mem_sgeLoadListAlarm {reader : ValueReader} {cluster : Cluster} {queueAt : ℕ → Queue} :
    queue ∈ (sgeLoadListAlarm reader cluster queueAt list).1 ↔ ∃ key, queue ∈ list.members key ∧
      ∃ first, (list.members key).head? = some first ∧ alarmOf reader cluster queueAt first := by
  have htagged : queue ∈ (sgeLoadListAlarm reader cluster queueAt list).1 ↔
      ∃ group ∈ list.groups, queue ∈ tagGroup (alarmOf reader cluster queueAt) false
        group.members :=
    List.mem_flatMap
  rw [htagged]
  constructor
  · rintro ⟨group, hgroup, hqueue⟩
    obtain ⟨hmem, hfirst⟩ := mem_tagGroup.mp hqueue
    rw [← list.members_key hgroup] at hmem hfirst
    exact ⟨group.key, hmem, hfirst⟩
  · rintro ⟨key, hmem, hfirst⟩
    obtain ⟨group, hgroup, -, hmembers⟩ := list.exists_group_of_mem hmem
    rw [hmembers] at hmem hfirst
    exact ⟨group, hgroup, mem_tagGroup.mpr ⟨hmem, hfirst⟩⟩

/-! ## An exact list -/

def loadListAfter (cluster : Cluster) (queues : QueueList) (removed : List (List ℕ)) : LoadList :=
  removed.foldl sgeRemoveQueueFromLoadList (sgeCreateLoadList cluster queues)

/-- The list refers to the queues that are left and have a consumable threshold, and the queues
tagged are those in alarm state. The alarm is raised later, in `later`, where `queueAt` reads a
reference. -/
structure LoadListExact (reader : ValueReader) (cluster later : Cluster) (queues : QueueList)
    (removed : List (List ℕ)) (queueAt : ℕ → Queue) : Prop where
  refs : ∀ a, a ∈ (loadListAfter cluster queues removed).all ↔
    ∃ queue ∈ queues.queues, queue.address = a ∧ consumableThresholds cluster queue ≠ [] ∧
      a ∉ removed.flatten
  tags : ∀ a ∈ (loadListAfter cluster queues removed).all,
    (a ∈ (sgeLoadListAlarm reader later queueAt (loadListAfter cluster queues removed)).1 ↔
      sgeLoadAlarm reader later (queueAt a) (queueAt a).loadThresholds)

/-- A queue that is removed is removed as often as it has consumable thresholds. -/
def RemovedWhole (cluster : Cluster) (queues : QueueList) (removed : List (List ℕ)) : Prop :=
  ∀ queue ∈ queues.queues, removed.flatten.count queue.address = 0 ∨
    (consumableThresholds cluster queue).length ≤ removed.flatten.count queue.address

/-- The first queue that is left and has a consumable threshold with the same elements and limit. -/
def firstSharing (cluster : Cluster) (queues : QueueList) (removed : List (List ℕ))
    (key : LoadKey) : Option ℕ :=
  ((loadRefs cluster queues).find? fun ref =>
    ref.1 = key && !removed.flatten.contains ref.2).map Prod.snd

/-- A queue that is left is in alarm state if and only if the first queue is that it shares one of
its consumable thresholds with. -/
def FirstDecides (reader : ValueReader) (cluster later : Cluster) (queues : QueueList)
    (removed : List (List ℕ)) (queueAt : ℕ → Queue) : Prop :=
  ∀ queue ∈ queues.queues, queue.address ∉ removed.flatten →
    consumableThresholds cluster queue ≠ [] →
    (alarmOf reader later queueAt queue.address ↔
      ∃ key, (key, queue.address) ∈ loadRefs cluster queues ∧
        ∃ first, firstSharing cluster queues removed key = some first ∧
          alarmOf reader later queueAt first)

section Exact

variable {cluster : Cluster} {queues : QueueList} {removed : List (List ℕ)}

variable {queue : Queue}

theorem map_snd_queueRefs (herror : NoError cluster queues)
    (hqueue : queue ∈ queues.queues) : (queueRefs cluster queue).map Prod.snd =
      List.replicate (consumableThresholds cluster queue).length queue.address := by
  obtain ⟨hglobal, hok⟩ := herror
  obtain ⟨global, hglobal⟩ := Option.isSome_iff_exists.mp hglobal
  unfold queueRefs
  rw [hglobal]
  cases hhost : hostListLocate cluster queue.qhostname with
  | some host =>
    dsimp only
    rw [List.map_map, ← List.map_const]
    rfl
  | none =>
    -- the host of a consumable threshold is known
    have hnone : consumableThresholds cluster queue = [] := by
      refine List.filter_eq_nil_iff.mpr fun tep htep hconsumable => ?_
      have htepOk := hok queue hqueue tep htep
      unfold thresholdOk at htepOk
      unfold Threshold.isConsumable at hconsumable
      cases hentry : centryListLocate cluster.centries tep.name with
      | none =>
        rw [hentry] at hconsumable
        cases hconsumable
      | some entry =>
        rw [hentry] at htepOk hconsumable
        have hno : entry.consumable = .no := by simpa [hhost] using htepOk
        have hyes : entry.consumable ≠ .no := by simpa using hconsumable
        exact hyes hno
    rw [hnone]
    rfl

variable {ref : LoadKey × ℕ}

theorem address_of_mem_queueRefs (h : ref ∈ queueRefs cluster queue) : queue.address = ref.2 := by
  unfold queueRefs at h
  split at h
  · obtain ⟨tep, -, rfl⟩ := List.mem_map.mp h
    rfl
  · cases h

theorem exists_of_mem_loadRefs (h : ref ∈ loadRefs cluster queues) :
    ∃ queue ∈ queues.queues, queue.address = ref.2 := by
  obtain ⟨queue, hqueue, href⟩ := List.mem_flatMap.mp h
  exact ⟨queue, hqueue, address_of_mem_queueRefs href⟩

variable (herror : NoError cluster queues)
include herror

theorem count_loadRefs (hqueue : queue ∈ queues.queues) :
    ((loadRefs cluster queues).map Prod.snd).count queue.address =
      (consumableThresholds cluster queue).length := by
  obtain ⟨before, after, hsplit⟩ := List.append_of_mem hqueue
  have hother : ∀ l : List Queue, queue.address ∉ l.map Queue.address →
      ((l.flatMap (queueRefs cluster)).map Prod.snd).count queue.address = 0 := by
    intro l hnot
    refine List.count_eq_zero.mpr fun hmem => hnot ?_
    obtain ⟨ref, href, haddress⟩ := List.mem_map.mp hmem
    obtain ⟨other, hotherMem, href⟩ := List.mem_flatMap.mp href
    exact List.mem_map.mpr ⟨other, hotherMem, (address_of_mem_queueRefs href).trans haddress⟩
  have hdistinct := queues.distinct
  rw [hsplit, List.map_append, List.map_cons, List.nodup_middle, List.nodup_cons,
    List.mem_append, not_or] at hdistinct
  rw [loadRefs, hsplit, List.flatMap_append, List.flatMap_cons, List.map_append, List.map_append,
    List.count_append, List.count_append, hother before hdistinct.1.1,
    hother after hdistinct.1.2, map_snd_queueRefs herror hqueue, List.count_replicate_self,
    Nat.zero_add, Nat.add_zero]

theorem loadListAfter_eq : loadListAfter cluster queues removed =
    (GroupedList.empty.addAll (loadRefs cluster queues)).removeAll removed.flatten := by
  rw [loadListAfter, (sgeCreateLoadList_eq cluster queues).1 herror,
    foldl_sgeRemoveQueueFromLoadList]

theorem count_loadListAfter (a : ℕ) :
    (loadListAfter cluster queues removed).all.count a =
      ((loadRefs cluster queues).map Prod.snd).count a - removed.flatten.count a := by
  rw [loadListAfter_eq herror, GroupedList.count_removeAll, GroupedList.count_addAll]
  have hempty : (GroupedList.empty : LoadList).all.count a = 0 := rfl
  rw [hempty, Nat.zero_add]

theorem refs_iff :
    (∀ a, a ∈ (loadListAfter cluster queues removed).all ↔
      ∃ queue ∈ queues.queues, queue.address = a ∧ consumableThresholds cluster queue ≠ [] ∧
        a ∉ removed.flatten) ↔ RemovedWhole cluster queues removed := by
  constructor
  · intro h queue hqueue
    by_contra hpart
    obtain ⟨hsome, hfew⟩ := not_or.mp hpart
    have hleft : queue.address ∈ (loadListAfter cluster queues removed).all := by
      rw [← List.count_pos_iff, count_loadListAfter herror, count_loadRefs herror hqueue]
      omega
    obtain ⟨-, -, -, -, hkept⟩ := (h queue.address).mp hleft
    exact hsome (List.count_eq_zero.mpr hkept)
  · intro h a
    rw [← List.count_pos_iff, count_loadListAfter herror]
    constructor
    · intro hpos
      have hmem : a ∈ (loadRefs cluster queues).map Prod.snd := List.count_pos_iff.mp (by omega)
      obtain ⟨ref, href, rfl⟩ := List.mem_map.mp hmem
      obtain ⟨queue, hqueue, haddress⟩ := exists_of_mem_loadRefs href
      rw [← haddress, count_loadRefs herror hqueue] at hpos
      rcases h queue hqueue with hzero | hle
      · refine ⟨queue, hqueue, haddress, List.ne_nil_of_length_pos (by omega), ?_⟩
        exact haddress ▸ List.count_eq_zero.mp hzero
      · omega
    · rintro ⟨queue, hqueue, rfl, hthresholds, hkept⟩
      rw [count_loadRefs herror hqueue, List.count_eq_zero.mpr hkept]
      exact List.length_pos_iff.mpr hthresholds

theorem members_loadListAfter (hwhole : RemovedWhole cluster queues removed) (key : LoadKey) :
    (loadListAfter cluster queues removed).members key =
      ((loadRefs cluster queues).filter fun ref =>
        ref.1 = key && !removed.flatten.contains ref.2).map Prod.snd := by
  have hgone : ∀ a ∈ removed.flatten, a ∉ (loadListAfter cluster queues removed).all := by
    intro a ha hleft
    obtain ⟨-, -, -, -, hkept⟩ := ((refs_iff herror).mpr hwhole a).mp hleft
    exact hkept ha
  rw [loadListAfter_eq herror] at hgone ⊢
  rw [GroupedList.members_removeAll _ hgone, GroupedList.members_addAll]
  have hempty : (GroupedList.empty : LoadList).members key = [] := rfl
  rw [hempty, List.nil_append, List.filter_map, List.filter_filter]
  congr 2
  funext ref
  rw [Function.comp_apply, Bool.and_comm]

omit herror

/-- The list is exact if and only if it was built, queues were removed as a whole, and the first
queue decides as each of its group would; or it was not built and all its queues have left. -/
theorem loadListExact_iff (reader : ValueReader) (cluster later : Cluster) (queues : QueueList)
    (removed : List (List ℕ)) (queueAt : ℕ → Queue) :
    LoadListExact reader cluster later queues removed queueAt ↔
      NoError cluster queues ∧ RemovedWhole cluster queues removed ∧
          FirstDecides reader cluster later queues removed queueAt ∨
        ¬ NoError cluster queues ∧ ∀ queue ∈ queues.queues,
          consumableThresholds cluster queue ≠ [] → queue.address ∈ removed.flatten := by
  by_cases herror : NoError cluster queues
  · have htags : RemovedWhole cluster queues removed →
        ∀ a, a ∈ (sgeLoadListAlarm reader later queueAt
            (loadListAfter cluster queues removed)).1 ↔ a ∉ removed.flatten ∧
          ∃ key, (key, a) ∈ loadRefs cluster queues ∧
            ∃ first, firstSharing cluster queues removed key = some first ∧
              alarmOf reader later queueAt first := by
      intro hwhole a
      rw [mem_sgeLoadListAlarm]
      simp only [members_loadListAfter herror hwhole, List.head?_map, List.head?_filter,
        List.mem_map, List.mem_filter, Bool.and_eq_true, decide_eq_true_eq]
      constructor
      · rintro ⟨key, ⟨ref, ⟨href, rfl, hkept⟩, rfl⟩, hfirst⟩
        exact ⟨by simpa using hkept, ref.1, href, hfirst⟩
      · rintro ⟨hkept, key, href, hfirst⟩
        exact ⟨key, ⟨(key, a), ⟨href, rfl, by simpa using hkept⟩, rfl⟩, hfirst⟩
    constructor
    · intro h
      have hwhole := (refs_iff herror).mp h.refs
      refine .inl ⟨herror, hwhole, fun queue hqueue hkept hthresholds => ?_⟩
      have hleft := (h.refs queue.address).mpr ⟨queue, hqueue, rfl, hthresholds, hkept⟩
      have htag := h.tags queue.address hleft
      rw [htags hwhole] at htag
      exact htag.symm.trans (and_iff_right hkept)
    · rintro (⟨-, hwhole, hdecides⟩ | ⟨hnot, -⟩)
      · have hrefs := (refs_iff herror).mpr hwhole
        refine ⟨hrefs, fun a ha => ?_⟩
        obtain ⟨queue, hqueue, rfl, hthresholds, hkept⟩ := (hrefs a).mp ha
        rw [htags hwhole, and_iff_right hkept]
        exact (hdecides queue hqueue hkept hthresholds).symm
      · exact absurd herror hnot
  · have hempty : loadListAfter cluster queues removed = GroupedList.empty := by
      rw [loadListAfter, (sgeCreateLoadList_eq cluster queues).2 herror,
        foldl_sgeRemoveQueueFromLoadList, removeAll_empty]
    have hnone : ∀ a, a ∉ (loadListAfter cluster queues removed).all := by
      rw [hempty]
      exact fun _ => List.not_mem_nil
    constructor
    · intro h
      refine .inr ⟨herror, fun queue hqueue hthresholds => ?_⟩
      by_contra hkept
      exact hnone _ ((h.refs queue.address).mpr ⟨queue, hqueue, rfl, hthresholds, hkept⟩)
    · rintro (⟨hbuilt, -⟩ | ⟨-, hgone⟩)
      · exact absurd hbuilt herror
      · refine ⟨fun a => ⟨fun ha => absurd ha (hnone a), ?_⟩, fun a ha => absurd ha (hnone a)⟩
        rintro ⟨queue, hqueue, rfl, hthresholds, hkept⟩
        exact absurd (hgone queue hqueue hthresholds) hkept

end Exact

/-- Reads numbers, and what is configured for the queue. -/
def plainReader : ValueReader where
  parseUlongVal := fun _ value => (value.bind String.toNat?).map fun n => (n : ℚ)
  stringBaseCmp := fun _ limit value => if value = some limit then 0 else 1
  attributeByName := fun _ _ queue name =>
    (queue.consumableConfigList.find? (·.name = name)).map fun config => some config.stringval

def twoConsumables : Cluster where
  hosts := [⟨"global", [], [], []⟩, ⟨"host", [], [], []⟩]
  centries := [⟨"slots", "s", .int, .le, .yes, "1"⟩, ⟨"mem", "m", .mem, .le, .yes, "0"⟩]

def twoThresholds : Queue where
  address := 1
  qhostname := "host"
  loadThresholds := some [⟨"slots", "1"⟩, ⟨"mem", "2"⟩]
  consumableConfigList := [⟨"slots", "8", 8⟩, ⟨"mem", "16", 16⟩]
  resourceUtilization := [Usage.new "slots", Usage.new "mem"]

/-- A queue that is removed leaves a reference behind, that of its second threshold. -/
theorem not_loadListExact :
    ¬ ∀ (reader : ValueReader) (cluster later : Cluster) (queues : QueueList)
        (removed : List (List ℕ)) (queueAt : ℕ → Queue), NoError cluster queues →
      LoadListExact reader cluster later queues removed queueAt := by
  intro h
  have hexact := h plainReader twoConsumables twoConsumables ⟨[twoThresholds], by decide⟩ [[1]]
    (fun _ => twoThresholds) ⟨by decide +kernel, by decide +kernel⟩
  obtain ⟨-, -, -, -, hkept⟩ := (hexact.refs 1).mp (by decide +kernel)
  exact hkept (by decide)

end ClusterScheduler.Sched.LoadAlarms
