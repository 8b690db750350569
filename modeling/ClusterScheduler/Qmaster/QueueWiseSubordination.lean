import ClusterScheduler.Consumables.Tasks
import ClusterScheduler.Foundation.Counting
import ClusterScheduler.Qmaster.SubordinateTree

/-!
# Queue-wise subordination

A queue instance suspends the queue instances that it lists as subordinates once it has enough
used slots. Each queue instance counts how many others suspend it, and the counter is kept by
differences: at the start and at the end of a task.

* `SosConf` — cluster queues with queue-wise subordinate lists.
* `cqueueListXOnSubordinateGdil` — the loop through the granted queue instances.
* `SosExact` — every counter is the number of the queue instances that suspend.
* `exact_suspend`, `exact_unsuspend` — what the loop does to exact counters.
* `exact_run` — the counters are exact in every run, as long as no failed delivery crosses a
  threshold.
-/

namespace ClusterScheduler.Qmaster

open Foundation Consumables

/-! ## Queue instances by full name -/

def hostOfFullName (fullName : String) : String :=
  String.ofList (fullName.toList.dropWhile (· ≠ '@')).tail

def ClusterQueueList.locateFullName (queues : ClusterQueueList) (fullName : String) :
    Option QInstance :=
  queues.locateQinstance (cqueueGetNameFromQinstance fullName) (hostOfFullName fullName)

/-- The queue instance is in the master list. -/
def ClusterQueueList.Has (queues : ClusterQueueList) (qi : QInstance) : Prop :=
  queues.locateQinstance qi.qname qi.hostname = some qi

/-! ## Thresholds -/

/-- The conversion to `int`. -/
def asInt (x : ℤ) : ℤ := Int.bmod x (2 ^ 32)

def tstSos (used total : ℤ) (so : Subordinate) : Bool :=
  if so.threshold = 0 then total ≤ used else so.threshold ≤ used % 2 ^ 32

/-- The value of `RUE_utilized_now` becomes an integer. -/
def qinstanceSlotsUsed (resourceUtilization : List Usage) : ℤ :=
  match lookup (·.name) sgeAttrSlots resourceUtilization with
  | some slots => slots.utilizedNow.num.tdiv slots.utilizedNow.den
  | none => 1000000

/-- Lower thresholds are preferred. -/
def soListAdd (soName : String) (so : Subordinate) (list : List Subordinate) : List Subordinate :=
  if list.any (·.name = soName) then
    modifyFirst (·.name) soName (fun elem =>
      { elem with
        threshold := if so.threshold ≠ 0 ∧ so.threshold < elem.threshold then so.threshold
          else elem.threshold
        slotsSum := if so.slotsSum ≠ 0 ∧ so.slotsSum < elem.slotsSum then so.slotsSum
          else elem.slotsSum
        seqNo := if so.seqNo ≠ 0 ∧ elem.seqNo < so.seqNo then so.seqNo else elem.seqNo
        action := so.action }) list
  else list ++ [{ so with name := soName }]

/-- The entries under the full names of the queue instances on a host. A cluster queue without one
there is skipped. -/
def soListResolve (queues : ClusterQueueList) (hostname : String) (soList : List Subordinate) :
    List Subordinate :=
  soList.foldl (fun resolved so =>
    match queues.locateQinstance so.name hostname with
    | none => resolved
    | some qinstance => soListAdd qinstance.fullName so resolved) []

/-! ## The configuration and the state -/

/-- `QU_suspended_on_subordinate` and the state of a queue instance. -/
structure Sos where
  counter : ℕ
  suspOnSub : Bool
deriving DecidableEq, Repr

/-- The master lists, which do not change. `slots` is booked for every task, as the entry that
the qmaster makes for it says, and all subordinate lists are queue-wise ones. -/
structure SosConf where
  conf : Conf
  queues : ClusterQueueList
  jobSlots : String → ℕ
  few : queues.cqueues.length < 2 ^ 32
  names : ∀ cqueue ∈ queues.cqueues, '@' ∉ cqueue.name.toList ∧
    ∀ qi ∈ cqueue.qinstances, qi.hostname ≠ ""
  queueWise : ∀ qi, queues.Has qi → ∀ so ∈ qi.subordinateList, so.slotsSum = 0
  hosts : ∀ fullName, (conf.queues fullName).map (·.qhostname) =
    (queues.locateFullName fullName).map (·.hostname)
  slots : ∃ dcep, centryListLocate conf.centries sgeAttrSlots = some dcep ∧
    dcep.consumable = .yes ∧ dcep.relop = .le ∧ conf.parse dcep.valtype dcep.defaultval = some 1
  config : ∀ fullName queue, conf.queues fullName = some queue →
    queue.config.Nodup ∧ sgeAttrSlots ∈ queue.config ∧
      ∀ name ∈ queue.config, (centryListLocate conf.centries name).isSome

/-- What is booked, the counters, and the tasks that run. -/
structure SosState where
  cluster : Cluster
  sos : String → Sos
  running : List Task

/-! ## Functions of the source -/

/-- The counter is an unsigned number of 32 bits. -/
def qinstanceXOnSubordinate (suspend : Bool) (this : Sos) : Sos :=
  if suspend then
    let sosCounter := (this.counter + 1) % 2 ^ 32
    ⟨sosCounter, if sosCounter = 1 then true else this.suspOnSub⟩
  else
    let sosCounter := (this.counter + (2 ^ 32 - 1)) % 2 ^ 32
    ⟨sosCounter, if sosCounter = 0 then false else this.suspOnSub⟩

def crossesThreshold (slotsUsed slots granted : ℤ) (so : Subordinate) : Bool :=
  !tstSos (asInt (slotsUsed - granted)) (asInt slots) so &&
    tstSos (asInt slotsUsed) (asInt slots) so

section Functions

variable (conf : SosConf)

def slotsUsed (cluster : Cluster) (fullName : String) : ℤ :=
  qinstanceSlotsUsed (cluster.books (.queue fullName))

/-- The subordinates of a granted queue instance. -/
def xOnSubordinateOf (used : String → ℤ) (suspend : Bool) (qinstance : QInstance) (gdi : Granted)
    (sos : String → Sos) : String → Sos :=
  if qinstance.subordinateList.any (·.slotsSum = 0) then
    (soListResolve conf.queues gdi.qhostname qinstance.subordinateList).foldl (fun sos so =>
      -- a queue cannot be subordinate to itself
      if so.name = gdi.qname then sos
      else if crossesThreshold (used gdi.qname) (conf.jobSlots gdi.qname) gdi.slots so then
        match conf.queues.locateFullName so.name with
        | none => sos
        | some _ =>
          Function.update sos so.name (qinstanceXOnSubordinate suspend (sos so.name))
      else sos) sos
  else sos

def cqueueListXOnSubordinateGdil (used : String → ℤ) (suspend : Bool) (gdil : List Granted)
    (sos : String → Sos) : String → Sos :=
  gdil.foldl (fun sos gdi =>
    match conf.queues.locateFullName gdi.qname with
    | none => sos
    | some qinstance => xOnSubordinateOf conf used suspend qinstance gdi sos) sos

/-- The start order names queue instances with enough free slots. -/
def acceptsOrder (task : Task) (s : SosState) : Bool :=
  arFound conf.conf task &&
    task.gdil.all fun gdi =>
      match conf.queues.locateFullName gdi.qname with
      | none => false
      | some qinstance => gdi.qhostname = qinstance.hostname &&
          gdi.slots ≤ ((conf.jobSlots gdi.qname : ℤ) - slotsUsed s.cluster gdi.qname) % 2 ^ 32

/-- `incslots` is 0 for a task that was never sent. -/
def clearGrantedResources (incslots : Bool) (task : Task) (s : SosState) : SosState :=
  if task.isEnrolled then
    { s with
      sos := cqueueListXOnSubordinateGdil conf (slotsUsed s.cluster) false task.gdil s.sos
      cluster := if incslots then Consumables.sgeClearGrantedResources conf.conf task s.cluster
        else s.cluster }
  else s

/-- A start order. What else it is refused for changes nothing either. -/
def followStartOrder (task : Task) (delivered : Bool) (s : SosState) : SosState :=
  if acceptsOrder conf task s then
    if delivered then
      let cluster := sgeFollowOrderStart conf.conf task s.cluster
      { cluster
        sos := cqueueListXOnSubordinateGdil conf (slotsUsed cluster) true task.gdil s.sos
        running := task :: s.running }
    else clearGrantedResources conf false task s
  else s

end Functions

/-! ## SosExact counters -/

/-- The queue instance of the cluster queue on the host of `sub` is another one, it lists `sub` as
a subordinate, and its used slots suffice. -/
def suspends (conf : SosConf) (used : String → ℤ) (sub : QInstance) (qname : String) : Bool :=
  match conf.queues.locateQinstance qname sub.hostname with
  | none => false
  | some sup => sup.fullName ≠ sub.fullName &&
      (soListResolve conf.queues sup.hostname sup.subordinateList).any fun so =>
        so.name = sub.fullName &&
          tstSos (asInt (used sup.fullName)) (asInt (conf.jobSlots sup.fullName)) so

def suspenders (conf : SosConf) (used : String → ℤ) (sub : QInstance) : Finset String :=
  (conf.queues.cqueues.map (·.name)).toFinset.filter (suspends conf used sub ·)

/-- The counter is the number, and the queue instance is suspended when it is positive. -/
def SosExact (conf : SosConf) (used : String → ℤ) (sos : String → Sos) : Prop :=
  ∀ qi, conf.queues.Has qi →
    (sos qi.fullName).counter = (suspenders conf used qi).card ∧
      ((sos qi.fullName).suspOnSub = true ↔ 0 < (sos qi.fullName).counter)

/-! ## Names -/

section Names

variable {conf : SosConf} {qi : QInstance} {fullName : String}

theorem has_of_locate {qname host : String}
    (h : conf.queues.locateQinstance qname host = some qi) : conf.queues.Has qi := by
  obtain ⟨rfl, rfl⟩ := locateQinstance_spec h
  exact h

theorem fullName_toList (qi : QInstance) :
    qi.fullName.toList = qi.qname.toList ++ '@' :: qi.hostname.toList := by
  simp [QInstance.fullName]

theorem Has.names (h : conf.queues.Has qi) : '@' ∉ qi.qname.toList ∧ qi.hostname ≠ "" := by
  obtain ⟨cqueue, hmem, hname, hlocate⟩ := locateQinstance_iff.mp h
  obtain ⟨hat, hhost⟩ := conf.names cqueue hmem
  exact ⟨hname ▸ hat, hhost qi (List.mem_of_find?_eq_some hlocate)⟩

theorem locate_fullName (h : conf.queues.Has qi) :
    conf.queues.locateFullName qi.fullName = some qi := by
  have hpos : ∀ c ∈ qi.qname.toList, decide (c ≠ '@') = true := by
    intro c hc
    exact decide_eq_true fun heq => (Has.names h).1 (heq ▸ hc)
  have hqname : cqueueGetNameFromQinstance qi.fullName = qi.qname := by
    rw [cqueueGetNameFromQinstance, fullName_toList, List.takeWhile_append_of_pos hpos]
    simp
  have hhost : hostOfFullName qi.fullName = qi.hostname := by
    rw [hostOfFullName, fullName_toList, List.dropWhile_append_of_pos hpos]
    simp
  rw [ClusterQueueList.locateFullName, hqname, hhost]
  exact h

/-- A queue instance is found under its full name only. -/
theorem locateFullName_spec (h : conf.queues.locateFullName fullName = some qi) :
    conf.queues.Has qi ∧ fullName = qi.fullName := by
  have hhas : conf.queues.Has qi := has_of_locate h
  obtain ⟨hqname, hhost⟩ := locateQinstance_spec h
  refine ⟨hhas, ?_⟩
  have hsplit := List.takeWhile_append_dropWhile (p := (decide <| · ≠ '@')) (l := fullName.toList)
  cases hdrop : fullName.toList.dropWhile (· ≠ '@') with
  | nil =>
    refine absurd ?_ (Has.names hhas).2
    rw [hhost, hostOfFullName, hdrop]
    rfl
  | cons c rest =>
    have hc : c = '@' := by
      have hhead := List.head?_dropWhile_not (decide <| · ≠ '@') fullName.toList
      rw [hdrop] at hhead
      simpa using hhead
    apply String.toList_inj.mp
    calc fullName.toList
        = fullName.toList.takeWhile (· ≠ '@') ++ '@' :: rest := by
          rw [hdrop, hc] at hsplit
          exact hsplit.symm
      _ = qi.fullName.toList := by
          rw [fullName_toList, hqname, hhost, cqueueGetNameFromQinstance, hostOfFullName, hdrop,
            String.toList_ofList, String.toList_ofList, List.tail_cons]

theorem fullName_inj {qi' : QInstance} (h : conf.queues.Has qi) (h' : conf.queues.Has qi')
    (heq : qi.fullName = qi'.fullName) : qi = qi' := by
  have hlocate := locate_fullName h
  rw [heq, locate_fullName h'] at hlocate
  exact (Option.some.inj hlocate).symm

end Names

/-! ## Resolved lists -/

section Resolved

variable {queues : ClusterQueueList} {hostname : String} {list : List Subordinate}

theorem soListAdd_names (soName : String) (so : Subordinate) (list : List Subordinate) :
    (soListAdd soName so list).map (·.name) =
      if soName ∈ list.map (·.name) then list.map (·.name) else list.map (·.name) ++ [soName] := by
  have hany : (list.any (·.name = soName)) = true ↔ soName ∈ list.map (·.name) := by
    rw [List.any_eq_true, List.mem_map]
    simp only [decide_eq_true_eq]
  unfold soListAdd
  by_cases hmem : soName ∈ list.map (·.name)
  · rw [if_pos (hany.mpr hmem), if_pos hmem]
    exact map_modifyFirst (fun _ => by rfl) list
  · rw [if_neg fun h => hmem (hany.mp h), if_neg hmem, List.map_append]
    rfl

/-- The names are different full names of queue instances on the host. -/
def ResolvedOn (queues : ClusterQueueList) (hostname : String) (list : List Subordinate) : Prop :=
  (list.map (·.name)).Nodup ∧
    ∀ so ∈ list, ∃ qi, queues.Has qi ∧ qi.hostname = hostname ∧ so.name = qi.fullName

theorem ResolvedOn.add {qi : QInstance} (h : ResolvedOn queues hostname list)
    (hhas : queues.Has qi) (hhost : qi.hostname = hostname) (so : Subordinate) :
    ResolvedOn queues hostname (soListAdd qi.fullName so list) := by
  obtain ⟨hnodup, hnames⟩ := h
  have hadd := soListAdd_names qi.fullName so list
  constructor
  · rw [hadd]
    split_ifs with hmem
    · exact hnodup
    · exact List.nodup_append.mpr ⟨hnodup, List.nodup_singleton _, fun a ha b hb heq =>
        hmem (List.mem_singleton.mp hb ▸ heq ▸ ha)⟩
  · intro so' hso'
    have hname : so'.name ∈ (soListAdd qi.fullName so list).map (·.name) :=
      List.mem_map_of_mem hso'
    have hcases : so'.name ∈ list.map (·.name) ∨ so'.name = qi.fullName := by
      rw [hadd] at hname
      split_ifs at hname with hmem
      · exact .inl hname
      · exact (List.mem_append.mp hname).imp_right List.mem_singleton.mp
    rcases hcases with hold | hnew
    · obtain ⟨old, hmem, heq⟩ := List.mem_map.mp hold
      obtain ⟨qi', hqi'⟩ := hnames old hmem
      exact ⟨qi', heq ▸ hqi'⟩
    · exact ⟨qi, hhas, hhost, hnew⟩

theorem soListResolve_resolvedOn (queues : ClusterQueueList) (hostname : String)
    (soList : List Subordinate) :
    ResolvedOn queues hostname (soListResolve queues hostname soList) := by
  unfold soListResolve
  apply List.foldlRecOn (motive := ResolvedOn queues hostname)
  · exact ⟨List.nodup_nil, List.forall_mem_nil _⟩
  · intro resolved ih so _
    cases hlocate : queues.locateQinstance so.name hostname with
    | none => exact ih
    | some qinstance =>
      obtain ⟨hqname, hhost⟩ := locateQinstance_spec hlocate
      exact ih.add (by rw [ClusterQueueList.Has, hqname, hhost, hlocate]) hhost so

end Resolved

/-! ## Thresholds -/

section Thresholds

variable {used used' total : ℤ} {so : Subordinate}

theorem asInt_eq (h : 0 ≤ used) (h' : used < 2 ^ 31) : asInt used = used := by
  unfold asInt
  rw [Int.bmod_eq_of_le (by omega) (by omega)]

theorem tstSos_mono (h : 0 ≤ used) (hle : used ≤ used') (h' : used' < 2 ^ 31)
    (htst : tstSos (asInt used) total so = true) : tstSos (asInt used') total so = true := by
  rw [asInt_eq h (hle.trans_lt h')] at htst
  rw [asInt_eq (h.trans hle) h']
  unfold tstSos at htst ⊢
  split_ifs at htst ⊢ with hzero
  · exact decide_eq_true ((of_decide_eq_true htst).trans hle)
  · have hreached := of_decide_eq_true htst
    rw [Int.emod_eq_of_lt h (by omega)] at hreached
    rw [Int.emod_eq_of_lt (h.trans hle) (by omega)]
    exact decide_eq_true (hreached.trans hle)

end Thresholds

/-! ## One granted queue instance -/

/-- The used slots of `sup` cross the threshold of its subordinate with what was granted. -/
def crosses (conf : SosConf) (used : String → ℤ) (sup sub : QInstance) (gdi : Granted) : Bool :=
  sup.fullName ≠ sub.fullName &&
    (soListResolve conf.queues sup.hostname sup.subordinateList).any fun so =>
      so.name = sub.fullName &&
        crossesThreshold (used gdi.qname) (conf.jobSlots gdi.qname) gdi.slots so

section Granted

variable {conf : SosConf} {used lo hi : String → ℤ} {suspend : Bool} {sup sub : QInstance}
  {gdi : Granted} {sos : String → Sos} {qname : String}

theorem suspends_iff : suspends conf used sub qname = true ↔
    ∃ sup, conf.queues.locateQinstance qname sub.hostname = some sup ∧
      sup.fullName ≠ sub.fullName ∧
      ∃ so ∈ soListResolve conf.queues sup.hostname sup.subordinateList, so.name = sub.fullName ∧
        tstSos (asInt (used sup.fullName)) (asInt (conf.jobSlots sup.fullName)) so = true := by
  unfold suspends
  cases conf.queues.locateQinstance qname sub.hostname with
  | none => simp
  | some sup => simp

theorem crosses_iff : crosses conf used sup sub gdi = true ↔ sup.fullName ≠ sub.fullName ∧
    ∃ so ∈ soListResolve conf.queues sup.hostname sup.subordinateList, so.name = sub.fullName ∧
      crossesThreshold (used gdi.qname) (conf.jobSlots gdi.qname) gdi.slots so = true := by
  simp [crosses]

/-- The loop through the subordinates changes those for which the threshold is crossed. -/
theorem xOnSubordinateOf_apply (hsup : conf.queues.Has sup) (hqname : gdi.qname = sup.fullName)
    (hhost : gdi.qhostname = sup.hostname) :
    xOnSubordinateOf conf used suspend sup gdi sos sub.fullName =
      if crosses conf used sup sub gdi then qinstanceXOnSubordinate suspend (sos sub.fullName)
      else sos sub.fullName := by
  obtain ⟨hnodup, hnames⟩ := soListResolve_resolvedOn conf.queues sup.hostname sup.subordinateList
  have hloop := foldl_update_apply
    (fun so : Subordinate => so.name ≠ gdi.qname ∧
      crossesThreshold (used gdi.qname) (conf.jobSlots gdi.qname) gdi.slots so = true)
    (qinstanceXOnSubordinate suspend) hnodup sos sub.fullName
  have hiff : (∃ so ∈ soListResolve conf.queues sup.hostname sup.subordinateList,
      so.name = sub.fullName ∧ so.name ≠ gdi.qname ∧
        crossesThreshold (used gdi.qname) (conf.jobSlots gdi.qname) gdi.slots so = true) ↔
      crosses conf used sup sub gdi = true := by
    rw [crosses_iff, hqname]
    constructor
    · rintro ⟨so, hso, hname, hne, hcross⟩
      exact ⟨fun heq => hne (hname.trans heq.symm), so, hso, hname, hcross⟩
    · rintro ⟨hne, so, hso, hname, hcross⟩
      exact ⟨so, hso, hname, fun heq => hne (heq.symm.trans hname), hcross⟩
  rw [if_congr hiff rfl rfl] at hloop
  rw [← hloop, xOnSubordinateOf]
  split_ifs with hany
  · rw [hhost]
    refine congrFun (List.foldl_ext _ _ _ fun sos so hso => ?_) _
    obtain ⟨qi, hqi, -, hname⟩ := hnames so hso
    by_cases hself : so.name = gdi.qname
    · rw [if_pos hself, if_neg fun h => h.1 hself]
    · by_cases hcross :
          crossesThreshold (used gdi.qname) (conf.jobSlots gdi.qname) gdi.slots so = true
      · rw [if_neg hself, if_pos hcross, if_pos ⟨hself, hcross⟩, hname, locate_fullName hqi]
      · rw [if_neg hself, if_neg hcross, if_neg fun h => hcross h.2]
  · -- without a queue-wise entry the list is empty
    have hempty : sup.subordinateList = [] := by
      apply List.eq_nil_iff_forall_not_mem.mpr
      intro so hso
      exact hany (List.any_eq_true.mpr ⟨so, hso, decide_eq_true (conf.queueWise sup hsup so hso)⟩)
    rw [hempty]
    rfl

theorem suspends_congr (h : ∀ qi, conf.queues.locateQinstance qname sub.hostname = some qi →
    hi qi.fullName = lo qi.fullName) : suspends conf hi sub qname = suspends conf lo sub qname := by
  unfold suspends
  cases hlocate : conf.queues.locateQinstance qname sub.hostname with
  | none => rfl
  | some qi => simp only [h qi hlocate]

/-- The used slots before and after what was granted of a queue instance is booked. -/
structure Booking (conf : SosConf) (lo hi : String → ℤ) (gdi : Granted) : Prop where
  nonneg : 0 ≤ lo gdi.qname
  granted : hi gdi.qname = lo gdi.qname + gdi.slots
  small : hi gdi.qname < 2 ^ 31
  others : ∀ qi, conf.queues.Has qi → qi.fullName ≠ gdi.qname → hi qi.fullName = lo qi.fullName

/-- **The number of suspending queue instances** grows where the threshold is crossed. -/
theorem card_suspenders (hb : Booking conf lo hi gdi) (hsup : conf.queues.Has sup)
    (hqname : gdi.qname = sup.fullName) (hsub : conf.queues.Has sub) :
    (suspenders conf hi sub).card = (suspenders conf lo sub).card +
      if crosses conf hi sup sub gdi then 1 else 0 := by
  have hother : ∀ i, i ≠ sup.qname ∨ sub.hostname ≠ sup.hostname →
      suspends conf hi sub i = suspends conf lo sub i := by
    intro i hi
    apply suspends_congr
    intro qi hlocate
    obtain ⟨hname, hhost⟩ := locateQinstance_spec hlocate
    refine hb.others qi (has_of_locate hlocate) fun heq => ?_
    have hsame := fullName_inj (has_of_locate hlocate) hsup (heq.trans hqname)
    rcases hi with hi | hi
    · exact hi (hname ▸ hsame ▸ rfl)
    · exact hi (hhost ▸ hsame ▸ rfl)
  have hbefore : hi gdi.qname - gdi.slots = lo gdi.qname := by rw [hb.granted, add_sub_cancel_right]
  obtain ⟨hnodup, hnames⟩ := soListResolve_resolvedOn conf.queues sup.hostname sup.subordinateList
  by_cases hcross : crosses conf hi sup sub gdi = true
  · rw [if_pos hcross]
    obtain ⟨hne, so, hso, hname, hthreshold⟩ := crosses_iff.mp hcross
    have hhost : sub.hostname = sup.hostname := by
      obtain ⟨qi, hqi, hqihost, hqiname⟩ := hnames so hso
      rw [← hqihost, fullName_inj hsub hqi (hname.symm.trans hqiname)]
    have hlocate : conf.queues.locateQinstance sup.qname sub.hostname = some sup := hhost ▸ hsup
    rw [crossesThreshold, hbefore, hqname, Bool.and_eq_true, Bool.not_eq_true'] at hthreshold
    apply card_filter_rise (k := sup.qname)
    · obtain ⟨cqueue, hmem, hcqueue, -⟩ := locateQinstance_iff.mp hsup
      exact List.mem_toFinset.mpr (List.mem_map.mpr ⟨cqueue, hmem, hcqueue⟩)
    · intro i _ hi
      rw [hother i (.inl hi)]
    · intro hlo
      obtain ⟨sup', hlocate', -, so', hso', hname', hreached⟩ := suspends_iff.mp hlo
      obtain rfl : sup = sup' := Option.some.inj (hlocate.symm.trans hlocate')
      obtain rfl : so' = so := List.inj_on_of_nodup_map hnodup hso' hso (hname'.trans hname.symm)
      rw [hreached] at hthreshold
      exact absurd hthreshold.1 (by decide)
    · exact suspends_iff.mpr ⟨sup, hlocate, hne, so, hso, hname, hthreshold.2⟩
  · rw [if_neg hcross, add_zero, suspenders, suspenders]
    congr 1
    apply Finset.filter_congr
    intro i _
    by_cases hi : i = sup.qname ∧ sub.hostname = sup.hostname
    · obtain ⟨rfl, hhost⟩ := hi
      rw [suspends_iff, suspends_iff]
      refine exists_congr fun sup' => and_congr_right fun hlocate => and_congr_right fun hne =>
        exists_congr fun so => and_congr_right fun hso => and_congr_right fun hname => ?_
      obtain rfl : sup = sup' := by
        rw [hhost, hsup] at hlocate
        exact Option.some.inj hlocate
      constructor
      · -- reached with the slots, so without them: nothing is crossed
        intro hreached
        by_contra hnot
        refine hcross (crosses_iff.mpr ⟨hne, so, hso, hname, ?_⟩)
        rw [crossesThreshold, hbefore, hqname, hreached, Bool.eq_false_of_not_eq_true hnot]
        rfl
      · apply tstSos_mono
        · exact hqname ▸ hb.nonneg
        · rw [← hqname, hb.granted]
          exact le_add_of_nonneg_right (Int.natCast_nonneg _)
        · exact hqname ▸ hb.small
    · rw [hother i (by tauto)]

theorem card_suspenders_lt (conf : SosConf) (used : String → ℤ) (sub : QInstance) :
    (suspenders conf used sub).card < 2 ^ 32 := by
  calc (suspenders conf used sub).card
      ≤ (conf.queues.cqueues.map (·.name)).toFinset.card := Finset.card_filter_le _ _
    _ ≤ (conf.queues.cqueues.map (·.name)).length := List.toFinset_card_le _
    _ < 2 ^ 32 := by
        rw [List.length_map]
        exact conf.few

variable {this : Sos} {n : ℕ}

theorem qinstanceXOnSubordinate_suspend (hn : n + 1 < 2 ^ 32)
    (hcounter : this.counter = n) (hstate : this.suspOnSub = true ↔ 0 < this.counter) :
    (qinstanceXOnSubordinate true this).counter = n + 1 ∧
      (qinstanceXOnSubordinate true this).suspOnSub = true := by
  have hmod : (this.counter + 1) % 2 ^ 32 = n + 1 := by rw [hcounter, Nat.mod_eq_of_lt hn]
  have heq : qinstanceXOnSubordinate true this =
      ⟨n + 1, if n + 1 = 1 then true else this.suspOnSub⟩ := by
    rw [qinstanceXOnSubordinate, if_pos rfl]
    simp only [hmod]
  rw [heq]
  refine ⟨rfl, ?_⟩
  split_ifs with hone
  · rfl
  · exact hstate.mpr (by omega)

theorem qinstanceXOnSubordinate_unsuspend (hn : n + 1 < 2 ^ 32)
    (hcounter : this.counter = n + 1) (hstate : this.suspOnSub = true ↔ 0 < this.counter) :
    (qinstanceXOnSubordinate false this).counter = n ∧
      ((qinstanceXOnSubordinate false this).suspOnSub = true ↔ 0 < n) := by
  have hmod : (this.counter + (2 ^ 32 - 1)) % 2 ^ 32 = n := by
    rw [hcounter]
    omega
  have heq : qinstanceXOnSubordinate false this =
      ⟨n, if n = 0 then false else this.suspOnSub⟩ := by
    rw [qinstanceXOnSubordinate, if_neg Bool.false_ne_true]
    simp only [hmod]
  rw [heq]
  refine ⟨rfl, ?_⟩
  split_ifs with hzero
  · exact iff_of_false not_false (by omega)
  · exact iff_of_true (hstate.mpr (by omega)) (by omega)

theorem crosses_congr (h : used gdi.qname = hi gdi.qname) :
    crosses conf used sup sub gdi = crosses conf hi sup sub gdi := by
  rw [crosses, crosses, h]

/-- Booking what was granted of a queue instance keeps the counters exact. -/
theorem SosExact.book (hb : Booking conf lo hi gdi) (hsup : conf.queues.Has sup)
    (hqname : gdi.qname = sup.fullName) (hhost : gdi.qhostname = sup.hostname)
    (hused : used gdi.qname = hi gdi.qname) (h : SosExact conf lo sos) :
    SosExact conf hi (xOnSubordinateOf conf used true sup gdi sos) := by
  intro sub hsub
  obtain ⟨hcounter, hstate⟩ := h sub hsub
  have hcard := card_suspenders hb hsup hqname hsub
  have hlt := card_suspenders_lt conf hi sub
  rw [xOnSubordinateOf_apply hsup hqname hhost, crosses_congr hused]
  split_ifs at hcard ⊢
  · rw [hcard] at hlt ⊢
    obtain ⟨hone, hsuspended⟩ := qinstanceXOnSubordinate_suspend hlt hcounter hstate
    exact ⟨hone, iff_of_true hsuspended (hone ▸ Nat.succ_pos _)⟩
  · rw [hcard]
    exact ⟨hcounter, hstate⟩

theorem SosExact.unbook (hb : Booking conf lo hi gdi) (hsup : conf.queues.Has sup)
    (hqname : gdi.qname = sup.fullName) (hhost : gdi.qhostname = sup.hostname)
    (hused : used gdi.qname = hi gdi.qname) (h : SosExact conf hi sos) :
    SosExact conf lo (xOnSubordinateOf conf used false sup gdi sos) := by
  intro sub hsub
  obtain ⟨hcounter, hstate⟩ := h sub hsub
  have hcard := card_suspenders hb hsup hqname hsub
  have hlt := card_suspenders_lt conf hi sub
  rw [xOnSubordinateOf_apply hsup hqname hhost, crosses_congr hused]
  split_ifs at hcard ⊢
  · rw [hcard] at hcounter hlt
    obtain ⟨hone, hsuspended⟩ := qinstanceXOnSubordinate_unsuspend hlt hcounter hstate
    exact ⟨hone, hone ▸ hsuspended⟩
  · rw [hcard] at hcounter
    exact ⟨hcounter, hstate⟩

end Granted

/-! ## The loop through the granted queue instances -/

section Loop

variable {conf : SosConf} {used lo hi : String → ℤ} {gdil : List Granted} {sos : String → Sos}

/-- The granted queue instances are found, each at most once. -/
structure GrantedFound (conf : SosConf) (gdil : List Granted) : Prop where
  distinct : (gdil.map (·.qname)).Nodup
  found : ∀ gdi ∈ gdil, ∃ qi, conf.queues.locateFullName gdi.qname = some qi ∧
    gdi.qhostname = qi.hostname

variable {gdi : Granted}

theorem GrantedFound.tail (h : GrantedFound conf (gdi :: gdil)) : GrantedFound conf gdil where
  distinct := (List.nodup_cons.mp h.distinct).2
  found := fun g hg => h.found g (List.mem_cons_of_mem gdi hg)

/-- The used slots before and after all that was granted is booked. -/
structure Bookings (conf : SosConf) (lo hi : String → ℤ) (gdil : List Granted) : Prop where
  nonneg : ∀ gdi ∈ gdil, 0 ≤ lo gdi.qname
  granted : ∀ gdi ∈ gdil, hi gdi.qname = lo gdi.qname + gdi.slots
  small : ∀ gdi ∈ gdil, hi gdi.qname < 2 ^ 31
  others : ∀ qi, conf.queues.Has qi → qi.fullName ∉ gdil.map (·.qname) →
    hi qi.fullName = lo qi.fullName

theorem Bookings.cons (h : Bookings conf lo hi (gdi :: gdil))
    (hnew : gdi.qname ∉ gdil.map (·.qname)) :
    Booking conf lo (Function.update lo gdi.qname (hi gdi.qname)) gdi ∧
      Bookings conf (Function.update lo gdi.qname (hi gdi.qname)) hi gdil := by
  have hself : Function.update lo gdi.qname (hi gdi.qname) gdi.qname = hi gdi.qname :=
    Function.update_self ..
  have hother : ∀ g ∈ gdil, Function.update lo gdi.qname (hi gdi.qname) g.qname = lo g.qname :=
    fun g hg => Function.update_of_ne (fun heq => hnew (List.mem_map.mpr ⟨g, hg, heq⟩)) ..
  constructor
  · exact {
      nonneg := h.nonneg gdi (.head _)
      granted := hself.trans (h.granted gdi (.head _))
      small := hself.trans_lt (h.small gdi (.head _))
      others := fun qi _ hne => Function.update_of_ne hne .. }
  · exact {
      nonneg := fun g hg => (hother g hg).symm ▸ h.nonneg g (List.mem_cons_of_mem gdi hg)
      granted := fun g hg => (hother g hg).symm ▸ h.granted g (List.mem_cons_of_mem gdi hg)
      small := fun g hg => h.small g (List.mem_cons_of_mem gdi hg)
      others := by
        intro qi hqi hnot
        by_cases heq : qi.fullName = gdi.qname
        · rw [heq, hself]
        · rw [Function.update_of_ne heq]
          exact h.others qi hqi (by simp [heq, hnot]) }

/-- The first entry is taken back, and then the others. -/
theorem Bookings.cons_down (h : Bookings conf lo hi (gdi :: gdil))
    (hnew : gdi.qname ∉ gdil.map (·.qname)) :
    Booking conf (Function.update hi gdi.qname (lo gdi.qname)) hi gdi ∧
      Bookings conf lo (Function.update hi gdi.qname (lo gdi.qname)) gdil := by
  have hself : Function.update hi gdi.qname (lo gdi.qname) gdi.qname = lo gdi.qname :=
    Function.update_self ..
  have hother : ∀ g ∈ gdil, Function.update hi gdi.qname (lo gdi.qname) g.qname = hi g.qname :=
    fun g hg => Function.update_of_ne (fun heq => hnew (List.mem_map.mpr ⟨g, hg, heq⟩)) ..
  constructor
  · exact {
      nonneg := hself.symm ▸ h.nonneg gdi (.head _)
      granted := hself.symm ▸ h.granted gdi (.head _)
      small := h.small gdi (.head _)
      others := fun qi _ hne => (Function.update_of_ne hne ..).symm }
  · exact {
      nonneg := fun g hg => h.nonneg g (List.mem_cons_of_mem gdi hg)
      granted := fun g hg => (hother g hg).trans (h.granted g (List.mem_cons_of_mem gdi hg))
      small := fun g hg => (hother g hg).trans_lt (h.small g (List.mem_cons_of_mem gdi hg))
      others := by
        intro qi hqi hnot
        by_cases heq : qi.fullName = gdi.qname
        · rw [heq, hself]
        · rw [Function.update_of_ne heq]
          exact h.others qi hqi (by simp [heq, hnot]) }

theorem cqueueListXOnSubordinateGdil_cons {suspend : Bool} {sup : QInstance}
    (hsup : conf.queues.locateFullName gdi.qname = some sup) :
    cqueueListXOnSubordinateGdil conf used suspend (gdi :: gdil) sos =
      cqueueListXOnSubordinateGdil conf used suspend gdil
        (xOnSubordinateOf conf used suspend sup gdi sos) := by
  rw [cqueueListXOnSubordinateGdil, List.foldl_cons, hsup]
  rfl

theorem SosExact.congr (h : SosExact conf lo sos)
    (hsame : ∀ qi, conf.queues.Has qi → hi qi.fullName = lo qi.fullName) :
    SosExact conf hi sos := by
  intro sub hsub
  have heq : suspenders conf hi sub = suspenders conf lo sub :=
    Finset.filter_congr fun i _ => by
      rw [suspends_congr fun qi hlocate => hsame qi (has_of_locate hlocate)]
  rw [heq]
  exact h sub hsub

/-- **The loop at the start of a task** makes the counters exact for the slots with the task. -/
theorem exact_suspend (hgdil : GrantedFound conf gdil) (hb : Bookings conf lo hi gdil)
    (h : SosExact conf lo sos) :
    SosExact conf hi (cqueueListXOnSubordinateGdil conf hi true gdil sos) := by
  induction gdil generalizing lo sos with
  | nil => exact h.congr fun qi hqi => hb.others qi hqi List.not_mem_nil
  | cons gdi gdil ih =>
    obtain ⟨sup, hlocate, hhost⟩ := hgdil.found gdi (.head _)
    obtain ⟨hsup, hqname⟩ := locateFullName_spec hlocate
    obtain ⟨hfirst, hrest⟩ := hb.cons (List.nodup_cons.mp hgdil.distinct).1
    rw [cqueueListXOnSubordinateGdil_cons hlocate]
    apply ih hgdil.tail hrest
    exact h.book hfirst hsup hqname hhost (by rw [Function.update_self])

/-- **The loop at the end of a task** makes them exact for the slots without it. The slots are
those with the task, in every round. -/
theorem exact_unsuspend (hgdil : GrantedFound conf gdil) (hb : Bookings conf lo hi gdil)
    (h : SosExact conf hi sos) :
    SosExact conf lo (cqueueListXOnSubordinateGdil conf hi false gdil sos) := by
  -- the counters are exact for slots that are without the entries passed already
  suffices hpartial : ∀ used, (∀ gdi ∈ gdil, used gdi.qname = hi gdi.qname) →
      SosExact conf lo (cqueueListXOnSubordinateGdil conf used false gdil sos) from
    hpartial hi fun _ _ => rfl
  intro used hused
  induction gdil generalizing hi sos with
  | nil => exact h.congr fun qi hqi => (hb.others qi hqi List.not_mem_nil).symm
  | cons gdi gdil ih =>
    obtain ⟨sup, hlocate, hhost⟩ := hgdil.found gdi (.head _)
    obtain ⟨hsup, hqname⟩ := locateFullName_spec hlocate
    obtain ⟨hfirst, hrest⟩ := hb.cons_down (List.nodup_cons.mp hgdil.distinct).1
    rw [cqueueListXOnSubordinateGdil_cons hlocate]
    apply ih hgdil.tail hrest (h.unbook hfirst hsup hqname hhost (hused gdi (.head _)))
    intro g hg
    rw [hused g (List.mem_cons_of_mem gdi hg), Function.update_of_ne]
    exact fun heq => (List.nodup_cons.mp hgdil.distinct).1 (List.mem_map.mpr ⟨g, hg, heq⟩)

end Loop

/-! ## The slots of a task -/

/-- A task as it is ordered: enrolled, with slots on different queue instances. Nobody can request
`slots`. -/
structure SlotTask (task : Task) : Prop where
  enrolled : task.isEnrolled = true
  slots : ∀ gdi ∈ task.gdil, gdi.slots ≠ 0
  distinct : (task.gdil.map (·.qname)).Nodup
  noRequest : ∀ scope, jobGetHardRequest task.job sgeAttrSlots scope = none

def grantedSlots (task : Task) (fullName : String) : ℕ :=
  ((task.gdil.filter (·.qname = fullName)).map (·.slots)).sum

section Slots

variable {conf : SosConf} {task : Task} {fullName : String} {slots : ℤ}
  {isMasterTask doPerHostBooking : Bool} {config : List String} {actual : List Usage}

variable (hnone : ∀ scope, jobGetHardRequest task.job sgeAttrSlots scope = none)
include hnone

theorem slots_debits {parse : ParseUlongVal} {dcep : CEntry}
    (hyes : dcep.consumable = .yes) (hle : dcep.relop = .le)
    (hone : parse dcep.valtype dcep.defaultval = some 1) :
    consumableDebits parse task.job task.peObject sgeAttrSlots dcep slots isMasterTask =
      [⟨false, slots⟩] := by
  have hglobal : jobGetContributionByScope parse task.job sgeAttrSlots dcep .global = some 1 := by
    rw [jobGetContributionByScope, hnone, hone]
    rfl
  have hslots : consumableGetDebitSlots dcep.consumable slots = slots := by
    rw [hyes]
    rfl
  have hexplicit : explicitDebits parse task.job task.peObject sgeAttrSlots dcep slots
      isMasterTask = [(slots : ℚ)] := by
    unfold explicitDebits
    simp [hglobal, hslots, bookFor]
  rw [consumableDebits, hexplicit]
  simp [withImplicit, hle]

/-- The entry of `slots` is gone through once. -/
theorem slots_configTotal (hnodup : config.Nodup)
    (hknown : ∀ name ∈ config, (centryListLocate conf.conf.centries name).isSome) :
    configTotal conf.conf.parse conf.conf.centries task.job task.peObject slots isMasterTask
      doPerHostBooking false sgeAttrSlots config = if sgeAttrSlots ∈ config then slots else 0 := by
  obtain ⟨slotsEntry, hslots, hyes, hle, hone⟩ := conf.slots
  induction config with
  | nil => rfl
  | cons name config ih =>
    obtain ⟨dcep, hlocate⟩ := Option.isSome_iff_exists.mp (hknown name (.head _))
    obtain ⟨hnew, hnodup⟩ := List.nodup_cons.mp hnodup
    have ih := ih hnodup fun n hn => hknown n (List.mem_cons_of_mem name hn)
    unfold configTotal at ih ⊢
    rw [configDebits, hlocate]
    dsimp only
    rw [total_append, ih]
    by_cases hname : name = sgeAttrSlots
    · subst hname
      obtain rfl : slotsEntry = dcep := Option.some.inj (hslots.symm.trans hlocate)
      have hdo : consumableDoBooking slotsEntry.consumable isMasterTask doPerHostBooking =
          true := by
        rw [hyes]
        rfl
      rw [if_pos ⟨rfl, hdo⟩, slots_debits hnone hyes hle hone, if_neg hnew,
        if_pos (.head _)]
      simp [total_cons]
    · rw [if_neg fun h => hname h.1, total_nil, zero_add]
      simp [Ne.symm hname]

/-- The slots in use of a queue instance, where they have an element. -/
def slotsReading (conf : SosConf) (task : Task) (fullName : String) :
    PlaceReading conf.conf task (.queue fullName) (Consumables.Known sgeAttrSlots)
      (nowAt false sgeAttrSlots) :=
  let now := nowReading conf.conf task (.queue fullName) false sgeAttrSlots
  { now with
    host := fun hostName config slots isMasterTask doPerHostBooking hconfig =>
      ⟨fun _ => known_debitHost, fun actual _ =>
        (now.host hostName config slots isMasterTask doPerHostBooking hconfig).adds actual trivial⟩
    queue := fun config slots isMasterTask doPerHostBooking hconfig =>
      ⟨fun _ h => (known_rcDebit _ _ _).mpr (.inr h), fun actual _ =>
        (now.queue config slots isMasterTask doPerHostBooking hconfig).adds actual trivial⟩ }

theorem slots_gdil
    (sign : ℤ) (gdil : List Granted) (hfound : ∀ gdi ∈ gdil, (conf.conf.queues gdi.qname).isSome)
    (isMasterTask doPerGlobalHostBooking : Bool) (lastHostname : Option String) :
    (slotsReading conf task fullName).grant.gdil sign isMasterTask doPerGlobalHostBooking
      lastHostname gdil = (sign * ((gdil.filter (·.qname = fullName)).map (·.slots)).sum : ℤ) := by
  induction gdil generalizing isMasterTask doPerGlobalHostBooking lastHostname with
  | nil => simp [GrantReading.gdil]
  | cons gdi gdil ih =>
    obtain ⟨queue, hqueue⟩ := Option.isSome_iff_exists.mp (hfound gdi (.head _))
    obtain ⟨hnodup, hmem, hknown⟩ := conf.config gdi.qname queue hqueue
    have hconfig : conf.conf.configAt (.queue gdi.qname) = some queue.config := by
      rw [Conf.configAt, hqueue]
      rfl
    have hamount : (slotsReading conf task fullName).grant.amount gdi queue.qhostname
        (sign * gdi.slots) isMasterTask doPerGlobalHostBooking
        (hostDoPerHostBooking lastHostname queue.qhostname).1 =
        if gdi.qname = fullName then (sign * gdi.slots : ℤ) else 0 := by
      show PlaceReading.places _ _ _ _ _ _ _ = _
      simp only [PlaceReading.places, PlaceReading.hostAt, PlaceReading.queueAt, reduceCtorEq,
        if_false, zero_add, Place.queue.injEq, hconfig, Option.map_some, Option.getD_some,
        ite_self, add_zero, eq_comm (a := fullName)]
      split_ifs with heq
      · exact (slots_configTotal hnone hnodup hknown).trans (by rw [if_pos hmem])
      · rfl
    rw [GrantReading.gdil, hqueue]
    dsimp only
    rw [hamount, ih (fun g hg => hfound g (List.mem_cons_of_mem gdi hg)), List.filter_cons]
    by_cases heq : gdi.qname = fullName
    · simp [heq, mul_add]
    · simp [heq]

omit hnone

variable {gdil : List Granted}

/-- The queue instances of the task are found in both views of the master list. -/
theorem found_of_hosts (h : ∀ gdi ∈ gdil, ∃ qi, conf.queues.locateFullName gdi.qname = some qi ∧
      gdi.qhostname = qi.hostname) : ∀ gdi ∈ gdil, (conf.conf.queues gdi.qname).isSome := by
  intro gdi hgdi
  obtain ⟨qi, hlocate, -⟩ := h gdi hgdi
  have hhosts := conf.hosts gdi.qname
  rw [hlocate, Option.map_some] at hhosts
  obtain ⟨queue, hqueue, -⟩ := Option.map_eq_some_iff.mp hhosts
  exact Option.isSome_iff_exists.mpr ⟨queue, hqueue⟩

theorem slots_start (fullName : String) (htask : SlotTask task)
    (hfound : GrantedFound conf task.gdil) (har : arFound conf.conf task = true) :
    Posts (fun c : Cluster => Consumables.Known sgeAttrSlots (c.books (.queue fullName)))
      (fun c => nowAt false sgeAttrSlots (c.books (.queue fullName)))
      (sgeFollowOrderStart conf.conf task) (grantedSlots task fullName) := by
  refine ((slotsReading conf task fullName).grant.posts_start fun _ _ => ⟨id, rfl⟩).congr ?_
  rw [GrantReading.sent, if_pos har, slots_gdil htask.noRequest 1 task.gdil
    (found_of_hosts hfound.found), one_mul, Int.cast_natCast, grantedSlots]

theorem slots_clear (fullName : String) (htask : SlotTask task)
    (hfound : GrantedFound conf task.gdil) (har : arFound conf.conf task = true) :
    Posts (fun c : Cluster => Consumables.Known sgeAttrSlots (c.books (.queue fullName)))
      (fun c => nowAt false sgeAttrSlots (c.books (.queue fullName)))
      (Consumables.sgeClearGrantedResources conf.conf task) (-grantedSlots task fullName) := by
  refine ((slotsReading conf task fullName).grant.posts_clear fun _ _ => ⟨id, rfl⟩).congr ?_
  rw [if_pos htask.enrolled, GrantReading.sent, if_pos har,
    slots_gdil htask.noRequest (-1) task.gdil (found_of_hosts hfound.found), neg_one_mul,
    Int.cast_neg, Int.cast_natCast, grantedSlots]

theorem qinstanceSlotsUsed_eq {n : ℕ} (hknown : Consumables.Known sgeAttrSlots actual)
    (hnow : nowAt false sgeAttrSlots actual = n) : qinstanceSlotsUsed actual = n := by
  obtain ⟨slots, hslots⟩ := Option.isSome_iff_exists.mp hknown
  rw [nowAt, usageAt, hslots] at hnow
  have hutilized : slots.utilizedNow = n := hnow
  rw [qinstanceSlotsUsed, hslots]
  simp [hutilized]

variable {gdi : Granted}

theorem filter_qname (hdistinct : (gdil.map (·.qname)).Nodup)
    (hgdi : gdi ∈ gdil) : gdil.filter (·.qname = gdi.qname) = [gdi] := by
  induction gdil with
  | nil => cases hgdi
  | cons g gdil ih =>
    obtain ⟨hnew, hdistinct⟩ := List.nodup_cons.mp hdistinct
    rcases List.mem_cons.mp hgdi with rfl | hmem
    · rw [List.filter_cons, if_pos (by simp), List.filter_eq_nil_iff.mpr]
      intro g hg heq
      exact hnew (List.mem_map.mpr ⟨g, hg, of_decide_eq_true heq⟩)
    · have hne : g.qname ≠ gdi.qname := fun heq =>
        hnew (List.mem_map.mpr ⟨gdi, hmem, heq.symm⟩)
      rw [List.filter_cons, if_neg (by simpa using hne), ih hdistinct hmem]

theorem grantedSlots_mem (hdistinct : (task.gdil.map (·.qname)).Nodup)
    (hgdi : gdi ∈ task.gdil) : grantedSlots task gdi.qname = gdi.slots := by
  rw [grantedSlots, filter_qname hdistinct hgdi]
  rfl

theorem grantedSlots_of_notMem (h : fullName ∉ task.gdil.map (·.qname)) :
    grantedSlots task fullName = 0 := by
  have hnone : task.gdil.filter (·.qname = fullName) = [] := by
    rw [List.filter_eq_nil_iff]
    intro gdi hgdi heq
    exact h (List.mem_map.mpr ⟨gdi, hgdi, of_decide_eq_true heq⟩)
  rw [grantedSlots, hnone]
  rfl

end Slots

/-! ## Runs -/

/-- No threshold is reached with the slots of the task that is not reached without them. -/
def CrossesNothing (conf : SosConf) (used : String → ℤ) (task : Task) : Prop :=
  ∀ gdi ∈ task.gdil, ∀ sup, conf.queues.locateFullName gdi.qname = some sup →
    ∀ sub, conf.queues.Has sub → crosses conf used sup sub gdi = false

/-- A failed delivery crosses nothing, and a task is started where the number of slots is a
positive `int`. -/
def KeepsCount (conf : SosConf) (s : SosState) (task : Task) (delivered : Bool) : Prop :=
  (delivered = false → CrossesNothing conf (slotsUsed s.cluster) task) ∧
    (delivered = true → ∀ gdi ∈ task.gdil, conf.jobSlots gdi.qname < 2 ^ 31)

/-- The states that start orders which meet `C` and ends of tasks lead to. In the beginning
nothing is booked, and the counters are those the queue instances were created with. -/
inductive SosRun (conf : SosConf) (C : SosState → Task → Bool → Prop) : SosState → Prop
  | start {s} (hidle : s.running = [])
      (hbooks : ∀ qi, conf.queues.Has qi →
        Consumables.Known sgeAttrSlots (s.cluster.books (.queue qi.fullName)) ∧
          nowAt false sgeAttrSlots (s.cluster.books (.queue qi.fullName)) = 0)
      (hexact : SosExact conf (slotsUsed s.cluster) s.sos) : SosRun conf C s
  | order (s : SosState) (task : Task) (delivered : Bool) (hrun : SosRun conf C s)
      (htask : SlotTask task) (hcond : C s task delivered) :
      SosRun conf C (followStartOrder conf task delivered s)
  | ended {s} (task : Task) (before after : List Task) (hrun : SosRun conf C s)
      (hrunning : s.running = before ++ task :: after) :
      SosRun conf C { clearGrantedResources conf true task s with running := before ++ after }

def runningSlots (running : List Task) (fullName : String) : ℕ :=
  (running.map (grantedSlots · fullName)).sum

/-- What holds between the steps: what is booked are the slots of the running tasks. -/
structure SosInv (conf : SosConf) (s : SosState) : Prop where
  known : ∀ qi, conf.queues.Has qi →
    Consumables.Known sgeAttrSlots (s.cluster.books (.queue qi.fullName))
  booked : ∀ qi, conf.queues.Has qi →
    nowAt false sgeAttrSlots (s.cluster.books (.queue qi.fullName)) =
      runningSlots s.running qi.fullName
  bounded : ∀ qi, conf.queues.Has qi →
    runningSlots s.running qi.fullName ≤ conf.jobSlots qi.fullName
  small : ∀ qi, conf.queues.Has qi → runningSlots s.running qi.fullName < 2 ^ 31
  tasks : ∀ task ∈ s.running, SlotTask task ∧ GrantedFound conf task.gdil ∧
    arFound conf.conf task = true
  exact : SosExact conf (slotsUsed s.cluster) s.sos

section Run

variable {conf : SosConf} {s : SosState} {task : Task} {qi : QInstance}

theorem SosInv.used (h : SosInv conf s) (hqi : conf.queues.Has qi) :
    slotsUsed s.cluster qi.fullName = runningSlots s.running qi.fullName :=
  qinstanceSlotsUsed_eq (h.known qi hqi) (h.booked qi hqi)

theorem grantedFound_of_accepts (h : acceptsOrder conf task s = true) (htask : SlotTask task) :
    GrantedFound conf task.gdil where
  distinct := htask.distinct
  found := by
    intro gdi hgdi
    have hgdi := List.all_eq_true.mp (Bool.and_eq_true_iff.mp h).2 gdi hgdi
    cases hlocate : conf.queues.locateFullName gdi.qname with
    | none => simp [hlocate] at hgdi
    | some qi =>
      simp only [hlocate, Bool.and_eq_true, decide_eq_true_eq] at hgdi
      exact ⟨qi, rfl, hgdi.1⟩

theorem SosInv.free (h : SosInv conf s) (haccepts : acceptsOrder conf task s = true)
    {gdi : Granted} (hgdi : gdi ∈ task.gdil) (hslots : conf.jobSlots gdi.qname < 2 ^ 31) :
    runningSlots s.running gdi.qname + gdi.slots ≤ conf.jobSlots gdi.qname := by
  have hgdi := List.all_eq_true.mp (Bool.and_eq_true_iff.mp haccepts).2 gdi hgdi
  cases hlocate : conf.queues.locateFullName gdi.qname with
  | none => simp [hlocate] at hgdi
  | some qi =>
    obtain ⟨hqi, hname⟩ := locateFullName_spec hlocate
    have hused := h.used hqi
    have hbounded := h.bounded qi hqi
    rw [← hname] at hused hbounded
    simp only [hlocate, Bool.and_eq_true, decide_eq_true_eq, hused] at hgdi
    have hfree := hgdi.2
    rw [Int.emod_eq_of_lt (by omega) (by omega)] at hfree
    omega

theorem runningSlots_cons (task : Task) (running : List Task) (fullName : String) :
    runningSlots (task :: running) fullName =
      runningSlots running fullName + grantedSlots task fullName := by
  rw [runningSlots, List.map_cons, List.sum_cons, add_comm]
  rfl

theorem runningSlots_split (before after : List Task) (task : Task) (fullName : String) :
    runningSlots (before ++ task :: after) fullName =
      runningSlots (before ++ after) fullName + grantedSlots task fullName := by
  simp only [runningSlots, List.map_append, List.map_cons, List.sum_append, List.sum_cons]
  ring

theorem bookings_of_slots {lo hi : String → ℤ} (hfound : GrantedFound conf task.gdil)
    (hgranted : ∀ qi, conf.queues.Has qi →
      hi qi.fullName = lo qi.fullName + grantedSlots task qi.fullName)
    (hlo : ∀ qi, conf.queues.Has qi → 0 ≤ lo qi.fullName)
    (hhi : ∀ qi, conf.queues.Has qi → hi qi.fullName < 2 ^ 31) : Bookings conf lo hi task.gdil := by
  have hhas : ∀ gdi ∈ task.gdil, ∃ qi, conf.queues.Has qi ∧ gdi.qname = qi.fullName := by
    intro gdi hgdi
    obtain ⟨qi, hlocate, -⟩ := hfound.found gdi hgdi
    exact ⟨qi, locateFullName_spec hlocate⟩
  constructor
  · intro gdi hgdi
    obtain ⟨qi, hqi, hname⟩ := hhas gdi hgdi
    rw [hname]
    exact hlo qi hqi
  · intro gdi hgdi
    obtain ⟨qi, hqi, hname⟩ := hhas gdi hgdi
    rw [hname, hgranted qi hqi, ← hname, grantedSlots_mem hfound.distinct hgdi]
  · intro gdi hgdi
    obtain ⟨qi, hqi, hname⟩ := hhas gdi hgdi
    rw [hname]
    exact hhi qi hqi
  · intro qi hqi hnot
    rw [hgranted qi hqi, grantedSlots_of_notMem hnot, Nat.cast_zero, add_zero]

theorem SosInv.idle (hidle : s.running = []) (hbooks : ∀ qi, conf.queues.Has qi →
      Consumables.Known sgeAttrSlots (s.cluster.books (.queue qi.fullName)) ∧
        nowAt false sgeAttrSlots (s.cluster.books (.queue qi.fullName)) = 0)
    (hexact : SosExact conf (slotsUsed s.cluster) s.sos) : SosInv conf s := by
  have hzero : ∀ fullName, runningSlots s.running fullName = 0 := by
    intro fullName
    rw [hidle]
    rfl
  constructor
  · exact fun qi hqi => (hbooks qi hqi).1
  · intro qi hqi
    rw [(hbooks qi hqi).2, hzero, Nat.cast_zero]
  · intro qi _
    rw [hzero]
    exact Nat.zero_le _
  · intro qi _
    rw [hzero]
    exact Nat.two_pow_pos 31
  · rw [hidle]
    exact List.forall_mem_nil _
  · exact hexact

theorem SosInv.sent (h : SosInv conf s) (htask : SlotTask task)
    (haccepts : acceptsOrder conf task s = true)
    (hslots : ∀ gdi ∈ task.gdil, conf.jobSlots gdi.qname < 2 ^ 31) :
    SosInv conf (followStartOrder conf task true s) := by
  have hfound := grantedFound_of_accepts haccepts htask
  have har : arFound conf.conf task = true := (Bool.and_eq_true_iff.mp haccepts).1
  have hafter : followStartOrder conf task true s =
      ⟨sgeFollowOrderStart conf.conf task s.cluster,
        cqueueListXOnSubordinateGdil conf (slotsUsed (sgeFollowOrderStart conf.conf task s.cluster))
          true task.gdil s.sos, task :: s.running⟩ := by
    rw [followStartOrder, if_pos haccepts, if_pos rfl]
  have hposts := fun qi : QInstance => slots_start qi.fullName htask hfound har
  have hknown := fun qi hqi => (hposts qi).keeps s.cluster (h.known qi hqi)
  have hbooked : ∀ qi, conf.queues.Has qi →
      nowAt false sgeAttrSlots ((sgeFollowOrderStart conf.conf task s.cluster).books
        (.queue qi.fullName)) = runningSlots (task :: s.running) qi.fullName := by
    intro qi hqi
    rw [(hposts qi).adds s.cluster (h.known qi hqi), h.booked qi hqi, runningSlots_cons,
      Nat.cast_add]
  have hused : ∀ qi, conf.queues.Has qi →
      slotsUsed (sgeFollowOrderStart conf.conf task s.cluster) qi.fullName =
        runningSlots (task :: s.running) qi.fullName :=
    fun qi hqi => qinstanceSlotsUsed_eq (hknown qi hqi) (hbooked qi hqi)
  have hfree : ∀ qi, conf.queues.Has qi →
      runningSlots (task :: s.running) qi.fullName ≤ conf.jobSlots qi.fullName ∧
        runningSlots (task :: s.running) qi.fullName < 2 ^ 31 := by
    intro qi hqi
    rw [runningSlots_cons]
    by_cases hmem : qi.fullName ∈ task.gdil.map (·.qname)
    · obtain ⟨gdi, hgdi, hname⟩ := List.mem_map.mp hmem
      have hlimit := h.free haccepts hgdi (hslots gdi hgdi)
      rw [← hname, grantedSlots_mem htask.distinct hgdi]
      exact ⟨hlimit, hlimit.trans_lt (hslots gdi hgdi)⟩
    · rw [grantedSlots_of_notMem hmem]
      exact ⟨h.bounded qi hqi, h.small qi hqi⟩
  rw [hafter]
  refine ⟨hknown, hbooked, fun qi hqi => (hfree qi hqi).1, fun qi hqi => (hfree qi hqi).2, ?_, ?_⟩
  · intro t ht
    rcases List.mem_cons.mp ht with rfl | hmem
    · exact ⟨htask, hfound, har⟩
    · exact h.tasks t hmem
  · apply exact_suspend hfound _ h.exact
    apply bookings_of_slots hfound
    · intro qi hqi
      rw [hused qi hqi, h.used hqi, runningSlots_cons, Nat.cast_add]
    · intro qi hqi
      rw [h.used hqi]
      exact Int.natCast_nonneg _
    · intro qi hqi
      rw [hused qi hqi]
      exact_mod_cast (hfree qi hqi).2

theorem unsuspend_of_crossesNothing {used : String → ℤ} {gdil : List Granted}
    {sos : String → Sos} (hfound : ∀ gdi ∈ gdil, ∃ qi,
      conf.queues.locateFullName gdi.qname = some qi ∧ gdi.qhostname = qi.hostname)
    (hcross : ∀ gdi ∈ gdil, ∀ sup, conf.queues.locateFullName gdi.qname = some sup →
      ∀ sub, conf.queues.Has sub → crosses conf used sup sub gdi = false)
    (hqi : conf.queues.Has qi) :
    cqueueListXOnSubordinateGdil conf used false gdil sos qi.fullName = sos qi.fullName := by
  induction gdil generalizing sos with
  | nil => rfl
  | cons gdi gdil ih =>
    obtain ⟨sup, hlocate, hhost⟩ := hfound gdi (.head _)
    obtain ⟨hsup, hname⟩ := locateFullName_spec hlocate
    rw [cqueueListXOnSubordinateGdil_cons hlocate,
      ih (fun g hg => hfound g (List.mem_cons_of_mem gdi hg))
        (fun g hg => hcross g (List.mem_cons_of_mem gdi hg)),
      xOnSubordinateOf_apply hsup hname hhost,
      hcross gdi (.head _) sup hlocate qi hqi, if_neg Bool.false_ne_true]

theorem SosInv.failed (h : SosInv conf s) (htask : SlotTask task)
    (haccepts : acceptsOrder conf task s = true)
    (hcross : CrossesNothing conf (slotsUsed s.cluster) task) :
    SosInv conf (followStartOrder conf task false s) := by
  have hfound := grantedFound_of_accepts haccepts htask
  have hafter : followStartOrder conf task false s = { s with
      sos := cqueueListXOnSubordinateGdil conf (slotsUsed s.cluster) false task.gdil s.sos } := by
    rw [followStartOrder, if_pos haccepts, if_neg Bool.false_ne_true, clearGrantedResources,
      if_pos htask.enrolled, if_neg Bool.false_ne_true]
  have hexact : SosExact conf (slotsUsed s.cluster)
      (cqueueListXOnSubordinateGdil conf (slotsUsed s.cluster) false task.gdil s.sos) := by
    intro qi hqi
    rw [unsuspend_of_crossesNothing hfound.found hcross hqi]
    exact h.exact qi hqi
  rw [hafter]
  exact { h with exact := hexact }

theorem SosInv.ended {before after : List Task} (h : SosInv conf s)
    (hrunning : s.running = before ++ task :: after) :
    SosInv conf { clearGrantedResources conf true task s with running := before ++ after } := by
  have hmem : task ∈ s.running := hrunning ▸ List.mem_append_right before (.head _)
  obtain ⟨htask, hfound, har⟩ := h.tasks task hmem
  have hslots : ∀ fullName, runningSlots s.running fullName =
      runningSlots (before ++ after) fullName + grantedSlots task fullName := by
    intro fullName
    rw [hrunning, runningSlots_split]
  have hafter : clearGrantedResources conf true task s = { s with
      sos := cqueueListXOnSubordinateGdil conf (slotsUsed s.cluster) false task.gdil s.sos
      cluster := Consumables.sgeClearGrantedResources conf.conf task s.cluster } := by
    rw [clearGrantedResources, if_pos htask.enrolled, if_pos rfl]
  have hposts := fun qi : QInstance => slots_clear qi.fullName htask hfound har
  have hknown := fun qi hqi => (hposts qi).keeps s.cluster (h.known qi hqi)
  have hbooked : ∀ qi, conf.queues.Has qi →
      nowAt false sgeAttrSlots ((Consumables.sgeClearGrantedResources conf.conf task s.cluster).books
        (.queue qi.fullName)) = runningSlots (before ++ after) qi.fullName := by
    intro qi hqi
    rw [(hposts qi).adds s.cluster (h.known qi hqi), h.booked qi hqi, hslots, Nat.cast_add]
    ring
  have hused : ∀ qi, conf.queues.Has qi →
      slotsUsed (Consumables.sgeClearGrantedResources conf.conf task s.cluster) qi.fullName =
        runningSlots (before ++ after) qi.fullName :=
    fun qi hqi => qinstanceSlotsUsed_eq (hknown qi hqi) (hbooked qi hqi)
  have hle : ∀ fullName, runningSlots (before ++ after) fullName ≤
      runningSlots s.running fullName := by
    intro fullName
    rw [hslots]
    exact Nat.le_add_right _ _
  rw [hafter]
  refine ⟨hknown, hbooked, fun qi hqi => (hle _).trans (h.bounded qi hqi),
    fun qi hqi => (hle _).trans_lt (h.small qi hqi), ?_, ?_⟩
  · intro t ht
    apply h.tasks t
    rw [hrunning]
    exact List.mem_append.mpr ((List.mem_append.mp ht).imp_right (List.mem_cons_of_mem task))
  · apply exact_unsuspend hfound _ h.exact
    apply bookings_of_slots hfound
    · intro qi hqi
      rw [hused qi hqi, h.used hqi, hslots, Nat.cast_add]
    · intro qi hqi
      rw [hused qi hqi]
      exact Int.natCast_nonneg _
    · intro qi hqi
      rw [h.used hqi]
      exact_mod_cast h.small qi hqi

theorem SosRun.inv (hrun : SosRun conf (KeepsCount conf) s) : SosInv conf s := by
  induction hrun with
  | start hidle hbooks hexact => exact SosInv.idle hidle hbooks hexact
  | order s task delivered _ htask hcond ih =>
    by_cases haccepts : acceptsOrder conf task s = true
    · cases delivered with
      | true => exact ih.sent htask haccepts (hcond.2 rfl)
      | false => exact ih.failed htask haccepts (hcond.1 rfl)
    · rw [followStartOrder, if_neg haccepts]
      exact ih
  | ended task before after _ hrunning ih => exact ih.ended hrunning

/-- **The counters are exact in every run** whose failed deliveries cross no threshold. -/
theorem exact_run (hrun : SosRun conf (KeepsCount conf) s) :
    (∀ qi, conf.queues.Has qi →
      (s.sos qi.fullName).counter = (suspenders conf (slotsUsed s.cluster) qi).card) ∧
    ∀ qi, conf.queues.Has qi →
      ((s.sos qi.fullName).suspOnSub = true ↔
        0 < (suspenders conf (slotsUsed s.cluster) qi).card) := by
  constructor
  · intro qi hqi
    exact (hrun.inv.exact qi hqi).1
  · intro qi hqi
    obtain ⟨hcounter, hstate⟩ := hrun.inv.exact qi hqi
    rw [← hcounter]
    exact hstate

end Run

/-! ## A queue that suspends another one at two slots -/

def busyInstance : QInstance := ⟨"busy.q", "node", [⟨"low.q", 2, 0, 0, 0⟩]⟩

def lowInstance : QInstance := ⟨"low.q", "node", []⟩

def sosQueues : ClusterQueueList where
  cqueues := [⟨"busy.q", [busyInstance], by decide⟩, ⟨"low.q", [lowInstance], by decide⟩]
  unique := by decide

theorem has_sosQueues {qi : QInstance} (h : sosQueues.Has qi) :
    qi = busyInstance ∨ qi = lowInstance := by
  obtain ⟨cqueue, hmem, -, hlocate⟩ := locateQinstance_iff.mp h
  have hqi := List.mem_of_find?_eq_some hlocate
  rcases List.mem_cons.mp hmem with rfl | hmem
  · exact .inl (List.mem_singleton.mp hqi)
  · obtain rfl := List.mem_singleton.mp hmem
    exact .inr (List.mem_singleton.mp hqi)

def sosConf : SosConf where
  conf := {
    parse := parseDigit
    centries := [slotsCEntry "1"]
    env := ⟨fun _ _ => true, fun host => host⟩
    hosts := fun _ => none
    queues := fun name =>
      (sosQueues.locateFullName name).map fun qi => ⟨qi.hostname, [sgeAttrSlots]⟩
    ars := fun _ => none
    pes := [] }
  queues := sosQueues
  jobSlots := fun _ => 10
  few := by decide
  names := by decide
  queueWise := by
    intro qi hqi
    rcases has_sosQueues hqi with rfl | rfl
    · decide
    · decide
  hosts := fun fullName => by rw [Option.map_map]; rfl
  slots := ⟨slotsCEntry "1", by decide, rfl, rfl, by decide⟩
  config := by
    intro fullName queue hqueue
    obtain ⟨qi, -, rfl⟩ := Option.map_eq_some_iff.mp hqueue
    refine ⟨List.nodup_singleton _, List.mem_singleton_self _, fun name hname => ?_⟩
    obtain rfl := List.mem_singleton.mp hname
    exact rfl

/-- Nothing runs and nothing is suspended. -/
def idleSos : SosState where
  cluster := ⟨fun _ => [Usage.new sgeAttrSlots], [], fun _ => 0⟩
  sos := fun _ => ⟨0, false⟩
  running := []

def busyTask (slots : ℕ) : Task :=
  ⟨plainJob, true, none, none, [⟨"busy.q@node", "node", slots⟩], []⟩

theorem busyTask_slotTask {slots : ℕ} (h : slots ≠ 0) : SlotTask (busyTask slots) where
  enrolled := rfl
  slots := by
    intro gdi hgdi
    obtain rfl := List.mem_singleton.mp hgdi
    exact h
  distinct := List.nodup_singleton _
  noRequest := fun _ => rfl

theorem idleSos_run (C : SosState → Task → Bool → Prop) : SosRun sosConf C idleSos := by
  apply SosRun.start rfl
  · exact fun _ _ => ⟨rfl, rfl⟩
  · intro qi hqi
    rcases has_sosQueues hqi with rfl | rfl
    · decide +kernel
    · decide +kernel

/-- A task on two slots suspends the subordinate. -/
theorem exact_run_started :
    let s := followStartOrder sosConf (busyTask 2) true idleSos
    ((s.sos lowInstance.fullName).counter =
      (suspenders sosConf (slotsUsed s.cluster) lowInstance).card) ∧
    (s.sos lowInstance.fullName).suspOnSub = true := by
  have hrun : SosRun sosConf (KeepsCount sosConf)
      (followStartOrder sosConf (busyTask 2) true idleSos) :=
    .order idleSos (busyTask 2) true (idleSos_run _) (busyTask_slotTask (by decide))
      ⟨nofun, fun _ _ _ => show 10 < 2 ^ 31 by decide⟩
  have hlow : sosConf.queues.Has lowInstance := rfl
  obtain ⟨hcounter, hstate⟩ := exact_run hrun
  exact ⟨hcounter lowInstance hlow, (hstate lowInstance hlow).mpr (by decide +kernel)⟩

/-- Two tasks on a slot each run, and a third one does not reach its host: the queue instance
resumes its subordinate. -/
theorem not_exact_run :
    ¬ ∀ (conf : SosConf) (s : SosState), SosRun conf (fun _ _ _ => True) s →
      (∀ qi, conf.queues.Has qi →
        (s.sos qi.fullName).counter = (suspenders conf (slotsUsed s.cluster) qi).card) ∧
      ∀ qi, conf.queues.Has qi →
        ((s.sos qi.fullName).suspOnSub = true ↔
          0 < (suspenders conf (slotsUsed s.cluster) qi).card) := by
  intro h
  have htask : SlotTask (busyTask 1) := busyTask_slotTask (by decide)
  have hrun := SosRun.order _ (busyTask 1) false
    (.order _ (busyTask 1) true
      (.order _ (busyTask 1) true (idleSos_run fun _ _ _ => True) htask trivial) htask trivial)
    htask trivial
  have hlow : sosConf.queues.Has lowInstance := rfl
  have hcounter := (h sosConf _ hrun).1 lowInstance hlow
  revert hcounter
  decide +kernel

end ClusterScheduler.Qmaster
