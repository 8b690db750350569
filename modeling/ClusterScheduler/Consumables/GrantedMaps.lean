import ClusterScheduler.Consumables.Tasks

/-!
# Instances of resource maps in use

A task is granted instances of resource maps for each of its hosts. They are booked
with every granted queue instance, although the grants of a host are its grants for all
of them.

* `grantedIds` — what a task was granted of an instance at a host.
* `hostBookings` — how often the grants of a host are booked for a task.
* `TaskState`, `TaskStep` — tasks are sent and end, in any order.
* `sent_instances` — a task books its grants once for each of these.
* `booked_instances_granted` — in runs of tasks that book each host once, what is in use
  is what is granted.
-/

namespace ClusterScheduler.Consumables

open Foundation Sched

/-! ## What is granted -/

def grantedIds (grants : List GrantedResource) (hostName name inst : String) : ℕ :=
  ((grants.filter fun gru => gru.host = hostName ∧ gru.type = .resourceMap).map fun gru =>
    if name = gru.name then ((gru.resourceMapList.filter (inst = ·.value)).map Resl.amount).sum
    else 0).sum

section Granted

variable {conf : Conf} {task : Task} {grants : List GrantedResource}
  {hostName name inst : String} {slots sign : ℤ}

theorem sum_signedAmount (h : 0 ≤ slots) (l : List Resl) :
    (l.map fun resl => if inst = resl.value then signedAmount slots resl else 0).sum =
      (((l.filter (inst = ·.value)).map Resl.amount).sum : ℕ) := by
  induction l with
  | nil => exact Nat.cast_zero.symm
  | cons resl l ih =>
    rw [List.map_cons, List.sum_cons, ih]
    by_cases hi : inst = resl.value
    · have hsigned : signedAmount slots resl = (resl.amount : ZMod (2 ^ 32)) :=
        if_neg (by omega)
      rw [List.filter_cons_of_pos (by simpa using hi), if_pos hi, hsigned, List.map_cons,
        List.sum_cons, Nat.cast_add]
    · rw [List.filter_cons_of_neg (by simpa using hi), if_neg hi, zero_add]

theorem grantedAmount_of_nonneg (h : 0 ≤ slots) :
    grantedAmount grants hostName name inst slots = (grantedIds grants hostName name inst : ℕ) := by
  unfold grantedAmount grantedIds
  generalize (grants.filter _) = l
  induction l with
  | nil => exact Nat.cast_zero.symm
  | cons gru l ih =>
    rw [List.map_cons, List.sum_cons, ih, List.map_cons, List.sum_cons, Nat.cast_add]
    congr 1
    by_cases hname : name = gru.name
    · simp only [hname, true_and, if_true]
      exact sum_signedAmount h gru.resourceMapList
    · simp [hname]

theorem grantedAmount_of_neg (h : slots < 0) :
    grantedAmount grants hostName name inst slots =
      -(grantedIds grants hostName name inst : ZMod (2 ^ 32)) := by
  have hneg : grantedAmount grants hostName name inst (- -slots) =
      -grantedAmount grants hostName name inst (-slots) := grantedAmount_neg (by omega)
  rwa [neg_neg, grantedAmount_of_nonneg (show 0 ≤ -slots by omega)] at hneg

end Granted

/-! ## How often grants are booked -/

/-- How often the grants of a host are booked with a list of granted queue instances: for
each one on the host, and the grants of the global host for each one at all. -/
def hostBookings (conf : Conf) (hostName : String) (l : List Granted) : ℕ :=
  (l.map fun g =>
    match conf.queues g.qname with
    | none => 0
    | some queue => (if hostName = sgeGlobalName then 1 else 0) +
        if hostName = queue.qhostname then 1 else 0).sum

section Bookings

variable {conf : Conf} {task : Task} {hostName name inst : String} {slots sign : ℤ} {known : Prop}
  [Decidable known]

/-- What one booking of a host adds to an instance. -/
def hostGrants (conf : Conf) (task : Task) (hostName name inst : String) (known : Prop)
    [Decidable known] (slots : ℤ) : ZMod (2 ^ 32) :=
  ((conf.hosts hostName).map fun config =>
    mapTotal conf.centries config known task.grants hostName name inst slots).getD 0

theorem hostGrants_sign (hsign : sign = 1 ∨ sign = -1) (hslots : 0 < slots) :
    hostGrants conf task hostName name inst known (sign * slots) =
      hostGrants conf task hostName name inst known sign := by
  have hamount : grantedAmount task.grants hostName name inst (sign * slots) =
      grantedAmount task.grants hostName name inst sign := by
    rcases hsign with rfl | rfl
    · rw [grantedAmount_of_nonneg (by omega), grantedAmount_of_nonneg (by omega)]
    · rw [grantedAmount_of_neg (by omega), grantedAmount_of_neg (by omega)]
  unfold hostGrants mapTotal
  rw [hamount]

theorem places_eq (hgrants : GrantsOk task.grants) (g : Granted) (qhostname : String)
    (isMasterTask doPerGlobalHostBooking doPerHostBooking : Bool) :
    (mapReading conf task (.host hostName) name inst known hgrants).places g qhostname slots
      isMasterTask doPerGlobalHostBooking doPerHostBooking =
      ((if hostName = sgeGlobalName then 1 else 0) + if hostName = qhostname then 1 else 0 : ℕ) •
        hostGrants conf task hostName name inst known slots := by
  have hhost : ∀ host doPerHostBooking,
      (mapReading conf task (.host hostName) name inst known hgrants).hostAt (.host host) host
        slots isMasterTask doPerHostBooking =
      (if hostName = host then 1 else 0 : ℕ) •
        hostGrants conf task hostName name inst known slots := by
    intro host doPerHostBooking
    unfold PlaceReading.hostAt
    by_cases h : hostName = host
    · rw [if_pos (congrArg Place.host h), if_pos h, one_smul, ← h]
      rfl
    · rw [if_neg fun heq => h (Place.host.inj heq), if_neg h, zero_smul]
  have har : ∀ ar host doPerHostBooking,
      (mapReading conf task (.host hostName) name inst known hgrants).hostAt (.arHost ar host) host
        slots isMasterTask doPerHostBooking = 0 := fun _ _ _ => if_neg fun heq => nomatch heq
  have hqueue : ∀ place doPerHostBooking,
      (mapReading conf task (.host hostName) name inst known hgrants).queueAt place slots
        isMasterTask doPerHostBooking = 0 := by
    intro place doPerHostBooking
    unfold PlaceReading.queueAt
    split_ifs
    · cases conf.configAt place <;> rfl
    · rfl
  unfold PlaceReading.places
  simp only [hhost, har, hqueue, add_zero, ite_self]
  exact (add_smul ..).symm

/-- **The grants of a host are booked once for each of its bookings.** -/
theorem gdil_eq (hgrants : GrantsOk task.grants) (hsign : sign = 1 ∨ sign = -1)
    (l : List Granted) (hslots : ∀ g ∈ l, g.slots ≠ 0)
    (isMasterTask doPerGlobalHostBooking : Bool) (lastHostname : Option String) :
    (mapReading conf task (.host hostName) name inst known hgrants).grant.gdil sign isMasterTask
      doPerGlobalHostBooking lastHostname l =
      hostBookings conf hostName l • hostGrants conf task hostName name inst known sign := by
  induction l generalizing isMasterTask doPerGlobalHostBooking lastHostname with
  | nil => exact (zero_smul ℕ _).symm
  | cons g l ih =>
    have ih := ih fun g hg => hslots g (.tail _ hg)
    have hpos : 0 < (g.slots : ℤ) := by
      have := hslots g (.head _)
      omega
    unfold GrantReading.gdil hostBookings
    rw [List.map_cons, List.sum_cons, add_smul]
    cases conf.queues g.qname with
    | none =>
      rw [zero_smul, zero_add]
      exact ih false false lastHostname
    | some queue =>
      refine congrArg₂ (· + ·) ?_ (ih false false _)
      rw [← hostGrants_sign hsign hpos]
      exact places_eq hgrants g queue.qhostname isMasterTask doPerGlobalHostBooking _

end Bookings

/-! ## Runs -/

/-- A task as it is sent: enrolled, in an advance reservation that is there, with slots on
each granted queue instance and instances of maps that its hosts have. -/
structure Sendable (conf : Conf) (task : Task) : Prop where
  enrolled : task.isEnrolled = true
  ar : arFound conf task = true
  slots : ∀ g ∈ task.gdil, g.slots ≠ 0
  grants : GrantsOk task.grants
  configured : ∀ gru ∈ task.grants, gru.type = .resourceMap →
    ∃ config, conf.hosts gru.host = some config ∧ gru.name ∈ ensured conf.centries config

/-- The hosts with granted instances are booked once: one granted queue instance on each of
them, and one in all if instances of the global host were granted. -/
def BookedOnce (conf : Conf) (task : Task) : Prop :=
  ∀ gru ∈ task.grants, gru.type = .resourceMap → hostBookings conf gru.host task.gdil = 1

/-- What is booked, and the tasks that were sent and did not end. -/
structure TaskState where
  booked : List Task
  cluster : Cluster

inductive TaskStep (conf : Conf) (P : Task → Prop) : TaskState → TaskState → Prop where
  | sent (s : TaskState) (task : Task) (h : P task) :
      TaskStep conf P s ⟨task :: s.booked, sgeCommitJobSent conf task s.cluster⟩
  | clear (before after : List Task) (task : Task) (c : Cluster) :
      TaskStep conf P ⟨before ++ task :: after, c⟩
        ⟨before ++ after, sgeClearGrantedResources conf task c⟩

def bookedIds (booked : List Task) (hostName name inst : String) : ℕ :=
  (booked.map fun task => grantedIds task.grants hostName name inst).sum

section Runs

variable {conf : Conf} {task : Task} {hostName name inst : String} {sign : ℤ} {known : Prop}
  [Decidable known]

theorem grantedIds_cases (hsend : Sendable conf task) (honce : BookedOnce conf task) :
    grantedIds task.grants hostName name inst = 0 ∨
      hostBookings conf hostName task.gdil = 1 ∧
        ∃ config, conf.hosts hostName = some config ∧ name ∈ ensured conf.centries config := by
  by_cases hgru : ∃ gru ∈ task.grants, gru.host = hostName ∧ gru.type = .resourceMap ∧
      gru.name = name
  · obtain ⟨gru, hm, rfl, htype, rfl⟩ := hgru
    exact Or.inr ⟨honce gru hm htype, hsend.configured gru hm htype⟩
  · refine Or.inl (List.sum_eq_zero fun x hx => ?_)
    obtain ⟨gru, hm, rfl⟩ := List.mem_map.mp hx
    obtain ⟨hm, hp⟩ := List.mem_filter.mp hm
    obtain ⟨hhost, htype⟩ := of_decide_eq_true hp
    exact if_neg fun hname => hgru ⟨gru, hm, hhost, htype, hname.symm⟩

theorem hostGrants_eq {config : List String} (hconfig : conf.hosts hostName = some config)
    (hname : name ∈ ensured conf.centries config) (slots : ℤ) :
    hostGrants conf task hostName name inst known slots =
      grantedAmount task.grants hostName name inst slots := by
  unfold hostGrants mapTotal
  rw [hconfig]
  exact if_pos (Or.inl hname)

theorem grantedAmount_of_zero (hzero : grantedIds task.grants hostName name inst = 0) (slots : ℤ) :
    grantedAmount task.grants hostName name inst slots = 0 := by
  by_cases h : slots < 0
  · rw [grantedAmount_of_neg h, hzero, Nat.cast_zero, neg_zero]
  · rw [grantedAmount_of_nonneg (not_lt.mp h), hzero, Nat.cast_zero]

theorem hostGrants_of_zero (hzero : grantedIds task.grants hostName name inst = 0) (slots : ℤ) :
    hostGrants conf task hostName name inst known slots = 0 := by
  unfold hostGrants mapTotal
  rw [grantedAmount_of_zero hzero]
  cases conf.hosts hostName with
  | none => rfl
  | some config => exact ite_self 0

/-- **A task that books its hosts once books what it was granted.** -/
theorem sent_instances (hsend : Sendable conf task) (honce : BookedOnce conf task)
    (hsign : sign = 1 ∨ sign = -1) :
    (mapReading conf task (.host hostName) name inst known hsend.grants).grant.sent sign =
      grantedAmount task.grants hostName name inst sign := by
  unfold GrantReading.sent
  rw [if_pos hsend.ar, gdil_eq hsend.grants hsign task.gdil hsend.slots]
  have hcases : grantedIds task.grants hostName name inst = 0 ∨ _ := grantedIds_cases hsend honce
  rcases hcases with hzero | ⟨hbookings, config, hconfig, hname⟩
  · rw [hostGrants_of_zero hzero, smul_zero, grantedAmount_of_zero hzero]
  · rw [hbookings, one_smul, hostGrants_eq hconfig hname]

/-- What holds in every state of a run. -/
structure BookedInvariant (conf : Conf) (hostName name inst : String) (known : Prop)
    (s : TaskState) : Prop where
  tasks : ∀ task ∈ s.booked, Sendable conf task ∧ BookedOnce conf task
  settled : MapSettled conf (.host hostName) name known (s.cluster.books (.host hostName))
  amount : mapAt name inst (s.cluster.books (.host hostName)) =
    (bookedIds s.booked hostName name inst : ℕ)

/-- The slots of parallel environments are no matter here. -/
theorem ignoresSlots_books (p : Place) (ok : List Usage → Prop)
    (read : List Usage → ZMod (2 ^ 32)) :
    IgnoresSlots (fun c => ok (c.books p)) (fun c => read (c.books p)) :=
  fun _ _ => ⟨fun h => h, rfl⟩

theorem BookedInvariant.step {s s' : TaskState}
    (h : BookedInvariant conf hostName name inst known s)
    (hstep : TaskStep conf (fun task => Sendable conf task ∧ BookedOnce conf task) s s') :
    BookedInvariant conf hostName name inst known s' := by
  cases hstep with
  | sent s task hp =>
    obtain ⟨hsend, honce⟩ := hp
    have hposts := (mapReading conf task (.host hostName) name inst known
      hsend.grants).grant.posts_sent
    constructor
    · exact List.forall_mem_cons.mpr ⟨⟨hsend, honce⟩, h.tasks⟩
    · exact hposts.keeps _ h.settled
    · refine (hposts.adds _ h.settled).trans ?_
      rw [sent_instances hsend honce (Or.inl rfl), grantedAmount_of_nonneg (by omega), h.amount,
        bookedIds, bookedIds, List.map_cons, List.sum_cons, Nat.cast_add, add_comm]
  | clear before after task c =>
    obtain ⟨hsend, honce⟩ := h.tasks task (List.mem_append_right _ (.head _))
    have hposts := (mapReading conf task (.host hostName) name inst known
      hsend.grants).grant.posts_clear (ignoresSlots_books _ _ _)
    rw [if_pos hsend.enrolled, sent_instances hsend honce (Or.inr rfl),
      grantedAmount_of_neg (by omega)] at hposts
    constructor
    · intro t ht
      refine h.tasks t ?_
      rcases List.mem_append.mp ht with hbefore | hafter
      · exact List.mem_append_left _ hbefore
      · exact List.mem_append_right _ (.tail _ hafter)
    · exact hposts.keeps _ h.settled
    · refine (hposts.adds _ h.settled).trans ?_
      have hamount := h.amount
      simp only [bookedIds, List.map_append, List.map_cons, List.sum_append, List.sum_cons,
        Nat.cast_add] at hamount ⊢
      rw [hamount]
      ring

/-- **Instances in use are the granted ones**, in every state of every run of tasks that
book each host once. -/
theorem booked_instances_granted (conf : Conf) (c : Cluster)
    (hidle : ∀ hostName name inst, mapAt name inst (c.books (.host hostName)) = 0) (s : TaskState)
    (hrun : Relation.ReflTransGen
      (TaskStep conf fun task => Sendable conf task ∧ BookedOnce conf task) ⟨[], c⟩ s)
    (hostName name inst : String) :
    mapAt name inst (s.cluster.books (.host hostName)) =
      (bookedIds s.booked hostName name inst : ℕ) := by
  have hall : BookedInvariant conf hostName name inst (Known name (c.books (.host hostName))) s := by
    induction hrun with
    | refl =>
      constructor
      · exact List.forall_mem_nil _
      · exact fun _ _ => Iff.rfl
      · exact (hidle hostName name inst).trans Nat.cast_zero.symm
    | tail _ hstep ih => exact ih.step hstep
  exact hall.amount

end Runs

/-! ## A device of a host -/

/-- A host with a resource map, and two queue instances on it. -/
def mapConf : Conf where
  parse := parseDigit
  centries := [{ slotsCEntry "1" with name := "gpu", shortcut := "g", valtype := .rsmap }]
  env := ⟨fun _ _ => true, fun host => host⟩
  hosts := fun name => if name = "node" then some ["gpu"] else none
  queues := fun name =>
    if name = "all.q@node" ∨ name = "fast.q@node" then some ⟨"node", []⟩ else none
  ars := fun _ => none
  pes := ["mpi"]

/-- A parallel job with a device, and a slot on each of the queue instances. -/
def mapTask (qnames : List String) : Task where
  job := plainJob
  isEnrolled := true
  grantedPe := some "mpi"
  peObject := some ignoringPe
  gdil := qnames.map fun qname => ⟨qname, "node", 1⟩
  grants := [⟨.resourceMap, "gpu", "node", [{ value := "gpu0", amount := 1 }], []⟩]

theorem mapTask_sendable (qnames : List String) : Sendable mapConf (mapTask qnames) where
  enrolled := rfl
  ar := rfl
  slots := by
    intro g hg
    obtain ⟨qname, -, rfl⟩ := List.mem_map.mp hg
    exact one_ne_zero
  grants := by
    intro gru hm
    obtain rfl := List.mem_singleton.mp hm
    exact ⟨nofun, fun _ => by decide⟩
  configured := by
    intro gru hm _
    obtain rfl := List.mem_singleton.mp hm
    exact ⟨["gpu"], rfl, by decide⟩

/-- One queue instance. -/
theorem booked_instances_granted_queue :
    mapAt "gpu" "gpu0" ((sgeCommitJobSent mapConf (mapTask ["all.q@node"]) idleCluster).books
      (.host "node")) = (bookedIds [mapTask ["all.q@node"]] "node" "gpu" "gpu0" : ℕ) := by
  apply booked_instances_granted mapConf idleCluster (fun _ _ _ => rfl)
    ⟨[mapTask ["all.q@node"]], sgeCommitJobSent mapConf (mapTask ["all.q@node"]) idleCluster⟩
  refine Relation.ReflTransGen.single (TaskStep.sent ⟨[], idleCluster⟩ _
    ⟨mapTask_sendable ["all.q@node"], fun gru hm _ => ?_⟩)
  obtain rfl := List.mem_singleton.mp hm
  decide

/-- **A device is booked twice** for a task with two queue instances on its host. -/
theorem device_booked_twice :
    Relation.ReflTransGen (TaskStep mapConf (Sendable mapConf)) ⟨[], idleCluster⟩
      ⟨[mapTask ["all.q@node", "fast.q@node"]],
        sgeCommitJobSent mapConf (mapTask ["all.q@node", "fast.q@node"]) idleCluster⟩ ∧
    mapAt "gpu" "gpu0" ((sgeCommitJobSent mapConf (mapTask ["all.q@node", "fast.q@node"])
      idleCluster).books (.host "node")) ≠
      (bookedIds [mapTask ["all.q@node", "fast.q@node"]] "node" "gpu" "gpu0" : ℕ) := by
  refine ⟨Relation.ReflTransGen.single (TaskStep.sent ⟨[], idleCluster⟩ _ (mapTask_sendable _)), ?_⟩
  decide +kernel

end ClusterScheduler.Consumables
