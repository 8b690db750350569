import ClusterScheduler.Consumables.ReservationBooking

/-!
# What an advance reservation offers to its jobs

A reservation keeps reduced copies of the global host, of the hosts and of the queue
instances it was granted. Their complex values are the capacities its jobs can use.

* `Reserved` — the copies.
* `arGetRequestOrDefault`, `arAddConsumable`, `arAddNonConsumable`,
  `arInitializeResourceBooking` — functions of the source.
* `Conf.Checked` — what the configuration is checked for.
* `capacityAt_arInitGdil` — the capacities, added up over the granted queue instances.
* `offered_eq_total` — one granted queue instance offers what is booked for it.
* `capacity_eq_booked` — a reservation offers what it takes, and gives it back.

Which instances of resource maps are held, the states of the queue instances and what is
in use of the copies are left out.
-/

namespace ClusterScheduler.Consumables

open Foundation Sched

/-! ## Data -/

/-- A complex value of a copy. -/
structure ReservedValue where
  name : String
  doubleval : ℚ
  deriving DecidableEq

/-- The copies with their complex values, by the host or the queue instance copied. -/
abbrev Reserved := Place → Option (List ReservedValue)

/-! ## Functions of the source -/

def Reserved.valuesAt (c : Reserved) (p : Place) : List ReservedValue := (c p).getD []

def Reserved.change (place : Place) (f : List ReservedValue → List ReservedValue)
    (c : Reserved) : Reserved :=
  Function.update c place (some (f (c.valuesAt place)))

/-- `source` has the names configured at the object that is copied. -/
def arAddConsumable (source : List String) (name : String) (doubleval : ℚ)
    (target : List ReservedValue) : List ReservedValue :=
  if name ∈ source then
    upsert (·.name) name ⟨name, 0⟩ (fun ccobj => ⟨ccobj.name, ccobj.doubleval + doubleval⟩) target
  else target

/-- `configured` is the value at the object that is copied. -/
def arAddNonConsumable (source : List String) (name : String) (configured : ℚ)
    (target : List ReservedValue) : List ReservedValue :=
  if name ∈ source then upsert (·.name) name ⟨name, configured⟩ id target else target

def qinstanceSetConfSlotsUsed (jobSlots : ℕ) (values : List ReservedValue) : List ReservedValue :=
  upsert (·.name) sgeAttrSlots ⟨sgeAttrSlots, 0⟩ (fun slots => ⟨slots.name, jobSlots⟩) values

section Functions

variable (conf : Conf) (configured : Place → String → ℚ) (ar : Reservation)

def arGetRequestOrDefault (cr : CEntry) (crName : String) : Option ℚ :=
  match lookup Request.name crName ar.resourceList with
  | some request => some request.doubleval
  | none => conf.parse cr.valtype cr.defaultval

/-- The capacity for one consumable, if there is something to book. -/
def arDoubleval (slots : ℕ) (isMasterQueue doPerHostBooking : Bool) (cr : CEntry) : Option ℚ :=
  match arGetRequestOrDefault conf ar cr cr.name with
  | none => none
  | some requestOrDefault =>
    match cr.consumable with
    | .no => none
    | .yes => some (requestOrDefault * slots)
    | .job => if isMasterQueue then some requestOrDefault else none
    | .host => if doPerHostBooking then some requestOrDefault else none

def arAddToCopies (g : GrantedQueue) (add : Place → List ReservedValue → List ReservedValue)
    (c : Reserved) : Reserved :=
  let c := c.change (.host sgeGlobalName) (add (.host sgeGlobalName))
  let c := c.change (.host g.qhostname) (add (.host g.qhostname))
  c.change (.queue g.qname) (add (.queue g.qname))

/-- One complex entry of the master list. -/
def arAddComplex (g : GrantedQueue) (isMasterQueue doPerHostBooking : Bool) (c : Reserved)
    (cr : CEntry) : Reserved :=
  if cr.consumable = .no then
    arAddToCopies g (fun p => arAddNonConsumable ((conf.configAt p).getD []) cr.name
      (configured p cr.name)) c
  else
    match arDoubleval conf ar g.slots isMasterQueue doPerHostBooking cr with
    | none => c
    | some doubleval =>
      arAddToCopies g (fun p => arAddConsumable ((conf.configAt p).getD []) cr.name doubleval) c

/-- One granted queue instance. A host can be there before. -/
def arInitQueue (g : GrantedQueue) (isMasterQueue doPerHostBooking : Bool) (c : Reserved) :
    Reserved :=
  let c := (c.change (.queue g.qname) id).change (.host g.qhostname) id
  conf.centries.foldl (arAddComplex conf configured ar g isMasterQueue doPerHostBooking) c

def arInitGdil : Bool → Option String → List GrantedQueue → Reserved → Reserved
  | _, _, [], c => c
  | isMasterQueue, lastHostname, g :: gdil, c =>
    let perHost := hostDoPerHostBooking lastHostname g.qhostname
    arInitGdil false perHost.2 gdil (arInitQueue conf configured ar g isMasterQueue perHost.1 c)

def arSetSlots (gdil : List GrantedQueue) (c : Reserved) : Reserved :=
  gdil.foldl (fun c g => c.change (.queue g.qname) (qinstanceSetConfSlotsUsed g.slots)) c

def arInitializeResourceBooking : Reserved :=
  arSetSlots ar.grantedSlots
    (arInitGdil conf configured ar true none ar.grantedSlots
      (Reserved.change (.host sgeGlobalName) id fun _ => none))

end Functions

/-! ## Capacities -/

def valueOf (name : String) (values : List ReservedValue) : ℚ :=
  ((lookup (·.name) name values).map (·.doubleval)).getD 0

def capacityAt (p : Place) (name : String) (c : Reserved) : ℚ := valueOf name (c.valuesAt p)

section Values

variable {name n : String} {source : List String} {v : ℚ}

theorem valueOf_arAddConsumable (values : List ReservedValue) :
    valueOf n (arAddConsumable source name v values) =
      valueOf n values + if n = name ∧ name ∈ source then v else 0 := by
  rw [arAddConsumable]
  by_cases hsource : name ∈ source
  · rw [if_pos hsource, valueOf, lookup_upsert (fun _ => by rfl) (by rfl), valueOf]
    by_cases hn : n = name
    · subst hn
      rw [if_pos rfl, if_pos ⟨rfl, hsource⟩]
      cases lookup (·.name) n values <;> rfl
    · rw [if_neg hn, if_neg fun h => hn h.1, add_zero]
  · rw [if_neg hsource, if_neg fun h => hsource h.2, add_zero]

theorem valueOf_arAddNonConsumable (hn : n ≠ name) (values : List ReservedValue) :
    valueOf n (arAddNonConsumable source name v values) = valueOf n values := by
  rw [arAddNonConsumable]
  split_ifs
  · rw [valueOf, lookup_upsert (fun _ => by rfl) (by rfl), if_neg hn]
    rfl
  · rfl

theorem valueOf_qinstanceSetConfSlotsUsed {jobSlots : ℕ} {values : List ReservedValue}
    (h : valueOf sgeAttrSlots values = jobSlots) :
    valueOf n (qinstanceSetConfSlotsUsed jobSlots values) = valueOf n values := by
  rw [valueOf, qinstanceSetConfSlotsUsed, lookup_upsert (fun _ => by rfl) (by rfl)]
  split_ifs with hn
  · rw [hn, h]
    rfl
  · rfl

theorem valuesAt_change (place p : Place) (f : List ReservedValue → List ReservedValue)
    (c : Reserved) : (c.change place f).valuesAt p =
      if p = place then f (c.valuesAt place) else c.valuesAt p := by
  rw [Reserved.valuesAt, Reserved.change]
  by_cases hp : p = place
  · rw [if_pos hp, hp, Function.update_self]
    rfl
  · rw [if_neg hp, Function.update_of_ne hp]
    rfl

end Values

/-! ## What one granted queue instance adds -/

section Offered

variable (conf : Conf) (configured : Place → String → ℚ) (ar : Reservation)

def offered (v : Visit) (dcep : CEntry) : ℚ :=
  (arDoubleval conf ar v.granted.slots v.isMasterTask v.doPerHostBooking dcep).getD 0

def amountIn (place : Place) (amount : ℚ) (p : Place) (name : String) : ℚ :=
  if p = place ∧ name ∈ (conf.configAt place).getD [] then amount else 0

/-- An amount for the three places of a granted queue instance. -/
def amountInVisit (v : Visit) (amount : ℚ) (p : Place) (name : String) : ℚ :=
  amountIn conf (.host sgeGlobalName) amount p name +
    amountIn conf (.host v.granted.qhostname) amount p name +
    amountIn conf (.queue v.granted.qname) amount p name

variable {conf configured ar} {p : Place} {name : String} {dcep : CEntry}

theorem amountIn_zero (place : Place) : amountIn conf place 0 p name = 0 := ite_self 0

variable {amount : ℚ}

theorem posts_change {place : Place} {f : List ReservedValue → List ReservedValue}
    (h : ∀ values, valueOf name (f values) = valueOf name values + amount) :
    Posts (fun _ => True) (capacityAt p name) (Reserved.change place f)
      (if p = place then amount else 0) where
  keeps := fun _ _ => trivial
  adds := fun c _ => by
    rw [capacityAt, valuesAt_change]
    split_ifs with hp
    · rw [h, capacityAt, hp]
    · exact (add_zero _).symm

theorem posts_change_id (place : Place) :
    Posts (fun _ => True) (capacityAt p name) (Reserved.change place id) 0 :=
  (posts_change fun values => (add_zero (valueOf name values)).symm).congr (ite_self 0)

theorem posts_arAddToCopies (v : Visit) {add : Place → List ReservedValue → List ReservedValue}
    (h : ∀ place values, valueOf name (add place values) =
      valueOf name values + if name ∈ (conf.configAt place).getD [] then amount else 0) :
    Posts (fun _ => True) (capacityAt p name) (arAddToCopies v.granted add)
      (amountInVisit conf v amount p name) := by
  have hone : ∀ place, Posts (fun _ => True) (capacityAt p name)
      (Reserved.change place (add place)) (amountIn conf place amount p name) := by
    intro place
    apply (posts_change (h place)).congr
    exact (ite_and _ _ _ _).symm
  exact (((hone _).comp (hone _)).comp (hone _)).congr (add_assoc _ _ _).symm

theorem posts_arAddComplex (v : Visit) (hconsumable : dcep.consumable ≠ .no) (cr : CEntry)
    (hcr : cr.name = dcep.name → cr = dcep) :
    Posts (fun _ => True) (capacityAt p dcep.name)
      (arAddComplex conf configured ar v.granted v.isMasterTask v.doPerHostBooking · cr)
      (if cr = dcep then amountInVisit conf v (offered conf ar v dcep) p dcep.name else 0) := by
  unfold arAddComplex
  by_cases heq : cr = dcep
  · subst heq
    rw [if_pos rfl]
    simp only [if_neg hconsumable]
    unfold offered
    cases arDoubleval conf ar v.granted.slots v.isMasterTask v.doPerHostBooking cr with
    | none =>
      apply Posts.id.congr
      simp only [amountInVisit, Option.getD_none, amountIn_zero, add_zero]
    | some doubleval =>
      apply posts_arAddToCopies
      intro place values
      rw [valueOf_arAddConsumable]
      simp only [true_and, Option.getD_some]
  · -- other entries have other names
    rw [if_neg heq]
    have hne : dcep.name ≠ cr.name := fun h => heq (hcr h.symm)
    have hzero : amountInVisit conf v 0 p dcep.name = 0 := by
      simp only [amountInVisit, amountIn_zero, add_zero]
    split_ifs
    · apply (posts_arAddToCopies v _).congr hzero
      intro place values
      rw [valueOf_arAddNonConsumable hne, ite_self, add_zero]
    · cases arDoubleval conf ar v.granted.slots v.isMasterTask v.doPerHostBooking cr with
      | none => exact Posts.id
      | some doubleval =>
        apply (posts_arAddToCopies v _).congr hzero
        intro place values
        rw [valueOf_arAddConsumable, if_neg fun h => hne h.1, ite_self]

end Offered

/-! ## What is offered -/

/-- What complex entries and configurations are checked for when they are changed. -/
structure Conf.Checked (conf : Conf) : Prop where
  centries : (conf.centries.map (·.name)).Nodup
  nodup : ∀ p config, conf.configAt p = some config → config.Nodup
  defined : ∀ p config, conf.configAt p = some config →
    ∀ n ∈ config, n ∈ conf.centries.map (·.name)
  slots : ∀ qname queue, conf.queues qname = some queue → sgeAttrSlots ∈ queue.config
  slotsCentry : ∀ dcep ∈ conf.centries, dcep.name = sgeAttrSlots →
    dcep.consumable = .yes ∧ dcep.relop = .le ∧ conf.parse dcep.valtype dcep.defaultval = some 1

/-- Slots are not requested explicitly, which is refused. -/
def Reservation.RequestsNoSlots (ar : Reservation) : Prop :=
  sgeAttrSlots ∉ ar.resourceList.map (·.name)

section Capacity

variable {conf : Conf} {configured : Place → String → ℚ} {ar : Reservation} {p : Place}
  {dcep : CEntry}

variable (hconf : conf.Checked)
include hconf

theorem Conf.Checked.eq_of_name {cr : CEntry} (hcr : cr ∈ conf.centries)
    (hdcep : dcep ∈ conf.centries) (h : cr.name = dcep.name) : cr = dcep :=
  List.inj_on_of_nodup_map hconf.centries hcr hdcep h

variable (hdcep : dcep ∈ conf.centries)
include hdcep

theorem Conf.Checked.locate : centryListLocate conf.centries dcep.name = some dcep := by
  rw [centryListLocate, lookup_of_mem hconf.centries hdcep]
  rfl

theorem posts_arInitQueue (hconsumable : dcep.consumable ≠ .no) (v : Visit) :
    Posts (fun _ => True) (capacityAt p dcep.name)
      (arInitQueue conf configured ar v.granted v.isMasterTask v.doPerHostBooking)
      (amountInVisit conf v (offered conf ar v dcep) p dcep.name) := by
  have hcentry : ∀ cr ∈ conf.centries, Posts (fun _ => True) (capacityAt p dcep.name)
      (arAddComplex conf configured ar v.granted v.isMasterTask v.doPerHostBooking · cr)
      (if cr = dcep then amountInVisit conf v (offered conf ar v dcep) p dcep.name else 0) := by
    intro cr hcr
    exact posts_arAddComplex v hconsumable cr (hconf.eq_of_name hcr hdcep)
  have hcentries := Posts.foldl conf.centries hcentry
  apply ((hcentries.comp (posts_change_id _)).comp (posts_change_id _)).congr
  rw [zero_add, zero_add, List.sum_map_eq_nsmul_single dcep _ fun cr hcr _ => if_neg hcr,
    List.count_eq_one_of_mem (List.Nodup.of_map _ hconf.centries) hdcep, if_pos rfl, one_nsmul]

/-- **The capacities** are what all granted queue instances add. -/
theorem capacityAt_arInitGdil
    (hconsumable : dcep.consumable ≠ .no) (gdil : List GrantedQueue) (isMasterQueue : Bool)
    (lastHostname : Option String) (c : Reserved) :
    capacityAt p dcep.name (arInitGdil conf configured ar isMasterQueue lastHostname gdil c) =
      capacityAt p dcep.name c + ((visitsFrom isMasterQueue lastHostname gdil).map fun v =>
        amountInVisit conf v (offered conf ar v dcep) p dcep.name).sum := by
  induction gdil generalizing isMasterQueue lastHostname c with
  | nil => exact (add_zero _).symm
  | cons g gdil ih =>
    rw [arInitGdil, visitsFrom, List.map_cons, List.sum_cons, ih, ← add_assoc]
    apply congrArg (· + _)
    exact (posts_arInitQueue hconf hdcep hconsumable ⟨g, isMasterQueue, _⟩).adds c trivial

end Capacity

/-! ## What is booked -/

section Booked

variable {conf : Conf} {ar : Reservation} {p : Place} {dcep : CEntry}

theorem jobGetHardRequest_dummyJob (name : String) (scope : Scope) :
    jobGetHardRequest ar.dummyJob name scope =
      if scope = .global then lookup Request.name name ar.resourceList else none := by
  cases scope <;> rfl

/-- What a request that is not zero is booked with is what the reservation offers. -/
theorem jobGetContribution_dummyJob (cr : CEntry) :
    jobGetContributionByScope conf.parse ar.dummyJob cr.name cr .global =
      arGetRequestOrDefault conf ar cr cr.name ∨
    jobGetContributionByScope conf.parse ar.dummyJob cr.name cr .global = none ∧
      arGetRequestOrDefault conf ar cr cr.name = some 0 := by
  rw [jobGetContributionByScope, arGetRequestOrDefault, jobGetHardRequest_dummyJob, if_pos rfl]
  cases lookup Request.name cr.name ar.resourceList with
  | some request => exact Or.inl rfl
  | none =>
    cases conf.parse cr.valtype cr.defaultval with
    | none => exact Or.inl rfl
    | some value =>
      dsimp only
      split_ifs with hzero
      · exact Or.inr ⟨rfl, congrArg some hzero⟩
      · exact Or.inl rfl

/-- Master and slave tasks are requested nothing of their own. -/
theorem jobGetContribution_dummyJob_none {cr : CEntry} (scope : Scope)
    (h : jobGetContributionByScope conf.parse ar.dummyJob cr.name cr .global = none) :
    jobGetContributionByScope conf.parse ar.dummyJob cr.name cr scope = none := by
  rw [jobGetContributionByScope, jobGetHardRequest_dummyJob] at h ⊢
  rw [if_pos rfl] at h
  cases hrequest : lookup Request.name cr.name ar.resourceList with
  | some request =>
    rw [hrequest] at h
    exact absurd h (Option.some_ne_none _)
  | none =>
    rw [hrequest] at h
    rw [ite_self]
    exact h

theorem Conf.Checked.slots_requested (hconf : conf.Checked) (har : ar.RequestsNoSlots)
    (hdcep : dcep ∈ conf.centries) (hname : dcep.name = sgeAttrSlots) :
    arGetRequestOrDefault conf ar dcep dcep.name = some 1 ∧
      jobGetContributionByScope conf.parse ar.dummyJob dcep.name dcep .global = some 1 := by
  have hdefault := (hconf.slotsCentry dcep hdcep hname).2.2
  have hrequest : lookup Request.name dcep.name ar.resourceList = none := by
    rw [lookup_eq_none, hname]
    exact har
  constructor
  · rw [arGetRequestOrDefault, hrequest]
    exact hdefault
  · rw [jobGetContributionByScope, jobGetHardRequest_dummyJob, if_pos rfl, hrequest]
    dsimp only
    rw [hdefault]
    exact if_neg one_ne_zero

theorem sum_bookFor (slots : ℤ) (contribution : Option ℚ) :
    (bookFor slots contribution).sum = slots * contribution.getD 0 := by
  cases contribution with
  | none => exact (mul_zero _).symm
  | some dval =>
    rw [bookFor, Option.getD_some]
    split_ifs with hzero
    · exact List.sum_singleton
    · rw [not_not.mp hzero, mul_zero]
      rfl

variable {slots : ℤ}

variable {isMasterTask : Bool}

/-- Without a request nothing is booked, on the master host neither. -/
theorem explicitDebits_dummyJob_none (hslots : dcep.name ≠ sgeAttrSlots)
    (h : jobGetContributionByScope conf.parse ar.dummyJob dcep.name dcep .global = none) :
    explicitDebits conf.parse ar.dummyJob ar.pe dcep.name dcep slots isMasterTask = [] := by
  unfold explicitDebits
  rw [h]
  cases ar.pe with
  | none => rfl
  | some pe =>
    have hslave : ∀ n, bookFor n (slaveContribution conf.parse ar.dummyJob dcep.name dcep
        isMasterTask pe) = [] := by
      intro n
      rw [slaveContribution, if_neg hslots, jobGetContribution_dummyJob_none _ h]
      split_ifs
      · rw [bookFor]
        exact if_neg (not_not.mpr rfl)
      · rfl
    have hmaster : ∀ n, bookFor n (jobGetContributionByScope conf.parse ar.dummyJob dcep.name
        dcep .master) = [] := by
      intro n
      rw [jobGetContribution_dummyJob_none _ h]
      rfl
    dsimp only
    rw [masterDebits, slaveDebits, hmaster, hslave, ite_self, ite_self]
    rfl

/-- **What is booked of one consumable** for a granted queue instance. -/
theorem explicitDebits_dummyJob (hconf : conf.Checked) (har : ar.RequestsNoSlots)
    (hdcep : dcep ∈ conf.centries) (slots : ℤ) (isMasterTask : Bool) :
    explicitDebits conf.parse ar.dummyJob ar.pe dcep.name dcep slots isMasterTask =
      bookFor (consumableGetDebitSlots dcep.consumable slots)
        (arGetRequestOrDefault conf ar dcep dcep.name) := by
  rcases hcontribution : jobGetContributionByScope conf.parse ar.dummyJob dcep.name dcep .global
    with _ | dval
  · -- a default request of zero is offered and not booked
    have hslots : dcep.name ≠ sgeAttrSlots := by
      intro hname
      rw [(hconf.slots_requested har hdcep hname).2] at hcontribution
      exact Option.some_ne_none _ hcontribution
    rw [explicitDebits_dummyJob_none hslots hcontribution]
    rcases jobGetContribution_dummyJob dcep with h | ⟨-, h⟩
    · rw [← h, hcontribution]
      rfl
    · rw [h, bookFor]
      exact (if_neg (not_not.mpr rfl)).symm
  · unfold explicitDebits
    rw [hcontribution]
    rcases jobGetContribution_dummyJob dcep with h | ⟨h, -⟩
    · rw [← h, hcontribution]
    · rw [h] at hcontribution
      exact absurd hcontribution.symm (Option.some_ne_none dval)

theorem total_withImplicit (h : dcep.relop ≠ .excl) (explicit : List ℚ) :
    total false (withImplicit dcep slots explicit) = explicit.sum := by
  rw [withImplicit, if_neg fun hexcl => h hexcl.2]
  induction explicit with
  | nil => rfl
  | cons value explicit ih => rw [List.map_cons, total_cons, ih, if_pos rfl, List.sum_cons]

/-- **One granted queue instance offers what is booked for it.** -/
theorem offered_eq_total (hconf : conf.Checked) (har : ar.RequestsNoSlots)
    (hdcep : dcep ∈ conf.centries) (hrelop : dcep.relop ≠ .excl) (v : Visit)
    (hslots : v.granted.slots ≠ 0) :
    offered conf ar v dcep =
      if consumableDoBooking dcep.consumable v.isMasterTask v.doPerHostBooking then
        total false (consumableDebits conf.parse ar.dummyJob ar.pe dcep.name dcep
          (1 * v.granted.slots) v.isMasterTask)
      else 0 := by
  rw [consumableDebits, total_withImplicit hrelop, explicitDebits_dummyJob hconf har hdcep,
    sum_bookFor, offered, arDoubleval, one_mul]
  have hpos : (0 : ℤ) < v.granted.slots := by
    apply Nat.cast_pos.mpr
    exact Nat.pos_of_ne_zero hslots
  have hone : slotSignum v.granted.slots = 1 := if_pos hpos
  cases arGetRequestOrDefault conf ar dcep dcep.name with
  | none => simp only [Option.getD_none, mul_zero, ite_self]
  | some value =>
    cases dcep.consumable with
    | no => rfl
    | yes => simp [consumableDoBooking, consumableGetDebitSlots, mul_comm]
    | job => cases v.isMasterTask <;> simp [consumableDoBooking, consumableGetDebitSlots, hone]
    | host =>
      cases v.doPerHostBooking <;> simp [consumableDoBooking, consumableGetDebitSlots, hone]

theorem configTotal_of_checked (hconf : conf.Checked) (hdcep : dcep ∈ conf.centries)
    {config : List String} (hnodup : config.Nodup)
    (hdefined : ∀ n ∈ config, n ∈ conf.centries.map (·.name)) {job : Job} {pe : Option Pe}
    {doPerHostBooking b : Bool} :
    configTotal conf.parse conf.centries job pe slots isMasterTask doPerHostBooking b dcep.name
      config = if dcep.name ∈ config then
        if consumableDoBooking dcep.consumable isMasterTask doPerHostBooking then
          total b (consumableDebits conf.parse job pe dcep.name dcep slots isMasterTask)
        else 0
      else 0 := by
  rw [configTotal]
  induction config with
  | nil => rfl
  | cons n config ih =>
    obtain ⟨hnot, htail⟩ := List.nodup_cons.mp hnodup
    obtain ⟨hn, hrest⟩ := List.forall_mem_cons.mp hdefined
    obtain ⟨cr, hcr, rfl⟩ := List.mem_map.mp hn
    rw [configDebits, hconf.locate hcr]
    dsimp only
    rw [total_append, ih htail hrest]
    by_cases hname : cr.name = dcep.name
    · have heq := hconf.eq_of_name hcr hdcep hname
      subst heq
      rw [if_neg hnot, if_pos List.mem_cons_self, add_zero]
      simp only [true_and]
      split_ifs <;> rfl
    · rw [if_neg fun h => hname h.1, total_nil, zero_add]
      simp only [List.mem_cons, Ne.symm hname, false_or]

theorem takenAt_eq_amountIn (hconf : conf.Checked) (har : ar.RequestsNoSlots)
    (hdcep : dcep ∈ conf.centries) (hrelop : dcep.relop ≠ .excl) {v : Visit}
    (hslots : v.granted.slots ≠ 0) (place : Place) :
    takenAt conf ar v place 1 p dcep.name false =
      amountIn conf place (offered conf ar v dcep) p dcep.name := by
  rw [takenAt, amountIn, ite_and]
  congr 1
  cases hconfig : conf.configAt place with
  | none => rfl
  | some config =>
    rw [Option.getD_some, configTotal_of_checked hconf hdcep (hconf.nodup place config hconfig)
      (hconf.defined place config hconfig), ← offered_eq_total hconf har hdcep hrelop v hslots]

/-- The copy of the global host has no complex values at first. -/
theorem capacityAt_global (name : String) :
    capacityAt p name (Reserved.change (.host sgeGlobalName) id fun _ => none) = 0 :=
  ((posts_change_id _).adds (fun _ => none) trivial).trans (add_zero 0)

/-- **The copies offer what the reservation takes**, before the slots are set. -/
theorem capacityAt_eq_reservationTotal (hconf : conf.Checked) (har : ar.RequestsNoSlots)
    (hgranted : ar.Granted conf) (hdcep : dcep ∈ conf.centries)
    (hconsumable : dcep.consumable ≠ .no) (hrelop : dcep.relop ≠ .excl)
    (configured : Place → String → ℚ) :
    capacityAt p dcep.name (arInitGdil conf configured ar true none ar.grantedSlots
      (Reserved.change (.host sgeGlobalName) id fun _ => none)) =
      reservationTotal conf ar 1 p dcep.name false := by
  rw [capacityAt_arInitGdil hconf hdcep hconsumable, capacityAt_global, zero_add,
    reservationTotal, Reservation.visits]
  apply congrArg List.sum
  apply List.map_congr_left
  intro v hv
  have hslots := hgranted.slots v.granted (granted_mem_of_visit hv)
  rw [amountInVisit, visitTotal, takenAt_eq_amountIn hconf har hdcep hrelop hslots,
    takenAt_eq_amountIn hconf har hdcep hrelop hslots,
    takenAt_eq_amountIn hconf har hdcep hrelop hslots]

variable {g : GrantedQueue}

theorem capacityAt_slots (hconf : conf.Checked) (har : ar.RequestsNoSlots)
    (hgranted : ar.Granted conf) (hg : g ∈ ar.grantedSlots) (configured : Place → String → ℚ) :
    capacityAt (.queue g.qname) sgeAttrSlots (arInitGdil conf configured ar true none
      ar.grantedSlots (Reserved.change (.host sgeGlobalName) id fun _ => none)) = g.slots := by
  have hin : ∀ g' ∈ ar.grantedSlots, sgeAttrSlots ∈ (conf.configAt (.queue g'.qname)).getD [] := by
    intro g' hg'
    obtain ⟨queue, hqueue, -⟩ := hgranted.queues g' hg'
    rw [Conf.configAt, hqueue]
    exact hconf.slots _ queue hqueue
  obtain ⟨queue, hqueue, -⟩ := hgranted.queues g hg
  have hconfig : conf.configAt (.queue g.qname) = some queue.config := by
    rw [Conf.configAt, hqueue]
    rfl
  obtain ⟨dcep, hdcep, hname⟩ := List.mem_map.mp
    (hconf.defined _ _ hconfig _ (hconf.slots _ queue hqueue))
  obtain ⟨hyes, -, -⟩ := hconf.slotsCentry dcep hdcep hname
  have hoffered : ∀ v, offered conf ar v dcep = v.granted.slots := by
    intro v
    rw [offered, arDoubleval, (hconf.slots_requested har hdcep hname).1, hyes]
    exact one_mul _
  -- a visit adds to the copy of its own queue instance
  have hvisit : ∀ v ∈ ar.visits, amountInVisit conf v (offered conf ar v dcep) (.queue g.qname)
      dcep.name = if v.granted.qname = g.qname then (v.granted.slots : ℚ) else 0 := by
    intro v hv
    rw [amountInVisit, amountIn, amountIn, amountIn, hoffered, hname,
      if_neg fun h => Place.noConfusion h.1, if_neg fun h => Place.noConfusion h.1, zero_add,
      zero_add]
    have hthere := hin v.granted (granted_mem_of_visit hv)
    simp only [Place.queue.injEq, hthere, and_true, eq_comm]
  have hsum : (ar.visits.map fun v =>
      if v.granted.qname = g.qname then (v.granted.slots : ℚ) else 0).sum = g.slots := by
    classical
    have hmap : (ar.visits.map fun v =>
        if v.granted.qname = g.qname then (v.granted.slots : ℚ) else 0) =
        ar.grantedSlots.map fun g' => if g'.qname = g.qname then (g'.slots : ℚ) else 0 := by
      conv_rhs => rw [← map_granted_visitsFrom true none ar.grantedSlots]
      rw [List.map_map]
      rfl
    have hothers : ∀ g', g' ≠ g → g' ∈ ar.grantedSlots →
        (if g'.qname = g.qname then (g'.slots : ℚ) else 0) = 0 := by
      intro g' hne hg'
      apply if_neg
      intro heq
      exact hne (List.inj_on_of_nodup_map hgranted.distinct hg' hg heq)
    rw [hmap, List.sum_map_eq_nsmul_single g _ hothers,
      List.count_eq_one_of_mem (List.Nodup.of_map _ hgranted.distinct) hg, if_pos rfl, one_nsmul]
  rw [← hname, capacityAt_arInitGdil hconf hdcep (by rw [hyes]; decide), capacityAt_global,
    zero_add, ← hsum]
  exact congrArg List.sum (List.map_congr_left hvisit)

variable {c : Reserved} {name : String}

/-- Setting the slots of a queue instance changes no capacity, when they are there. -/
theorem capacityAt_setSlots (h : capacityAt (.queue g.qname) sgeAttrSlots c = g.slots) :
    capacityAt p name (c.change (.queue g.qname) (qinstanceSetConfSlotsUsed g.slots)) =
      capacityAt p name c := by
  rw [capacityAt, valuesAt_change]
  split_ifs with hp
  · rw [valueOf_qinstanceSetConfSlotsUsed h, hp]
    rfl
  · rfl

theorem capacityAt_arSetSlots {gdil : List GrantedQueue}
    (h : ∀ g ∈ gdil, capacityAt (.queue g.qname) sgeAttrSlots c = g.slots) :
    capacityAt p name (arSetSlots gdil c) = capacityAt p name c := by
  unfold arSetSlots
  induction gdil generalizing c with
  | nil => rfl
  | cons g gdil ih =>
    obtain ⟨hg, hgdil⟩ := List.forall_mem_cons.mp h
    have hrest : ∀ g' ∈ gdil, capacityAt (.queue g'.qname) sgeAttrSlots
        (c.change (.queue g.qname) (qinstanceSetConfSlotsUsed g.slots)) = g'.slots := by
      intro g' hg'
      rw [capacityAt_setSlots hg]
      exact hgdil g' hg'
    rw [List.foldl_cons, ih hrest, capacityAt_setSlots hg]

/-- **A reservation takes exactly what it offers.** The capacity of a consumable that is
not exclusive is added to its diagram over the window of the reservation, and this amount
is taken back whatever other reservations did in between. -/
theorem capacity_eq_booked (hconf : conf.Checked) (har : ar.RequestsNoSlots)
    (hgranted : ar.Granted conf) (hdcep : dcep ∈ conf.centries)
    (hconsumable : dcep.consumable ≠ .no) (hrelop : dcep.relop ≠ .excl)
    (configured : Place → String → ℚ) (p : Place) {c : ReservationBooks} (hc : OrderedBooks c.books)
    {others : List ReservationCall} (hothers : ∀ call ∈ others, call.ar.Granted conf) (t : ℕ) :
    scheduledAt false dcep.name t ((arDoReservation conf ar true c).books p) =
        scheduledAt false dcep.name t (c.books p) + (if ar.window.Covers t then
            capacityAt p dcep.name (arInitializeResourceBooking conf configured ar) else 0) ∧
      scheduledAt false dcep.name t ((arDoReservation conf ar false
        (doReservations conf others (arDoReservation conf ar true c))).books p) =
        scheduledAt false dcep.name t
          ((doReservations conf others (arDoReservation conf ar true c)).books p) -
            if ar.window.Covers t then
              capacityAt p dcep.name (arInitializeResourceBooking conf configured ar) else 0 := by
  have hcapacity : capacityAt p dcep.name (arInitializeResourceBooking conf configured ar) =
      reservationTotal conf ar 1 p dcep.name false := by
    rw [arInitializeResourceBooking, capacityAt_arSetSlots]
    · exact capacityAt_eq_reservationTotal hconf har hgranted hdcep hconsumable hrelop configured
    · intro g hg
      exact capacityAt_slots hconf har hgranted hg configured
  rw [hcapacity]
  constructor
  · exact scheduledAt_arDoReservation hgranted true hc t
  · have hbetween := OrderedBooks.run hothers (hc.reserve hgranted true)
    rw [scheduledAt_arDoReservation hgranted false hbetween, if_neg Bool.false_ne_true,
      reservationTotal_neg hgranted]
    split_ifs
    · exact (sub_eq_add_neg _ _).symm
    · exact (add_zero _).trans (sub_zero _).symm

end Booked

/-! ## Two queue instances on a host -/

def twoQueueConf : Conf where
  parse := parseDigit
  centries := [slotsCEntry "1", licenceCEntry]
  env := ⟨fun _ _ => true, fun host => host⟩
  hosts := fun name => if name = "node" then some [sgeAttrSlots, "licence"] else none
  queues := fun name =>
    if name = "all.q@node" ∨ name = "big.q@node" then some ⟨"node", [sgeAttrSlots]⟩ else none
  ars := fun _ => none
  pes := ["mpi"]

/-- A parallel reservation on both queue instances, with the licence and a core. -/
def licenceReservation : Reservation where
  window := hourWindow
  resourceList := [⟨"licence", 1⟩]
  grantedSlots := [⟨⟨"all.q@node", "node", 2⟩, []⟩, ⟨⟨"big.q@node", "node", 1⟩, []⟩]
  grantedPe := some "mpi"
  peObject := some ignoringPe
  grantedResourcesList := [⟨.binding, sgeAttrSlots, "node", [], ["SC".toList]⟩]

theorem twoQueueConf_config {p : Place} {config : List String}
    (h : twoQueueConf.configAt p = some config) :
    config ∈ [[sgeAttrSlots, "licence"], [sgeAttrSlots]] := by
  cases p with
  | host name =>
    rw [Conf.configAt, twoQueueConf] at h
    dsimp only at h
    split_ifs at h
    cases h
    exact .head _
  | queue name =>
    rw [Conf.configAt, twoQueueConf] at h
    dsimp only at h
    split_ifs at h
    · cases h
      exact .tail _ (.head _)
    · exact absurd h (Option.some_ne_none config).symm
  | arHost ar name => exact absurd h (Option.some_ne_none config).symm
  | arQueue ar name => exact absurd h (Option.some_ne_none config).symm

theorem twoQueueConf_checked : twoQueueConf.Checked where
  centries := by decide
  nodup := fun p config h => by
    have hall : ∀ config ∈ [[sgeAttrSlots, "licence"], [sgeAttrSlots]], config.Nodup := by decide
    exact hall config (twoQueueConf_config h)
  defined := fun p config h => by
    have hall : ∀ config ∈ [[sgeAttrSlots, "licence"], [sgeAttrSlots]],
        ∀ n ∈ config, n ∈ twoQueueConf.centries.map (·.name) := by decide
    exact hall config (twoQueueConf_config h)
  slots := fun qname queue h => by
    have hconfig : twoQueueConf.configAt (.queue qname) = some queue.config := by
      rw [Conf.configAt, h]
      rfl
    have hall : ∀ config ∈ [[sgeAttrSlots, "licence"], [sgeAttrSlots]], sgeAttrSlots ∈ config := by
      decide
    exact hall _ (twoQueueConf_config hconfig)
  slotsCentry := by decide

theorem licenceReservation_granted : licenceReservation.Granted twoQueueConf where
  queues := by
    intro g hg
    have hqueue : ∀ g ∈ licenceReservation.grantedSlots,
        (g.qname = "all.q@node" ∨ g.qname = "big.q@node") ∧ g.qhostname = "node" := by decide
    obtain ⟨hqname, hhost⟩ := hqueue g hg
    exact ⟨⟨"node", [sgeAttrSlots]⟩, if_pos hqname, hhost.symm⟩
  slots := by decide
  distinct := by decide

/-- The host offers one licence. One is booked for the reservation, and taken back while another
one is booked. -/
theorem capacity_eq_booked_licence :
    let before : ReservationBooks := ⟨fun _ => [], fun _ => none⟩
    let booked := arDoReservation twoQueueConf licenceReservation true before
    let later := doReservations twoQueueConf [⟨licenceReservation, true⟩] booked
    let capacity := capacityAt (.host "node") "licence" (arInitializeResourceBooking twoQueueConf
      (fun _ _ => 0) licenceReservation)
    capacity = 1 ∧
      scheduledAt false "licence" 0 (booked.books (.host "node")) =
        scheduledAt false "licence" 0 [] +
          (if licenceReservation.window.Covers 0 then capacity else 0) ∧
      scheduledAt false "licence" 0
          ((arDoReservation twoQueueConf licenceReservation false later).books (.host "node")) =
        scheduledAt false "licence" 0 (later.books (.host "node")) -
          if licenceReservation.window.Covers 0 then capacity else 0 := by
  have hlicence : licenceCEntry ∈ twoQueueConf.centries := by decide
  have hslots : licenceReservation.RequestsNoSlots := by
    unfold Reservation.RequestsNoSlots
    decide
  have hothers : ∀ call ∈ [(⟨licenceReservation, true⟩ : ReservationCall)],
      call.ar.Granted twoQueueConf :=
    List.forall_mem_singleton.mpr licenceReservation_granted
  refine ⟨by decide +kernel, ?_⟩
  exact capacity_eq_booked twoQueueConf_checked hslots licenceReservation_granted hlicence
    (by decide) (by decide) (fun _ _ => 0) (.host "node")
    (c := ⟨fun _ => [], fun _ => none⟩) orderedBooks_empty hothers 0

end ClusterScheduler.Consumables
