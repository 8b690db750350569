import ClusterScheduler.Consumables.ReservationCapacity
import ClusterScheduler.Sched.RsmapBelow

/-!
# Instances an advance reservation holds

A reservation that takes a resource map is granted particular instances of it, which are
booked in the diagram of the map.

* `ArGrant` — a granted resource with the amount it stands for.
* `arAddRsmapIds`, `arGrantedResources` — functions of the source.
* `takers` — the granted queue instances that take a map from a host.
* `lookup_arGrantedResources` — each of them names instances.
* `Nameable`, `arNameInstances_free` — what is named for an amount is free.
* `arGrantResources` — the reservation with what it was granted.
-/

namespace ClusterScheduler.Consumables

open Foundation Sched

/-! ## Data -/

structure ArGrant extends GrantedResource where
  amount : ℚ

def gruKey (gru : ArGrant) : String × String := (gru.name, gru.host)

abbrev HostMaps := String → String → Sgeobj.ResourceMap

/-! ## Functions of the source -/

def toUint32 (x : ℚ) : ℕ := ⌊x⌋₊ % 2 ^ 32

def addSelected (taken : List Resl) (sel : Sgeobj.Instance) : List Resl :=
  upsert Resl.value sel.value ⟨sel.value, 0⟩ (addUlong sel.amount) taken

/-- The instances that were held before and are still defined. -/
def previousInstances (definition : List Sgeobj.Instance) (previous : List ArGrant)
    (name hostName : String) : List Resl :=
  match lookup gruKey (name, hostName) previous with
  | none => []
  | some gru =>
    if gru.type = .resourceMap then
      gru.resourceMapList.filter fun resl => resl.value ∈ definition.map (·.value)
    else []

/-- Name the instances that the amount is still short of, if that many are free. -/
def arNameInstances (cmp : Sgeobj.Comparisons) (definition : List Sgeobj.Instance)
    (held : List Resl) (amount : ℚ) (gru : ArGrant) : ArGrant :=
  let gru := { gru with amount := gru.amount + amount }
  let named := (gru.resourceMapList.map Resl.amount).sum % 2 ^ 32
  let want := toUint32 gru.amount
  if want ≤ named then gru
  else
    let selected := Sgeobj.centryRsmapSelectInstances cmp (some definition) (asInstances held)
      (asInstances gru.resourceMapList) (want - named) [] ⟨none, []⟩
    if selected.1 then
      { gru with resourceMapList := selected.2.foldl addSelected gru.resourceMapList }
    else gru

def addBindingToUse (hostName : String) (bindingToUse : List (List Char))
    (grants : List ArGrant) : List ArGrant :=
  if bindingToUse = [] then grants
  else grants ++ [⟨⟨.binding, sgeAttrSlots, hostName, [], bindingToUse⟩, 0⟩]

section Functions

variable (cmp : Sgeobj.Comparisons) (conf : Conf) (maps : HostMaps) (books : Books) (now : ℕ)
  (previous : List ArGrant) (ar : Reservation)

def arHeld (name hostName : String) : List Resl :=
  utilizationRsmapMax (usageAt name (books (.host hostName))) now ar.window.startTime
    ar.window.duration

def newGrant (name hostName : String) : ArGrant :=
  ⟨⟨.resourceMap, name, hostName,
    previousInstances (maps hostName name).instances previous name hostName, []⟩, 0⟩

/-- The map need not be configured at the host. -/
def arAddRsmapIds (name hostName : String) (amount : ℚ) (grants : List ArGrant) :
    List ArGrant :=
  if name ∈ (conf.configAt (.host hostName)).getD [] ∧ 0 < amount then
    upsert gruKey (name, hostName) (newGrant maps previous name hostName)
      (arNameInstances cmp (maps hostName name).instances (arHeld books now ar name hostName)
        amount) grants
  else grants

def arGrantComplex (g : GrantedQueue) (isMasterQueue doPerHostBooking : Bool)
    (grants : List ArGrant) (cr : CEntry) : List ArGrant :=
  match arDoubleval conf ar g.slots isMasterQueue doPerHostBooking cr with
  | none => grants
  | some doubleval =>
    if cr.valtype = .rsmap then
      let grants := arAddRsmapIds cmp conf maps books now previous ar cr.name sgeGlobalName
        doubleval grants
      arAddRsmapIds cmp conf maps books now previous ar cr.name g.qhostname doubleval grants
    else grants

def arGrantQueue (g : GrantedQueue) (isMasterQueue doPerHostBooking : Bool)
    (grants : List ArGrant) : List ArGrant :=
  conf.centries.foldl
    (arGrantComplex cmp conf maps books now previous ar g isMasterQueue doPerHostBooking)
    (addBindingToUse g.qhostname g.bindingToUse grants)

def arGrantGdil : Bool → Option String → List GrantedQueue → List ArGrant → List ArGrant
  | _, _, [], grants => grants
  | isMasterQueue, lastHostname, g :: gdil, grants =>
    let perHost := hostDoPerHostBooking lastHostname g.qhostname
    arGrantGdil false perHost.2 gdil
      (arGrantQueue cmp conf maps books now previous ar g isMasterQueue perHost.1 grants)

/-- The granted resources `ar_initialize_resource_booking()` gives a reservation. -/
def arGrantedResources : List ArGrant :=
  arGrantGdil cmp conf maps books now previous ar true none ar.grantedSlots []

end Functions

/-! ## Who takes a map -/

section Takers

variable (conf : Conf) (ar : Reservation) (dcep : CEntry) (hostName : String)

/-- A granted queue instance as one that takes the map, if it takes it from this host. -/
def takersOn (tag : Tag) (host : String) (v : Visit) : List (Tag × Visit) :=
  if hostName = host ∧ dcep.name ∈ (conf.configAt (.host hostName)).getD [] ∧
      offered conf ar v dcep ≠ 0 then [(tag, v)]
  else []

def takersAt (v : Visit) : List (Tag × Visit) :=
  takersOn conf ar dcep hostName .globalTag sgeGlobalName v ++
    takersOn conf ar dcep hostName .hostTag v.granted.qhostname v

def takers : List (Tag × Visit) := ar.visits.flatMap (takersAt conf ar dcep hostName)

end Takers

/-! ## Each of them names instances -/

section Named

variable {cmp : Sgeobj.Comparisons} {conf : Conf} {maps : HostMaps} {books : Books} {now : ℕ}
  {previous : List ArGrant} {ar : Reservation} {dcep : CEntry} {hostName : String}

def nameFor (cmp : Sgeobj.Comparisons) (conf : Conf) (maps : HostMaps) (books : Books) (now : ℕ)
    (previous : List ArGrant) (ar : Reservation) (dcep : CEntry) (hostName : String)
    (gru : Option ArGrant) (taker : Tag × Visit) : Option ArGrant :=
  if 0 < offered conf ar taker.2 dcep then
    some (arNameInstances cmp (maps hostName dcep.name).instances
      (arHeld books now ar dcep.name hostName) (offered conf ar taker.2 dcep)
      (gru.getD (newGrant maps previous dcep.name hostName)))
  else gru

theorem gruKey_arNameInstances (definition : List Sgeobj.Instance) (held : List Resl) (amount : ℚ)
    (gru : ArGrant) : gruKey (arNameInstances cmp definition held amount gru) = gruKey gru := by
  unfold arNameInstances
  dsimp only
  split_ifs <;> rfl

theorem lookup_arAddRsmapIds_ne {name : String} (hname : dcep.name ≠ name) (host : String)
    (amount : ℚ) (grants : List ArGrant) :
    lookup gruKey (dcep.name, hostName)
      (arAddRsmapIds cmp conf maps books now previous ar name host amount grants) =
      lookup gruKey (dcep.name, hostName) grants := by
  have hne : (dcep.name, hostName) ≠ (name, host) := fun h => hname (Prod.mk.inj h).1
  unfold arAddRsmapIds
  split_ifs
  · rw [lookup_upsert (gruKey_arNameInstances _ _ _) (by rfl), if_neg hne]
  · rfl

theorem lookup_arAddRsmapIds (tag : Tag) (host : String) (v : Visit) (grants : List ArGrant) :
    lookup gruKey (dcep.name, hostName) (arAddRsmapIds cmp conf maps books now previous ar
      dcep.name host (offered conf ar v dcep) grants) =
      (takersOn conf ar dcep hostName tag host v).foldl
        (nameFor cmp conf maps books now previous ar dcep hostName)
        (lookup gruKey (dcep.name, hostName) grants) := by
  unfold arAddRsmapIds takersOn
  by_cases hhost : hostName = host
  · subst hhost
    by_cases hconfig : dcep.name ∈ (conf.configAt (.host hostName)).getD []
    · simp only [hconfig, true_and]
      by_cases hpos : 0 < offered conf ar v dcep
      · rw [if_pos hpos, if_pos (ne_of_gt hpos),
          lookup_upsert (gruKey_arNameInstances _ _ _) (by rfl), if_pos rfl]
        exact (if_pos hpos).symm
      · rw [if_neg hpos]
        split_ifs
        · exact (if_neg hpos).symm
        · rfl
    · rw [if_neg fun h => hconfig h.1, if_neg fun h => hconfig h.2.1]
      rfl
  · have hne : (dcep.name, hostName) ≠ (dcep.name, host) := fun h => hhost (Prod.mk.inj h).2
    have hother : ¬ (hostName = host ∧ dcep.name ∈ (conf.configAt (.host hostName)).getD [] ∧
        offered conf ar v dcep ≠ 0) := fun h => hhost h.1
    rw [if_neg hother]
    split_ifs
    · rw [lookup_upsert (gruKey_arNameInstances _ _ _) (by rfl), if_neg hne]
      rfl
    · rfl

theorem lookup_addBindingToUse (hname : dcep.name ≠ sgeAttrSlots) (host : String)
    (bindingToUse : List (List Char)) (grants : List ArGrant) :
    lookup gruKey (dcep.name, hostName) (addBindingToUse host bindingToUse grants) =
      lookup gruKey (dcep.name, hostName) grants := by
  have hne : gruKey ⟨⟨.binding, sgeAttrSlots, host, [], bindingToUse⟩, 0⟩ ≠
      (dcep.name, hostName) := by
    intro h
    exact hname (Prod.mk.inj h).1.symm
  unfold addBindingToUse
  split_ifs
  · rfl
  · rw [lookup_append, lookup_cons, if_neg hne, lookup_nil, Option.or_none]

theorem lookup_arGrantComplex (hrsmap : dcep.valtype = .rsmap) (v : Visit) {cr : CEntry}
    (hcr : cr.name = dcep.name → cr = dcep) (grants : List ArGrant) :
    lookup gruKey (dcep.name, hostName) (arGrantComplex cmp conf maps books now previous ar
      v.granted v.isMasterTask v.doPerHostBooking grants cr) =
      (if cr = dcep then takersAt conf ar dcep hostName v else []).foldl
        (nameFor cmp conf maps books now previous ar dcep hostName)
        (lookup gruKey (dcep.name, hostName) grants) := by
  unfold arGrantComplex
  by_cases heq : cr = dcep
  · subst heq
    rw [if_pos rfl]
    have hoffered : offered conf ar v cr =
      (arDoubleval conf ar v.granted.slots v.isMasterTask v.doPerHostBooking cr).getD 0 := rfl
    cases hdoubleval : arDoubleval conf ar v.granted.slots v.isMasterTask v.doPerHostBooking cr with
    | none =>
      rw [hdoubleval] at hoffered
      have hnone : ∀ tag host, takersOn conf ar cr hostName tag host v = [] :=
        fun tag host => if_neg fun h => h.2.2 hoffered
      rw [takersAt, hnone, hnone]
      rfl
    | some doubleval =>
      rw [hdoubleval, Option.getD_some] at hoffered
      dsimp only
      rw [if_pos hrsmap, ← hoffered, lookup_arAddRsmapIds .hostTag,
        lookup_arAddRsmapIds .globalTag, takersAt, List.foldl_append]
  · rw [if_neg heq]
    have hne : dcep.name ≠ cr.name := fun h => heq (hcr h.symm)
    cases arDoubleval conf ar v.granted.slots v.isMasterTask v.doPerHostBooking cr with
    | none => rfl
    | some doubleval =>
      dsimp only
      split_ifs
      · rw [lookup_arAddRsmapIds_ne hne, lookup_arAddRsmapIds_ne hne]
        rfl
      · rfl

theorem lookup_arGrantQueue (hconf : conf.Checked) (hdcep : dcep ∈ conf.centries)
    (hrsmap : dcep.valtype = .rsmap) (hslots : dcep.name ≠ sgeAttrSlots) (v : Visit)
    (grants : List ArGrant) :
    lookup gruKey (dcep.name, hostName) (arGrantQueue cmp conf maps books now previous ar
      v.granted v.isMasterTask v.doPerHostBooking grants) = (takersAt conf ar dcep hostName v).foldl
        (nameFor cmp conf maps books now previous ar dcep hostName)
        (lookup gruKey (dcep.name, hostName) grants) := by
  have hown : ∀ grants, lookup gruKey (dcep.name, hostName) (arGrantComplex cmp conf maps books
      now previous ar v.granted v.isMasterTask v.doPerHostBooking grants dcep) =
      (takersAt conf ar dcep hostName v).foldl
        (nameFor cmp conf maps books now previous ar dcep hostName)
        (lookup gruKey (dcep.name, hostName) grants) := by
    intro grants
    rw [lookup_arGrantComplex hrsmap v fun _ => rfl, if_pos rfl]
  have hothers : ∀ grants, ∀ cr ∈ conf.centries, cr ≠ dcep →
      lookup gruKey (dcep.name, hostName) (arGrantComplex cmp conf maps books now previous ar
        v.granted v.isMasterTask v.doPerHostBooking grants cr) =
        lookup gruKey (dcep.name, hostName) grants := by
    intro grants cr hcr hne
    rw [lookup_arGrantComplex hrsmap v (hconf.eq_of_name hcr hdcep), if_neg hne]
    rfl
  have hnodup := List.Nodup.of_map _ hconf.centries
  rw [arGrantQueue, foldl_acts_once (f := lookup gruKey (dcep.name, hostName))
    (g := fun gru => (takersAt conf ar dcep hostName v).foldl _ gru) hown hnodup hdcep hothers,
    lookup_addBindingToUse hslots]

/-- **The instances named** are those all takers name. -/
theorem lookup_arGrantedResources (hconf : conf.Checked) (hdcep : dcep ∈ conf.centries)
    (hrsmap : dcep.valtype = .rsmap) (hslots : dcep.name ≠ sgeAttrSlots) :
    lookup gruKey (dcep.name, hostName) (arGrantedResources cmp conf maps books now previous ar) =
      (takers conf ar dcep hostName).foldl
        (nameFor cmp conf maps books now previous ar dcep hostName) none := by
  have hgdil : ∀ gdil isMasterQueue lastHostname grants, lookup gruKey (dcep.name, hostName)
      (arGrantGdil cmp conf maps books now previous ar isMasterQueue lastHostname gdil grants) =
      ((visitsFrom isMasterQueue lastHostname gdil).flatMap (takersAt conf ar dcep hostName)).foldl
        (nameFor cmp conf maps books now previous ar dcep hostName)
        (lookup gruKey (dcep.name, hostName) grants) := by
    intro gdil
    induction gdil with
    | nil => exact fun _ _ _ => rfl
    | cons g gdil ih =>
      intro isMasterQueue lastHostname grants
      rw [arGrantGdil, ih, visitsFrom, List.flatMap_cons, List.foldl_append]
      congr 1
      exact lookup_arGrantQueue hconf hdcep hrsmap hslots ⟨g, isMasterQueue, _⟩ grants
  exact hgdil ar.grantedSlots true none []

end Named

/-! ## What is named is free -/

theorem addUlong_amount_le (amount : ℕ) (resl : Resl) :
    (addUlong amount resl).amount ≤ resl.amount + amount := by
  rw [addUlong]
  dsimp only
  omega

theorem reslAmount_addSelected (taken : List Resl) (sel : Sgeobj.Instance) (id : String) :
    reslAmount (addSelected taken sel) id ≤
      reslAmount taken id + if sel.value = id then sel.amount else 0 := by
  have hlookup : ∀ l, findResl l id = lookup Resl.value id l := fun _ => rfl
  rw [reslAmount, hlookup, addSelected, lookup_upsert (fun _ => by rfl) (by rfl)]
  by_cases hid : sel.value = id
  · subst hid
    rw [if_pos rfl, if_pos rfl, reslAmount, hlookup, Option.map_some, Option.getD_some]
    apply (addUlong_amount_le sel.amount _).trans
    cases lookup Resl.value sel.value taken with
    | none => exact le_rfl
    | some dst => exact le_rfl
  · rw [if_neg (Ne.symm hid), if_neg hid, reslAmount, hlookup, add_zero]

variable {taken : List Resl}

theorem distinctIds_addSelected (h : DistinctIds taken)
    (sel : Sgeobj.Instance) : DistinctIds (addSelected taken sel) :=
  nodup_upsert (fun _ => by rfl) (by rfl) h

def selectedTotal (selected : List Sgeobj.Instance) (id : String) : ℕ :=
  ((selected.filter (·.value = id)).map (·.amount)).sum

theorem selectedTotal_cons (sel : Sgeobj.Instance) (selected : List Sgeobj.Instance)
    (id : String) : selectedTotal (sel :: selected) id =
      (if sel.value = id then sel.amount else 0) + selectedTotal selected id := by
  unfold selectedTotal
  by_cases h : sel.value = id <;> simp [h]

theorem foldl_addSelected (selected : List Sgeobj.Instance)
    (h : DistinctIds taken) : DistinctIds (selected.foldl addSelected taken) ∧
      ∀ id, reslAmount (selected.foldl addSelected taken) id ≤
        reslAmount taken id + selectedTotal selected id := by
  induction selected generalizing taken with
  | nil => exact ⟨h, fun _ => le_rfl⟩
  | cons sel selected ih =>
    obtain ⟨hdistinct, hle⟩ := ih (distinctIds_addSelected h sel)
    refine ⟨hdistinct, fun id => (hle id).trans ?_⟩
    have hone := reslAmount_addSelected taken sel id
    rw [selectedTotal_cons]
    omega

theorem eq_nil_of_foldl_addSelected {selected : List Sgeobj.Instance}
    (h : selected.foldl addSelected taken = []) : selected = [] := by
  cases selected using List.reverseRecOn with
  | nil => rfl
  | append_singleton selected sel =>
    rw [List.foldl_append] at h
    have hsome : lookup Resl.value sel.value
        (addSelected (selected.foldl addSelected taken) sel) ≠ none := by
      rw [addSelected, lookup_upsert (fun _ => by rfl) (by rfl), if_pos rfl]
      exact Option.some_ne_none _
    exact absurd (congrArg (lookup Resl.value sel.value) h) hsome

/-- No more of an identifier is chosen than is left of it. -/
theorem selectedTotal_le {map : Sgeobj.ResourceMap} {taken : List Sgeobj.Instance}
    {isWanted : Sgeobj.Instance → Prop} {amount : ℕ} {chosen : List Sgeobj.Instance}
    (h : Sgeobj.Serves map taken isWanted amount chosen) (id : String) :
    selectedTotal chosen id ≤
      Sgeobj.takenAmount map.instances id - Sgeobj.takenAmount taken id := by
  have hpart : ∀ c ∈ chosen, c.value = id → c.amount ≤
      Sgeobj.takenAmount map.instances id - Sgeobj.takenAmount taken id := by
    rintro c hc rfl
    obtain ⟨e, he, hvalue, -, -, hle⟩ := h.part c hc
    have hfind : lookup (·.value) c.value map.instances = some e := by
      rw [← hvalue]
      exact lookup_of_mem map.distinct he
    have hamount : Sgeobj.takenAmount map.instances c.value = e.amount := by
      unfold Sgeobj.takenAmount
      rw [show map.instances.find? (·.value = c.value) = some e from hfind]
      rfl
    rwa [hamount, ← hvalue]
  have honce := h.once
  clear h
  induction chosen with
  | nil => exact Nat.zero_le _
  | cons c chosen ih =>
    obtain ⟨hc, hchosen⟩ := List.forall_mem_cons.mp hpart
    obtain ⟨hnot, honce⟩ := List.nodup_cons.mp honce
    rw [selectedTotal_cons]
    split_ifs with hid
    · have hrest : selectedTotal chosen id = 0 := by
        have hnone : chosen.filter (·.value = id) = [] := by
          apply List.filter_eq_nil_iff.mpr
          intro x hx hvalue
          exact hnot (List.mem_map.mpr ⟨x, hx, (of_decide_eq_true hvalue).trans hid.symm⟩)
        rw [selectedTotal, hnone]
        rfl
      rw [hrest]
      exact hc hid
    · rw [zero_add]
      exact ih hchosen honce

/-- The amount is one that instances can be named for: at least one whole instance, and as
many are free. -/
def Nameable (cmp : Sgeobj.Comparisons) (definition : List Sgeobj.Instance) (held : List Resl)
    (amount : ℚ) : Prop :=
  0 < toUint32 amount ∧
    toUint32 amount ≤ Sgeobj.centryRsmapFree cmp (some definition) (asInstances held) ⟨none, []⟩

section

variable {cmp : Sgeobj.Comparisons} {map : Sgeobj.ResourceMap} {held : List Resl} {amount : ℚ}
  {gru : ArGrant}

theorem type_arNameInstances (definition : List Sgeobj.Instance) :
    (arNameInstances cmp definition held amount gru).type = gru.type := by
  unfold arNameInstances
  dsimp only
  split_ifs <;> rfl

/-- **What is named** for a first amount is free. -/
theorem arNameInstances_free (hlist : gru.resourceMapList = []) (hamount : gru.amount = 0) :
    (∀ id, reslTotal (arNameInstances cmp map.instances held amount gru).resourceMapList id ≤
        Sgeobj.takenAmount map.instances id - reslAmount held id) ∧
      (Nameable cmp map.instances held amount →
        (arNameInstances cmp map.instances held amount gru).resourceMapList ≠ []) := by
  unfold arNameInstances Nameable
  dsimp only
  rw [hlist, hamount, zero_add]
  have hnamed : (([] : List Resl).map Resl.amount).sum % 2 ^ 32 = 0 := rfl
  rw [hnamed, Nat.sub_zero]
  by_cases hwant : toUint32 amount ≤ 0
  · rw [if_pos hwant, hlist]
    exact ⟨fun id => Nat.zero_le _, fun h => absurd h.1 (not_lt.mpr hwant)⟩
  · rw [if_neg hwant]
    have hselects := Sgeobj.selectInstances_selects cmp map (asInstances held) ⟨none, []⟩
      (not_le.mp hwant) []
    by_cases hselected : (Sgeobj.centryRsmapSelectInstances cmp (some map.instances)
        (asInstances held) [] (toUint32 amount) [] ⟨none, []⟩).1 = true
    · have hserves := hselects.serves hselected
      have hempty : DistinctIds ([] : List Resl) := List.nodup_nil
      obtain ⟨hdistinct, hle⟩ := foldl_addSelected
        (Sgeobj.centryRsmapSelectInstances cmp (some map.instances) (asInstances held) []
          (toUint32 amount) [] ⟨none, []⟩).2 hempty
      have hnothing : asInstances [] = [] := rfl
      rw [hnothing, if_pos hselected]
      refine ⟨fun id => ?_, fun _ => ?_⟩
      · rw [reslTotal_of_distinct hdistinct]
        have hchosen := selectedTotal_le hserves id
        rw [takenAmount_asInstances] at hchosen
        have htotal := hle id
        rw [reslAmount_nil, zero_add] at htotal
        exact htotal.trans hchosen
      · intro hnil
        obtain hselected := eq_nil_of_foldl_addSelected hnil
        have htotal := hserves.total
        rw [hselected] at htotal
        exact hwant htotal.symm.le
    · have hnothing : asInstances [] = [] := rfl
      rw [hnothing, if_neg hselected, hlist]
      exact ⟨fun id => Nat.zero_le _, fun h => absurd (hselects.iff_count.mpr h.2) hselected⟩

end

def Reservation.instances (ar : Reservation) (name host : String) : List Resl :=
  match ar.grantedResourcesList.find? fun gru => gru.name = name ∧ gru.host = host with
  | some gru => if gru.type = .resourceMap then gru.resourceMapList else []
  | none => []

def arGrantResources (cmp : Sgeobj.Comparisons) (conf : Conf) (maps : HostMaps) (books : Books)
    (now : ℕ) (ar : Reservation) : Reservation :=
  let previous := ar.grantedResourcesList.map fun gru => ⟨gru, 0⟩
  { ar with grantedResourcesList :=
      (arGrantedResources cmp conf maps books now previous ar).map ArGrant.toGrantedResource }

section

variable {cmp : Sgeobj.Comparisons} {conf : Conf} {maps : HostMaps} {books : Books} {now : ℕ}
  {ar : Reservation} {dcep : CEntry} {hostName : String}

theorem instances_arGrantResources (hnew : ar.grantedResourcesList = []) (name : String) :
    (arGrantResources cmp conf maps books now ar).instances name hostName =
      match lookup gruKey (name, hostName) (arGrantedResources cmp conf maps books now [] ar) with
      | some gru => if gru.type = .resourceMap then gru.resourceMapList else []
      | none => [] := by
  have hkey : ((fun gru : GrantedResource => decide (gru.name = name ∧ gru.host = hostName)) ∘
      ArGrant.toGrantedResource) = fun gru => decide (gruKey gru = (name, hostName)) := by
    funext gru
    exact decide_eq_decide.mpr Prod.mk_inj.symm
  unfold arGrantResources Reservation.instances
  dsimp only
  rw [hnew, List.find?_map, hkey, List.map_nil, lookup]
  cases (arGrantedResources cmp conf maps books now [] ar).find?
    fun gru => decide (gruKey gru = (name, hostName)) <;> rfl

variable (hconf : conf.Checked) (hdcep : dcep ∈ conf.centries) (hrsmap : dcep.valtype = .rsmap)
  (hslots : dcep.name ≠ sgeAttrSlots) (hnew : ar.grantedResourcesList = [])

include hconf hdcep hrsmap hslots hnew

theorem instances_of_no_taker (h : takers conf ar dcep hostName = []) :
    (arGrantResources cmp conf maps books now ar).instances dcep.name hostName = [] := by
  rw [instances_arGrantResources hnew, lookup_arGrantedResources hconf hdcep hrsmap hslots, h]
  rfl

theorem instances_of_taker {taker : Tag × Visit} (h : takers conf ar dcep hostName = [taker])
    (hpos : 0 < offered conf ar taker.2 dcep) :
    (arGrantResources cmp conf maps books now ar).instances dcep.name hostName =
      (arNameInstances cmp (maps hostName dcep.name).instances
        (arHeld books now ar dcep.name hostName) (offered conf ar taker.2 dcep)
        (newGrant maps [] dcep.name hostName)).resourceMapList := by
  rw [instances_arGrantResources hnew, lookup_arGrantedResources hconf hdcep hrsmap hslots, h,
    List.foldl_cons, List.foldl_nil, nameFor, if_pos hpos, Option.getD_none]
  exact if_pos (type_arNameInstances _)

end

end ClusterScheduler.Consumables
