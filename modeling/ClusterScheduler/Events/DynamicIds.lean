import ClusterScheduler.Foundation.Runs
import ClusterScheduler.Sgeobj.IdLists

/-!
# Ids of event clients

A client that registers without an id of its own draws one from a list of free ranges, and gives
it back when it is removed. The list is made anew when the maximum number of clients changes.

* `RegisteredClient`, `ClientIds` — the clients, the free ids and the maximum.
* `sgeSetMaxDynamicEventClients`, `allocateNewDynamicId`, `freeDynamicId`,
  `removeEventClient`, `processAddEventClient` — functions of the source.
* `IdsExclusive` — no two clients share an id, and no id in use is free.
* `DrawsOnce` — with a maximum whose last id wraps, only one client draws an id.
* `idsExclusive_iff` — ids are exclusive all along a run if and only if this is so.
* `idsExclusive_of_handle` — with the communication handle they always are.

Events, subscriptions and messages are left out.
-/

namespace ClusterScheduler.Events

open Foundation Sgeobj

/-! ## Data -/

def evIdFirstDynamic : ℕ := 11

def eventMasterMinFreeDescriptors : ℕ := 25

structure ClientAddress where
  host : String
  commproc : String
  commprocId : ℕ
  deriving DecidableEq

structure RegisteredClient where
  id : ℕ
  address : ClientAddress
  deriving DecidableEq

/-- What `Event_Master_Control` has of ids. -/
structure ClientIds where
  maxEventClients : ℕ
  clientIds : Option (List Range)
  clients : List RegisteredClient
  deriving DecidableEq

def ClientIds.initial : ClientIds := ⟨0, none, []⟩

def ClientIds.free (s : ClientIds) : List Range := s.clientIds.getD []

/-! ## Functions of the source -/

def rangeListGetFirstId (l : List Range) : ℕ := (l.head?.map (·.min)).getD 0

def rangeListIsEmpty (l : List Range) : Bool := rangeListGetNumberOfIds l = 0

/-- The most clients that the communication library has file handles for. -/
def maxAllowedValue (maxFileHandles : ℕ) : ℕ :=
  if eventMasterMinFreeDescriptors ≤ maxFileHandles then
    sub32 (maxFileHandles % 2 ^ 32) eventMasterMinFreeDescriptors
  else 1

/-- The ids of one client are taken out. -/
def takeClientId (ids : Option (List Range)) (client : RegisteredClient) : Option (List Range) :=
  if evIdFirstDynamic ≤ client.id ∧ rangeListIsIdWithin (ids.getD []) client.id then
    rangeListRemoveId ids client.id
  else ids

def allIds (max : ℕ) : Range :=
  rangeSetAllIds evIdFirstDynamic (add32 (sub32 max 1) evIdFirstDynamic) 1

/-- `handle` has the file handles of the communication library, once it is set up. -/
def sgeSetMaxDynamicEventClients (s : ClientIds) (handle : Option ℕ) (newValue : ℕ) : ClientIds :=
  let max :=
    if newValue ≠ s.maxEventClients then
      match handle with
      | none => newValue
      | some maxFileHandles => min newValue (maxAllowedValue maxFileHandles)
    else newValue
  if max ≠ s.maxEventClients then
    { s with
      maxEventClients := max
      clientIds := (s.clients.foldl takeClientId (some [allIds max])).map rangeListCompress }
  else s

/-- An id of 0 is none. -/
def allocateNewDynamicId (s : ClientIds) : ℕ × ClientIds :=
  if rangeListIsEmpty s.free then (0, s)
  else
    let id := rangeListGetFirstId s.free
    if id ≠ 0 then
      (id, { s with clientIds := (rangeListRemoveId s.clientIds id).map rangeListCompress })
    else (id, s)

section Functions

variable (σ : Sorter)

def freeDynamicId (s : ClientIds) (id : ℕ) : ClientIds :=
  if id < add32 s.maxEventClients evIdFirstDynamic then
    { s with clientIds := some (rangeListCompress (rangeListInsertId σ s.free id)) }
  else s

/-- The client at a position of the list is removed. -/
def removeEventClient (s : ClientIds) (k : ℕ) : ClientIds :=
  match s.clients[k]? with
  | none => s
  | some client =>
    let s := { s with clients := s.clients.eraseIdx k }
    if evIdFirstDynamic ≤ client.id then freeDynamicId σ s client.id else s

/-- The first client of a kind is removed, if there is one. -/
def removeLocated (s : ClientIds) (p : RegisteredClient → Bool) : ClientIds :=
  match s.clients.findIdx? p with
  | none => s
  | some k => removeEventClient σ s k

def appendClient (s : ClientIds) (id : ℕ) (address : ClientAddress) : ClientIds :=
  { s with clients := s.clients ++ [⟨id, address⟩] }

/-- There is one client for each fixed id. Not everybody may register one. -/
def addWithId (s : ClientIds) (id : ℕ) (address : ClientAddress) (mayFix : Bool) : ClientIds :=
  if 0 < id ∧ id < evIdFirstDynamic then
    if mayFix then appendClient (removeLocated σ s fun client => client.id = id) id address else s
  else appendClient s id address

/-- `sge_event_master_process_add_event_client()`. A client that registers again replaces the
one with its address. -/
def processAddEventClient (s : ClientIds) (clio : RegisteredClient) (mayFix : Bool) : ClientIds :=
  if evIdFirstDynamic ≤ clio.id then s
  else if clio.id = 0 then
    let drawn := allocateNewDynamicId (removeLocated σ s fun client => client.address = clio.address)
    if drawn.1 = 0 then drawn.2 else addWithId σ drawn.2 drawn.1 clio.address mayFix
  else addWithId σ s clio.id clio.address mayFix

end Functions

/-! ## Runs -/

inductive ClientAct where
  | setMax (handle : Option ℕ) (newValue : ℕ)
  | add (clio : RegisteredClient) (mayFix : Bool)
  | remove (k : ℕ)

def clientStep (σ : Sorter) (s : ClientIds) : ClientAct → Option ClientIds
  | .setMax handle newValue => some (sgeSetMaxDynamicEventClients s handle newValue)
  | .add clio mayFix => some (processAddEventClient σ s clio mayFix)
  | .remove k => some (removeEventClient σ s k)

def ClientAct.Valid : ClientAct → Prop
  | .setMax _ newValue => 1 ≤ newValue ∧ newValue < 2 ^ 32
  | _ => True

/-- No two dynamic clients have the same id, no free id belongs to a client, and every free id
is below the limit. -/
structure IdsExclusive (s : ClientIds) : Prop where
  distinct : ((s.clients.map (·.id)).filter (evIdFirstDynamic ≤ ·)).Nodup
  unused : ∀ id, Has s.free id → id ∉ s.clients.map (·.id)
  bounds : ∀ id, Has s.free id →
    evIdFirstDynamic ≤ id ∧ id < evIdFirstDynamic + s.maxEventClients

/-- The last id up to the maximum does not fit 32 bits. -/
def Overflows (max : ℕ) : Prop := 2 ^ 32 < max + evIdFirstDynamic

instance (max : ℕ) : Decidable (Overflows max) := inferInstanceAs (Decidable (_ < _))

/-- With a maximum whose last id wraps, a client draws an id only if nobody has the first one. -/
def DrawsOnce (σ : Sorter) (s : ClientIds) : ClientAct → Prop
  | .add clio _ => clio.id = 0 → Overflows s.maxEventClients →
      evIdFirstDynamic ∉
        (removeLocated σ s fun client => client.address = clio.address).clients.map (·.id)
  | _ => True

/-! ## Free ids

The list of free ids is in order, or it is the one range that ends before it begins. -/

/-- No range wraps. -/
structure InOrder (s : ClientIds) : Prop where
  fits : s.maxEventClients + evIdFirstDynamic ≤ 2 ^ 32
  canonical : Canonical s.free

/-- The last id is a small number. -/
structure Inverted (s : ClientIds) : Prop where
  wraps : s.maxEventClients = 0 ∨ Overflows s.maxEventClients
  ids : s.clientIds =
    some [⟨evIdFirstDynamic, (s.maxEventClients + 10) % 2 ^ 32, 1⟩]

/-- What every action keeps. -/
structure IdsKept (s : ClientIds) : Prop where
  exclusive : IdsExclusive s
  small : s.maxEventClients < 2 ^ 32
  order : InOrder s ∨ Inverted s

theorem idsKept_initial : IdsKept .initial where
  exclusive := ⟨by simp [ClientIds.initial], by simp [ClientIds.initial, ClientIds.free],
    by simp [ClientIds.initial, ClientIds.free]⟩
  small := by decide
  order := .inl ⟨by decide, Canonical.nil⟩

variable {s : ClientIds} {σ : Sorter}

theorem Inverted.last_lt (h : Inverted s) (hs : s.maxEventClients < 2 ^ 32) :
    (s.maxEventClients + 10) % 2 ^ 32 < evIdFirstDynamic := by
  have hwraps := h.wraps
  simp only [Overflows, evIdFirstDynamic] at hwraps ⊢
  omega

theorem Inverted.free_eq (h : Inverted s) :
    s.free = [⟨evIdFirstDynamic, (s.maxEventClients + 10) % 2 ^ 32, 1⟩] := by
  rw [ClientIds.free, h.ids, Option.getD_some]

variable {last id : ℕ}

theorem not_within_inverted (h : last < evIdFirstDynamic) :
    ¬ rangeListIsIdWithin [⟨evIdFirstDynamic, last, 1⟩] id = true := by
  rw [listWithin_iff]
  rintro ⟨r, hr, hmin, hmax, -⟩
  obtain rfl := List.mem_singleton.mp hr
  exact absurd (Nat.lt_of_le_of_lt hmax h) (Nat.not_lt.mpr hmin)

theorem Inverted.not_has (h : Inverted s) (hs : s.maxEventClients < 2 ^ 32) (id : ℕ) :
    ¬ Has s.free id := by
  rw [h.free_eq, has_iff]
  exact not_within_inverted (h.last_lt hs)

/-! ## The maximum is set -/

theorem takeClientId_spec {ids : Option (List Range)} (client : RegisteredClient)
    (hcan : Canonical (ids.getD [])) (hge : ∀ x, Has (ids.getD []) x → evIdFirstDynamic ≤ x) :
    Canonical ((takeClientId ids client).getD []) ∧
      ∀ x, Has ((takeClientId ids client).getD []) x ↔ Has (ids.getD []) x ∧ x ≠ client.id := by
  unfold takeClientId
  split
  · obtain ⟨hcan', -, hids⟩ := removeIdLoop_spec client.id hcan
    rw [getD_removeId]
    exact ⟨hcan', hids⟩
  · next hnot =>
      refine ⟨hcan, fun x => ⟨fun hx => ⟨hx, ?_⟩, And.left⟩⟩
      rintro rfl
      exact hnot ⟨hge _ hx, has_iff.mp hx⟩

theorem takeClientIds_spec (ids : Option (List Range)) (clients : List RegisteredClient)
    (hcan : Canonical (ids.getD [])) (hge : ∀ x, Has (ids.getD []) x → evIdFirstDynamic ≤ x) :
    Canonical ((clients.foldl takeClientId ids).getD []) ∧
      ∀ x, Has ((clients.foldl takeClientId ids).getD []) x ↔
        Has (ids.getD []) x ∧ x ∉ clients.map (·.id) := by
  induction clients generalizing ids with
  | nil => exact ⟨hcan, fun x => by simp⟩
  | cons client clients ih =>
    obtain ⟨hcan', hids⟩ := takeClientId_spec client hcan hge
    obtain ⟨hcan'', hids'⟩ := ih _ hcan' fun x hx => hge x ((hids x).mp hx).1
    refine ⟨hcan'', fun x => ?_⟩
    rw [List.foldl_cons, hids', hids, List.map_cons, List.mem_cons, not_or, and_assoc]

/-- From the range that holds nothing, nothing is taken. -/
theorem takeClientIds_inverted (h : last < evIdFirstDynamic) (clients : List RegisteredClient) :
    clients.foldl takeClientId (some [⟨evIdFirstDynamic, last, 1⟩]) =
      some [⟨evIdFirstDynamic, last, 1⟩] := by
  induction clients with
  | nil => rfl
  | cons client clients ih =>
    have hnot : takeClientId (some [⟨evIdFirstDynamic, last, 1⟩]) client =
        some [⟨evIdFirstDynamic, last, 1⟩] :=
      if_neg fun hw => not_within_inverted h hw.2
    rw [List.foldl_cons, hnot, ih]

variable {max : ℕ}

theorem allIds_fits (hpos : 1 ≤ max) (hfits : max + evIdFirstDynamic ≤ 2 ^ 32) :
    allIds max = rangeSetAllIds evIdFirstDynamic (max + 10) 1 := by
  have hlast : add32 (sub32 max 1) evIdFirstDynamic = max + 10 := by
    simp only [add32, sub32, evIdFirstDynamic] at hfits ⊢
    omega
  rw [allIds, hlast]

theorem allIds_eq (max : ℕ) : allIds max = ⟨evIdFirstDynamic, (max + 10) % 2 ^ 32, 1⟩ := by
  have hlast : add32 (sub32 max 1) evIdFirstDynamic = (max + 10) % 2 ^ 32 := by
    simp only [add32, sub32, evIdFirstDynamic]
    omega
  simp [allIds, rangeSetAllIds, hlast]

theorem setMax_kept (h : IdsKept s) (hsmall : max < 2 ^ 32) :
    IdsKept { s with
      maxEventClients := max
      clientIds := (s.clients.foldl takeClientId (some [allIds max])).map rangeListCompress } := by
  rcases Decidable.em (max = 0 ∨ Overflows max) with hwraps | hfits
  · have hlast : (max + 10) % 2 ^ 32 < evIdFirstDynamic := by
      simp only [Overflows, evIdFirstDynamic] at hwraps ⊢
      omega
    rw [allIds_eq, takeClientIds_inverted hlast]
    have hinv : Inverted ⟨max, some [⟨evIdFirstDynamic, (max + 10) % 2 ^ 32, 1⟩], s.clients⟩ :=
      ⟨hwraps, rfl⟩
    refine ⟨⟨h.exclusive.distinct, fun id hid => ?_, fun id hid => ?_⟩, hsmall, .inr hinv⟩
    · exact absurd hid (hinv.not_has hsmall id)
    · exact absurd hid (hinv.not_has hsmall id)
  · obtain ⟨hne, hover⟩ := not_or.mp hfits
    have hmax : max + evIdFirstDynamic ≤ 2 ^ 32 := Nat.le_of_not_lt hover
    have hal : Aligned (rangeSetAllIds evIdFirstDynamic (max + 10) 1) := by
      simp only [evIdFirstDynamic] at hmax ⊢
      apply aligned_set _ Nat.one_pos (by decide) (Nat.one_dvd _)
      · omega
      · omega
    have hhas : ∀ x, Has [rangeSetAllIds evIdFirstDynamic (max + 10) 1] x →
        evIdFirstDynamic ≤ x ∧ x ≤ max + 10 := by
      intro x hx
      simp only [has_cons, has_nil, or_false, onGrid_set] at hx
      exact ⟨hx.1, hx.2.1⟩
    obtain ⟨hcan, hids⟩ := takeClientIds_spec (some [allIds max]) s.clients
      (by rw [allIds_fits (Nat.pos_of_ne_zero hne) hmax]
          exact Canonical.cons hal (by simp) Canonical.nil)
      (by rw [allIds_fits (Nat.pos_of_ne_zero hne) hmax]
          exact fun x hx => (hhas x hx).1)
    obtain ⟨hcan', hids'⟩ := rangeListCompress_spec hcan
    have hfree : ∀ x, Has (((s.clients.foldl takeClientId (some [allIds max])).map
        rangeListCompress).getD []) x →
        (evIdFirstDynamic ≤ x ∧ x ≤ max + 10) ∧ x ∉ s.clients.map (·.id) := by
      intro x hx
      rw [getD_map_compress, hids', hids, Option.getD_some,
        allIds_fits (Nat.pos_of_ne_zero hne) hmax] at hx
      exact ⟨hhas x hx.1, hx.2⟩
    refine ⟨⟨h.exclusive.distinct, fun id hid => (hfree id hid).2, fun id hid => ?_⟩, hsmall,
      .inl ⟨hmax, ?_⟩⟩
    · obtain ⟨⟨hge, hle⟩, -⟩ := hfree id hid
      refine ⟨hge, ?_⟩
      show id < 11 + max
      omega
    · show Canonical _
      rw [ClientIds.free, getD_map_compress]
      exact hcan'

theorem IdsKept.setMax (h : IdsKept s) (handle : Option ℕ) {newValue : ℕ}
    (hnew : newValue < 2 ^ 32) : IdsKept (sgeSetMaxDynamicEventClients s handle newValue) := by
  have hmin : ∀ m, min newValue m < 2 ^ 32 := fun m => Nat.lt_of_le_of_lt (min_le_left _ _) hnew
  unfold sgeSetMaxDynamicEventClients
  dsimp only
  split_ifs
  · cases handle with
    | none => exact setMax_kept h hnew
    | some maxFileHandles => exact setMax_kept h (hmin _)
  · exact h
  · exact h

/-! ## A client is removed -/

@[simp] theorem freeDynamicId_clients (id : ℕ) : (freeDynamicId σ s id).clients = s.clients := by
  unfold freeDynamicId
  split <;> rfl

@[simp] theorem freeDynamicId_max (id : ℕ) :
    (freeDynamicId σ s id).maxEventClients = s.maxEventClients := by
  unfold freeDynamicId
  split <;> rfl

/-- The limit of an inverted list is below every dynamic id, so nothing is given back. -/
theorem Inverted.freeDynamicId_eq (h : Inverted s) (hs : s.maxEventClients < 2 ^ 32)
    (hid : evIdFirstDynamic ≤ id) : freeDynamicId σ s id = s := by
  refine if_neg (Nat.not_lt.mpr (Nat.le_trans ?_ hid))
  have hwraps := h.wraps
  simp only [Overflows, add32, evIdFirstDynamic] at hwraps ⊢
  omega

/-- With the last maximum that fits the limit itself wraps to 0, and nothing is given back. -/
theorem InOrder.freeDynamicId_spec (h : InOrder s) (id : ℕ) :
    InOrder (freeDynamicId σ s id) ∧ ∀ x, Has (freeDynamicId σ s id).free x →
      Has s.free x ∨ x = id ∧ id < evIdFirstDynamic + s.maxEventClients := by
  unfold freeDynamicId
  split
  · next hlt =>
      have hfits := h.fits
      have hbound : id < 2 ^ 32 := Nat.lt_trans hlt (Nat.mod_lt _ (by decide))
      obtain ⟨hcan, hids⟩ := rangeListInsertId_spec σ h.canonical hbound
      obtain ⟨hcan', hids'⟩ := rangeListCompress_spec hcan
      refine ⟨⟨hfits, hcan'⟩, fun x hx => ?_⟩
      rcases (hids x).mp ((hids' x).mp hx) with rfl | hx
      · refine .inr ⟨rfl, ?_⟩
        simp only [add32, evIdFirstDynamic] at hlt hfits ⊢
        omega
      · exact .inl hx
  · exact ⟨h, fun x hx => .inl hx⟩

theorem IdsKept.free (h : IdsKept s) (hid : evIdFirstDynamic ≤ id)
    (hnot : id ∉ s.clients.map (·.id)) : IdsKept (freeDynamicId σ s id) := by
  rcases h.order with hord | hinv
  · obtain ⟨hord', hids⟩ := hord.freeDynamicId_spec (σ := σ) id
    refine ⟨⟨by simpa using h.exclusive.distinct, fun x hx => ?_, fun x hx => ?_⟩,
      by simpa using h.small, .inl hord'⟩
    · rw [freeDynamicId_clients]
      rcases hids x hx with hx | ⟨rfl, -⟩
      · exact h.exclusive.unused x hx
      · exact hnot
    · rw [freeDynamicId_max]
      rcases hids x hx with hx | ⟨rfl, hlt⟩
      · exact h.exclusive.bounds x hx
      · exact ⟨hid, hlt⟩
  · rw [hinv.freeDynamicId_eq h.small hid]
    exact h

theorem IdsKept.erase (h : IdsKept s) (k : ℕ) :
    IdsKept { s with clients := s.clients.eraseIdx k } := by
  have hsub : List.Sublist ((s.clients.eraseIdx k).map (·.id)) (s.clients.map (·.id)) :=
    (List.eraseIdx_sublist _ _).map _
  exact ⟨⟨h.exclusive.distinct.sublist (hsub.filter _),
    fun id hid hmem => h.exclusive.unused id hid (hsub.mem hmem), h.exclusive.bounds⟩, h.small,
    h.order.imp (fun ho => ⟨ho.fits, ho.canonical⟩) fun hi => ⟨hi.wraps, hi.ids⟩⟩

theorem not_mem_erase (h : IdsExclusive s) {k : ℕ} {client : RegisteredClient}
    (hk : s.clients[k]? = some client) (hid : evIdFirstDynamic ≤ client.id) :
    client.id ∉ (s.clients.eraseIdx k).map (·.id) := by
  intro hmem
  obtain ⟨hlt, hget⟩ := List.getElem?_eq_some_iff.mp hk
  have hsplit : s.clients = s.clients.take k ++ client :: s.clients.drop (k + 1) := by
    rw [← hget, List.cons_getElem_drop_succ, List.take_append_drop]
  have hdistinct := h.distinct
  rw [hsplit, List.map_append, List.map_cons, List.filter_append, List.filter_cons,
    if_pos (by simpa using hid), List.nodup_middle] at hdistinct
  apply (List.nodup_cons.mp hdistinct).1
  rw [List.eraseIdx_eq_take_drop_succ, List.map_append] at hmem
  rw [← List.filter_append, List.mem_filter]
  exact ⟨hmem, by simpa using hid⟩

theorem IdsKept.remove (h : IdsKept s) (k : ℕ) : IdsKept (removeEventClient σ s k) := by
  unfold removeEventClient
  cases hk : s.clients[k]? with
  | none => exact h
  | some client =>
    dsimp only
    split_ifs with hid
    · exact (h.erase k).free hid (not_mem_erase h.exclusive hk hid)
    · exact h.erase k

theorem removeEventClient_max (k : ℕ) :
    (removeEventClient σ s k).maxEventClients = s.maxEventClients := by
  unfold removeEventClient
  split
  · rfl
  · dsimp only
    split_ifs
    · rw [freeDynamicId_max]
    · rfl

theorem IdsKept.removeLocated (h : IdsKept s) (p : RegisteredClient → Bool) :
    IdsKept (removeLocated σ s p) := by
  unfold Events.removeLocated
  split
  · exact h
  · exact h.remove _

theorem removeLocated_max (p : RegisteredClient → Bool) :
    (removeLocated σ s p).maxEventClients = s.maxEventClients := by
  unfold removeLocated
  split
  · rfl
  · exact removeEventClient_max _

/-! ## A client registers -/

theorem IdsKept.append (h : IdsKept s) (address : ClientAddress) (hfree : ¬ Has s.free id)
    (hnot : evIdFirstDynamic ≤ id → id ∉ s.clients.map (·.id)) :
    IdsKept (appendClient s id address) := by
  refine ⟨⟨?_, fun x hx => ?_, h.exclusive.bounds⟩, h.small,
    h.order.imp (fun ho => ⟨ho.fits, ho.canonical⟩) fun hi => ⟨hi.wraps, hi.ids⟩⟩
  · rw [appendClient, List.map_append, List.filter_append, List.nodup_append']
    refine ⟨h.exclusive.distinct, List.Nodup.filter _ (List.nodup_singleton _), ?_⟩
    intro x hx hx'
    obtain ⟨hmem, hge⟩ := List.mem_filter.mp hx'
    obtain rfl : x = id := by simpa using hmem
    exact hnot (by simpa using hge) (List.mem_filter.mp hx).1
  · rw [appendClient, List.map_append, List.mem_append, not_or]
    refine ⟨h.exclusive.unused x hx, ?_⟩
    intro hmem
    obtain rfl : x = id := by simpa using hmem
    exact hfree hx

theorem IdsKept.not_has_fixed (h : IdsKept s) (hid : id < evIdFirstDynamic) : ¬ Has s.free id :=
  fun hhas => Nat.not_le.mpr hid (h.exclusive.bounds id hhas).1

/-- **Drawing from a list in order.** The id is free, and is not free afterwards. -/
theorem InOrder.allocate_spec (h : InOrder s) :
    allocateNewDynamicId s = (0, s) ∨
      Has s.free (allocateNewDynamicId s).1 ∧
      (allocateNewDynamicId s).2.clients = s.clients ∧
      (allocateNewDynamicId s).2.maxEventClients = s.maxEventClients ∧
      Canonical (allocateNewDynamicId s).2.free ∧
      ∀ x, Has (allocateNewDynamicId s).2.free x ↔
        Has s.free x ∧ x ≠ (allocateNewDynamicId s).1 := by
  unfold allocateNewDynamicId
  split_ifs with hempty
  · exact .inl rfl
  · dsimp only
    split_ifs with hid
    · obtain ⟨hcan, -, hids⟩ := removeIdLoop_spec (rangeListGetFirstId s.free) h.canonical
      obtain ⟨hcan', hids'⟩ := rangeListCompress_spec hcan
      refine .inr ⟨?_, rfl, rfl, ?_, fun x => ?_⟩
      · -- the first id of a list that is not empty is one of its ids
        cases hl : s.free with
        | nil => simp [hl, rangeListIsEmpty, rangeListGetNumberOfIds] at hempty
        | cons r rest =>
          have hal : Aligned r := h.canonical.aligned r (by simp [hl])
          exact (has_cons _ _ _).mpr (.inl ⟨Nat.le_refl _, hal.le, by simp [rangeListGetFirstId]⟩)
      · rw [ClientIds.free, getD_map_compress, getD_removeId]
        exact hcan'
      · rw [ClientIds.free, getD_map_compress, getD_removeId, ← ClientIds.free, hids', hids]
    · exact .inl (by rw [not_not.mp hid])

/-- A drawn id belongs to nobody, and is not free any more. -/
structure Drawn (s : ClientIds) (drawn : ℕ × ClientIds) : Prop where
  kept : IdsKept drawn.2
  clients : drawn.2.clients = s.clients
  notFree : drawn.1 ≠ 0 → ¬ Has drawn.2.free drawn.1
  unused : drawn.1 ≠ 0 → drawn.1 ∉ s.clients.map (·.id)

theorem IdsKept.drawn_none (h : IdsKept s) : Drawn s (0, s) :=
  ⟨h, rfl, fun hne => absurd rfl hne, fun hne => absurd rfl hne⟩

theorem IdsKept.drawn_inOrder (h : IdsKept s) (hord : InOrder s) :
    Drawn s (allocateNewDynamicId s) := by
  rcases hord.allocate_spec with heq | ⟨hhas, hclients, hmax, hcan, hids⟩
  · rw [heq]
    exact h.drawn_none
  · refine ⟨⟨⟨?_, fun id hid => ?_, fun id hid => ?_⟩, ?_, .inl ⟨?_, hcan⟩⟩, hclients,
      fun _ hhas' => ((hids _).mp hhas').2 rfl, fun _ => h.exclusive.unused _ hhas⟩
    · rw [hclients]
      exact h.exclusive.distinct
    · rw [hclients]
      exact h.exclusive.unused id ((hids id).mp hid).1
    · rw [hmax]
      exact h.exclusive.bounds id ((hids id).mp hid).1
    · rw [hmax]
      exact h.small
    · rw [hmax]
      exact hord.fits

theorem rangeGetNumberOfIds_inverted (last : ℕ) :
    rangeGetNumberOfIds ⟨evIdFirstDynamic, last, 1⟩ = add32 1 (sub32 last evIdFirstDynamic) := by
  rw [rangeGetNumberOfIds, Nat.div_one]

theorem rangeListIsEmpty_inverted (h : last < evIdFirstDynamic) :
    rangeListIsEmpty [⟨evIdFirstDynamic, last, 1⟩] = true ↔ last = 10 := by
  rw [rangeListIsEmpty, decide_eq_true_iff, rangeListGetNumberOfIds, List.foldl_cons,
    List.foldl_nil, rangeGetNumberOfIds_inverted]
  simp only [add32, sub32, evIdFirstDynamic] at h ⊢
  omega

theorem Inverted.allocate_eq (h : Inverted s) (hs : s.maxEventClients < 2 ^ 32) :
    allocateNewDynamicId s = (if Overflows s.maxEventClients then evIdFirstDynamic else 0, s) := by
  have hlast := h.last_lt hs
  have hempty : rangeListIsEmpty s.free = true ↔ ¬ Overflows s.maxEventClients := by
    rw [h.free_eq, rangeListIsEmpty_inverted hlast]
    have hwraps := h.wraps
    simp only [Overflows, evIdFirstDynamic] at hwraps ⊢
    omega
  have hremove : (rangeListRemoveId s.clientIds evIdFirstDynamic).map rangeListCompress =
      s.clientIds := by
    have hnot : ¬ rangeIsIdWithin
        ⟨evIdFirstDynamic, (s.maxEventClients + 10) % 2 ^ 32, 1⟩ evIdFirstDynamic = true := by
      intro hw
      exact not_within_inverted hlast (by simpa [rangeListIsIdWithin] using hw)
    rw [h.ids, rangeListRemoveId, Option.bind_some, removeIdLoop, if_neg hnot, removeIdLoop]
    rfl
  unfold allocateNewDynamicId
  by_cases hover : Overflows s.maxEventClients
  · have hfirst : rangeListGetFirstId s.free = evIdFirstDynamic := by
      rw [h.free_eq]
      rfl
    rw [if_neg fun he => hempty.mp he hover, hfirst, if_pos hover]
    dsimp only
    rw [if_pos (by decide), hremove]
  · rw [if_pos (hempty.mpr hover), if_neg hover]

/-- If the list is inverted, only the first client may draw. -/
theorem IdsKept.allocate (h : IdsKept s)
    (honce : Overflows s.maxEventClients → evIdFirstDynamic ∉ s.clients.map (·.id)) :
    Drawn s (allocateNewDynamicId s) := by
  rcases h.order with hord | hinv
  · exact h.drawn_inOrder hord
  · rw [hinv.allocate_eq h.small]
    split_ifs with hover
    · exact ⟨h, rfl, fun _ => hinv.not_has h.small _, fun _ => honce hover⟩
    · exact h.drawn_none

theorem IdsKept.addWithId (h : IdsKept s) (address : ClientAddress) (mayFix : Bool)
    (hfree : ¬ Has s.free id) (hnot : evIdFirstDynamic ≤ id → id ∉ s.clients.map (·.id)) :
    IdsKept (addWithId σ s id address mayFix) := by
  unfold Events.addWithId
  split_ifs with hfixed
  · have hrem : IdsKept (Events.removeLocated σ s fun client => client.id = id) := h.removeLocated _
    exact hrem.append address (hrem.not_has_fixed hfixed.2)
      fun hge => absurd hfixed.2 (Nat.not_lt.mpr hge)
  · exact h
  · exact h.append address hfree hnot

theorem IdsKept.add (h : IdsKept s) (clio : RegisteredClient) (mayFix : Bool)
    (honce : DrawsOnce σ s (.add clio mayFix)) :
    IdsKept (processAddEventClient σ s clio mayFix) := by
  unfold processAddEventClient
  split_ifs with hdyn hzero
  · exact h
  · have hrem : IdsKept (Events.removeLocated σ s fun client => client.address = clio.address) :=
      h.removeLocated _
    have hdrawn := hrem.allocate fun hover => honce hzero (by rwa [removeLocated_max] at hover)
    dsimp only
    split_ifs with hnone
    · exact hdrawn.kept
    · apply hdrawn.kept.addWithId _ _ (hdrawn.notFree hnone)
      intro _
      rw [hdrawn.clients]
      exact hdrawn.unused hnone
  · have hlt : clio.id < evIdFirstDynamic := Nat.lt_of_not_le hdyn
    exact h.addWithId _ _ (h.not_has_fixed hlt) fun hge => absurd hlt (Nat.not_lt.mpr hge)

/-- Two clients that draw from the inverted list get the same id. -/
theorem drawsOnce_of_distinct (h : IdsKept s) (clio : RegisteredClient) (mayFix : Bool)
    (hafter : IdsExclusive (processAddEventClient σ s clio mayFix)) :
    DrawsOnce σ s (.add clio mayFix) := by
  intro hzero hover hmem
  have hrem : IdsKept (removeLocated σ s fun client => client.address = clio.address) :=
    h.removeLocated _
  have hover' :
      Overflows (removeLocated σ s fun client => client.address = clio.address).maxEventClients := by
    rwa [removeLocated_max]
  have hinv : Inverted (removeLocated σ s fun client => client.address = clio.address) :=
    hrem.order.resolve_left fun hord => absurd hord.fits (Nat.not_le.mpr hover')
  have hresult : processAddEventClient σ s clio mayFix =
      appendClient (removeLocated σ s fun client => client.address = clio.address) evIdFirstDynamic
        clio.address := by
    unfold processAddEventClient
    rw [hinv.allocate_eq hrem.small, if_pos hover']
    simp [hzero, addWithId, evIdFirstDynamic]
  have hdistinct := hafter.distinct
  rw [hresult] at hdistinct
  simp only [appendClient, List.map_append, List.filter_append, List.nodup_append'] at hdistinct
  refine hdistinct.2.2 (List.mem_filter.mpr ⟨hmem, by simp⟩) ?_
  simp

/-! ## Exclusive ids -/

variable {act : ClientAct} {s' : ClientIds}

theorem IdsKept.step (h : IdsKept s) (hvalid : act.Valid)
    (honce : DrawsOnce σ s act) (hstep : clientStep σ s act = some s') : IdsKept s' := by
  cases act with
  | setMax handle newValue =>
    cases hstep
    exact h.setMax handle hvalid.2
  | add clio mayFix =>
    cases hstep
    exact h.add clio mayFix honce
  | remove k =>
    cases hstep
    exact h.remove k

theorem drawsOnce_of_step (h : IdsKept s)
    (hstep : clientStep σ s act = some s') (hafter : IdsExclusive s') : DrawsOnce σ s act := by
  cases act with
  | setMax handle newValue => trivial
  | add clio mayFix =>
    cases hstep
    exact drawsOnce_of_distinct h clio mayFix hafter
  | remove k => trivial

/-- **Exclusive ids.** Whatever the maximum is set to, in every state of every run ids are
exclusive if and only if with a maximum whose last id wraps no second client draws one. -/
theorem idsExclusive_iff (σ : Sorter) (acts : List ClientAct) (hvalid : ∀ act ∈ acts, act.Valid) :
    EveryState (clientStep σ) IdsExclusive .initial acts ↔
      EveryStep (clientStep σ) (DrawsOnce σ) .initial acts :=
  everyState_iff_everyStep (I := IdsKept)
    (fun _ _ _ hkept hact honce hstep => hkept.step hact honce hstep)
    (fun _ hkept => hkept.exclusive)
    (fun _ _ _ hkept _ hstep hafter => drawsOnce_of_step hkept hstep hafter)
    idsKept_initial hvalid

/-- The maximum is lowered while two clients are registered, the second one leaves. -/
theorem idsExclusive_lowered :
    EveryState (clientStep sortByMin) IdsExclusive .initial
      [.setMax none 5, .add ⟨0, "host", "qstat", 1⟩ false, .add ⟨0, "host", "drmaa", 2⟩ false,
        .setMax none 1, .remove 1] := by
  refine (idsExclusive_iff sortByMin _ (by simp [ClientAct.Valid])).mpr ?_
  refine (everyStep_cons rfl).mpr ⟨trivial, ?_⟩
  refine (everyStep_cons rfl).mpr ⟨fun _ hover => absurd hover (by decide +kernel), ?_⟩
  refine (everyStep_cons rfl).mpr ⟨fun _ hover => absurd hover (by decide +kernel), ?_⟩
  refine (everyStep_cons rfl).mpr ⟨trivial, ?_⟩
  exact (everyStep_cons rfl).mpr ⟨trivial, trivial⟩

/-- With the maximum -6, read as a number of 32 bits, two clients both get the id 11. -/
theorem dynamicIds_shared :
    (∀ act ∈ [ClientAct.setMax none 4294967290, .add ⟨0, "host", "qstat", 1⟩ false,
      .add ⟨0, "host", "drmaa", 2⟩ false], act.Valid) ∧
    ¬ EveryState (clientStep sortByMin) IdsExclusive .initial
      [.setMax none 4294967290, .add ⟨0, "host", "qstat", 1⟩ false,
        .add ⟨0, "host", "drmaa", 2⟩ false] := by
  refine ⟨by simp [ClientAct.Valid], fun h => ?_⟩
  have hdistinct := (((h.2 _ rfl).2 _ rfl).2 _ rfl).distinct
  revert hdistinct
  decide +kernel

/-! ## With the communication handle -/

theorem allocateNewDynamicId_max :
    (allocateNewDynamicId s).2.maxEventClients = s.maxEventClients := by
  unfold allocateNewDynamicId
  dsimp only
  split_ifs <;> rfl

theorem addWithId_max (id : ℕ) (address : ClientAddress) (mayFix : Bool) :
    (addWithId σ s id address mayFix).maxEventClients = s.maxEventClients := by
  unfold addWithId
  split_ifs
  · exact removeLocated_max _
  · rfl
  · rfl

theorem processAddEventClient_max (clio : RegisteredClient) (mayFix : Bool) :
    (processAddEventClient σ s clio mayFix).maxEventClients = s.maxEventClients := by
  unfold processAddEventClient
  dsimp only
  split_ifs
  · rfl
  · rw [allocateNewDynamicId_max, removeLocated_max]
  · rw [addWithId_max, allocateNewDynamicId_max, removeLocated_max]
  · exact addWithId_max ..

/-- The maximum is set by a daemon whose communication handle is there, as in the qmaster. -/
def ClientAct.HasHandle : ClientAct → Prop
  | .setMax handle _ => ∃ maxFileHandles < 2 ^ 32, handle = some maxFileHandles
  | _ => True

theorem not_overflows_step (hs : ¬ Overflows s.maxEventClients) (hhandle : act.HasHandle)
    (hstep : clientStep σ s act = some s') : ¬ Overflows s'.maxEventClients := by
  cases act with
  | setMax handle newValue =>
    cases hstep
    obtain ⟨m, hm, rfl⟩ := hhandle
    have hallowed : maxAllowedValue m ≤ 2 ^ 32 - 26 := by
      unfold maxAllowedValue sub32 eventMasterMinFreeDescriptors
      split_ifs with hm'
      · omega
      · omega
    simp only [Overflows, evIdFirstDynamic] at hs ⊢
    unfold sgeSetMaxDynamicEventClients
    dsimp only
    split_ifs with hnew hmax
    · have := min_le_right newValue (maxAllowedValue m)
      dsimp only
      omega
    · exact hs
    · exact hs
  | add clio mayFix =>
    cases hstep
    rwa [processAddEventClient_max]
  | remove k =>
    cases hstep
    rwa [removeEventClient_max]

/-- With the handle the maximum is limited, and ids are exclusive in every state. -/
theorem idsExclusive_of_handle (σ : Sorter) (acts : List ClientAct)
    (hacts : ∀ act ∈ acts, act.Valid ∧ act.HasHandle) :
    EveryState (clientStep σ) IdsExclusive .initial acts := by
  refine everyState_of_everyStep (Q := fun _ _ => True)
    (I := fun s => IdsKept s ∧ ¬ Overflows s.maxEventClients) ?_ (fun _ h => h.1.exclusive)
    ⟨idsKept_initial, by decide⟩ hacts ?_
  · rintro s act s' ⟨hkept, hfits⟩ ⟨hvalid, hhandle⟩ - hstep
    refine ⟨hkept.step hvalid ?_ hstep, not_overflows_step hfits hhandle hstep⟩
    cases act with
    | add clio mayFix => exact fun _ hover => absurd hover hfits
    | _ => trivial
  · suffices h : ∀ s, EveryStep (clientStep σ) (fun _ _ => True) s acts from h _
    clear hacts
    induction acts with
    | nil => exact fun _ => trivial
    | cons act acts ih => exact fun s s' _ => ⟨trivial, ih s'⟩

end ClusterScheduler.Events
