import ClusterScheduler.Cull.ReceivedLists

/-!
# Lists of older releases

A receiver whose types grew reads what an older release packed. The values are stated by field
numbers here.

* `fieldValue` — the value of a field of an element.
* `fieldValue_received` — what a field number stands for at the receiver.
* `olderRelease_read` — all bytes are read, every field the sender had has its value, further
  fields of a type have initial values, and further fields of a reduction are absent.
* `olderRelease_noTransfer` — a field that is not transferred loses its value.
-/

namespace ClusterScheduler.Cull

open Foundation

def fieldValue {D : Type} (dp : List DescrEntry) (cont : List (MultiType D)) (nm : ℤ) :
    Option (MultiType D) :=
  (lookup (·.nm) nm (presentFields dp)).bind fun f => cont[f.slot]?

/-! ## Fields by number -/

theorem InOrder.getElem?_slot {α : Type} {dp : List DescrEntry} (h : InOrder dp)
    {f : PresentField} (hf : f ∈ presentFields dp) (g : PresentField → α) :
    ((presentFields dp).map g)[f.slot]? = some (g f) := by
  obtain ⟨i, hi⟩ := List.mem_iff_getElem?.mp hf
  have hslot := congrArg (·[i]?) h.slots
  obtain ⟨hlt, -⟩ := List.getElem?_eq_some_iff.mp hi
  simp only [List.getElem?_map, hi, Option.map_some, List.getElem?_range' hlt, Option.some_inj,
    zero_add, one_mul] at hslot
  rw [hslot, List.getElem?_map, hi, Option.map_some]

section

variable {ns ns' : NameSpace} {heap : ℕ → Reduction ns} {hgrow : ns.GrowsTo ns'}

theorem fieldValue_received (d : HeldDescr ns) (values : List Received) {f' : PresentField}
    (hf' : f' ∈ presentFields (d.received heap hgrow)) :
    fieldValue (d.received heap hgrow) (receivedCont heap hgrow d values) f'.nm =
      some (receivedField heap d values f') := by
  have horder := d.inOrder_received heap hgrow
  rw [fieldValue, lookup_of_mem horder.nodup hf', Option.bind_some, receivedCont,
    horder.getElem?_slot hf']

variable {f : PresentField}

theorem exists_receivedField (d : HeldDescr ns) (hf : f ∈ presentFields (d.entries heap)) :
    ∃ f' ∈ presentFields (d.received heap hgrow), SameField f f' := by
  have hsame := forall₂_sameField heap hgrow d
  obtain ⟨i, hi⟩ := List.mem_iff_get.mp hf
  have hi' : i.val < ((presentFields (d.received heap hgrow)).take
      (presentFields (d.entries heap)).length).length := hsame.length_eq ▸ i.isLt
  exact ⟨_, List.mem_of_mem_take (List.getElem_mem hi'), hi ▸ hsame.get i.isLt hi'⟩

variable {nm : ℤ}

theorem fieldValue_sent (d : HeldDescr ns) {cont : List (MultiType (HeldDescr ns))}
    {v : MultiType (HeldDescr ns)} (hf : lookup (·.nm) nm (presentFields (d.entries heap)) = some f)
    (hv : cont[f.slot]? = some v) :
    fieldValue (d.received heap hgrow)
        (receivedCont heap hgrow d (cont.map (received heap hgrow))) nm =
      some (if mtDoTransfer f.mt then received heap hgrow v else unreadValue f.mt) := by
  have hmem : f ∈ presentFields (d.entries heap) := List.mem_of_find?_eq_some hf
  obtain ⟨f', hf', hsame⟩ : ∃ f' ∈ presentFields (d.received heap hgrow), SameField f f' :=
    exists_receivedField d hmem
  rw [← lookup_key hf, hsame.1, fieldValue_received d _ hf',
    receivedField_of_sameField d _ hmem hsame, sentValue, List.getD_eq_getElem?_getD,
    List.getElem?_map, hv, Option.map_some, Option.getD_some]

variable {t : ObjectType}

theorem mem_static (hf : f ∈ presentFields t.entries) :
    ∃ p, ∃ hp : p < t.fields.length, f.nm = t.lower + p ∧ f.mt = t.fields[p] := by
  rw [presentFields_entries] at hf
  exact mem_keptFields hf

theorem map_nm_static (t : ObjectType) :
    (presentFields t.entries).map (·.nm) =
      (List.range' 0 t.fields.length).map fun p : ℕ => (t.lower : ℤ) + p := by
  have hlen : (List.replicate t.fields.length true).length = t.fields.length :=
    List.length_replicate
  have hnm := map_nm_keptFields t.lower 0 0 hlen
  rw [Nat.cast_zero, add_zero, keptIndices_replicate] at hnm
  rwa [presentFields_entries]

theorem fieldValue_further (known : t ∈ ns.types) (values : List Received)
    {p : ℕ} (hnew : t.fields.length ≤ p) (hp : p < (grown ns' t).fields.length) :
    fieldValue ((HeldDescr.static t known).received heap hgrow)
        (receivedCont heap hgrow (.static t known) values) ((t.lower : ℤ) + p) =
      some (unreadValue (grown ns' t).fields[p]) := by
  obtain ⟨-, hlower, -⟩ := hgrow.grown_spec known
  have hmem : (t.lower : ℤ) + p ∈ (presentFields (grown ns' t).entries).map (·.nm) := by
    rw [map_nm_static, hlower]
    exact List.mem_map.mpr ⟨p, List.mem_range'_1.mpr ⟨Nat.zero_le p, by omega⟩, rfl⟩
  obtain ⟨f', hf', hnm⟩ := List.mem_map.mp hmem
  obtain ⟨q, hq, hqnm, hqmt⟩ := mem_static hf'
  obtain rfl : q = p := by
    rw [hlower] at hqnm
    omega
  have hfresh : f'.nm ∉ (presentFields
      ((HeldDescr.static t known).entries heap)).map (·.nm) := by
    rintro hold
    obtain ⟨f, hf, heq⟩ := List.mem_map.mp hold
    obtain ⟨r, hr, hrnm, -⟩ := mem_static hf
    rw [heq, hqnm, hlower] at hrnm
    omega
  rw [← hnm, fieldValue_received (HeldDescr.static t known) values hf',
    receivedField_of_new _ values hfresh, hqmt]

theorem map_nm_grow (hgrow : ns.GrowsTo ns') (r : Reduction ns) :
    (presentFields (r.grow hgrow).entries).map (·.nm) = (presentFields r.entries).map (·.nm) := by
  have hnm := map_nm_keptFields (r.grow hgrow).type.lower 0 0 (r.grow hgrow).length_eq
  have hnm' := map_nm_keptFields r.type.lower 0 0 r.length_eq
  have hlower : (r.grow hgrow).type.lower = r.type.lower := (hgrow.grown_spec r.known).2.1
  have hkeep : keptIndices 0 (r.grow hgrow).keep = keptIndices 0 r.keep :=
    keptIndices_append_false 0 _ r.keep
  rw [Nat.cast_zero, add_zero] at hnm hnm'
  rw [hkeep, hlower, ← hnm'] at hnm
  rw [Reduction.presentFields_entries, Reduction.presentFields_entries, List.map_map,
    List.map_map, hlower]
  exact hnm

theorem fieldValue_absent {h : ℕ} (values : List Received)
    (hnm : nm ∉ (presentFields (heap h).entries).map (·.nm)) :
    fieldValue ((HeldDescr.counted h).received heap hgrow)
      (receivedCont heap hgrow (.counted h) values) nm = none := by
  rw [← map_nm_grow hgrow] at hnm
  rw [fieldValue, HeldDescr.received, lookup_eq_none.mpr hnm, Option.bind_none]

end

/-! ## Reading an older release -/

/-- An item without signed numbers is packed. The receiver reads all bytes of an item, and the
tables stay in step. A value is read as `received`: a field of the sender that is transferred has
its value, further fields of a type have the values of a new element, and a reduction has no
further fields. -/
theorem olderRelease_read {ns ns' : NameSpace} (hgrow : ns.GrowsTo ns') (heap : ℕ → Reduction ns) :
    (∀ (x : CullItem (HeldDescr ns)) tab, x.WellTyped heap →
      ∃ bs tab', (cullPackItem heap x).run tab = .ok (bs, tab')) ∧
    (∀ (x : CullItem (HeldDescr ns)) tab bs tab',
      (cullPackItem heap x).run tab = .ok (bs, tab') → tab'.length ≤ 2 ^ 32 → ∀ rest,
      (cullUnpackItem ns' x).run (bs ++ rest, receiverTable heap hgrow tab) =
        .ok (x.received heap hgrow, rest, receiverTable heap hgrow tab')) ∧
    (∀ (d : HeldDescr ns) (cont : List (MultiType (HeldDescr ns))) nm f v,
      lookup (·.nm) nm (presentFields (d.entries heap)) = some f → cont[f.slot]? = some v →
      fieldValue (d.received heap hgrow)
          (receivedCont heap hgrow d (cont.map (received heap hgrow))) nm =
        some (if mtDoTransfer f.mt then received heap hgrow v else unreadValue f.mt)) ∧
    (∀ t (known : t ∈ ns.types) values p (hp : p < (grown ns' t).fields.length),
      t.fields.length ≤ p → fieldValue ((HeldDescr.static t known).received heap hgrow)
          (receivedCont heap hgrow (.static t known) values) ((t.lower : ℤ) + p) =
        some (unreadValue (grown ns' t).fields[p])) ∧
    (∀ h values nm, (heap h).Proper → nm ∉ (presentFields (heap h).entries).map (·.nm) →
      fieldValue ((HeldDescr.counted h).received heap hgrow)
        (receivedCont heap hgrow (.counted h) values) nm = none) := by
  refine ⟨fun x tab h => succeeds_item x h tab, fun x tab bs tab' hpack hbound rest => ?_,
    fun d cont nm f v hf hv => ?_, fun t known values p hp hnew => ?_,
    fun h values nm _ hnm => ?_⟩
  · exact (inverts_cullPackItem x tab bs tab' hpack le_rfl hbound).2 rest
  · exact fieldValue_sent d hf hv
  · exact fieldValue_further known values hnew hp
  · exact fieldValue_absent values hnm

/-! ## Examples -/

def oneType (t : ObjectType) : NameSpace := ⟨[t], List.pairwise_singleton _ _⟩

/-- A counter and a name. -/
def olderCounter : ObjectType where
  lower := 100
  fields := [2, 6]

/-- The same type with a time stamp. -/
def newerCounter : ObjectType where
  lower := 100
  fields := [2, 6, 11]

theorem counter_growsTo : (oneType olderCounter).GrowsTo (oneType newerCounter) := by
  intro t ht
  obtain rfl := List.mem_singleton.mp ht
  exact ⟨newerCounter, List.mem_singleton_self _, rfl, by decide⟩

/-- The counter alone. -/
def counterOnly : Reduction (oneType olderCounter) where
  type := olderCounter
  known := List.mem_singleton_self _
  keep := [true, false]
  length_eq := rfl
  keeps := by decide

def counterLists : CullItem (HeldDescr (oneType olderCounter)) :=
  .list (some ⟨[99], by decide⟩) (.static olderCounter (List.mem_singleton_self _))
    [[.ulong 7, .string (some ⟨[120], by decide⟩)]]

theorem counterLists_wellTyped : counterLists.WellTyped fun _ => counterOnly := by
  refine ⟨⟨?_, trivial, trivial, trivial⟩, trivial⟩
  exact List.forall_mem_cons.mpr
    ⟨⟨.ulong, rfl, by decide, by decide, fun _ => ⟨_, rfl, rfl⟩⟩, List.forall_mem_cons.mpr
      ⟨⟨.string, rfl, by decide, by decide, fun _ => ⟨_, rfl, rfl⟩⟩, List.forall_mem_nil _⟩⟩

theorem olderRelease_read_counter :
    (∃ bs tab, (cullPackItem (fun _ => counterOnly) counterLists).run [5] = .ok (bs, tab)) ∧ ∃ bs,
    (cullPackItem (fun _ => counterOnly) counterLists).run [] = .ok (bs, []) ∧
    (cullUnpackItem (oneType newerCounter) counterLists).run (bs ++ [], []) =
      .ok (counterLists.received (fun _ => counterOnly) counter_growsTo, [], []) :=
  have hread := olderRelease_read counter_growsTo fun _ => counterOnly
  ⟨hread.1 counterLists [5] counterLists_wellTyped,
    _, rfl, hread.2.1 counterLists [] _ [] rfl (by decide) []⟩

/-- A counter that stays in the process. -/
def localCounter : ObjectType where
  lower := 200
  fields := [2 ||| cullNoTransfer]

def localReduction : Reduction (oneType localCounter) where
  type := localCounter
  known := List.mem_singleton_self _
  keep := [true]
  length_eq := rfl
  keeps := by decide

def localElem : CullItem (HeldDescr (oneType localCounter)) :=
  .freeElem (.static localCounter (List.mem_singleton_self _)) [.ulong 5]

set_option maxRecDepth 2000 in
/-- The value 5 of the sender is read as 0. -/
theorem olderRelease_noTransfer : ∃ bs,
    (cullPackItem (fun _ => localReduction) localElem).run [] = .ok (bs, []) ∧
    (cullUnpackItem (oneType localCounter) localElem).run (bs, []) =
      .ok (.freeElem localCounter.entries [.ulong 0], [], []) ∧
    fieldValue localCounter.entries
      [(.ulong 5 : MultiType (HeldDescr (oneType localCounter)))] 200 = some (.ulong 5) ∧
    fieldValue localCounter.entries [(.ulong 0 : Received)] 200 = some (.ulong 0) :=
  ⟨_, rfl, rfl, rfl, rfl⟩

end ClusterScheduler.Cull
