import ClusterScheduler.Cull.OlderReleases

/-!
# Lists in one buffer

Lists and free elements go one after another into one buffer, and a receiver with the same
types reads them in the same order.

* `fieldValue_roundTrip` — the fields of an element that was read back.
* `wire_roundTrip` — after each of them the receiver has read what was packed so far, with the
  same descriptors, and the tables have the same entries.
* `wire_emptyName` — a list with an empty name is read as one without a name.
-/

namespace ClusterScheduler.Cull

open Foundation

section

variable {ns : NameSpace} {heap : ℕ → Reduction ns}

def tableEntries (heap : ℕ → Reduction ns) (tab : List ℕ) : List (List DescrEntry) :=
  tab.map fun h => (heap h).entries

theorem receiverTable_self (tab : List ℕ) :
    receiverTable heap ns.growsTo_self tab = tableEntries heap tab := by
  rw [receiverTable, tableEntries]
  simp only [Reduction.grow_self]

/-- What the sender's value is read as, with the same types on both sides. -/
abbrev readBack (heap : ℕ → Reduction ns) : MultiType (HeldDescr ns) → Received :=
  received heap ns.growsTo_self

abbrev readBackCont (heap : ℕ → Reduction ns) (d : HeldDescr ns)
    (cont : List (MultiType (HeldDescr ns))) : List Received :=
  receivedCont heap ns.growsTo_self d (cont.map (readBack heap))

abbrev CullItem.readBack (heap : ℕ → Reduction ns) :
    CullItem (HeldDescr ns) → CullItem (List DescrEntry) :=
  CullItem.received heap ns.growsTo_self

theorem fieldValue_roundTrip (d : HeldDescr ns) {cont : List (MultiType (HeldDescr ns))} {nm : ℤ}
    {f : PresentField} {v : MultiType (HeldDescr ns)}
    (hf : lookup (·.nm) nm (presentFields (d.entries heap)) = some f)
    (hv : cont[f.slot]? = some v) :
    fieldValue (d.entries heap) (readBackCont heap d cont) nm =
      some (if mtDoTransfer f.mt then readBack heap v else unreadValue f.mt) := by
  have hsent : fieldValue (d.received heap ns.growsTo_self) (readBackCont heap d cont) nm =
      some (if mtDoTransfer f.mt then readBack heap v else unreadValue f.mt) :=
    fieldValue_sent d hf hv
  rwa [d.received_self heap] at hsent

end

/-! ## A buffer of many items -/

section

variable {ns : NameSpace}

def cullPackItems (heap : ℕ → Reduction ns) (items : List (CullItem (HeldDescr ns))) :
    PackM (List Byte) :=
  writeAll (items.map (cullPackItem heap))

def cullUnpackItems (ns : NameSpace) {D : Type} (items : List (CullItem D)) :
    UnpackM (List (CullItem (List DescrEntry))) :=
  items.mapM (cullUnpackItem ns)

variable {heap : ℕ → Reduction ns}

theorem inverts_items (n : ℕ) (items : List (CullItem (HeldDescr ns))) :
    Inverts n TableBound (tableEntries heap) (cullPackItems heap items)
      (cullUnpackItems ns items) (items.map (CullItem.readBack heap)) := by
  have hitems := inverts_writeAll (B := TableBound) (T := receiverTable heap ns.growsTo_self)
    (n := n) (w := cullPackItem heap) (p := cullUnpackItem ns)
    (List.forall₂_same.mpr fun x (_ : x ∈ items) => inverts_cullPackItem x)
  rwa [show receiverTable heap ns.growsTo_self = tableEntries heap from
    funext receiverTable_self] at hitems

theorem writeAll_append {σ ε : Type} {ws ws' : List (WriteM σ ε (List Byte))} {s s'' : σ}
    {out : List Byte} (h : (writeAll (ws ++ ws')).run s = .ok (out, s'')) :
    ∃ bs s' cs, (writeAll ws).run s = .ok (bs, s') ∧ (writeAll ws').run s' = .ok (cs, s'') ∧
      out = bs ++ cs := by
  induction ws generalizing s out with
  | nil => exact ⟨[], s, out, rfl, h, rfl⟩
  | cons w ws ih =>
    obtain ⟨b₁, s₁, hb₁, htail⟩ := run_bind_eq_ok.mp h
    obtain ⟨b₂, s₂, hb₂, hout⟩ := run_bind_eq_ok.mp htail
    obtain ⟨rfl, rfl⟩ := Prod.mk.inj (run_pure_eq_ok.mp hout)
    obtain ⟨bs, s', cs, hbs, hcs, rfl⟩ := ih hb₂
    refine ⟨b₁ ++ bs, s', cs, ?_, hcs, (List.append_assoc _ _ _).symm⟩
    exact run_bind_eq_ok.mpr ⟨b₁, s₁, hb₁, run_bind_eq_ok.mpr ⟨bs, s', hbs, rfl⟩⟩

/-- Items without signed numbers are packed. After `k` items the receiver has read them from the
bytes written so far, and what is left in the buffer was written later. -/
theorem wire_roundTrip (heap : ℕ → Reduction ns) :
    (∀ items : List (CullItem (HeldDescr ns)), (∀ x ∈ items, x.WellTyped heap) →
      ∃ bs tab, (cullPackItems heap items).run [] = .ok (bs, tab)) ∧
    (∀ (items : List (CullItem (HeldDescr ns))) bs tab,
      (cullPackItems heap items).run [] = .ok (bs, tab) → tab.length ≤ 2 ^ 32 →
      (cullUnpackItems ns items).run (bs, []) =
        .ok (items.map (CullItem.readBack heap), [], tableEntries heap tab) ∧
      ∀ k, ∃ written tab' later, bs = written ++ later ∧
        (cullPackItems heap (items.take k)).run [] = .ok (written, tab') ∧
        (cullUnpackItems ns (items.take k)).run (bs, []) =
          .ok ((items.take k).map (CullItem.readBack heap), later, tableEntries heap tab')) ∧
    (∀ d : HeldDescr ns, d.received heap ns.growsTo_self = d.entries heap) ∧
    (∀ (d : HeldDescr ns) (cont : List (MultiType (HeldDescr ns))) nm f v,
      lookup (·.nm) nm (presentFields (d.entries heap)) = some f → cont[f.slot]? = some v →
      fieldValue (d.entries heap) (readBackCont heap d cont) nm =
        some (if mtDoTransfer f.mt then readBack heap v else unreadValue f.mt)) := by
  refine ⟨fun items h => succeeds_writeAll (List.forall_mem_map.mpr fun x hx =>
    succeeds_item x (h x hx)) [], fun items bs tab hpack hbound => ⟨?_, fun k => ?_⟩,
    fun d => d.received_self heap, fun d cont nm f v hf hv => fieldValue_roundTrip d hf hv⟩
  · have hread := (inverts_items _ items [] bs tab hpack le_rfl hbound).2 []
    rwa [List.append_nil] at hread
  · have hsplit := hpack
    rw [cullPackItems, ← List.take_append_drop k items, List.map_append] at hsplit
    obtain ⟨written, tab', later, hwritten, hlater, rfl⟩ := writeAll_append hsplit
    have hbound' := (inverts_items later.length (items.drop k) tab' later tab hlater le_rfl
      hbound).1
    exact ⟨written, tab', later, rfl, hwritten,
      (inverts_items _ _ [] written tab' hwritten le_rfl hbound').2 later⟩

end

theorem zero_notMem_nil : (0 : Byte) ∉ [] := List.not_mem_nil

def emptyNameList : CullItem (HeldDescr (oneType olderCounter)) :=
  .list (some ⟨[], zero_notMem_nil⟩) (.static olderCounter (List.mem_singleton_self _)) []

theorem wire_roundTrip_counters : ∃ bs tab,
    (cullPackItems (fun _ => counterOnly) [counterLists, emptyNameList]).run [] = .ok (bs, tab) ∧
    (cullUnpackItems (oneType olderCounter) [counterLists, emptyNameList]).run (bs, []) =
      .ok ([counterLists, emptyNameList].map (CullItem.readBack fun _ => counterOnly), [],
        tableEntries (fun _ => counterOnly) tab) :=
  ⟨_, _, rfl, ((wire_roundTrip fun _ => counterOnly).2.1 _ _ _ rfl (by decide)).1⟩

set_option maxRecDepth 2000 in
theorem wire_emptyName : ∃ bs,
    (cullPackItem (fun _ => counterOnly) emptyNameList).run [] = .ok (bs, []) ∧
    (cullUnpackItem (oneType olderCounter) emptyNameList).run (bs, []) =
      .ok (.list none olderCounter.entries [], [], []) :=
  ⟨_, rfl, rfl⟩

end ClusterScheduler.Cull
