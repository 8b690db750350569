import ClusterScheduler.Cull.DescriptorTable

/-!
# What is received

The receiver's types may have more fields than the sender's. What it gets for a list or an
element is said by field numbers here, and the bytes are shown to give it.

* `received`, `receivedCont` — the receiver's value: each field the sender had, and initial
  values for fields that are not transferred or that a type did not have yet.
* `inverts_cullPackSwitch`, `inverts_cullPackItem` — every packed value is read as that.
-/

namespace ClusterScheduler.Cull

open Foundation

/-! ## The receiver's values -/

section

variable {ns ns' : NameSpace} (heap : ℕ → Reduction ns) (hgrow : ns.GrowsTo ns')

/-- The value of a field of the receiver, for the received values of the sender's slots. -/
def receivedField (d : HeldDescr ns) (values : List Received) (f' : PresentField) : Received :=
  match lookup (·.nm) f'.nm (presentFields (d.entries heap)) with
  | some f => if mtDoTransfer f.mt then values.getD f.slot (unreadValue f'.mt) else unreadValue f'.mt
  | none => unreadValue f'.mt

def receivedCont (d : HeldDescr ns) (values : List Received) : List Received :=
  (presentFields (d.received heap hgrow)).map (receivedField heap d values)

mutual

/-- Pointers do not leave the process, and an empty string is read as none. -/
def received : MultiType (HeldDescr ns) → Received
  | .list listname descr elems =>
    .list (unsetEmpty listname) (descr.received heap hgrow)
      ((receivedElems elems).map (receivedCont heap hgrow descr))
  | .object descr cont =>
    .object (descr.received heap hgrow) (receivedCont heap hgrow descr (receivedValues cont))
  | .bool b => .bool b
  | .ulong ul => .ulong ul
  | .ulong64 ul64 => .ulong64 ul64
  | .long l => .long l
  | .int i => .int i
  | .double db => .double db
  | .string str => .string (unsetEmpty str)
  | .host host => .host (unsetEmpty host)
  | .ref _ => .ref none
  | .nullList => .nullList
  | .nullObject => .nullObject

def receivedValues : List (MultiType (HeldDescr ns)) → List Received
  | [] => []
  | v :: cont => received v :: receivedValues cont

def receivedElems : List (List (MultiType (HeldDescr ns))) → List (List Received)
  | [] => []
  | cont :: elems => receivedValues cont :: receivedElems elems

end

/-- What is read back for an item. -/
def CullItem.received : CullItem (HeldDescr ns) → CullItem (List DescrEntry)
  | .nullList => .nullList
  | .list listname descr elems =>
    .list (unsetEmpty listname) (descr.received heap hgrow)
      (elems.map fun cont => receivedCont heap hgrow descr (cont.map (Cull.received heap hgrow)))
  | .freeElem descr cont =>
    .freeElem (descr.received heap hgrow)
      (receivedCont heap hgrow descr (cont.map (Cull.received heap hgrow)))

/-- The reader for an item. -/
def cullUnpackItem (ns : NameSpace) {D : Type} :
    CullItem D → UnpackM (CullItem (List DescrEntry))
  | .nullList | .list .. => cullUnpackList ns
  | .freeElem .. => cullUnpackElem ns

theorem receivedValues_eq (cont : List (MultiType (HeldDescr ns))) :
    receivedValues heap hgrow cont = cont.map (received heap hgrow) := by
  induction cont with
  | nil => rw [receivedValues, List.map_nil]
  | cons v cont ih => rw [receivedValues, List.map_cons, ih]

theorem receivedElems_eq (elems : List (List (MultiType (HeldDescr ns)))) :
    receivedElems heap hgrow elems = elems.map (·.map (received heap hgrow)) := by
  induction elems with
  | nil => rw [receivedElems, List.map_nil]
  | cons cont elems ih => rw [receivedElems, List.map_cons, receivedValues_eq, ih]

theorem packers_eq (cont : List (MultiType (HeldDescr ns))) :
    packers heap cont = cont.map (cullPackSwitch heap) := by
  induction cont with
  | nil => rw [packers, List.map_nil]
  | cons v cont ih => rw [packers, List.map_cons, ih]

theorem elemPackers_eq (elems : List (List (MultiType (HeldDescr ns)))) :
    elemPackers heap elems = elems.map (·.map (cullPackSwitch heap)) := by
  induction elems with
  | nil => rw [elemPackers, List.map_nil]
  | cons cont elems ih => rw [elemPackers, List.map_cons, packers_eq, ih]

end

section

variable {ns ns' : NameSpace} {heap : ℕ → Reduction ns} {hgrow : ns.GrowsTo ns'} {n : ℕ}

/-! ## Values without parts -/

theorem type_initialValue {D : Type} (type : CullType) :
    (initialValue type : MultiType D).type = type := by
  cases type <;> rfl

theorem received_initialValue (type : CullType) :
    received heap hgrow (initialValue type) = initialValue type := by
  cases type <;> rw [initialValue, received] <;> rfl

theorem inverts_packLeaf (nested : Unpacker) (v : MultiType (HeldDescr ns)) :
    Inverts n TableBound (receiverTable heap hgrow) (packLeaf v)
      (unpackSwitchWith ns' nested (some v.type)) (received heap hgrow v) := by
  cases v with
  | bool b =>
    refine inverts_pure fun t => (reads_unpackint (by cases b <;> decide)).bind_nil ?_
    rw [received]
    cases b <;> exact reads_pure
  | ulong ul =>
    refine inverts_pure fun t => (reads_unpackint ul.isLt).bind_nil ?_
    rw [received, BitVec.ofNat_toNat, BitVec.setWidth_eq]
    exact reads_pure
  | ulong64 ul64 =>
    rw [received]
    exact inverts_pure fun t => (reads_unpackint64 ul64).bind_nil reads_pure
  | long l => exact inverts_throw
  | int i => exact inverts_throw
  | double db =>
    rw [received]
    exact inverts_pure fun t => (reads_unpackint64 db).bind_nil reads_pure
  | string str =>
    rw [received]
    exact inverts_pure fun t => (reads_unpackstr str).bind_nil reads_pure
  | host host =>
    rw [received]
    exact inverts_pure fun t => (reads_unpackstr host).bind_nil reads_pure
  | ref ref =>
    rw [received]
    exact inverts_pure fun t => reads_pure
  | nullList =>
    rw [received]
    refine inverts_pure fun t => Reads.bind_nil (a := .nullList) ?_ reads_pure
    exact (reads_unpackint (by decide)).bind_nil reads_pure
  | list listname descr elems => exact inverts_throw
  | nullObject =>
    rw [received]
    exact inverts_pure fun t => (reads_unpackint (by decide)).bind_nil reads_pure
  | object descr cont => exact inverts_throw

/-! ## Values of an element -/

theorem foldl_set_slots {α : Type} {fs : List PresentField} {vs cp : List α} {a : ℕ}
    (hslots : fs.map (·.slot) = List.range' a fs.length) (hlen : vs.length = fs.length)
    (hcp : a + fs.length ≤ cp.length) :
    (fs.zip vs).foldl (fun cp x => cp.set x.1.slot x.2) cp =
      cp.take a ++ vs ++ cp.drop (a + fs.length) := by
  induction fs generalizing vs cp a with
  | nil =>
    obtain rfl := List.eq_nil_of_length_eq_zero hlen
    simp
  | cons f fs ih =>
    cases vs with
    | nil => exact absurd hlen (by simp)
    | cons v vs =>
      rw [List.map_cons, List.length_cons, List.range'_succ, List.cons.injEq] at hslots
      obtain ⟨hslot, hslots⟩ := hslots
      rw [List.length_cons] at hcp
      have hset : cp.set a v = cp.take a ++ v :: cp.drop (a + 1) :=
        List.set_eq_take_append_cons_drop.trans (if_pos (by omega))
      have htake : (cp.take a).length = a := List.length_take_of_le (by omega)
      have hfront : (cp.set a v).take (a + 1) = cp.take a ++ [v] := by
        rw [hset, List.append_cons]
        exact List.take_left' (by rw [List.length_append, htake, List.length_singleton])
      have hback : (cp.set a v).drop (a + 1 + fs.length) = cp.drop (a + 1 + fs.length) :=
        List.drop_set_of_lt (by omega)
      rw [List.zip_cons_cons, List.foldl_cons, hslot,
        ih hslots (Nat.succ.inj hlen) (by rw [List.length_set]; omega), hfront, hback,
        List.length_cons, show a + (fs.length + 1) = a + 1 + fs.length by omega,
        List.append_assoc _ [v], List.singleton_append]

variable {f f' : PresentField}

theorem mtType_eq (h : SameField f f') : mtType f.mt = mtType f'.mt := by
  rw [mtType, h.2, mtType]

theorem unreadValue_eq {D : Type} (h : SameField f f') :
    (unreadValue f.mt : MultiType D) = unreadValue f'.mt := by
  rw [unreadValue, mtType_eq h, unreadValue]

def sentValue (values : List Received) (f : PresentField) : Received :=
  if mtDoTransfer f.mt then values.getD f.slot (unreadValue f.mt) else unreadValue f.mt

theorem receivedField_of_sameField (d : HeldDescr ns) (values : List Received)
    (hf : f ∈ presentFields (d.entries heap)) (h : SameField f f') :
    receivedField heap d values f' = sentValue values f := by
  have hlookup := lookup_of_mem (d.inOrder heap).nodup hf
  rw [receivedField, ← h.1, hlookup, sentValue, unreadValue_eq h]

theorem receivedField_of_new (d : HeldDescr ns) (values : List Received)
    (h : f'.nm ∉ (presentFields (d.entries heap)).map (·.nm)) :
    receivedField heap d values f' = unreadValue f'.mt := by
  rw [receivedField, lookup_eq_none.mpr h]

theorem map_eq_of_forall₂ {α α' β : Type} {R : α → α' → Prop} {f : α → β} {g : α' → β}
    {l : List α} {l' : List α'} (h : List.Forall₂ R l l')
    (hval : ∀ x ∈ l, ∀ y, R x y → g y = f x) : l'.map g = l.map f := by
  induction h with
  | nil => rfl
  | cons hxy _ ih =>
    obtain ⟨hx, hl⟩ := List.forall_mem_cons.mp hval
    rw [List.map_cons, List.map_cons, hx _ hxy, ih hl]

theorem receivedCont_eq (d : HeldDescr ns) (values : List Received) :
    receivedCont heap hgrow d values = (presentFields (d.entries heap)).map (sentValue values) ++
        ((presentFields (d.received heap hgrow)).drop (presentFields (d.entries heap)).length).map
          fun f => unreadValue f.mt := by
  have hsame := forall₂_sameField heap hgrow d
  have hnodup := (d.inOrder_received heap hgrow).nodup
  rw [← List.take_append_drop (presentFields (d.entries heap)).length
    (presentFields (d.received heap hgrow)), List.map_append, List.nodup_append] at hnodup
  rw [receivedCont]
  conv_lhs => rw [← List.take_append_drop (presentFields (d.entries heap)).length
    (presentFields (d.received heap hgrow)), List.map_append]
  congr 1
  · exact map_eq_of_forall₂ hsame fun f hf f' h => receivedField_of_sameField d values hf h
  · refine List.map_congr_left fun f' hf' => receivedField_of_new d values fun hmem => ?_
    rw [← map_eq_of_forall₂ (g := PresentField.nm) hsame fun f _ f' h => h.1.symm] at hmem
    exact hnodup.2.2 _ hmem _ (List.mem_map_of_mem hf') rfl

theorem length_le_received (d : HeldDescr ns) :
    (presentFields (d.entries heap)).length ≤ (presentFields (d.received heap hgrow)).length := by
  have hlen := (forall₂_sameField heap hgrow d).length_eq
  rw [List.length_take] at hlen
  omega

theorem foldl_set_received (d : HeldDescr ns) (values : List Received) :
    (((presentFields (d.received heap hgrow)).take (presentFields (d.entries heap)).length).zip
        ((presentFields (d.entries heap)).map (sentValue values))).foldl
      (fun cp x => cp.set x.1.slot x.2)
      ((presentFields (d.received heap hgrow)).map fun f => unreadValue f.mt) =
    receivedCont heap hgrow d values := by
  have hle : (presentFields (d.entries heap)).length ≤
      (presentFields (d.received heap hgrow)).length := length_le_received d
  have hslots := (d.inOrder_received heap hgrow).slots
  rw [receivedCont_eq, List.map_drop]
  generalize presentFields (d.received heap hgrow) = fs' at hle hslots ⊢
  generalize presentFields (d.entries heap) = fs at hle ⊢
  have htake : (fs'.take fs.length).length = fs.length := List.length_take_of_le hle
  rw [foldl_set_slots (a := 0), List.take_zero, List.nil_append, zero_add, htake]
  · rw [List.map_take, hslots, List.take_range'_of_length_ge hle, htake]
  · rw [List.length_map, htake]
  · rw [List.length_map, htake, zero_add]
    exact hle

variable {cont : List (MultiType (HeldDescr ns))}

variable {switch nested : Unpacker}

theorem inverts_packField (hswitch : switch = unpackSwitchWith ns' nested)
    (hcont : ∀ v ∈ cont, ∀ type, Inverts n TableBound (receiverTable heap hgrow)
      (cullPackSwitch heap v type) (switch type) (received heap hgrow v)) (f : PresentField) :
    Inverts n TableBound (receiverTable heap hgrow)
      (packField ns (cont.map (cullPackSwitch heap)) f) (switch (mtType f.mt))
      (sentValue (cont.map (received heap hgrow)) f) := by
  rw [packField, sentValue]
  by_cases htransfer : mtDoTransfer f.mt
  · rw [if_pos htransfer, if_pos htransfer, List.getElem?_map, List.getD_eq_getElem?_getD,
      List.getElem?_map]
    cases hslot : cont[f.slot]? with
    | none => exact inverts_throw
    | some v => exact hcont v (List.mem_of_getElem? hslot) (mtType f.mt)
  · rw [if_neg htransfer, if_neg htransfer, unreadValue]
    cases mtType f.mt with
    | none => exact inverts_throw
    | some type =>
      have hleaf : Inverts n TableBound (receiverTable heap hgrow)
          (packLeaf (initialValue (D := HeldDescr ns) type))
          (unpackSwitchWith ns' nested (some (initialValue (D := HeldDescr ns) type).type))
          (received heap hgrow (initialValue type)) :=
        inverts_packLeaf nested (initialValue type)
      rw [type_initialValue, received_initialValue] at hleaf
      rw [hswitch]
      exact hleaf

/-- The values of an element are read to the receiver's slots. -/
theorem inverts_cullPackCont (hswitch : switch = unpackSwitchWith ns' nested) (d : HeldDescr ns)
    (hcont : ∀ v ∈ cont, ∀ type, Inverts n TableBound (receiverTable heap hgrow)
      (cullPackSwitch heap v type) (switch type) (received heap hgrow v)) :
    Inverts n TableBound (receiverTable heap hgrow)
      (cullPackCont ns (d.entries heap) (cont.map (cullPackSwitch heap)))
      (cullUnpackCont switch (d.received heap hgrow) (presentFields (d.entries heap)).length)
      (receivedCont heap hgrow d (cont.map (received heap hgrow))) := by
  have hvalues : Inverts n TableBound (receiverTable heap hgrow)
      (cullPackCont ns (d.entries heap) (cont.map (cullPackSwitch heap)))
      (((presentFields (d.received heap hgrow)).take
        (presentFields (d.entries heap)).length).mapM fun f => switch (mtType f.mt))
      ((presentFields (d.entries heap)).map (sentValue (cont.map (received heap hgrow)))) := by
    refine inverts_writeAll ((forall₂_sameField heap hgrow d).imp fun f f' h => ?_)
    rw [← mtType_eq h]
    exact inverts_packField hswitch hcont f
  rw [cullUnpackCont]
  simp only [if_neg (not_lt.mpr (length_le_received d))]
  rw [← foldl_set_received]
  exact hvalues.map fun t => reads_pure

/-! ## Lists and elements -/

theorem reads_elemKind (kind : ElemKind) (t : List (List DescrEntry)) :
    Reads unpackint (packint (elemKindToWire kind)) t (elemKindToWire kind) t :=
  reads_unpackint (by cases kind <;> decide)

theorem elemKindFromWire_toWire (kind : ElemKind) :
    elemKindFromWire (elemKindToWire kind) = some kind := by
  cases kind <;> rfl

/-- What is known of the parts of an element or a list, up to a number of bytes. -/
def PartsInvert (heap : ℕ → Reduction ns) (hgrow : ns.GrowsTo ns') (n : ℕ)
    (cont : List (MultiType (HeldDescr ns))) : Prop :=
  ∀ v ∈ cont, ∀ type, Inverts n TableBound (receiverTable heap hgrow)
    (cullPackSwitch heap v type) (cullUnpackSwitch ns' n type) (received heap hgrow v)

theorem cullUnpackSwitch_eq (ns' : NameSpace) (n : ℕ) :
    ∃ nested, cullUnpackSwitch ns' n = unpackSwitchWith ns' nested := by
  cases n with
  | zero => exact ⟨_, rfl⟩
  | succ n => exact ⟨_, rfl⟩

theorem inverts_parts (d : HeldDescr ns) (hcont : PartsInvert heap hgrow n cont) :
    Inverts n TableBound (receiverTable heap hgrow)
      (cullPackCont ns (d.entries heap) (cont.map (cullPackSwitch heap)))
      (cullUnpackCont (cullUnpackSwitch ns' n) (d.received heap hgrow)
        (presentFields (d.entries heap)).length)
      (receivedCont heap hgrow d (cont.map (received heap hgrow))) := by
  obtain ⟨nested, hnested⟩ := cullUnpackSwitch_eq ns' n
  exact inverts_cullPackCont hnested d hcont

theorem inverts_boundElem {kind : ElemKind} (hkind : kind ≠ .free) (d : HeldDescr ns)
    (hcont : PartsInvert heap hgrow n cont) :
    Inverts n TableBound (receiverTable heap hgrow)
      (cullPackElemPartial heap kind d (cont.map (cullPackSwitch heap)))
      (ocsCullUnpackElem ns' (cullUnpackSwitch ns' n) (some (d.received heap hgrow))
        (presentFields (d.entries heap)).length)
      (d.received heap hgrow, receivedCont heap hgrow d (cont.map (received heap hgrow))) := by
  rw [cullPackElemPartial, if_neg hkind]
  refine Inverts.emit (reads_elemKind kind) fun _ => ?_
  rw [elemKindFromWire_toWire]
  have hparts := (inverts_parts d hcont).mono
    (Nat.sub_le n (packint (elemKindToWire kind)).length)
  cases kind with
  | free => exact absurd rfl hkind
  | bound => exact hparts.cons Inverts.nil
  | object => exact hparts.cons Inverts.nil
  | transBound => exact hparts.cons Inverts.nil

theorem inverts_freeElem (d : HeldDescr ns) (hcont : PartsInvert heap hgrow n cont) :
    Inverts n TableBound (receiverTable heap hgrow)
      (cullPackElemPartial heap .free d (cont.map (cullPackSwitch heap)))
      (ocsCullUnpackElem ns' (cullUnpackSwitch ns' n) none 0)
      (d.received heap hgrow, receivedCont heap hgrow d (cont.map (received heap hgrow))) := by
  rw [cullPackElemPartial, if_pos rfl]
  refine Inverts.emit (reads_elemKind .free) fun _ => ?_
  rw [elemKindFromWire_toWire]
  exact (inverts_packSharedDescr _ hgrow d).cons
    (((inverts_parts d hcont).mono (Nat.sub_le n _)).cons Inverts.nil)

theorem inverts_object (d : HeldDescr ns) (hcont : PartsInvert heap hgrow n cont) :
    Inverts (n + 1) TableBound (receiverTable heap hgrow)
      (cullPackObject heap d (cont.map (cullPackSwitch heap)))
      (cullUnpackObject ns' (cullUnpackSwitch ns' n)) (.object (d.received heap hgrow)
        (receivedCont heap hgrow d (cont.map (received heap hgrow)))) := by
  rw [cullPackObject]
  refine Inverts.emit (fun t => reads_unpackint (by decide)) fun _ => ?_
  rw [if_neg (by decide)]
  refine (inverts_packSharedDescr _ hgrow d).cons ?_
  exact ((inverts_boundElem (by decide) d hcont).mono (by simp [packint])).cons Inverts.nil

theorem inverts_list (listname : Option CString) (d : HeldDescr ns)
    {elems : List (List (MultiType (HeldDescr ns)))}
    (helems : ∀ cont ∈ elems, PartsInvert heap hgrow n cont) :
    Inverts (n + 1) TableBound (receiverTable heap hgrow)
      (cullPackListPartial heap listname d (elems.map (·.map (cullPackSwitch heap))))
      (cullUnpackListPartial ns' (cullUnpackSwitch ns' n))
      (.list (unsetEmpty listname) (d.received heap hgrow)
        (elems.map fun cont => receivedCont heap hgrow d (cont.map (received heap hgrow)))) := by
  rw [cullPackListPartial, List.map_map]
  refine Inverts.emit (fun t => reads_unpackint (by decide)) fun _ => ?_
  rw [if_neg (by decide)]
  refine Inverts.emit (fun t => reads_unpackstr listname) fun _ => ?_
  refine (inverts_packSharedDescr _ hgrow d).cons (Inverts.cons ?_ Inverts.nil)
  refine inverts_readMarked (by decide) (by decide) (by decide)
    (fun t => reads_unpackint (by decide)) (fun t => reads_unpackint (by decide))
    fun cont hcont => ?_
  exact ((inverts_boundElem (by decide) d (helems cont hcont)).mono
    (by simp [packint]; omega)).map fun t => reads_pure

/-! ## Nested values -/

variable {w : PackM (List Byte)}

theorem inverts_packAs {p : UnpackM Received} {a : Received}
    {type : CullType} {fieldType : Option CullType}
    (h : fieldType = some type → Inverts n TableBound (receiverTable heap hgrow) w p a) :
    Inverts n TableBound (receiverTable heap hgrow) (packAs type w fieldType) p a := by
  rw [packAs]
  split
  · case isTrue htype => exact h htype
  · exact inverts_throw

/-- A value without parts is read whatever the nesting. -/
theorem inverts_leaf (v : MultiType (HeldDescr ns)) (type : Option CullType) :
    Inverts n TableBound (receiverTable heap hgrow) (packAs v.type (packLeaf v) type)
      (cullUnpackSwitch ns' n type) (received heap hgrow v) := by
  obtain ⟨nested, hnested⟩ := cullUnpackSwitch_eq ns' n
  refine inverts_packAs fun htype => ?_
  rw [htype, hnested]
  exact inverts_packLeaf nested v

mutual

/-- Every value, by induction on its nesting: a part has fewer bytes than the whole. -/
theorem inverts_cullPackSwitch :
    ∀ (v : MultiType (HeldDescr ns)) (n : ℕ) (type : Option CullType),
      Inverts n TableBound (receiverTable heap hgrow) (cullPackSwitch heap v type)
        (cullUnpackSwitch ns' n type) (received heap hgrow v)
  | .list listname d elems, n, type => by
      rw [cullPackSwitch, received, receivedElems_eq, elemPackers_eq, List.map_map]
      refine inverts_packAs fun htype => ?_
      rw [htype]
      cases n with
      | zero =>
        refine Inverts.map (a := .list _ _ _) ?_ fun t => reads_pure
        exact Inverts.emit (fun t => reads_unpackint (by decide)) fun h => absurd h (by decide)
      | succ n =>
        exact (inverts_list listname d fun cont hcont =>
          inverts_elems elems cont hcont n).map fun t => reads_pure
  | .object d cont, n, type => by
      rw [cullPackSwitch, received, receivedValues_eq, packers_eq]
      refine inverts_packAs fun htype => ?_
      rw [htype]
      cases n with
      | zero =>
        exact Inverts.emit (fun t => reads_unpackint (by decide)) fun h => absurd h (by decide)
      | succ n => exact inverts_object d (inverts_values cont n)
  | .bool b, _, type => inverts_leaf (.bool b) type
  | .ulong ul, _, type => inverts_leaf (.ulong ul) type
  | .ulong64 ul64, _, type => inverts_leaf (.ulong64 ul64) type
  | .long l, _, type => inverts_leaf (.long l) type
  | .int i, _, type => inverts_leaf (.int i) type
  | .double db, _, type => inverts_leaf (.double db) type
  | .string str, _, type => inverts_leaf (.string str) type
  | .host host, _, type => inverts_leaf (.host host) type
  | .ref ref, _, type => inverts_leaf (.ref ref) type
  | .nullList, _, type => inverts_leaf .nullList type
  | .nullObject, _, type => inverts_leaf .nullObject type

theorem inverts_values :
    ∀ (cont : List (MultiType (HeldDescr ns))) (n : ℕ), PartsInvert heap hgrow n cont
  | [], _ => List.forall_mem_nil _
  | v :: cont, n => List.forall_mem_cons.mpr
      ⟨inverts_cullPackSwitch v n, inverts_values cont n⟩

theorem inverts_elems :
    ∀ (elems : List (List (MultiType (HeldDescr ns)))),
      ∀ cont ∈ elems, ∀ n, PartsInvert heap hgrow n cont
  | [] => List.forall_mem_nil _
  | cont :: elems => List.forall_mem_cons.mpr ⟨inverts_values cont, inverts_elems elems⟩

end

/-! ## Items -/

theorem inverts_withFuel {α : Type} {p : ℕ → UnpackM α} {a : α}
    (h : ∀ n, Inverts n TableBound (receiverTable heap hgrow) w (p n) a) :
    Inverts n TableBound (receiverTable heap hgrow) w (withFuel p) a := by
  intro tab bs tab' hw _ hbound
  refine ⟨(h bs.length tab bs tab' hw le_rfl hbound).1, Reads.get_bind fun rest => ?_⟩
  exact (h (bs ++ rest).length tab bs tab' hw (by simp) hbound).2 rest

/-- Whatever is packed is read back as the receiver's view of it. -/
theorem inverts_cullPackItem (x : CullItem (HeldDescr ns)) :
    Inverts n TableBound (receiverTable heap hgrow) (cullPackItem heap x)
      (cullUnpackItem ns' x) (x.received heap hgrow) := by
  cases x with
  | nullList =>
    rw [cullPackItem, CullItem.received, cullUnpackItem, cullUnpackList]
    refine inverts_withFuel fun n => inverts_pure fun t => ?_
    exact (reads_unpackint (by decide)).bind_nil reads_pure
  | list listname d elems =>
    rw [cullPackItem, CullItem.received, cullUnpackItem, cullUnpackList, elemPackers_eq]
    refine inverts_withFuel fun n => ?_
    exact (inverts_list listname d fun cont hcont =>
      inverts_elems elems cont hcont n).mono (Nat.le_succ n)
  | freeElem d cont =>
    rw [cullPackItem, CullItem.received, cullUnpackItem, cullUnpackElem, packers_eq]
    refine inverts_withFuel fun n => ?_
    exact (inverts_freeElem d (inverts_values cont n)).map fun t => reads_pure

end

/-! ## What is packed -/

section

variable {ns : NameSpace} (heap : ℕ → Reduction ns)

/-- No field is an int or a long, and those that go out have a value of their data type. -/
def HoldsFields (d : HeldDescr ns) (cont : List (MultiType (HeldDescr ns))) : Prop :=
  ∀ f ∈ presentFields (d.entries heap), ∃ type, mtType f.mt = some type ∧
    type ≠ .int ∧ type ≠ .long ∧
    (mtDoTransfer f.mt → ∃ v, cont[f.slot]? = some v ∧ v.type = type)

mutual

def MultiType.WellTyped : MultiType (HeldDescr ns) → Prop
  | .list _ d elems => ElemsWellTyped d elems
  | .object d cont => HoldsFields heap d cont ∧ ContWellTyped cont
  | _ => True

def ContWellTyped : List (MultiType (HeldDescr ns)) → Prop
  | [] => True
  | v :: cont => v.WellTyped ∧ ContWellTyped cont

def ElemsWellTyped (d : HeldDescr ns) : List (List (MultiType (HeldDescr ns))) → Prop
  | [] => True
  | cont :: elems => (HoldsFields heap d cont ∧ ContWellTyped cont) ∧ ElemsWellTyped d elems

end

def CullItem.WellTyped : CullItem (HeldDescr ns) → Prop
  | .nullList => True
  | .list _ d elems => ElemsWellTyped heap d elems
  | .freeElem d cont => HoldsFields heap d cont ∧ ContWellTyped heap cont

theorem succeeds_packSharedDescr (d : HeldDescr ns) : Succeeds (packSharedDescr heap d) := by
  cases d with
  | static t known => exact succeeds_pure _
  | counted h =>
    refine Succeeds.bind (fun tab => ⟨tab, tab, rfl⟩) fun tab => ?_
    split
    · exact succeeds_pure _
    · refine Succeeds.bind (fun _ => ⟨_, _, rfl⟩) fun _ => ?_
      dsimp only
      split
      · exact succeeds_pure _
      · exact succeeds_pure _

/-- What is known of the values of an element. -/
def ContSucceeds (cont : List (MultiType (HeldDescr ns))) : Prop :=
  ∀ v ∈ cont, v.type ≠ .int → v.type ≠ .long → Succeeds (cullPackSwitch heap v (some v.type))

variable {heap} {d : HeldDescr ns} {cont : List (MultiType (HeldDescr ns))}

theorem succeeds_initialValue {type : CullType} (hint : type ≠ .int) (hlong : type ≠ .long) :
    Succeeds (packLeaf (D := HeldDescr ns) (initialValue type)) := by
  cases type with
  | int => exact absurd rfl hint
  | long => exact absurd rfl hlong
  | _ => exact succeeds_pure _

theorem succeeds_cont (h : HoldsFields heap d cont) (hcont : ContSucceeds heap cont) :
    Succeeds (cullPackCont ns (d.entries heap) (cont.map (cullPackSwitch heap))) := by
  refine succeeds_writeAll (List.forall_mem_map.mpr fun f hf => ?_)
  obtain ⟨type, htype, hint, hlong, hvalue⟩ := h f hf
  rw [packField]
  split
  · case isTrue htransfer =>
    obtain ⟨v, hv, rfl⟩ := hvalue htransfer
    rw [List.getElem?_map, hv, htype]
    exact hcont v (List.mem_of_getElem? hv) hint hlong
  · rw [htype]
    exact succeeds_initialValue hint hlong

theorem succeeds_elem (kind : ElemKind) (h : HoldsFields heap d cont)
    (hcont : ContSucceeds heap cont) :
    Succeeds (cullPackElemPartial heap kind d (cont.map (cullPackSwitch heap))) := by
  have hdescr := succeeds_packSharedDescr heap d
  have hvalues := succeeds_cont h hcont
  refine succeeds_writeAll (List.forall_mem_cons.mpr ⟨succeeds_pure _, ?_⟩)
  split
  · simp [hdescr, hvalues]
  · simp [hvalues]

theorem succeeds_object (h : HoldsFields heap d cont) (hcont : ContSucceeds heap cont) :
    Succeeds (cullPackObject heap d (cont.map (cullPackSwitch heap))) := by
  have hdescr := succeeds_packSharedDescr heap d
  have helem := succeeds_elem .object h hcont
  exact succeeds_writeAll (by simp [succeeds_pure, hdescr, helem])

theorem succeeds_list (listname : Option CString)
    {elems : List (List (MultiType (HeldDescr ns)))}
    (helems : ∀ cont ∈ elems, HoldsFields heap d cont ∧ ContSucceeds heap cont) :
    Succeeds (cullPackListPartial heap listname d (elems.map (·.map (cullPackSwitch heap)))) := by
  have hdescr := succeeds_packSharedDescr heap d
  rw [cullPackListPartial, List.map_map]
  have helem : ∀ w ∈ elems.map (cullPackElemPartial heap .bound d ∘ (·.map (cullPackSwitch heap))),
      Succeeds w := List.forall_mem_map.mpr fun cont hmem =>
    succeeds_elem .bound (helems cont hmem).1 (helems cont hmem).2
  exact succeeds_writeAll (by simp [succeeds_pure, hdescr, succeeds_writeMarked helem])

mutual

theorem succeeds_switch : ∀ v : MultiType (HeldDescr ns), v.WellTyped heap →
    v.type ≠ .int → v.type ≠ .long → Succeeds (cullPackSwitch heap v (some v.type))
  | .list listname d elems, h, _, _ => by
      rw [cullPackSwitch, elemPackers_eq]
      exact succeeds_list listname (succeeds_elems d elems h)
  | .object d cont, h, _, _ => by
      rw [cullPackSwitch, packers_eq]
      exact succeeds_object h.1 (succeeds_values cont h.2)
  | .int _, _, hint, _ => absurd rfl hint
  | .long _, _, _, hlong => absurd rfl hlong
  | .bool _, _, _, _ | .ulong _, _, _, _ | .ulong64 _, _, _, _ | .double _, _, _, _
  | .string _, _, _, _ | .host _, _, _, _ | .ref _, _, _, _ | .nullList, _, _, _
  | .nullObject, _, _, _ => succeeds_pure _

theorem succeeds_values : ∀ cont : List (MultiType (HeldDescr ns)), ContWellTyped heap cont →
    ContSucceeds heap cont
  | [], _ => List.forall_mem_nil _
  | v :: cont, h => List.forall_mem_cons.mpr
      ⟨succeeds_switch v h.1, succeeds_values cont h.2⟩

theorem succeeds_elems (d : HeldDescr ns) :
    ∀ elems : List (List (MultiType (HeldDescr ns))), ElemsWellTyped heap d elems →
      ∀ cont ∈ elems, HoldsFields heap d cont ∧ ContSucceeds heap cont
  | [], _ => List.forall_mem_nil _
  | cont :: elems, h => List.forall_mem_cons.mpr
      ⟨⟨h.1.1, succeeds_values cont h.1.2⟩, succeeds_elems d elems h.2⟩

end

/-- Without signed numbers every item is packed. -/
theorem succeeds_item : ∀ x : CullItem (HeldDescr ns), x.WellTyped heap →
    Succeeds (cullPackItem heap x)
  | .nullList, _ => succeeds_pure _
  | .list listname d elems, h => by
      rw [cullPackItem, elemPackers_eq]
      exact succeeds_list listname (succeeds_elems d elems h)
  | .freeElem d cont, h => by
      rw [cullPackItem, packers_eq]
      exact succeeds_elem .free h.1 (succeeds_values cont h.2)

end

end ClusterScheduler.Cull
