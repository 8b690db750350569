import ClusterScheduler.Cull.SelectionUnpack

/-!
# Selections and conditions on the wire

What one process packs to tell another one which fields of which elements it wants.

* `cullPackEnum`, `cullPackCond` — the packers. A selection is an array with an end mark, and
  `none` stands for a packer that goes on behind it.
* `BuiltOver` — the selections that are built over types.
* `SameSelection` — the same field names and nesting, at the receiver's positions.
* `lCompare` — which elements a condition holds of.
* `takesSelection`, `returns_cond` — both come back, and the bytes after them are left.
* `lCompare_constant` — a condition does not say how its values hold descriptors.
-/

namespace ClusterScheduler.Cull.InMemory

open Foundation

/-! ## Packing -/

def packInt (i : ℤ) : List Byte := num (BitVec.ofInt 32 i)

def countWhat : List LEnumeration → Option ℕ
  | [] => none
  | e :: enp => if e.nm = -1 then some 0 else (countWhat enp).map (· + 1)

/-- A selection that is there, for the bytes of its fields. -/
def packWhat (enp : List LEnumeration) (fields : Option (List Byte)) : Option (List Byte) := do
  let first ← enp.head?
  if first.pos = -1 then return num 1 ++ packint packWhatAll
  else if first.pos = -2 then return num 1 ++ packint packWhatNone
  else
    let n ← countWhat enp
    let bs ← fields
    return num 1 ++ packint packWhatArray ++ num (BitVec.ofNat 32 n) ++ bs

mutual

def packEp : LEnumeration → Option (List Byte)
  | ⟨_, _, _, none⟩ => some (num 0)
  | ⟨_, _, _, some enp⟩ => (packWhat enp (packFields enp)).map (num 1 ++ ·)

/-- The fields up to the one without a data type. -/
def packFields : List LEnumeration → Option (List Byte)
  | [] => none
  | e :: enp =>
    if mtGetType e.mt = 0 then some []
    else (packEp e).bind fun sub => (packFields enp).map fun bs =>
      packInt e.pos ++ num e.mt ++ packInt e.nm ++ sub ++ bs

end

def cullPackEnum : Option (List LEnumeration) → Option (List Byte)
  | none => some (num 0)
  | some enp => packWhat enp (packFields enp)

section

variable {ns : NameSpace} (heap : ℕ → Reduction ns)

mutual

/-- Behind the mark that there is a condition. The value of a list field is a condition. -/
def packCondition : Condition (HeldDescr ns) → PackM (List Byte)
  | .cmp op pos mt nm val =>
    if isComparison op ∧ mtType mt ≠ some .list then
      writeAll [pure (packint op), pure (num pos), pure (num mt), pure (num nm),
        cullPackSwitch heap val (mtType mt)]
    else throw .format
  | .cmpList op pos mt nm cp =>
    if isComparison op ∧ mtType mt = some .list then
      writeAll [pure (packint op), pure (num pos), pure (num mt), pure (num nm), cullPackCond cp]
    else throw .format
  | .neg first => writeAll [pure (packint opNeg), cullPackCond first]
  | .log op first second =>
    if op = opAnd ∨ op = opOr then
      writeAll [pure (packint op), cullPackCond first, cullPackCond second]
    else throw .format

def cullPackCond : Option (Condition (HeldDescr ns)) → PackM (List Byte)
  | none => return packint 0
  | some cp => writeAll [pure (packint 1), packCondition cp]

end

end

/-! ## Selections over types -/

def endMark : LEnumeration := ⟨0, 0, -1, none⟩

mutual

/-- All fields, none, or a list of fields of a type with fewer fields than a type may have. -/
inductive BuiltOver (ns : NameSpace) : List LEnumeration → Prop
  | all : BuiltOver ns [⟨-1, -99, -99, none⟩, endMark]
  | noFields : BuiltOver ns [⟨-2, -99, -99, none⟩, endMark]
  | fields {type : ObjectType} {enp : List LEnumeration} (hknown : type ∈ ns.types)
      (hfields : FieldsOf ns type enp) (hshort : enp.length ≤ maxDescrSize) : BuiltOver ns enp

inductive FieldsOf (ns : NameSpace) : ObjectType → List LEnumeration → Prop
  | nil {type : ObjectType} : FieldsOf ns type [endMark]
  | leaf {type : ObjectType} {pos : ℕ} {mt : BitVec 32} {enp : List LEnumeration}
      (hpos : type.fields[pos]? = some mt) (hrest : FieldsOf ns type enp) :
      FieldsOf ns type (⟨pos, mt, type.lower + pos, none⟩ :: enp)
  | nested {type : ObjectType} {pos : ℕ} {mt : BitVec 32} {what enp : List LEnumeration}
      (hpos : type.fields[pos]? = some mt) (hsub : BuiltOver ns what)
      (hrest : FieldsOf ns type enp) :
      FieldsOf ns type (⟨pos, mt, type.lower + pos, some what⟩ :: enp)

end

/-- Every field of the sender's types is a field of the receiver. -/
def Known (ns ns' : NameSpace) : Prop :=
  ∀ type ∈ ns.types, ∀ pos < type.fields.length,
    (ocsCullDescrStaticContaining ns' (type.lower + pos)).isSome = true

mutual

/-- The same fields, at the positions they have in the types of a process. -/
inductive SameSelection (ns : NameSpace) : List LEnumeration → List LEnumeration → Prop
  | all : SameSelection ns [⟨-1, -99, -99, none⟩, endMark] [⟨-1, -99, -99, none⟩, endMark]
  | noFields : SameSelection ns [⟨-2, -99, -99, none⟩, endMark] [⟨-2, -99, -99, none⟩, endMark]
  | fields {enp enp' : List LEnumeration} (h : SameFields ns enp enp') : SameSelection ns enp enp'

inductive SameFields (ns : NameSpace) : List LEnumeration → List LEnumeration → Prop
  | nil : SameFields ns [endMark] [endMark]
  | leaf {nm pos : ℤ} {mt mt' : BitVec 32} {type : ObjectType} {pos' : ℕ}
      {enp enp' : List LEnumeration}
      (hfield : ocsCullDescrStaticContaining ns nm = some (type, pos'))
      (hmt : type.fields[pos']? = some mt') (hrest : SameFields ns enp enp') :
      SameFields ns (⟨pos, mt, nm, none⟩ :: enp) (⟨pos', mt', nm, none⟩ :: enp')
  | nested {nm pos : ℤ} {mt mt' : BitVec 32} {type : ObjectType} {pos' : ℕ}
      {what what' enp enp' : List LEnumeration}
      (hfield : ocsCullDescrStaticContaining ns nm = some (type, pos'))
      (hmt : type.fields[pos']? = some mt') (hsub : SameSelection ns what what')
      (hrest : SameFields ns enp enp') :
      SameFields ns (⟨pos, mt, nm, some what⟩ :: enp) (⟨pos', mt', nm, some what'⟩ :: enp')

end

/-- The same selection behind a field, or none on both sides. -/
def SameEp (ns : NameSpace) : Option (List LEnumeration) → Option (List LEnumeration) → Prop
  | none, none => True
  | some what, some what' => SameSelection ns what what'
  | _, _ => False

variable {ns : NameSpace} {nm : ℤ} {mt : BitVec 32} {type : ObjectType}

theorem SameFields.cons {pos : ℤ} {mt' : BitVec 32} {pos' : ℕ} {ep ep' : Option (List LEnumeration)}
    {enp enp' : List LEnumeration} (hfield : ocsCullDescrStaticContaining ns nm = some (type, pos'))
    (hmt : type.fields[pos']? = some mt') (hep : SameEp ns ep ep')
    (hrest : SameFields ns enp enp') :
    SameFields ns (⟨pos, mt, nm, ep⟩ :: enp) (⟨pos', mt', nm, ep'⟩ :: enp') := by
  rcases ep with _ | what <;> rcases ep' with _ | what'
  · exact .leaf hfield hmt hrest
  · exact hep.elim
  · exact hep.elim
  · exact .nested hfield hmt hep hrest

/-! ## Fields of a type -/

variable {pos : ℕ}

theorem nm_pos (hpos : type.fields[pos]? = some mt) :
    0 < (type.lower + pos : ℤ) ∧ (type.lower + pos : ℤ) < 2 ^ 31 := by
  have hlt := (List.getElem?_eq_some_iff.mp hpos).1
  have hlower := type.positive
  have hbound := type.bounded
  omega

theorem toInt_nm (h0 : 0 < nm) (hlt : nm < 2 ^ 31) : (BitVec.ofInt 32 nm).toInt = nm := by
  rw [BitVec.toInt_ofInt]
  apply Int.bmod_eq_of_le <;> omega

theorem getType_ne_zero (hpos : type.fields[pos]? = some mt) : mtGetType mt ≠ 0 := by
  intro hzero
  have htyped := List.all_eq_true.mp type.typed mt (List.mem_of_getElem? hpos)
  rw [mtType, hzero] at htyped
  exact absurd htyped (by decide)

theorem field_of_containing (h : ocsCullDescrStaticContaining ns nm = some (type, pos)) :
    ∃ mt, type.fields[pos]? = some mt := by
  obtain ⟨found, hfound, heq⟩ := Option.map_eq_some_iff.mp h
  obtain ⟨rfl, rfl⟩ := Prod.mk.inj heq
  have hin := List.find?_some hfound
  rw [decide_eq_true_eq] at hin
  have hlt : (nm - found.lower).toNat < found.fields.length := by omega
  exact ⟨_, List.getElem?_eq_getElem hlt⟩

theorem namedEntry_known {ns' : NameSpace} (hknown : Known ns ns') (htype : type ∈ ns.types)
    (hpos : type.fields[pos]? = some mt) (ep : Option (List LEnumeration)) :
    ∃ type' pos' mt', ocsCullDescrStaticContaining ns' (type.lower + pos) = some (type', pos') ∧
      type'.fields[pos']? = some mt' ∧
      namedEntry ns' (BitVec.ofInt 32 pos) mt (BitVec.ofInt 32 (type.lower + pos)) ep =
        ⟨pos', mt', type.lower + pos, ep⟩ := by
  have hlt := (List.getElem?_eq_some_iff.mp hpos).1
  obtain ⟨⟨type', pos'⟩, hfield⟩ := Option.isSome_iff_exists.mp (hknown type htype pos hlt)
  obtain ⟨mt', hmt'⟩ := field_of_containing hfield
  refine ⟨type', pos', mt', hfield, hmt', ?_⟩
  obtain ⟨h0, hmax⟩ := nm_pos hpos
  rw [namedEntry, LEnumeration.named, toInt_nm h0 hmax, hfield]
  simp only [List.getD_eq_getElem?_getD, hmt', Option.getD_some]

/-! ## Selections come back -/

/-- The reader takes these bytes from the front, and gives the same selection. -/
def TakesSame (ns' : NameSpace) (m : MemM (Option (List LEnumeration))) (bs : List Byte)
    (enp : List LEnumeration) : Prop :=
  ∀ (pb : SgePackBuffer) r, pb.Sound → pb.rest = bs ++ r →
    ∃ enp' pb', m.run pb = .ok (some enp', pb') ∧ pb'.Sound ∧ pb'.rest = r ∧
      SameSelection ns' enp enp' ∧ FreedResult (some enp')

/-- The mark of a field is `mark`. What it says is read from these bytes. -/
def TakesEp (ns' : NameSpace) (sub : MemM (Option (List LEnumeration))) (mark : BitVec 32)
    (bs : List Byte) (ep : Option (List LEnumeration)) : Prop :=
  ∀ (pb : SgePackBuffer) r, pb.Sound → pb.rest = bs ++ r →
    ∃ ep' pb', (if mark.toNat = 1 then sub else pure none).run pb = .ok (ep', pb') ∧ pb'.Sound ∧
      pb'.rest = r ∧ SameEp ns' ep ep' ∧ FreedResult ep'

/-- The fields are read into the array behind those that were read before. -/
def TakesFields (ns' : NameSpace) (sub : MemM (Option (List LEnumeration))) (n : ℕ)
    (bs : List Byte) (enp : List LEnumeration) : Prop :=
  ∀ (pb : SgePackBuffer) r (done : List LEnumeration), pb.Sound → pb.rest = bs ++ r →
    (∀ e ∈ done, e.epFreed = true) →
    ∃ es pb', (unpackEnumFields ns' sub n done.length (filled done n)).run pb =
        .ok (filled (done ++ es) 0, pb') ∧ pb'.Sound ∧ pb'.rest = r ∧ es.length = n ∧
      (∀ e ∈ es, e.epFreed = true) ∧ SameFields ns' enp (es ++ [endMark])

/-- The fields are packed up to the end mark, and come back. -/
def FieldsReturn (ns' : NameSpace) (enp : List LEnumeration) : Prop :=
  ∃ n bs, enp.length = n + 1 ∧ countWhat enp = some n ∧ packFields enp = some bs ∧
    ∀ fuel, bs.length < fuel → TakesFields ns' (cullUnpackEnumFrom ns' fuel) n bs enp

section

variable {ns ns' : NameSpace} {sub : MemM (Option (List LEnumeration))} {type : ObjectType}
  {enp : List LEnumeration}

theorem takesFields_nil : TakesFields ns' sub 0 [] [endMark] := by
  intro pb r done hpb h hdone
  refine ⟨[], pb, ?_, hpb, h, rfl, by simp, .nil⟩
  rw [List.append_nil]
  rfl

variable {bs : List Byte} {n : ℕ}

theorem takesFields_cons (hknown : Known ns ns') (htype : type ∈ ns.types) {pos : ℕ}
    {mt : BitVec 32} (hpos : type.fields[pos]? = some mt) {mark : BitVec 32}
    {what : List Byte} {ep : Option (List LEnumeration)}
    (hep : TakesEp ns' sub mark what ep) (hrest : TakesFields ns' sub n bs enp) :
    TakesFields ns' sub (n + 1)
      (packInt pos ++ num mt ++ packInt (type.lower + pos) ++ (num mark ++ what) ++ bs)
      (⟨pos, mt, type.lower + pos, ep⟩ :: enp) := by
  intro pb r done hpb h hdone
  have hbytes : pb.rest = num (BitVec.ofInt 32 pos) ++ num mt ++
      num (BitVec.ofInt 32 (type.lower + pos)) ++ num mark ++ (what ++ (bs ++ r)) := by
    rw [h]
    simp only [packInt, List.append_assoc]
  obtain ⟨pb₁, hrun, hpb₁, h₁⟩ := run_field hpb hbytes
  obtain ⟨ep', pb₂, hsub, hpb₂, h₂, hsame, hfreed⟩ := hep pb₁ (bs ++ r) hpb₁ h₁
  obtain ⟨type', pos', mt', hfield, hmt', hentry⟩ := namedEntry_known hknown htype hpos ep'
  have hentryFreed : (⟨pos', mt', type.lower + pos, ep'⟩ : LEnumeration).epFreed = true :=
    epFreed_of_result hfreed
  have hdone' : ∀ e ∈ done ++ [(⟨pos', mt', type.lower + pos, ep'⟩ : LEnumeration)],
      e.epFreed = true := fun e he => by
    rcases List.mem_append.mp he with he | he
    · exact hdone e he
    · exact List.mem_singleton.mp he ▸ hentryFreed
  obtain ⟨es, pb', hfields, hpb', h', hlen, hes, hsameRest⟩ := hrest pb₂ r _ hpb₂ h₂ hdone'
  refine ⟨⟨pos', mt', type.lower + pos, ep'⟩ :: es, pb', ?_, hpb', h',
    by rw [List.length_cons, hlen], ?_, .cons hfield hmt' hsame hsameRest⟩
  · have hnext : (unpackEnumFields ns' sub n (done.length + 1) (filled (done ++
        [namedEntry ns' (BitVec.ofNat 32 (BitVec.ofInt 32 pos).toNat) (BitVec.ofNat 32 mt.toNat)
          (BitVec.ofNat 32 (BitVec.ofInt 32 (type.lower + pos)).toNat) ep']) n)).run pb₂ =
        .ok (filled (done ++ ⟨pos', mt', type.lower + pos, ep'⟩ :: es) 0, pb') := by
      rw [List.length_append, List.length_singleton, List.append_assoc, List.singleton_append]
        at hfields
      simp only [BitVec.ofNat_toNat, BitVec.setWidth_eq, hentry]
      exact hfields
    rw [unpackEnumFields_succ n hdone, hrun]
    by_cases hmark : mark.toNat = 1
    · rw [if_pos hmark] at hsub
      rw [if_pos hmark, run_bind_of_ok hsub]
      exact hnext
    · rw [if_neg hmark] at hsub
      rw [if_neg hmark, run_bind_of_ok hsub]
      exact hnext
  · exact List.forall_mem_cons.mpr ⟨hentryFreed, hes⟩

theorem fieldsReturn_nil : FieldsReturn ns' [endMark] :=
  ⟨0, [], rfl, rfl, by rw [packFields]; rfl, fun _ _ => takesFields_nil⟩

theorem fieldsReturn_cons (hknown : Known ns ns') (htype : type ∈ ns.types) {pos : ℕ}
    {mt : BitVec 32} (hpos : type.fields[pos]? = some mt) {mark : BitVec 32} {what : List Byte}
    {ep : Option (List LEnumeration)}
    (hpack : packEp ⟨pos, mt, type.lower + pos, ep⟩ = some (num mark ++ what))
    (hep : ∀ fuel, what.length < fuel → TakesEp ns' (cullUnpackEnumFrom ns' fuel) mark what ep)
    (hrest : FieldsReturn ns' enp) : FieldsReturn ns' (⟨pos, mt, type.lower + pos, ep⟩ :: enp) := by
  obtain ⟨n, bs, hlen, hcount, hfields, htakes⟩ := hrest
  have hnm : (type.lower + pos : ℤ) ≠ -1 := by
    have hnm := (nm_pos hpos).1
    omega
  refine ⟨n + 1, _, by rw [List.length_cons, hlen], ?_, ?_, fun fuel hfuel =>
    takesFields_cons hknown htype hpos (hep fuel ?_) (htakes fuel ?_)⟩
  · rw [countWhat, if_neg hnm, hcount]
    rfl
  · rw [packFields, if_neg (getType_ne_zero hpos), hpack, hfields]
    rfl
  · simp only [List.length_append] at hfuel
    omega
  · simp only [List.length_append] at hfuel
    omega

/-- The bytes of a list of fields, for those of the fields themselves. -/
theorem packWhat_fields (hfields : FieldsOf ns type enp) (hcount : countWhat enp = some n) :
    packWhat enp (some bs) = some (num 1 ++ num 2 ++ num (BitVec.ofNat 32 n) ++ bs) := by
  have hfirst : ∃ e, enp.head? = some e ∧ 0 ≤ e.pos := by
    cases hfields with
    | nil => exact ⟨endMark, rfl, le_rfl⟩
    | leaf hpos hrest => exact ⟨_, rfl, Int.natCast_nonneg _⟩
    | nested hpos hsub hrest => exact ⟨_, rfl, Int.natCast_nonneg _⟩
  obtain ⟨e, hhead, hpos⟩ := hfirst
  have hall : e.pos ≠ -1 := by omega
  have hnone : e.pos ≠ -2 := by omega
  simp only [packWhat, hhead, hcount, Option.bind_eq_bind, Option.bind_some, hall, hnone, if_false]
  rfl

/-- The head of the bytes is read, and the fields fill the array. -/
theorem takesSame_fields {fuel : ℕ} (hn : n < 200)
    (h : TakesFields ns' (cullUnpackEnumFrom ns' fuel) n bs enp) :
    TakesSame ns' (cullUnpackEnumFrom ns' (fuel + 1))
      (num 1 ++ num 2 ++ num (BitVec.ofNat 32 n) ++ bs) enp := by
  intro pb r hpb hrest
  rw [List.append_assoc _ bs] at hrest
  obtain ⟨pb₁, hpb₁, h₁, hhead⟩ := run_arrayHead ns' fuel hpb (by decide) hrest
  obtain ⟨es, pb', hrun, hpb', h', hlen, hfreed, hsame⟩ := h pb₁ r [] hpb₁ h₁ (by simp)
  refine ⟨es ++ [endMark], pb', ?_, hpb', h', .fields hsame, freedResult_array hfreed⟩
  rw [hhead, toNat_count hn, if_neg (by rw [maxDescrSize]; omega),
    Nat.mod_eq_of_lt (by omega : n + 1 < 2 ^ 32)]
  change (unpackEnumFields ns' (cullUnpackEnumFrom ns' fuel) n 0
    (List.replicate (n + 1) LEnumeration.zeroed)).run pb₁ = _ at hrun
  rw [run_bind_of_ok hrun, List.nil_append, ← hlen, store_filled]
  rfl

theorem takesSame_whole {flag : BitVec 32} (hflag : flag ≠ 2) {fuel : ℕ} {enp : List LEnumeration}
    (hsame : SameSelection ns' enp [⟨whatPos flag.toNat, -99, -99, none⟩, endMark]) :
    TakesSame ns' (cullUnpackEnumFrom ns' (fuel + 1)) (num 1 ++ num flag) enp := by
  intro pb r hpb h
  rw [List.append_assoc] at h
  obtain ⟨pb₁, hrun₁, hpb₁, h₁⟩ := run_unpackint_num hpb h
  obtain ⟨pb₂, hrun₂, hpb₂, h₂⟩ := run_unpackint_num hpb₁ h₁
  refine ⟨_, pb₂, ?_, hpb₂, h₂, hsame, freedResult_whole flag⟩
  rw [cullUnpackEnumFrom, run_bind_of_ok hrun₁, if_neg (by decide), run_bind_of_ok hrun₂,
    if_pos (mt toNat_eq_array.mp hflag)]
  rfl

theorem takesEp_none : TakesEp ns' sub 0 [] none := fun pb _ hpb h =>
  ⟨none, pb, rfl, hpb, h, trivial, freedResult_none⟩

theorem takesEp_some {what : List LEnumeration}
    (h : TakesSame ns' sub bs what) : TakesEp ns' sub 1 bs (some what) := fun pb r hpb hrest => by
  obtain ⟨what', pb', hrun, hpb', h', hsame, hfreed⟩ := h pb r hpb hrest
  exact ⟨some what', pb', by rw [if_pos (by decide), hrun], hpb', h', hsame, hfreed⟩

end

section

variable {ns ns' : NameSpace}

mutual

/-- A selection that was built is packed, and comes back. -/
theorem takesSelection (hknown : Known ns ns') {enp : List LEnumeration} :
    BuiltOver ns enp → ∃ bs, packWhat enp (packFields enp) = some bs ∧
      ∀ fuel, bs.length < fuel → TakesSame ns' (cullUnpackEnumFrom ns' fuel) bs enp
  | .all => by
      refine ⟨num 1 ++ num 0, rfl, fun fuel hfuel => ?_⟩
      obtain ⟨k, rfl⟩ := Nat.exists_eq_succ_of_ne_zero (Nat.ne_zero_of_lt hfuel)
      exact takesSame_whole (by decide) .all
  | .noFields => by
      refine ⟨num 1 ++ num 1, rfl, fun fuel hfuel => ?_⟩
      obtain ⟨k, rfl⟩ := Nat.exists_eq_succ_of_ne_zero (Nat.ne_zero_of_lt hfuel)
      exact takesSame_whole (by decide) .noFields
  | .fields htype hfields hshort => by
      obtain ⟨n, bs, hlen, hcount, hpack, htakes⟩ := fieldsReturn hknown htype hfields
      refine ⟨_, hpack ▸ packWhat_fields hfields hcount, fun fuel hfuel => ?_⟩
      obtain ⟨k, rfl⟩ := Nat.exists_eq_succ_of_ne_zero (Nat.ne_zero_of_lt hfuel)
      rw [maxDescrSize] at hshort
      refine takesSame_fields (by omega) (htakes k ?_)
      simp only [List.length_append, length_num] at hfuel
      omega

theorem fieldsReturn (hknown : Known ns ns') {type : ObjectType} (htype : type ∈ ns.types)
    {enp : List LEnumeration} : FieldsOf ns type enp → FieldsReturn ns' enp
  | .nil => fieldsReturn_nil
  | .leaf hpos hrest =>
    fieldsReturn_cons hknown htype hpos (by rw [packEp, List.append_nil])
      (fun _ _ => takesEp_none) (fieldsReturn hknown htype hrest)
  | .nested hpos hsub hrest => by
      obtain ⟨bs, hpack, htakes⟩ := takesSelection hknown hsub
      exact fieldsReturn_cons hknown htype hpos (by rw [packEp, hpack]; rfl)
        (fun fuel hfuel => takesEp_some (htakes fuel hfuel)) (fieldsReturn hknown htype hrest)

end

end

/-! ## Reading what is known to be there -/

/-- On a sound buffer with at most `L` bytes left the reader takes exactly these bytes. -/
def TakesAt {α : Type} (L : ℕ) (m : MemM α) (bs : List Byte) (t : List (List DescrEntry)) (a : α)
    (t' : List (List DescrEntry)) : Prop :=
  ∀ (pb : SgePackBuffer) r, pb.Sound → pb.rest.length ≤ L → pb.view = (bs ++ r, t) →
    ∃ pb', m.run pb = .ok (a, pb') ∧ pb'.Sound ∧ pb'.view = (r, t')

section

variable {α β : Type} {L d : ℕ} {m : MemM α} {p : UnpackM α} {f : α → MemM β} {Q : α → Prop}
  {bs cs : List Byte} {t t' t'' : List (List DescrEntry)} {a : α} {b : β}

theorem TakesAt.pure : TakesAt L (pure a) [] t a t := fun pb _ hpb _ h => ⟨pb, rfl, hpb, h⟩

theorem TakesAt.bind (h : TakesAt L m bs t a t')
    (hf : bs.length ≤ L → TakesAt (L - bs.length) (f a) cs t' b t'') :
    TakesAt L (m >>= f) (bs ++ cs) t b t'' := by
  intro pb r hpb hL hview
  rw [List.append_assoc] at hview
  have hrest : pb.rest = bs ++ (cs ++ r) := congrArg Prod.fst hview
  rw [hrest, List.length_append] at hL
  obtain ⟨pb₁, hrun, hpb₁, h₁⟩ := h pb (cs ++ r) hpb (by rw [hrest, List.length_append]; exact hL)
    hview
  have hrest₁ : pb₁.rest = cs ++ r := congrArg Prod.fst h₁
  obtain ⟨pb', hrun', hpb', h'⟩ := hf (by omega) pb₁ r hpb₁ (by rw [hrest₁]; omega) h₁
  exact ⟨pb', (run_bind_of_ok hrun).trans hrun', hpb', h'⟩

theorem TakesAt.map (h : TakesAt L m bs t a t')
    (hf : bs.length ≤ L → TakesAt (L - bs.length) (f a) [] t' b t'') :
    TakesAt L (m >>= f) bs t b t'' := by
  have hbind := h.bind hf
  rwa [List.append_nil] at hbind

theorem TakesAt.of_readsAs (h : ReadsAs L d Q m p) (hreads : Reads p bs t a t') :
    TakesAt L m bs t a t' := by
  intro pb r hpb hL hview
  have hread : p.run pb.view = .ok (a, r, t') := by
    rw [hview]
    exact hreads r
  rcases safe_iff.mp (h pb hpb hL) with ⟨a', pb', hrun, hp, hpb', -⟩ | ⟨e, -, hp⟩
  · obtain ⟨rfl, hview'⟩ := Prod.mk.inj (Except.ok.inj (hread.symm.trans hp))
    exact ⟨pb', hrun, hpb', hview'.symm⟩
  · exact absurd (hread.symm.trans hp) (by simp)

theorem takesAt_unpackint {i : ℕ} (hi : i < 2 ^ 32) : TakesAt L unpackint (packint i) t i t :=
  .of_readsAs (fun pb hpb _ => readsAs_unpackint pb hpb le_rfl) (reads_unpackint hi)

theorem takesAt_num (i : BitVec 32) : TakesAt L unpackint (num i) t i.toNat t :=
  takesAt_unpackint i.isLt

end

/-! ## Conditions come back -/

section

variable {D D' : Type} (f : MultiType D → MultiType D')

mutual

/-- The condition with other values. -/
def Condition.map : Condition D → Condition D'
  | .cmp op pos mt nm val => .cmp op pos mt nm (f val)
  | .cmpList op pos mt nm cp => .cmpList op pos mt nm (mapCond cp)
  | .neg first => .neg (mapCond first)
  | .log op first second => .log op (mapCond first) (mapCond second)

def mapCond : Option (Condition D) → Option (Condition D')
  | none => none
  | some cp => some cp.map

end

end

theorem run_writeAll_pure {σ ε : Type} {x bs : List Byte} {ws : List (WriteM σ ε (List Byte))}
    {s s' : σ} (h : (writeAll (pure x :: ws)).run s = .ok (bs, s')) :
    ∃ cs, (writeAll ws).run s = .ok (cs, s') ∧ bs = x ++ cs := by
  obtain ⟨x', s₁, hx, h⟩ := run_bind_eq_ok.mp h
  obtain ⟨rfl, rfl⟩ := Prod.mk.inj (run_pure_eq_ok.mp hx)
  obtain ⟨cs, s₂, hcs, h⟩ := run_bind_eq_ok.mp h
  obtain ⟨rfl, rfl⟩ := Prod.mk.inj (run_pure_eq_ok.mp h)
  exact ⟨cs, hcs, rfl⟩

theorem run_writeAll_last {σ ε : Type} {bs : List Byte} {w : WriteM σ ε (List Byte)} {s s' : σ}
    (h : (writeAll [w]).run s = .ok (bs, s')) : w.run s = .ok (bs, s') := by
  obtain ⟨x, s₁, hx, h⟩ := run_bind_eq_ok.mp h
  obtain ⟨cs, s₂, hcs, h⟩ := run_bind_eq_ok.mp h
  obtain ⟨rfl, rfl⟩ := Prod.mk.inj (run_pure_eq_ok.mp hcs)
  obtain ⟨rfl, rfl⟩ := Prod.mk.inj (run_pure_eq_ok.mp h)
  rw [List.append_nil]
  exact hx

section

variable {ns ns' : NameSpace} {heap : ℕ → Reduction ns} {hgrow : ns.GrowsTo ns'}

/-- What is read behind the operator. -/
def unpackOperands (ns : NameSpace) (op fuel : ℕ) : MemM (Option LCondition) := do
  if isComparison op then
    let pos ← unpackint
    let mt ← unpackint
    let nm ← unpackint
    if mtType (BitVec.ofNat 32 mt) = some .list then
      let cp ← cullUnpackCondFrom ns fuel
      return some (.cmpList op (BitVec.ofNat 32 pos) (BitVec.ofNat 32 mt) (BitVec.ofNat 32 nm) cp)
    else
      let val ← cullUnpackSwitch ns fuel (mtType (BitVec.ofNat 32 mt))
      return some (.cmp op (BitVec.ofNat 32 pos) (BitVec.ofNat 32 mt) (BitVec.ofNat 32 nm) val)
  else if op = opNeg then
    let first ← cullUnpackCondFrom ns fuel
    return some (.neg first)
  else if op = opAnd ∨ op = opOr then
    let first ← cullUnpackCondFrom ns fuel
    let second ← cullUnpackCondFrom ns fuel
    return some (.log op first second)
  else throw (.code .format)

theorem cullUnpackCondFrom_succ (ns : NameSpace) (fuel : ℕ) :
    cullUnpackCondFrom ns (fuel + 1) = (do
      let i ← unpackint
      if i = 0 then return none
      else
        let op ← unpackint
        unpackOperands ns op fuel) := by
  rw [cullUnpackCondFrom]
  rfl

variable (heap hgrow) in
/-- What the writer packed is read as `a`, and the receiver's table follows. -/
def Returns {α : Type} (w : PackM (List Byte)) (m : ℕ → MemM α) (a : α) : Prop :=
  ∀ tab bs tab', w.run tab = .ok (bs, tab') → TableBound tab' → TableBound tab ∧
    ∀ L fuel, L < fuel → TakesAt L (m fuel) bs (receiverTable heap hgrow tab) a
      (receiverTable heap hgrow tab')

theorem returns_none : Returns heap hgrow (pure (packint 0)) (cullUnpackCondFrom ns') none := by
  intro tab bs tab' hpack hbound
  obtain ⟨rfl, rfl⟩ := Prod.mk.inj (run_pure_eq_ok.mp hpack)
  refine ⟨hbound, fun L fuel hfuel => ?_⟩
  obtain ⟨k, rfl⟩ := Nat.exists_eq_succ_of_ne_zero (Nat.ne_zero_of_lt hfuel)
  rw [cullUnpackCondFrom_succ]
  exact (takesAt_unpackint (by decide)).map fun _ => .pure

theorem returns_throw {α : Type} {m : ℕ → MemM α} {a : α} {e : PackError} :
    Returns heap hgrow (writeAll [pure (packint 1), throw e]) m a := nofun

variable {op : ℕ}

theorem returns_some (hop : op < 2 ^ 32) {ws : List (PackM (List Byte))} {c : Option LCondition}
    (h : Returns heap hgrow (writeAll ws) (unpackOperands ns' op) c) :
    Returns heap hgrow (writeAll [pure (packint 1), writeAll (pure (packint op) :: ws)])
      (cullUnpackCondFrom ns') c := by
  intro tab bs tab' hpack hbound
  obtain ⟨bs₁, hpack₁, rfl⟩ := run_writeAll_pure hpack
  obtain ⟨bs₂, hpack₂, rfl⟩ := run_writeAll_pure (run_writeAll_last hpack₁)
  obtain ⟨hbound', htakes⟩ := h tab bs₂ tab' hpack₂ hbound
  refine ⟨hbound', fun L fuel hfuel => ?_⟩
  obtain ⟨k, rfl⟩ := Nat.exists_eq_succ_of_ne_zero (Nat.ne_zero_of_lt hfuel)
  rw [cullUnpackCondFrom_succ]
  refine (takesAt_unpackint (by decide)).bind fun hmark => ?_
  rw [if_neg (by decide)]
  refine (takesAt_unpackint hop).bind fun _ => htakes _ _ ?_
  simp only [packint, length_beBytes] at hmark ⊢
  omega

variable {pos mt nm : BitVec 32}

/-- The numbers of a comparison are read, whatever is done with them. -/
theorem takesAt_numbers {α : Type} {L : ℕ} {f : ℕ → ℕ → ℕ → MemM α}
    {bs : List Byte} {t t' : List (List DescrEntry)} {a : α}
    (h : 12 ≤ L → TakesAt (L - 12) (f pos.toNat mt.toNat nm.toNat) bs t a t') :
    TakesAt L (do
      let pos ← unpackint
      let mt ← unpackint
      let nm ← unpackint
      f pos mt nm) (num pos ++ (num mt ++ (num nm ++ bs))) t a t' := by
  refine (takesAt_num pos).bind fun h₁ => (takesAt_num mt).bind fun h₂ =>
    (takesAt_num nm).bind fun h₃ => ?_
  simp only [length_num] at h₁ h₂ h₃ ⊢
  rw [Nat.sub_sub, Nat.sub_sub]
  exact h (by omega)

theorem returns_cmp (hop : isComparison op)
    (hmt : mtType mt ≠ some .list) (val : MultiType (HeldDescr ns)) :
    Returns heap hgrow
      (writeAll [pure (num pos), pure (num mt), pure (num nm), cullPackSwitch heap val (mtType mt)])
      (unpackOperands ns' op) (some (.cmp op pos mt nm (received heap hgrow val))) := by
  intro tab bs tab' hpack hbound
  obtain ⟨bs₁, hpack₁, rfl⟩ := run_writeAll_pure hpack
  obtain ⟨bs₂, hpack₂, rfl⟩ := run_writeAll_pure hpack₁
  obtain ⟨bs₃, hpack₃, rfl⟩ := run_writeAll_pure hpack₂
  replace hpack₃ := run_writeAll_last hpack₃
  have hread (n : ℕ) (hn : bs₃.length ≤ n) :=
    @inverts_cullPackSwitch ns ns' heap hgrow val n (mtType mt) tab bs₃ tab' hpack₃ hn hbound
  refine ⟨(hread _ le_rfl).1, fun L fuel hfuel => ?_⟩
  rw [unpackOperands, if_pos hop]
  refine takesAt_numbers fun hL => ?_
  simp only [BitVec.ofNat_toNat, BitVec.setWidth_eq]
  rw [if_neg hmt]
  refine TakesAt.map ?_ fun _ => .pure
  exact .of_readsAs (readsAs_cullUnpackSwitch ns' (by omega) (Nat.le_add_right _ bs₃.length) _)
    (hread _ (Nat.le_add_left _ _)).2

theorem returns_cmpList (hop : isComparison op)
    (hmt : mtType mt = some .list) {w : PackM (List Byte)} {cp : Option LCondition}
    (h : Returns heap hgrow w (cullUnpackCondFrom ns') cp) :
    Returns heap hgrow (writeAll [pure (num pos), pure (num mt), pure (num nm), w])
      (unpackOperands ns' op) (some (.cmpList op pos mt nm cp)) := by
  intro tab bs tab' hpack hbound
  obtain ⟨bs₁, hpack₁, rfl⟩ := run_writeAll_pure hpack
  obtain ⟨bs₂, hpack₂, rfl⟩ := run_writeAll_pure hpack₁
  obtain ⟨bs₃, hpack₃, rfl⟩ := run_writeAll_pure hpack₂
  obtain ⟨hbound', htakes⟩ := h tab bs₃ tab' (run_writeAll_last hpack₃) hbound
  refine ⟨hbound', fun L fuel hfuel => ?_⟩
  rw [unpackOperands, if_pos hop]
  refine takesAt_numbers fun hL => ?_
  simp only [BitVec.ofNat_toNat, BitVec.setWidth_eq]
  rw [if_pos hmt]
  exact (htakes _ _ (by omega)).map fun _ => .pure

theorem returns_neg {w : PackM (List Byte)} {first : Option LCondition}
    (h : Returns heap hgrow w (cullUnpackCondFrom ns') first) :
    Returns heap hgrow (writeAll [w]) (unpackOperands ns' opNeg) (some (.neg first)) := by
  intro tab bs tab' hpack hbound
  obtain ⟨hbound', htakes⟩ := h tab bs tab' (run_writeAll_last hpack) hbound
  refine ⟨hbound', fun L fuel hfuel => ?_⟩
  rw [unpackOperands, if_neg (by decide), if_pos rfl]
  exact (htakes L fuel hfuel).map fun _ => .pure

theorem returns_log (hop : op = opAnd ∨ op = opOr) {w w' : PackM (List Byte)}
    {first second : Option LCondition} (h : Returns heap hgrow w (cullUnpackCondFrom ns') first)
    (h' : Returns heap hgrow w' (cullUnpackCondFrom ns') second) :
    Returns heap hgrow (writeAll [w, w']) (unpackOperands ns' op)
      (some (.log op first second)) := by
  intro tab bs tab' hpack hbound
  obtain ⟨bs₁, tab₁, hpack₁, hrest⟩ := run_bind_eq_ok.mp hpack
  obtain ⟨bs₂, tab₂, hpack₂, hout⟩ := run_bind_eq_ok.mp hrest
  obtain ⟨rfl, rfl⟩ := Prod.mk.inj (run_pure_eq_ok.mp hout)
  obtain ⟨hbound₁, htakes'⟩ := h' tab₁ bs₂ tab₂ (run_writeAll_last hpack₂) hbound
  obtain ⟨hbound₀, htakes⟩ := h tab bs₁ tab₁ hpack₁ hbound₁
  refine ⟨hbound₀, fun L fuel hfuel => ?_⟩
  have hcmp : ¬ isComparison op := by rcases hop with rfl | rfl <;> decide
  have hneg : op ≠ opNeg := by rcases hop with rfl | rfl <;> decide
  rw [unpackOperands, if_neg hcmp, if_neg hneg, if_pos hop]
  exact (htakes L fuel hfuel).bind fun _ => (htakes' _ _ (by omega)).map fun _ => .pure

theorem comparison_lt (h : isComparison op) : op < 2 ^ 32 := by
  unfold isComparison opSubscope opEqual opHostnamecmp at h
  omega

mutual

/-- **A condition comes back**, with the values as values are received. -/
theorem returns_condition : ∀ cp : Condition (HeldDescr ns),
    Returns heap hgrow (writeAll [pure (packint 1), packCondition heap cp])
      (cullUnpackCondFrom ns') (some (cp.map (received heap hgrow)))
  | .cmp op pos mt nm val => by
      rw [packCondition, Condition.map]
      split
      · next hop => exact returns_some (comparison_lt hop.1) (returns_cmp hop.1 hop.2 val)
      · exact returns_throw
  | .cmpList op pos mt nm cp => by
      rw [packCondition, Condition.map]
      split
      · next hop =>
        exact returns_some (comparison_lt hop.1)
          (returns_cmpList hop.1 hop.2 (returns_cond cp))
      · exact returns_throw
  | .neg first => by
      rw [packCondition, Condition.map]
      exact returns_some (by decide) (returns_neg (returns_cond first))
  | .log op first second => by
      rw [packCondition, Condition.map]
      split
      · next hop =>
        have hlt : op < 2 ^ 32 := by rcases hop with rfl | rfl <;> decide
        exact returns_some hlt (returns_log hop (returns_cond first) (returns_cond second))
      · exact returns_throw

theorem returns_cond : ∀ cp : Option (Condition (HeldDescr ns)),
    Returns heap hgrow (cullPackCond heap cp) (cullUnpackCondFrom ns')
      (mapCond (received heap hgrow) cp)
  | none => by
      rw [cullPackCond, mapCond]
      exact returns_none
  | some cp => by
      rw [cullPackCond, mapCond]
      exact returns_condition cp

end

end

/-! ## What a condition holds of -/

structure Elem where
  descr : List DescrEntry
  cont : List Received

/-- The value at a position. -/
def Elem.value (ep : Elem) (pos : BitVec 32) : Option Received := do
  let e ← ep.descr[pos.toNat]?
  let off ← e.off
  ep.cont[(pos.toNat + off).toNat]?

/-- Comparisons of strings and doubles, and a pattern against a string. -/
structure Comparisons where
  strcmp : CString → CString → ℤ
  strcasecmp : CString → CString → ℤ
  hostcmp : CString → CString → ℤ
  fnmatch : CString → CString → ℤ
  doubleEq : BitVec 64 → BitVec 64 → Bool
  doubleLt : BitVec 64 → BitVec 64 → Bool

def opBitmask : ℕ := 24

def opStrcasecmp : ℕ := 25

def opPatterncmp : ℕ := 26

/-- SUBSCOPE, EQUAL, NOT_EQUAL, LOWER_EQUAL, LOWER, GREATER_EQUAL and GREATER. -/
def isOrdering (op : ℕ) : Prop := op = opSubscope ∨ opEqual ≤ op ∧ op < opBitmask

instance (op : ℕ) : Decidable (isOrdering op) := inferInstanceAs (Decidable (_ ∨ _))

def threeWay (equal less : Bool) : ℤ := if equal then 0 else if less then -1 else 1

def order (a b : ℤ) : ℤ := threeWay (a = b) (a < b)

/-- What an operator makes of the result of a comparison. -/
def ordered (op : ℕ) (result : ℤ) : Bool :=
  if op = opEqual then result = 0
  else if op = opEqual + 1 then result ≠ 0
  else if op = opEqual + 2 then result = -1 ∨ result = 0
  else if op = opEqual + 3 then result = -1
  else if op = opEqual + 4 then result = 1 ∨ result = 0
  else if op = opEqual + 5 then result = 1
  else false

def emptyString : CString := ⟨[], List.not_mem_nil⟩

section

variable {D : Type} (C : Comparisons)

/-- A comparison of two strings. An unset one makes it false. -/
def withStrings (str1 str2 : Option CString) (holds : CString → CString → Bool) : Bool :=
  match str1, str2 with
  | some str1, some str2 => holds str1 str2
  | _, _ => false

/-- A value in a condition against one of an element. No result stands for the end of the process,
which a field of another type leads to. -/
def compareOrdered (op : ℕ) : MultiType D → Received → Option Bool
  | .int i1, .int i0 => some (ordered op (order i0.toInt i1.toInt))
  | .string str2, .string str1 => some (withStrings str1 str2 fun s t => ordered op (C.strcmp s t))
  | .host str2, .host str1 => some (withStrings str1 str2 fun s t => ordered op (C.strcmp s t))
  | .ulong u1, .ulong u0 => some (ordered op (order u0.toNat u1.toNat))
  | .ulong64 u1, .ulong64 u0 => some (ordered op (order u0.toNat u1.toNat))
  | .double d1, .double d0 => some (ordered op (threeWay (C.doubleEq d0 d1) (C.doubleLt d0 d1)))
  | .long l1, .long l0 => some (ordered op (order l0.toInt l1.toInt))
  | .bool b1, .bool b0 => some (ordered op (order b0.toNat b1.toNat))
  | .ref c1, .ref c0 => some (ordered op (order (c0.getD 0) (c1.getD 0)))
  | .nullObject, _ | .object .., _ | .nullList, _ | .list .., _ => some false
  | _, _ => none

/-- STRCASECMP and HOSTNAMECMP. -/
def compareNames (op : ℕ) : MultiType D → Received → Option Bool
  | .string str2, .string str1 | .host str2, .host str1 =>
    some (withStrings str1 str2 fun s t =>
      if op = opStrcasecmp then C.strcasecmp s t = 0 else C.hostcmp s t = 0)
  | .string _, _ | .host _, _ => none
  | _, _ => some false

/-- PATTERNCMP. A string of the element that is not set is empty. -/
def comparePattern : MultiType D → Received → Option Bool
  | .string str2, .string str1 | .host str2, .host str1 =>
    some (withStrings (some (str1.getD emptyString)) str2 fun s t => C.fnmatch t s = 0)
  | .string _, _ | .host _, _ => none
  | _, _ => some false

/-- BITMASK: every bit of the condition's value. -/
def compareBits : MultiType D → Received → Option Bool
  | .ulong bm1, .ulong bm0 => some (bm0 &&& bm1 = bm1)
  | .ulong _, _ => none
  | _, _ => some false

def compareValue (op : ℕ) (val : MultiType D) (v : Received) : Option Bool :=
  if isOrdering op then compareOrdered C op val v
  else if op = opStrcasecmp ∨ op = opHostnamecmp then compareNames C op val v
  else if op = opPatterncmp then comparePattern C val v
  else if op = opBitmask then compareBits val v
  else none

/-- Whether one of the elements suffices. The first one that does is the last that is looked at. -/
def lFindFirst {α : Type} (holds : α → Option Bool) : List α → Option Bool
  | [] => some false
  | ep :: rest => (holds ep).bind fun b => if b then some true else lFindFirst holds rest

mutual

def compareCondition : Condition D → Elem → Option Bool
  | .cmp op pos mt _ val, ep =>
    if mtType mt = some val.type then (ep.value pos).bind (compareValue C op val)
    else some false
  | .cmpList op pos _ _ cp, ep =>
    if isOrdering op then
      match ep.value pos with
      | some .nullList => some false
      | some (.list _ descr elems) => lFindFirst (fun cont => lCompare cp ⟨descr, cont⟩) elems
      | _ => none
    else if isComparison op then some false
    else none
  | .neg first, ep => (lCompare first ep).map (!·)
  | .log op first second, ep =>
    if op = opAnd then (lCompare first ep).bind fun b => if b then lCompare second ep else some b
    else if op = opOr then
      (lCompare first ep).bind fun b => if b then some b else lCompare second ep
    else none

def lCompare : Option (Condition D) → Elem → Option Bool
  | none, _ => some true
  | some cp, ep => compareCondition cp ep

end

end

/-! ## Values that hold no descriptors -/

section

variable {D D' : Type}

/-- The same value, where descriptors are held in another way. -/
def constant : MultiType D → MultiType D'
  | .bool b => .bool b
  | .ulong ul => .ulong ul
  | .ulong64 ul64 => .ulong64 ul64
  | .long l => .long l
  | .int i => .int i
  | .double db => .double db
  | .string str => .string str
  | .host host => .host host
  | .ref ref => .ref ref
  | .nullList | .list .. => .nullList
  | .nullObject | .object .. => .nullObject

theorem type_constant (val : MultiType D) : (constant val : MultiType D').type = val.type := by
  cases val <;> rfl

variable (D') in
theorem compareValue_constant (C : Comparisons) (op : ℕ) (val : MultiType D) (v : Received) :
    compareValue C op (constant val : MultiType D') v = compareValue C op val v := by
  have hordered : compareOrdered C op (constant val : MultiType D') v = compareOrdered C op val v := by
    cases val <;> cases v <;> rfl
  have hnames : compareNames C op (constant val : MultiType D') v = compareNames C op val v := by
    cases val <;> cases v <;> rfl
  have hpattern : comparePattern C (constant val : MultiType D') v = comparePattern C val v := by
    cases val <;> cases v <;> rfl
  have hbits : compareBits (constant val : MultiType D') v = compareBits val v := by
    cases val <;> cases v <;> rfl
  rw [compareValue, compareValue, hordered, hnames, hpattern, hbits]

mutual

theorem compareCondition_constant (C : Comparisons) : ∀ (cp : Condition D) (ep : Elem),
    compareCondition C (cp.map (constant : MultiType D → MultiType D')) ep =
      compareCondition C cp ep
  | .cmp op pos mt nm val, ep => by
      rw [Condition.map, compareCondition, compareCondition, type_constant]
      have hvalue (v : Received) := compareValue_constant D' C op val v
      simp only [hvalue]
  | .cmpList op pos mt nm cp, ep => by
      rw [Condition.map, compareCondition, compareCondition]
      simp only [lCompare_constant C cp]
  | .neg first, ep => by
      rw [Condition.map, compareCondition, compareCondition, lCompare_constant C first]
  | .log op first second, ep => by
      rw [Condition.map, compareCondition, compareCondition, lCompare_constant C first,
        lCompare_constant C second]

/-- A condition does not say how its values hold descriptors. -/
theorem lCompare_constant (C : Comparisons) : ∀ (cp : Option (Condition D)) (ep : Elem),
    lCompare C (mapCond (constant : MultiType D → MultiType D') cp) ep = lCompare C cp ep
  | none, ep => by rw [mapCond, lCompare, lCompare]
  | some cp, ep => by rw [mapCond, lCompare, lCompare, compareCondition_constant C cp]

end

/-- A value without descriptors that is received as it is: no pointer, and no empty string. -/
def Survives : MultiType D → Prop
  | .string str => str ≠ some emptyString
  | .host host => host ≠ some emptyString
  | .ref ref => ref = none
  | .list .. | .object .. => False
  | _ => True

mutual

/-- All values of a condition. -/
def Condition.All (P : MultiType D → Prop) : Condition D → Prop
  | .cmp _ _ _ _ val => P val
  | .cmpList _ _ _ _ cp => AllOf P cp
  | .neg first => AllOf P first
  | .log _ first second => AllOf P first ∧ AllOf P second

def AllOf (P : MultiType D → Prop) : Option (Condition D) → Prop
  | none => True
  | some cp => cp.All P

end

mutual

theorem Condition.map_congr {P : MultiType D → Prop} {f g : MultiType D → MultiType D'}
    (h : ∀ val, P val → f val = g val) : ∀ cp : Condition D, cp.All P → cp.map f = cp.map g
  | .cmp op pos mt nm val, hall => by
      rw [Condition.All] at hall
      rw [Condition.map, Condition.map, h val hall]
  | .cmpList op pos mt nm cp, hall => by
      rw [Condition.All] at hall
      rw [Condition.map, Condition.map, mapCond_congr h cp hall]
  | .neg first, hall => by
      rw [Condition.All] at hall
      rw [Condition.map, Condition.map, mapCond_congr h first hall]
  | .log op first second, hall => by
      rw [Condition.All] at hall
      rw [Condition.map, Condition.map, mapCond_congr h first hall.1, mapCond_congr h second hall.2]

theorem mapCond_congr {P : MultiType D → Prop} {f g : MultiType D → MultiType D'}
    (h : ∀ val, P val → f val = g val) :
    ∀ cp : Option (Condition D), AllOf P cp → mapCond f cp = mapCond g cp
  | none, _ => by rw [mapCond, mapCond]
  | some cp, hall => by
      rw [AllOf] at hall
      rw [mapCond, mapCond, Condition.map_congr h cp hall]

end

end

theorem unsetEmpty_of_ne {str : Option CString} (h : str ≠ some emptyString) :
    unsetEmpty str = str := by
  cases str with
  | none => rfl
  | some s =>
    refine Option.filter_eq_some_iff.mpr ⟨rfl, decide_eq_true fun hnil => h ?_⟩
    rw [← Subtype.coe_eta s s.property]
    simp only [hnil]
    rfl

theorem received_survives {ns' : NameSpace} (heap : ℕ → Reduction ns) (hgrow : ns.GrowsTo ns')
    (val : MultiType (HeldDescr ns)) (h : Survives val) :
    received heap hgrow val = constant val := by
  cases val with
  | string str => rw [received, constant, unsetEmpty_of_ne h]
  | host host => rw [received, constant, unsetEmpty_of_ne h]
  | ref ref =>
    obtain rfl : ref = none := h
    rw [received, constant]
  | list => exact h.elim
  | object => exact h.elim
  | _ => rw [received, constant]

/-! ## What is packed -/

section

variable {D : Type}

def Packable : MultiType D → Prop
  | .int _ | .long _ | .nullList | .list .. | .object .. => False
  | _ => True

mutual

/-- Comparisons of a field with a value of its data type, and what is made of them. -/
def Condition.Built : Condition D → Prop
  | .cmp op _ mt _ val => isComparison op ∧ mtType mt = some val.type ∧ Packable val
  | .cmpList op _ mt _ cp => isComparison op ∧ mtType mt = some .list ∧ BuiltCond cp
  | .neg first => BuiltCond first
  | .log op first second => (op = opAnd ∨ op = opOr) ∧ BuiltCond first ∧ BuiltCond second

def BuiltCond : Option (Condition D) → Prop
  | none => True
  | some cp => cp.Built

end

end

/-- The writer succeeds in every state and leaves it. -/
def Writes (w : PackM (List Byte)) : Prop := ∀ tab, ∃ bs, w.run tab = .ok (bs, tab)

theorem writes_pure (bs : List Byte) : Writes (pure bs) := fun _ => ⟨bs, rfl⟩

theorem writes_writeAll {ws : List (PackM (List Byte))} (h : ∀ w ∈ ws, Writes w) :
    Writes (writeAll ws) := by
  induction ws with
  | nil => exact writes_pure []
  | cons w ws ih =>
    intro tab
    obtain ⟨hw, hws⟩ := List.forall_mem_cons.mp h
    obtain ⟨bs, hbs⟩ := hw tab
    obtain ⟨cs, hcs⟩ := ih hws tab
    exact ⟨bs ++ cs, run_bind_eq_ok.mpr ⟨bs, tab, hbs, run_bind_eq_ok.mpr ⟨cs, tab, hcs, rfl⟩⟩⟩

section

variable {ns ns' : NameSpace} (heap : ℕ → Reduction ns)

theorem writes_value {val : MultiType (HeldDescr ns)} (h : Packable val) {type : Option CullType}
    (htype : type = some val.type) : Writes (cullPackSwitch heap val type) := by
  subst htype
  cases val with
  | int | long | nullList | list | object => exact h.elim
  | _ =>
    rw [cullPackSwitch, packAs, if_pos rfl]
    · exact writes_pure _
    · intros
      contradiction
    · intros
      contradiction

mutual

theorem writes_condition : ∀ cp : Condition (HeldDescr ns), cp.Built →
    Writes (packCondition heap cp)
  | .cmp op pos mt nm val, h => by
      obtain ⟨hop, hmt, hval⟩ := h
      have hlist : mtType mt ≠ some .list := by
        rw [hmt]
        cases val <;> first | exact hval.elim | simp [MultiType.type]
      rw [packCondition, if_pos ⟨hop, hlist⟩]
      have hwrites := writes_value heap hval hmt
      exact writes_writeAll (by simp [writes_pure, hwrites])
  | .cmpList op pos mt nm cp, h => by
      obtain ⟨hop, hmt, hcp⟩ := h
      rw [packCondition, if_pos ⟨hop, hmt⟩]
      have hwrites := writes_cond cp hcp
      exact writes_writeAll (by simp [writes_pure, hwrites])
  | .neg first, h => by
      rw [packCondition]
      have hwrites := writes_cond first h
      exact writes_writeAll (by simp [writes_pure, hwrites])
  | .log op first second, h => by
      obtain ⟨hop, hfirst, hsecond⟩ := h
      rw [packCondition, if_pos hop]
      have hwrites := writes_cond first hfirst
      have hwrites' := writes_cond second hsecond
      exact writes_writeAll (by simp [writes_pure, hwrites, hwrites'])

theorem writes_cond : ∀ cp : Option (Condition (HeldDescr ns)), BuiltCond cp →
    Writes (cullPackCond heap cp)
  | none, _ => by
      rw [cullPackCond]
      exact writes_pure _
  | some cp, h => by
      rw [cullPackCond]
      have hwrites := writes_condition cp h
      exact writes_writeAll (by simp [writes_pure, hwrites])

end

end

/-! ## Both formats -/

/-- **Selections and conditions survive the wire.** A selection over types the receiver knows is
read as the same one, at the receiver's positions. A condition is packed when its values are, and
it is read with the values as they are received; without a pointer and an empty string in it, it
is the same condition and holds of the same elements. Both readers take what was packed and
nothing more. -/
theorem selections_survive {ns ns' : NameSpace} (hknown : Known ns ns') :
    (∀ enp, BuiltOver ns enp → ∃ bs, cullPackEnum (some enp) = some bs ∧
      ∀ fuel, bs.length < fuel → TakesSame ns' (cullUnpackEnumFrom ns' fuel) bs enp) ∧
    ∀ (heap : ℕ → Reduction ns) (hgrow : ns.GrowsTo ns') (cp : Option (Condition (HeldDescr ns))),
      (BuiltCond cp → Writes (cullPackCond heap cp)) ∧
      Returns heap hgrow (cullPackCond heap cp) (cullUnpackCondFrom ns')
        (mapCond (received heap hgrow) cp) ∧
      (AllOf Survives cp → mapCond (received heap hgrow) cp = mapCond constant cp ∧
        ∀ C ep, lCompare C (mapCond (received heap hgrow) cp) ep = lCompare C cp ep) := by
  refine ⟨fun enp henp => ?_, fun heap hgrow cp => ⟨writes_cond heap cp, returns_cond cp,
    fun hall => ?_⟩⟩
  · rw [cullPackEnum]
    exact takesSelection hknown henp
  · have hsame := mapCond_congr (received_survives heap hgrow) cp hall
    refine ⟨hsame, fun C ep => ?_⟩
    rw [hsame]
    exact lCompare_constant C cp ep

/-- Both fields of the counter in a selection, and in a condition. -/
theorem selections_survive_counter :
    (∃ bs, cullPackEnum (some [⟨0, 2, 100, none⟩, ⟨1, 6, 101, none⟩, endMark]) = some bs ∧
      ∀ fuel, bs.length < fuel → TakesSame (oneType newerCounter)
        (cullUnpackEnumFrom (oneType newerCounter) fuel) bs
        [⟨0, 2, 100, none⟩, ⟨1, 6, 101, none⟩, endMark]) ∧
    ∃ cp : Option (Condition (HeldDescr (oneType olderCounter))),
      cp = some (.log opAnd (some (.cmp opEqual 0 2 100 (.ulong 7)))
        (some (.neg (some (.cmp opEqual 1 6 101 (.string (some ⟨[120], by decide⟩))))))) ∧
      Writes (cullPackCond (fun _ => counterOnly) cp) ∧
      Returns (fun _ => counterOnly) counter_growsTo (cullPackCond (fun _ => counterOnly) cp)
        (cullUnpackCondFrom (oneType newerCounter)) (mapCond constant cp) ∧
      ∀ C ep, lCompare C (mapCond (received (fun _ => counterOnly) counter_growsTo) cp) ep =
        lCompare C cp ep := by
  have hknown : Known (oneType olderCounter) (oneType newerCounter) := by
    intro type htype pos hpos
    obtain rfl := List.mem_singleton.mp htype
    change pos < 2 at hpos
    interval_cases pos <;> decide
  obtain ⟨hselections, hconditions⟩ := selections_survive hknown
  constructor
  · refine hselections _ (.fields (List.mem_singleton_self olderCounter) ?_ (by decide))
    apply FieldsOf.leaf rfl
    exact .leaf rfl .nil
  · refine ⟨_, rfl, ?_⟩
    obtain ⟨hwrites, hreturns, hsame⟩ := hconditions (fun _ => counterOnly) counter_growsTo
      (some (.log opAnd (some (.cmp opEqual 0 2 100 (.ulong 7)))
        (some (.neg (some (.cmp opEqual 1 6 101 (.string (some ⟨[120], by decide⟩))))))))
    have hname : (some ⟨[120], by decide⟩ : Option CString) ≠ some emptyString := by decide
    obtain ⟨heq, hcompare⟩ := hsame ⟨trivial, hname⟩
    refine ⟨hwrites ?_, heq ▸ hreturns, hcompare⟩
    exact ⟨.inl rfl, ⟨by decide, by decide, trivial⟩, by decide, by decide, trivial⟩

def emptyName {D : Type} : Condition D := .cmp opEqual 1 6 101 (.string (some emptyString))

/-- Strings are compared by their bytes. -/
def byBytes : Comparisons where
  strcmp s t := threeWay (s = t) (s.val.map (·.toNat) < t.val.map (·.toNat))
  strcasecmp s t := threeWay (s = t) (s.val.map (·.toNat) < t.val.map (·.toNat))
  hostcmp s t := threeWay (s = t) (s.val.map (·.toNat) < t.val.map (·.toNat))
  fnmatch s t := if s = t then 0 else 1
  doubleEq a b := a = b
  doubleLt a b := a.toNat < b.toNat

/-- The condition is packed, and is read as one without a name. The element with an empty name
suffices the one but not the other. -/
theorem emptyName_lost : ∃ bs,
    (cullPackCond (fun _ => counterOnly) (some emptyName)).run [] = .ok (bs, []) ∧
    cullUnpackCond (oneType olderCounter) 22 (.ofBytes bs 0) =
      .returns none (some (.cmp opEqual 1 6 101 (.string none))) ∧
    lCompare byBytes (some (emptyName : LCondition))
      ⟨olderCounter.entries, [.ulong 0, .string (some emptyString)]⟩ = some true ∧
    lCompare byBytes (some (.cmp opEqual 1 6 101 (.string none) : LCondition))
      ⟨olderCounter.entries, [.ulong 0, .string (some emptyString)]⟩ = some false := by
  refine ⟨_, rfl, rfl, by decide, by decide⟩

end ClusterScheduler.Cull.InMemory
