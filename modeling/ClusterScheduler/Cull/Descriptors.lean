import Mathlib

/-!
# Descriptors of object types

An object type is a block of fields with consecutive field numbers. A reduction holds some
fields of a type. Its descriptor has the length of the type, and each field it holds has a
slot among the values of an element.

* `CullType`, `DescrEntry`, `presentFields` — data types, and the entries of a descriptor.
* `ObjectType`, `NameSpace` — the types a process knows.
* `ocsCullDescrLayout`, `ocsCullDescrBuild`, `Reduction` — reductions.
* `keptFields` — the fields of types and of reductions in order, with their slots.
* `NameSpace.GrowsTo` — types with more fields at their ends.
-/

namespace ClusterScheduler.Cull

/-! ## Entries -/

inductive CullType where
  | double | ulong | long | bool | int | string | list | object | ref | host | ulong64
  deriving DecidableEq, Repr

def CullType.code : CullType → BitVec 8
  | .double => 1
  | .ulong => 2
  | .long => 3
  | .bool => 4
  | .int => 5
  | .string => 6
  | .list => 7
  | .object => 8
  | .ref => 9
  | .host => 10
  | .ulong64 => 11

def CullType.ofCode (c : BitVec 8) : Option CullType :=
  [CullType.double, .ulong, .long, .bool, .int, .string, .list, .object, .ref, .host,
    .ulong64].find? fun type => type.code = c

def cullNoTransfer : BitVec 32 := 0x00000800

def cullDescrInterned : BitVec 32 := 0x00080000

def cullIsReduced : BitVec 32 := 0x00200000

def mtGetType (mt : BitVec 32) : BitVec 8 := mt.setWidth 8

def mtType (mt : BitVec 32) : Option CullType := CullType.ofCode (mtGetType mt)

def mtDoTransfer (mt : BitVec 32) : Bool := mt &&& cullNoTransfer = 0

/-- A field without an offset has no value. -/
structure DescrEntry where
  nm : ℤ
  mt : BitVec 32
  off : Option ℤ
  deriving DecidableEq, Repr

def DescrEntry.withMt (g : BitVec 32 → BitVec 32) (e : DescrEntry) : DescrEntry :=
  { e with mt := g e.mt }

/-- A field that has a value, and the slot of it. -/
structure PresentField where
  nm : ℤ
  mt : BitVec 32
  slot : ℕ
  deriving DecidableEq, Repr

def presentFrom : ℕ → List DescrEntry → List PresentField
  | _, [] => []
  | pos, e :: es =>
    match e.off with
    | some off => ⟨e.nm, e.mt, (pos + off).toNat⟩ :: presentFrom (pos + 1) es
    | none => presentFrom (pos + 1) es

def presentFields (dp : List DescrEntry) : List PresentField := presentFrom 0 dp

/-! ## Types -/

def entriesFrom : ℤ → List (BitVec 32) → List DescrEntry
  | _, [] => []
  | nm, mt :: mts => ⟨nm, mt, some 0⟩ :: entriesFrom (nm + 1) mts

/-- A static block. Field numbers are allocated in one block for each type. -/
structure ObjectType where
  lower : ℕ
  fields : List (BitVec 32)
  nonempty : fields ≠ [] := by decide
  positive : 0 < lower := by decide
  bounded : lower + fields.length ≤ 2 ^ 31 := by decide
  typed : (fields.all fun mt => (mtType mt).isSome) := by decide
  full : (fields.all fun mt => mt &&& (cullDescrInterned ||| cullIsReduced) = 0) := by decide
  deriving DecidableEq

def ObjectType.entries (t : ObjectType) : List DescrEntry := entriesFrom t.lower t.fields

/-- No two types of a name space share a field number. -/
structure NameSpace where
  types : List ObjectType
  disjoint : types.Pairwise fun a b =>
    a.lower + a.fields.length ≤ b.lower ∨ b.lower + b.fields.length ≤ a.lower

def ocsCullDescrStaticFor (ns : NameSpace) (nm : ℤ) : Option ObjectType :=
  ns.types.find? fun t => (t.lower : ℤ) = nm

def ocsCullDescrStaticContaining (ns : NameSpace) (nm : ℤ) : Option (ObjectType × ℕ) :=
  (ns.types.find? fun t => t.lower ≤ nm ∧ nm < t.lower + t.fields.length).map fun t =>
    (t, (nm - t.lower).toNat)

/-! ## Reductions -/

def reducedMt (mt : BitVec 32) : BitVec 32 := (mt &&& ~~~cullDescrInterned) ||| cullIsReduced

def fullMt (mt : BitVec 32) : BitVec 32 := reducedMt mt &&& ~~~cullIsReduced

/-- Kept fields get the next slot, from `slot` on. -/
def layoutFrom : ℕ → ℕ → List DescrEntry → List Bool → Option (List DescrEntry)
  | pos, slot, e :: es, keep :: keeps =>
    if keep ∧ e.off.isNone then none
    else (layoutFrom (pos + 1) (if keep then slot + 1 else slot) es keeps).map
      (⟨e.nm, reducedMt e.mt, if keep then some (slot - pos) else none⟩ :: ·)
  | _, _, _, _ => some []

/-- The number of kept fields and the entries. A selection of every field is not marked. -/
def ocsCullDescrLayout (src : List DescrEntry) (keep : List Bool) :
    Option (ℕ × List DescrEntry) :=
  if src = [] ∨ keep.length ≠ src.length then none
  else (layoutFrom 0 0 src keep).map fun out =>
    let slot := keep.count true
    (slot, if slot = src.length then
        out.map (.withMt (· &&& ~~~cullIsReduced)) else out)

/-- The source itself if every field is kept. -/
def ocsCullDescrBuild (src : List DescrEntry) (keep : List Bool) : Option (List DescrEntry) :=
  (ocsCullDescrLayout src keep).bind fun (kept, out) =>
    if kept = 0 then none
    else if kept = src.length then some src
    else some out

/-- A counted descriptor: some fields of a type, in a private copy also all of them. -/
structure Reduction (ns : NameSpace) where
  type : ObjectType
  known : type ∈ ns.types
  keep : List Bool
  length_eq : keep.length = type.fields.length
  keeps : true ∈ keep

/-- Some field of the type is missing. -/
def Reduction.Proper {ns : NameSpace} (r : Reduction ns) : Prop := false ∈ r.keep

def Reduction.entries {ns : NameSpace} (r : Reduction ns) : List DescrEntry :=
  ((ocsCullDescrLayout r.type.entries r.keep).map (·.2)).getD []

/-! ## Fields in order -/

def keptFields : ℤ → ℕ → List (BitVec 32) → List Bool → List PresentField
  | nm, slot, mt :: mts, true :: keeps =>
    ⟨nm, mt, slot⟩ :: keptFields (nm + 1) (slot + 1) mts keeps
  | nm, slot, _ :: mts, false :: keeps => keptFields (nm + 1) slot mts keeps
  | _, _, _, _ => []

def PresentField.withMt (g : BitVec 32 → BitVec 32) (f : PresentField) : PresentField :=
  { f with mt := g f.mt }

theorem map_withMt_id (l : List PresentField) : l.map (PresentField.withMt id) = l :=
  List.map_id l

theorem length_entriesFrom (nm : ℤ) (mts : List (BitVec 32)) :
    (entriesFrom nm mts).length = mts.length := by
  induction mts generalizing nm with
  | nil => rfl
  | cons mt mts ih => rw [entriesFrom, List.length_cons, List.length_cons, ih]

@[simp] theorem ObjectType.length_entries (t : ObjectType) :
    t.entries.length = t.fields.length := length_entriesFrom _ _

theorem ObjectType.entries_ne_nil (t : ObjectType) : t.entries ≠ [] := by
  rw [← List.length_pos_iff, t.length_entries]
  exact List.length_pos_iff.mpr t.nonempty

theorem presentFrom_entriesFrom (pos : ℕ) (nm : ℤ) (mts : List (BitVec 32)) :
    presentFrom pos (entriesFrom nm mts) =
      keptFields nm pos mts (List.replicate mts.length true) := by
  induction mts generalizing pos nm with
  | nil => rfl
  | cons mt mts ih =>
    rw [entriesFrom, presentFrom, ih, List.length_cons, List.replicate_succ, keptFields]
    simp

theorem presentFields_entries (t : ObjectType) :
    presentFields t.entries = keptFields t.lower 0 t.fields (List.replicate t.fields.length true) :=
  presentFrom_entriesFrom 0 _ _

theorem layoutFrom_entriesFrom (pos slot : ℕ) (nm : ℤ) (mts : List (BitVec 32)) (keep : List Bool) :
    ∃ out, layoutFrom pos slot (entriesFrom nm mts) keep = some out ∧
      presentFrom pos out = (keptFields nm slot mts keep).map (.withMt reducedMt) := by
  induction mts generalizing pos slot nm keep with
  | nil => exact ⟨[], by cases keep <;> rfl, rfl⟩
  | cons mt mts ih =>
    cases keep with
    | nil => exact ⟨[], rfl, rfl⟩
    | cons keep keeps =>
      obtain ⟨out, hout, hpresent⟩ :=
        ih (pos + 1) (if keep then slot + 1 else slot) (nm + 1) keeps
      refine ⟨_, by rw [entriesFrom, layoutFrom, if_neg (by simp), hout]; rfl, ?_⟩
      cases keep with
      | false => exact hpresent
      | true =>
        rw [presentFrom]
        simp only [if_pos, keptFields, List.map_cons, hpresent]
        simp [PresentField.withMt]

variable {keep : List Bool}

variable {pos slot : ℕ}

theorem map_nm_layoutFrom {es out : List DescrEntry}
    (hlen : keep.length = es.length) (h : layoutFrom pos slot es keep = some out) :
    out.map (·.nm) = es.map (·.nm) := by
  induction es generalizing pos slot keep out with
  | nil =>
    obtain rfl := List.eq_nil_of_length_eq_zero hlen
    cases h
    rfl
  | cons e es ih =>
    cases keep with
    | nil => exact absurd hlen (by simp)
    | cons keep keeps =>
      rw [layoutFrom] at h
      split at h
      · exact absurd h (by simp)
      · obtain ⟨rest, hrest, rfl⟩ := Option.map_eq_some_iff.mp h
        rw [List.map_cons, List.map_cons, ih (Nat.succ.inj hlen) hrest]

theorem presentFrom_map_mt (pos : ℕ) (g : BitVec 32 → BitVec 32) (es : List DescrEntry) :
    presentFrom pos (es.map (.withMt g)) = (presentFrom pos es).map (.withMt g) := by
  induction es generalizing pos with
  | nil => rfl
  | cons e es ih =>
    obtain ⟨nm, mt, off⟩ := e
    cases off with
    | none => exact ih _
    | some off => exact congrArg _ (ih _)

/-! ## Flags -/

theorem mtGetType_reducedMt (mt : BitVec 32) : mtGetType (reducedMt mt) = mtGetType mt := by
  rw [mtGetType, reducedMt, BitVec.setWidth_or, BitVec.setWidth_and,
    show (~~~cullDescrInterned).setWidth 8 = BitVec.allOnes 8 by decide,
    show cullIsReduced.setWidth 8 = 0#8 by decide, BitVec.and_allOnes, BitVec.or_zero, mtGetType]

theorem mtGetType_fullMt (mt : BitVec 32) : mtGetType (fullMt mt) = mtGetType mt := by
  rw [mtGetType, fullMt, BitVec.setWidth_and,
    show (~~~cullIsReduced).setWidth 8 = BitVec.allOnes 8 by decide, BitVec.and_allOnes]
  exact mtGetType_reducedMt mt

/-- The flags of a static block survive a selection of every field. -/
theorem fullMt_eq {mt : BitVec 32} (h : mt &&& (cullDescrInterned ||| cullIsReduced) = 0) :
    fullMt mt = mt := by
  have hmask : mt &&& ~~~cullDescrInterned &&& ~~~cullIsReduced = mt := by
    have hsplit : mt = mt &&& (cullDescrInterned ||| cullIsReduced) |||
        mt &&& ~~~(cullDescrInterned ||| cullIsReduced) := by
      rw [← BitVec.and_or_distrib_left, BitVec.or_not_self, BitVec.and_allOnes]
    rw [h] at hsplit
    rw [BitVec.and_assoc, ← BitVec.not_or]
    exact (hsplit.trans (BitVec.zero_or)).symm
  rw [fullMt, reducedMt, BitVec.and_or_distrib_right, hmask, BitVec.and_not_self]
  exact BitVec.or_zero

/-! ## Fields of reductions -/

theorem count_true_eq_length : keep.count true = keep.length ↔ false ∉ keep := by
  rw [List.count_eq_length]
  refine ⟨fun h hfalse => Bool.false_ne_true (h false hfalse).symm, fun h b hb => ?_⟩
  cases b with
  | true => rfl
  | false => exact absurd hb h

def layoutMt (keep : List Bool) : BitVec 32 → BitVec 32 :=
  if false ∈ keep then reducedMt else fullMt

theorem mtGetType_layoutMt (keep : List Bool) (mt : BitVec 32) :
    mtGetType (layoutMt keep mt) = mtGetType mt := by
  rw [layoutMt]
  split
  · exact mtGetType_reducedMt mt
  · exact mtGetType_fullMt mt

theorem layout_entries (t : ObjectType) (hlen : keep.length = t.fields.length) :
    ∃ out, ocsCullDescrLayout t.entries keep = some (keep.count true, out) ∧
      presentFields out = (keptFields t.lower 0 t.fields keep).map (.withMt (layoutMt keep)) := by
  obtain ⟨out, hout, hpresent⟩ := layoutFrom_entriesFrom 0 0 t.lower t.fields keep
  have hguard : ¬ (t.entries = [] ∨ keep.length ≠ t.entries.length) := by
    rw [t.length_entries]
    exact fun h => h.elim t.entries_ne_nil fun h => h hlen
  by_cases hfull : false ∈ keep
  · refine ⟨out, ?_, ?_⟩
    · have hcount : keep.count true ≠ t.entries.length := by
        rw [t.length_entries, ← hlen]
        exact fun h => count_true_eq_length.mp h hfull
      rw [ocsCullDescrLayout, if_neg hguard, show layoutFrom 0 0 t.entries keep = some out
        from hout, Option.map_some]
      simp only [if_neg hcount]
    · rw [layoutMt, if_pos hfull]
      exact hpresent
  · refine ⟨out.map (.withMt (· &&& ~~~cullIsReduced)), ?_, ?_⟩
    · have hcount : keep.count true = t.entries.length := by
        rw [t.length_entries, ← hlen]
        exact count_true_eq_length.mpr hfull
      rw [ocsCullDescrLayout, if_neg hguard, show layoutFrom 0 0 t.entries keep = some out
        from hout, Option.map_some]
      simp only [if_pos hcount]
    · rw [presentFields, presentFrom_map_mt, hpresent, List.map_map, layoutMt, if_neg hfull]
      rfl

section

variable {ns : NameSpace} (r : Reduction ns)

theorem Reduction.layout_eq :
    ocsCullDescrLayout r.type.entries r.keep = some (r.keep.count true, r.entries) := by
  obtain ⟨out, hout, -⟩ := layout_entries r.type r.length_eq
  rw [Reduction.entries, hout]
  rfl

theorem Reduction.presentFields_entries :
    presentFields r.entries =
      (keptFields r.type.lower 0 r.type.fields r.keep).map (.withMt (layoutMt r.keep)) := by
  obtain ⟨out, hout, hpresent⟩ := layout_entries r.type r.length_eq
  rwa [Reduction.entries, hout]

theorem Reduction.map_nm_entries : r.entries.map (·.nm) = r.type.entries.map (·.nm) := by
  have hlayout := r.layout_eq
  rw [ocsCullDescrLayout] at hlayout
  split at hlayout
  · exact absurd hlayout (by simp)
  · case isFalse hguard =>
      have hlen : r.keep.length = r.type.entries.length := by
        by_contra hne
        exact hguard (Or.inr hne)
      obtain ⟨out, hout, heq⟩ := Option.map_eq_some_iff.mp hlayout
      have hnm := map_nm_layoutFrom hlen hout
      rw [← (Prod.mk.inj heq).2]
      split
      · rwa [List.map_map]
      · exact hnm

theorem layoutFrom_full (pos : ℕ) (nm : ℤ) {mts : List (BitVec 32)} {keep : List Bool}
    (hlen : keep.length = mts.length) (hkeep : false ∉ keep)
    (hfull : ∀ mt ∈ mts, mt &&& (cullDescrInterned ||| cullIsReduced) = 0) :
    (layoutFrom pos pos (entriesFrom nm mts) keep).map (·.map (.withMt (· &&& ~~~cullIsReduced))) =
      some (entriesFrom nm mts) := by
  induction mts generalizing pos nm keep with
  | nil => cases keep <;> rfl
  | cons mt mts ih =>
    cases keep with
    | nil => exact absurd hlen (by simp)
    | cons keep keeps =>
      obtain ⟨hmt, hfull⟩ := List.forall_mem_cons.mp hfull
      cases keep with
      | false => exact absurd (.head _) hkeep
      | true =>
        have hrest := ih (pos + 1) (nm + 1) (Nat.succ.inj hlen)
          (fun h => hkeep (.tail _ h)) hfull
        obtain ⟨out, hout, hmap⟩ := Option.map_eq_some_iff.mp hrest
        rw [entriesFrom, layoutFrom, if_neg (by simp)]
        simp only [if_true, hout, Option.map_some, List.map_cons, hmap, sub_self,
          DescrEntry.withMt, show reducedMt mt &&& ~~~cullIsReduced = mt from fullMt_eq hmt]

theorem Reduction.entries_of_full (h : ¬ r.Proper) : r.entries = r.type.entries := by
  have hfull := layoutFrom_full 0 r.type.lower r.length_eq h fun mt hmt =>
    of_decide_eq_true (List.all_eq_true.mp r.type.full mt hmt)
  obtain ⟨out, hout, hmap⟩ := Option.map_eq_some_iff.mp hfull
  have hcount : r.keep.count true = r.type.entries.length := by
    rw [r.type.length_entries, ← r.length_eq]
    exact count_true_eq_length.mpr h
  have hguard : ¬ (r.type.entries = [] ∨ r.keep.length ≠ r.type.entries.length) := by
    rw [r.type.length_entries]
    exact fun h => h.elim r.type.entries_ne_nil fun h => h r.length_eq
  rw [Reduction.entries, ocsCullDescrLayout, if_neg hguard,
    show layoutFrom 0 0 r.type.entries r.keep = some out from hout]
  simp only [Option.map_some, if_pos hcount, Option.getD_some]
  exact hmap

theorem Reduction.build_eq : ocsCullDescrBuild r.type.entries r.keep = some r.entries := by
  have hpos : r.keep.count true ≠ 0 := List.count_pos_iff.mpr r.keeps |>.ne'
  rw [ocsCullDescrBuild, r.layout_eq, Option.bind_some]
  simp only [if_neg hpos]
  split
  · case isTrue hcount =>
      rw [r.type.length_entries, ← r.length_eq] at hcount
      rw [r.entries_of_full (count_true_eq_length.mp hcount)]
  · rfl

end

/-! ## Finding types -/

section

variable {ns : NameSpace} {t t' : ObjectType}

/-- Types of a name space that share a field number are the same. -/
theorem eq_of_shared (nm : ℕ) (ht : t ∈ ns.types) (ht' : t' ∈ ns.types)
    (h : t.lower ≤ nm ∧ nm < t.lower + t.fields.length)
    (h' : t'.lower ≤ nm ∧ nm < t'.lower + t'.fields.length) : t = t' := by
  by_contra hne
  have hsymm : Std.Symm fun a b : ObjectType =>
      a.lower + a.fields.length ≤ b.lower ∨ b.lower + b.fields.length ≤ a.lower :=
    ⟨fun _ _ h => h.symm⟩
  have hapart := ns.disjoint.forall ht ht' hne
  omega

theorem ObjectType.length_pos (t : ObjectType) : 0 < t.fields.length :=
  List.length_pos_iff.mpr t.nonempty

theorem staticFor_eq (ht : t ∈ ns.types) : ocsCullDescrStaticFor ns t.lower = some t := by
  have hsome : (ocsCullDescrStaticFor ns t.lower).isSome :=
    List.find?_isSome.mpr ⟨t, ht, by simp⟩
  obtain ⟨t', ht'⟩ := Option.isSome_iff_exists.mp hsome
  have hlower : t'.lower = t.lower := by simpa using List.find?_some ht'
  have hpos := t.length_pos
  have hpos' := t'.length_pos
  rw [ht', eq_of_shared t.lower (List.mem_of_find?_eq_some ht') ht (by omega) (by omega)]

theorem staticContaining_eq (ht : t ∈ ns.types) {p : ℕ} (hp : p < t.fields.length) :
    ocsCullDescrStaticContaining ns (t.lower + p : ℕ) = some (t, p) := by
  have hsome : (ns.types.find? fun t' : ObjectType => decide
      ((t'.lower : ℤ) ≤ (t.lower + p : ℕ) ∧
        ((t.lower + p : ℕ) : ℤ) < t'.lower + t'.fields.length)).isSome :=
    List.find?_isSome.mpr ⟨t, ht, by simp; omega⟩
  obtain ⟨t', ht'⟩ := Option.isSome_iff_exists.mp hsome
  have hrange : (t'.lower : ℤ) ≤ (t.lower + p : ℕ) ∧
      ((t.lower + p : ℕ) : ℤ) < t'.lower + t'.fields.length := by
    simpa using List.find?_some ht'
  have heq : t' = t := eq_of_shared (t.lower + p) (List.mem_of_find?_eq_some ht') ht
    (by omega) (by omega)
  rw [ocsCullDescrStaticContaining, ht', heq, Option.map_some,
    show (((t.lower + p : ℕ) : ℤ) - t.lower).toNat = p by omega]

end

/-! ## Kept positions -/

/-- The positions that are kept, from a position on. -/
def keptIndices : ℕ → List Bool → List ℕ
  | _, [] => []
  | pos, true :: keeps => pos :: keptIndices (pos + 1) keeps
  | pos, false :: keeps => keptIndices (pos + 1) keeps

theorem mem_keptIndices {p : ℕ} :
    p ∈ keptIndices pos keep ↔ pos ≤ p ∧ keep[p - pos]? = some true := by
  induction keep generalizing pos with
  | nil => simp [keptIndices]
  | cons b keeps ih =>
    have hstep : pos < p → (b :: keeps)[p - pos]? = keeps[p - (pos + 1)]? := fun h => by
      rw [show p - pos = p - (pos + 1) + 1 by omega, List.getElem?_cons_succ]
    cases b with
    | true =>
      rw [keptIndices, List.mem_cons, ih]
      constructor
      · rintro (rfl | ⟨hle, hkeep⟩)
        · simp
        · exact ⟨by omega, hstep (by omega) ▸ hkeep⟩
      · rintro ⟨hle, hkeep⟩
        rcases Nat.eq_or_lt_of_le hle with rfl | hlt
        · exact Or.inl rfl
        · exact Or.inr ⟨hlt, hstep hlt ▸ hkeep⟩
    | false =>
      rw [keptIndices, ih]
      constructor
      · rintro ⟨hle, hkeep⟩
        exact ⟨by omega, hstep (by omega) ▸ hkeep⟩
      · rintro ⟨hle, hkeep⟩
        rcases Nat.eq_or_lt_of_le hle with rfl | hlt
        · simp at hkeep
        · exact ⟨hlt, hstep hlt ▸ hkeep⟩

theorem keptIndices_sorted (pos : ℕ) (keep : List Bool) :
    (keptIndices pos keep).Pairwise (· < ·) := by
  induction keep generalizing pos with
  | nil => exact List.Pairwise.nil
  | cons b keeps ih =>
    cases b with
    | true => exact List.Pairwise.cons (fun p hp => (mem_keptIndices.mp hp).1) (ih _)
    | false => exact ih _

theorem keptIndices_append_false (pos k : ℕ) (keep : List Bool) :
    keptIndices pos (keep ++ List.replicate k false) = keptIndices pos keep := by
  induction keep generalizing pos with
  | nil =>
    induction k generalizing pos with
    | zero => rfl
    | succ k ih => exact ih (pos + 1)
  | cons b keeps ih =>
    cases b with
    | true => exact congrArg (pos :: ·) (ih _)
    | false => exact ih _

theorem map_mem_keptIndices (keep : List Bool) (k : ℕ) :
    (List.range (keep.length + k)).map (fun p => decide (p ∈ keptIndices 0 keep)) =
      keep ++ List.replicate k false := by
  refine List.ext_getElem (by simp) fun p hp hp' => ?_
  have hmem : p ∈ keptIndices 0 keep ↔ keep[p]? = some true := by
    rw [mem_keptIndices, Nat.sub_zero, and_iff_right (Nat.zero_le p)]
  rw [List.getElem_map, List.getElem_range]
  simp only [hmem]
  by_cases h : p < keep.length
  · rw [List.getElem_append_left h]
    simp [h]
  · rw [List.getElem_append_right (not_lt.mp h), List.getElem_replicate]
    simp [h]

variable {mts : List (BitVec 32)}

theorem map_nm_keptFields (lower : ℤ) (pos slot : ℕ) (hlen : keep.length = mts.length) :
    (keptFields (lower + pos) slot mts keep).map (·.nm) =
      (keptIndices pos keep).map fun p : ℕ => lower + (p : ℤ) := by
  induction mts generalizing pos slot keep with
  | nil =>
    cases keep with
    | nil => rfl
    | cons b keeps => exact absurd hlen (by simp)
  | cons mt mts ih =>
    cases keep with
    | nil => exact absurd hlen (by simp)
    | cons b keeps =>
      have hrest := fun slot => ih (pos + 1) slot (Nat.succ.inj hlen)
      simp only [Nat.cast_add, Nat.cast_one, ← add_assoc] at hrest
      cases b with
      | true => rw [keptFields, keptIndices, List.map_cons, List.map_cons, hrest]
      | false => rw [keptFields, keptIndices, hrest]

theorem map_slot_keptFields (nm : ℤ) (slot : ℕ) (mts : List (BitVec 32)) (keep : List Bool) :
    (keptFields nm slot mts keep).map (·.slot) =
      List.range' slot (keptFields nm slot mts keep).length := by
  induction mts generalizing nm slot keep with
  | nil => rfl
  | cons mt mts ih =>
    cases keep with
    | nil => rfl
    | cons b keeps =>
      cases b with
      | true =>
        rw [keptFields, List.map_cons, List.length_cons, List.range'_succ, ih]
      | false => exact ih _ _ _

theorem mem_keptFields {nm : ℤ} {f : PresentField} (h : f ∈ keptFields nm slot mts keep) :
    ∃ p, ∃ hp : p < mts.length, f.nm = nm + p ∧ f.mt = mts[p] := by
  induction mts generalizing nm slot keep with
  | nil => simp [keptFields] at h
  | cons mt mts ih =>
    have hrest : ∀ {slot keeps}, f ∈ keptFields (nm + 1) slot mts keeps →
        ∃ p, ∃ hp : p < (mt :: mts).length, f.nm = nm + p ∧ f.mt = (mt :: mts)[p] :=
      fun hf => by
        obtain ⟨p, hp, hnm, hmt⟩ := ih hf
        exact ⟨p + 1, by simpa using hp, by push_cast; omega, by simpa using hmt⟩
    cases keep with
    | nil => simp [keptFields] at h
    | cons b keeps =>
      cases b with
      | true =>
        rcases List.mem_cons.mp h with rfl | hf
        · exact ⟨0, by simp, by simp, rfl⟩
        · exact hrest hf
      | false => exact hrest h

end ClusterScheduler.Cull
