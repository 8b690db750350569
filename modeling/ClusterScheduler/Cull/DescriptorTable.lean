import ClusterScheduler.Cull.PackLists

/-!
# Descriptors on the wire

A descriptor is written in one of three ways, and the receiver enters what it builds into a
table of its own.

* `receiverTable` — the receiver's table, for a table of the sender.
* `fieldIndices_reduction` — the fields of a reduction belong to one type.
* `inverts_packSharedDescr` — the receiver holds the counterpart of the descriptor in its own
  types, knows how many values follow, and the tables stay in step.

The index into a table has 32 bits.
-/

namespace ClusterScheduler.Cull

open Foundation

section

variable {ns ns' : NameSpace} {heap : ℕ → Reduction ns} {hgrow : ns.GrowsTo ns'}

/-! ## Fields of a reduction -/

variable {keep : List Bool}

theorem length_keptFields (nm : ℤ) (slot : ℕ) {mts : List (BitVec 32)}
    (hlen : keep.length = mts.length) :
    (keptFields nm slot mts keep).length = (keptIndices 0 keep).length := by
  have hnm := congrArg List.length (map_nm_keptFields nm 0 slot hlen)
  simpa using hnm

theorem keptIndices_replicate (pos n : ℕ) :
    keptIndices pos (List.replicate n true) = List.range' pos n := by
  induction n generalizing pos with
  | zero => rfl
  | succ n ih => rw [List.replicate_succ, keptIndices, ih, List.range'_succ]

theorem ObjectType.length_presentFields (t : ObjectType) :
    (presentFields t.entries).length = t.fields.length := by
  rw [presentFields_entries, length_keptFields _ _ List.length_replicate, keptIndices_replicate,
    List.length_range']

theorem Reduction.length_presentFields (r : Reduction ns) :
    (presentFields r.entries).length = (keptIndices 0 r.keep).length := by
  rw [r.presentFields_entries, List.length_map, length_keptFields _ _ r.length_eq]

theorem Reduction.length_grow (r : Reduction ns) :
    (presentFields (r.grow hgrow).entries).length = (presentFields r.entries).length := by
  rw [length_presentFields, length_presentFields]
  exact congrArg List.length (keptIndices_append_false 0 _ r.keep)

theorem length_keptIndices_le (pos : ℕ) (keep : List Bool) :
    (keptIndices pos keep).length ≤ keep.length := by
  induction keep generalizing pos with
  | nil => exact le_rfl
  | cons b keeps ih =>
    cases b with
    | true => exact Nat.succ_le_succ (ih _)
    | false => exact (ih _).trans (Nat.le_succ _)

theorem keptIndices_lt {p : ℕ} (h : p ∈ keptIndices 0 keep) : p < keep.length :=
  (List.getElem?_eq_some_iff.mp (mem_keptIndices.mp h).2).1

theorem keptIndices_ne_nil (h : true ∈ keep) : keptIndices 0 keep ≠ [] := by
  obtain ⟨p, hp⟩ := List.mem_iff_getElem?.mp h
  exact List.ne_nil_of_mem (mem_keptIndices.mpr ⟨Nat.zero_le p, hp⟩)

theorem indexIn_present (r : Reduction ns) {f : PresentField} (hf : f ∈ presentFields r.entries) :
    indexIn ns r.type f = some (f.nm - r.type.lower).toNat := by
  rw [r.presentFields_entries] at hf
  obtain ⟨g, hg, rfl⟩ := List.mem_map.mp hf
  obtain ⟨p, hp, hnm, hmt⟩ := mem_keptFields hg
  have hfind := staticContaining_eq r.known hp
  rw [Nat.cast_add, ← hnm] at hfind
  have htype : r.type.fields[p]?.map mtGetType =
      some (mtGetType (g.withMt (layoutMt r.keep)).mt) := by
    rw [List.getElem?_eq_getElem hp, Option.map_some, ← hmt]
    exact congrArg some (mtGetType_layoutMt r.keep g.mt).symm
  rw [indexIn, show (g.withMt (layoutMt r.keep)).nm = g.nm from rfl, hfind]
  simp only [Option.bind_eq_bind, Option.bind_some]
  rw [if_pos ⟨trivial, htype⟩, hnm]
  simp

theorem mapM_eq_map {α β : Type} {F : α → Option β} {G : α → β} {l : List α}
    (h : ∀ x ∈ l, F x = some (G x)) : l.mapM F = some (l.map G) := by
  induction l with
  | nil => rfl
  | cons x l ih =>
    obtain ⟨hx, hl⟩ := List.forall_mem_cons.mp h
    rw [List.mapM_cons, hx, ih hl]
    rfl

theorem head?_entries (r : Reduction ns) : ∃ e, r.entries.head? = some e ∧ e.nm = r.type.lower := by
  have hnm := congrArg List.head? r.map_nm_entries
  rw [List.head?_map, List.head?_map] at hnm
  obtain ⟨mt, mts, hfields⟩ := List.exists_cons_of_ne_nil r.type.nonempty
  rw [ObjectType.entries, hfields, entriesFrom, List.head?_cons, Option.map_some] at hnm
  obtain ⟨e, he, heq⟩ := Option.map_eq_some_iff.mp hnm
  exact ⟨e, he, heq⟩

/-- The sender finds the type of a reduction, and the fields by their positions. -/
theorem fieldIndices_reduction (r : Reduction ns) :
    fieldIndices ns r.entries = some (r.type, keptIndices 0 r.keep) := by
  obtain ⟨e, he, hnm⟩ := head?_entries r
  have hpresent : presentFields r.entries ≠ [] := by
    rw [← List.length_pos_iff, r.length_presentFields, List.length_pos_iff]
    exact keptIndices_ne_nil r.keeps
  have htype : ocsCullDescrStaticContaining ns e.nm = some (r.type, 0) := by
    rw [hnm]
    exact staticContaining_eq r.known r.type.length_pos
  have hidx : (presentFields r.entries).map (fun f => (f.nm - (r.type.lower : ℤ)).toNat) =
      keptIndices 0 r.keep := by
    have hnms := map_nm_keptFields r.type.lower 0 0 r.length_eq
    rw [Nat.cast_zero, add_zero] at hnms
    rw [r.presentFields_entries, List.map_map]
    calc _ = ((keptFields r.type.lower 0 r.type.fields r.keep).map (·.nm)).map
          fun nm : ℤ => (nm - (r.type.lower : ℤ)).toNat := by
          rw [List.map_map]
          rfl
      _ = keptIndices 0 r.keep := by
          rw [hnms, List.map_map]
          exact (List.map_congr_left fun p _ => by
            rw [Function.comp_apply, id, add_sub_cancel_left, Int.toNat_natCast]).trans
            (List.map_id _)
  rw [fieldIndices, if_neg hpresent, he]
  simp only [Option.bind_eq_bind, Option.bind_some]
  rw [htype, Option.bind_some, mapM_eq_map fun f hf => indexIn_present r hf, hidx]
  rfl

/-! ## Reading back -/

theorem toInt_ofNat_of_lt {x : ℕ} (h : x < 2 ^ 31) : (BitVec.ofNat 32 x).toInt = x := by
  have hnat : (BitVec.ofNat 32 x).toNat = x := Nat.mod_eq_of_lt (by omega)
  rw [BitVec.toInt_eq_toNat_of_lt (by omega), hnat]

theorem reads_unpackIndices {typeN : ℕ} (htype : typeN ≤ 2 ^ 31) {idx : List ℕ} {last : ℤ}
    (hlast : ∀ p ∈ idx, last < p) (hidx : ∀ p ∈ idx, p < typeN)
    (hsorted : idx.Pairwise (· < ·)) (t : List (List DescrEntry)) :
    Reads (unpackIndices typeN idx.length last) (idx.flatMap packint) t idx t := by
  induction idx generalizing last with
  | nil => exact reads_pure
  | cons p idx ih =>
    obtain ⟨hp, hidx⟩ := List.forall_mem_cons.mp hidx
    obtain ⟨hlt, hsorted⟩ := List.pairwise_cons.mp hsorted
    have hpl := hlast p (.head _)
    rw [List.flatMap_cons]
    refine (reads_unpackint (by omega)).bind ?_
    rw [if_neg (by omega)]
    exact (ih (fun q hq => by exact_mod_cast hlt q hq) hidx hsorted).bind_nil reads_pure

def receiverTable (heap : ℕ → Reduction ns) (hgrow : ns.GrowsTo ns') (tab : List ℕ) :
    List (List DescrEntry) :=
  tab.map fun h => ((heap h).grow hgrow).entries

theorem reads_typeRef {t : ObjectType} (ht : t ∈ ns.types) (hgrow : ns.GrowsTo ns')
    (tab : List (List DescrEntry)) :
    Reads (cullUnpackDescr ns')
      (packint cullPackDescrTypeRef ++ packint t.lower ++ packint t.fields.length) tab
      ((grown ns' t).entries, t.fields.length) tab := by
  have hbound := t.bounded
  have hlower := t.positive
  have hpos := t.length_pos
  have hle := hgrow.length_le ht
  rw [List.append_assoc]
  refine (reads_unpackint (by decide)).bind ?_
  rw [if_pos rfl]
  refine (reads_unpackint (by omega)).bind ((reads_unpackint (by omega)).bind_nil ?_)
  rw [toInt_ofNat_of_lt (by omega), toInt_ofNat_of_lt (by omega), hgrow.staticFor ht]
  simp only []
  rw [if_neg (by omega)]
  exact reads_pure

theorem reads_tableRef {tab : List ℕ} {h k : ℕ} (hk : tab[k]? = some h) (hbound : k < 2 ^ 32) :
    Reads (cullUnpackDescr ns') (packint cullPackDescrTableRef ++ packint k)
      (receiverTable heap hgrow tab)
      (((heap h).grow hgrow).entries, (presentFields (heap h).entries).length)
      (receiverTable heap hgrow tab) := by
  have hentry : (receiverTable heap hgrow tab)[k]? = some ((heap h).grow hgrow).entries := by
    rw [receiverTable, List.getElem?_map, hk, Option.map_some]
  refine (reads_unpackint (by decide)).bind ?_
  rw [if_neg (by decide), if_pos rfl]
  refine (reads_unpackint hbound).bind_nil ?_
  refine Reads.get_bind fun rest => ?_
  rw [hentry, ← (heap h).length_grow]
  rfl

theorem reads_tableDef (r : Reduction ns) (hgrow : ns.GrowsTo ns') (tab : List (List DescrEntry)) :
    Reads (cullUnpackDescr ns')
      (packint cullPackDescrTableDef ++ packint cullPackDescrByIndex ++ packint r.type.lower ++
        packint (presentFields r.entries).length ++ (keptIndices 0 r.keep).flatMap packint) tab
      ((r.grow hgrow).entries, (presentFields r.entries).length)
      (tab ++ [(r.grow hgrow).entries]) := by
  have hbound := r.type.bounded
  have hpos := r.type.length_pos
  have hbound' := (grown ns' r.type).bounded
  have hle := hgrow.length_le r.known
  have hn := r.length_presentFields
  have hlen : (keptIndices 0 r.keep).length ≤ r.type.fields.length := by
    rw [← r.length_eq]
    exact length_keptIndices_le 0 r.keep
  simp only [List.append_assoc]
  refine (reads_unpackint (by decide)).bind ?_
  rw [if_neg (by decide), if_neg (by decide), if_pos rfl]
  refine (reads_unpackint (by decide)).bind ?_
  rw [if_pos rfl]
  refine (reads_unpackint (by omega)).bind ((reads_unpackint (by omega)).bind ?_)
  rw [toInt_ofNat_of_lt (by omega), hgrow.staticFor r.known]
  simp only []
  rw [if_neg (by omega), hn]
  refine (reads_unpackIndices (by omega) (fun p _ => by omega)
    (fun p hp => ((r.length_eq ▸ keptIndices_lt hp).trans_le hle)) (keptIndices_sorted 0 r.keep)
    tab).bind_nil ?_
  have hkeep : (List.range (grown ns' r.type).fields.length).map
      (fun p => decide (p ∈ keptIndices 0 r.keep)) = (r.grow hgrow).keep := by
    have hlength : (grown ns' r.type).fields.length = r.keep.length +
        ((grown ns' r.type).fields.length - r.type.fields.length) := by
      rw [r.length_eq]
      omega
    calc _ = (List.range (r.keep.length +
          ((grown ns' r.type).fields.length - r.type.fields.length))).map
            (fun p => decide (p ∈ keptIndices 0 r.keep)) := by rw [← hlength]
      _ = (r.grow hgrow).keep := map_mem_keptIndices r.keep _
  have hcount : (keptIndices 0 r.keep).length ≠ 0 :=
    fun h => keptIndices_ne_nil r.keeps (List.eq_nil_of_length_eq_zero h)
  rw [if_neg hcount, hkeep, show (grown ns' r.type).entries = (r.grow hgrow).type.entries
    from rfl, (r.grow hgrow).build_eq]
  exact fun rest => rfl

/-- The table holds as many descriptors as an index of 32 bits can tell apart. -/
def TableBound (tab : List ℕ) : Prop := tab.length ≤ 2 ^ 32

/-- What the sender holds is read as its counterpart, in step with the tables. -/
theorem inverts_packSharedDescr (n : ℕ) (hgrow : ns.GrowsTo ns') (d : HeldDescr ns) :
    Inverts n TableBound (receiverTable heap hgrow) (packSharedDescr heap d) (cullUnpackDescr ns')
      (d.received heap hgrow, (presentFields (d.entries heap)).length) := by
  intro tab bs tab' hpack _ hbound
  cases d with
  | static t known =>
    obtain ⟨rfl, rfl⟩ := Prod.mk.inj (run_pure_eq_ok.mp hpack)
    refine ⟨hbound, ?_⟩
    rw [HeldDescr.entries, t.length_presentFields]
    exact reads_typeRef known hgrow _
  | counted h =>
    obtain ⟨t, s, hget, htail⟩ := run_bind_eq_ok.mp hpack
    obtain ⟨rfl, rfl⟩ := Prod.mk.inj (Except.ok.inj hget)
    cases hk : List.idxOf? h tab with
    | some k =>
      simp only [hk] at htail
      obtain ⟨rfl, rfl⟩ := Prod.mk.inj (run_pure_eq_ok.mp htail)
      obtain ⟨hlt, hat, -⟩ := List.idxOf?_eq_some_iff.mp hk
      have hfound : tab[k]? = some h := List.getElem?_eq_some_iff.mpr ⟨hlt, by simpa using hat⟩
      exact ⟨hbound, reads_tableRef hfound (hlt.trans_le hbound)⟩
    | none =>
      simp only [hk, fieldIndices_reduction] at htail
      obtain ⟨u, s, hset, htail⟩ := run_bind_eq_ok.mp htail
      obtain ⟨rfl, rfl⟩ := Prod.mk.inj (Except.ok.inj hset)
      obtain ⟨rfl, rfl⟩ := Prod.mk.inj (run_pure_eq_ok.mp htail)
      have hmono : tab.length ≤ (tab ++ [h]).length := by simp
      refine ⟨hmono.trans hbound, ?_⟩
      rw [receiverTable, receiverTable, List.map_append]
      exact reads_tableDef (heap h) hgrow _

end

end ClusterScheduler.Cull
