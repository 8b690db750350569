import ClusterScheduler.Cull.Descriptors
import ClusterScheduler.Foundation.Ledger

/-!
# Types that grew at their ends

Within a minor release the types of a name space get more fields at their ends. A descriptor
of the older name space has a counterpart in the newer one.

* `NameSpace.GrowsTo`, `grown`, `Reduction.grow` — the newer type, and the same fields of it.
* `HeldDescr` — the descriptor a list or an element holds.
* `forall₂_sameField` — the counterpart starts with the same fields, in the same order.
-/

namespace ClusterScheduler.Cull

open Foundation

/-! ## Name spaces -/

/-- Each type is a type of the newer name space, or a leading part of one. -/
def NameSpace.GrowsTo (ns ns' : NameSpace) : Prop :=
  ∀ t ∈ ns.types, ∃ t' ∈ ns'.types, t'.lower = t.lower ∧
    t.fields.map mtGetType <+: t'.fields.map mtGetType

theorem NameSpace.growsTo_self (ns : NameSpace) : ns.GrowsTo ns :=
  fun t ht => ⟨t, ht, rfl, List.prefix_rfl⟩

def grown (ns' : NameSpace) (t : ObjectType) : ObjectType :=
  (ocsCullDescrStaticFor ns' t.lower).getD t

variable {ns : NameSpace}

theorem grown_self {t : ObjectType} (ht : t ∈ ns.types) : grown ns t = t := by
  rw [grown, staticFor_eq ht, Option.getD_some]

section

variable {ns ns' : NameSpace} (h : ns.GrowsTo ns') {t : ObjectType}

include h

theorem NameSpace.GrowsTo.staticFor (ht : t ∈ ns.types) :
    ocsCullDescrStaticFor ns' t.lower = some (grown ns' t) := by
  obtain ⟨t', ht', hlower, -⟩ := h t ht
  rw [grown, ← hlower, staticFor_eq ht', Option.getD_some]

theorem NameSpace.GrowsTo.grown_spec (ht : t ∈ ns.types) :
    grown ns' t ∈ ns'.types ∧ (grown ns' t).lower = t.lower ∧
      t.fields.map mtGetType <+: (grown ns' t).fields.map mtGetType := by
  obtain ⟨t', ht', hlower, hfront⟩ := h t ht
  rw [grown, ← hlower, staticFor_eq ht', Option.getD_some]
  exact ⟨ht', rfl, hfront⟩

theorem NameSpace.GrowsTo.length_le (ht : t ∈ ns.types) :
    t.fields.length ≤ (grown ns' t).fields.length := by
  simpa using (h.grown_spec ht).2.2.length_le

end

/-- The fields a reduction had, in the newer type. -/
def Reduction.grow {ns ns' : NameSpace} (h : ns.GrowsTo ns') (r : Reduction ns) :
    Reduction ns' where
  type := grown ns' r.type
  known := (h.grown_spec r.known).1
  keep := r.keep ++
    List.replicate ((grown ns' r.type).fields.length - r.type.fields.length) false
  length_eq := by
    have hle := h.length_le r.known
    rw [List.length_append, List.length_replicate, r.length_eq]
    omega
  keeps := List.mem_append_left _ r.keeps

theorem Reduction.grow_self (r : Reduction ns) : r.grow ns.growsTo_self = r := by
  obtain ⟨t, known, keep, hlen, hkeeps⟩ := r
  simp only [grow, grown_self known, Nat.sub_self, List.replicate_zero, List.append_nil]

/-! ## The descriptor of a list or an element -/

/-- A static block of the name space, or the address of a counted descriptor. -/
inductive HeldDescr (ns : NameSpace) where
  | static (t : ObjectType) (known : t ∈ ns.types)
  | counted (h : ℕ)

section

variable {ns ns' : NameSpace} (heap : ℕ → Reduction ns)

def HeldDescr.entries : HeldDescr ns → List DescrEntry
  | .static t _ => t.entries
  | .counted h => (heap h).entries

def HeldDescr.received (hgrow : ns.GrowsTo ns') : HeldDescr ns → List DescrEntry
  | .static t _ => (grown ns' t).entries
  | .counted h => ((heap h).grow hgrow).entries

theorem HeldDescr.received_self (d : HeldDescr ns) :
    d.received heap ns.growsTo_self = d.entries heap := by
  cases d with
  | static t known => rw [received, entries, grown_self known]
  | counted h => rw [received, entries, Reduction.grow_self]

/-! ## Fields on both sides -/

def SameField (f f' : PresentField) : Prop :=
  f.nm = f'.nm ∧ mtGetType f.mt = mtGetType f'.mt

variable {mts : List (BitVec 32)} {keep : List Bool}

/-- More fields at the end, kept or not, do not change those in front. -/
theorem forall₂_keptFields (nm : ℤ) (slot slot' : ℕ) {mts' : List (BitVec 32)} (more : List Bool)
    (hlen : keep.length = mts.length) (hfront : mts.map mtGetType <+: mts'.map mtGetType) :
    List.Forall₂ SameField (keptFields nm slot mts keep)
      ((keptFields nm slot' mts' (keep ++ more)).take (keptFields nm slot mts keep).length) := by
  induction mts generalizing nm slot slot' mts' keep with
  | nil =>
    rw [show keptFields nm slot [] keep = [] by cases keep <;> rfl]
    exact List.Forall₂.nil
  | cons mt mts ih =>
    cases mts' with
    | nil => exact absurd hfront.length_le (by simp)
    | cons mt' mts' =>
      obtain ⟨htype, hfront⟩ := List.cons_prefix_cons.mp hfront
      cases keep with
      | nil => exact absurd hlen (by simp)
      | cons b keeps =>
        have hrest := fun slot slot' => ih (nm + 1) slot slot' (Nat.succ.inj hlen) hfront
        cases b with
        | true => exact List.Forall₂.cons ⟨rfl, htype⟩ (hrest _ _)
        | false => exact hrest _ _

variable {g : BitVec 32 → BitVec 32}

theorem forall₂_withMt {g' : BitVec 32 → BitVec 32} (hg : ∀ mt, mtGetType (g mt) = mtGetType mt)
    (hg' : ∀ mt, mtGetType (g' mt) = mtGetType mt) {fs fs' : List PresentField}
    (h : List.Forall₂ SameField fs fs') :
    List.Forall₂ SameField (fs.map (.withMt g)) (fs'.map (.withMt g')) := by
  rw [List.forall₂_map_left_iff, List.forall₂_map_right_iff]
  exact h.imp fun f f' hf => ⟨hf.1, (hg f.mt).trans (hf.2.trans (hg' f'.mt).symm)⟩

theorem forall₂_reduction (r : Reduction ns) (hgrow : ns.GrowsTo ns') :
    List.Forall₂ SameField (presentFields r.entries)
      ((presentFields (r.grow hgrow).entries).take (presentFields r.entries).length) := by
  rw [r.presentFields_entries, (r.grow hgrow).presentFields_entries, List.length_map,
    ← List.map_take]
  obtain ⟨-, hlower, hfront⟩ := hgrow.grown_spec r.known
  have hsame := forall₂_keptFields r.type.lower 0 0
    (List.replicate ((grown ns' r.type).fields.length - r.type.fields.length) false)
    r.length_eq hfront
  rw [show ((r.grow hgrow).type.lower : ℤ) = r.type.lower from congrArg _ hlower]
  exact forall₂_withMt (mtGetType_layoutMt r.keep) (mtGetType_layoutMt _) hsame

theorem forall₂_static {t : ObjectType} (ht : t ∈ ns.types) (hgrow : ns.GrowsTo ns') :
    List.Forall₂ SameField (presentFields t.entries)
      ((presentFields (grown ns' t).entries).take (presentFields t.entries).length) := by
  obtain ⟨-, hlower, hfront⟩ := hgrow.grown_spec ht
  have hle := hgrow.length_le ht
  have hkeep : List.replicate (grown ns' t).fields.length true =
      List.replicate t.fields.length true ++
        List.replicate ((grown ns' t).fields.length - t.fields.length) true := by
    rw [List.replicate_append_replicate, Nat.add_sub_cancel' hle]
  rw [presentFields_entries, presentFields_entries, hkeep, hlower]
  exact forall₂_keptFields t.lower 0 0 _ List.length_replicate hfront

theorem forall₂_sameField (hgrow : ns.GrowsTo ns') (d : HeldDescr ns) :
    List.Forall₂ SameField (presentFields (d.entries heap))
      ((presentFields (d.received heap hgrow)).take (presentFields (d.entries heap)).length) := by
  cases d with
  | static t known => exact forall₂_static known hgrow
  | counted h => exact forall₂_reduction (heap h) hgrow

/-! ## Slots and field numbers of a descriptor -/

/-- The fields of a static block or a reduction are in order. -/
structure InOrder (dp : List DescrEntry) : Prop where
  slots : (presentFields dp).map (·.slot) = List.range' 0 (presentFields dp).length
  nodup : ((presentFields dp).map (·.nm)).Nodup

theorem inOrder_of_keptFields {dp : List DescrEntry} {lower : ℤ} (hlen : keep.length = mts.length)
    (h : presentFields dp = (keptFields lower 0 mts keep).map (.withMt g)) : InOrder dp where
  slots := by
    rw [h, List.map_map, List.length_map]
    exact map_slot_keptFields lower 0 mts keep
  nodup := by
    have hnm := map_nm_keptFields lower 0 0 hlen
    rw [Nat.cast_zero, add_zero] at hnm
    rw [h, List.map_map]
    refine (congrArg List.Nodup hnm).mpr (List.Nodup.map ?_ ?_)
    · exact fun p q hpq => Nat.cast_injective (add_left_cancel hpq)
    · exact (keptIndices_sorted 0 keep).imp fun hlt => hlt.ne

theorem Reduction.inOrder (r : Reduction ns) : InOrder r.entries :=
  inOrder_of_keptFields r.length_eq r.presentFields_entries

theorem ObjectType.inOrder (t : ObjectType) : InOrder t.entries :=
  inOrder_of_keptFields List.length_replicate
    ((presentFields_entries t).trans (map_withMt_id _).symm)

theorem HeldDescr.inOrder (d : HeldDescr ns) : InOrder (d.entries heap) := by
  cases d with
  | static t known => exact t.inOrder
  | counted h => exact (heap h).inOrder

theorem HeldDescr.inOrder_received (hgrow : ns.GrowsTo ns') (d : HeldDescr ns) :
    InOrder (d.received heap hgrow) := by
  cases d with
  | static t known => exact (grown ns' t).inOrder
  | counted h => exact ((heap h).grow hgrow).inOrder

end

end ClusterScheduler.Cull
