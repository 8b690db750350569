import ClusterScheduler.Cull.ListInvariant

/-!
# Every operation keeps the tables right

* `lookupTable_spec` — a search builds a table that is right.
* `worldOk_dechainList`, `worldOk_appendList` — moving elements between lists.
* `worldOk_exec` — every operation keeps `WorldOk`, as long as no counter of taken
  keys overflows (`HasRoom`) and no set loses a key (`KeepsKeys`).
-/

namespace ClusterScheduler.Cull

open Foundation

variable {S : Setting} {w : World S}

/-! ## Searching and sorting -/

variable {l : ListId}

theorem worldOk_setTables (h : WorldOk w) {tables : ℕ → Option (CullHtable S)}
    (htables : ∀ pos t, tables pos = some t → TableOk w l pos t) :
    WorldOk (w.setList l { w.list l with tables := tables }) := by
  refine worldOk_change (l := l) h (fun l' hl => w.list_setList_of_ne _ hl)
    (fun _ _ _ _ _ => rfl) (fun _ _ _ => Iff.rfl) ?_ ?_ ?_
  · rw [World.list_setList]
    exact h.nodup l
  · intro e
    rw [World.list_setList]
    exact h.owner l e
  · intro pos t ht
    rw [World.list_setList] at ht
    have hok := htables pos t ht
    refine ⟨?_, ?_, ?_⟩
    · rw [World.list_setList]
      exact hok.hashed
    · rw [World.list_setList]
      exact hok.kind
    · rw [World.keys, World.list_setList]
      exact hok.indexes

theorem lookupTable_cases (l : ListId) (pos minElems : ℕ)
    (hhashed : ∀ t, (w.list l).tables pos = some t →
      (w.list l).hashable = true ∧ ((w.list l).descr pos).hash = true) :
    cullHashLookupTable w l pos minElems = (w, (w.list l).tables pos) ∨
      ((w.list l).tables pos = none ∧
        ((w.list l).hashable = true ∧ ((w.list l).descr pos).hash = true) ∧
        minElems ≤ (w.list l).elems.length ∧
        ∃ fresh, fresh = cullHashBuild ((w.list l).descr pos).unique (w.list l).elems (w.key pos) ∧
          cullHashLookupTable w l pos minElems = (w.setList l { w.list l with
            tables := Function.update (w.list l).tables pos (some fresh) }, some fresh)) := by
  unfold cullHashLookupTable
  dsimp only
  by_cases hfield : (w.list l).hashable = false ∨ ((w.list l).descr pos).hash = false
  · rw [if_pos hfield]
    left
    cases ht : (w.list l).tables pos with
    | none => rfl
    | some t =>
      have := hhashed t ht
      simp [this] at hfield
  rw [if_neg hfield]
  rw [not_or, Bool.not_eq_false, Bool.not_eq_false] at hfield
  cases ht : (w.list l).tables pos with
  | some t => exact Or.inl rfl
  | none =>
    dsimp only
    split_ifs with hshort
    · exact Or.inl rfl
    · exact Or.inr ⟨rfl, hfield, Nat.le_of_not_lt hshort, _, rfl, rfl⟩

theorem lookupTable_spec (h : WorldOk w) (l : ListId) (pos minElems : ℕ)
    (hroom : ((w.list l).descr pos).hash = true → ((w.list l).descr pos).unique = true →
      KeysUnique (w.keys l pos) ∨ (w.list l).elems.length < 2 ^ 32) :
    WorldOk (cullHashLookupTable w l pos minElems).1 ∧
      (cullHashLookupTable w l pos minElems).1.elem = w.elem ∧
      (cullHashLookupTable w l pos minElems).1.list l = { w.list l with
        tables := Function.update (w.list l).tables pos
          (cullHashLookupTable w l pos minElems).2 } := by
  obtain heq | ⟨hnone, hfield, -, fresh, hfresh, heq⟩ := lookupTable_cases l pos minElems
    fun t ht => (h.table l pos t ht).hashed
  · rw [heq, Function.update_eq_self]
    exact ⟨h, rfl, rfl⟩
  rw [heq]
  refine ⟨worldOk_setTables h fun p t ht => ?_, rfl, by simp⟩
  by_cases hp : p = pos
  · subst hp
    rw [Function.update_self] at ht
    cases ht
    subst hfresh
    exact ⟨hfield, isUnique_build .., indexes_build _ (h.nodup l) (hroom hfield.2)⟩
  · rw [Function.update_of_ne hp] at ht
    exact h.table l p t ht

theorem worldOk_search (h : WorldOk w) {pos minElems : ℕ} {q : Value}
    (hroom : ((w.list l).descr pos).hash = true → ((w.list l).descr pos).unique = true →
      KeysUnique (w.keys l pos) ∨ (w.list l).elems.length < 2 ^ 32) :
    WorldOk (lGetElemFirst w l pos minElems q).1 := by
  have hspec := (lookupTable_spec h l pos minElems hroom).1
  unfold lGetElemFirst
  cases cullHashKey S q with
  | none => exact h
  | some k =>
    dsimp only
    rcases hlookup : cullHashLookupTable w l pos minElems with ⟨w', _ | t⟩ <;>
      rw [hlookup] at hspec <;> exact hspec

theorem worldOk_sort (h : WorldOk w) {order : List ElemId}
    (hperm : order.Perm (w.list l).elems) : WorldOk (lSortList w l order) := by
  unfold lSortList
  split_ifs with hshort
  · exact h
  refine worldOk_change (l := l) h (fun l' hl => w.list_setList_of_ne _ hl)
    (fun _ _ _ _ _ => rfl) (fun _ _ _ => Iff.rfl) ?_ ?_ ?_
  · rw [World.list_setList]
    exact hperm.nodup_iff.mpr (h.nodup l)
  · intro e
    rw [World.list_setList]
    exact hperm.mem_iff.trans (h.owner l e)
  · intro pos t ht
    rw [World.list_setList] at ht
    obtain ⟨t₀, ht₀, hdrop⟩ := Option.bind_eq_some_iff.mp ht
    have hok := h.table l pos t₀ ht₀
    -- a table with unique keys does not depend on the order
    have hsame : t₀ = t := by
      cases t₀ with
      | unique ht n => exact Option.some.inj hdrop
      | chained ht nuht heap fresh => exact absurd hdrop (by simp [dropChained])
    subst hsame
    have hkeys : keysOf order (w.key pos) = w.keys l pos := by
      funext e
      simp only [World.keys, keysOf, hperm.mem_iff]
    refine ⟨?_, ?_, ?_⟩
    · rw [World.list_setList]
      exact hok.hashed
    · rw [World.list_setList]
      exact hok.kind
    · rw [World.keys, World.list_setList, World.key_setList]
      exact hkeys ▸ hok.indexes

/-! ## Moving elements between lists -/

theorem foldl_setOwner (o : Option ListId) (moved : List ElemId) (w : World S) :
    (moved.foldl (fun w e => w.setOwner e o) w).list = w.list ∧
      (moved.foldl (fun w e => w.setOwner e o) w).key = w.key ∧
      ∀ x, ((moved.foldl (fun w e => w.setOwner e o) w).elem x).owner =
        if x ∈ moved then o else (w.elem x).owner := by
  induction moved generalizing w with
  | nil => exact ⟨rfl, rfl, fun x => by simp⟩
  | cons e moved ih =>
    obtain ⟨hlist, hkey, howner⟩ := ih (w.setOwner e o)
    refine ⟨hlist, hkey.trans (w.key_setOwner e o), fun x => ?_⟩
    rw [List.foldl_cons, howner, World.owner_setOwner]
    by_cases hx : x = e <;> simp [hx]

variable {e : ElemId}

theorem worldOk_dechainList (h : WorldOk w) {source target : ListId} :
    WorldOk (lDechainList w source target e) := by
  set front := (w.list source).elems.takeWhile (· ≠ e) with hfront
  set moved := (w.list source).elems.dropWhile (· ≠ e) with hmoved
  have hsplit : front ++ moved = (w.list source).elems := List.takeWhile_append_dropWhile
  have hnodup : (front ++ moved).Nodup := hsplit ▸ h.nodup source
  obtain ⟨hnf, hnm, hdisj⟩ := List.nodup_append.mp hnodup
  have hmem : ∀ x, x ∈ front ∨ x ∈ moved ↔ (w.elem x).owner = some source := by
    intro x
    rw [← h.owner, ← hsplit, List.mem_append]
  set w₁ := w.setList source (cullHashFreeTables { w.list source with elems := front })
  set tp := w₁.list target with htp
  set w₂ := w₁.setList target (cullHashFreeTables { tp with elems := tp.elems ++ moved })
  obtain ⟨hlist, hkey, howner⟩ := foldl_setOwner (some target) moved w₂
  have hend : lDechainList w source target e =
      moved.foldl (fun w e => w.setOwner e (some target)) w₂ := rfl
  rw [← hend] at hlist hkey howner
  have htarget : (lDechainList w source target e).list target =
      cullHashFreeTables { tp with elems := tp.elems ++ moved } := by
    rw [hlist, World.list_setList]
  have hsource : source ≠ target → (lDechainList w source target e).list source =
      cullHashFreeTables { w.list source with elems := front } := by
    intro hne
    rw [hlist, World.list_setList_of_ne _ _ hne, World.list_setList]
  have hother : ∀ l, l ≠ source → l ≠ target →
      (lDechainList w source target e).list l = w.list l := by
    intro l hs ht
    rw [hlist, World.list_setList_of_ne _ _ ht, World.list_setList_of_ne _ _ hs]
  have htp' : tp.elems.Nodup ∧
      ∀ x, x ∈ tp.elems ↔ x ∉ moved ∧ (w.elem x).owner = some target := by
    by_cases hst : source = target
    · subst hst
      have : tp.elems = front := by
        rw [htp, World.list_setList]
        rfl
      rw [this]
      refine ⟨hnf, fun x => ?_⟩
      rw [← hmem]
      constructor
      · exact fun hx => ⟨fun hx' => hdisj x hx x hx' rfl, Or.inl hx⟩
      · exact fun ⟨hx, hx'⟩ => hx'.resolve_right hx
    · have : tp.elems = (w.list target).elems := by
        rw [htp, World.list_setList_of_ne _ _ (Ne.symm hst)]
      rw [this]
      refine ⟨h.nodup target, fun x => ?_⟩
      rw [h.owner]
      refine ⟨fun hx => ⟨fun hx' => ?_, hx⟩, And.right⟩
      have := (hmem x).mp (Or.inr hx')
      rw [hx] at this
      exact hst (Option.some.inj this).symm
  refine ⟨fun l => ?_, fun l x => ?_, fun l pos t ht => ?_⟩
  · by_cases hlt : l = target
    · rw [hlt, htarget]
      refine List.nodup_append.mpr ⟨htp'.1, hnm, fun a ha b hb hab => ?_⟩
      exact ((htp'.2 a).mp ha).1 (hab ▸ hb)
    by_cases hls : l = source
    · rw [hls, hsource (hls ▸ hlt)]
      exact hnf
    · rw [hother l hls hlt]
      exact h.nodup l
  · rw [howner]
    by_cases hlt : l = target
    · rw [hlt, htarget]
      show x ∈ tp.elems ++ moved ↔ _
      rw [List.mem_append, htp'.2]
      by_cases hx : x ∈ moved
      · simp [hx]
      · simp only [hx, not_false_eq_true, true_and, or_false, if_false]
        rfl
    have hstay : (if x ∈ moved then some target else (w.elem x).owner) = some l ↔
        x ∉ moved ∧ (w.elem x).owner = some l := by
      split_ifs with hx <;> simp [hx, Ne.symm hlt]
    by_cases hls : l = source
    · subst hls
      rw [hsource hlt]
      refine Iff.trans ?_ hstay.symm
      rw [← hmem]
      constructor
      · exact fun hx => ⟨fun hx' => hdisj x hx x hx' rfl, Or.inl hx⟩
      · exact fun ⟨hx, hx'⟩ => hx'.resolve_right hx
    · rw [hother l hls hlt]
      refine Iff.trans ?_ hstay.symm
      rw [h.owner]
      refine ⟨fun hx => ⟨fun hx' => ?_, hx⟩, And.right⟩
      have := (hmem x).mp (Or.inr hx')
      rw [hx] at this
      exact hls (Option.some.inj this)
  · -- the two lists have no tables any more
    by_cases hlt : l = target
    · rw [hlt, htarget] at ht
      exact absurd ht (by simp [cullHashFreeTables])
    by_cases hls : l = source
    · rw [hls, hsource (hls ▸ hlt)] at ht
      exact absurd ht (by simp [cullHashFreeTables])
    have hsame := hother l hls hlt
    rw [hsame] at ht
    have hok := h.table l pos t ht
    have hkeys : (lDechainList w source target e).keys l pos = w.keys l pos := by
      rw [World.keys, hsame, hkey]
      rfl
    exact ⟨hsame ▸ hok.hashed, hsame ▸ hok.kind, hkeys ▸ hok.indexes⟩

variable {l0 l1 : ListId} {rest : List ElemId} {w' : World S}

/-- The first element of a list goes to the end of another one. -/
theorem append_first (hne : l0 ≠ l1) (hlist : (w.list l1).elems = e :: rest)
    (hw' : w' = lAppendElem (lDechainElem w l1 e) l0 e) :
    (w'.list l0).elems = (w.list l0).elems ++ [e] ∧ (w'.list l1).elems = rest ∧
      w'.key = w.key ∧ ∀ l, (w'.list l).descr = (w.list l).descr := by
  have h0 : (lDechainElem w l1 e).list l0 = w.list l0 := by
    rw [lDechainElem, World.list_setOwner, World.list_setList_of_ne _ _ hne]
  have h1 : ((lDechainElem w l1 e).list l1).elems = rest := by
    rw [lDechainElem, World.list_setOwner, World.list_setList]
    show (w.list l1).elems.erase e = rest
    rw [hlist, List.erase_cons_head]
  have hdescr : ∀ l, ((lDechainElem w l1 e).list l).descr = (w.list l).descr := by
    intro l
    rw [lDechainElem, World.list_setOwner]
    by_cases hl : l = l1
    · subst hl
      rw [World.list_setList]
      rfl
    · rw [World.list_setList_of_ne _ _ hl]
  subst hw'
  rw [lAppendElem, bindElem, World.list_setOwner]
  refine ⟨?_, ?_, ?_, fun l => ?_⟩
  · rw [World.list_setList, h0]
    rfl
  · rw [World.list_setList_of_ne _ _ (Ne.symm hne), h1]
  · rw [World.key_setOwner, World.key_setList]
    simp [lDechainElem]
  · by_cases hl : l = l0
    · subst hl
      rw [World.list_setList]
      exact hdescr l
    · rw [World.list_setList_of_ne _ _ hl, hdescr]

/-- All elements of a list go to the end of another one. -/
theorem appendList_elems (hne : l0 ≠ l1) :
    ∀ {w : World S}, (w.list l1).elems = rest →
      ∀ {w' : World S}, w' = rest.foldl
        (fun w e => lAppendElem (lDechainElem w l1 e) l0 e) w →
      (w'.list l0).elems = (w.list l0).elems ++ rest ∧ w'.key = w.key ∧
        ∀ l, (w'.list l).descr = (w.list l).descr := by
  induction rest with
  | nil =>
    rintro w _ w' rfl
    simp
  | cons e rest ih =>
    rintro w hlist w' rfl
    obtain ⟨h0, h1, hkey, hdescr⟩ := append_first hne hlist rfl
    obtain ⟨h0', hkey', hdescr'⟩ := ih h1 rfl
    refine ⟨?_, hkey'.trans hkey, fun l => (hdescr' l).trans (hdescr l)⟩
    rw [List.foldl_cons, h0', h0, List.append_assoc, List.singleton_append]

/-- The keys of the fields that have to be unique, for some list of elements. -/
def UniqueOn (w : World S) (l : ListId) (elems : List ElemId) : Prop :=
  ∀ pos, ((w.list l).descr pos).hash = true → ((w.list l).descr pos).unique = true →
    KeysUnique (keysOf elems (w.key pos))

variable {elems : List ElemId}

theorem UniqueOn.of_subset {elems' : List ElemId}
    (h : UniqueOn w l elems) (hsub : ∀ e ∈ elems', e ∈ elems) : UniqueOn w l elems' :=
  fun pos hhash hunique => keysUnique_of_subset (h pos hhash hunique) hsub

theorem UniqueOn.keysUnique (h : UniqueOn w l elems)
    (hok : WorldOk w) {pos : ℕ} {t : CullHtable S} (ht : (w.list l).tables pos = some t)
    (hkind : isUnique t = true) : KeysUnique (keysOf elems (w.key pos)) := by
  have htable := hok.table l pos t ht
  exact h pos htable.hashed.2 (htable.kind ▸ hkind)

theorem worldOk_append (h : WorldOk w) (hfree : (w.elem e).owner = none)
    (hroom : ∀ pos t, (w.list l).tables pos = some t → isUnique t = true →
      KeysUnique (keysOf ((w.list l).elems ++ [e]) (w.key pos)) ∨
        dupCount t + 1 < 2 ^ 32) : WorldOk (lAppendElem w l e) := by
  refine worldOk_bind h hfree ?_ ?_ hroom
  · refine List.nodup_append.mpr ⟨h.nodup l, by simp, fun a ha b hb hab => ?_⟩
    rw [List.mem_singleton] at hb
    exact h.notMem hfree l (hb ▸ hab ▸ ha)
  · intro x
    rw [List.mem_append, List.mem_singleton, or_comm]

theorem worldOk_appendList (hne : l0 ≠ l1) :
    ∀ {w : World S}, WorldOk w → (w.list l1).elems = rest →
      UniqueOn w l1 rest → UniqueOn w l0 ((w.list l0).elems ++ rest) →
      WorldOk (rest.foldl (fun w e => lAppendElem (lDechainElem w l1 e) l0 e) w) := by
  induction rest with
  | nil => exact fun h _ _ _ => h
  | cons e rest ih =>
    intro w h hlist hu1 hu0
    obtain ⟨h0, h1, hkey, hdescr⟩ := append_first hne hlist rfl
    have hbound : (w.elem e).owner = some l1 := by
      rw [← h.owner, hlist]
      exact .head _
    have herase : (w.list l1).elems.erase e = rest := by
      rw [hlist, List.erase_cons_head]
    have hdechain : WorldOk (lDechainElem w l1 e) := by
      refine worldOk_dechain h hbound fun pos t ht hkind => Or.inl ?_
      rw [herase]
      exact (hu1.of_subset fun x hx => List.mem_cons_of_mem e hx).keysUnique h ht hkind
    have hkey' : (lDechainElem w l1 e).key = w.key := by simp [lDechainElem]
    have h0' : (lDechainElem w l1 e).list l0 = w.list l0 := by
      rw [lDechainElem, World.list_setOwner, World.list_setList_of_ne _ _ hne]
    have happend : WorldOk (lAppendElem (lDechainElem w l1 e) l0 e) := by
      refine worldOk_append hdechain ?_ fun pos t ht hkind => Or.inl ?_
      · rw [lDechainElem, World.owner_setOwner, if_pos rfl]
      · rw [h0'] at ht ⊢
        rw [hkey']
        refine (hu0.of_subset fun x hx => ?_).keysUnique h ht hkind
        rw [List.append_cons]
        exact List.mem_append_left _ hx
    refine ih happend h1 ?_ ?_
    · intro pos
      rw [hdescr, hkey]
      exact hu1.of_subset (fun x hx => List.mem_cons_of_mem e hx) pos
    · intro pos
      rw [hdescr, hkey, h0, List.append_assoc, List.singleton_append]
      exact hu0 pos

/-! ## Every operation -/

theorem worldOk_create (h : WorldOk w) (hfree : (w.elem e).owner = none)
    (cont : ℕ → Value) : WorldOk (w.setElem e ⟨cont, none⟩) := by
  have howner : ∀ x, ((w.setElem e ⟨cont, none⟩).elem x).owner = (w.elem x).owner := by
    intro x
    by_cases hx : x = e <;> simp [World.setElem, hx, hfree]
  refine ⟨h.nodup, fun l x => by rw [howner]; exact h.owner l x, fun l pos t ht => ?_⟩
  have hok := h.table l pos t ht
  have hkeys : (w.setElem e ⟨cont, none⟩).keys l pos = w.keys l pos := by
    refine keysOf_congr fun x hx => ?_
    have hne : x ≠ e := fun heq => h.notMem hfree l (heq ▸ hx)
    simp [World.key, World.setElem, hne]
  exact ⟨hok.hashed, hok.kind, hkeys ▸ hok.indexes⟩

theorem dropWhile_of_mem {p : ElemId} (h : p ∈ elems) :
    elems.dropWhile (· ≠ p) = p :: (elems.dropWhile (· ≠ p)).tail := by
  induction elems with
  | nil => simp at h
  | cons a elems ih =>
    by_cases hap : a = p
    · simp [hap]
    · have hmem : p ∈ elems := (List.mem_cons.mp h).resolve_left (Ne.symm hap)
      simpa [List.dropWhile_cons, hap] using ih hmem

theorem insertBehind_perm {ep : Option ElemId} (e : ElemId)
    (h : ∀ p ∈ ep, p ∈ elems) : (insertBehind ep e elems).Perm (e :: elems) := by
  cases ep with
  | none => exact List.Perm.refl _
  | some p =>
    have hsplit : elems = elems.takeWhile (· ≠ p) ++
        p :: (elems.dropWhile (· ≠ p)).tail := by
      rw [← dropWhile_of_mem (h p rfl), List.takeWhile_append_dropWhile]
    unfold insertBehind
    dsimp only
    conv_rhs => rw [hsplit]
    rw [List.append_cons _ p (e :: _), List.append_cons _ p (elems.dropWhile _).tail]
    exact List.perm_middle

/-- What an operation may count on so that no counter of taken keys overflows:
keys stay unique, or the counters have room. A list that is appended as a whole
counts many elements at once. -/
def HasRoom (w w' : World S) (op : Op) : Prop :=
  (UniqueKeys w ∧ UniqueKeys w') ∨ (CountersFit w ∧ ∀ l0 l1, op ≠ .appendList l0 l1)

theorem uniqueOn_bind (h : UniqueKeys (bindElem w l elems e)) : UniqueOn w l elems := by
  intro pos
  have hpos := h l pos
  rw [World.keys, bindElem, World.key_setOwner, World.list_setOwner, World.key_setList,
    World.list_setList] at hpos
  exact hpos

theorem descr_lSetValue (e : ElemId) (pos : ℕ) (value : Value) (l : ListId) :
    ((lSetValue w e pos value).list l).descr = (w.list l).descr := by
  unfold lSetValue
  split_ifs with hsame
  · rfl
  cases (w.elem e).owner with
  | none => rfl
  | some l' =>
    by_cases hl : l = l'
    · subst hl
      dsimp only
      rw [World.list_setList]
    · dsimp only
      rw [World.list_setList_of_ne _ _ hl, list_storeValue]

variable {op : Op}

theorem HasRoom.bind (hroom : HasRoom w (bindElem w l elems e) op) (h : WorldOk w) (pos : ℕ)
    (t : CullHtable S) (ht : (w.list l).tables pos = some t) (hkind : isUnique t = true) :
    KeysUnique (keysOf elems (w.key pos)) ∨ dupCount t + 1 < 2 ^ 32 := by
  rcases hroom with ⟨-, hu⟩ | ⟨hfit, -⟩
  · exact Or.inl ((uniqueOn_bind hu).keysUnique h ht hkind)
  · exact Or.inr (hfit.count l pos t ht)

theorem HasRoom.dechain (hroom : HasRoom w w' op) (h : WorldOk w)
    (hbound : (w.elem e).owner = some l) : WorldOk (lDechainElem w l e) := by
  refine worldOk_dechain h hbound fun pos t ht hkind => ?_
  rcases hroom with ⟨hu, -⟩ | ⟨hfit, -⟩
  · have hon : UniqueOn w l (w.list l).elems := hu l
    exact Or.inl ((hon.of_subset fun x hx => List.mem_of_mem_erase hx).keysUnique h ht hkind)
  · exact Or.inr ((List.length_erase_le ..).trans_lt (hfit.length l))

/-- **Every operation** keeps the tables right. -/
theorem worldOk_exec (h : WorldOk w) (hexec : exec w op = some w') (hroom : HasRoom w w' op)
    (hkeep : ∀ e pos value, op = .set e pos value → KeepsKeys w e pos value) : WorldOk w' := by
  cases op with
  | create e cont =>
    obtain ⟨hfree, ⟨⟩⟩ := Option.ite_none_right_eq_some.mp hexec
    exact worldOk_create h hfree cont
  | append l e =>
    obtain ⟨hfree, ⟨⟩⟩ := Option.ite_none_right_eq_some.mp hexec
    exact worldOk_append h hfree (hroom.bind h)
  | insert l ep e =>
    obtain ⟨⟨hfree, hep⟩, ⟨⟩⟩ := Option.ite_none_right_eq_some.mp hexec
    have hperm := insertBehind_perm e hep
    refine worldOk_bind h hfree ?_ ?_ (hroom.bind h)
    · exact hperm.nodup_iff.mpr (List.nodup_cons.mpr ⟨h.notMem hfree l, h.nodup l⟩)
    · intro x
      rw [hperm.mem_iff, List.mem_cons]
  | remove l e =>
    obtain ⟨hbound, ⟨⟩⟩ := Option.ite_none_right_eq_some.mp hexec
    exact hroom.dechain h hbound
  | dechain l e =>
    obtain ⟨hbound, ⟨⟩⟩ := Option.ite_none_right_eq_some.mp hexec
    exact hroom.dechain h hbound
  | dechainList source target e =>
    obtain ⟨-, ⟨⟩⟩ := Option.ite_none_right_eq_some.mp hexec
    exact worldOk_dechainList h
  | appendList l0 l1 =>
    obtain ⟨hne, ⟨⟩⟩ := Option.ite_none_left_eq_some.mp hexec
    obtain ⟨hu, hu'⟩ : UniqueKeys w ∧ UniqueKeys (lAppendList w l0 l1) :=
      hroom.resolve_right fun hfit => hfit.2 l0 l1 rfl
    obtain ⟨helems, hkey, hdescr⟩ := appendList_elems hne (w := w) rfl rfl
    refine worldOk_appendList hne h rfl (hu l1) fun pos => ?_
    have hpos := hu' l0 pos
    rwa [World.keys, lAppendList, helems, hkey, hdescr] at hpos
  | sort l order =>
    obtain ⟨hperm, ⟨⟩⟩ := Option.ite_none_right_eq_some.mp hexec
    exact worldOk_sort h (List.isPerm_iff.mp hperm)
  | set e pos value =>
    obtain ⟨-, ⟨⟩⟩ := Option.ite_none_right_eq_some.mp hexec
    refine worldOk_set h (hkeep e pos value rfl) fun l t howner ht hkind => ?_
    rcases hroom with ⟨-, hu⟩ | ⟨hfit, -⟩
    · have htable := h.table l pos t ht
      refine Or.inl (hu l pos ?_ ?_)
      · rw [descr_lSetValue]
        exact htable.hashed.2
      · rw [descr_lSetValue, ← htable.kind, hkind]
    · exact Or.inr (hfit.count l pos t ht)
  | search l pos minElems q =>
    cases hexec
    refine worldOk_search h fun hhash hunique => ?_
    rcases hroom with ⟨hu, -⟩ | ⟨hfit, -⟩
    · exact Or.inl (hu l pos hhash hunique)
    · exact Or.inr (hfit.length l)

/-! ## Runs -/

/-- In the beginning the lists are empty and without tables, and the elements
free. -/
structure Initial (w : World S) : Prop where
  empty : ∀ l, (w.list l).elems = []
  bare : ∀ l pos, (w.list l).tables pos = none
  free : ∀ e, (w.elem e).owner = none

def run (w : World S) (ops : List Op) : Option (World S) := ops.foldlM exec w

inductive Reach (Allowed : World S → Op → World S → Prop) : World S → Prop
  | start {w : World S} : Initial w → Reach Allowed w
  | step {w : World S} {op : Op} {w' : World S} :
      Reach Allowed w → exec w op = some w' → Allowed w op w' → Reach Allowed w'

theorem reach_run {Allowed : World S → Op → World S → Prop} {P : World S → Prop}
    {ops : List Op} : ∀ {w w' : World S}, Reach Allowed w → P w → run w ops = some w' →
      (∀ op ∈ ops, ∀ w w', P w → exec w op = some w' → Allowed w op w' ∧ P w') →
      Reach Allowed w' := by
  induction ops with
  | nil =>
    rintro w w' hreach _ ⟨⟩ _
    exact hreach
  | cons op ops ih =>
    intro w w' hreach hP hrun hstep
    obtain ⟨w₁, hexec, hrest⟩ := Option.bind_eq_some_iff.mp hrun
    obtain ⟨hallowed, hP₁⟩ := hstep op (.head _) w w₁ hP hexec
    exact ih (hreach.step hexec hallowed) hP₁ hrest
      fun op' hop' => hstep op' (List.mem_cons_of_mem op hop')

def smallSetting : Setting where
  hostcpy := id
  hashKey
    | .ulong n => n
    | _ => 0
  hashPointer := id

theorem World.descr_setList {lp : CullList S} (h : lp.descr = (w.list l).descr) (l' : ListId) :
    ((w.setList l lp).list l').descr = (w.list l').descr := by
  by_cases hl : l' = l
  · rw [hl, list_setList, h]
  · rw [list_setList_of_ne _ _ hl]

theorem descr_exec (hexec : exec w op = some w') (l : ListId) :
    (w'.list l).descr = (w.list l).descr := by
  cases op with
  | create e cont =>
    obtain ⟨-, ⟨⟩⟩ := Option.ite_none_right_eq_some.mp hexec
    rfl
  | append l' e =>
    obtain ⟨-, ⟨⟩⟩ := Option.ite_none_right_eq_some.mp hexec
    rw [lAppendElem, bindElem, World.list_setOwner]
    exact World.descr_setList (by rfl) l
  | insert l' ep e =>
    obtain ⟨-, ⟨⟩⟩ := Option.ite_none_right_eq_some.mp hexec
    rw [lInsertElem, bindElem, World.list_setOwner]
    exact World.descr_setList (by rfl) l
  | remove l' e =>
    obtain ⟨-, ⟨⟩⟩ := Option.ite_none_right_eq_some.mp hexec
    rw [lRemoveElem, lDechainElem, World.list_setOwner]
    exact World.descr_setList (by rfl) l
  | dechain l' e =>
    obtain ⟨-, ⟨⟩⟩ := Option.ite_none_right_eq_some.mp hexec
    rw [lDechainElem, World.list_setOwner]
    exact World.descr_setList (by rfl) l
  | dechainList source target e =>
    obtain ⟨-, ⟨⟩⟩ := Option.ite_none_right_eq_some.mp hexec
    unfold lDechainList
    rw [(foldl_setOwner _ _ _).1]
    exact (World.descr_setList (by rfl) l).trans (World.descr_setList (by rfl) l)
  | appendList l0 l1 =>
    obtain ⟨hne, ⟨⟩⟩ := Option.ite_none_left_eq_some.mp hexec
    exact (appendList_elems hne rfl rfl).2.2 l
  | sort l' order =>
    obtain ⟨-, ⟨⟩⟩ := Option.ite_none_right_eq_some.mp hexec
    unfold lSortList
    split_ifs
    · rfl
    · exact World.descr_setList (by rfl) l
  | set e pos value =>
    obtain ⟨-, ⟨⟩⟩ := Option.ite_none_right_eq_some.mp hexec
    exact descr_lSetValue e pos value l
  | search l' pos minElems q =>
    cases hexec
    have hlookup : ((cullHashLookupTable w l' pos minElems).1.list l).descr =
        (w.list l).descr := by
      unfold cullHashLookupTable
      dsimp only
      split_ifs
      · rfl
      all_goals
        split
        · rfl
        · first
          | rfl
          | exact World.descr_setList (by rfl) l
    unfold lGetElemFirst
    cases cullHashKey S q with
    | none => rfl
    | some k =>
      dsimp only
      rcases hr : cullHashLookupTable w l' pos minElems with ⟨w', _ | t⟩ <;>
        rw [hr] at hlookup <;> exact hlookup

theorem worldOk_initial (h : Initial w) : WorldOk w where
  nodup := by
    intro l
    rw [h.empty]
    exact List.nodup_nil
  owner := by
    intro l e
    rw [h.empty, h.free]
    simp
  table := by
    intro l pos t ht
    rw [h.bare] at ht
    simp at ht

theorem uniqueKeys_initial (h : Initial w) : UniqueKeys w := by
  intro l pos _ _ e e' k he
  rw [World.keys, h.empty] at he
  exact absurd he (by simp [keysOf])

end ClusterScheduler.Cull
