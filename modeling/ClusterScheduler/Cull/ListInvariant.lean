import ClusterScheduler.Cull.Lists

/-!
# The tables of a list stay right

* `WorldOk` — elements are in the list that owns them, and every table indexes
  the elements of its list.
* `worldOk_bind`, `worldOk_dechain`, `worldOk_set` — binding and unbinding an
  element and setting a field keep this.
-/

namespace ClusterScheduler.Cull

open Foundation

variable {S : Setting} {w : World S}

/-! ## Changing one list or one element -/

namespace World

@[simp] theorem list_setList (w : World S) (l : ListId) (lp : CullList S) :
    (w.setList l lp).list l = lp := by
  simp [setList]

theorem list_setList_of_ne (w : World S) {l l' : ListId} (lp : CullList S) (h : l' ≠ l) :
    (w.setList l lp).list l' = w.list l' := by
  simp [setList, h]

@[simp] theorem elem_setList (w : World S) (l : ListId) (lp : CullList S) :
    (w.setList l lp).elem = w.elem := rfl

@[simp] theorem list_setOwner (w : World S) (e : ElemId) (o : Option ListId) :
    (w.setOwner e o).list = w.list := rfl

@[simp] theorem key_setList (w : World S) (l : ListId) (lp : CullList S) :
    (w.setList l lp).key = w.key := rfl

theorem elem_setOwner (w : World S) (e e' : ElemId) (o : Option ListId) :
    (w.setOwner e o).elem e' =
      if e' = e then { w.elem e with owner := o } else w.elem e' := by
  unfold setOwner setElem
  dsimp only
  split_ifs with h
  · rw [h, Function.update_self]
  · rw [Function.update_of_ne h]

theorem owner_setOwner (w : World S) (e e' : ElemId) (o : Option ListId) :
    ((w.setOwner e o).elem e').owner = if e' = e then o else (w.elem e').owner := by
  rw [elem_setOwner]
  split_ifs <;> rfl

@[simp] theorem key_setOwner (w : World S) (e : ElemId) (o : Option ListId) :
    (w.setOwner e o).key = w.key := by
  funext pos e'
  unfold key
  rw [elem_setOwner]
  split_ifs with h
  · rw [h]
  · rfl

end World

/-! ## The invariant -/

@[simp] theorem dupCount_remove (t : CullHtable S) (e : ElemId) (key : Option Key) :
    dupCount (cullHashRemove t e key) = dupCount t := by
  unfold cullHashRemove
  cases key with
  | none => rfl
  | some k =>
    cases t with
    | unique ht n =>
      dsimp only
      split_ifs <;> rfl
    | chained ht nuht heap fresh =>
      dsimp only
      split <;> try split
      all_goals try split
      all_goals rfl

@[simp] theorem isUnique_build (unique : Bool) (elems : List ElemId) (key : ElemId → Option Key) :
    isUnique (cullHashBuild unique elems key : CullHtable S) = unique := by
  have hfold : ∀ (l : List ElemId) (t : CullHtable S),
      isUnique (l.foldl (fun t e => cullHashInsert t e (key e)) t) = isUnique t := by
    intro l
    induction l with
    | nil => exact fun t => rfl
    | cons e l ih => exact fun t => (ih _).trans (isUnique_insert t e (key e))
  unfold cullHashBuild
  rw [hfold]
  cases unique <;> rfl

def World.keys (w : World S) (l : ListId) (pos : ℕ) : ElemId → Option Key :=
  keysOf (w.list l).elems (w.key pos)

/-- A table of a list: of the right kind, and right for the elements. -/
structure TableOk (w : World S) (l : ListId) (pos : ℕ) (t : CullHtable S) : Prop where
  hashed : (w.list l).hashable = true ∧ ((w.list l).descr pos).hash = true
  kind : isUnique t = ((w.list l).descr pos).unique
  indexes : Indexes t (w.keys l pos)

structure WorldOk (w : World S) : Prop where
  nodup : ∀ l, (w.list l).elems.Nodup
  owner : ∀ l e, e ∈ (w.list l).elems ↔ (w.elem e).owner = some l
  table : ∀ l pos t, (w.list l).tables pos = some t → TableOk w l pos t

/-- No two elements share a key of a field that is declared unique. -/
def UniqueKeys (w : World S) : Prop :=
  ∀ l pos, ((w.list l).descr pos).hash = true → ((w.list l).descr pos).unique = true →
    KeysUnique (w.keys l pos)

/-- The counters of taken keys have room for one more, in the tables there are and
in those that may be built. -/
structure CountersFit (w : World S) : Prop where
  length : ∀ l, (w.list l).elems.length < 2 ^ 32
  count : ∀ l pos t, (w.list l).tables pos = some t → dupCount t + 1 < 2 ^ 32

variable {l : ListId}

/-- An operation on one list leaves the others as they are. -/
theorem worldOk_change {w' : World S} (h : WorldOk w)
    (hlist : ∀ l', l' ≠ l → w'.list l' = w.list l')
    (hkey : ∀ l', l' ≠ l → ∀ pos, ∀ e ∈ (w.list l').elems, w'.key pos e = w.key pos e)
    (howner : ∀ l', l' ≠ l → ∀ e, (w'.elem e).owner = some l' ↔ (w.elem e).owner = some l')
    (hnodup : (w'.list l).elems.Nodup)
    (hmem : ∀ e, e ∈ (w'.list l).elems ↔ (w'.elem e).owner = some l)
    (htable : ∀ pos t, (w'.list l).tables pos = some t → TableOk w' l pos t) : WorldOk w' where
  nodup := by
    intro l'
    by_cases hl : l' = l
    · exact hl ▸ hnodup
    · rw [hlist l' hl]
      exact h.nodup l'
  owner := by
    intro l' e
    by_cases hl : l' = l
    · exact hl ▸ hmem e
    · rw [hlist l' hl, howner l' hl]
      exact h.owner l' e
  table := by
    intro l' pos t ht
    by_cases hl : l' = l
    · subst hl
      exact htable pos t ht
    · have hsame := hlist l' hl
      rw [hsame] at ht
      have hok := h.table l' pos t ht
      have hkeys : w'.keys l' pos = w.keys l' pos := by
        funext e
        unfold World.keys keysOf
        rw [hsame]
        split_ifs with he
        · exact hkey l' hl pos e he
        · rfl
      exact ⟨hsame ▸ hok.hashed, hsame ▸ hok.kind, hkeys ▸ hok.indexes⟩

/-! ## Binding and unbinding an element -/

variable {elems : List ElemId} {key : ElemId → Option Key} {e : ElemId}

variable {elems' : List ElemId}

theorem keysOf_bind (hmem : ∀ x, x ∈ elems' ↔ x = e ∨ x ∈ elems) :
    keysOf elems' key = Function.update (keysOf elems key) e (key e) := by
  funext x
  by_cases hx : x = e
  · rw [hx, Function.update_self]
    exact if_pos ((hmem e).mpr (Or.inl rfl))
  · rw [Function.update_of_ne hx]
    unfold keysOf
    simp [hmem, hx]

theorem keysOf_unbind (hmem : ∀ x, x ∈ elems' ↔ x ≠ e ∧ x ∈ elems) :
    keysOf elems' key = Function.update (keysOf elems key) e none := by
  funext x
  by_cases hx : x = e
  · rw [hx, Function.update_self]
    exact if_neg fun h => ((hmem e).mp h).1 rfl
  · rw [Function.update_of_ne hx]
    unfold keysOf
    simp [hmem, hx]

theorem WorldOk.notMem (h : WorldOk w) (hfree : (w.elem e).owner = none)
    (l : ListId) : e ∉ (w.list l).elems := by
  intro hin
  rw [h.owner, hfree] at hin
  simp at hin

theorem worldOk_bind (h : WorldOk w) (hfree : (w.elem e).owner = none) (hnodup : elems.Nodup)
    (hmem : ∀ x, x ∈ elems ↔ x = e ∨ x ∈ (w.list l).elems)
    (hroom : ∀ pos t, (w.list l).tables pos = some t → isUnique t = true →
      KeysUnique (keysOf elems (w.key pos)) ∨ dupCount t + 1 < 2 ^ 32) :
    WorldOk (bindElem w l elems e) := by
  have hself : (bindElem w l elems e).list l =
      cullHashElem w { w.list l with elems := elems } e := by
    simp [bindElem]
  have hkey : (bindElem w l elems e).key = w.key := by simp [bindElem]
  have howner : ∀ x, ((bindElem w l elems e).elem x).owner =
      if x = e then some l else (w.elem x).owner := by
    intro x
    rw [bindElem, World.owner_setOwner]
    rfl
  refine worldOk_change h (fun l' hl => w.list_setList_of_ne _ hl)
    (fun l' _ pos x _ => by rw [hkey]) ?_ ?_ ?_ ?_
  · intro l' hl x
    rw [howner]
    split_ifs with hx
    · rw [hx, hfree]
      simp [Ne.symm hl]
    · exact Iff.rfl
  · rw [hself]
    exact hnodup
  · intro x
    rw [hself, howner]
    show x ∈ elems ↔ _
    rw [hmem, h.owner]
    split_ifs with hx <;> simp [hx]
  · intro pos t ht
    rw [hself] at ht
    obtain ⟨t₀, ht₀, rfl⟩ := Option.map_eq_some_iff.mp ht
    have hok := h.table l pos t₀ ht₀
    refine ⟨?_, ?_, ?_⟩
    · rw [hself]
      exact hok.hashed
    · rw [hself, isUnique_insert]
      exact hok.kind
    · rw [World.keys, hself, hkey]
      show Indexes _ (keysOf elems (w.key pos))
      have hroom' := hroom pos t₀ ht₀
      rw [keysOf_bind hmem] at hroom' ⊢
      exact indexes_insert hok.indexes (if_neg (h.notMem hfree l)) _ hroom'

variable {t : CullHtable S}

theorem rebuildUnique_of_zero (lp : CullList S) (pos : ℕ)
    (h : dupCount t = 0) : cullHashRebuildUnique w lp pos t = t := by
  cases t with
  | unique ht n => exact if_pos h
  | chained ht nuht heap fresh => rfl

theorem rebuildUnique_of_ne (lp : CullList S) (pos : ℕ) (h : dupCount t ≠ 0) :
    isUnique t = true ∧
      cullHashRebuildUnique w lp pos t = cullHashBuild true lp.elems (w.key pos) := by
  cases t with
  | unique ht n => exact ⟨rfl, if_neg h⟩
  | chained ht nuht heap fresh => exact absurd rfl h

theorem isUnique_rebuildUnique (t : CullHtable S) (lp : CullList S) (pos : ℕ) :
    isUnique (cullHashRebuildUnique w lp pos t) = isUnique t := by
  by_cases h : dupCount t = 0
  · rw [rebuildUnique_of_zero lp pos h]
  · obtain ⟨hunique, heq⟩ := rebuildUnique_of_ne (w := w) lp pos h
    rw [heq, isUnique_build, hunique]

variable {pos : ℕ}

/-- After the repair a table is right again, whatever its counter says. -/
theorem indexes_repair (lp : CullList S) {keyed : ElemId → Option Key} (h : Indexes t keyed)
    (hnodup : lp.elems.Nodup) (hkeys : keysOf lp.elems (w.key pos) = Function.update keyed e none)
    (hroom : isUnique t = true →
      KeysUnique (keysOf lp.elems (w.key pos)) ∨ lp.elems.length < 2 ^ 32) :
    Indexes (cullHashRebuildUnique w lp pos (cullHashRemove t e (keyed e)))
      (keysOf lp.elems (w.key pos)) := by
  by_cases hzero : dupCount t = 0
  · have hkeep : KeepsKey t keyed e := by
      cases t with
      | unique ht n => exact keepsKey_of_unique (h.counted hzero) _ e
      | chained ht nuht heap fresh => trivial
    rw [rebuildUnique_of_zero lp pos (by rwa [dupCount_remove]), hkeys]
    exact indexes_remove h hkeep
  · obtain ⟨hkind, heq⟩ := rebuildUnique_of_ne (w := w) (t := cullHashRemove t e (keyed e))
      lp pos (by rwa [dupCount_remove])
    rw [isUnique_remove] at hkind
    rw [heq]
    exact indexes_build true hnodup fun _ => hroom hkind

theorem worldOk_dechain (h : WorldOk w) (hbound : (w.elem e).owner = some l)
    (hroom : ∀ pos t, (w.list l).tables pos = some t → isUnique t = true →
      KeysUnique (keysOf ((w.list l).elems.erase e) (w.key pos)) ∨
        ((w.list l).elems.erase e).length < 2 ^ 32) : WorldOk (lDechainElem w l e) := by
  have hself : (lDechainElem w l e).list l = cullHashRepair w (cullHashRemoveElem w
      { w.list l with elems := (w.list l).elems.erase e } e) := by
    simp [lDechainElem]
  have hkey : (lDechainElem w l e).key = w.key := by simp [lDechainElem]
  have howner : ∀ x, ((lDechainElem w l e).elem x).owner =
      if x = e then none else (w.elem x).owner := by
    intro x
    rw [lDechainElem, World.owner_setOwner]
    rfl
  have hmem : ∀ x, x ∈ (w.list l).elems.erase e ↔ x ≠ e ∧ x ∈ (w.list l).elems :=
    fun x => (h.nodup l).mem_erase_iff
  have hnodup : ((w.list l).elems.erase e).Nodup := (h.nodup l).erase e
  refine worldOk_change h (fun l' hl => w.list_setList_of_ne _ hl)
    (fun l' _ pos x _ => by rw [hkey]) ?_ ?_ ?_ ?_
  · intro l' hl x
    rw [howner]
    split_ifs with hx
    · rw [hx, hbound]
      simp [Ne.symm hl]
    · exact Iff.rfl
  · rw [hself]
    exact hnodup
  · intro x
    rw [hself, howner]
    show x ∈ (w.list l).elems.erase e ↔ _
    rw [hmem, h.owner]
    split_ifs with hx <;> simp [hx]
  · intro pos t ht
    rw [hself] at ht
    obtain ⟨t₁, ht₁, rfl⟩ := Option.map_eq_some_iff.mp ht
    obtain ⟨t₀, ht₀, rfl⟩ := Option.map_eq_some_iff.mp ht₁
    have hok := h.table l pos t₀ ht₀
    refine ⟨?_, ?_, ?_⟩
    · rw [hself]
      exact hok.hashed
    · rw [hself, isUnique_rebuildUnique, isUnique_remove]
      exact hok.kind
    · rw [World.keys, hself, hkey]
      have hin : w.keys l pos e = w.key pos e := if_pos ((h.owner l e).mpr hbound)
      rw [← hin]
      exact indexes_repair { w.list l with elems := (w.list l).elems.erase e } hok.indexes
        hnodup (keysOf_unbind hmem) (hroom pos t₀ ht₀)

/-! ## Setting a field -/

@[simp] theorem list_storeValue (e : ElemId) (pos : ℕ) (value : Value) :
    (storeValue w e pos value).list = w.list := rfl

@[simp] theorem owner_storeValue (e : ElemId) (pos : ℕ) (value : Value) (e' : ElemId) :
    ((storeValue w e pos value).elem e').owner = (w.elem e').owner := by
  by_cases h : e' = e <;> simp [storeValue, World.setElem, h]

/-- Only one element has another key, and only in one field. -/
theorem key_storeValue (value : Value) {p : ℕ} {e' : ElemId}
    (h : e' ≠ e ∨ p ≠ pos) : (storeValue w e pos value).key p e' = w.key p e' := by
  by_cases he : e' = e
  · have hp : p ≠ pos := h.resolve_left fun hne => hne he
    simp [storeValue, World.key, World.setElem, he, hp]
  · simp [storeValue, World.key, World.setElem, he]

/-- No set loses the entry of a key that another element has as well. -/
def KeepsKeys (w : World S) (e : ElemId) (pos : ℕ) (value : Value) : Prop :=
  (w.elem e).cont pos ≠ value → ∀ l, (w.elem e).owner = some l →
    ∀ t, (w.list l).tables pos = some t → KeepsKey t (w.keys l pos) e

variable {key' : ElemId → Option Key}

theorem keysOf_congr (h : ∀ x ∈ elems, key' x = key x) : keysOf elems key' = keysOf elems key := by
  funext x
  unfold keysOf
  split_ifs with hx
  · exact h x hx
  · rfl

theorem keysOf_set (hsame : ∀ x, x ≠ e → key' x = key x) (he : e ∈ elems) :
    keysOf elems key' = Function.update (keysOf elems key) e (key' e) := by
  funext x
  by_cases hx : x = e
  · rw [hx, Function.update_self]
    exact if_pos he
  · rw [Function.update_of_ne hx]
    simp only [keysOf, hsame x hx]

theorem worldOk_store_free (h : WorldOk w) (hfree : (w.elem e).owner = none)
    (pos : ℕ) (value : Value) : WorldOk (storeValue w e pos value) where
  nodup := h.nodup
  owner := by
    intro l x
    rw [owner_storeValue]
    exact h.owner l x
  table := by
    intro l p t ht
    have hok := h.table l p t ht
    have hkeys : (storeValue w e pos value).keys l p = w.keys l p :=
      keysOf_congr fun x hx => key_storeValue value
        (Or.inl fun heq => h.notMem hfree l (heq ▸ hx))
    exact ⟨hok.hashed, hok.kind, hkeys ▸ hok.indexes⟩

theorem worldOk_set (h : WorldOk w) {value : Value} (hkeep : KeepsKeys w e pos value)
    (hroom : ∀ l t, (w.elem e).owner = some l → (w.list l).tables pos = some t → isUnique t = true →
      KeysUnique ((lSetValue w e pos value).keys l pos) ∨ dupCount t + 1 < 2 ^ 32) :
    WorldOk (lSetValue w e pos value) := by
  by_cases hsame : (w.elem e).cont pos = value
  · rw [lSetValue, if_pos hsame]
    exact h
  have hkeep' := hkeep hsame
  cases howner : (w.elem e).owner with
  | none =>
    have hset : lSetValue w e pos value = storeValue w e pos value := by
      rw [lSetValue, if_neg hsame]
      simp only [howner]
    rw [hset]
    exact worldOk_store_free h howner pos value
  | some l =>
    have hset : lSetValue w e pos value =
        (storeValue w e pos value).setList l { w.list l with
          tables := rekeyTables (w.list l) e pos (w.key pos e)
            ((storeValue w e pos value).key pos e) } := by
      rw [lSetValue, if_neg hsame]
      simp only [howner]
    have hself : (lSetValue w e pos value).list l = { w.list l with
        tables := rekeyTables (w.list l) e pos (w.key pos e)
          ((storeValue w e pos value).key pos e) } := by
      rw [hset, World.list_setList]
    have hkey : (lSetValue w e pos value).key = (storeValue w e pos value).key := by
      rw [hset, World.key_setList]
    have hmem : e ∈ (w.list l).elems := (h.owner l e).mpr howner
    have hold : ∀ p, w.keys l p e = w.key p e := fun p => if_pos hmem
    refine worldOk_change (l := l) h ?_ ?_ ?_ ?_ ?_ ?_
    · intro l' hl
      rw [hset, World.list_setList_of_ne _ _ hl, list_storeValue]
    · intro l' hl p x hx
      rw [hkey]
      refine key_storeValue value (Or.inl ?_)
      rintro rfl
      rw [h.owner, howner] at hx
      exact hl (Option.some.inj hx).symm
    · intro l' _ x
      rw [hset, World.elem_setList, owner_storeValue]
    · rw [hself]
      exact h.nodup l
    · intro x
      rw [hself, hset, World.elem_setList, owner_storeValue]
      exact h.owner l x
    · intro p t ht
      have hkeys : (lSetValue w e pos value).keys l p =
          Function.update (w.keys l p) e ((storeValue w e pos value).key p e) := by
        rw [World.keys, hself, hkey]
        exact keysOf_set (fun x hx => key_storeValue value (Or.inl hx)) hmem
      rw [hself] at ht
      change rekeyTables _ e pos _ _ p = some t at ht
      unfold rekeyTables at ht
      by_cases hp : p = pos
      · -- the field itself: out with the old key, in with the new one
        subst hp
        rw [Function.update_self] at ht
        obtain ⟨t₀, ht₀, rfl⟩ := Option.map_eq_some_iff.mp ht
        have hok := h.table l p t₀ ht₀
        have hroom' := hroom l t₀ howner ht₀
        have hremove := indexes_remove hok.indexes (hkeep' l howner t₀ ht₀)
        rw [hold] at hremove
        refine ⟨hself ▸ hok.hashed, ?_, ?_⟩
        · rw [hself, isUnique_insert, isUnique_remove]
          exact hok.kind
        · rw [hkeys, ← Function.update_idem (a := e) none] at hroom' ⊢
          refine indexes_insert hremove (Function.update_self ..) _ ?_
          rwa [isUnique_remove, dupCount_remove]
      · rw [Function.update_of_ne hp] at ht
        have hok := h.table l p t ht
        refine ⟨hself ▸ hok.hashed, hself ▸ hok.kind, ?_⟩
        rw [hkeys, key_storeValue value (Or.inr hp), ← hold, Function.update_eq_self]
        exact hok.indexes

end ClusterScheduler.Cull
