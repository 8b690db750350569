import Mathlib

/-!
# Hash tables with chaining

A table of `2 ^ size` slots, each a list of entries, that grows and shrinks with
the number of entries. Seen from outside it is a partial map: `lookup_create`,
`lookup_store` and `lookup_delete` say all there is, for every hash function.

* `Buckets` — the slots, `Buckets.Valid` — every entry is where its key belongs.
* `HashTable` — valid slots.
-/

namespace ClusterScheduler.Foundation

variable {K V : Type*}

/-- Slots beyond the last one stay empty. -/
structure Buckets (K V : Type*) where
  size : ℕ
  slot : ℕ → List (K × V)
  numentries : ℕ

namespace Buckets

/-! ## Growing and shrinking -/

section

variable (hash : K → ℕ)

def index (size : ℕ) (k : K) : ℕ := hash k % 2 ^ size

/-- Every entry is in the slot of its key, and no key is there twice. -/
structure Valid (t : Buckets K V) : Prop where
  placed : ∀ i, ∀ entry ∈ t.slot i, index hash t.size entry.1 = i
  nodup : ∀ i, ((t.slot i).map (·.1)).Nodup

def empty (size : ℕ) : Buckets K V := ⟨size, fun _ => [], 0⟩

def setChain (t : Buckets K V) (i : ℕ) (chain : List (K × V)) (numentries : ℕ) :
    Buckets K V :=
  ⟨t.size, Function.update t.slot i chain, numentries⟩

def push (t : Buckets K V) (entry : K × V) : Buckets K V :=
  let i := index hash t.size entry.1
  t.setChain i (entry :: t.slot i) (t.numentries + 1)

def entries (t : Buckets K V) : List (K × V) := (List.range (2 ^ t.size)).flatMap t.slot

def rehash (t : Buckets K V) (size : ℕ) : Buckets K V :=
  t.entries.foldl (push hash) (empty size)

/-- Double the table, or halve it if it is not minimal. -/
def resize (t : Buckets K V) (grow : Bool) : Buckets K V :=
  if grow then t.rehash hash (t.size + 1)
  else if 2 < t.size then t.rehash hash (t.size - 1)
  else t

def mask (t : Buckets K V) : ℕ := 2 ^ t.size - 1

end

section

variable {hash : K → ℕ} {t : Buckets K V}

theorem valid_empty (size : ℕ) : (empty size : Buckets K V).Valid hash where
  placed := by simp [empty]
  nodup := by simp [empty]

theorem mem_entries (h : t.Valid hash) {entry : K × V} :
    entry ∈ t.entries ↔ entry ∈ t.slot (index hash t.size entry.1) := by
  simp only [entries, List.mem_flatMap, List.mem_range]
  constructor
  · rintro ⟨i, -, hmem⟩
    rwa [h.placed i entry hmem]
  · intro hmem
    exact ⟨_, Nat.mod_lt _ (Nat.two_pow_pos _), hmem⟩

theorem nodup_entries (h : t.Valid hash) : (t.entries.map (·.1)).Nodup := by
  rw [entries, List.map_flatMap, List.nodup_flatMap]
  refine ⟨fun i _ => h.nodup i, ?_⟩
  refine List.nodup_range.imp_of_mem fun {i j} _ _ hij => ?_
  intro k hi hj
  obtain ⟨a, ha, rfl⟩ := List.mem_map.mp hi
  obtain ⟨b, hb, heq⟩ := List.mem_map.mp hj
  have h1 := h.placed i a ha
  have h2 := h.placed j b hb
  rw [heq] at h2
  exact hij (h1.symm.trans h2)

@[simp] theorem size_setChain (i : ℕ) (chain : List (K × V)) (n : ℕ) :
    (t.setChain i chain n).size = t.size := rfl

theorem slot_setChain (i : ℕ) (chain : List (K × V)) (n j : ℕ) :
    (t.setChain i chain n).slot j = if j = i then chain else t.slot j :=
  Function.update_apply t.slot i chain j

/-- An exchanged chain keeps the table valid if its keys belong there. -/
theorem valid_setChain (h : t.Valid hash) {i n : ℕ} {chain : List (K × V)}
    (hplaced : ∀ entry ∈ chain, index hash t.size entry.1 = i)
    (hnodup : (chain.map (·.1)).Nodup) : (t.setChain i chain n).Valid hash where
  placed := by
    intro j entry hmem
    rw [slot_setChain] at hmem
    split_ifs at hmem with hj
    · rw [hj]
      exact hplaced entry hmem
    · exact h.placed j entry hmem
  nodup := by
    intro j
    rw [slot_setChain]
    split_ifs
    · exact hnodup
    · exact h.nodup j

@[simp] theorem size_push (entry : K × V) : (t.push hash entry).size = t.size := rfl

theorem slot_push (entry : K × V) (i : ℕ) :
    (t.push hash entry).slot i =
      if i = index hash t.size entry.1 then entry :: t.slot i else t.slot i := by
  rw [push, slot_setChain]
  split_ifs with h
  · rw [h]
  · rfl

@[simp] theorem size_foldl_push (l : List (K × V)) (t : Buckets K V) :
    (l.foldl (push hash) t).size = t.size := by
  induction l generalizing t with
  | nil => rfl
  | cons entry l ih => rw [List.foldl_cons, ih, size_push]

theorem slot_foldl_push (l : List (K × V)) (t : Buckets K V) (i : ℕ) :
    (l.foldl (push hash) t).slot i =
      (l.filter (fun entry => i = index hash t.size entry.1)).reverse ++ t.slot i := by
  induction l generalizing t with
  | nil => rfl
  | cons entry l ih =>
    rw [List.foldl_cons, ih, size_push, slot_push]
    by_cases h : i = index hash t.size entry.1
    · rw [List.filter_cons_of_pos (by simpa using h), if_pos h]
      simp
    · rw [List.filter_cons_of_neg (by simpa using h), if_neg h]

theorem size_rehash (size : ℕ) : (t.rehash hash size).size = size := by
  simp [rehash, empty]

theorem mem_slot_rehash (h : t.Valid hash) {size : ℕ} {entry : K × V} {i : ℕ} :
    entry ∈ (t.rehash hash size).slot i ↔
      entry ∈ t.slot (index hash t.size entry.1) ∧ i = index hash size entry.1 := by
  simp [rehash, slot_foldl_push, empty, mem_entries h]

theorem valid_rehash (h : t.Valid hash) (size : ℕ) : (t.rehash hash size).Valid hash where
  placed := by
    intro i entry hmem
    rw [size_rehash]
    exact ((mem_slot_rehash h).mp hmem).2.symm
  nodup := by
    intro i
    have hsub : (t.entries.filter fun entry => i = index hash size entry.1).Sublist
        t.entries := List.filter_sublist
    have := (nodup_entries h).sublist (hsub.map (·.1))
    simpa [rehash, slot_foldl_push, empty] using this

theorem valid_resize (h : t.Valid hash) (grow : Bool) : (t.resize hash grow).Valid hash := by
  unfold resize
  split_ifs
  · exact valid_rehash h _
  · exact valid_rehash h _
  · exact h

end

/-! ## Finding, storing and deleting -/

section

variable [DecidableEq K] (hash : K → ℕ)

def lookup (t : Buckets K V) (k : K) : Option V :=
  ((t.slot (index hash t.size k)).find? (·.1 = k)).map (·.2)

def replace (k : K) (v : V) (chain : List (K × V)) : List (K × V) :=
  chain.map fun entry => if entry.1 = k then (entry.1, v) else entry

def store (t : Buckets K V) (k : K) (v : V) : Buckets K V :=
  let i := index hash t.size k
  if (t.slot i).any (·.1 = k) then
    t.setChain i (replace k v (t.slot i)) t.numentries
  else
    let t' := t.push hash (k, v)
    if t'.mask < t'.numentries then t'.resize hash true else t'

def delete (t : Buckets K V) (k : K) : Buckets K V :=
  let i := index hash t.size k
  if (t.slot i).any (·.1 = k) then
    let t' := t.setChain i ((t.slot i).filter (·.1 ≠ k)) (t.numentries - 1)
    if t'.numentries < t'.mask / 2 then t'.resize hash false else t'
  else t

end

section

variable [DecidableEq K] {hash : K → ℕ} {t : Buckets K V}

variable {k : K}

theorem lookup_eq_some (h : t.Valid hash) {v : V} :
    t.lookup hash k = some v ↔ (k, v) ∈ t.slot (index hash t.size k) := by
  have hnodup := h.nodup (index hash t.size k)
  rw [lookup, Option.map_eq_some_iff]
  constructor
  · rintro ⟨⟨k', v'⟩, hfind, rfl⟩
    have hkey : k' = k := by simpa using List.find?_some hfind
    subst hkey
    exact List.mem_of_find?_eq_some hfind
  · intro hmem
    cases hfind : (t.slot (index hash t.size k)).find? (·.1 = k) with
    | none =>
      have := List.find?_eq_none.mp hfind _ hmem
      simp at this
    | some entry =>
      have hkey : entry.1 = k := by simpa using List.find?_some hfind
      have hmem' := List.mem_of_find?_eq_some hfind
      have heq := List.inj_on_of_nodup_map hnodup hmem' hmem (by simpa using hkey)
      exact ⟨entry, rfl, by rw [heq]⟩

/-- Two tables find the same if their slots agree on the key. -/
theorem lookup_congr {t' : Buckets K V} (h : t.Valid hash) (h' : t'.Valid hash)
    (heq : ∀ v, (k, v) ∈ t'.slot (index hash t'.size k) ↔ (k, v) ∈ t.slot (index hash t.size k)) :
    t'.lookup hash k = t.lookup hash k := by
  refine Option.ext fun v => ?_
  rw [lookup_eq_some h', lookup_eq_some h, heq]

theorem lookup_resize (h : t.Valid hash) (grow : Bool) (k : K) :
    (t.resize hash grow).lookup hash k = t.lookup hash k := by
  have hrehash : ∀ size, (t.rehash hash size).lookup hash k = t.lookup hash k := by
    intro size
    refine lookup_congr h (valid_rehash h size) fun v => ?_
    rw [mem_slot_rehash h, size_rehash]
    simp
  unfold resize
  split_ifs
  · exact hrehash _
  · exact hrehash _
  · rfl

theorem lookup_setChain (t : Buckets K V) (i n : ℕ) (chain : List (K × V)) (k : K) :
    (t.setChain i chain n).lookup hash k =
      if index hash t.size k = i then (chain.find? (·.1 = k)).map (·.2)
      else t.lookup hash k := by
  rw [lookup, size_setChain, slot_setChain]
  split_ifs <;> rfl

theorem map_fst_replace (k : K) (v : V) (chain : List (K × V)) :
    (replace k v chain).map (·.1) = chain.map (·.1) := by
  rw [replace, List.map_map]
  refine List.map_congr_left fun entry _ => ?_
  dsimp only [Function.comp]
  split_ifs <;> rfl

theorem find?_replace (k k' : K) (v : V) (chain : List (K × V)) :
    ((replace k v chain).find? (·.1 = k')).map (·.2) =
      if k' = k ∧ chain.any (·.1 = k) then some v
      else (chain.find? (·.1 = k')).map (·.2) := by
  induction chain with
  | nil => simp [replace]
  | cons entry chain ih =>
    rw [replace, List.map_cons, ← replace]
    by_cases hentry : entry.1 = k
    · by_cases hk : k' = k
      · simp [hentry, hk]
      · have hne : ¬ entry.1 = k' := fun heq => hk (heq.symm.trans hentry)
        rw [if_pos hentry, List.find?_cons_of_neg (by simpa using hne), ih,
          List.find?_cons_of_neg (by simpa using hne)]
        simp [hk]
    · by_cases hk : entry.1 = k'
      · have hne : ¬ k' = k := fun heq => hentry (hk.trans heq)
        rw [if_neg hentry, List.find?_cons_of_pos (by simpa using hk),
          List.find?_cons_of_pos (by simpa using hk)]
        simp [hne]
      · rw [if_neg hentry, List.find?_cons_of_neg (by simpa using hk), ih,
          List.find?_cons_of_neg (by simpa using hk), List.any_cons,
          decide_eq_false hentry, Bool.false_or]

theorem find?_filter_ne (k k' : K) (chain : List (K × V)) :
    ((chain.filter (·.1 ≠ k)).find? (·.1 = k')).map (·.2) =
      if k' = k then none else (chain.find? (·.1 = k')).map (·.2) := by
  split_ifs with h
  · subst h
    have : (chain.filter (·.1 ≠ k')).find? (·.1 = k') = none := by
      rw [List.find?_eq_none]
      intro entry hmem
      simpa using (List.mem_filter.mp hmem).2
    rw [this, Option.map_none]
  · rw [List.find?_filter]
    congr 2
    funext entry
    by_cases hk : entry.1 = k'
    · simp [hk, h]
    · simp [hk]

theorem push_spec (h : t.Valid hash) (v : V) (hnew : k ∉ (t.slot (index hash t.size k)).map (·.1)) :
    (t.push hash (k, v)).Valid hash ∧ ∀ k', (t.push hash (k, v)).lookup hash k' =
      if k' = k then some v else t.lookup hash k' := by
  refine ⟨valid_setChain h ?_ ?_, fun k' => ?_⟩
  · intro entry hmem
    rcases List.mem_cons.mp hmem with rfl | hmem
    · rfl
    · exact h.placed _ entry hmem
  · rw [List.map_cons, List.nodup_cons]
    exact ⟨hnew, h.nodup _⟩
  · rw [push, lookup_setChain]
    by_cases hk : k' = k
    · simp [hk]
    · rw [if_neg hk, List.find?_cons_of_neg (by simpa using Ne.symm hk)]
      split_ifs with hi
      · rw [lookup, hi]
      · rfl

theorem store_spec (h : t.Valid hash) (k : K) (v : V) :
    (t.store hash k v).Valid hash ∧ ∀ k', (t.store hash k v).lookup hash k' =
      if k' = k then some v else t.lookup hash k' := by
  unfold store
  dsimp only
  by_cases hany : (t.slot (index hash t.size k)).any (·.1 = k) = true
  · rw [if_pos hany]
    refine ⟨valid_setChain h ?_ ?_, fun k' => ?_⟩
    · intro entry hmem
      obtain ⟨old, hold, rfl⟩ := List.mem_map.mp hmem
      have := h.placed _ old hold
      split_ifs <;> exact this
    · rw [map_fst_replace]
      exact h.nodup _
    · rw [lookup_setChain, find?_replace]
      simp only [hany, and_true]
      by_cases hk : k' = k
      · simp [hk]
      · simp only [hk, if_false]
        split_ifs with hi
        · rw [lookup, hi]
        · rfl
  · rw [if_neg hany]
    obtain ⟨hvalid, hlookup⟩ := push_spec h v (by simpa using hany)
    split_ifs
    · refine ⟨valid_resize hvalid true, fun k' => ?_⟩
      rw [lookup_resize hvalid, hlookup]
    · exact ⟨hvalid, hlookup⟩

theorem delete_spec (h : t.Valid hash) (k : K) :
    (t.delete hash k).Valid hash ∧ ∀ k', (t.delete hash k).lookup hash k' =
      if k' = k then none else t.lookup hash k' := by
  unfold delete
  dsimp only
  by_cases hany : (t.slot (index hash t.size k)).any (·.1 = k) = true
  · rw [if_pos hany]
    generalize hshrunk : t.setChain (index hash t.size k)
      ((t.slot (index hash t.size k)).filter (·.1 ≠ k)) (t.numentries - 1) = t'
    have hvalid : t'.Valid hash := by
      rw [← hshrunk]
      refine valid_setChain h (fun entry hmem => ?_) ?_
      · exact h.placed _ entry (List.mem_filter.mp hmem).1
      · have hsub : ((t.slot (index hash t.size k)).filter (·.1 ≠ k)).Sublist
            (t.slot (index hash t.size k)) := List.filter_sublist
        exact (h.nodup _).sublist (hsub.map (·.1))
    have hlookup : ∀ k', t'.lookup hash k' = if k' = k then none else t.lookup hash k' := by
      intro k'
      rw [← hshrunk, lookup_setChain, find?_filter_ne]
      by_cases hk : k' = k
      · simp [hk]
      · simp only [hk, if_false]
        split_ifs with hi
        · rw [lookup, hi]
        · rfl
    split_ifs
    · refine ⟨valid_resize hvalid false, fun k' => ?_⟩
      rw [lookup_resize hvalid, hlookup]
    · exact ⟨hvalid, hlookup⟩
  · rw [if_neg hany]
    refine ⟨h, fun k' => ?_⟩
    split_ifs with hk
    · subst hk
      rw [lookup, Option.map_eq_none_iff, List.find?_eq_none]
      intro entry hmem hkey
      exact hany (List.any_eq_true.mpr ⟨entry, hmem, hkey⟩)
    · rfl

end

end Buckets

/-! ## The table as a partial map -/

/-- A table in which every entry is where its key belongs. -/
structure HashTable (hash : K → ℕ) (V : Type*) where
  buckets : Buckets K V
  valid : buckets.Valid hash

namespace HashTable

variable [DecidableEq K] {hash : K → ℕ}

def create (size : ℕ) : HashTable hash V := ⟨.empty size, Buckets.valid_empty size⟩

def lookup (t : HashTable hash V) (k : K) : Option V := t.buckets.lookup hash k

def store (t : HashTable hash V) (k : K) (v : V) : HashTable hash V :=
  ⟨t.buckets.store hash k v, (Buckets.store_spec t.valid k v).1⟩

def delete (t : HashTable hash V) (k : K) : HashTable hash V :=
  ⟨t.buckets.delete hash k, (Buckets.delete_spec t.valid k).1⟩

@[simp] theorem lookup_create (size : ℕ) (k : K) :
    (create size : HashTable hash V).lookup k = none := rfl

theorem lookup_store (t : HashTable hash V) (k : K) (v : V) (k' : K) :
    (t.store k v).lookup k' = if k' = k then some v else t.lookup k' :=
  (Buckets.store_spec t.valid k v).2 k'

theorem lookup_delete (t : HashTable hash V) (k k' : K) :
    (t.delete k).lookup k' = if k' = k then none else t.lookup k' :=
  (Buckets.delete_spec t.valid k).2 k'

end HashTable

end ClusterScheduler.Foundation
