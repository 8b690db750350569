import ClusterScheduler.Foundation.HashTable
import ClusterScheduler.Foundation.Chain

/-!
# Hash tables of list fields

A field of a list may have a hash table over its values. A table over unique
keys maps a key to an element. Other tables map a key to a chain of nodes, one
for each element with that key, and have a second table from the elements to
their nodes.

* `CullHtable`, `cullHashInsert`, `cullHashRemove`, `cullHashFirst`,
  `cullHashNext` — the tables and their operations.
* `Indexes` — a table is right for the keys of the elements of a list.
* `indexes_insert`, `indexes_remove`, `indexes_build` — the operations keep it so.
-/

namespace ClusterScheduler.Cull

open Foundation

/-! ## Values and keys -/

/-- The value of a hashed field; strings and host names may be unset. -/
inductive Value where
  | string (s : Option String)
  | host (h : Option String)
  | ulong (n : ℕ)
  | ulong64 (n : ℕ)
  deriving DecidableEq

inductive Key where
  | string (s : String)
  | host (h : String)
  | ulong (n : ℕ)
  | ulong64 (n : ℕ)
  deriving DecidableEq

abbrev ElemId := ℕ

/-- What a process is set up with: how a host name is brought to its configured
form, and the hash functions. -/
structure Setting where
  hostcpy : String → String
  hashKey : Key → ℕ
  hashPointer : ElemId → ℕ

variable {S : Setting}

/-- The key of a value. Host names are brought to upper case. -/
def cullHashKey (S : Setting) : Value → Option Key
  | .string s => s.map .string
  | .host h => h.map fun h => .host (S.hostcpy h).toUpper
  | .ulong n => some (.ulong n)
  | .ulong64 n => some (.ulong64 n)

/-- The comparison of a search without a table. -/
def fieldEquals (S : Setting) : Value → Value → Bool
  | .string (some a), .string (some b) => a = b
  | .host (some a), .host (some b) => (S.hostcpy a).toLower = (S.hostcpy b).toLower
  | .ulong a, .ulong b => a = b
  | .ulong64 a, .ulong64 b => a = b
  | _, _ => false

/-! ## Tables -/

/-- A table over unique keys counts the inserts that found their key taken. In a
table with chains `fresh` is the next node to be allocated. -/
inductive CullHtable (S : Setting) where
  | unique (ht : HashTable S.hashKey ElemId) (dupCount : ℕ)
  | chained (ht : HashTable S.hashKey Header) (nuht : HashTable S.hashPointer ℕ)
      (heap : Heap ElemId) (fresh : ℕ)

def minCullHashSize : ℕ := 4

def cullHashCreate (unique : Bool) (size : ℕ) : CullHtable S :=
  let size := if size = 0 then minCullHashSize else size
  if unique then .unique (.create size) 0
  else .chained (.create size) (.create size) (fun _ => none) 0

/-- The number of inserts that found the key taken by another element. -/
def countTaken (stored : Option ElemId) (e : ElemId) (dupCount : ℕ) : ℕ :=
  match stored with
  | some other => if other ≠ e then (dupCount + 1) % 2 ^ 32 else dupCount
  | none => dupCount

def cullHashInsert (t : CullHtable S) (e : ElemId) (key : Option Key) : CullHtable S :=
  match key with
  | none => t
  | some k =>
    match t with
    | .unique ht dupCount => .unique (ht.store k e) (countTaken (ht.lookup k) e dupCount)
    | .chained ht nuht heap fresh =>
      match ht.lookup k with
      | some head =>
        match nuht.lookup e with
        | some _ => .chained ht nuht heap fresh
        | none =>
          let new := chainAppend heap head fresh e
          .chained (ht.store k new.2) (nuht.store e fresh) new.1 (fresh + 1)
      | none =>
        let new := chainCreate heap fresh e
        .chained (ht.store k new.2) (nuht.store e fresh) new.1 (fresh + 1)

def storeOrDrop (ht : HashTable S.hashKey Header) (k : Key) (head : Header) :
    HashTable S.hashKey Header :=
  if head.first = none ∧ head.last = none then ht.delete k else ht.store k head

def cullHashRemove (t : CullHtable S) (e : ElemId) (key : Option Key) : CullHtable S :=
  match key with
  | none => t
  | some k =>
    match t with
    | .unique ht dupCount =>
      if dupCount = 0 then .unique (ht.delete k) dupCount
      else if ht.lookup k = some e then .unique (ht.delete k) dupCount
      else .unique ht dupCount
    | .chained ht nuht heap fresh =>
      match ht.lookup k with
      | none => .chained ht nuht heap fresh
      | some head =>
        match nuht.lookup e with
        | none => .chained (storeOrDrop ht k head) nuht heap fresh
        | some n =>
          match heap n with
          | none => .chained ht nuht heap fresh
          | some node =>
            let left := chainUnlink heap head n node
            .chained (storeOrDrop ht k left.2) (nuht.delete e) left.1 fresh

/-- Where a search goes on: at an element of the list, or at a node of a chain. -/
inductive Iterator where
  | null
  | elem (e : ElemId)
  | node (n : ℕ)
  deriving DecidableEq

def cullHashFirst (t : CullHtable S) (k : Key) : Option ElemId × Iterator :=
  match t with
  | .unique ht _ => (ht.lookup k, .null)
  | .chained ht _ heap _ =>
    match (ht.lookup k).bind (·.first) with
    | none => (none, .null)
    | some n => (dataAt heap n, .node n)

/-- Follow a chain. Anything but a node of this table is not a legal iterator. -/
def cullHashNext (t : CullHtable S) (it : Iterator) : Option (Option ElemId × Iterator) :=
  match t, it with
  | .chained _ _ heap _, .node n =>
    (heap n).map fun node =>
      match node.next with
      | none => (none, .null)
      | some m => (dataAt heap m, .node m)
  | _, _ => none

/-- A table over the elements of a list. -/
def cullHashBuild (unique : Bool) (elems : List ElemId) (key : ElemId → Option Key) :
    CullHtable S :=
  elems.foldl (fun t e => cullHashInsert t e (key e))
    (cullHashCreate unique (Nat.size elems.length))

def isUnique : CullHtable S → Bool
  | .unique _ _ => true
  | .chained _ _ _ _ => false

/-! ## Comparing and hashing agree -/

theorem toUpper_eq_iff {a b : String} : a.toUpper = b.toUpper ↔ a.toLower = b.toLower := by
  simp only [String.toUpper, String.toLower, ← String.toList_inj, String.toList_map]
  constructor
  · intro h
    have := congrArg (List.map Char.toLower) h
    simpa [Function.comp_def] using this
  · intro h
    have := congrArg (List.map Char.toUpper) h
    simpa [Function.comp_def] using this

/-- A search without a table and one with a table mean the same elements. -/
theorem fieldEquals_iff {v q : Value} :
    fieldEquals S v q = true ↔ ∃ k, cullHashKey S q = some k ∧ cullHashKey S v = some k := by
  rcases v with (_ | a) | (_ | a) | a | a <;> rcases q with (_ | b) | (_ | b) | b | b <;>
    simp [fieldEquals, cullHashKey, ← toUpper_eq_iff]

/-! ## A table is right for a list -/

/-- No two elements have the same key. -/
def KeysUnique (keyed : ElemId → Option Key) : Prop :=
  ∀ e e' k, keyed e = some k → keyed e' = some k → e = e'

/-- A table over unique keys. Where elements share a key it holds one of them,
and it knows that there are such. -/
structure UniqueIndex (ht : HashTable S.hashKey ElemId) (dupCount : ℕ)
    (keyed : ElemId → Option Key) : Prop where
  sound : ∀ k e, ht.lookup k = some e → keyed e = some k
  complete : ∀ e k, keyed e = some k → ht.lookup k ≠ none
  counted : dupCount = 0 → KeysUnique keyed

/-- A table with chains. `chain` gives the nodes for each key. -/
structure ChainIndex (ht : HashTable S.hashKey Header) (nuht : HashTable S.hashPointer ℕ)
    (heap : Heap ElemId) (fresh : ℕ) (keyed : ElemId → Option Key)
    (chain : Key → List ℕ) : Prop where
  absent : ∀ k, ht.lookup k = none → chain k = []
  present : ∀ k h, ht.lookup k = some h → chain k ≠ [] ∧ IsChain heap h (chain k)
  data : ∀ k n, n ∈ chain k →
    ∃ e, dataAt heap n = some e ∧ keyed e = some k ∧ nuht.lookup e = some n
  node : ∀ e n, nuht.lookup e = some n →
    ∃ k, keyed e = some k ∧ n ∈ chain k ∧ dataAt heap n = some e
  complete : ∀ e k, keyed e = some k → nuht.lookup e ≠ none
  bound : ∀ k n, n ∈ chain k → n < fresh

/-- **Indexes.** `keyed` gives the keys of the elements that have one. -/
def Indexes (t : CullHtable S) (keyed : ElemId → Option Key) : Prop :=
  match t with
  | .unique ht dupCount => UniqueIndex ht dupCount keyed
  | .chained ht nuht heap fresh => ∃ chain, ChainIndex ht nuht heap fresh keyed chain

def dupCount : CullHtable S → ℕ
  | .unique _ n => n
  | .chained _ _ _ _ => 0

namespace ChainIndex

variable {ht : HashTable S.hashKey Header} {nuht : HashTable S.hashPointer ℕ}
  {heap : Heap ElemId} {fresh : ℕ} {keyed : ElemId → Option Key} {chain : Key → List ℕ}

variable {k : Key} {n : ℕ}

variable (h : ChainIndex ht nuht heap fresh keyed chain)
include h

theorem key_eq {k' : Key} (hn : n ∈ chain k) (hn' : n ∈ chain k') : k = k' := by
  obtain ⟨e, he, hk, -⟩ := h.data k n hn
  obtain ⟨e', he', hk', -⟩ := h.data k' n hn'
  obtain rfl := Option.some.inj (he.symm.trans he')
  exact Option.some.inj (hk.symm.trans hk')

theorem ne_fresh (hn : n ∈ chain k) : n ≠ fresh := Nat.ne_of_lt (h.bound k n hn)

theorem exists_header
    (hn : n ∈ chain k) : ∃ head, ht.lookup k = some head ∧ IsChain heap head (chain k) := by
  cases hk : ht.lookup k with
  | none =>
    rw [h.absent k hk] at hn
    simp at hn
  | some head => exact ⟨head, rfl, (h.present k head hk).2⟩

omit h

variable {heap' : Heap ElemId} {head' : Header}

/-- A new node at the end of one chain; the other chains are as before. -/
theorem insert (h : ChainIndex ht nuht heap fresh keyed chain) {e : ElemId} (hnew : keyed e = none)
    (hchain : IsChain heap' head' (chain k ++ [fresh]))
    (hframe : ∀ n, n ∉ chain k → n ≠ fresh → heap' n = heap n)
    (hdata : ∀ n, dataAt heap' n = if n = fresh then some e else dataAt heap n) :
    ChainIndex (ht.store k head') (nuht.store e fresh) heap' (fresh + 1)
      (Function.update keyed e (some k)) (Function.update chain k (chain k ++ [fresh])) where
  absent := by
    intro k' hk'
    rw [HashTable.lookup_store] at hk'
    split_ifs at hk' with heq
    rw [Function.update_of_ne heq]
    exact h.absent k' hk'
  present := by
    intro k' head hk'
    rw [HashTable.lookup_store] at hk'
    split_ifs at hk' with heq
    · subst heq
      cases hk'
      rw [Function.update_self]
      exact ⟨by simp, hchain⟩
    · rw [Function.update_of_ne heq]
      obtain ⟨hne, hc⟩ := h.present k' head hk'
      refine ⟨hne, hc.congr fun n hn => hframe n ?_ ?_⟩
      · exact fun hn' => heq (h.key_eq hn hn')
      · exact h.ne_fresh hn
  data := by
    intro k' n hn
    have hold : n ∈ chain k' → ∃ e', dataAt heap' n = some e' ∧
        Function.update keyed e (some k) e' = some k' ∧
        (nuht.store e fresh).lookup e' = some n := by
      intro hmem
      obtain ⟨e', he', hk', hnode⟩ := h.data k' n hmem
      have hne : e' ≠ e := by
        rintro rfl
        rw [hnew] at hk'
        exact absurd hk' (by simp)
      refine ⟨e', ?_, ?_, ?_⟩
      · rw [hdata, if_neg (h.ne_fresh hmem), he']
      · rw [Function.update_of_ne hne, hk']
      · rw [HashTable.lookup_store, if_neg hne, hnode]
    by_cases heq : k' = k
    · subst heq
      rw [Function.update_self, List.mem_append, List.mem_singleton] at hn
      rcases hn with hn | rfl
      · exact hold hn
      · exact ⟨e, by rw [hdata, if_pos rfl], by rw [Function.update_self],
          by rw [HashTable.lookup_store, if_pos rfl]⟩
    · rw [Function.update_of_ne heq] at hn
      exact hold hn
  node := by
    intro e' n hn
    rw [HashTable.lookup_store] at hn
    split_ifs at hn with heq
    · subst heq
      cases hn
      refine ⟨k, by rw [Function.update_self], ?_, by rw [hdata, if_pos rfl]⟩
      rw [Function.update_self]
      simp
    · obtain ⟨k', hk', hmem, hd⟩ := h.node e' n hn
      refine ⟨k', by rw [Function.update_of_ne heq, hk'], ?_, ?_⟩
      · by_cases hkk : k' = k
        · subst hkk
          rw [Function.update_self]
          exact List.mem_append_left _ hmem
        · rwa [Function.update_of_ne hkk]
      · rw [hdata, if_neg (h.ne_fresh hmem), hd]
  complete := by
    intro e' k' hk'
    rw [HashTable.lookup_store]
    split_ifs with heq
    · simp
    · rw [Function.update_of_ne heq] at hk'
      exact h.complete e' k' hk'
  bound := by
    intro k' n hn
    by_cases heq : k' = k
    · subst heq
      rw [Function.update_self, List.mem_append, List.mem_singleton] at hn
      rcases hn with hn | rfl
      · exact Nat.lt_succ_of_lt (h.bound k' n hn)
      · exact Nat.lt_succ_self n
    · rw [Function.update_of_ne heq] at hn
      exact Nat.lt_succ_of_lt (h.bound k' n hn)

/-- A node taken out of one chain; the other chains are as before. -/
theorem remove (h : ChainIndex ht nuht heap fresh keyed chain) {e : ElemId} {l l' : List ℕ}
    (hkey : keyed e = some k) (hsplit : chain k = l ++ n :: l') (hnode : nuht.lookup e = some n)
    (hchain : IsChain heap' head' (l ++ l')) (hframe : ∀ m, m ∉ l ++ l' → heap' m = heap m)
    (hdata : ∀ m, dataAt heap' m = dataAt heap m) :
    ChainIndex (storeOrDrop ht k head') (nuht.delete e) heap' fresh
      (Function.update keyed e none) (Function.update chain k (l ++ l')) := by
  have hn : n ∈ chain k := by simp [hsplit]
  obtain ⟨head, hhead, hc⟩ := h.exists_header hn
  have hnodup : (l ++ n :: l').Nodup := hsplit ▸ hc.nodup
  obtain ⟨-, hnodup', hdisj⟩ := List.nodup_append.mp hnodup
  have hsub : ∀ m ∈ l ++ l', m ∈ chain k ∧ m ≠ n := by
    intro m hm
    rw [hsplit]
    rcases List.mem_append.mp hm with hm | hm
    · exact ⟨List.mem_append_left _ hm, hdisj m hm n (.head _)⟩
    · refine ⟨List.mem_append_right _ (.tail _ hm), ?_⟩
      rintro rfl
      exact (List.nodup_cons.mp hnodup').1 hm
  have hother : ∀ {k' m}, m ∈ chain k' → m ≠ n →
      m ∈ Function.update chain k (l ++ l') k' := by
    intro k' m hm hne
    by_cases heq : k' = k
    · subst heq
      rw [hsplit, List.mem_append, List.mem_cons] at hm
      rw [Function.update_self, List.mem_append]
      tauto
    · rwa [Function.update_of_ne heq]
  have hback : ∀ {k' m}, m ∈ Function.update chain k (l ++ l') k' →
      m ∈ chain k' ∧ m ≠ n := by
    intro k' m hm
    by_cases heq : k' = k
    · subst heq
      rw [Function.update_self] at hm
      exact hsub m hm
    · rw [Function.update_of_ne heq] at hm
      refine ⟨hm, ?_⟩
      rintro rfl
      exact heq (h.key_eq hm hn)
  have hempty : head'.first = none ∧ head'.last = none ↔ l ++ l' = [] := by
    rw [hchain.first, hchain.last, List.head?_eq_none_iff, List.getLast?_eq_none_iff]
    exact and_self_iff
  have hlookup : ∀ k', (storeOrDrop ht k head').lookup k' =
      if k' = k then (if l ++ l' = [] then none else some head') else ht.lookup k' := by
    intro k'
    unfold storeOrDrop
    by_cases hnil : l ++ l' = []
    · rw [if_pos (hempty.mpr hnil), HashTable.lookup_delete, if_pos hnil]
    · rw [if_neg (fun hh => hnil (hempty.mp hh)), HashTable.lookup_store, if_neg hnil]
  refine ⟨?_, ?_, ?_, ?_, ?_, ?_⟩
  · intro k' hk'
    rw [hlookup] at hk'
    by_cases heq : k' = k
    · subst heq
      rw [if_pos rfl] at hk'
      rw [Function.update_self]
      by_contra hne
      rw [if_neg hne] at hk'
      simp at hk'
    · rw [if_neg heq] at hk'
      rw [Function.update_of_ne heq]
      exact h.absent k' hk'
  · intro k' head'' hk'
    rw [hlookup] at hk'
    by_cases heq : k' = k
    · subst heq
      rw [if_pos rfl] at hk'
      split_ifs at hk' with hnil
      cases hk'
      rw [Function.update_self]
      exact ⟨hnil, hchain⟩
    · rw [if_neg heq] at hk'
      rw [Function.update_of_ne heq]
      obtain ⟨hne, hc'⟩ := h.present k' head'' hk'
      refine ⟨hne, hc'.congr fun m hm => hframe m fun hm' => ?_⟩
      exact heq (h.key_eq hm (hsub m hm').1)
  · intro k' m hm
    obtain ⟨hm', hne⟩ := hback hm
    obtain ⟨e', he', hk', hnode'⟩ := h.data k' m hm'
    have hee : e' ≠ e := by
      rintro rfl
      exact hne (Option.some.inj (hnode'.symm.trans hnode))
    refine ⟨e', by rw [hdata, he'], by rw [Function.update_of_ne hee, hk'], ?_⟩
    rw [HashTable.lookup_delete, if_neg hee, hnode']
  · intro e' m hm
    rw [HashTable.lookup_delete] at hm
    split_ifs at hm with hee
    obtain ⟨k', hk', hmem, hd⟩ := h.node e' m hm
    refine ⟨k', by rw [Function.update_of_ne hee, hk'], hother hmem ?_, by rw [hdata, hd]⟩
    rintro rfl
    obtain ⟨_, -, -, hd'⟩ := h.node e m hnode
    exact hee (Option.some.inj (hd.symm.trans hd'))
  · intro e' k' hk'
    rw [HashTable.lookup_delete]
    split_ifs with hee
    · subst hee
      rw [Function.update_self] at hk'
      simp at hk'
    · rw [Function.update_of_ne hee] at hk'
      exact h.complete e' k' hk'
  · intro k' m hm
    exact h.bound k' m (hback hm).1

end ChainIndex

namespace UniqueIndex

variable {ht : HashTable S.hashKey ElemId} {n : ℕ} {keyed : ElemId → Option Key}

theorem insert (h : UniqueIndex ht n keyed) {e : ElemId} (hnew : keyed e = none) (k : Key)
    (hroom : KeysUnique (Function.update keyed e (some k)) ∨ n + 1 < 2 ^ 32) :
    UniqueIndex (ht.store k e) (countTaken (ht.lookup k) e n)
      (Function.update keyed e (some k)) := by
  have hne : ∀ {e' k'}, keyed e' = some k' → e' ≠ e := by
    rintro e' k' hk' rfl
    rw [hnew] at hk'
    simp at hk'
  refine ⟨?_, ?_, ?_⟩
  · intro k' e' hk'
    rw [HashTable.lookup_store] at hk'
    split_ifs at hk' with heq
    · cases hk'
      rw [Function.update_self, heq]
    · have hold := h.sound k' e' hk'
      rw [Function.update_of_ne (hne hold), hold]
  · intro e' k' hk'
    rw [HashTable.lookup_store]
    split_ifs with heq
    · simp
    · by_cases hee : e' = e
      · rw [hee, Function.update_self] at hk'
        exact absurd (Option.some.inj hk').symm heq
      · rw [Function.update_of_ne hee] at hk'
        exact h.complete e' k' hk'
  · intro hzero
    rcases hroom with hunique | hroom
    · exact hunique
    -- the key was not taken, or the counter would not be zero
    cases hk : ht.lookup k with
    | some other =>
      rw [hk, countTaken, if_pos (hne (h.sound k other hk)), Nat.mod_eq_of_lt hroom] at hzero
      exact absurd hzero (Nat.succ_ne_zero n)
    | none =>
      rw [hk] at hzero
      have hold := h.counted hzero
      intro a b k' ha hb
      by_cases hae : a = e <;> by_cases hbe : b = e
      · rw [hae, hbe]
      · rw [hae, Function.update_self] at ha
        rw [Function.update_of_ne hbe, ← Option.some.inj ha] at hb
        exact absurd hk (h.complete b k hb)
      · rw [hbe, Function.update_self] at hb
        rw [Function.update_of_ne hae, ← Option.some.inj hb] at ha
        exact absurd hk (h.complete a k ha)
      · rw [Function.update_of_ne hae] at ha
        rw [Function.update_of_ne hbe] at hb
        exact hold a b k' ha hb

/-- The entry of an element can go if no other element has the key, and an entry
that is another element's stays. -/
theorem remove (h : UniqueIndex ht n keyed) {e : ElemId} {k : Key} (hkey : keyed e = some k)
    {ht' : HashTable S.hashKey ElemId}
    (hht : ∀ k', ht'.lookup k' = if k' = k ∧ ht.lookup k = some e then none else ht.lookup k')
    (hkeep : ht.lookup k = some e → ∀ e', keyed e' = some k → e' = e) :
    UniqueIndex ht' n (Function.update keyed e none) := by
  refine ⟨?_, ?_, ?_⟩
  · intro k' e' hk'
    rw [hht] at hk'
    split_ifs at hk' with hdel
    have hold := h.sound k' e' hk'
    have hne : e' ≠ e := by
      rintro rfl
      obtain rfl := Option.some.inj (hold.symm.trans hkey)
      exact hdel ⟨rfl, hk'⟩
    rw [Function.update_of_ne hne, hold]
  · intro e' k' hk'
    by_cases hee : e' = e
    · rw [hee, Function.update_self] at hk'
      simp at hk'
    rw [Function.update_of_ne hee] at hk'
    rw [hht]
    split_ifs with hdel
    · obtain ⟨rfl, hstored⟩ := hdel
      exact absurd (hkeep hstored e' hk') hee
    · exact h.complete e' k' hk'
  · intro hzero a b k' ha hb
    have hsome : ∀ {x}, Function.update keyed e none x = some k' → keyed x = some k' := by
      intro x hx
      by_cases hxe : x = e
      · rw [hxe, Function.update_self] at hx
        simp at hx
      · rwa [Function.update_of_ne hxe] at hx
    exact h.counted hzero a b k' (hsome ha) (hsome hb)

end UniqueIndex

/-! ## Inserting and removing -/

@[simp] theorem isUnique_insert (t : CullHtable S) (e : ElemId) (key : Option Key) :
    isUnique (cullHashInsert t e key) = isUnique t := by
  unfold cullHashInsert
  cases key with
  | none => rfl
  | some k =>
    cases t with
    | unique ht n => rfl
    | chained ht nuht heap fresh =>
      dsimp only
      split <;> try split
      all_goals rfl

@[simp] theorem isUnique_remove (t : CullHtable S) (e : ElemId) (key : Option Key) :
    isUnique (cullHashRemove t e key) = isUnique t := by
  unfold cullHashRemove
  cases key with
  | none => rfl
  | some k =>
    cases t with
    | unique ht n =>
      dsimp only
      split_ifs <;> rfl
    | chained ht nuht heap fresh =>
      dsimp only
      split <;> try split
      all_goals try split
      all_goals rfl

variable {t : CullHtable S} {keyed : ElemId → Option Key}

variable {e : ElemId}

/-- **Inserting** an element that has no key yet. The counter of a table over
unique keys has to have room, unless the keys stay unique. -/
theorem indexes_insert (h : Indexes t keyed) (hnew : keyed e = none) (key : Option Key)
    (hroom : isUnique t = true →
      KeysUnique (Function.update keyed e key) ∨ dupCount t + 1 < 2 ^ 32) :
    Indexes (cullHashInsert t e key) (Function.update keyed e key) := by
  cases key with
  | none =>
    have hsame : Function.update keyed e none = keyed := by
      rw [← hnew, Function.update_eq_self]
    rw [hsame]
    exact h
  | some k =>
    cases t with
    | unique ht n => exact UniqueIndex.insert h hnew k (hroom rfl)
    | chained ht nuht heap fresh =>
      obtain ⟨chain, hc⟩ := h
      have hnode : nuht.lookup e = none := by
        cases hn : nuht.lookup e with
        | none => rfl
        | some n =>
          obtain ⟨k', hk', -⟩ := hc.node e n hn
          rw [hnew] at hk'
          simp at hk'
      cases hk : ht.lookup k with
      | none =>
        have hnil := hc.absent k hk
        simp only [cullHashInsert, hk]
        refine ⟨_, hc.insert hnew ?_ ?_ ?_⟩
        · rw [hnil]
          exact isChain_create heap fresh e
        · exact fun n _ hne => Function.update_of_ne hne _ _
        · exact fun n => dataAt_chainCreate heap fresh n e
      | some head =>
        obtain ⟨hne, hchain⟩ := hc.present k head hk
        simp only [cullHashInsert, hk, hnode]
        refine ⟨_, hc.insert hnew (isChain_append hchain hne ?_ e) ?_ ?_⟩
        · exact fun hmem => hc.ne_fresh hmem rfl
        · exact fun n hn hnf => chainAppend_frame hchain hn hnf e
        · exact fun n => dataAt_chainAppend heap head fresh n e

/-- An element is not the entry of a key that other elements have as well. -/
def KeepsKey (t : CullHtable S) (keyed : ElemId → Option Key) (e : ElemId) : Prop :=
  match t with
  | .unique ht _ =>
    ∀ k, keyed e = some k → ht.lookup k = some e → ∀ e', keyed e' = some k → e' = e
  | .chained _ _ _ _ => True

theorem keepsKey_of_unique (h : KeysUnique keyed) (t : CullHtable S) (e : ElemId) :
    KeepsKey t keyed e := by
  cases t with
  | unique ht n => exact fun k hk _ e' he' => h e' e k he' hk
  | chained ht nuht heap fresh => trivial

/-- **Removing** an element. -/
theorem indexes_remove (h : Indexes t keyed) (hkeep : KeepsKey t keyed e) :
    Indexes (cullHashRemove t e (keyed e)) (Function.update keyed e none) := by
  cases hkey : keyed e with
  | none =>
    have hsame : Function.update keyed e none = keyed := by
      rw [← hkey, Function.update_eq_self]
    rw [hsame]
    exact h
  | some k =>
    cases t with
    | unique ht n =>
      have hdelete : ht.lookup k = some e → ∀ k', (ht.delete k).lookup k' =
          if k' = k ∧ ht.lookup k = some e then none else ht.lookup k' := by
        intro hstored k'
        rw [HashTable.lookup_delete]
        simp [hstored]
      simp only [cullHashRemove]
      split_ifs with hzero hstored
      · -- no key was ever taken, so the entry is the element's own
        have hstored : ht.lookup k = some e := by
          cases hk : ht.lookup k with
          | none => exact absurd hk (h.complete e k hkey)
          | some other =>
            rw [h.counted hzero other e k (h.sound k other hk) hkey]
        exact UniqueIndex.remove h hkey (hdelete hstored) (hkeep k hkey)
      · exact UniqueIndex.remove h hkey (hdelete hstored) (hkeep k hkey)
      · exact UniqueIndex.remove h hkey (by simp [hstored]) (hkeep k hkey)
    | chained ht nuht heap fresh =>
      obtain ⟨chain, hc⟩ := h
      obtain ⟨n, hn⟩ := Option.ne_none_iff_exists'.mp (hc.complete e k hkey)
      obtain ⟨k', hk', hmem, hd⟩ := hc.node e n hn
      obtain rfl := Option.some.inj (hk'.symm.trans hkey)
      obtain ⟨head, hhead, hchain⟩ := hc.exists_header hmem
      obtain ⟨l, l', hsplit⟩ := List.append_of_mem hmem
      rw [hsplit] at hchain
      obtain ⟨data, hnode⟩ := hchain.next
      simp only [cullHashRemove, hhead, hn, hnode]
      refine ⟨_, hc.remove hkey hsplit hn (isChain_unlink hchain hnode) ?_ ?_⟩
      · exact fun m hm => chainUnlink_frame hchain hnode hm
      · exact fun m => dataAt_chainUnlink heap head n m _

theorem indexes_create (unique : Bool) (size : ℕ) :
    Indexes (cullHashCreate unique size : CullHtable S) (fun _ => none) := by
  unfold cullHashCreate
  cases unique with
  | true => exact ⟨by simp, by simp, by simp [KeysUnique]⟩
  | false => exact ⟨fun _ => [], by simp, by simp, by simp, by simp, by simp, by simp⟩

theorem dupCount_insert_le (t : CullHtable S) (e : ElemId) (key : Option Key) :
    dupCount (cullHashInsert t e key) ≤ dupCount t + 1 := by
  unfold cullHashInsert
  cases key with
  | none => exact Nat.le_succ _
  | some k =>
    cases t with
    | unique ht n =>
      show countTaken (ht.lookup k) e n ≤ n + 1
      unfold countTaken
      cases ht.lookup k with
      | none => exact Nat.le_succ n
      | some other =>
        dsimp only
        split_ifs
        · exact Nat.mod_le _ _
        · exact Nat.le_succ n
    | chained ht nuht heap fresh =>
      dsimp only
      split <;> try split
      all_goals exact Nat.zero_le _

def keysOf (elems : List ElemId) (key : ElemId → Option Key) (e : ElemId) : Option Key :=
  if e ∈ elems then key e else none

variable {elems : List ElemId} {key : ElemId → Option Key}

theorem keysUnique_of_subset {elems' : List ElemId}
    (h : KeysUnique (keysOf elems key)) (hsub : ∀ e ∈ elems', e ∈ elems) :
    KeysUnique (keysOf elems' key) := by
  have hsome : ∀ {e k}, keysOf elems' key e = some k → keysOf elems key e = some k := by
    intro e k hk
    unfold keysOf at hk ⊢
    split_ifs at hk with hmem
    rwa [if_pos (hsub e hmem)]
  exact fun e e' k he he' => h e e' k (hsome he) (hsome he')

theorem keysOf_append :
    keysOf (elems ++ [e]) key = Function.update (keysOf elems key) e (key e) := by
  funext x
  by_cases hx : x = e
  · rw [hx, Function.update_self]
    simp [keysOf]
  · rw [Function.update_of_ne hx]
    simp [keysOf, hx]

theorem indexes_foldl :
    ∀ (rest : List ElemId) {done : List ElemId} {t : CullHtable S},
      (done ++ rest).Nodup → Indexes t (keysOf done key) → dupCount t ≤ done.length →
      (isUnique t = true →
        KeysUnique (keysOf (done ++ rest) key) ∨ (done ++ rest).length < 2 ^ 32) →
      Indexes (rest.foldl (fun t e => cullHashInsert t e (key e)) t)
        (keysOf (done ++ rest) key)
  | [], done, t, _, h, _, _ => by simpa using h
  | e :: rest, done, t, hnodup, h, hdup, hroom => by
      have hlist : done ++ e :: rest = (done ++ [e]) ++ rest := by simp
      have hnew : keysOf done key e = none := by
        refine if_neg fun hmem => ?_
        exact (List.nodup_append.mp hnodup).2.2 e hmem e (.head _) rfl
      have hins := indexes_insert h hnew (key e) (by
        intro hkind
        rw [← keysOf_append]
        rcases hroom hkind with hunique | hlen
        · refine Or.inl (keysUnique_of_subset hunique fun x hx => ?_)
          rw [hlist]
          exact List.mem_append_left _ hx
        · right
          simp only [List.length_append, List.length_cons] at hlen
          omega)
      rw [← keysOf_append] at hins
      have hle := dupCount_insert_le t e (key e)
      rw [hlist] at hnodup hroom ⊢
      refine indexes_foldl rest hnodup hins ?_ (by rwa [isUnique_insert])
      simp only [List.length_append, List.length_cons, List.length_nil]
      omega

/-- **Building** a table over a list. -/
theorem indexes_build (unique : Bool) (hnodup : elems.Nodup)
    (hroom : unique = true → KeysUnique (keysOf elems key) ∨ elems.length < 2 ^ 32) :
    Indexes (cullHashBuild unique elems key : CullHtable S) (keysOf elems key) := by
  have hcreate : Indexes (cullHashCreate unique (Nat.size elems.length) : CullHtable S)
      (keysOf [] key) := by
    have : keysOf [] key = fun _ => none := by
      funext e
      simp [keysOf]
    rw [this]
    exact indexes_create unique _
  have hdup : dupCount (cullHashCreate unique (Nat.size elems.length) : CullHtable S) ≤
      ([] : List ElemId).length := by
    unfold cullHashCreate
    split_ifs <;> simp [dupCount]
  have h := @indexes_foldl S key elems [] _ (by simpa using hnodup) hcreate hdup
    (by
      intro hkind
      rw [List.nil_append]
      refine hroom ?_
      cases unique with
      | true => rfl
      | false => exact absurd hkind (by simp [cullHashCreate, isUnique]))
  rw [List.nil_append] at h
  exact h

end ClusterScheduler.Cull
