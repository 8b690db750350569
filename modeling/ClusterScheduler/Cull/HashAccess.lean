import ClusterScheduler.Cull.ListOperations

/-!
# Hash access agrees with linear search

* `getElems_spec` — a search finds the matching elements, each once, with or
  without a table.
* `lGetElemsAmong` — a search with lookups of others between its calls.
* `hashAccess_agrees_iff` — so it is in every run in which unique keys are unique, as long as no
  lookup in between builds the table.
-/

namespace ClusterScheduler.Cull

open Foundation

variable {S : Setting} {w : World S} {l : ListId} {pos : ℕ} {q : Value}

def World.matches (w : World S) (pos : ℕ) (q : Value) (e : ElemId) : Bool :=
  fieldEquals S ((w.elem e).cont pos) q

variable {k : Key} {e : ElemId}

theorem matches_iff (hq : cullHashKey S q = some k) :
    w.matches pos q e = true ↔ w.key pos e = some k := by
  rw [World.matches, fieldEquals_iff, hq]
  simp [World.key, eq_comm]

/-! ## Without a table -/

theorem seek_eq (w : World S) (pos : ℕ) (q : Value) (elems : List ElemId) :
    (∀ e ∈ elems, w.matches pos q e = false) ∧ seek w pos q elems = (none, .null) ∨
      ∃ front e rest, elems = front ++ e :: rest ∧
        (∀ x ∈ front, w.matches pos q x = false) ∧ w.matches pos q e = true ∧
        seek w pos q elems = (some e, .elem e) := by
  unfold seek
  cases hfind : elems.find? fun e => fieldEquals S ((w.elem e).cont pos) q with
  | none =>
    refine Or.inl ⟨fun e he => ?_, rfl⟩
    exact Bool.eq_false_iff.mpr (List.find?_eq_none.mp hfind e he)
  | some e =>
    obtain ⟨he, front, rest, hsplit, hfront⟩ := List.find?_eq_some_iff_append.mp hfind
    refine Or.inr ⟨front, e, rest, hsplit, fun x hx => ?_, he, rfl⟩
    exact Bool.not_eq_true' _ ▸ hfront x hx

variable {front rest : List ElemId}

theorem filter_split {p : ElemId → Bool} (hfront : ∀ x ∈ front, p x = false) (he : p e = true) :
    (front ++ e :: rest).filter p = e :: rest.filter p := by
  rw [List.filter_append, List.filter_eq_nil_iff.mpr fun x hx => by simp [hfront x hx],
    List.nil_append, List.filter_cons_of_pos he]

theorem tail_dropWhile (hnodup : (front ++ e :: rest).Nodup) :
    ((front ++ e :: rest).dropWhile (· ≠ e)).tail = rest := by
  have hne : ∀ x ∈ front, x ≠ e := fun x hx =>
    (List.nodup_append.mp hnodup).2.2 x hx e (.head _)
  rw [List.dropWhile_append_of_pos (by simpa using hne)]
  simp

/-- The rest of the list is searched from the element found last. -/
theorem collect_linear (hnodup : (w.list l).elems.Nodup) (htable : (w.list l).tables pos = none) :
    ∀ (fuel : ℕ) {front rest : List ElemId} {e : ElemId},
      (w.list l).elems = front ++ e :: rest → rest.length < fuel →
      collect w l pos q fuel (.elem e) = some (rest.filter (w.matches pos q))
  | 0, _, _, _, _, hfuel => absurd hfuel (Nat.not_lt_zero _)
  | fuel + 1, front, rest, e, hsplit, hfuel => by
      have hnext : lGetElemNext w l pos q (.elem e) = some (seek w pos q rest) := by
        rw [hsplit] at hnodup
        simp only [lGetElemNext, htable, hsplit, tail_dropWhile hnodup]
        simp
      rw [collect, hnext]
      obtain ⟨hno, hseek⟩ | ⟨front', e', rest', hsplit', hfront, he', hseek⟩ :=
        seek_eq w pos q rest
      · rw [hseek, List.filter_eq_nil_iff.mpr fun x hx => by simp [hno x hx]]
      · rw [hseek]
        have hsplit'' : (w.list l).elems = (front ++ e :: front') ++ e' :: rest' := by
          rw [hsplit, hsplit', List.append_assoc, List.cons_append]
        have hlen : rest'.length < fuel := by
          rw [hsplit', List.length_append, List.length_cons] at hfuel
          omega
        dsimp only
        rw [collect_linear hnodup htable fuel hsplit'' hlen, hsplit', filter_split hfront he']
        rfl

/-! ## Along a chain -/

variable {ht : HashTable S.hashKey Header} {nuht : HashTable S.hashPointer ℕ} {heap : Heap ElemId}
  {fresh : ℕ}

theorem collect_chain
    (htable : (w.list l).tables pos = some (.chained ht nuht heap fresh)) {f : ℕ → ElemId} :
    ∀ (fuel : ℕ) {p : Option ℕ} {n : ℕ} {rest : List ℕ}, Seg heap p (n :: rest) none →
      (∀ m ∈ rest, dataAt heap m = some (f m)) → rest.length < fuel →
      collect w l pos q fuel (.node n) = some (rest.map f)
  | 0, _, _, _, _, _, hfuel => absurd hfuel (Nat.not_lt_zero _)
  | fuel + 1, p, n, rest, ⟨⟨data, hn⟩, hrest⟩, hdata, hfuel => by
      rw [collect]
      simp only [lGetElemNext, htable, cullHashNext, hn, Option.map_some]
      cases rest with
      | nil => rfl
      | cons m rest =>
        have hm := hdata m (.head _)
        have hlen : rest.length < fuel := Nat.lt_of_succ_lt_succ hfuel
        have ih := collect_chain htable fuel hrest
          (fun x hx => hdata x (List.mem_cons_of_mem m hx)) hlen
        simp [hm, ih]

theorem chain_elems {keyed : ElemId → Option Key} {chain : Key → List ℕ}
    (h : ChainIndex ht nuht heap fresh keyed chain) (k : Key) :
    ∃ f : ℕ → ElemId, (∀ n ∈ chain k, dataAt heap n = some (f n)) ∧
      ((chain k).map f).Nodup ∧ ∀ e, e ∈ (chain k).map f ↔ keyed e = some k := by
  have hdata : ∀ n, ∃ e, n ∈ chain k →
      dataAt heap n = some e ∧ keyed e = some k ∧ nuht.lookup e = some n := by
    intro n
    by_cases hn : n ∈ chain k
    · obtain ⟨e, he⟩ := h.data k n hn
      exact ⟨e, fun _ => he⟩
    · exact ⟨0, fun hn' => absurd hn' hn⟩
  choose f hf using hdata
  have hnodup : (chain k).Nodup := by
    cases hk : ht.lookup k with
    | none =>
      rw [h.absent k hk]
      exact List.nodup_nil
    | some head => exact (h.present k head hk).2.nodup
  refine ⟨f, fun n hn => (hf n hn).1, ?_, fun e => ?_⟩
  · refine hnodup.map_on fun n hn m hm hnm => ?_
    have := (hf n hn).2.2
    rw [hnm, (hf m hm).2.2] at this
    exact (Option.some.inj this).symm
  · rw [List.mem_map]
    constructor
    · rintro ⟨n, hn, rfl⟩
      exact (hf n hn).2.1
    · intro he
      obtain ⟨n, hn⟩ := Option.ne_none_iff_exists'.mp (h.complete e k he)
      obtain ⟨k', hk', hmem, hd⟩ := h.node e n hn
      obtain rfl := Option.some.inj (hk'.symm.trans he)
      exact ⟨n, hmem, Option.some.inj ((hf n hmem).1.symm.trans hd)⟩

/-! ## All matches -/

/-- What a search has to find. -/
structure Finds (w : World S) (l : ListId) (pos : ℕ) (q : Value) (found : List ElemId) :
    Prop where
  nodup : found.Nodup
  exact : ∀ e, e ∈ found ↔ e ∈ (w.list l).elems ∧ w.matches pos q e = true

theorem finds_filter (hnodup : (w.list l).elems.Nodup) :
    Finds w l pos q ((w.list l).elems.filter (w.matches pos q)) where
  nodup := hnodup.filter _
  exact := fun _ => List.mem_filter

variable {found : List ElemId}

theorem finds_of_key (hq : cullHashKey S q = some k)
    (hnodup : found.Nodup) (hmem : ∀ e, e ∈ found ↔ w.keys l pos e = some k) :
    Finds w l pos q found where
  nodup := hnodup
  exact := by
    intro e
    rw [hmem, matches_iff hq, World.keys, keysOf]
    split_ifs with he <;> simp [he]

theorem Finds.length_le (h : Finds w l pos q found) : found.length ≤ (w.list l).elems.length :=
  (h.nodup.subperm fun e he => ((h.exact e).mp he).1).length_le

def firstMatch (w : World S) (l : ListId) (pos : ℕ) (q : Value) (k : Key) :
    Option ElemId × Iterator :=
  match (w.list l).tables pos with
  | some t => cullHashFirst t k
  | none => seek w pos q (w.list l).elems

theorem lGetElemFirst_eq (hq : cullHashKey S q = some k) {minElems : ℕ} {w' : World S}
    {t : Option (CullHtable S)} (hlookup : cullHashLookupTable w l pos minElems = (w', t))
    (htable : (w'.list l).tables pos = t) :
    lGetElemFirst w l pos minElems q = (w', firstMatch w' l pos q k) := by
  rw [lGetElemFirst, hq, firstMatch, htable]
  dsimp only
  rw [hlookup]
  cases t <;> rfl

/-- The first match and all that follow. -/
def allFrom (w : World S) (l : ListId) (pos : ℕ) (q : Value) (fuel : ℕ) :
    Option ElemId × Iterator → Option (List ElemId)
  | (none, _) => some []
  | (some e, it) => (collect w l pos q fuel it).map (e :: ·)

structure FieldOk (w : World S) (l : ListId) (pos : ℕ) : Prop where
  nodup : (w.list l).elems.Nodup
  table : ∀ t, (w.list l).tables pos = some t → TableOk w l pos t

theorem WorldOk.field (h : WorldOk w) (l : ListId) (pos : ℕ) : FieldOk w l pos :=
  ⟨h.nodup l, h.table l pos⟩

/-- A search in a list whose table, if there is one, is right. -/
theorem allFrom_spec (h : FieldOk w l pos) (hq : cullHashKey S q = some k)
    (hunique : ((w.list l).descr pos).hash = true → ((w.list l).descr pos).unique = true →
      KeysUnique (w.keys l pos)) :
    ∃ found, Finds w l pos q found ∧ ∀ fuel, (w.list l).elems.length < fuel →
      allFrom w l pos q fuel (firstMatch w l pos q k) = some found := by
  unfold firstMatch
  cases htable : (w.list l).tables pos with
  | none =>
    refine ⟨_, finds_filter h.nodup, fun fuel hfuel => ?_⟩
    obtain ⟨hno, hseek⟩ | ⟨front, e, rest, hsplit, hfront, he, hseek⟩ :=
      seek_eq w pos q (w.list l).elems
    · rw [hseek, List.filter_eq_nil_iff.mpr fun x hx => by simp [hno x hx]]
      rfl
    · have hlen : rest.length < fuel := by
        rw [hsplit, List.length_append, List.length_cons] at hfuel
        omega
      rw [hseek, allFrom, hsplit, filter_split hfront he,
        collect_linear h.nodup htable fuel hsplit hlen]
      rfl
  | some t =>
    have hok := h.table t htable
    have hindex := hok.indexes
    cases t with
    | unique ht n =>
      have hkeys := hunique hok.hashed.2 (hok.kind ▸ rfl)
      have hmem : ∀ e, ht.lookup k = some e ↔ w.keys l pos e = some k := by
        intro e
        refine ⟨hindex.sound k e, fun he => ?_⟩
        obtain ⟨e', he'⟩ := Option.ne_none_iff_exists'.mp (hindex.complete e k he)
        rw [he', hkeys e' e k (hindex.sound k e' he') he]
      refine ⟨(ht.lookup k).toList, finds_of_key hq ?_ ?_, fun fuel hfuel => ?_⟩
      · cases ht.lookup k <;> simp
      · intro e
        rw [← hmem, Option.mem_toList]
      · obtain ⟨fuel, rfl⟩ := Nat.exists_eq_succ_of_ne_zero (Nat.ne_zero_of_lt hfuel)
        dsimp only [cullHashFirst]
        cases ht.lookup k with
        | none => rfl
        | some e => rfl
    | chained ht nuht heap fresh =>
      obtain ⟨chain, hc⟩ := hindex
      obtain ⟨f, hdata, hnodup, hmem⟩ := chain_elems hc k
      have hfinds := finds_of_key hq hnodup hmem
      refine ⟨_, hfinds, fun fuel hfuel => ?_⟩
      dsimp only [cullHashFirst]
      cases hk : ht.lookup k with
      | none =>
        rw [hc.absent k hk]
        rfl
      | some head =>
        obtain ⟨hne, hchain⟩ := hc.present k head hk
        obtain ⟨n, rest, hnodes⟩ := List.exists_cons_of_ne_nil hne
        have hhead : head.first = some n := by
          rw [hchain.first, hnodes, List.head?_cons]
        have hlen : rest.length < fuel := by
          have hle := hfinds.length_le
          rw [List.length_map, hnodes, List.length_cons] at hle
          omega
        have hlinked := hchain.linked
        rw [hnodes] at hlinked hdata ⊢
        have hcollect := collect_chain (q := q) htable fuel
          hlinked (fun m hm => hdata m (List.mem_cons_of_mem n hm)) hlen
        simp [hhead, hdata n List.mem_cons_self, allFrom, hcollect]

/-- **Searching.** With or without a table, and whether or not the search builds
one, the matching elements are found, each once. -/
theorem getElems_spec (h : WorldOk w) (l : ListId) (pos minElems : ℕ) (q : Value)
    (hunique : ((w.list l).descr pos).hash = true → ((w.list l).descr pos).unique = true →
      KeysUnique (w.keys l pos)) :
    ∃ found, Finds w l pos q found ∧ ∀ fuel, (w.list l).elems.length < fuel →
      lGetElems w l pos minElems q fuel = some found := by
  cases hq : cullHashKey S q with
  | none =>
    refine ⟨[], ⟨List.nodup_nil, fun e => ?_⟩, fun fuel _ => ?_⟩
    · rw [World.matches, fieldEquals_iff, hq]
      simp
    · rw [lGetElems, lGetElemFirst, hq]
  | some k =>
    have hlookup := lookupTable_spec h l pos minElems fun hh hu => Or.inl (hunique hh hu)
    rcases hr : cullHashLookupTable w l pos minElems with ⟨w', t⟩
    rw [hr] at hlookup
    obtain ⟨hok, helem, hlist⟩ := hlookup
    dsimp only at hok helem hlist
    have htable : (w'.list l).tables pos = t := by
      rw [hlist]
      exact Function.update_self ..
    have hget : ∀ fuel, lGetElems w l pos minElems q fuel =
        allFrom w' l pos q fuel (firstMatch w' l pos q k) := by
      intro fuel
      rw [lGetElems, lGetElemFirst_eq hq hr htable]
      rcases firstMatch w' l pos q k with ⟨_ | e, it⟩ <;> rfl
    have hkeys : w'.keys l pos = w.keys l pos := by
      unfold World.keys World.key
      rw [hlist, helem]
    have hmatches : w'.matches pos q = w.matches pos q := by
      unfold World.matches
      rw [helem]
    obtain ⟨found, hfinds, hall⟩ := allFrom_spec (hok.field l pos) hq (by
      rw [hlist, hkeys]
      exact hunique)
    refine ⟨found, ⟨hfinds.nodup, fun e => ?_⟩, fun fuel hfuel => ?_⟩
    · rw [hfinds.exact, hmatches, hlist]
    · rw [hget]
      refine hall fuel ?_
      rw [hlist]
      exact hfuel

/-! ## In every run -/

def withoutTables (w : World S) (l : ListId) : World S :=
  w.setList l (cullHashFreeTables (w.list l))

theorem worldOk_unique_reach (h : Reach (fun _ _ w' => UniqueKeys w') w) :
    WorldOk w ∧ UniqueKeys w := by
  induction h with
  | start hinit => exact ⟨worldOk_initial hinit, uniqueKeys_initial hinit⟩
  | step _ hexec hu ih =>
    obtain ⟨hok, hu₀⟩ := ih
    refine ⟨worldOk_exec hok hexec (Or.inl ⟨hu₀, hu⟩) ?_, hu⟩
    rintro e pos value rfl _ l howner t ht
    have htable := hok.table l pos t ht
    cases hkind : isUnique t with
    | true =>
      have hon : UniqueOn _ l _ := hu₀ l
      exact keepsKey_of_unique (hon.keysUnique hok ht hkind) t e
    | false =>
      cases t with
      | unique ht n => exact absurd hkind (by simp [isUnique])
      | chained ht nuht heap fresh => trivial

/-! ## Lookups in between -/

/-- A lookup of a reader, with the threshold of its thread. -/
structure Lookup where
  l : ListId
  pos : ℕ
  minElems : ℕ
  q : Value

def lookUp (w : World S) (c : Lookup) : World S := (lGetElemFirst w c.l c.pos c.minElems c.q).1

/-- The `Next` calls of a search, with lookups before each of them. -/
def collectAmong (l : ListId) (pos : ℕ) (q : Value) :
    (ℕ → List Lookup) → ℕ → World S → Iterator → Option (List ElemId)
  | _, 0, _, _ => none
  | between, fuel + 1, w, it =>
    let w := (between 0).foldl lookUp w
    match lGetElemNext w l pos q it with
    | none => none
    | some (none, _) => some []
    | some (some e, it) => (collectAmong l pos q (fun n => between (n + 1)) fuel w it).map (e :: ·)

def lGetElemsAmong (w : World S) (l : ListId) (pos minElems : ℕ) (q : Value)
    (between : ℕ → List Lookup) (fuel : ℕ) : Option (List ElemId) :=
  match lGetElemFirst w l pos minElems q with
  | (_, none, _) => some []
  | (w, some e, it) => (collectAmong l pos q between fuel w it).map (e :: ·)

/-- A search would build the table of the field. -/
def Builds (w : World S) (l : ListId) (pos minElems : ℕ) (q : Value) : Prop :=
  cullHashKey S q ≠ none ∧ (w.list l).tables pos = none ∧
    ((w.list l).hashable = true ∧ ((w.list l).descr pos).hash = true) ∧
    minElems ≤ (w.list l).elems.length

def Lookup.BuildsTable (w : World S) (l : ListId) (pos : ℕ) (c : Lookup) : Prop :=
  c.l = l ∧ c.pos = pos ∧ Builds w l pos c.minElems c.q

structure SameTable (l : ListId) (pos : ℕ) (w w' : World S) : Prop where
  elem : w'.elem = w.elem
  elems : (w'.list l).elems = (w.list l).elems
  descr : (w'.list l).descr = (w.list l).descr
  hashable : (w'.list l).hashable = (w.list l).hashable
  table : (w'.list l).tables pos = (w.list l).tables pos

variable {w' : World S} {c : Lookup} {cs : List Lookup} {between : ℕ → List Lookup} {it : Iterator}
  {fuel : ℕ}

theorem SameTable.trans {w'' : World S} (h : SameTable l pos w w') (h' : SameTable l pos w' w'') :
    SameTable l pos w w'' :=
  ⟨h'.elem.trans h.elem, h'.elems.trans h.elems, h'.descr.trans h.descr,
    h'.hashable.trans h.hashable, h'.table.trans h.table⟩

theorem SameTable.next (h : SameTable l pos w w') (it : Iterator) :
    lGetElemNext w' l pos q it = lGetElemNext w l pos q it := by
  unfold lGetElemNext seek
  rw [h.elem, h.elems, h.table]

theorem SameTable.builds (h : SameTable l pos w w') (c : Lookup) :
    c.BuildsTable w' l pos ↔ c.BuildsTable w l pos := by
  unfold Lookup.BuildsTable Builds
  rw [h.elems, h.descr, h.hashable, h.table]

theorem lookUp_cases (w : World S) (c : Lookup) :
    lookUp w c = w ∨ Builds w c.l c.pos c.minElems c.q ∧ ∃ fresh, lookUp w c =
      w.setList c.l { w.list c.l with
        tables := Function.update (w.list c.l).tables c.pos (some fresh) } := by
  unfold lookUp lGetElemFirst
  cases hq : cullHashKey S c.q with
  | none => exact .inl rfl
  | some k =>
    unfold cullHashLookupTable
    dsimp only
    by_cases hfield : (w.list c.l).hashable = false ∨ ((w.list c.l).descr c.pos).hash = false
    · rw [if_pos hfield]
      exact .inl rfl
    rw [if_neg hfield]
    cases ht : (w.list c.l).tables c.pos with
    | some t => exact .inl rfl
    | none =>
      dsimp only
      split_ifs with hshort
      · exact .inl rfl
      · rw [not_or, Bool.not_eq_false, Bool.not_eq_false] at hfield
        exact .inr ⟨⟨by simp [hq], ht, hfield, Nat.le_of_not_lt hshort⟩, _, rfl⟩

theorem sameTable_lookUp (h : ¬ c.BuildsTable w l pos) : SameTable l pos w (lookUp w c) := by
  obtain heq | ⟨hbuild, fresh, heq⟩ := lookUp_cases w c
  · rw [heq]
    exact ⟨rfl, rfl, rfl, rfl, rfl⟩
  rw [heq]
  by_cases hl : c.l = l
  · subst hl
    have hpos : pos ≠ c.pos := fun hpos => h ⟨rfl, hpos.symm, hpos ▸ hbuild⟩
    constructor <;> simp [World.setList, Function.update_of_ne hpos]
  · constructor <;> simp [World.setList, Function.update_of_ne (Ne.symm hl)]

/-- A table is not taken away, and there is one when a lookup has built it. -/
theorem table_lookUp (h : c.BuildsTable w l pos ∨ (w.list l).tables pos ≠ none) :
    ((lookUp w c).list l).tables pos ≠ none := by
  by_cases hbuild : c.BuildsTable w l pos
  · obtain ⟨rfl, rfl, hq, hnone, ⟨hhash, hfield⟩, hlong⟩ := hbuild
    obtain ⟨k, hk⟩ := Option.ne_none_iff_exists'.mp hq
    unfold lookUp lGetElemFirst cullHashLookupTable
    simp [hk, hhash, hfield, hnone, Nat.not_lt.mpr hlong, World.setList]
  · rw [(sameTable_lookUp hbuild).table]
    exact h.resolve_left hbuild

theorem sameTable_lookUps (h : ∀ c ∈ cs, ¬ c.BuildsTable w l pos) :
    SameTable l pos w (cs.foldl lookUp w) := by
  induction cs generalizing w with
  | nil => exact ⟨rfl, rfl, rfl, rfl, rfl⟩
  | cons c cs ih =>
    obtain ⟨hc, hcs⟩ := List.forall_mem_cons.mp h
    have hsame := sameTable_lookUp hc
    exact hsame.trans (ih fun c' hc' => (hsame.builds c').not.mpr (hcs c' hc'))

theorem table_lookUps (h : (∃ c ∈ cs, c.BuildsTable w l pos) ∨ (w.list l).tables pos ≠ none) :
    ((cs.foldl lookUp w).list l).tables pos ≠ none := by
  induction cs generalizing w with
  | nil => exact h.resolve_left (by simp)
  | cons c cs ih =>
    apply ih
    by_cases hc : c.BuildsTable w l pos
    · exact .inr (table_lookUp (.inl hc))
    · have hsame := sameTable_lookUp hc
      rw [hsame.table]
      refine h.imp_left ?_
      rintro ⟨c', hmem, hbuild⟩
      rcases List.mem_cons.mp hmem with rfl | hmem
      · exact absurd hbuild hc
      · exact ⟨c', hmem, (hsame.builds c').mpr hbuild⟩

/-- A search that is under way in the list takes its element for a node once the
table of the field is there. -/
theorem publish_confuses {t : CullHtable S} (htable : (w.list l).tables pos = some t)
    (e : ElemId) : lGetElemNext w l pos q (.elem e) = none := by
  unfold lGetElemNext
  rw [if_neg (by simp), htable]
  cases t <;> rfl

theorem collectAmong_eq (hsame : SameTable l pos w w')
    (hcollect : collect w l pos q fuel it = some rest)
    (hquiet : ∀ n ≤ rest.length, ∀ c ∈ between n, ¬ c.BuildsTable w l pos) :
    collectAmong l pos q between fuel w' it = some rest := by
  induction fuel generalizing w' between it rest with
  | zero => cases hcollect
  | succ fuel ih =>
    have hnow : SameTable l pos w ((between 0).foldl lookUp w') :=
      hsame.trans (sameTable_lookUps fun c hc =>
        (hsame.builds c).not.mpr (hquiet 0 (Nat.zero_le _) c hc))
    rw [collect] at hcollect
    rw [collectAmong, hnow.next]
    cases hnext : lGetElemNext w l pos q it with
    | none =>
      rw [hnext] at hcollect
      cases hcollect
    | some res =>
      obtain ⟨_ | e, it'⟩ := res
      · rw [hnext] at hcollect
        exact hcollect
      · rw [hnext] at hcollect
        obtain ⟨rest', hrest', rfl⟩ := Option.map_eq_some_iff.mp hcollect
        dsimp only
        rw [ih hnow hrest' fun n hn => hquiet (n + 1) (Nat.succ_le_succ hn)]
        rfl

/-- A search in the list that comes to its end was not disturbed. -/
theorem quiet_of_collectAmong {e : ElemId} (htable : (w.list l).tables pos = none)
    (hcollect : collectAmong l pos q between fuel w (.elem e) = some rest) :
    ∀ n ≤ rest.length, ∀ c ∈ between n, ¬ c.BuildsTable w l pos := by
  induction fuel generalizing w between e rest with
  | zero => cases hcollect
  | succ fuel ih =>
    rw [collectAmong] at hcollect
    have hnow : ∀ c ∈ between 0, ¬ c.BuildsTable w l pos := by
      intro c hc hbuild
      obtain ⟨t, ht⟩ := Option.ne_none_iff_exists'.mp (table_lookUps (.inl ⟨c, hc, hbuild⟩))
      rw [publish_confuses ht] at hcollect
      cases hcollect
    have hsame := sameTable_lookUps hnow
    have hnext : lGetElemNext w l pos q (.elem e) =
        some (seek w pos q ((w.list l).elems.dropWhile (· ≠ e)).tail) := by
      rw [lGetElemNext, if_neg (by simp), htable]
    rw [hsame.next, hnext] at hcollect
    obtain ⟨-, hseek⟩ | ⟨_, e', _, -, -, -, hseek⟩ :=
      seek_eq w pos q ((w.list l).elems.dropWhile (· ≠ e)).tail
    · rw [hseek] at hcollect
      obtain rfl : rest = [] := (Option.some.inj hcollect).symm
      intro n hn c hc
      obtain rfl := Nat.le_zero.mp hn
      exact hnow c hc
    · rw [hseek] at hcollect
      obtain ⟨rest', hrest', rfl⟩ := Option.map_eq_some_iff.mp hcollect
      intro n hn c hc
      cases n with
      | zero => exact hnow c hc
      | succ n =>
        rw [← hsame.builds c]
        exact ih (hsame.table.trans htable) hrest' n (Nat.le_of_succ_le_succ hn) c hc

/-- Without a table the first match is found in the list. -/
theorem first_iterator {minElems : ℕ} (hfirst : lGetElemFirst w l pos minElems q = (w', some e, it))
    (htable : (w'.list l).tables pos = none) : it = .elem e := by
  have hseek : seek w pos q (w.list l).elems = (some e, it) → it = .elem e := by
    intro h
    obtain ⟨-, hnone⟩ | ⟨_, e', _, -, -, -, hsome⟩ := seek_eq w pos q (w.list l).elems
    · cases hnone.symm.trans h
    · cases hsome.symm.trans h
      rfl
  unfold lGetElemFirst at hfirst
  cases hq : cullHashKey S q with
  | none => simp [hq] at hfirst
  | some k =>
    rw [hq] at hfirst
    unfold cullHashLookupTable at hfirst
    dsimp only at hfirst
    by_cases hfield : (w.list l).hashable = false ∨ ((w.list l).descr pos).hash = false
    · rw [if_pos hfield] at hfirst
      exact hseek (Prod.mk.inj hfirst).2
    rw [if_neg hfield] at hfirst
    cases ht : (w.list l).tables pos with
    | some t =>
      rw [ht] at hfirst
      obtain ⟨rfl, -⟩ := Prod.mk.inj hfirst
      exact absurd (ht.symm.trans htable) (by simp)
    | none =>
      rw [ht] at hfirst
      dsimp only at hfirst
      split_ifs at hfirst
      · exact hseek (Prod.mk.inj hfirst).2
      · obtain ⟨rfl, -⟩ := Prod.mk.inj hfirst
        simp [World.setList] at htable

/-- A search with lookups in between gives the matching elements, each once, and so does one
without the tables whose threshold the list does not reach. -/
structure HashAgrees (w : World S) (l : ListId) (pos minElems : ℕ) (q : Value)
    (between : ℕ → List Lookup) (found linear : List ElemId) : Prop where
  among : ∀ fuel, (w.list l).elems.length < fuel →
    lGetElemsAmong w l pos minElems q between fuel = some found
  without : ∀ fuel, (w.list l).elems.length < fuel →
    lGetElems (withoutTables w l) l pos ((w.list l).elems.length + 1) q fuel = some linear
  nodup : found.Nodup
  exact : ∀ e, e ∈ found ↔ e ∈ (w.list l).elems ∧ fieldEquals S ((w.elem e).cont pos) q = true
  perm : found.Perm linear

/-- **Hash access agrees with linear search** in every run in which no two elements have the same
key of a field declared unique, if and only if none of the lookups between the first call and the
last builds the table of the field. -/
theorem hashAccess_agrees_iff (h : Reach (fun _ _ w' => UniqueKeys w') w) (l : ListId)
    (pos minElems : ℕ) (q : Value) (between : ℕ → List Lookup) :
    (∃ found linear, HashAgrees w l pos minElems q between found linear) ↔
      ∀ n < ((w.list l).elems.filter fun e => fieldEquals S ((w.elem e).cont pos) q).length,
        ∀ c ∈ between n, ¬ c.BuildsTable (lGetElemFirst w l pos minElems q).1 l pos := by
  obtain ⟨hok, hu⟩ := worldOk_unique_reach h
  have hcount : ∀ {found}, Finds w l pos q found → found.length =
      ((w.list l).elems.filter fun e => fieldEquals S ((w.elem e).cont pos) q).length := by
    intro found hfinds
    refine ((List.perm_ext_iff_of_nodup hfinds.nodup ((hok.nodup l).filter _)).mpr
      fun e => ?_).length_eq
    rw [hfinds.exact, List.mem_filter]
    exact Iff.rfl
  constructor
  · rintro ⟨found, linear, hagree⟩ n hn c hc hbuild
    have hrun := hagree.among _ (Nat.lt_succ_self _)
    rw [← hcount ⟨hagree.nodup, hagree.exact⟩] at hn
    rw [lGetElemsAmong] at hrun
    rcases hfirst : lGetElemFirst w l pos minElems q with ⟨w', _ | e, it⟩
    · rw [hfirst] at hrun
      obtain rfl := Option.some.inj hrun
      exact absurd hn (Nat.not_lt_zero n)
    · rw [hfirst] at hrun hbuild
      obtain ⟨rest, hrest, rfl⟩ := Option.map_eq_some_iff.mp hrun
      have htable := hbuild.2.2.2.1
      obtain rfl := first_iterator hfirst htable
      exact quiet_of_collectAmong htable hrest n (Nat.le_of_lt_succ hn) c hc hbuild
  · intro hquiet
    have hok' : WorldOk (withoutTables w l) :=
      worldOk_setTables hok fun pos t ht => absurd ht (by simp)
    have helems : ((withoutTables w l).list l).elems = (w.list l).elems := by
      rw [withoutTables, World.list_setList]
      rfl
    have hdescr : ((withoutTables w l).list l).descr = (w.list l).descr := by
      rw [withoutTables, World.list_setList]
      rfl
    obtain ⟨found, hfinds, hfound⟩ := getElems_spec hok l pos minElems q (hu l pos)
    obtain ⟨linear, hfinds', hlinear⟩ := getElems_spec hok' l pos
      ((w.list l).elems.length + 1) q (by
        rw [hdescr, World.keys, helems]
        exact hu l pos)
    rw [helems] at hlinear
    refine ⟨found, linear, fun fuel hfuel => ?_, hlinear, hfinds.nodup, hfinds.exact, ?_⟩
    · have hall := hfound fuel hfuel
      rw [lGetElems] at hall
      rw [lGetElemsAmong]
      rcases hfirst : lGetElemFirst w l pos minElems q with ⟨w', _ | e, it⟩
      · rw [hfirst] at hall
        exact hall
      · rw [hfirst] at hall hquiet
        obtain ⟨rest, hrest, rfl⟩ := Option.map_eq_some_iff.mp hall
        have hlen := hcount hfinds
        rw [List.length_cons] at hlen
        dsimp only
        rw [collectAmong_eq ⟨rfl, rfl, rfl, rfl, rfl⟩ hrest fun n hn => hquiet n (by omega)]
        rfl
    · rw [List.perm_ext_iff_of_nodup hfinds.nodup hfinds'.nodup]
      intro e
      rw [hfinds.exact, hfinds'.exact, helems]
      exact Iff.rfl

def smallWorld : World smallSetting where
  list _ := ⟨fun _ => ⟨true, false⟩, true, [], fun _ => none⟩
  elem e := ⟨fun _ => .ulong (if e < 2 then 7 else 8), none⟩

def smallOps : List Op :=
  [.append 0 0, .append 0 1, .search 0 0 0 (.ulong 7), .append 0 2, .set 2 0 (.ulong 7),
    .dechain 0 0]

theorem reach_small {ops : List Op} {w : World smallSetting} (hw : run smallWorld ops = some w) :
    Reach (fun _ _ w' => UniqueKeys w') w := by
  refine reach_run (P := fun w => ∀ l pos, ((w.list l).descr pos).unique = false)
    (.start ⟨fun _ => rfl, fun _ _ => rfl, fun _ => rfl⟩) (fun _ _ => rfl) hw ?_
  intro op _ w w' hplain hexec
  have hplain' : ∀ l pos, ((w'.list l).descr pos).unique = false := by
    intro l pos
    rw [descr_exec hexec, hplain]
  refine ⟨fun l pos _ hunique => ?_, hplain'⟩
  rw [hplain'] at hunique
  exact absurd hunique (by simp)

/-- The field has its table, and lookups on it and on another list come in between. -/
theorem hashAccess_agrees_small : ∃ w, run smallWorld smallOps = some w ∧
    (w.list 0).elems = [1, 2] ∧ ∃ found linear,
      HashAgrees w 0 0 0 (.ulong 7) (fun _ => [⟨0, 0, 0, .ulong 8⟩, ⟨1, 0, 0, .ulong 7⟩]) found
        linear := by
  have hsome : (run smallWorld smallOps).isSome = true := by decide +kernel
  obtain ⟨w, hw⟩ := Option.isSome_iff_exists.mp hsome
  have hfacts : (run smallWorld smallOps).map (fun w => ((w.list 0).elems,
      (((lGetElemFirst w 0 0 0 (.ulong 7)).1.list 0).tables 0).isSome)) = some ([1, 2], true) := by
    decide +kernel
  rw [hw] at hfacts
  obtain ⟨helems, htable⟩ := Prod.mk.inj (Option.some.inj hfacts)
  refine ⟨w, hw, helems, (hashAccess_agrees_iff (reach_small hw) 0 0 0 _ _).mpr ?_⟩
  rintro n - c - ⟨-, -, -, hnone, -⟩
  rw [hnone] at htable
  cases htable

/-- A search that is under way in a list without a table when a lookup builds it. -/
theorem hashAccess_disturbed : ∃ w, Reach (fun _ _ w' => UniqueKeys w') w ∧
    (w.list 0).elems = [0, 1] ∧
    ¬ ∃ found linear, HashAgrees (S := smallSetting) w 0 0 5 (.ulong 7)
      (fun _ => [⟨0, 0, 0, .ulong 7⟩]) found linear := by
  have hsome : (run smallWorld [.append 0 0, .append 0 1]).isSome = true := by decide +kernel
  obtain ⟨w, hw⟩ := Option.isSome_iff_exists.mp hsome
  have hfacts : (run smallWorld [.append 0 0, .append 0 1]).map (fun w => ((w.list 0).elems,
      lGetElemsAmong w 0 0 5 (.ulong 7) (fun _ => [⟨0, 0, 0, .ulong 7⟩]) 3)) =
        some ([0, 1], none) := by
    decide +kernel
  rw [hw] at hfacts
  obtain ⟨helems, hlost⟩ := Prod.mk.inj (Option.some.inj hfacts)
  refine ⟨w, reach_small hw, helems, ?_⟩
  rintro ⟨found, linear, hagree⟩
  have hfound := hagree.among 3 (by rw [helems]; decide)
  cases hlost.symm.trans hfound

end ClusterScheduler.Cull
