import ClusterScheduler.Cull.ListOperations

/-!
# Unique tables and duplicate keys

Elements may share a key of a field that is declared unique. The table has room
for one of them. Taking an element out of the list repairs the table; setting
the field does not.

* `uniqueTable_survives` — a lookup finds a key as long as the list has it, in
  runs in which no set takes away the entry of a shared key.
-/

namespace ClusterScheduler.Cull

open Foundation

variable {S : Setting} {w : World S} {l : ListId} {pos : ℕ} {k : Key}

/-- What a lookup has to return. -/
structure FindsKey (w : World S) (l : ListId) (pos : ℕ) (k : Key)
    (found : Option ElemId) : Prop where
  complete : found ≠ none ↔ ∃ e ∈ (w.list l).elems, w.key pos e = some k
  sound : ∀ e, found = some e → e ∈ (w.list l).elems ∧ w.key pos e = some k

variable {e : ElemId}

theorem keys_eq_some : w.keys l pos e = some k ↔ e ∈ (w.list l).elems ∧ w.key pos e = some k := by
  unfold World.keys keysOf
  split_ifs with he <;> simp [he]

/-- A lookup is complete if it finds something whenever there is something. -/
theorem findsKey_of {found : Option ElemId} (hsound : ∀ e, found = some e → w.keys l pos e = some k)
    (hcomplete : ∀ e, w.keys l pos e = some k → found ≠ none) : FindsKey w l pos k found where
  complete := by
    constructor
    · intro hfound
      obtain ⟨e, he⟩ := Option.ne_none_iff_exists'.mp hfound
      exact ⟨e, keys_eq_some.mp (hsound e he)⟩
    · rintro ⟨e, he⟩
      exact hcomplete e (keys_eq_some.mpr he)
  sound := fun e he => keys_eq_some.mp (hsound e he)

theorem findsKey_table {t : CullHtable S} (h : Indexes t (w.keys l pos)) :
    FindsKey w l pos k (cullHashFirst t k).1 := by
  cases t with
  | unique ht n => exact findsKey_of (fun e => h.sound k e) fun e => h.complete e k
  | chained ht nuht heap fresh =>
    obtain ⟨chain, hc⟩ := h
    have hfirst : (cullHashFirst (.chained ht nuht heap fresh : CullHtable S) k).1 =
        (chain k).head?.bind (dataAt heap) := by
      unfold cullHashFirst
      dsimp only
      cases hk : ht.lookup k with
      | none =>
        rw [hc.absent k hk]
        rfl
      | some head =>
        rw [Option.bind_some, (hc.present k head hk).2.first]
        cases (chain k).head? <;> rfl
    rw [hfirst]
    refine findsKey_of (fun e he => ?_) fun e he hnone => ?_
    · obtain ⟨n, hn, hd⟩ := Option.bind_eq_some_iff.mp he
      obtain ⟨e', he', hk', -⟩ := hc.data k n (List.mem_of_head? hn)
      obtain rfl := Option.some.inj (he'.symm.trans hd)
      exact hk'
    · obtain ⟨n, hn⟩ := Option.ne_none_iff_exists'.mp (hc.complete e k he)
      obtain ⟨k', hk', hmem, -⟩ := hc.node e n hn
      obtain rfl := Option.some.inj (hk'.symm.trans he)
      obtain ⟨m, rest, hnodes⟩ := List.exists_cons_of_ne_nil (List.ne_nil_of_mem hmem)
      obtain ⟨e', he', -⟩ := hc.data k' m (by rw [hnodes]; exact .head _)
      rw [hnodes, List.head?_cons, Option.bind_some, he'] at hnone
      exact absurd hnone (by simp)

variable {q : Value}

theorem findsKey_seek (hq : cullHashKey S q = some k) :
    FindsKey w l pos k (seek w pos q (w.list l).elems).1 := by
  have hmatch : ∀ e, fieldEquals S ((w.elem e).cont pos) q = true ↔
      w.key pos e = some k := by
    intro e
    rw [fieldEquals_iff, hq]
    simp [World.key, eq_comm]
  unfold seek
  cases hfind : (w.list l).elems.find? fun e => fieldEquals S ((w.elem e).cont pos) q with
  | none =>
    refine findsKey_of (fun e he => by simp at he) fun e he => ?_
    obtain ⟨hmem, hkey⟩ := keys_eq_some.mp he
    exact absurd ((hmatch e).mpr hkey) (List.find?_eq_none.mp hfind e hmem)
  | some e =>
    refine findsKey_of (fun e' he' => ?_) fun _ _ => by simp
    cases he'
    have hmatch' := List.find?_some hfind
    exact keys_eq_some.mpr ⟨List.mem_of_find?_eq_some hfind, (hmatch e).mp hmatch'⟩

theorem findsKey_first (h : WorldOk w) {minElems : ℕ}
    (hroom : (w.list l).elems.length < 2 ^ 32) (hq : cullHashKey S q = some k) :
    FindsKey w l pos k (lGetElemFirst w l pos minElems q).2.1 := by
  have hlookup := lookupTable_spec h l pos minElems fun _ _ => Or.inr hroom
  rcases hr : cullHashLookupTable w l pos minElems with ⟨w', t⟩
  rw [hr] at hlookup
  obtain ⟨hok, helem, hlist⟩ := hlookup
  dsimp only at hok helem hlist
  have hfinds : FindsKey w' l pos k (lGetElemFirst w l pos minElems q).2.1 := by
    unfold lGetElemFirst
    rw [hq]
    dsimp only
    rw [hr]
    cases t with
    | none => exact findsKey_seek hq
    | some t =>
      refine findsKey_table (hok.table l pos t ?_).indexes
      rw [hlist]
      exact Function.update_self ..
  have helems : (w'.list l).elems = (w.list l).elems := by rw [hlist]
  have hkey : w'.key = w.key := by
    unfold World.key
    rw [helem]
  obtain ⟨hcomplete, hsound⟩ := hfinds
  rw [helems, hkey] at hcomplete hsound
  exact ⟨hcomplete, hsound⟩

/-! ## Runs -/

/-- The operations on one element. -/
def Op.basic : Op → Bool
  | .create _ _ | .append _ _ | .insert _ _ _ | .remove _ _ | .dechain _ _
  | .set _ _ _ | .search _ _ _ _ => true
  | _ => false

/-- Lists and counters up to a bound. -/
structure Bounded (w : World S) (n : ℕ) : Prop where
  length : ∀ l, (w.list l).elems.length ≤ n
  count : ∀ l pos t, (w.list l).tables pos = some t → dupCount t ≤ n

variable {n : ℕ}

theorem Bounded.countersFit (h : Bounded w n) (hn : n + 1 < 2 ^ 32) : CountersFit w where
  length := fun l => (h.length l).trans_lt (Nat.lt_of_succ_lt hn)
  count := fun l pos t ht => (Nat.succ_le_succ (h.count l pos t ht)).trans_lt hn

theorem Bounded.mono {m : ℕ} (h : Bounded w n) (hnm : n ≤ m) : Bounded w m where
  length := fun l => (h.length l).trans hnm
  count := fun l pos t ht => (h.count l pos t ht).trans hnm

theorem Bounded.setList (h : Bounded w n) {lp : CullList S} (hlength : lp.elems.length ≤ n)
    (hcount : ∀ pos t, lp.tables pos = some t → dupCount t ≤ n) : Bounded (w.setList l lp) n where
  length := by
    intro l'
    by_cases hl : l' = l
    · rw [hl, World.list_setList]
      exact hlength
    · rw [World.list_setList_of_ne _ _ hl]
      exact h.length l'
  count := by
    intro l' pos t ht
    by_cases hl : l' = l
    · rw [hl, World.list_setList] at ht
      exact hcount pos t ht
    · rw [World.list_setList_of_ne _ _ hl] at ht
      exact h.count l' pos t ht

theorem dupCount_build_le (unique : Bool) (elems : List ElemId) (key : ElemId → Option Key) :
    dupCount (cullHashBuild unique elems key : CullHtable S) ≤ elems.length := by
  have hfold : ∀ (rest : List ElemId) (t : CullHtable S),
      dupCount (rest.foldl (fun t e => cullHashInsert t e (key e)) t) ≤
        dupCount t + rest.length := by
    intro rest
    induction rest with
    | nil => exact fun t => le_rfl
    | cons e rest ih =>
      intro t
      have hinsert := dupCount_insert_le t e (key e)
      have hrest := ih (cullHashInsert t e (key e))
      simp only [List.foldl_cons, List.length_cons]
      omega
  have hcreate : dupCount (cullHashCreate unique (Nat.size elems.length) : CullHtable S) = 0 := by
    unfold cullHashCreate
    split_ifs <;> rfl
  have hle := hfold elems (cullHashCreate unique (Nat.size elems.length))
  rwa [hcreate, Nat.zero_add] at hle

variable (h : Bounded w n)
include h

theorem bounded_bind {elems : List ElemId} (hlength : elems.length = (w.list l).elems.length + 1) :
    Bounded (bindElem w l elems e) (n + 1) := by
  have hset : Bounded (w.setList l (cullHashElem w { w.list l with elems := elems } e))
      (n + 1) := by
    refine (h.mono (Nat.le_succ n)).setList ?_ fun pos t ht => ?_
    · show elems.length ≤ n + 1
      rw [hlength]
      exact Nat.succ_le_succ (h.length l)
    · obtain ⟨t₀, ht₀, rfl⟩ := Option.map_eq_some_iff.mp ht
      exact (dupCount_insert_le ..).trans (Nat.succ_le_succ (h.count l pos t₀ ht₀))
  exact ⟨hset.length, hset.count⟩

theorem bounded_dechain (e : ElemId) : Bounded (lDechainElem w l e) n := by
  have hlength : ((w.list l).elems.erase e).length ≤ n :=
    (List.length_erase_le ..).trans (h.length l)
  have hset : Bounded (w.setList l (cullHashRepair w (cullHashRemoveElem w
      { w.list l with elems := (w.list l).elems.erase e } e))) n := by
    refine h.setList hlength fun pos t ht => ?_
    obtain ⟨t₁, ht₁, rfl⟩ := Option.map_eq_some_iff.mp ht
    obtain ⟨t₀, ht₀, rfl⟩ := Option.map_eq_some_iff.mp ht₁
    by_cases hzero : dupCount (cullHashRemove t₀ e (w.key pos e)) = 0
    · rw [rebuildUnique_of_zero _ pos hzero, dupCount_remove]
      exact h.count l pos t₀ ht₀
    · rw [(rebuildUnique_of_ne _ pos hzero).2]
      exact (dupCount_build_le ..).trans hlength
  exact ⟨hset.length, hset.count⟩

theorem bounded_set (e : ElemId) (pos : ℕ) (value : Value) :
    Bounded (lSetValue w e pos value) (n + 1) := by
  have hstore : Bounded (storeValue w e pos value) (n + 1) :=
    ⟨(h.mono (Nat.le_succ n)).length, (h.mono (Nat.le_succ n)).count⟩
  unfold lSetValue
  split_ifs with hsame
  · exact h.mono (Nat.le_succ n)
  cases (w.elem e).owner with
  | none => exact hstore
  | some l =>
    refine hstore.setList ((h.mono (Nat.le_succ n)).length l) fun p t ht => ?_
    dsimp only [rekeyTables] at ht
    by_cases hp : p = pos
    · rw [hp, Function.update_self] at ht
      obtain ⟨t₀, ht₀, rfl⟩ := Option.map_eq_some_iff.mp ht
      refine (dupCount_insert_le ..).trans (Nat.succ_le_succ ?_)
      rw [dupCount_remove]
      exact h.count l pos t₀ ht₀
    · rw [Function.update_of_ne hp] at ht
      exact (h.mono (Nat.le_succ n)).count l p t ht

theorem bounded_search (minElems : ℕ) (q : Value) :
    Bounded (lGetElemFirst w l pos minElems q).1 n := by
  have hlookup : Bounded (cullHashLookupTable w l pos minElems).1 n := by
    unfold cullHashLookupTable
    dsimp only
    split_ifs with hfield
    · exact h
    all_goals
      split
      · exact h
    · exact h
    refine h.setList (h.length l) fun p t ht => ?_
    dsimp only at ht
    by_cases hp : p = pos
    · rw [hp, Function.update_self] at ht
      cases ht
      exact (dupCount_build_le ..).trans (h.length l)
    · rw [Function.update_of_ne hp] at ht
      exact h.count l p t ht
  unfold lGetElemFirst
  cases cullHashKey S q with
  | none => exact h
  | some k =>
    dsimp only
    rcases hr : cullHashLookupTable w l pos minElems with ⟨w', _ | t⟩ <;>
      rw [hr] at hlookup <;> exact hlookup

/-- A step lets lists and counters grow by one at most. So the counters have room
in every run of less than 2^32 - 1 steps. -/
theorem bounded_exec {op : Op} (hbasic : op.basic = true)
    {w' : World S} (hexec : exec w op = some w') : Bounded w' (n + 1) := by
  cases op with
  | create e cont =>
    obtain ⟨-, ⟨⟩⟩ := Option.ite_none_right_eq_some.mp hexec
    exact ⟨(h.mono (Nat.le_succ n)).length, (h.mono (Nat.le_succ n)).count⟩
  | append l e =>
    obtain ⟨-, ⟨⟩⟩ := Option.ite_none_right_eq_some.mp hexec
    exact bounded_bind h (by simp)
  | insert l ep e =>
    obtain ⟨⟨-, hep⟩, ⟨⟩⟩ := Option.ite_none_right_eq_some.mp hexec
    exact bounded_bind h (insertBehind_perm e hep).length_eq
  | remove l e =>
    obtain ⟨-, ⟨⟩⟩ := Option.ite_none_right_eq_some.mp hexec
    exact (bounded_dechain h e).mono (Nat.le_succ n)
  | dechain l e =>
    obtain ⟨-, ⟨⟩⟩ := Option.ite_none_right_eq_some.mp hexec
    exact (bounded_dechain h e).mono (Nat.le_succ n)
  | set e pos value =>
    obtain ⟨-, ⟨⟩⟩ := Option.ite_none_right_eq_some.mp hexec
    exact bounded_set h e pos value
  | search l pos minElems q =>
    cases hexec
    exact (bounded_search h minElems q).mono (Nat.le_succ n)
  | _ => exact absurd hbasic (by simp [Op.basic])

omit h

/-- A step that loses no key: a set does not take away the entry of a key that
another element shares, and the counters of taken keys have room. -/
structure Careful (w : World S) (op : Op) : Prop where
  basic : op.basic = true
  counters : CountersFit w
  keeps : ∀ e pos value, op = .set e pos value → KeepsKeys w e pos value

theorem worldOk_careful_reach (h : Reach (fun w op _ => Careful w op) w) : WorldOk w := by
  induction h with
  | start hinit => exact worldOk_initial hinit
  | step _ hexec hcareful ih =>
    refine worldOk_exec ih hexec (Or.inr ⟨hcareful.counters, ?_⟩) hcareful.keeps
    rintro l0 l1 rfl
    exact absurd hcareful.basic (by simp [Op.basic])

/-- **A unique table survives duplicate keys.** In every run of careful steps a
lookup through a table returns an element iff the list has one with the key, and
it is one of these. The same holds of every search, also of one that builds the
table. -/
theorem uniqueTable_survives (h : Reach (fun w op _ => Careful w op) w) (l : ListId)
    (pos : ℕ) (k : Key) :
    (∀ t, (w.list l).tables pos = some t → FindsKey w l pos k (cullHashFirst t k).1) ∧
      (CountersFit w → ∀ minElems q, cullHashKey S q = some k →
        FindsKey w l pos k (lGetElemFirst w l pos minElems q).2.1) := by
  have hok := worldOk_careful_reach h
  constructor
  · exact fun t ht => findsKey_table (hok.table l pos t ht).indexes
  · exact fun hfit minElems q hq => findsKey_first hok (hfit.length l) hq

theorem bounded_initial (h : Initial w) : Bounded w 0 where
  length := fun l => by rw [h.empty, List.length_nil]
  count := fun l pos t ht => by rw [h.bare] at ht; simp at ht

theorem careful_run {ops : List Op} : ∀ {n : ℕ} {w w' : World S},
    Reach (fun w op _ => Careful w op) w → Bounded w n → n + ops.length < 2 ^ 32 →
      (∀ op ∈ ops, op.basic = true ∧ ∀ e pos value, op ≠ .set e pos value) →
      run w ops = some w' → Reach (fun w op _ => Careful w op) w' := by
  induction ops with
  | nil =>
    rintro n w w' hreach _ _ _ ⟨⟩
    exact hreach
  | cons op ops ih =>
    intro n w w' hreach hbounded hlen hops hrun
    obtain ⟨w₁, hexec, hrest⟩ := Option.bind_eq_some_iff.mp hrun
    obtain ⟨hbasic, hset⟩ := hops op (.head _)
    rw [List.length_cons] at hlen
    have hcareful : Careful w op :=
      ⟨hbasic, hbounded.countersFit (by omega), fun e pos value h => absurd h (hset e pos value)⟩
    exact ih (hreach.step hexec hcareful) (bounded_exec hbounded hbasic hexec) (by omega)
      (fun op' hop' => hops op' (List.mem_cons_of_mem op hop')) hrest

def sharedWorld : World smallSetting where
  list _ := ⟨fun _ => ⟨true, true⟩, true, [], fun _ => none⟩
  elem _ := ⟨fun _ => .string (some "x"), none⟩

theorem sharedWorld_initial : Initial sharedWorld :=
  ⟨fun _ => rfl, fun _ _ => rfl, fun _ => rfl⟩

/-- Two elements share a key while the table is built. The one that the table
holds leaves the list. -/
def sharedOps : List Op :=
  [.append 0 0, .append 0 1, .search 0 0 0 (.string (some "x")), .dechain 0 1]

theorem uniqueTable_survives_shared :
    ∃ w, run sharedWorld sharedOps = some w ∧ (w.list 0).elems = [0] ∧
      (∀ t, (w.list 0).tables 0 = some t →
        FindsKey w 0 0 (.string "x") (cullHashFirst t (.string "x")).1) ∧
      (CountersFit w → ∀ minElems q, cullHashKey smallSetting q = some (.string "x") →
        FindsKey w 0 0 (.string "x") (lGetElemFirst w 0 0 minElems q).2.1) := by
  have hsome : (run sharedWorld sharedOps).isSome = true := by decide +kernel
  obtain ⟨w, hw⟩ := Option.isSome_iff_exists.mp hsome
  have helems : (run sharedWorld sharedOps).map (fun w => (w.list 0).elems) = some [0] := by
    decide +kernel
  rw [hw] at helems
  refine ⟨w, hw, Option.some.inj helems, uniqueTable_survives ?_ 0 0 (.string "x")⟩
  refine careful_run (.start sharedWorld_initial) (bounded_initial sharedWorld_initial)
    (by decide) ?_ hw
  simp [sharedOps, Op.basic]

def losingOps : List Op :=
  [.append 0 0, .append 0 1, .search 0 0 0 (.string (some "x")),
    .set 1 0 (.string (some "y"))]

theorem uniqueTable_survives_false :
    ¬ ∀ w : World smallSetting, Reach (fun _ op _ => op.basic = true) w →
      ∀ l pos k t, ((w.list l).descr pos).hash = true →
        ((w.list l).descr pos).unique = true → (w.list l).tables pos = some t →
        FindsKey w l pos k (cullHashFirst t k).1 := by
  intro hclaim
  have hsome : (run sharedWorld losingOps).isSome = true := by decide +kernel
  obtain ⟨w, hw⟩ := Option.isSome_iff_exists.mp hsome
  have hbasic : ∀ op ∈ losingOps, op.basic = true := by simp [losingOps, Op.basic]
  have hreach : Reach (fun _ op _ => op.basic = true) w :=
    reach_run (P := fun _ => True) (.start sharedWorld_initial) trivial hw
      fun op hop _ _ _ _ => ⟨hbasic op hop, trivial⟩
  have hfacts : (run sharedWorld losingOps).map (fun w =>
      ((w.list 0).elems, w.key 0 0, ((w.list 0).tables 0).map fun t =>
        (cullHashFirst t (.string "x")).1)) =
      some ([0, 1], some (.string "x"), some none) := by
    decide +kernel
  have hdescr : (run sharedWorld losingOps).map (fun w => ((w.list 0).descr 0).hash &&
      ((w.list 0).descr 0).unique) = some true := by
    decide +kernel
  rw [hw] at hfacts hdescr
  simp only [Option.map_some, Option.some.injEq, Prod.mk.injEq, Option.map_eq_some_iff,
    Bool.and_eq_true] at hfacts hdescr
  obtain ⟨helems, hkey, t, ht, hnone⟩ := hfacts
  have hfinds := hclaim w hreach 0 0 (.string "x") t hdescr.1 hdescr.2 ht
  refine hfinds.complete.mpr ⟨0, ?_, hkey⟩ hnone
  rw [helems]
  simp

end ClusterScheduler.Cull
