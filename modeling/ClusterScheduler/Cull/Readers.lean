import ClusterScheduler.Cull.HashAccess

/-!
# Readers that share a list

Readers search the same field of a list that nobody changes, each with a threshold
of its own. A search that finds the list long enough publishes a table for all of
them. Where a search goes on is told by an iterator, which means an element of
the list or a node of a chain. A `Next` call looks at the list to know which.

* `Call`, `perform` — the calls of the readers, in any order.
* `readers_agree` — every reader gets the matching elements, each once, if no
  table is published while another reader is under way.
* `readers_agree_false` — a reader that is under way when it is loses its way.
-/

namespace ClusterScheduler.Cull

open Foundation

variable {S : Setting} {w : World S} {l : ListId} {pos : ℕ} {q : Value}
variable {ι : Type*} [DecidableEq ι]

/-- An iteration: what is searched for, where to go on, what was returned. -/
inductive Reader where
  | idle
  | running (q : Value) (it : Iterator) (got : List ElemId)
  | done (q : Value) (got : List ElemId)
  deriving DecidableEq

structure Readers (S : Setting) (ι : Type*) where
  world : World S
  reader : ι → Reader

/-- The calls. The threshold is the one of the thread that calls. -/
inductive Call (ι : Type*) where
  | first (r : ι) (minElems : ℕ) (q : Value)
  | next (r : ι)

def advance (q : Value) (got : List ElemId) : Option ElemId × Iterator → Reader
  | (none, _) => .done q got
  | (some e, it) => .running q it (got ++ [e])

/-- A call on the list. There is no result where a `Next` call takes its iterator
for something else than it is. -/
def perform (l : ListId) (pos : ℕ) (s : Readers S ι) : Call ι → Option (Readers S ι)
  | .first r minElems q =>
    let res := lGetElemFirst s.world l pos minElems q
    some ⟨res.1, Function.update s.reader r (advance q [] res.2)⟩
  | .next r =>
    match s.reader r with
    | .running q it got =>
      (lGetElemNext s.world l pos q it).map fun res =>
        ⟨s.world, Function.update s.reader r (advance q got res)⟩
    | _ => some s

/-- The states reached by calls that are all allowed. -/
inductive Calls (l : ListId) (pos : ℕ) (Allowed : Readers S ι → Call ι → Prop)
    (s₀ : Readers S ι) : Readers S ι → Prop
  | start : Calls l pos Allowed s₀ s₀
  | call {s : Readers S ι} {c : Call ι} {s' : Readers S ι} :
      Calls l pos Allowed s₀ s → Allowed s c → perform l pos s c = some s' →
      Calls l pos Allowed s₀ s'

/-- What a reader may count on. A reader that is under way has got matching
elements, none twice, and its next call knows what the iterator is. A reader that
is done has got all of them. -/
def ReaderOk (w : World S) (l : ListId) (pos : ℕ) (s : Readers S ι) (r : ι) : Prop :=
  match s.reader r with
  | .idle => True
  | .running q it got =>
    lGetElemNext s.world l pos q it ≠ none ∧ got.Nodup ∧
      ∀ e ∈ got, e ∈ (w.list l).elems ∧ w.matches pos q e = true
  | .done q got => Finds w l pos q got

/-- The table is not built while another reader is under way. -/
def Calm (l : ListId) (pos : ℕ) (s : Readers S ι) (c : Call ι) : Prop :=
  ∀ r minElems q, c = .first r minElems q → Builds s.world l pos minElems q →
    ∀ r', r' ≠ r → ∀ q' it got, s.reader r' ≠ .running q' it got

/-! ## The invariant -/

/-- The list is the same, its tables may not be. -/
structure SameList (l : ListId) (w w' : World S) : Prop where
  elem : w'.elem = w.elem
  elems : (w'.list l).elems = (w.list l).elems
  descr : (w'.list l).descr = (w.list l).descr

variable {found : List ElemId}

theorem SameList.finds {w' : World S} (h : SameList l w w') :
    Finds w' l pos q found ↔ Finds w l pos q found := by
  have hmatches : w'.matches pos q = w.matches pos q := by
    unfold World.matches
    rw [h.elem]
  constructor <;> rintro ⟨hnodup, hexact⟩
  · rw [h.elems, hmatches] at hexact
    exact ⟨hnodup, hexact⟩
  · rw [← h.elems, ← hmatches] at hexact
    exact ⟨hnodup, hexact⟩

/-- The calls that are still to come give the rest of the matching elements. -/
def Progress (w₀ w : World S) (l : ListId) (pos : ℕ) : Reader → Prop
  | .idle => True
  | .running q it got => ∃ rest, Finds w₀ l pos q (got ++ rest) ∧
      ∃ n, ∀ fuel, n ≤ fuel → collect w l pos q fuel it = some rest
  | .done q got => Finds w₀ l pos q got

structure ReadersInv (w₀ : World S) (l : ListId) (pos : ℕ) (s : Readers S ι) : Prop where
  same : SameList l w₀ s.world
  field : FieldOk s.world l pos
  progress : ∀ r, Progress w₀ s.world l pos (s.reader r)

variable {w₀ : World S} {n : ℕ}

theorem progress_advance {got : List ElemId}
    {res : Option ElemId × Iterator} (hfinds : Finds w₀ l pos q (got ++ found))
    (hall : ∀ fuel, n ≤ fuel → allFrom w l pos q fuel res = some found) :
    Progress w₀ w l pos (advance q got res) := by
  obtain ⟨_ | e, it⟩ := res
  · have hnil : found = [] := (Option.some.inj (hall n le_rfl)).symm
    rw [hnil, List.append_nil] at hfinds
    exact hfinds
  · obtain ⟨rest, -, rfl⟩ := Option.map_eq_some_iff.mp (hall n le_rfl)
    refine ⟨rest, by rwa [List.append_assoc, List.singleton_append], n, fun fuel hfuel => ?_⟩
    obtain ⟨rest', hrest', heq⟩ := Option.map_eq_some_iff.mp (hall fuel hfuel)
    rw [hrest', (List.cons.inj heq).2]

/-- The next call of a reader that is under way finds the first of the rest. -/
theorem next_of_collect {rest : List ElemId} {it : Iterator}
    (h : ∀ fuel, n ≤ fuel → collect w l pos q fuel it = some rest) :
    ∃ res, lGetElemNext w l pos q it = some res ∧
      ∀ fuel, n ≤ fuel → allFrom w l pos q fuel res = some rest := by
  have hstep : ∀ fuel, n ≤ fuel → collect w l pos q (fuel + 1) it = some rest :=
    fun fuel hfuel => h (fuel + 1) (Nat.le_succ_of_le hfuel)
  cases hnext : lGetElemNext w l pos q it with
  | none =>
    have := hstep n le_rfl
    rw [collect, hnext] at this
    exact absurd this (by simp)
  | some res =>
    refine ⟨res, rfl, fun fuel hfuel => ?_⟩
    have := hstep fuel hfuel
    rw [collect, hnext] at this
    obtain ⟨_ | e, it'⟩ := res <;> exact this

/-- The list after a first call, and what the call returns. -/
theorem first_spec (h : FieldOk w l pos) (hplain : ((w.list l).descr pos).unique = false)
    (minElems : ℕ) (q : Value) :
    SameList l w (lGetElemFirst w l pos minElems q).1 ∧
      FieldOk (lGetElemFirst w l pos minElems q).1 l pos ∧
      (¬ Builds w l pos minElems q → (lGetElemFirst w l pos minElems q).1 = w) ∧
      ∃ found, Finds w l pos q found ∧ ∃ n, ∀ fuel, n ≤ fuel →
        allFrom (lGetElemFirst w l pos minElems q).1 l pos q fuel
          (lGetElemFirst w l pos minElems q).2 = some found := by
  have hunique : ∀ {w' : World S}, SameList l w w' → ((w'.list l).descr pos).hash = true →
      ((w'.list l).descr pos).unique = true → KeysUnique (w'.keys l pos) := by
    intro w' hsame _ hu
    rw [hsame.descr, hplain] at hu
    exact absurd hu (by simp)
  cases hq : cullHashKey S q with
  | none =>
    have hfirst : lGetElemFirst w l pos minElems q = (w, none, .null) := by
      rw [lGetElemFirst, hq]
    rw [hfirst]
    refine ⟨⟨rfl, rfl, rfl⟩, h, fun _ => rfl, [], ⟨List.nodup_nil, fun e => ?_⟩, 0,
      fun _ _ => rfl⟩
    rw [World.matches, fieldEquals_iff, hq]
    simp
  | some k =>
    obtain heq | ⟨hnone, hfield, hlong, fresh, hfresh, heq⟩ := lookupTable_cases l pos
      minElems fun t ht => (h.table t ht).hashed
    · have hsame : SameList l w w := ⟨rfl, rfl, rfl⟩
      rw [lGetElemFirst_eq hq heq rfl]
      obtain ⟨found, hfinds, hall⟩ := allFrom_spec h hq (hunique hsame)
      exact ⟨hsame, h, fun _ => rfl, found, hfinds, _, hall⟩
    · set w' := w.setList l { w.list l with
        tables := Function.update (w.list l).tables pos (some fresh) }
      have hlist : w'.list l = { w.list l with
          tables := Function.update (w.list l).tables pos (some fresh) } :=
        World.list_setList ..
      have htable : (w'.list l).tables pos = some fresh := by
        rw [hlist]
        exact Function.update_self ..
      have hsame : SameList l w w' := ⟨rfl, by rw [hlist], by rw [hlist]⟩
      have hkeys : w'.keys l pos = w.keys l pos := by
        rw [World.keys, hlist]
        rfl
      have hok : FieldOk w' l pos := by
        refine ⟨by rw [hlist]; exact h.nodup, fun t ht => ?_⟩
        rw [htable] at ht
        cases ht
        refine ⟨by rw [hlist]; exact hfield, ?_, ?_⟩
        · rw [hlist, hfresh, isUnique_build]
        · rw [hkeys, hfresh]
          exact indexes_build _ h.nodup fun hu => absurd hu (by simp [hplain])
      rw [lGetElemFirst_eq hq heq htable]
      obtain ⟨found, hfinds, hall⟩ := allFrom_spec hok hq (hunique hsame)
      refine ⟨hsame, hok, fun hno => ?_, found, hsame.finds.mp hfinds, _, hall⟩
      exact absurd ⟨by simp [hq], hnone, hfield, hlong⟩ hno

/-! ## Every call -/

variable {s : Readers S ι}

theorem readersInv_perform {s' : Readers S ι} {c : Call ι}
    (hplain : ((w₀.list l).descr pos).unique = false) (h : ReadersInv w₀ l pos s)
    (hcalm : Calm l pos s c) (hcall : perform l pos s c = some s') : ReadersInv w₀ l pos s' := by
  cases c with
  | first r minElems q =>
    cases hcall
    obtain ⟨hsame, hfield, hquiet, found, hfinds, n, hall⟩ := first_spec h.field
      (by rw [h.same.descr]; exact hplain) minElems q
    refine ⟨⟨hsame.elem.trans h.same.elem, hsame.elems.trans h.same.elems,
      hsame.descr.trans h.same.descr⟩, hfield, fun r' => ?_⟩
    dsimp only
    by_cases hr : r' = r
    · rw [hr, Function.update_self]
      exact progress_advance (h.same.finds.mp hfinds) hall
    · rw [Function.update_of_ne hr]
      have hold := h.progress r'
      by_cases hbuild : Builds s.world l pos minElems q
      · -- nobody else is under way
        have hidle := hcalm r minElems q rfl hbuild r' hr
        cases hreader : s.reader r' with
        | idle => trivial
        | running q' it got => exact absurd hreader (hidle q' it got)
        | done q' got =>
          rw [hreader] at hold
          exact hold
      · rw [hquiet hbuild]
        exact hold
  | next r =>
    dsimp only [perform] at hcall
    have hold := h.progress r
    cases hreader : s.reader r with
    | idle =>
      rw [hreader] at hcall
      exact Option.some.inj hcall ▸ h
    | done q got =>
      rw [hreader] at hcall
      exact Option.some.inj hcall ▸ h
    | running q it got =>
      rw [hreader] at hcall hold
      obtain ⟨rest, hfinds, n, hcollect⟩ := hold
      obtain ⟨res, hnext, hall⟩ := next_of_collect hcollect
      simp only [hnext, Option.map_some, Option.some.injEq] at hcall
      subst hcall
      refine ⟨h.same, h.field, fun r' => ?_⟩
      dsimp only
      by_cases hr : r' = r
      · rw [hr, Function.update_self]
        exact progress_advance hfinds hall
      · rw [Function.update_of_ne hr]
        exact h.progress r'

theorem readersInv_calls (hfield : FieldOk w l pos) (hplain : ((w.list l).descr pos).unique = false)
    (h : Calls l pos (Calm l pos) ⟨w, fun _ => .idle⟩ s) : ReadersInv w l pos s := by
  induction h with
  | start => exact ⟨⟨rfl, rfl, rfl⟩, hfield, fun _ => trivial⟩
  | call _ hcalm hcall ih => exact readersInv_perform hplain ih hcalm hcall

omit [DecidableEq ι] in
theorem ReadersInv.readerOk (h : ReadersInv w l pos s) (r : ι) : ReaderOk w l pos s r := by
  have hprogress := h.progress r
  unfold ReaderOk
  cases hreader : s.reader r with
  | idle => trivial
  | done q got =>
    rw [hreader] at hprogress
    exact hprogress
  | running q it got =>
    rw [hreader] at hprogress
    obtain ⟨rest, hfinds, n, hcollect⟩ := hprogress
    obtain ⟨res, hnext, -⟩ := next_of_collect hcollect
    refine ⟨by simp [hnext], hfinds.nodup.of_append_left, fun e he => ?_⟩
    exact (hfinds.exact e).mp (List.mem_append_left _ he)

/-- **Readers agree.** The list is not changed and its table, if there is one, is
right. If no call builds the table while another reader is under way, then in
every state every reader knows what its iterator is and gets the matching
elements, each once. -/
theorem readers_agree (hfield : FieldOk w l pos)
    (hplain : ((w.list l).descr pos).unique = false) {s : Readers S ι}
    (h : Calls l pos (Calm l pos) ⟨w, fun _ => .idle⟩ s) (r : ι) : ReaderOk w l pos s r :=
  (readersInv_calls hfield hplain h).readerOk r

def readList : World smallSetting where
  list _ := ⟨fun _ => ⟨true, false⟩, true, [0, 1], fun _ => none⟩
  elem _ := ⟨fun _ => .string (some "x"), some 0⟩

theorem readList_field : FieldOk readList 0 0 :=
  ⟨by decide, fun _ ht => absurd ht (by simp [readList])⟩

def readKey : Value := .string (some "x")

def noReaders : Readers smallSetting ℕ := ⟨readList, fun _ => .idle⟩

/-- Readers `0` and `1` make their first calls, with the thresholds `m` and `n`. -/
def twoReaders (m n : ℕ) : Readers smallSetting ℕ :=
  let first := lGetElemFirst readList 0 0 m readKey
  let second := lGetElemFirst first.1 0 0 n readKey
  ⟨second.1, Function.update (Function.update (fun _ => .idle) 0 (advance readKey [] first.2))
    1 (advance readKey [] second.2)⟩

/-- Reader `0` builds the table, reader `1` has a higher threshold and uses it. -/
theorem twoReaders_calls : Calls 0 0 (Calm 0 0) noReaders (twoReaders 0 5) := by
  have hstart : Calls 0 0 (Calm 0 0) noReaders noReaders := .start
  have hfirst := hstart.call (c := .first 0 0 readKey)
    (fun r _ _ _ _ r' _ q' it got => by simp [noReaders]) rfl
  refine hfirst.call (c := .first 1 5 readKey) ?_ rfl
  rintro r minElems q ⟨⟩ hbuild
  have hlong := hbuild.2.2.2
  have hlength : ((lGetElemFirst readList 0 0 0 readKey).1.list 0).elems.length = 2 := by
    decide +kernel
  simp only [noReaders, hlength] at hlong
  omega

theorem readers_agree_two : ∃ s : Readers smallSetting ℕ,
    Calls 0 0 (Calm 0 0) noReaders s ∧ s.reader 0 = .running readKey (.node 1) [0, 1] ∧
      s.reader 1 = .running readKey (.node 0) [0] ∧ ∀ r, ReaderOk readList 0 0 s r := by
  have hsome : (perform 0 0 (twoReaders 0 5) (.next 0)).isSome = true := by decide +kernel
  obtain ⟨s, hs⟩ := Option.isSome_iff_exists.mp hsome
  have hfacts : (perform 0 0 (twoReaders 0 5) (.next 0)).map (fun s => (s.reader 0, s.reader 1)) =
      some (.running readKey (.node 1) [0, 1], .running readKey (.node 0) [0]) := by
    decide +kernel
  rw [hs, Option.map_some, Option.some.injEq, Prod.mk.injEq] at hfacts
  have hcalls : Calls 0 0 (Calm 0 0) noReaders s :=
    twoReaders_calls.call (c := .next 0) (fun _ _ _ h => by simp at h) hs
  exact ⟨s, hcalls, hfacts.1, hfacts.2, readers_agree readList_field rfl hcalls⟩

/-- Reader `0`, whose threshold is higher than the list is long, is under way when
reader `1` builds the table. -/
theorem readers_agree_false :
    ¬ ∀ (w : World smallSetting) (l : ListId) (pos : ℕ), FieldOk w l pos →
      ((w.list l).descr pos).hash = true → ((w.list l).descr pos).unique = false →
      ∀ s : Readers smallSetting ℕ, Calls l pos (fun _ _ => True) ⟨w, fun _ => .idle⟩ s →
        ∀ r, ReaderOk w l pos s r := by
  intro hclaim
  have hstart : Calls 0 0 (fun _ _ => True) noReaders noReaders := .start
  have hfirst := hstart.call (c := .first 0 5 readKey) trivial rfl
  have hsecond : Calls 0 0 (fun _ _ => True) noReaders (twoReaders 5 0) :=
    hfirst.call (c := .first 1 0 readKey) trivial rfl
  have hok := hclaim readList 0 0 readList_field rfl rfl _ hsecond 0
  have hreader : (twoReaders 5 0).reader 0 = .running readKey (.elem 0) [0] := by
    decide +kernel
  have htable : (((twoReaders 5 0).world.list 0).tables 0).isSome = true := by
    decide +kernel
  obtain ⟨t, ht⟩ := Option.isSome_iff_exists.mp htable
  rw [ReaderOk, hreader] at hok
  exact hok.1 (publish_confuses ht 0)

end ClusterScheduler.Cull
