import ClusterScheduler.Foundation.Ledger

/-!
# Shared descriptors

Lists and elements of one type hold one descriptor, found through a registry of the process
and counted. The thread that gives up the last reference removes the descriptor from the
registry and frees it, while other threads look it up.

* `CullDescrHeader`, `DescrState` — a counted descriptor, and the registry with the threads.
* `ocsCullDescrIntern`, `ocsCullDescrRef`, `ocsCullDescrRelease` — the functions of the
  source, cut into their atomic operations and mutex sections.
* `DescrInv` — what holds between any two of them.
* `DescrSafe`, `descr_run_safe` — descriptors live exactly as long as they are held, as long
  as the counts do not overflow.

An address is used again after its descriptor was freed. The flag that tells counted
descriptors is process-local and takes no part in comparisons, so it is not among the entries.
-/

namespace ClusterScheduler.Cull

open Foundation

/-! ## Data -/

/-- A counted descriptor. -/
structure CullDescrHeader (ε : Type*) where
  refs : BitVec 32
  entries : List ε

/-- Where a thread is in `ocs_cull_descr_release()`: it has not given up a last reference, or
the descriptor has to be removed from the registry, or to be freed. -/
inductive ReleasePhase where
  | outside
  | toErase (h : ℕ)
  | toFree (h : ℕ)
  deriving DecidableEq

/-- The thread is about to free the descriptor. -/
def ReleasePhase.frees (p : ReleasePhase) (h : ℕ) : Prop := p = .toErase h ∨ p = .toFree h

/-- The descriptors by address, the registry, and the threads. `allocs` and `frees` count
what has happened at an address. -/
structure DescrState (ι ε : Type*) where
  heap : ℕ → Option (CullDescrHeader ε)
  map : List (BitVec 64 × ℕ)
  softCap : ℕ
  capReported : Bool
  held : List (ι × ℕ)
  phase : ι → ReleasePhase
  allocs : ℕ → ℕ
  frees : ℕ → ℕ

namespace DescrState

variable {ι ε : Type*} [DecidableEq ι] [DecidableEq ε]

def initial (softCap : ℕ) : DescrState ι ε where
  heap := fun _ => none
  map := []
  softCap := softCap
  capReported := false
  held := []
  phase := fun _ => .outside
  allocs := fun _ => 0
  frees := fun _ => 0

def holders (s : DescrState ι ε) (h : ℕ) : ℕ := s.held.countP fun r => decide (r.2 = h)

def entriesOf (s : DescrState ι ε) (h : ℕ) : Option (List ε) := (s.heap h).map (·.entries)

def give (s : DescrState ι ε) (t : ι) (h : ℕ) : DescrState ι ε :=
  { s with held := (t, h) :: s.held }

def setHeader (s : DescrState ι ε) (h : ℕ) (header : Option (CullDescrHeader ε)) :
    DescrState ι ε :=
  { s with heap := Function.update s.heap h header }

/-! ## Functions of the source -/

/-- `addr` is what the allocator returns. -/
def allocCounted (s : DescrState ι ε) (addr : ℕ) (dp : List ε) : DescrState ι ε :=
  { s.setHeader addr (some ⟨1, dp⟩) with
    allocs := Function.update s.allocs addr (s.allocs addr + 1) }

def freeCounted (s : DescrState ι ε) (h : ℕ) : DescrState ι ε :=
  { s.setHeader h none with frees := Function.update s.frees h (s.frees h + 1) }

def equalEntry (hash : List ε → BitVec 64) (s : DescrState ι ε) (dp : List ε) :
    Option (BitVec 64 × ℕ) :=
  lookup (fun e => (e.1, s.entriesOf e.2)) (hash dp, some dp) s.map

def refIfAlive (header : CullDescrHeader ε) : Option (CullDescrHeader ε) :=
  if header.refs ≠ 0 then some { header with refs := header.refs + 1 } else none

/-- The section of a lookup, and the descriptor returned. A dead entry is replaced, its
releasing thread frees it. -/
def ocsCullDescrIntern (hash : List ε → BitVec 64) (s : DescrState ι ε) (t : ι)
    (dp : List ε) (addr : ℕ) : DescrState ι ε × ℕ :=
  match equalEntry hash s dp with
  | some e =>
    match (s.heap e.2).bind refIfAlive with
    | some header => ((s.setHeader e.2 (some header)).give t e.2, e.2)
    | none =>
      ({ s.allocCounted addr dp with
          map := modifyFirst (fun x => (x.1, s.entriesOf x.2)) (hash dp, some dp)
            (fun x => (x.1, addr)) s.map }.give t addr, addr)
  | none =>
    if s.map.length < s.softCap then
      ({ s.allocCounted addr dp with map := (hash dp, addr) :: s.map }.give t addr, addr)
    else ({ s.allocCounted addr dp with capReported := true }.give t addr, addr)

def ocsCullDescrPrivate (s : DescrState ι ε) (t : ι) (dp : List ε) (addr : ℕ) :
    DescrState ι ε × ℕ :=
  ((s.allocCounted addr dp).give t addr, addr)

def ocsCullDescrRef (s : DescrState ι ε) (t : ι) (h : ℕ) : DescrState ι ε :=
  (s.setHeader h ((s.heap h).map fun header => { header with refs := header.refs + 1 })).give
    t h

/-- The first step of a release: the caller's reference is gone, and if it was the last one
the thread goes on. -/
def ocsCullDescrRelease (s : DescrState ι ε) (t : ι) (h : ℕ) : DescrState ι ε :=
  let s' := { s.setHeader h
    ((s.heap h).map fun header => { header with refs := header.refs - 1 }) with
      held := s.held.erase (t, h) }
  if (s.heap h).any fun header => decide (header.refs = 1) then
    { s' with phase := Function.update s.phase t (.toErase h) }
  else s'

/-- The mutex section of a release. -/
def eraseDescr (hash : List ε → BitVec 64) (s : DescrState ι ε) (t : ι) (h : ℕ) :
    DescrState ι ε :=
  let map := match s.heap h with
    | some header => s.map.erase (hash header.entries, h)
    | none => s.map
  { s with
    map := map
    capReported := if map.length < s.softCap then false else s.capReported
    phase := Function.update s.phase t (.toFree h) }

def finishRelease (s : DescrState ι ε) (t : ι) (h : ℕ) : DescrState ι ε :=
  { s.freeCounted h with phase := Function.update s.phase t .outside }

def ocsCullDescrSetSoftCap (s : DescrState ι ε) (cap : ℕ) : DescrState ι ε :=
  { s with softCap := cap, capReported := false }

end DescrState

/-- An atomic operation or a mutex section of a thread. -/
inductive DescrAct (ι ε : Type*) where
  | intern (t : ι) (dp : List ε) (addr : ℕ)
  | privateCopy (t : ι) (dp : List ε) (addr : ℕ)
  | ref (t : ι) (h : ℕ)
  | release (t : ι) (h : ℕ)
  | erase (t : ι) (h : ℕ)
  | free (t : ι) (h : ℕ)
  | setSoftCap (cap : ℕ)

open DescrState in
/-- A thread calls a function when it is in none, and references and releases what it holds.
The allocator returns an address that is not in use. -/
def descrStep {ι ε : Type*} [DecidableEq ι] [DecidableEq ε] (hash : List ε → BitVec 64)
    (s : DescrState ι ε) : DescrAct ι ε → Option (DescrState ι ε)
  | .intern t dp addr =>
    if s.phase t = .outside ∧ (s.heap addr).isNone then
      some (ocsCullDescrIntern hash s t dp addr).1
    else none
  | .privateCopy t dp addr =>
    if s.phase t = .outside ∧ (s.heap addr).isNone then
      some (ocsCullDescrPrivate s t dp addr).1
    else none
  | .ref t h =>
    if s.phase t = .outside ∧ (t, h) ∈ s.held then some (ocsCullDescrRef s t h) else none
  | .release t h =>
    if s.phase t = .outside ∧ (t, h) ∈ s.held then some (ocsCullDescrRelease s t h) else none
  | .erase t h => if s.phase t = .toErase h then some (eraseDescr hash s t h) else none
  | .free t h => if s.phase t = .toFree h then some (finishRelease s t h) else none
  | .setSoftCap cap => some (ocsCullDescrSetSoftCap s cap)

/-! ## Between two steps -/

section Invariant

variable {ι ε : Type*} {hash : List ε → BitVec 64} {s : DescrState ι ε}

/-- The count of a descriptor is the number of its references. It is zero exactly while one
thread is about to free the descriptor, which the registry may still hold until it is
removed. -/
structure DescrInv (hash : List ε → BitVec 64) (s : DescrState ι ε) : Prop where
  count : ∀ a header, s.heap a = some header → header.refs = BitVec.ofNat 32 (s.holders a)
  held : ∀ r ∈ s.held, (s.heap r.2).isSome
  dead : ∀ a, (s.heap a).isSome → s.holders a = 0 → ∃ t, (s.phase t).frees a
  pending : ∀ t a, (s.phase t).frees a → (s.heap a).isSome ∧ s.holders a = 0
  single : ∀ t t' a, (s.phase t).frees a → (s.phase t').frees a → t = t'
  unlinked : ∀ t a, s.phase t = .toFree a → ∀ e ∈ s.map, e.2 ≠ a
  registered : ∀ e ∈ s.map, ∃ header, s.heap e.2 = some header ∧ e.1 = hash header.entries
  distinct : (s.map.map fun e => s.entriesOf e.2).Nodup
  account : ∀ a, s.allocs a = s.frees a + if (s.heap a).isSome then 1 else 0

/-- No count overflows. -/
def FewHolders (s : DescrState ι ε) : Prop := ∀ a, s.holders a < 2 ^ 32

theorem holders_give (t : ι) (a b : ℕ) :
    (s.give t a).holders b = s.holders b + if a = b then 1 else 0 := by
  simp [DescrState.give, DescrState.holders, List.countP_cons]

variable {a : ℕ}

theorem holders_pos {t : ι} (h : (t, a) ∈ s.held) : s.holders a ≠ 0 :=
  Nat.pos_iff_ne_zero.mp (List.countP_pos_iff.mpr ⟨_, h, by simp⟩)

theorem holders_eq_zero (h : ∀ r ∈ s.held, r.2 ≠ a) : s.holders a = 0 :=
  List.countP_eq_zero.mpr fun r hr => by simpa using h r hr

variable {header : CullDescrHeader ε}

theorem isSome_setHeader (hheap : s.heap a = some header) (header' : CullDescrHeader ε) (b : ℕ) :
    ((s.setHeader a (some header')).heap b).isSome = (s.heap b).isSome := by
  by_cases hb : b = a
  · simp [DescrState.setHeader, hb, hheap]
  · simp [DescrState.setHeader, hb]

variable {header' : CullDescrHeader ε}

theorem entriesOf_setHeader
    (hheap : s.heap a = some header) (hentries : header'.entries = header.entries) (b : ℕ) :
    (s.setHeader a (some header')).entriesOf b = s.entriesOf b := by
  by_cases hb : b = a
  · simp [DescrState.entriesOf, DescrState.setHeader, hb, hheap, hentries]
  · simp [DescrState.entriesOf, DescrState.setHeader, hb]

theorem heap_setHeader_self
    (h : (s.setHeader a (some header')).heap a = some header) : header = header' := by
  simpa [DescrState.setHeader] using h.symm

theorem heap_setHeader_of_ne {b : ℕ} (header : Option (CullDescrHeader ε)) (hb : b ≠ a) :
    (s.setHeader a header).heap b = s.heap b := by
  simp [DescrState.setHeader, hb]

namespace DescrInv

variable {s' : DescrState ι ε}

theorem distinct_of_entries (hs : DescrInv hash s)
    (h : ∀ e ∈ s.map, s'.entriesOf e.2 = s.entriesOf e.2) :
    (s.map.map fun e => s'.entriesOf e.2).Nodup :=
  (List.map_congr_left h).symm ▸ hs.distinct

theorem registered_of_entries (hs : DescrInv hash s)
    (hentries : ∀ b, s'.entriesOf b = s.entriesOf b) :
    ∀ e ∈ s.map, ∃ header, s'.heap e.2 = some header ∧ e.1 = hash header.entries := by
  intro e he
  obtain ⟨old, hold, hkey⟩ := hs.registered e he
  have hmap : s'.entriesOf e.2 = some old.entries := by
    rw [hentries, DescrState.entriesOf, hold]
    rfl
  obtain ⟨new, hnew, hnewEntries⟩ := Option.map_eq_some_iff.mp hmap
  exact ⟨new, hnew, by rw [hnewEntries]; exact hkey⟩

variable {a : ℕ}

theorem notMem_map (hs : DescrInv hash s) (ha : s.heap a = none) : ∀ e ∈ s.map, e.2 ≠ a := by
  rintro e he rfl
  obtain ⟨header, hheader, -⟩ := hs.registered e he
  rw [ha] at hheader
  cases hheader

theorem holders_of_none (hs : DescrInv hash s) (ha : s.heap a = none) : s.holders a = 0 := by
  apply holders_eq_zero
  rintro r hr rfl
  have := hs.held r hr
  rw [ha] at this
  cases this

theorem initial (softCap : ℕ) : DescrInv hash (DescrState.initial softCap : DescrState ι ε) where
  count := nofun
  held := nofun
  dead := nofun
  pending := by
    rintro t a (h | h)
    · cases h
    · cases h
  single := by
    rintro t t' a (h | h)
    · cases h
    · cases h
  unlinked := nofun
  registered := nofun
  distinct := List.nodup_nil
  account := fun _ => rfl

theorem setMap (hs : DescrInv hash s) {map : List (BitVec 64 × ℕ)} {softCap : ℕ}
    {capReported : Bool} (hunlinked : ∀ t a, s.phase t = .toFree a → ∀ e ∈ map, e.2 ≠ a)
    (hregistered : ∀ e ∈ map, ∃ header, s.heap e.2 = some header ∧ e.1 = hash header.entries)
    (hdistinct : (map.map fun e => s.entriesOf e.2).Nodup) :
    DescrInv hash
      { s with map := map, softCap := softCap, capReported := capReported } where
  count := hs.count
  held := hs.held
  dead := hs.dead
  pending := hs.pending
  single := hs.single
  unlinked := hunlinked
  registered := hregistered
  distinct := hdistinct
  account := hs.account

variable {t : ι} {header : CullDescrHeader ε}

theorem takeRef (hs : DescrInv hash s) (hheap : s.heap a = some header) (hheld : s.holders a ≠ 0) :
    DescrInv hash
      ((s.setHeader a (some { header with refs := header.refs + 1 })).give t a) := by
  set s' := s.setHeader a (some { header with refs := header.refs + 1 })
  have hsome : ∀ b, (s'.heap b).isSome = (s.heap b).isSome := isSome_setHeader hheap _
  have hentries : ∀ b, s'.entriesOf b = s.entriesOf b := entriesOf_setHeader hheap rfl
  have hholders : ∀ b, (s'.give t a).holders b = s.holders b + if a = b then 1 else 0 :=
    holders_give t a
  refine ⟨?_, ?_, ?_, ?_, hs.single, hs.unlinked, hs.registered_of_entries hentries, ?_, ?_⟩
  · intro b header' hb
    rw [hholders]
    by_cases hba : b = a
    · subst hba
      rw [heap_setHeader_self hb, if_pos rfl, BitVec.ofNat_add, ← hs.count b header hheap]
      rfl
    · rw [if_neg (Ne.symm hba), Nat.add_zero]
      exact hs.count b header' ((heap_setHeader_of_ne _ hba).symm.trans hb)
  · intro r hr
    refine (hsome r.2).trans ?_
    rcases List.mem_cons.mp hr with rfl | hr
    · exact Option.isSome_iff_exists.mpr ⟨header, hheap⟩
    · exact hs.held r hr
  · intro b hb hzero
    rw [hholders] at hzero
    exact hs.dead b ((hsome b).symm.trans hb) (by omega)
  · intro u b hu
    obtain ⟨hb, hzero⟩ := hs.pending u b hu
    have hba : a ≠ b := by
      rintro rfl
      exact hheld hzero
    rw [hholders, if_neg hba]
    exact ⟨(hsome b).trans hb, hzero⟩
  · exact hs.distinct_of_entries fun e _ => hentries e.2
  · intro b
    have h := hs.account b
    rw [← hsome b] at h
    exact h

variable {addr : ℕ}

theorem alloc (hs : DescrInv hash s) (t : ι) (dp : List ε)
    (hfree : s.heap addr = none) : DescrInv hash ((s.allocCounted addr dp).give t addr) := by
  set s' := (s.allocCounted addr dp).give t addr with hs'
  have hnew : s'.heap addr = some ⟨1, dp⟩ := by
    simp [hs', DescrState.allocCounted, DescrState.setHeader, DescrState.give]
  have hold : ∀ b, b ≠ addr → s'.heap b = s.heap b := by
    intro b hb
    simp [hs', DescrState.allocCounted, DescrState.setHeader, DescrState.give, hb]
  have hholders : ∀ b, s'.holders b = s.holders b + if addr = b then 1 else 0 :=
    fun b => holders_give (s := s.allocCounted addr dp) t addr b
  have hne : ∀ b, (s.heap b).isSome → b ≠ addr := by
    rintro b hb rfl
    rw [hfree] at hb
    cases hb
  have hmapNe : ∀ e ∈ s.map, e.2 ≠ addr := hs.notMem_map hfree
  refine ⟨?_, ?_, ?_, ?_, hs.single, hs.unlinked, ?_, ?_, ?_⟩
  · intro b header hb
    rw [hholders]
    by_cases hba : b = addr
    · subst hba
      rw [hnew] at hb
      cases hb
      rw [if_pos rfl, hs.holders_of_none hfree]
      rfl
    · rw [hold b hba] at hb
      rw [if_neg (Ne.symm hba), Nat.add_zero]
      exact hs.count b header hb
  · intro r hr
    rcases List.mem_cons.mp hr with rfl | hr
    · rw [hnew]
      rfl
    · rw [hold _ (hne _ (hs.held r hr))]
      exact hs.held r hr
  · intro b hb hzero
    rw [hholders] at hzero
    have hba : b ≠ addr := by
      rintro rfl
      rw [if_pos rfl] at hzero
      exact absurd hzero (Nat.succ_ne_zero _)
    rw [hold b hba] at hb
    exact hs.dead b hb (by omega)
  · intro u b hu
    obtain ⟨hb, hzero⟩ := hs.pending u b hu
    rw [hold b (hne b hb), hholders, if_neg (Ne.symm (hne b hb))]
    exact ⟨hb, hzero⟩
  · intro e he
    rw [hold _ (hmapNe e he)]
    exact hs.registered e he
  · refine hs.distinct_of_entries fun e he => ?_
    rw [DescrState.entriesOf, hold _ (hmapNe e he)]
    rfl
  · intro b
    have hallocs : s'.allocs b = s.allocs b + if b = addr then 1 else 0 := by
      by_cases hba : b = addr
      · simp [hs', DescrState.allocCounted, DescrState.give, hba]
      · simp [hs', DescrState.allocCounted, DescrState.give, hba]
    rw [hallocs, hs.account b]
    show _ = s.frees b + _
    by_cases hba : b = addr
    · rw [if_pos hba, hba, hnew, hfree]
      rfl
    · rw [if_neg hba, hold b hba]
      rfl

theorem privateCopy (hs : DescrInv hash s) (t : ι) (dp : List ε) (hfree : s.heap addr = none) :
    DescrInv hash (DescrState.ocsCullDescrPrivate s t dp addr).1 := hs.alloc t dp hfree

theorem ref (hs : DescrInv hash s) (hmem : (t, a) ∈ s.held) :
    DescrInv hash (DescrState.ocsCullDescrRef s t a) := by
  obtain ⟨header, hheap⟩ := Option.isSome_iff_exists.mp (hs.held _ hmem)
  rw [DescrState.ocsCullDescrRef, show s.heap a = some header from hheap]
  exact hs.takeRef hheap (holders_pos hmem)

variable {dp : List ε}

theorem equalEntry_some [DecidableEq ε] {e : BitVec 64 × ℕ}
    (he : DescrState.equalEntry hash s dp = some e) :
    ∃ header, s.heap e.2 = some header ∧ header.entries = dp := by
  have hkey := lookup_key he
  obtain ⟨header, hheap, hentries⟩ := Option.map_eq_some_iff.mp (Prod.mk.inj hkey).2
  exact ⟨header, hheap, hentries⟩

variable (hs : DescrInv hash s)
include hs

theorem equalEntry_none [DecidableEq ε]
    (hnone : DescrState.equalEntry hash s dp = none) : ∀ e ∈ s.map, s.entriesOf e.2 ≠ some dp := by
  intro e he hentries
  obtain ⟨header, hheap, hkey⟩ := hs.registered e he
  have hdp : header.entries = dp := by
    rw [DescrState.entriesOf, hheap] at hentries
    exact Option.some.inj hentries
  apply lookup_eq_none.mp hnone
  exact List.mem_map.mpr ⟨e, he, by rw [hkey, hentries, hdp]⟩

theorem intern [DecidableEq ε] (t : ι) (dp : List ε) (hfree : s.heap addr = none) :
    DescrInv hash (DescrState.ocsCullDescrIntern hash s t dp addr).1 := by
  have halloc := hs.alloc t dp hfree
  have hmapNe : ∀ e ∈ s.map, e.2 ≠ addr := hs.notMem_map hfree
  have hnewHeap : ((s.allocCounted addr dp).give t addr).heap addr = some ⟨1, dp⟩ := by
    simp [DescrState.allocCounted, DescrState.setHeader, DescrState.give]
  have hnewEntries : ((s.allocCounted addr dp).give t addr).entriesOf addr = some dp := by
    rw [DescrState.entriesOf, hnewHeap]
    rfl
  have holdEntries : ∀ e ∈ s.map,
      ((s.allocCounted addr dp).give t addr).entriesOf e.2 = s.entriesOf e.2 := by
    intro e he
    simp [DescrState.entriesOf, DescrState.allocCounted, DescrState.setHeader, DescrState.give,
      hmapNe e he]
  have hpendingNe : ∀ u a, s.phase u = .toFree a → addr ≠ a := by
    rintro u a hu rfl
    have := (hs.pending u addr (Or.inr hu)).1
    rw [hfree] at this
    cases this
  unfold DescrState.ocsCullDescrIntern
  cases hentry : DescrState.equalEntry hash s dp with
  | some e =>
    obtain ⟨header, hheap, hentries⟩ := equalEntry_some hentry
    dsimp only
    rw [hheap, Option.bind_some, DescrState.refIfAlive]
    by_cases hrefs : header.refs = 0
    · -- the entry is dead, a new descriptor takes its place
      rw [if_neg (not_not.mpr hrefs)]
      apply halloc.setMap
      · intro u a hu y hy
        rcases mem_modifyFirst hy with hy | ⟨x, -, -, rfl⟩
        · exact hs.unlinked u a hu y hy
        · exact hpendingNe u a hu
      · intro y hy
        rcases mem_modifyFirst hy with hy | ⟨x, -, hkey, rfl⟩
        · exact halloc.registered y hy
        · exact ⟨⟨1, dp⟩, hnewHeap, (Prod.mk.inj hkey).1⟩
      · have hmap : (modifyFirst (fun x => (x.1, s.entriesOf x.2)) (hash dp, some dp)
            (fun x => (x.1, addr)) s.map).map
              (fun x => ((s.allocCounted addr dp).give t addr).entriesOf x.2) =
            s.map.map fun x => s.entriesOf x.2 :=
          map_modifyFirst_of holdEntries
          (fun x _ hkey => hnewEntries.trans (Prod.mk.inj hkey).2.symm)
        exact hmap ▸ hs.distinct
    · rw [if_pos hrefs]
      apply hs.takeRef hheap
      intro hzero
      apply hrefs
      rw [hs.count _ header hheap, hzero]
      rfl
  | none =>
    dsimp only
    split_ifs with hcap
    · apply halloc.setMap
      · intro u a hu y hy
        rcases List.mem_cons.mp hy with rfl | hy
        · exact hpendingNe u a hu
        · exact hs.unlinked u a hu y hy
      · intro y hy
        rcases List.mem_cons.mp hy with rfl | hy
        · exact ⟨⟨1, dp⟩, hnewHeap, rfl⟩
        · exact halloc.registered y hy
      · rw [List.map_cons, List.nodup_cons, List.map_congr_left holdEntries]
        refine ⟨fun hmem => ?_, hs.distinct⟩
        obtain ⟨e, he, heq⟩ := List.mem_map.mp hmem
        exact hs.equalEntry_none hentry e he (heq.trans hnewEntries)
    · exact halloc.setMap halloc.unlinked halloc.registered halloc.distinct

/-- A count that does not overflow is the number of references. -/
theorem refs_toNat (hfew : FewHolders s) (hheap : s.heap a = some header) :
    header.refs.toNat = s.holders a := by
  rw [hs.count a header hheap, BitVec.toNat_ofNat, Nat.mod_eq_of_lt (hfew a)]

/-- One reference less. With the last one, the thread `t` is about to free the
descriptor. -/
theorem dropRef [DecidableEq ι] (hheap : s.heap a = some header)
    (hmem : (t, a) ∈ s.held) {phase : ι → ReleasePhase}
    (hfrees : ∀ u b, (phase u).frees b ↔ (s.phase u).frees b ∨ u = t ∧ b = a ∧ s.holders a = 1)
    (htoFree : ∀ u b, phase u = .toFree b → s.phase u = .toFree b) :
    DescrInv hash { s.setHeader a (some { header with refs := header.refs - 1 }) with
      held := s.held.erase (t, a), phase := phase } := by
  have hpos := holders_pos hmem
  set s' := s.setHeader a (some { header with refs := header.refs - 1 })
  have hsome : ∀ b, (s'.heap b).isSome = (s.heap b).isSome := isSome_setHeader hheap _
  have hentries : ∀ b, s'.entriesOf b = s.entriesOf b := entriesOf_setHeader hheap rfl
  have hholders : ∀ b, (s.held.erase (t, a)).countP (fun r => decide (r.2 = b)) =
      s.holders b - if a = b then 1 else 0 := by
    intro b
    rw [List.countP_erase]
    simp [hmem, DescrState.holders]
  refine ⟨?_, ?_, ?_, ?_, ?_, ?_, hs.registered_of_entries hentries, ?_, ?_⟩
  · intro b header' hb
    rw [DescrState.holders, hholders]
    by_cases hba : b = a
    · subst hba
      obtain ⟨n, hn⟩ := Nat.exists_eq_succ_of_ne_zero hpos
      rw [heap_setHeader_self hb, if_pos rfl, hs.count b header hheap, hn, Nat.succ_eq_add_one,
        BitVec.ofNat_add]
      exact BitVec.add_sub_cancel _ _
    · rw [if_neg (Ne.symm hba), Nat.sub_zero]
      exact hs.count b header' ((heap_setHeader_of_ne _ hba).symm.trans hb)
  · intro r hr
    exact (hsome r.2).trans (hs.held r (List.mem_of_mem_erase hr))
  · intro b hb hzero
    rw [DescrState.holders, hholders] at hzero
    by_cases hba : a = b
    · subst hba
      rw [if_pos rfl] at hzero
      exact ⟨t, (hfrees t a).mpr (Or.inr ⟨rfl, rfl, by omega⟩)⟩
    · rw [if_neg hba, Nat.sub_zero] at hzero
      obtain ⟨u, hu⟩ := hs.dead b ((hsome b).symm.trans hb) hzero
      exact ⟨u, (hfrees u b).mpr (Or.inl hu)⟩
  · intro u b hu
    rw [DescrState.holders, hholders]
    rcases (hfrees u b).mp hu with hu | ⟨-, rfl, hone⟩
    · obtain ⟨hb, hzero⟩ := hs.pending u b hu
      rw [hzero, Nat.zero_sub]
      exact ⟨(hsome b).trans hb, rfl⟩
    · rw [if_pos rfl, hone]
      exact ⟨(hsome b).trans (hs.held _ hmem), rfl⟩
  · intro u u' b hu hu'
    rcases (hfrees u b).mp hu with h | ⟨rfl, rfl, -⟩
    · rcases (hfrees u' b).mp hu' with h' | ⟨rfl, rfl, -⟩
      · exact hs.single u u' b h h'
      · exact absurd (hs.pending u b h).2 hpos
    · rcases (hfrees u' b).mp hu' with h' | ⟨rfl, -, -⟩
      · exact absurd (hs.pending u' b h').2 hpos
      · rfl
  · exact fun u b hu => hs.unlinked u b (htoFree u b hu)
  · exact hs.distinct_of_entries fun e _ => hentries e.2
  · intro b
    have h := hs.account b
    rw [← hsome b] at h
    exact h

theorem release [DecidableEq ι] (hfew : FewHolders s)
    (hphase : s.phase t = .outside) (hmem : (t, a) ∈ s.held) :
    DescrInv hash (DescrState.ocsCullDescrRelease s t a) := by
  obtain ⟨header, hheap⟩ := Option.isSome_iff_exists.mp (hs.held _ hmem)
  replace hheap : s.heap a = some header := hheap
  have hone : header.refs = 1 ↔ s.holders a = 1 := by
    rw [← hs.refs_toNat hfew hheap, ← BitVec.toNat_inj]
    rfl
  simp only [DescrState.ocsCullDescrRelease, hheap, Option.map_some, Option.any_some,
    decide_eq_true_eq, hone]
  split_ifs with hlast
  · refine hs.dropRef hheap hmem (fun u b => ?_) fun u b hu => ?_
    · by_cases hut : u = t
      · subst hut
        rw [Function.update_self, hphase]
        simp [ReleasePhase.frees, hlast, eq_comm]
      · simp [hut]
    · by_cases hut : u = t
      · subst hut
        rw [Function.update_self] at hu
        cases hu
      · rwa [Function.update_of_ne hut] at hu
  · refine hs.dropRef hheap hmem (fun u b => ?_) fun u b hu => hu
    simp [hlast, DescrState.setHeader]

/-- Removing the descriptor from the registry, if it is still there. -/
theorem eraseDescr [DecidableEq ι] (hphase : s.phase t = .toErase a) :
    DescrInv hash (DescrState.eraseDescr hash s t a) := by
  obtain ⟨ha, hzero⟩ := hs.pending t a (Or.inl hphase)
  obtain ⟨header, hheap⟩ := Option.isSome_iff_exists.mp ha
  have hsub : ∀ e ∈ s.map.erase (hash header.entries, a), e ∈ s.map :=
    fun e he => List.mem_of_mem_erase he
  have hgone : ∀ e ∈ s.map.erase (hash header.entries, a), e.2 ≠ a := by
    rintro ⟨key, b⟩ he rfl
    obtain ⟨header', hheap', hkey⟩ := hs.registered _ (hsub _ he)
    obtain rfl : header = header' := Option.some.inj (hheap.symm.trans hheap')
    rw [show key = hash header.entries from hkey] at he
    exact (List.Nodup.of_map _ hs.distinct).not_mem_erase he
  have hfrees : ∀ u b, (Function.update s.phase t (.toFree a) u).frees b ↔ (s.phase u).frees b := by
    intro u b
    by_cases hut : u = t
    · subst hut
      rw [Function.update_self, hphase]
      simp [ReleasePhase.frees]
    · rw [Function.update_of_ne hut]
  simp only [DescrState.eraseDescr, hheap]
  refine ⟨hs.count, hs.held, ?_, ?_, ?_, ?_, ?_, ?_, hs.account⟩
  · intro b hb hzero
    obtain ⟨u, hu⟩ := hs.dead b hb hzero
    exact ⟨u, (hfrees u b).mpr hu⟩
  · exact fun u b hu => hs.pending u b ((hfrees u b).mp hu)
  · exact fun u u' b hu hu' => hs.single u u' b ((hfrees u b).mp hu) ((hfrees u' b).mp hu')
  · intro u b hu e he
    replace hu : Function.update s.phase t (.toFree a) u = .toFree b := hu
    by_cases hut : u = t
    · subst hut
      rw [Function.update_self] at hu
      obtain rfl := ReleasePhase.toFree.inj hu
      exact hgone e he
    · rw [Function.update_of_ne hut] at hu
      exact hs.unlinked u b hu e (hsub e he)
  · exact fun e he => hs.registered e (hsub e he)
  · exact hs.distinct.sublist (List.erase_sublist.map _)

theorem finishRelease [DecidableEq ι] (hphase : s.phase t = .toFree a) :
    DescrInv hash (DescrState.finishRelease s t a) := by
  obtain ⟨ha, hzero⟩ := hs.pending t a (Or.inr hphase)
  set s' := DescrState.finishRelease s t a with hs'
  have hgone : s'.heap a = none := by
    simp [hs', DescrState.finishRelease, DescrState.freeCounted, DescrState.setHeader]
  have hold : ∀ b, b ≠ a → s'.heap b = s.heap b := by
    intro b hb
    simp [hs', DescrState.finishRelease, DescrState.freeCounted, DescrState.setHeader, hb]
  have hne : ∀ b, (s'.heap b).isSome → b ≠ a := by
    rintro b hb rfl
    rw [hgone] at hb
    cases hb
  have hother : ∀ u b, (s'.phase u).frees b → u ≠ t ∧ (s.phase u).frees b := by
    intro u b hu
    have hut : u ≠ t := by
      rintro rfl
      rw [show s'.phase u = .outside from Function.update_self u _ _] at hu
      rcases hu with hu | hu
      · cases hu
      · cases hu
    rw [show s'.phase u = s.phase u from Function.update_of_ne hut _ _] at hu
    exact ⟨hut, hu⟩
  have hmapNe : ∀ e ∈ s.map, e.2 ≠ a := hs.unlinked t a hphase
  refine ⟨?_, ?_, ?_, ?_, ?_, ?_, ?_, ?_, ?_⟩
  · intro b header hb
    rw [hold b (hne b (by rw [hb]; rfl))] at hb
    exact hs.count b header hb
  · intro r hr
    have hra : r.2 ≠ a := by
      rintro rfl
      exact holders_pos (t := r.1) hr hzero
    rw [hold _ hra]
    exact hs.held r hr
  · intro b hb hzero'
    have hba := hne b hb
    rw [hold b hba] at hb
    obtain ⟨u, hu⟩ := hs.dead b hb hzero'
    have hut : u ≠ t := by
      rintro rfl
      rw [hphase] at hu
      rcases hu with hu | hu
      · cases hu
      · exact hba (ReleasePhase.toFree.inj hu).symm
    exact ⟨u, by rw [show s'.phase u = s.phase u from Function.update_of_ne hut _ _]; exact hu⟩
  · intro u b hu
    obtain ⟨hut, hold'⟩ := hother u b hu
    obtain ⟨hb, hbzero⟩ := hs.pending u b hold'
    have hba : b ≠ a := by
      rintro rfl
      exact hut (hs.single u t b hold' (Or.inr hphase))
    rw [hold b hba]
    exact ⟨hb, hbzero⟩
  · exact fun u u' b hu hu' => hs.single u u' b (hother u b hu).2 (hother u' b hu').2
  · intro u b hu
    obtain ⟨hut, -⟩ := hother u b (Or.inr hu)
    rw [show s'.phase u = s.phase u from Function.update_of_ne hut _ _] at hu
    exact hs.unlinked u b hu
  · intro e he
    rw [hold _ (hmapNe e he)]
    exact hs.registered e he
  · refine hs.distinct_of_entries fun e he => ?_
    rw [DescrState.entriesOf, hold _ (hmapNe e he)]
    rfl
  · intro b
    have hfreesAt : s'.frees b = s.frees b + if b = a then 1 else 0 := by
      by_cases hba : b = a
      · simp [hs', DescrState.finishRelease, DescrState.freeCounted, hba]
      · simp [hs', DescrState.finishRelease, DescrState.freeCounted, hba]
    rw [hfreesAt, show s'.allocs b = s.allocs b from rfl, hs.account b]
    by_cases hba : b = a
    · rw [if_pos hba, hba, hgone, ha]
      rfl
    · rw [if_neg hba, hold b hba]
      rfl

theorem step [DecidableEq ι] [DecidableEq ε] (hfew : FewHolders s)
    {act : DescrAct ι ε} (hstep : descrStep hash s act = some s') : DescrInv hash s' := by
  cases act with
  | intern t dp addr =>
    obtain ⟨⟨-, hfree⟩, hstep⟩ := Option.ite_none_right_eq_some.mp hstep
    cases hstep
    exact hs.intern t dp (Option.isNone_iff_eq_none.mp hfree)
  | privateCopy t dp addr =>
    obtain ⟨⟨-, hfree⟩, hstep⟩ := Option.ite_none_right_eq_some.mp hstep
    cases hstep
    exact hs.privateCopy t dp (Option.isNone_iff_eq_none.mp hfree)
  | ref t a =>
    obtain ⟨⟨-, hmem⟩, hstep⟩ := Option.ite_none_right_eq_some.mp hstep
    cases hstep
    exact hs.ref hmem
  | release t a =>
    obtain ⟨⟨hphase, hmem⟩, hstep⟩ := Option.ite_none_right_eq_some.mp hstep
    cases hstep
    exact hs.release hfew hphase hmem
  | erase t a =>
    obtain ⟨hphase, hstep⟩ := Option.ite_none_right_eq_some.mp hstep
    cases hstep
    exact hs.eraseDescr hphase
  | free t a =>
    obtain ⟨hphase, hstep⟩ := Option.ite_none_right_eq_some.mp hstep
    cases hstep
    exact hs.finishRelease hphase
  | setSoftCap cap =>
    cases hstep
    exact hs.setMap hs.unlinked hs.registered hs.distinct

end DescrInv

end Invariant

/-! ## Runs -/

section Runs

variable {ι ε : Type*} [DecidableEq ι] [DecidableEq ε] {hash : List ε → BitVec 64}

/-- What threads reach that call the functions in any order, all states being in `P`. -/
inductive DescrRun (hash : List ε → BitVec 64) (softCap : ℕ) (P : DescrState ι ε → Prop) :
    DescrState ι ε → Prop
  | init : DescrRun hash softCap P (.initial softCap)
  | step {s s' : DescrState ι ε} (act : DescrAct ι ε) :
      DescrRun hash softCap P s → descrStep hash s act = some s' → P s' →
      DescrRun hash softCap P s'

/-- Descriptors live exactly as long as they are held: those that are held are there with
the right count; every one that was allocated is there or was freed once; one that is no
longer held is freed by one thread. A lookup returns a descriptor that is alive, and the
registry holds no two with the same entries and none that was freed. -/
structure DescrSafe (hash : List ε → BitVec 64) (s : DescrState ι ε) : Prop where
  held_live : ∀ t a, (t, a) ∈ s.held → (s.heap a).isSome
  count : ∀ a header, s.heap a = some header → header.refs.toNat = s.holders a
  freed_once : ∀ a, s.allocs a = s.frees a + if (s.heap a).isSome then 1 else 0
  freed_by_one : ∀ a, (s.heap a).isSome → s.holders a = 0 → ∃! t, (s.phase t).frees a
  frees_dead : ∀ t a, (s.phase t).frees a → (s.heap a).isSome ∧ s.holders a = 0
  intern_live : ∀ t dp addr, s.phase t = .outside → s.heap addr = none →
    let r := DescrState.ocsCullDescrIntern hash s t dp addr
    FewHolders r.1 → (t, r.2) ∈ r.1.held ∧
      ∃ header, r.1.heap r.2 = some header ∧ header.refs ≠ 0 ∧ header.entries = dp
  registry_distinct : s.map.Pairwise fun e e' => s.entriesOf e.2 ≠ s.entriesOf e'.2
  registry_live : ∀ e ∈ s.map, (s.heap e.2).isSome

variable {s : DescrState ι ε}

theorem DescrRun.inv {softCap : ℕ}
    (h : DescrRun hash softCap FewHolders s) : DescrInv hash s ∧ FewHolders s := by
  induction h with
  | init => exact ⟨.initial softCap, fun a => Nat.two_pow_pos 32⟩
  | step act _ hstep hfew ih => exact ⟨ih.1.step ih.2 hstep, hfew⟩

omit [DecidableEq ι] in
/-- The descriptor that a lookup returns has the entries asked for. -/
theorem intern_returns (hash : List ε → BitVec 64) (s : DescrState ι ε) (t : ι) (dp : List ε)
    (addr : ℕ) :
    let r := DescrState.ocsCullDescrIntern hash s t dp addr
    (t, r.2) ∈ r.1.held ∧ r.1.entriesOf r.2 = some dp := by
  have hnew : ∀ map capReported, ({ s.allocCounted addr dp with
      map := map, capReported := capReported }.give t addr).entriesOf addr = some dp := by
    intro map capReported
    simp [DescrState.entriesOf, DescrState.allocCounted, DescrState.setHeader, DescrState.give]
  unfold DescrState.ocsCullDescrIntern
  cases hentry : DescrState.equalEntry hash s dp with
  | some e =>
    obtain ⟨header, hheap, hentries⟩ := DescrInv.equalEntry_some hentry
    dsimp only
    rw [hheap, Option.bind_some, DescrState.refIfAlive]
    split_ifs with hrefs
    · have hsame : ∀ b, (s.setHeader e.2 (some { header with
          refs := header.refs + 1 })).entriesOf b = s.entriesOf b :=
        entriesOf_setHeader hheap rfl
      refine ⟨.head _, Eq.trans (hsame e.2) ?_⟩
      rw [DescrState.entriesOf, hheap, Option.map_some, hentries]
    · exact ⟨.head _, hnew _ _⟩
  | none =>
    dsimp only
    split_ifs with hcap
    · exact ⟨.head _, hnew _ _⟩
    · exact ⟨.head _, hnew _ _⟩

omit [DecidableEq ι] in
theorem DescrInv.safe (hs : DescrInv hash s) (hfew : FewHolders s) : DescrSafe hash s where
  held_live := fun _ _ h => hs.held _ h
  count := fun _ _ h => hs.refs_toNat hfew h
  freed_once := hs.account
  freed_by_one := by
    intro a ha hzero
    obtain ⟨t, ht⟩ := hs.dead a ha hzero
    exact ⟨t, ht, fun u hu => hs.single u t a hu ht⟩
  frees_dead := hs.pending
  intern_live := by
    intro t dp addr _ hfree r hfew'
    obtain ⟨hheld, hentries⟩ := intern_returns hash s t dp addr
    obtain ⟨header, hheap, hdp⟩ := Option.map_eq_some_iff.mp hentries
    refine ⟨hheld, header, hheap, fun hzero => ?_, hdp⟩
    have hcount := (hs.intern t dp hfree).refs_toNat hfew' hheap
    rw [hzero] at hcount
    exact holders_pos hheld hcount.symm
  registry_distinct := List.pairwise_map.mp hs.distinct
  registry_live := by
    intro e he
    obtain ⟨header, hheap, -⟩ := hs.registered e he
    exact Option.isSome_iff_exists.mpr ⟨header, hheap⟩

/-- **Shared descriptors are safe** in every run in which no descriptor has as many as
`2 ^ 32` references at once. -/
theorem descr_run_safe (hash : List ε → BitVec 64) (softCap : ℕ) (s : DescrState ι ε)
    (h : DescrRun hash softCap FewHolders s) : DescrSafe hash s :=
  h.inv.1.safe h.inv.2

omit [DecidableEq ι] [DecidableEq ε] in
theorem fewHolders_of_length (h : s.held.length < 2 ^ 32) :
    FewHolders s := fun _ => lt_of_le_of_lt List.countP_le_length h

end Runs

def collide : List ℕ → BitVec 64 := fun _ => 0

/-- A thread looks up a descriptor that another one has given up but not yet removed. The
new descriptor takes the place of the dying one, which is freed afterwards. -/
theorem descr_run_safe_dying : ∃ s : DescrState Bool ℕ,
    s.held = [(true, 8)] ∧ s.map = [(0, 8)] ∧ s.frees 4 = 1 ∧ DescrSafe collide s := by
  have h₁ : DescrRun (ι := Bool) collide 10 FewHolders _ :=
    .step (.intern false [1, 2] 4) .init rfl (fewHolders_of_length (by decide))
  have h₂ := h₁.step (.release false 4) rfl (fewHolders_of_length (by decide))
  have h₃ := h₂.step (.intern true [1, 2] 8) rfl (fewHolders_of_length (by decide))
  have h₄ := h₃.step (.erase false 4) rfl (fewHolders_of_length (by decide))
  have h₅ := h₄.step (.free false 4) rfl (fewHolders_of_length (by decide))
  exact ⟨_, rfl, rfl, rfl, descr_run_safe collide 10 _ h₅⟩

theorem exists_run_of_holders (n : ℕ) : ∃ s : DescrState Unit ℕ,
    DescrRun collide 10 (fun _ => True) s ∧ ((), 4) ∈ s.held ∧ s.phase () = .outside ∧
      s.holders 4 = n + 1 ∧ s.heap 4 = some ⟨BitVec.ofNat 32 (n + 1), [1, 2]⟩ := by
  induction n with
  | zero =>
    exact ⟨_, .step (.intern () [1, 2] 4) .init rfl trivial, .head _, rfl, rfl, rfl⟩
  | succ n ih =>
    obtain ⟨s, hrun, hheld, hphase, hholders, hheap⟩ := ih
    refine ⟨s.ocsCullDescrRef () 4, hrun.step (.ref () 4) (if_pos ⟨hphase, hheld⟩) trivial,
      (.head _), hphase, ?_, ?_⟩
    · rw [DescrState.ocsCullDescrRef, holders_give]
      show s.holders 4 + 1 = n + 1 + 1
      rw [hholders]
    · rw [DescrState.ocsCullDescrRef, hheap]
      simp [DescrState.setHeader, DescrState.give, BitVec.ofNat_add]

/-- With `2 ^ 32` references the count is zero. -/
theorem not_descr_run_safe : ¬ ∀ s : DescrState Unit ℕ,
    DescrRun collide 10 (fun _ => True) s → DescrSafe collide s := by
  intro h
  obtain ⟨s, hrun, -, -, hholders, hheap⟩ := exists_run_of_holders (2 ^ 32 - 1)
  have hcount := (h s hrun).count 4 _ hheap
  rw [hholders] at hcount
  exact absurd hcount (by decide)

end ClusterScheduler.Cull
