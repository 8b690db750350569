import ClusterScheduler.Sched.UtilizationBelow

/-!
# The queue end time iterator

A reservation is sought backwards in time, from one change of a relevant diagram to the
change before it. The iterator keeps a reference into every diagram.

* `QetiRef`, `Qeti` — the references, by the level of their resource.
* `sgeQetiFirst`, `sgeQetiNext`, `sgeQetiNextBefore` — the functions of the source.
* `Enumerates` — the times an iteration goes through until it returns zero.
* `sgeQeti_enumerates` — they are the times of all entries.
-/

namespace ClusterScheduler.Sched

open Foundation

/-! ## Data -/

/-- A resource, and the reference to the entry that ends next: the entries from it back to
the first one, latest first, or nothing for a null reference. -/
structure QetiRef where
  utilized : List Rde
  queueEndNext : List Rde
  increasing : utilized.Pairwise fun e e' => e.time < e'.time
  bounded : ∀ e ∈ utilized, e.time < 2 ^ 64
  within : queueEndNext <:+ utilized.reverse

structure Qeti where
  crRefsPe : List QetiRef
  crRefsGlobal : List QetiRef
  crRefsHost : List QetiRef
  crRefsQueue : List QetiRef

/-! ## Functions of the source -/

/-- The reference to the last entry. -/
def QetiRef.initRef (r : QetiRef) : QetiRef :=
  { r with
    queueEndNext := r.utilized.reverse
    within := List.suffix_refl _ }

def sgeQetiInitRefs (refs : List QetiRef) : List QetiRef := refs.map QetiRef.initRef

/-- Finished references are skipped. -/
def sgeQetiMaxEndTime (maxTime : ℕ) (refs : List QetiRef) : ℕ :=
  refs.foldl (fun tmpTime r =>
    match r.queueEndNext with
    | [] => tmpTime
    | ref :: _ => max tmpTime ref.time) maxTime

def QetiRef.switchToNext (time : ℕ) (r : QetiRef) : QetiRef :=
  { r with
    queueEndNext := r.queueEndNext.dropWhile fun ref => time < ref.time
    within := (List.dropWhile_suffix _).trans r.within }

def sgeQetiSwitchToNext (time : ℕ) (refs : List QetiRef) : List QetiRef :=
  refs.map (QetiRef.switchToNext ((time + uint64Max) % 2 ^ 64))

def sgeQetiNextBefore (q : Qeti) (start : ℕ) : Qeti where
  crRefsPe := sgeQetiSwitchToNext start q.crRefsPe
  crRefsGlobal := sgeQetiSwitchToNext start q.crRefsGlobal
  crRefsHost := sgeQetiSwitchToNext start q.crRefsHost
  crRefsQueue := sgeQetiSwitchToNext start q.crRefsQueue

/-- The time of the latest entry referred to, and the references behind it. -/
def sgeQetiNext (q : Qeti) : ℕ × Qeti :=
  let time := sgeQetiMaxEndTime dispatchTimeNow q.crRefsPe
  let time := sgeQetiMaxEndTime time q.crRefsGlobal
  let time := sgeQetiMaxEndTime time q.crRefsHost
  let time := sgeQetiMaxEndTime time q.crRefsQueue
  (time, sgeQetiNextBefore q time)

def sgeQetiFirst (q : Qeti) : ℕ × Qeti :=
  sgeQetiNext
    { crRefsPe := sgeQetiInitRefs q.crRefsPe
      crRefsGlobal := sgeQetiInitRefs q.crRefsGlobal
      crRefsHost := sgeQetiInitRefs q.crRefsHost
      crRefsQueue := sgeQetiInitRefs q.crRefsQueue }

/-! ## The times of an iteration -/

/-- The times that are returned, by a first call and then by `sgeQetiNext`, until it is
zero. -/
inductive Enumerates : ℕ × Qeti → List ℕ → Prop where
  | done (q : Qeti) : Enumerates (0, q) []
  | step {t : ℕ} {q : Qeti} {ts : List ℕ} (ht : t ≠ 0) (hts : Enumerates (sgeQetiNext q) ts) :
      Enumerates (t, q) (t :: ts)

namespace Qeti

def refs (q : Qeti) : List QetiRef :=
  q.crRefsPe ++ q.crRefsGlobal ++ q.crRefsHost ++ q.crRefsQueue

/-- A time is one of an entry that has not been passed. -/
def Ahead (q : Qeti) (t : ℕ) : Prop := ∃ r ∈ q.refs, ∃ e ∈ r.queueEndNext, e.time = t

end Qeti

variable {q : Qeti} {t start : ℕ}

/-! ## One reference -/

namespace QetiRef

variable (r : QetiRef)

theorem decreasing : r.queueEndNext.Pairwise fun e e' => e'.time < e.time :=
  (List.pairwise_reverse.mpr r.increasing).sublist r.within.sublist

variable {e : Rde}

theorem lt_of_mem (h : e ∈ r.queueEndNext) : e.time < 2 ^ 64 :=
  r.bounded e (List.mem_reverse.mp (r.within.subset h))

/-- What is passed by are the entries at the time or after it. -/
theorem mem_switchToNext {time : ℕ} :
    e ∈ (r.switchToNext time).queueEndNext ↔ e ∈ r.queueEndNext ∧ e.time ≤ time := by
  have hdecr := r.decreasing
  show e ∈ r.queueEndNext.dropWhile _ ↔ _
  generalize r.queueEndNext = l at hdecr ⊢
  induction l with
  | nil => simp
  | cons ref rest ih =>
    obtain ⟨hhead, hrest⟩ := List.pairwise_cons.mp hdecr
    by_cases hlt : time < ref.time
    · rw [List.dropWhile_cons, if_pos (decide_eq_true hlt), ih hrest, List.mem_cons]
      constructor
      · exact fun h => ⟨Or.inr h.1, h.2⟩
      · rintro ⟨rfl | h, hle⟩
        · omega
        · exact ⟨h, hle⟩
    · rw [List.dropWhile_cons, if_neg (by simpa using hlt)]
      constructor
      · intro h
        refine ⟨h, ?_⟩
        rcases List.mem_cons.mp h with rfl | h
        · exact not_lt.mp hlt
        · have := hhead e h
          omega
      · exact fun h => h.1

end QetiRef

/-! ## All references -/

theorem sgeQetiMaxEndTime_append (maxTime : ℕ) (l l' : List QetiRef) :
    sgeQetiMaxEndTime maxTime (l ++ l') =
      sgeQetiMaxEndTime (sgeQetiMaxEndTime maxTime l) l' := List.foldl_append

theorem sgeQetiNext_fst (q : Qeti) :
    (sgeQetiNext q).1 = sgeQetiMaxEndTime dispatchTimeNow q.refs := by
  rw [Qeti.refs, sgeQetiMaxEndTime_append, sgeQetiMaxEndTime_append, sgeQetiMaxEndTime_append]
  rfl

theorem refs_nextBefore (q : Qeti) (start : ℕ) :
    (sgeQetiNextBefore q start).refs = sgeQetiSwitchToNext start q.refs := by
  simp [Qeti.refs, sgeQetiNextBefore, sgeQetiSwitchToNext]

/-- The largest time is that of an entry, or the one to begin with, and no entry is later. -/
theorem sgeQetiMaxEndTime_spec (maxTime : ℕ) (l : List QetiRef) :
    (sgeQetiMaxEndTime maxTime l = maxTime ∨
      ∃ r ∈ l, ∃ e ∈ r.queueEndNext, e.time = sgeQetiMaxEndTime maxTime l) ∧
    maxTime ≤ sgeQetiMaxEndTime maxTime l ∧
      ∀ r ∈ l, ∀ e ∈ r.queueEndNext, e.time ≤ sgeQetiMaxEndTime maxTime l := by
  induction l generalizing maxTime with
  | nil => exact ⟨Or.inl rfl, le_refl _, List.forall_mem_nil _⟩
  | cons r l ih =>
    rw [sgeQetiMaxEndTime, List.foldl_cons]
    have hdecr := r.decreasing
    cases hnext : r.queueEndNext with
    | nil =>
      obtain ⟨hattained, hle, hall⟩ := ih maxTime
      refine ⟨hattained.imp_right ?_, hle, List.forall_mem_cons.mpr ⟨?_, hall⟩⟩
      · rintro ⟨r', hr', h⟩
        exact ⟨r', List.mem_cons_of_mem r hr', h⟩
      · rw [hnext]
        exact List.forall_mem_nil _
    | cons ref rest =>
      obtain ⟨hattained, hle, hall⟩ := ih (max maxTime ref.time)
      refine ⟨?_, (le_max_left _ _).trans hle, List.forall_mem_cons.mpr ⟨?_, hall⟩⟩
      · rcases hattained with h | ⟨r', hr', h⟩
        · rcases max_cases maxTime ref.time with ⟨hmax, -⟩ | ⟨hmax, -⟩
          · exact Or.inl (h.trans hmax)
          · refine Or.inr ⟨r, .head _, ref, ?_, (h.trans hmax).symm⟩
            rw [hnext]
            exact .head _
        · exact Or.inr ⟨r', List.mem_cons_of_mem r hr', h⟩
      · intro e he
        rw [hnext] at he hdecr
        refine le_trans ?_ ((le_max_right _ _).trans hle)
        rcases List.mem_cons.mp he with rfl | he
        · exact le_refl _
        · exact ((List.pairwise_cons.mp hdecr).1 e he).le

/-- The next time is the latest of those ahead, or zero. -/
theorem sgeQetiNext_spec (q : Qeti) :
    ((sgeQetiNext q).1 = 0 ∨ q.Ahead (sgeQetiNext q).1) ∧ ∀ t, q.Ahead t → t ≤ (sgeQetiNext q).1 := by
  rw [sgeQetiNext_fst]
  obtain ⟨hattained, -, hall⟩ := sgeQetiMaxEndTime_spec dispatchTimeNow q.refs
  refine ⟨hattained, ?_⟩
  rintro t ⟨r, hr, e, he, rfl⟩
  exact hall r hr e he

/-- **Times before another** are left ahead. -/
theorem ahead_nextBefore (hpos : 0 < start) (hlt : start < 2 ^ 64) :
    (sgeQetiNextBefore q start).Ahead t ↔ q.Ahead t ∧ t < start := by
  have hpred : (start + uint64Max) % 2 ^ 64 = start - 1 := by
    unfold uint64Max
    omega
  rw [Qeti.Ahead, refs_nextBefore, sgeQetiSwitchToNext, hpred]
  simp only [List.mem_map, Qeti.Ahead]
  constructor
  · rintro ⟨-, ⟨r, hr, rfl⟩, e, he, rfl⟩
    obtain ⟨he, hle⟩ := r.mem_switchToNext.mp he
    exact ⟨⟨r, hr, e, he, rfl⟩, by omega⟩
  · rintro ⟨⟨r, hr, e, he, rfl⟩, ht⟩
    exact ⟨_, ⟨r, hr, rfl⟩, e, r.mem_switchToNext.mpr ⟨he, by omega⟩, rfl⟩

theorem ahead_lt (h : q.Ahead t) : t < 2 ^ 64 := by
  obtain ⟨r, -, e, he, rfl⟩ := h
  exact r.lt_of_mem he

/-! ## The sequence -/

/-- The iteration ends: each time is below the one before. The induction is on a bound of
the times ahead. -/
theorem exists_enumerates (q : Qeti) : ∃ ts, Enumerates (sgeQetiNext q) ts ∧
    ts.Pairwise (· > ·) ∧ ∀ t, t ∈ ts ↔ t ≠ 0 ∧ q.Ahead t := by
  obtain ⟨bound, hbound⟩ : ∃ bound, (sgeQetiNext q).1 < bound := ⟨_, Nat.lt_succ_self _⟩
  induction bound generalizing q with
  | zero => exact absurd hbound (Nat.not_lt_zero _)
  | succ bound ih =>
    obtain ⟨hattained, hall⟩ := sgeQetiNext_spec q
    obtain hzero | hpos := Nat.eq_zero_or_pos (sgeQetiNext q).1
    · refine ⟨[], ?_, List.Pairwise.nil, fun t => iff_of_false List.not_mem_nil ?_⟩
      · have hdone := Enumerates.done (sgeQetiNext q).2
        rwa [← hzero] at hdone
      · rintro ⟨hne, hahead⟩
        have := hall t hahead
        omega
    have hahead : q.Ahead (sgeQetiNext q).1 := hattained.resolve_left hpos.ne'
    have hbehind : ∀ t, (sgeQetiNext q).2.Ahead t ↔ q.Ahead t ∧ t < (sgeQetiNext q).1 :=
      fun t => ahead_nextBefore hpos (ahead_lt hahead)
    -- the time after it is zero, or ahead of what is left
    have hnext : (sgeQetiNext (sgeQetiNext q).2).1 < (sgeQetiNext q).1 := by
      rcases (sgeQetiNext_spec (sgeQetiNext q).2).1 with h | h
      · rw [h]
        exact hpos
      · exact ((hbehind _).mp h).2
    obtain ⟨ts, hts, hsorted, hmem⟩ := ih (sgeQetiNext q).2 (by omega)
    refine ⟨(sgeQetiNext q).1 :: ts, .step hpos.ne' hts,
      List.pairwise_cons.mpr ⟨fun t ht => ?_, hsorted⟩, fun t => ?_⟩
    · exact ((hbehind t).mp ((hmem t).mp ht).2).2
    · rw [List.mem_cons, hmem, hbehind]
      constructor
      · rintro (rfl | ⟨hne, h, -⟩)
        · exact ⟨hpos.ne', hahead⟩
        · exact ⟨hne, h⟩
      · rintro ⟨hne, h⟩
        rcases (hall t h).lt_or_eq with hlt | heq
        · exact Or.inr ⟨hne, h, hlt⟩
        · exact Or.inl heq

variable {ts ts' : List ℕ}

theorem Enumerates.unique {r : ℕ × Qeti} (h : Enumerates r ts)
    (h' : Enumerates r ts') : ts = ts' := by
  induction h generalizing ts' with
  | done q =>
    cases h' with
    | done => rfl
    | step ht => exact absurd rfl ht
  | step ht hts ih =>
    cases h' with
    | done => exact absurd rfl ht
    | step ht' hts' => rw [ih hts']

/-- Decreasing lists with the same members are the same. -/
theorem eq_of_decreasing (h : ts.Pairwise (· > ·)) (h' : ts'.Pairwise (· > ·))
    (hmem : ∀ t, t ∈ ts ↔ t ∈ ts') : ts = ts' := by
  have hnodup : ∀ {l : List ℕ}, l.Pairwise (· > ·) → l.Nodup := fun hl =>
    hl.imp fun hgt => Nat.ne_of_gt hgt
  have hperm := (List.perm_ext_iff_of_nodup (hnodup h) (hnodup h')).mpr hmem
  exact hperm.eq_of_pairwise (fun a b _ _ hab hba => absurd hab (Nat.lt_asymm hba)) h h'

/-- **The queue end times.** From the first one on, all times of the diagrams but zero are
returned, the latest first and each once. Those left before a time are the ones below it. -/
theorem sgeQeti_enumerates (q : Qeti) :
    (∃ ts, Enumerates (sgeQetiFirst q) ts ∧ ts.Pairwise (· > ·) ∧
      ∀ t, t ∈ ts ↔ t ≠ 0 ∧ ∃ r ∈ q.refs, ∃ e ∈ r.utilized, e.time = t) ∧
    ∀ start ts, 0 < start → start < 2 ^ 64 → Enumerates (sgeQetiNext q) ts →
      Enumerates (sgeQetiNext (sgeQetiNextBefore q start)) (ts.filter (· < start)) := by
  constructor
  · obtain ⟨ts, hts, hsorted, hmem⟩ := exists_enumerates
      { crRefsPe := sgeQetiInitRefs q.crRefsPe
        crRefsGlobal := sgeQetiInitRefs q.crRefsGlobal
        crRefsHost := sgeQetiInitRefs q.crRefsHost
        crRefsQueue := sgeQetiInitRefs q.crRefsQueue }
    refine ⟨ts, hts, hsorted, fun t => (hmem t).trans (and_congr_right fun _ => ?_)⟩
    simp only [Qeti.Ahead, Qeti.refs, sgeQetiInitRefs, ← List.map_append, List.mem_map]
    constructor
    · rintro ⟨-, ⟨r, hr, rfl⟩, e, he, rfl⟩
      exact ⟨r, hr, e, List.mem_reverse.mp he, rfl⟩
    · rintro ⟨r, hr, e, he, rfl⟩
      exact ⟨_, ⟨r, hr, rfl⟩, e, List.mem_reverse.mpr he, rfl⟩
  · intro start ts hpos hlt hts
    obtain ⟨ts₀, hts₀, hsorted₀, hmem₀⟩ := exists_enumerates q
    obtain ⟨ts', hts', hsorted', hmem'⟩ := exists_enumerates (sgeQetiNextBefore q start)
    obtain rfl := hts₀.unique hts
    have heq : ts' = ts₀.filter (· < start) := by
      apply eq_of_decreasing hsorted' (hsorted₀.filter _)
      intro t
      rw [hmem', ahead_nextBefore hpos hlt, List.mem_filter, hmem₀, decide_eq_true_iff, and_assoc]
    rwa [heq] at hts'

/-- Two diagrams that share a time, the first in force from zero on. -/
def twoRefs : Qeti where
  crRefsPe :=
    [{ utilized := [⟨0, 1, [], none⟩, ⟨5, 0, [], none⟩]
       queueEndNext := []
       increasing := by decide
       bounded := by decide
       within := List.nil_suffix }]
  crRefsGlobal := []
  crRefsHost :=
    [{ utilized := [⟨5, 2, [], none⟩, ⟨9, 0, [], none⟩]
       queueEndNext := []
       increasing := by decide
       bounded := by decide
       within := List.nil_suffix }]
  crRefsQueue := []

theorem sgeQeti_enumerates_twoRefs :
    Enumerates (sgeQetiNext (sgeQetiNextBefore (sgeQetiFirst twoRefs).2 5)) [] :=
  (sgeQeti_enumerates (sgeQetiFirst twoRefs).2).2 5 [5] (by decide) (by decide)
    (.step (by decide) (.done _))

end ClusterScheduler.Sched
