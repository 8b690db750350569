import ClusterScheduler.Sgeobj.Range

/-!
# Range lists in order

* `Canonical` — ranges aligned to their steps, ascending and apart.
* `rangeListInsertId_spec`, `removeIdLoop_spec`, `rangeListCompress_spec`,
  `rangeListSortUniqCompress_spec` — each operation keeps a list canonical, or
  makes it so, and does to the ids what it is for.
-/

namespace ClusterScheduler.Sgeobj

open Foundation

/-- Aligned ranges, ascending and apart. -/
structure Canonical (l : List Range) : Prop where
  aligned : ∀ r ∈ l, Aligned r
  apart : l.Pairwise (fun r r' => r.max < r'.min)

namespace Canonical

variable {l l' : List Range} {r : Range}

theorem nil : Canonical [] where
  aligned := by simp
  apart := List.Pairwise.nil

theorem tail (h : Canonical (r :: l)) : Canonical l where
  aligned := fun x hx => h.aligned x (.tail _ hx)
  apart := (List.pairwise_cons.mp h.apart).2

theorem head (h : Canonical (r :: l)) : Aligned r := h.aligned r (.head _)

theorem head_lt (h : Canonical (r :: l)) : ∀ x ∈ l, r.max < x.min :=
  (List.pairwise_cons.mp h.apart).1

theorem cons (hr : Aligned r) (hlt : ∀ x ∈ l, r.max < x.min) (h : Canonical l) :
    Canonical (r :: l) where
  aligned := by
    intro x hx
    rcases List.mem_cons.mp hx with rfl | hx
    · exact hr
    · exact h.aligned x hx
  apart := List.pairwise_cons.mpr ⟨hlt, h.apart⟩

theorem append (h : Canonical l) (h' : Canonical l')
    (hlt : ∀ x ∈ l, ∀ y ∈ l', x.max < y.min) : Canonical (l ++ l') where
  aligned := by
    intro x hx
    rcases List.mem_append.mp hx with hx | hx
    · exact h.aligned x hx
    · exact h'.aligned x hx
  apart := List.pairwise_append.mpr ⟨h.apart, h'.apart, hlt⟩

theorem left (h : Canonical (l ++ l')) : Canonical l where
  aligned := fun x hx => h.aligned x (List.mem_append_left _ hx)
  apart := (List.pairwise_append.mp h.apart).1

theorem right (h : Canonical (l ++ l')) : Canonical l' where
  aligned := fun x hx => h.aligned x (List.mem_append_right _ hx)
  apart := (List.pairwise_append.mp h.apart).2.1

theorem left_lt_right (h : Canonical (l ++ l')) : ∀ x ∈ l, ∀ y ∈ l', x.max < y.min :=
  (List.pairwise_append.mp h.apart).2.2

theorem eq_of_min_eq (h : Canonical l) {x y : Range} (hx : x ∈ l) (hy : y ∈ l)
    (hxy : x.min = y.min) : x = y := by
  induction l with
  | nil => simp at hx
  | cons r rest ih =>
    have hlt := h.head_lt
    have hle := h.head.le
    rcases List.mem_cons.mp hx with rfl | hx' <;>
      rcases List.mem_cons.mp hy with rfl | hy'
    · rfl
    · have := hlt y hy'
      omega
    · have := hlt x hx'
      omega
    · exact ih h.tail hx' hy'

theorem sort_eq (σ : Sorter) (h : Canonical l) : σ.sort l = l := by
  refine List.Perm.eq_of_pairwise ?_ (σ.sorted l) ?_ (σ.perm l)
  · intro a b ha hb hab hba
    exact h.eq_of_min_eq ((σ.perm l).mem_iff.mp ha) hb (Nat.le_antisymm hab hba)
  · refine h.apart.imp_of_mem fun {x y} hx _ hxy => ?_
    have := (h.aligned x hx).le
    omega

end Canonical

/-! ## Inserting an id -/

variable {a b c : ℕ}

/-- A sum that does not wrap to something smaller is the sum. -/
theorem add32_eq_of_le (hb : b < 2 ^ 32) (hlt : a < c) (h : add32 a b = c) : c = a + b := by
  unfold add32 at h
  omega

theorem sub32_eq_of_le (ha : a < 2 ^ 32) (hb : b < 2 ^ 32) (hlt : c < a)
    (h : sub32 a b = c) : a = c + b := by
  unfold sub32 at h
  omega

variable {r : Range}

/-- An aligned range with more than one id has a step that fits 32 bits. -/
theorem Aligned.step_le (h : Aligned r) (hlt : r.min < r.max) : r.min + r.step ≤ r.max := by
  have := Nat.le_of_dvd (by omega) h.dvd
  omega

variable {id : ℕ}

variable {next : Range}

/-- The id falls between two ids of a range: the range is split around it. -/
theorem split_spec (hn : Aligned next) (h1 : next.min < id)
    (h2 : id < next.max) (hoff : ¬ (id - next.min) % next.step = 0) :
    Canonical (splitAround id next) ∧
      (∀ m ∈ splitAround id next, next.min ≤ m.min ∧ m.max ≤ next.max) ∧
      ∀ x, Has (splitAround id next) x ↔
        x = id ∨ OnGrid next.min next.max next.step x := by
  have hmax := hn.lt
  obtain ⟨hp1, hp2, hp3⟩ := onGrid_floor (d := next.step) (Nat.le_of_lt h1)
  have hmod := Nat.lt_div_mul_add (a := id - next.min) hn.step
  have hnext : next.min + ((id - next.min) / next.step + 1) * next.step =
      next.min + (id - next.min) / next.step * next.step + next.step := by
    rw [Nat.add_mul, Nat.one_mul, Nat.add_assoc]
  unfold splitAround
  dsimp only
  rw [hnext]
  generalize hprev : next.min + (id - next.min) / next.step * next.step = prevId
    at hp1 hp2 hp3
  have hpne : prevId ≠ id := by
    rintro rfl
    exact hoff (Nat.mod_eq_zero_of_dvd hp3)
  have hplt : prevId < id := Nat.lt_of_le_of_ne hp2 hpne
  have hlt : id < prevId + next.step := by omega
  -- the grid goes on behind `prevId`, so the next id is not beyond the end
  have hgrid : OnGrid next.min next.max next.step next.max :=
    ⟨hn.le, Nat.le_refl _, hn.dvd⟩
  rw [onGrid_append hp1 (by omega) hp3] at hgrid
  have hnle : prevId + next.step ≤ next.max ∧
      next.step ∣ next.max - (prevId + next.step) := by
    rcases hgrid with ⟨-, h, -⟩ | ⟨h, -, h'⟩
    · omega
    · exact ⟨h, h'⟩
  refine ⟨?_, ?_, ?_⟩
  · refine Canonical.cons (aligned_set hp1 hn.step hn.small hp3 (by omega)) ?_
      (Canonical.cons (aligned_single (by omega)) ?_
        (Canonical.cons (aligned_set hnle.1 hn.step hn.small hnle.2 hmax) (by simp) Canonical.nil))
    · intro y hy
      simp only [List.mem_cons, List.not_mem_nil, or_false] at hy
      rcases hy with rfl | rfl
      · exact hplt
      · exact Nat.lt_trans hplt hlt
    · intro y hy
      rw [List.mem_singleton.mp hy]
      exact hlt
  · intro m hm
    simp only [List.mem_cons, List.not_mem_nil, or_false] at hm
    rcases hm with rfl | rfl | rfl
    · exact ⟨Nat.le_refl _, by show prevId ≤ next.max; omega⟩
    · exact ⟨Nat.le_of_lt h1, Nat.le_of_lt h2⟩
    · exact ⟨by show next.min ≤ prevId + next.step; omega, Nat.le_refl _⟩
  · intro x
    rw [onGrid_append hp1 (by omega : prevId ≤ next.max) hp3]
    simp only [has_cons, has_nil, onGrid_set, onGrid_self, or_false]
    grind

theorem extend_down_spec (hn : Aligned next) (hlt : id < next.min)
    (h : sub32 next.min next.step = id) :
    Aligned (rangeSetAllIds id next.max next.step) ∧ ∀ x, OnGrid id next.max next.step x ↔
        x = id ∨ OnGrid next.min next.max next.step x := by
  have hle := hn.le
  have hmax := hn.lt
  have heq := sub32_eq_of_le (by omega) hn.small hlt h
  have hdvd : next.step ∣ next.max - id := by
    have := Nat.dvd_add hn.dvd (Nat.dvd_refl next.step)
    rwa [show next.max - next.min + next.step = next.max - id by omega] at this
  refine ⟨aligned_set (by omega) hn.step hn.small hdvd hmax, fun x => ?_⟩
  rw [onGrid_first (by omega : id ≤ next.max), ← heq]

theorem extend_up_spec (hr : Aligned r) (hid : id < 2 ^ 32)
    (hlt : r.max < id) (h : add32 r.max r.step = id) :
    Aligned (rangeSetAllIds r.min id r.step) ∧ ∀ x,
      OnGrid r.min id r.step x ↔ x = id ∨ OnGrid r.min r.max r.step x := by
  have hle := hr.le
  have heq := add32_eq_of_le hr.small hlt h
  have hdvd : r.step ∣ id - r.min := by
    have := Nat.dvd_add hr.dvd (Nat.dvd_refl r.step)
    rwa [show r.max - r.min + r.step = id - r.min by omega] at this
  refine ⟨aligned_set (by omega) hr.step hr.small hdvd hid, fun x => ?_⟩
  rw [onGrid_append (m := r.max) hle (by omega) hr.dvd, ← heq, onGrid_self]
  exact or_comm

/-- What `placeId` leaves is in order, begins no earlier than the range before
it, and holds the id in addition. -/
structure Placed (id : ℕ) (range : Option Range) (suffix result : List Range) : Prop where
  canonical : Canonical result
  begins : ∀ r ∈ range, ∀ y ∈ result, r.min ≤ y.min
  ids : ∀ x, Has result x ↔ x = id ∨ Has (range.toList ++ suffix) x

variable {l : List Range}

theorem begins_of_canonical (h : Canonical (r :: l)) : ∀ y ∈ r :: l, r.min ≤ y.min := by
  intro y hy
  rcases List.mem_cons.mp hy with rfl | hy
  · exact Nat.le_refl _
  · have := h.head_lt y hy
    have := h.head.le
    omega

variable {range : Option Range} {suffix : List Range}

theorem placed_self
    (h : Canonical (range.toList ++ suffix)) (hid : Has (range.toList ++ suffix) id) :
    Placed id range suffix (range.toList ++ suffix) where
  canonical := h
  begins := by
    rintro r ⟨rfl⟩
    exact begins_of_canonical h
  ids := by
    intro x
    constructor
    · exact Or.inr
    · rintro (rfl | hx)
      · exact hid
      · exact hx

/-- New ranges `parts` take the place of the ranges behind the one before. -/
theorem placed_parts {parts : List Range} (h : Canonical (range.toList ++ suffix))
    (hparts : Canonical parts) (hlt : ∀ r ∈ range, ∀ y ∈ parts, r.max < y.min)
    (hids : ∀ x, Has parts x ↔ x = id ∨ Has suffix x) :
    Placed id range suffix (range.toList ++ parts) := by
  have hcan : Canonical (range.toList ++ parts) := by
    refine Canonical.append h.left hparts fun r hr y hy => hlt r ?_ y hy
    simpa using hr
  refine ⟨hcan, ?_, ?_⟩
  · rintro r ⟨rfl⟩
    exact begins_of_canonical hcan
  · intro x
    rw [has_append, has_append, hids]
    grind

theorem placeId_spec (hid : id < 2 ^ 32) (range : Option Range)
    (suffix : List Range) (h : Canonical (range.toList ++ suffix))
    (hrange : ∀ r ∈ range, r.max ≤ id) (hsuffix : ∀ n ∈ suffix.head?, id < n.max) :
    Placed id range suffix (placeId id range suffix) := by
  have hsingle := aligned_single hid
  -- a new single id behind the range, in front of what follows
  have hnew : (∀ r ∈ range, r.max ≠ id) → (∀ n ∈ suffix, id < n.min) →
      Placed id range suffix (range.toList ++ rangeSetAllIds id id 1 :: suffix) := by
    intro hne hlt
    refine placed_parts h (Canonical.cons hsingle hlt h.right) ?_ ?_
    · intro r hr y hy
      have h1 := hrange r hr
      have h2 := hne r hr
      rcases List.mem_cons.mp hy with rfl | hy
      · show r.max < id
        omega
      · have := hlt y hy
        omega
    · intro x
      rw [has_cons, onGrid_single]
  -- the range before is extended up to the id
  have hextend : ∀ r, range = some r → r.max ≠ id → (∀ n ∈ suffix, id < n.min) →
      add32 r.max r.step = id →
      Placed id range suffix (rangeSetAllIds r.min id r.step :: suffix) := by
    rintro r rfl hne hlt hadd
    have hr : Aligned r := h.aligned r (by simp)
    have hle := hrange r rfl
    obtain ⟨hal, hids⟩ := extend_up_spec hr hid (by omega) hadd
    have hcan : Canonical (rangeSetAllIds r.min id r.step :: suffix) :=
      Canonical.cons hal hlt h.right
    refine ⟨hcan, ?_, ?_⟩
    · rintro x ⟨rfl⟩
      exact begins_of_canonical hcan
    · intro x
      rw [has_cons, onGrid_set, hids, has_append]
      simp
      grind
  cases suffix with
  | nil =>
    cases range with
    | none => exact hnew (by simp) (by simp)
    | some r =>
      rw [placeId]
      split_ifs with h1 h2
      · refine placed_self h ?_
        have hr : Aligned r := h.aligned r (by simp)
        rw [← h1]
        simp [OnGrid, hr.le, hr.dvd]
      · exact hextend r rfl h1 (by simp) h2
      · exact hnew (by rintro x ⟨rfl⟩; exact h1) (by simp)
  | cons next rest =>
    have hsuf : Canonical (next :: rest) := h.right
    have hn := hsuf.head
    have hlt : id < next.max := hsuffix next rfl
    have hback : ∀ r ∈ range, r.max < next.min := by
      rintro r ⟨rfl⟩
      exact h.head_lt next (.head _)
    have hfar : id < next.min → ∀ y ∈ next :: rest, id < y.min := by
      intro hlt' y hy
      rcases List.mem_cons.mp hy with rfl | hy
      · exact hlt'
      · have := hsuf.head_lt y hy
        omega
    -- the range behind is extended down to the id
    have hdown : id < next.min → sub32 next.min next.step = id →
        (∀ r ∈ range, r.max ≠ id) →
        Placed id range (next :: rest)
          (range.toList ++ rangeSetAllIds id next.max next.step :: rest) := by
      intro hmin hsub hne
      obtain ⟨hal, hids⟩ := extend_down_spec hn hmin hsub
      refine placed_parts h (Canonical.cons hal hsuf.head_lt hsuf.tail) ?_ ?_
      · intro r hr y hy
        have h1 := hrange r hr
        have h2 := hne r hr
        rcases List.mem_cons.mp hy with rfl | hy
        · show r.max < id
          omega
        · have := hsuf.head_lt y hy
          omega
      · intro x
        rw [has_cons, onGrid_set, hids, has_cons, or_assoc]
    rw [placeId.eq_def]
    dsimp only
    by_cases h1 : next.min < id
    · rw [if_pos h1]
      by_cases h2 : (id - next.min) % next.step = 0
      · rw [if_pos h2]
        refine placed_self h ?_
        rw [has_append, has_cons]
        exact Or.inr (Or.inl ⟨by omega, by omega, Nat.dvd_of_mod_eq_zero h2⟩)
      · rw [if_neg h2]
        obtain ⟨hcan, hin, hids⟩ := split_spec hn h1 hlt h2
        have hparts : Canonical (splitAround id next ++ rest) := hcan.append hsuf.tail
          fun x hx y hy => Nat.lt_of_le_of_lt (hin x hx).2 (hsuf.head_lt y hy)
        refine placed_parts h hparts ?_ ?_
        · intro r hr y hy
          rcases List.mem_append.mp hy with hy | hy
          · exact Nat.lt_of_lt_of_le (hback r hr) (hin y hy).1
          · have h1 := hback r hr
            have h2 := hsuf.head_lt y hy
            have h3 := hn.le
            omega
        · intro x
          rw [has_append, hids, has_cons, or_assoc]
    rw [if_neg h1]
    by_cases h3 : range.map (·.max) = some id ∨ next.min = id
    · rw [if_pos h3]
      refine placed_self h ?_
      rw [has_append, has_cons]
      rcases h3 with h3 | h3
      · obtain ⟨r, hr, rfl⟩ := Option.map_eq_some_iff.mp h3
        subst hr
        have hr : Aligned r := h.aligned r (by simp)
        left
        simp [OnGrid, hr.le, hr.dvd]
      · subst h3
        exact Or.inr (Or.inl ⟨Nat.le_refl _, hn.le, by simp⟩)
    rw [if_neg h3]
    obtain ⟨h3a, h3b⟩ := not_or.mp h3
    have hmin : id < next.min := by omega
    cases range with
    | none =>
      dsimp only
      split_ifs with h4
      · exact hdown hmin h4 (by simp)
      · exact hnew (by simp) (hfar hmin)
    | some r =>
      have hne : r.max ≠ id := fun heq => h3a (by simp [heq])
      dsimp only
      split_ifs with h4 h5
      · exact hextend r rfl hne (hfar hmin) h4
      · exact hdown hmin h5 (by rintro x ⟨rfl⟩; exact hne)
      · exact hnew (by rintro x ⟨rfl⟩; exact hne) (hfar hmin)

theorem insertLoop_spec (hid : id < 2 ^ 32) :
    ∀ (prev suffix : List Range), Canonical (prev.reverse ++ suffix) →
      (prev = [] → suffix = []) → (∀ n ∈ suffix.head?, id < n.max) →
      Canonical (insertLoop id prev suffix) ∧
        ∀ x, Has (insertLoop id prev suffix) x ↔
          x = id ∨ Has (prev.reverse ++ suffix) x
  | [], suffix, _, hempty, _ => by
      rw [hempty rfl]
      refine ⟨Canonical.cons (aligned_single hid) (by simp) Canonical.nil, fun x => ?_⟩
      simp [insertLoop, onGrid_single]
  | range :: prev, suffix, h, _, hsuffix => by
      have h' : Canonical (prev.reverse ++ range :: suffix) := by simpa using h
      have hlist : (range :: prev).reverse ++ suffix = prev.reverse ++ range :: suffix := by
        simp
      rw [hlist, insertLoop.eq_def]
      dsimp only
      split_ifs with hlt
      · cases prev with
        | nil =>
          have hp := placeId_spec hid none (range :: suffix) (by simpa using h')
            (by simp) (by simpa using hlt)
          exact ⟨hp.canonical, hp.ids⟩
        | cons p ps =>
          exact insertLoop_spec hid (p :: ps) (range :: suffix) h' (by simp)
            (by simpa using hlt)
      · have hp := placeId_spec hid (some range) suffix h'.right
          (by rintro r ⟨rfl⟩; omega) hsuffix
        refine ⟨h'.left.append hp.canonical ?_, fun x => ?_⟩
        · intro x hx y hy
          have h1 := h'.left_lt_right x hx range (.head _)
          have h2 := hp.begins range rfl y hy
          omega
        · simp only [has_append, hp.ids, Option.toList_some, has_cons, has_nil]
          grind

/-- **Inserting an id** keeps a list in order and adds the id. -/
theorem rangeListInsertId_spec (σ : Sorter) (h : Canonical l) (hid : id < 2 ^ 32) :
    Canonical (rangeListInsertId σ l id) ∧
      ∀ x, Has (rangeListInsertId σ l id) x ↔ x = id ∨ Has l x := by
  have hspec := insertLoop_spec hid l.reverse [] (by simpa using h) (fun _ => rfl) (by simp)
  rw [rangeListInsertId, h.sort_eq]
  simpa using hspec

theorem insertIds_spec (σ : Sorter) :
    ∀ (ids : List ℕ) {l : List Range}, Canonical l → (∀ id ∈ ids, id < 2 ^ 32) →
      Canonical (ids.foldl (rangeListInsertId σ) l) ∧
        ∀ x, Has (ids.foldl (rangeListInsertId σ) l) x ↔ x ∈ ids ∨ Has l x
  | [], _, h, _ => ⟨h, by simp⟩
  | id :: ids, l, h, hids => by
      obtain ⟨hcan, hone⟩ := rangeListInsertId_spec σ h (hids id (.head _))
      obtain ⟨hall, hrest⟩ := insertIds_spec σ ids hcan
        fun x hx => hids x (.tail _ hx)
      refine ⟨hall, fun x => ?_⟩
      rw [List.foldl_cons, hrest, hone, List.mem_cons]
      grind

/-! ## Removing an id -/

variable {d : ℕ}

variable {lo hi : ℕ}

theorem dvd_last (hd : d ∣ hi - lo) (hle : lo + d ≤ hi) : d ∣ hi - d - lo := by
  have := Nat.dvd_sub hd (Nat.dvd_refl d)
  rwa [show hi - lo - d = hi - d - lo by omega] at this

theorem dvd_first (hd : d ∣ hi - lo) : d ∣ hi - (lo + d) := by
  have := Nat.dvd_sub hd (Nat.dvd_refl d)
  rwa [show hi - lo - d = hi - (lo + d) by omega] at this

theorem removeFromRange_spec (hr : Aligned r) (hw : OnGrid r.min r.max r.step id) :
    Canonical (removeFromRange id r) ∧
      (∀ m ∈ removeFromRange id r, r.min ≤ m.min ∧ m.max ≤ r.max) ∧
      ∀ x, Has (removeFromRange id r) x ↔ OnGrid r.min r.max r.step x ∧ x ≠ id := by
  obtain ⟨hlo, hhi, hgrid⟩ := hw
  have hle := hr.le
  have hlt := hr.lt
  have hstep := hr.step
  have hsmall := hr.small
  unfold removeFromRange
  split_ifs with h1 h2 h3
  · -- the only id
    obtain ⟨rfl, h1⟩ := h1
    have heq : r.max = r.min := by
      rcases h1 with h1 | h1
      · exact h1.symm
      · by_contra hne
        have := hr.step_le (by omega)
        unfold add32 at h1
        omega
    refine ⟨Canonical.nil, by simp, fun x => ?_⟩
    rw [heq, onGrid_self]
    simp
  · -- the first id
    subst h2
    have hlt' : r.min < r.max := by
      rcases Nat.lt_or_ge r.min r.max with h | h
      · exact h
      · exact absurd ⟨rfl, Or.inl (by omega)⟩ h1
    have hnext := hr.step_le hlt'
    have hadd : add32 r.min r.step = r.min + r.step := Nat.mod_eq_of_lt (by omega)
    have hal := aligned_set hnext hstep hsmall (dvd_first hr.dvd) hlt
    rw [hadd]
    refine ⟨Canonical.cons hal (by simp) Canonical.nil, ?_, fun x => ?_⟩
    · intro m hm
      rw [List.mem_singleton.mp hm]
      exact ⟨by show r.min ≤ r.min + r.step; omega, Nat.le_refl _⟩
    · simp only [has_cons, onGrid_set, has_nil, or_false]
      rw [onGrid_first hle]
      constructor
      · intro hx
        exact ⟨Or.inr hx, by have := hx.1; omega⟩
      · rintro ⟨hx | hx, hne⟩
        · exact absurd hx hne
        · exact hx
  · -- the last id
    subst h3
    have hlt' : r.min < r.max := by omega
    have hprev := hr.step_le hlt'
    have hsub : sub32 r.max r.step = r.max - r.step := by
      unfold sub32
      omega
    have hal := aligned_set (d := r.step) (by omega : r.min ≤ r.max - r.step) hstep hsmall
      (dvd_last hr.dvd hprev) (by omega)
    rw [hsub]
    refine ⟨Canonical.cons hal (by simp) Canonical.nil, ?_, fun x => ?_⟩
    · intro m hm
      rw [List.mem_singleton.mp hm]
      exact ⟨Nat.le_refl _, Nat.sub_le _ _⟩
    · simp only [has_cons, onGrid_set, has_nil, or_false]
      rw [onGrid_last hlt' hr.dvd]
      constructor
      · intro hx
        exact ⟨Or.inl hx, by have := hx.2.1; omega⟩
      · rintro ⟨hx | hx, hne⟩
        · exact hx
        · exact absurd hx hne
  · -- an id inside
    have hlo' : r.min < id := by omega
    have hhi' : id < r.max := by omega
    have h4 : r.min + r.step ≤ id := by
      have := Nat.le_of_dvd (by omega) hgrid
      omega
    have hdvd : r.step ∣ r.max - id := by
      have := Nat.dvd_sub hr.dvd hgrid
      rwa [show r.max - r.min - (id - r.min) = r.max - id by omega] at this
    have h5 : id + r.step ≤ r.max := by
      have := Nat.le_of_dvd (by omega) hdvd
      omega
    have hsub : sub32 id r.step = id - r.step := by
      unfold sub32
      omega
    have hadd : add32 id r.step = id + r.step := Nat.mod_eq_of_lt (by omega)
    have hal := aligned_set (d := r.step) (by omega : r.min ≤ id - r.step) hstep hsmall
      (dvd_last hgrid h4) (by omega)
    have hal' := aligned_set h5 hstep hsmall (dvd_first hdvd) hlt
    rw [hsub, hadd]
    refine ⟨Canonical.cons hal ?_ (Canonical.cons hal' (by simp) Canonical.nil), ?_,
      fun x => ?_⟩
    · intro y hy
      rw [List.mem_singleton.mp hy]
      show id - r.step < id + r.step
      omega
    · intro m hm
      simp only [List.mem_cons, List.not_mem_nil, or_false] at hm
      rcases hm with rfl | rfl
      · exact ⟨Nat.le_refl _, by show id - r.step ≤ r.max; omega⟩
      · exact ⟨by show r.min ≤ id + r.step; omega, Nat.le_refl _⟩
    · simp only [has_cons, onGrid_set, has_nil, or_false]
      rw [onGrid_inside hlo' hhi' hgrid]
      constructor
      · rintro (hx | hx)
        · exact ⟨Or.inl hx, by have := hx.2.1; omega⟩
        · exact ⟨Or.inr (Or.inr hx), by have := hx.1; omega⟩
      · rintro ⟨hx | hx | hx, hne⟩
        · exact Or.inl hx
        · exact absurd hx hne
        · exact Or.inr hx

/-- What lies in a later range does not lie in an earlier one. -/
theorem not_has_of_lt {x : ℕ} (h : ∀ r ∈ l, x < r.min) : ¬ Has l x := by
  rintro ⟨r, hr, hle, -⟩
  have := h r hr
  omega

/-- **Removing an id** keeps a list in order and takes the id away. -/
theorem removeIdLoop_spec (id : ℕ) :
    ∀ {l : List Range}, Canonical l →
      Canonical (removeIdLoop id l) ∧
      (∀ m ∈ removeIdLoop id l, ∃ r ∈ l, r.min ≤ m.min) ∧
      ∀ x, Has (removeIdLoop id l) x ↔ Has l x ∧ x ≠ id
  | [], _ => ⟨Canonical.nil, by simp [removeIdLoop], by simp [removeIdLoop]⟩
  | r :: rest, h => by
      have hr := h.head
      rw [removeIdLoop]
      split_ifs with hw
      · have hw' := within_iff.mp hw
        obtain ⟨hcan, hin, hids⟩ := removeFromRange_spec hr hw'
        refine ⟨hcan.append h.tail fun x hx y hy =>
          Nat.lt_of_le_of_lt (hin x hx).2 (h.head_lt y hy), ?_, fun x => ?_⟩
        · intro m hm
          rcases List.mem_append.mp hm with hm | hm
          · exact ⟨r, .head _, (hin m hm).1⟩
          · exact ⟨m, .tail _ hm, Nat.le_refl _⟩
        · have hne : Has rest x → x ≠ id := by
            rintro hx rfl
            refine not_has_of_lt (fun y hy => ?_) hx
            exact Nat.lt_of_le_of_lt hw'.2.1 (h.head_lt y hy)
          rw [has_append, has_cons, hids]
          grind
      · obtain ⟨hcan, hin, hids⟩ := removeIdLoop_spec id h.tail
        refine ⟨Canonical.cons hr ?_ hcan, ?_, fun x => ?_⟩
        · intro y hy
          obtain ⟨r', hr', hle⟩ := hin y hy
          exact Nat.lt_of_lt_of_le (h.head_lt r' hr') hle
        · intro m hm
          rcases List.mem_cons.mp hm with rfl | hm
          · exact ⟨m, .head _, Nat.le_refl _⟩
          · obtain ⟨r', hr', hle⟩ := hin m hm
            exact ⟨r', .tail _ hr', hle⟩
        · have hne : OnGrid r.min r.max r.step x → x ≠ id := by
            rintro hx rfl
            exact hw (within_iff.mpr hx)
          rw [has_cons, has_cons, hids]
          grind

@[simp] theorem getD_freeEmpty (l : List Range) : (freeEmpty l).getD [] = l := by
  cases l <;> rfl

theorem getD_map_compress (l : Option (List Range)) :
    (l.map rangeListCompress).getD [] = rangeListCompress (l.getD []) := by
  cases l <;> rfl

theorem getD_removeId (l : Option (List Range)) (id : ℕ) :
    (rangeListRemoveId l id).getD [] = removeIdLoop id (l.getD []) := by
  cases l with
  | none => rfl
  | some l => simp [rangeListRemoveId]

theorem removeIds_spec :
    ∀ (ids : List ℕ) {l : Option (List Range)}, Canonical (l.getD []) →
      Canonical ((ids.foldl rangeListRemoveId l).getD []) ∧
        ∀ x, Has ((ids.foldl rangeListRemoveId l).getD []) x ↔
          Has (l.getD []) x ∧ x ∉ ids
  | [], _, h => ⟨h, by simp⟩
  | id :: ids, l, h => by
      obtain ⟨hcan, -, hone⟩ := removeIdLoop_spec id h
      rw [← getD_removeId] at hcan hone
      obtain ⟨hall, hrest⟩ := removeIds_spec ids hcan
      refine ⟨hall, fun x => ?_⟩
      rw [List.foldl_cons, hrest, hone, List.mem_cons]
      grind

/-! ## Joining neighbours -/

/-- `r` covers what `r1` and the range `r2` behind it cover. -/
structure Joined (r1 r2 r : Range) : Prop where
  aligned : Aligned r
  min : r.min = r1.min
  max : r.max = r2.max
  ids : ∀ x, OnGrid r.min r.max r.step x ↔
    OnGrid r1.min r1.max r1.step x ∨ OnGrid r2.min r2.max r2.step x

variable {r1 r2 : Range}

/-- Two ranges on one grid. A single id is on every grid. -/
theorem joined_set (h1 : Aligned r1) (h2 : Aligned r2)
    (hd : 0 < d) (hlt : d < 2 ^ 32) (hnext : r2.min = r1.max + d)
    (hs1 : r1.step = d ∨ r1.min = r1.max) (hs2 : r2.step = d ∨ r2.min = r2.max) :
    Joined r1 r2 (rangeSetAllIds r1.min r2.max d) := by
  have hle1 := h1.le
  have hle2 := h2.le
  have hmax := h2.lt
  have hgrid : ∀ {r : Range}, Aligned r → r.step = d ∨ r.min = r.max →
      d ∣ r.max - r.min ∧
        ∀ x, OnGrid r.min r.max r.step x ↔ OnGrid r.min r.max d x := by
    rintro r hr (hs | hs)
    · rw [← hs]
      exact ⟨hr.dvd, fun x => Iff.rfl⟩
    · rw [hs]
      exact ⟨by simp, fun x => by rw [onGrid_self, onGrid_self]⟩
  obtain ⟨hd1, hids1⟩ := hgrid h1 hs1
  obtain ⟨hd2, hids2⟩ := hgrid h2 hs2
  have hdvd : d ∣ r2.max - r1.min := by
    have := Nat.dvd_add (Nat.dvd_add hd2 (Nat.dvd_refl d)) hd1
    rwa [show r2.max - r2.min + d + (r1.max - r1.min) = r2.max - r1.min by omega] at this
  refine ⟨aligned_set (by omega) hd hlt hdvd hmax, rfl, rfl, fun x => ?_⟩
  rw [onGrid_set, hids1, hids2, hnext]
  exact onGrid_append hle1 (by omega) hd1

/-- Each of the four rules joins two ranges on one grid. -/
theorem joinRanges_spec (h1 : Aligned r1) (h2 : Aligned r2)
    (hlt : r1.max < r2.min) (h : joinRanges r1 r2 = some r) : Joined r1 r2 r := by
  have hle1 := h1.le
  have hle2 := h2.le
  have hmax := h2.lt
  unfold joinRanges at h
  split_ifs at h with hj1 hj2 hj3 hj4
  · cases h
    refine joined_set h1 h2 h2.step h2.small ?_ (Or.inl hj1.2) (Or.inl rfl)
    rw [← hj1.2]
    exact add32_eq_of_le h1.small hlt hj1.1
  · cases h
    refine joined_set h1 h2 h2.step h2.small ?_ (Or.inr hj2.1) (Or.inl rfl)
    exact sub32_eq_of_le (by omega) h2.small hlt hj2.2.2.symm
  · cases h
    refine joined_set h1 h2 h1.step h1.small ?_ (Or.inl rfl) (Or.inr hj3.1)
    exact add32_eq_of_le h1.small hlt (hj3.2.2.trans hj3.1.symm)
  · cases h
    have hsub : sub32 r2.min r1.min = r2.min - r1.min := by
      unfold sub32
      omega
    rw [hsub, hj4.2.1]
    exact joined_set h1 h2 (by omega) (by omega) (by omega) (Or.inr hj4.1)
      (Or.inr hj4.2.1)

theorem compressFrom_spec :
    ∀ (rest : List Range) {r1 : Range}, Canonical (r1 :: rest) →
      Canonical (compressFrom r1 rest) ∧
      (∀ y ∈ compressFrom r1 rest, r1.min ≤ y.min) ∧
      ∀ x, Has (compressFrom r1 rest) x ↔ Has (r1 :: rest) x
  | [], r1, h => ⟨h, begins_of_canonical h, fun x => Iff.rfl⟩
  | r2 :: rest, r1, h => by
      have hlt := h.head_lt r2 (.head _)
      have hle := h.head.le
      rw [compressFrom]
      cases hj : joinRanges r1 r2 with
      | some r =>
        have hjoined := joinRanges_spec h.head h.tail.head hlt hj
        have hcan : Canonical (r :: rest) := by
          refine Canonical.cons hjoined.aligned ?_ h.tail.tail
          intro y hy
          rw [hjoined.max]
          exact h.tail.head_lt y hy
        obtain ⟨hc, hb, hids⟩ := compressFrom_spec rest hcan
        refine ⟨hc, ?_, fun x => ?_⟩
        · rw [← hjoined.min]
          exact hb
        · simp only [hids, has_cons, hjoined.ids, or_assoc]
      | none =>
        obtain ⟨hc, hb, hids⟩ := compressFrom_spec rest h.tail
        have hcan : Canonical (r1 :: compressFrom r2 rest) :=
          Canonical.cons h.head
            (fun y hy => Nat.lt_of_lt_of_le hlt (hb y hy)) hc
        exact ⟨hcan, begins_of_canonical hcan, fun x => by simp only [has_cons, hids]⟩

/-- **Compressing** keeps a list in order and keeps its ids. -/
theorem rangeListCompress_spec (h : Canonical l) :
    Canonical (rangeListCompress l) ∧ ∀ x, Has (rangeListCompress l) x ↔ Has l x := by
  cases l with
  | nil => exact ⟨Canonical.nil, fun x => Iff.rfl⟩
  | cons r rest =>
    obtain ⟨hc, -, hids⟩ := compressFrom_spec rest h
    exact ⟨hc, hids⟩

/-! ## Bringing a list in order -/

theorem countable_correctEnd (h : Countable r) : Countable (rangeCorrectEnd r) := by
  have hal := (rangeCorrectEnd_spec h.sized).1
  have hlt := h.lt
  have hle := h.le
  refine ⟨hal.le, hal.step, ?_⟩
  unfold rangeCorrectEnd
  rw [if_pos h.step]
  have hfloor := Nat.div_mul_le_self (r.max - r.min) r.step
  have hstep := h.step
  unfold rangeSetAllIds
  dsimp only
  split_ifs <;> omega

/-- What overlaps is taken out: the ranges kept are in order, and no id is lost. -/
theorem splitOverlaps_spec :
    ∀ (rest : List Range) {r1 : Range}, Aligned r1 → (∀ r ∈ rest, Sized r) →
      (r1 :: rest).Pairwise (fun r r' => r.min ≤ r'.min) →
      Canonical (splitOverlaps true r1 rest).1 ∧
      (∀ y ∈ (splitOverlaps true r1 rest).1, r1.min ≤ y.min) ∧
      ((∀ r ∈ rest, Countable r) → ∀ r ∈ (splitOverlaps true r1 rest).2, Countable r) ∧
      ∀ x, Has (splitOverlaps true r1 rest).1 x ∨ Has (splitOverlaps true r1 rest).2 x ↔
        Has (r1 :: rest) x
  | [], r1, h, _, _ => by
      have hcan : Canonical [r1] := Canonical.cons h (by simp) Canonical.nil
      refine ⟨hcan, begins_of_canonical hcan, by simp [splitOverlaps], ?_⟩
      simp [splitOverlaps]
  | r2 :: rest, r1, h, hs, hsorted => by
      obtain ⟨hs2, hsrest⟩ := List.forall_mem_cons.mp hs
      obtain ⟨hal, hmin, hids⟩ := rangeCorrectEnd_spec hs2
      obtain ⟨hmins, hsorted'⟩ := List.pairwise_cons.mp hsorted
      rw [splitOverlaps]
      simp only [if_true]
      split_ifs with hover
      · obtain ⟨h1, h2, h3, h4⟩ := splitOverlaps_spec rest h hsrest
          (List.pairwise_cons.mpr ⟨fun y hy => hmins y (.tail _ hy),
            (List.pairwise_cons.mp hsorted').2⟩)
        refine ⟨h1, h2, ?_, fun x => ?_⟩
        · intro hc
          obtain ⟨hc2, hcrest⟩ := List.forall_mem_cons.mp hc
          exact List.forall_mem_cons.mpr ⟨countable_correctEnd hc2, h3 hcrest⟩
        · have := h4 x
          simp only [has_cons, hids] at this ⊢
          grind
      · have hapart : r1.max < r2.min := by
          simp only [rangeIsOverlapping, decide_eq_true_eq, hmin] at hover
          omega
        have hsorted2 : (rangeCorrectEnd r2 :: rest).Pairwise
            (fun r r' => r.min ≤ r'.min) := by
          rw [List.pairwise_cons, hmin]
          exact List.pairwise_cons.mp hsorted'
        obtain ⟨h1, h2, h3, h4⟩ := splitOverlaps_spec rest hal hsrest hsorted2
        have hcan : Canonical (r1 :: (splitOverlaps true (rangeCorrectEnd r2) rest).1) := by
          refine Canonical.cons h (fun y hy => ?_) h1
          have := h2 y hy
          omega
        refine ⟨hcan, begins_of_canonical hcan, fun hc => h3 (List.forall_mem_cons.mp hc).2,
          fun x => ?_⟩
        have := h4 x
        simp only [has_cons, hids] at this ⊢
        grind

theorem insertAll_spec (σ : Sorter) {tmp : List Range} (h : Canonical l)
    (hc : ∀ r ∈ tmp, Countable r) :
    Canonical (insertAll σ l tmp) ∧
      ∀ x, Has (insertAll σ l tmp) x ↔ Has tmp x ∨ Has l x := by
  obtain ⟨h1, h2⟩ := insertIds_spec σ (tmp.flatMap rangeIds) h
    (fun id hid => ((mem_flatMap_rangeIds hc).mp hid).lt hc)
  exact ⟨h1, fun x => by rw [insertAll, h2, mem_flatMap_rangeIds hc]⟩

/-- The ranges whose ids are put in anew when a list is brought in order. -/
def overlapping (σ : Sorter) (l : List Range) : List Range :=
  match σ.sort l with
  | [] => []
  | r :: rest => (splitOverlaps true (rangeCorrectEnd r) rest).2

theorem sortUniqCompress_spec (σ : Sorter) (hs : ∀ r ∈ l, Sized r) :
    ((∀ r ∈ l, Countable r) → ∀ r ∈ overlapping σ l, Countable r) ∧
      ((∀ r ∈ overlapping σ l, Countable r) → Canonical (rangeListSortUniqCompress σ true l) ∧
        ∀ x, Has (rangeListSortUniqCompress σ true l) x ↔ Has l x) := by
  have hperm := σ.perm l
  have hsort := σ.sorted l
  have hhas : ∀ x, Has (σ.sort l) x ↔ Has l x := by
    intro x
    simp only [Has, hperm.mem_iff]
  have hs' : ∀ r ∈ σ.sort l, Sized r := fun r hr => hs r (hperm.mem_iff.mp hr)
  have hc' : (∀ r ∈ l, Countable r) → ∀ r ∈ σ.sort l, Countable r :=
    fun hc r hr => hc r (hperm.mem_iff.mp hr)
  rw [rangeListSortUniqCompress, overlapping]
  cases hl : σ.sort l with
  | nil =>
    rw [hl] at hhas
    exact ⟨fun _ => List.forall_mem_nil _, fun _ => ⟨Canonical.nil, hhas⟩⟩
  | cons r rest =>
    rw [hl] at hhas hs' hc' hsort
    simp only [if_true]
    obtain ⟨hal, hmin, hids⟩ := rangeCorrectEnd_spec (hs' r (.head _))
    have hsort' : (rangeCorrectEnd r :: rest).Pairwise (fun r r' => r.min ≤ r'.min) := by
      rw [List.pairwise_cons, hmin]
      exact List.pairwise_cons.mp hsort
    obtain ⟨h1, -, h3, h4⟩ := splitOverlaps_spec rest hal
      (fun x hx => hs' x (.tail _ hx)) hsort'
    refine ⟨fun hc => h3 fun x hx => hc' hc x (.tail _ hx), fun hc => ?_⟩
    obtain ⟨h5, h6⟩ := insertAll_spec σ h1 hc
    obtain ⟨h7, h8⟩ := rangeListCompress_spec h5
    refine ⟨h7, fun x => ?_⟩
    rw [h8, h6, or_comm, h4, ← hhas, has_cons, has_cons, hids]

/-- **Bringing a list in order** works for every list of countable ranges. -/
theorem rangeListSortUniqCompress_spec (σ : Sorter) (hc : ∀ r ∈ l, Countable r) :
    Canonical (rangeListSortUniqCompress σ true l) ∧
      ∀ x, Has (rangeListSortUniqCompress σ true l) x ↔ Has l x := by
  obtain ⟨hover, hspec⟩ := sortUniqCompress_spec σ fun r hr => (hc r hr).sized
  exact hspec (hover hc)

end ClusterScheduler.Sgeobj
