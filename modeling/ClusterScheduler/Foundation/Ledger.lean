import Mathlib

/-!
# Keyed lists and ledgers

Records are found in a list by a key, and the first one counts. A ledger reads a
state as an amount, and an operation posts to it.

* `lookup`, `modifyFirst`, `upsert` — find the record of a key, change it, make it
  when there is none.
* `filter_flatMap_ne`, `filter_flatMap_key` — what records own, told apart by their keys.
* `Posts` — an operation adds a fixed amount to what is read.
* `Posts.comp`, `Posts.foldl` — what operations in a row post adds up.
* `Posts.cancel` — an operation and a later one that takes it back leave what is
  done in between.
* `foldl_acts_once` — a fold in which one entry changes what is read.
-/

namespace ClusterScheduler.Foundation

/-! ## Keyed lists -/

section KeyedList

variable {α κ : Type*} [DecidableEq κ] (key : α → κ)

def lookup (k : κ) (l : List α) : Option α := l.find? (key · = k)

def modifyFirst (k : κ) (f : α → α) : List α → List α
  | [] => []
  | x :: l => if key x = k then f x :: l else x :: modifyFirst k f l

def upsert (k : κ) (new : α) (f : α → α) (l : List α) : List α :=
  if (lookup key k l).isSome then modifyFirst key k f l else l ++ [f new]

variable {key} {k k' : κ} {f : α → α} {new : α}

theorem lookup_nil : lookup key k [] = none := rfl

theorem lookup_cons (x : α) (l : List α) :
    lookup key k (x :: l) = if key x = k then some x else lookup key k l := by
  rw [lookup, List.find?_cons]
  by_cases hx : key x = k <;> simp [hx, lookup]

theorem lookup_modifyFirst (hf : ∀ x, key (f x) = key x) (l : List α) :
    lookup key k' (modifyFirst key k f l) =
      if k' = k then (lookup key k l).map f else lookup key k' l := by
  induction l with
  | nil => simp [modifyFirst, lookup_nil]
  | cons x l ih =>
    rw [modifyFirst]
    by_cases hx : key x = k
    · rw [if_pos hx, lookup_cons, hf, lookup_cons, lookup_cons, hx]
      by_cases hk : k' = k
      · simp [hk]
      · simp [hk, Ne.symm hk]
    · rw [if_neg hx, lookup_cons, ih, lookup_cons, lookup_cons, if_neg hx]
      by_cases hk : k' = k
      · simp [hk, hx]
      · simp [hk]

theorem lookup_append (l l' : List α) :
    lookup key k (l ++ l') = (lookup key k l).or (lookup key k l') :=
  List.find?_append

theorem lookup_upsert (hf : ∀ x, key (f x) = key x) (hnew : key new = k) (l : List α) :
    lookup key k' (upsert key k new f l) =
      if k' = k then some (f ((lookup key k l).getD new)) else lookup key k' l := by
  rw [upsert]
  split_ifs with hsome hk hk
  · obtain ⟨x, hx⟩ := Option.isSome_iff_exists.mp hsome
    rw [lookup_modifyFirst hf, if_pos hk, hx]
    rfl
  · rw [lookup_modifyFirst hf, if_neg hk]
  · have hnone := Option.not_isSome_iff_eq_none.mp hsome
    rw [lookup_append, hk, hnone, lookup_cons, hf, if_pos hnew]
    rfl
  · have hne : key (f new) ≠ k' := by rw [hf, hnew]; exact Ne.symm hk
    rw [lookup_append, lookup_cons, if_neg hne, lookup_nil, Option.or_none]

theorem lookup_map (hf : ∀ x, key (f x) = key x) (l : List α) :
    lookup key k (l.map f) = (lookup key k l).map f := by
  induction l with
  | nil => rfl
  | cons x l ih =>
    rw [List.map_cons, lookup_cons, lookup_cons, hf, ih]
    split_ifs <;> rfl

variable {l : List α} {x : α}

/-- The key of a record found is the one it was looked for with. -/
theorem lookup_key (h : lookup key k l = some x) : key x = k := by
  simpa using List.find?_some h

theorem lookup_eq_none : lookup key k l = none ↔ k ∉ l.map key := by
  rw [lookup, List.find?_eq_none, List.mem_map]
  constructor
  · rintro h ⟨x, hx, heq⟩
    exact h x hx (decide_eq_true heq)
  · intro h x hx heq
    exact h ⟨x, hx, of_decide_eq_true heq⟩

theorem mem_modifyFirst {y : α} (hy : y ∈ modifyFirst key k f l) :
    y ∈ l ∨ ∃ x ∈ l, key x = k ∧ y = f x := by
  induction l with
  | nil => exact Or.inl hy
  | cons x l ih =>
    rw [modifyFirst] at hy
    split_ifs at hy with hx
    · rcases List.mem_cons.mp hy with rfl | hy
      · exact Or.inr ⟨x, .head _, hx, rfl⟩
      · exact Or.inl (.tail _ hy)
    · rcases List.mem_cons.mp hy with rfl | hy
      · exact Or.inl (.head _)
      · rcases ih hy with h | ⟨z, hz, hk, rfl⟩
        · exact Or.inl (.tail _ h)
        · exact Or.inr ⟨z, .tail _ hz, hk, rfl⟩

/-- What is read off the changed list is what was read off the old one, if this holds of
the record that is changed and of all others. -/
theorem map_modifyFirst_of {β : Type*} {g g' : α → β}
    (hsame : ∀ x ∈ l, g' x = g x) (hf : ∀ x ∈ l, key x = k → g' (f x) = g x) :
    (modifyFirst key k f l).map g' = l.map g := by
  induction l with
  | nil => rfl
  | cons x l ih =>
    have htail := fun y hy => hsame y (List.mem_cons_of_mem x hy)
    rw [modifyFirst]
    split_ifs with hx
    · rw [List.map_cons, hf x List.mem_cons_self hx, List.map_cons, List.map_congr_left htail]
    · rw [List.map_cons, hsame x List.mem_cons_self, List.map_cons,
        ih htail fun y hy => hf y (List.mem_cons_of_mem x hy)]

theorem modifyFirst_of_notMem (h : k ∉ l.map key) : modifyFirst key k f l = l := by
  induction l with
  | nil => rfl
  | cons x l ih =>
    obtain ⟨hx, h⟩ := List.ne_and_not_mem_of_not_mem_cons h
    rw [modifyFirst, if_neg (Ne.symm hx), ih h]

theorem map_modifyFirst (hf : ∀ x, key (f x) = key x) (l : List α) :
    (modifyFirst key k f l).map key = l.map key :=
  map_modifyFirst_of (fun _ _ => rfl) fun x _ _ => hf x

theorem nodup_upsert (hf : ∀ x, key (f x) = key x) (hnew : key new = k)
    (h : (l.map key).Nodup) : ((upsert key k new f l).map key).Nodup := by
  rw [upsert]
  split_ifs with hsome
  · rwa [map_modifyFirst hf]
  · have hnot := lookup_eq_none.mp (Option.not_isSome_iff_eq_none.mp hsome)
    rw [List.map_append, List.map_singleton, hf, hnew, List.nodup_append]
    refine ⟨h, List.nodup_singleton k, fun a ha b hb => ?_⟩
    rw [List.mem_singleton.mp hb]
    rintro rfl
    exact hnot ha

theorem lookup_eraseP (h : (l.map key).Nodup) :
    lookup key k' (l.eraseP (key · = k)) = if k' = k then none else lookup key k' l := by
  induction l with
  | nil => simp [lookup_nil]
  | cons x l ih =>
    obtain ⟨hnot, h⟩ := List.nodup_cons.mp h
    by_cases hx : key x = k
    · rw [List.eraseP_cons_of_pos (by simpa using hx), lookup_cons]
      split_ifs with hk hxk
      · rw [lookup_eq_none, hk, ← hx]
        exact hnot
      · exact absurd (hxk.symm.trans hx) hk
      · rfl
    · rw [List.eraseP_cons_of_neg (by simpa using hx), lookup_cons, ih h, lookup_cons]
      split_ifs with hxk hk
      · exact absurd (hxk.trans hk) hx
      all_goals rfl

variable (h : (l.map key).Nodup)
include h

omit [DecidableEq κ] in
theorem nodup_eraseP (p : α → Bool) : ((l.eraseP p).map key).Nodup :=
  h.sublist ((List.eraseP_sublist).map key)

theorem lookup_of_mem (hx : x ∈ l) : lookup key (key x) l = some x := by
  induction l with
  | nil => cases hx
  | cons y l ih =>
    obtain ⟨hnot, h⟩ := List.nodup_cons.mp h
    rw [lookup_cons]
    rcases List.mem_cons.mp hx with rfl | hx
    · exact if_pos rfl
    · have hne : key y ≠ key x := fun hyx => hnot (hyx ▸ List.mem_map_of_mem hx)
      rw [if_neg hne]
      exact ih h hx

theorem sum_ite_key {M : Type*} [AddCommMonoid M] (k : κ) (g : α → M) :
    (l.map fun x => if k = key x then g x else 0).sum = ((lookup key k l).map g).getD 0 := by
  induction l with
  | nil => rfl
  | cons x l ih =>
    obtain ⟨hnot, h⟩ := List.nodup_cons.mp h
    rw [List.map_cons, List.sum_cons, ih h, lookup_cons]
    by_cases hx : k = key x
    · rw [if_pos hx, if_pos hx.symm, hx, lookup_eq_none.mpr hnot]
      exact add_zero (g x)
    · rw [if_neg hx, if_neg (Ne.symm hx), zero_add]

theorem eraseP_eq_filter (k : κ) : l.eraseP (key · = k) = l.filter (key · ≠ k) := by
  induction l with
  | nil => rfl
  | cons x l ih =>
    obtain ⟨hnot, h⟩ := List.nodup_cons.mp h
    by_cases hx : key x = k
    · rw [List.eraseP_cons_of_pos (by simpa using hx), List.filter_cons_of_neg (by simpa using hx)]
      refine (List.filter_eq_self.mpr fun y hy => decide_eq_true ?_).symm
      rintro rfl
      exact hnot (hx ▸ List.mem_map_of_mem hy)
    · rw [List.eraseP_cons_of_neg (by simpa using hx), List.filter_cons_of_pos (by simpa using hx),
        ih h]

theorem modifyFirst_perm (hx : x ∈ l) :
    (modifyFirst key (key x) f l).Perm (f x :: l.filter (key · ≠ key x)) := by
  induction l with
  | nil => cases hx
  | cons y l ih =>
    obtain ⟨hnot, h⟩ := List.nodup_cons.mp h
    rw [modifyFirst]
    rcases List.mem_cons.mp hx with rfl | hx
    · rw [if_pos rfl, List.filter_cons_of_neg (by simp)]
      refine (List.Perm.of_eq (List.filter_eq_self.mpr fun y hy => decide_eq_true ?_)).symm.cons _
      exact fun hxy => hnot (hxy ▸ List.mem_map_of_mem hy)
    · have hne : key y ≠ key x := fun hyx => hnot (hyx ▸ List.mem_map_of_mem hx)
      rw [if_neg hne, List.filter_cons_of_pos (by simpa using hne)]
      exact ((ih h hx).cons y).trans (List.Perm.swap _ _ _)

omit h

section Owned

variable {β : Type*} {g : α → List β} {owner : β → κ} {l : List α}

theorem filter_flatMap_ne (hg : ∀ x, ∀ y ∈ g x, owner y = key x) (l : List α) (k : κ) :
    (l.flatMap g).filter (owner · ≠ k) = (l.filter (key · ≠ k)).flatMap g := by
  induction l with
  | nil => rfl
  | cons x l ih =>
    rw [List.flatMap_cons, List.filter_append, ih]
    by_cases hx : key x = k
    · rw [List.filter_cons_of_neg (by simpa using hx), List.filter_eq_nil_iff.mpr, List.nil_append]
      intro y hy
      simpa [hg x y hy] using hx
    · rw [List.filter_cons_of_pos (by simpa using hx), List.flatMap_cons, List.filter_eq_self.mpr]
      intro y hy
      simpa [hg x y hy] using hx

/-- What the record of a key owns, if no other record has this key. -/
theorem filter_flatMap_key (hg : ∀ x, ∀ y ∈ g x, owner y = key x) (h : (l.map key).Nodup)
    {x : α} (hx : x ∈ l) : (l.flatMap g).filter (owner · = key x) = g x := by
  induction l with
  | nil => cases hx
  | cons z l ih =>
    obtain ⟨hnot, h⟩ := List.nodup_cons.mp h
    rw [List.flatMap_cons, List.filter_append]
    rcases List.mem_cons.mp hx with rfl | hx
    · rw [List.filter_eq_self.mpr fun y hy => decide_eq_true (hg x y hy),
        List.filter_eq_nil_iff.mpr, List.append_nil]
      intro y hy
      obtain ⟨w, hw, hy⟩ := List.mem_flatMap.mp hy
      rw [hg w y hy, decide_eq_true_eq]
      exact fun hwx => hnot (hwx ▸ List.mem_map_of_mem hw)
    · rw [ih h hx, List.filter_eq_nil_iff.mpr, List.nil_append]
      intro y hy
      rw [hg z y hy, decide_eq_true_eq]
      exact fun hzx => hnot (hzx ▸ List.mem_map_of_mem hx)

end Owned

end KeyedList

/-! ## Ledgers -/

section Ledger

variable {σ M : Type*} [AddCommMonoid M]

structure Posts (P : σ → Prop) (read : σ → M) (op : σ → σ) (v : M) : Prop where
  keeps : ∀ s, P s → P (op s)
  adds : ∀ s, P s → read (op s) = read s + v

variable {P : σ → Prop} {read : σ → M} {op op' : σ → σ} {v v' : M}

namespace Posts

theorem id : Posts P read (fun s => s) 0 where
  keeps := fun _ h => h
  adds := fun s _ => (add_zero (read s)).symm

theorem comp (h' : Posts P read op' v') (h : Posts P read op v) :
    Posts P read (fun s => op' (op s)) (v + v') where
  keeps := fun s hs => h'.keeps (op s) (h.keeps s hs)
  adds := fun s hs => by rw [h'.adds (op s) (h.keeps s hs), h.adds s hs, add_assoc]

theorem congr (h : Posts P read op v) (hv : v = v') : Posts P read op v' := hv ▸ h

theorem foldl {ι : Type*} {step : σ → ι → σ} {amount : ι → M} (l : List ι)
    (h : ∀ i ∈ l, Posts P read (step · i) (amount i)) :
    Posts P read (fun s => l.foldl step s) (l.map amount).sum := by
  induction l with
  | nil => exact Posts.id
  | cons i l ih =>
    rw [List.map_cons, List.sum_cons]
    exact (ih fun j hj => h j (List.mem_cons_of_mem i hj)).comp (h i (.head _))

end Posts

theorem sum_map_neg {ι G : Type*} [AddCommGroup G] (f : ι → G) (l : List ι) :
    (l.map fun i => -f i).sum = -(l.map f).sum := by
  rw [List.sum_neg, List.map_map]
  rfl

theorem sum_map_eraseIdx {ι M : Type*} [AddCommMonoid M] (f : ι → M) {l : List ι} {k : ℕ} {i : ι}
    (h : l[k]? = some i) : (l.map f).sum = f i + ((l.eraseIdx k).map f).sum := by
  obtain ⟨hk, rfl⟩ := List.getElem?_eq_some_iff.mp h
  rw [← ((List.getElem_cons_eraseIdx_perm hk).map f).sum_eq, List.map_cons, List.sum_cons]

/-- An operation is taken back by a later one, whatever is posted in between. -/
theorem Posts.cancel {G : Type*} [AddCommGroup G] {read : σ → G} {op op' mid : σ → σ} {v w : G}
    (h : Posts P read op v) (hmid : Posts P read mid w) (h' : Posts P read op' (-v)) {s : σ}
    (hs : P s) : read (op' (mid (op s))) = read (mid s) := by
  rw [((h'.comp hmid).comp h).adds s hs, hmid.adds s hs]
  abel

end Ledger

/-! ## Folds -/

/-- Of the entries of a list one acts on what is read, once. -/
theorem foldl_acts_once {σ ρ α : Type*} {f : σ → ρ} {g : ρ → ρ} {step : σ → α → σ} {a : α}
    (hg : ∀ s, f (step s a) = g (f s)) {l : List α} (hnodup : l.Nodup) (hmem : a ∈ l)
    (hother : ∀ s, ∀ x ∈ l, x ≠ a → f (step s x) = f s) (s : σ) : f (l.foldl step s) = g (f s) := by
  have hrest : ∀ l : List α, (∀ s, ∀ x ∈ l, f (step s x) = f s) → ∀ s,
      f (l.foldl step s) = f s := by
    intro l
    induction l with
    | nil => exact fun _ _ => rfl
    | cons x l ih =>
      intro hsame s
      rw [List.foldl_cons, ih fun s y hy => hsame s y (List.mem_cons_of_mem x hy)]
      exact hsame s x (.head _)
  obtain ⟨before, after, rfl⟩ := List.append_of_mem hmem
  obtain ⟨-, hafter, hbefore⟩ := List.nodup_append.mp hnodup
  rw [List.foldl_append, List.foldl_cons, hrest after, hg, hrest before]
  · intro s x hx
    apply hother s x (List.mem_append_left _ hx)
    rintro rfl
    exact hbefore x hx x (.head _) rfl
  · intro s x hx
    apply hother s x (List.mem_append_right _ (List.mem_cons_of_mem a hx))
    rintro rfl
    exact (List.nodup_cons.mp hafter).1 hx

end ClusterScheduler.Foundation
