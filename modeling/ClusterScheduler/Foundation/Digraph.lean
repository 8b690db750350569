import Mathlib.Logic.Relation
import Mathlib.Data.Set.Card

/-! # Acyclic relations

Directed graphs as relations, without assumptions on the vertices.

- `Acyclic` — no path leads back to where it started (`acyclic_of_falls`).
- `Acyclic.redirect` — new edges that leave one vertex keep a graph acyclic, if
  no path leads from their ends to that vertex.
- `Acyclic.path_to` — a path to a vertex is there whatever edges leave the vertex.
- `height` — with finitely many targets, the number of vertices a path leads to
  falls along every edge (`height_lt`); `depth` counts those an edge leaves, for
  finitely many sources.
- `level_terminates` — so a search that goes from level to level ends.
-/

namespace ClusterScheduler.Foundation

open Relation

variable {α β : Type*} {R S : α → α → Prop} {a b v : α}

/-- No path leads back to where it started. -/
def Acyclic (R : α → α → Prop) : Prop :=
  ∀ a, ¬ TransGen R a a

theorem Acyclic.mono (hS : Acyclic S) (h : ∀ a b, R a b → S a b) : Acyclic R :=
  fun a hpath => hS a (TransGen.mono h a a hpath)

theorem Acyclic.swap (hR : Acyclic R) : Acyclic (Function.swap R) :=
  fun a hpath => hR a (transGen_swap.mp hpath)

theorem acyclic_of_falls (f : α → ℕ) (h : ∀ a b, R a b → f b < f a) : Acyclic R := by
  have hpath (a b : α) (hab : TransGen R a b) : f b < f a := by
    induction hab with
    | single hedge => exact h _ _ hedge
    | tail _ hedge ih => exact (h _ _ hedge).trans ih
  exact fun a hcycle => lt_irrefl _ (hpath a a hcycle)

/-! ## New edges of one vertex -/

variable {T : α → Prop}

/-- A path with new edges is an old one, or it comes to `v` and goes on from the
end of a new edge. -/
theorem transGen_redirect (hRS : ∀ a b, S a b → R a b ∨ a = v ∧ T b) (hpath : TransGen S a b) :
    TransGen R a b ∨ ReflTransGen R a v ∧ ∃ t, T t ∧ ReflTransGen R t b := by
  -- induction on the last edge: only an edge out of `v` changes the second half
  induction hpath with
  | single hedge =>
    rcases hRS _ _ hedge with hR | ⟨rfl, ht⟩
    · exact .inl (.single hR)
    · exact .inr ⟨.refl, _, ht, .refl⟩
  | tail _ hedge ih =>
    rcases hRS _ _ hedge with hR | ⟨rfl, ht⟩
    · rcases ih with hold | ⟨hv, t, ht, hrest⟩
      · exact .inl (hold.tail hR)
      · exact .inr ⟨hv, t, ht, hrest.tail hR⟩
    · rcases ih with hold | ⟨hv, -⟩
      · exact .inr ⟨hold.to_reflTransGen, _, ht, .refl⟩
      · exact .inr ⟨hv, _, ht, .refl⟩

/-- New edges out of `v` close no cycle if none of them ends where a path to `v`
starts. -/
theorem Acyclic.redirect (hR : Acyclic R)
    (hRS : ∀ a b, S a b → R a b ∨ a = v ∧ T b) (hT : ∀ t, T t → ¬ ReflTransGen R t v) :
    Acyclic S := by
  intro a hcycle
  rcases transGen_redirect hRS hcycle with hold | ⟨hv, t, ht, hrest⟩
  · exact hR a hold
  · exact hT t ht (hrest.trans hv)

/-- A path to `v` does not depend on the edges out of `v`. -/
theorem Acyclic.path_to (hR : Acyclic R) (hRS : ∀ a b, a ≠ v → R a b → S a b)
    (hpath : ReflTransGen R a v) : ReflTransGen S a v := by
  induction hpath using ReflTransGen.head_induction_on with
  | refl => exact .refl
  | head hedge hrest ih =>
    refine .head (hRS _ _ ?_ hedge) ih
    rintro rfl
    exact hR _ (.head' hedge hrest)

/-! ## Height -/

variable (R) in
/-- How many vertices a path from `a` leads to. -/
noncomputable def height (a : α) : ℕ :=
  {b | TransGen R a b}.ncard

theorem height_lt (hR : Acyclic R) (hfin : {b | ∃ a, R a b}.Finite) (hedge : R a b) :
    height R b < height R a := by
  refine Set.ncard_lt_ncard ?_ (hfin.subset ?_)
  · refine ⟨fun c hc => .head hedge hc, fun hsub => ?_⟩
    exact hR b (hsub (TransGen.single hedge))
  · intro c hc
    obtain ⟨d, -, hdc⟩ := TransGen.tail'_iff.mp hc
    exact ⟨d, hdc⟩

theorem height_le (R : α → α → Prop) (hfin : {b | ∃ a, R a b}.Finite) (a : α) :
    height R a ≤ {b | ∃ a, R a b}.ncard := by
  refine Set.ncard_le_ncard (fun c hc => ?_) hfin
  obtain ⟨d, -, hdc⟩ := TransGen.tail'_iff.mp hc
  exact ⟨d, hdc⟩

variable (R) in
/-- How many vertices with an edge a path from `a` comes to, `a` included. -/
noncomputable def depth (a : α) : ℕ :=
  {b | ReflTransGen R a b ∧ ∃ c, R b c}.ncard

theorem depth_lt (hR : Acyclic R) (hfin : {a | ∃ b, R a b}.Finite) (hedge : R a b) :
    depth R b < depth R a := by
  refine Set.ncard_lt_ncard ?_ (hfin.subset fun c hc => hc.2)
  refine ⟨fun c hc => ⟨.head hedge hc.1, hc.2⟩, fun hsub => ?_⟩
  have hback : ReflTransGen R b a := (hsub ⟨.refl, b, hedge⟩).1
  exact hR a (.head' hedge hback)

theorem depth_le (R : α → α → Prop) (hfin : {a | ∃ b, R a b}.Finite) (a : α) :
    depth R a ≤ {a | ∃ b, R a b}.ncard :=
  Set.ncard_le_ncard (fun _ hc => hc.2) hfin

/-- **A search by levels ends.** `run n l` says that the search of the level `l`
ends within `n` calls; it does when the next level is empty or its search ends. -/
theorem level_terminates (next : List β → List β) (run : ℕ → List β → Prop) (h : β → ℕ)
    (hstop : ∀ n l, next l = [] → run (n + 1) l) (hnext : ∀ n l, run n (next l) → run (n + 1) l)
    (hfalls : ∀ l, ∀ b ∈ next l, ∃ a ∈ l, h b < h a) :
    ∀ n l, (∀ a ∈ l, h a < n) → run (n + 1) l := by
  intro n
  induction n with
  | zero =>
    intro l hl
    refine hstop 0 l (List.eq_nil_iff_forall_not_mem.mpr fun b hb => ?_)
    obtain ⟨a, ha, -⟩ := hfalls l b hb
    exact absurd (hl a ha) (Nat.not_lt_zero _)
  | succ n ih =>
    intro l hl
    refine hnext _ _ (ih _ fun b hb => ?_)
    obtain ⟨a, ha, hlt⟩ := hfalls l b hb
    have := hl a ha
    omega

end ClusterScheduler.Foundation
