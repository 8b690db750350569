import Mathlib.Data.List.Induction

/-!
# Loops with a partial body

A loop over a list whose body may fail, as `List.foldlM` in `Option`.

* `foldlM_total` — the loop succeeds when its body always does.
* `foldlM_reaches` — what the body for one element establishes and the others keep, holds in the
  end.
* `foldlM_all` — the loop whose body fails for some elements, whatever came before.
* `foldlM_overwrite` — a loop that overwrites its result ends with the last one written.
-/

namespace ClusterScheduler.Foundation

variable {α β γ : Type*} {f : β → α → Option β} {l : List α}

theorem foldlM_total (h : ∀ b, ∀ a ∈ l, ∃ b', f b a = some b') (b : β) :
    ∃ b', l.foldlM f b = some b' := by
  induction l generalizing b with
  | nil => exact ⟨b, rfl⟩
  | cons a l ih =>
    obtain ⟨b₁, hb₁⟩ := h b a (.head _)
    obtain ⟨b', hb'⟩ := ih (fun b x hx => h b x (.tail _ hx)) b₁
    refine ⟨b', ?_⟩
    rw [List.foldlM_cons, hb₁]
    exact hb'

variable {b b' : β}

variable {P : β → Prop}

theorem foldlM_preserves (hkeep : ∀ b, ∀ a ∈ l, ∀ b', f b a = some b' → P b → P b')
    (hb : P b) (h : l.foldlM f b = some b') : P b' := by
  induction l generalizing b with
  | nil => exact Option.some.inj h ▸ hb
  | cons a l ih =>
    rw [List.foldlM_cons] at h
    obtain ⟨b₁, hone, hrest⟩ := Option.bind_eq_some_iff.mp h
    have hb₁ : P b₁ := hkeep b a (.head _) b₁ hone hb
    exact ih (fun b x hx => hkeep b x (.tail _ hx)) hb₁ hrest

theorem foldlM_reaches {a : α} (ha : a ∈ l) (hreach : ∀ b b', f b a = some b' → P b')
    (hkeep : ∀ b, ∀ x ∈ l, ∀ b', f b x = some b' → P b → P b') (h : l.foldlM f b = some b') :
    P b' := by
  obtain ⟨l₁, l₂, rfl⟩ := List.append_of_mem ha
  rw [List.foldlM_append] at h
  obtain ⟨b₁, -, hrest⟩ := Option.bind_eq_some_iff.mp h
  rw [List.foldlM_cons] at hrest
  obtain ⟨b₂, hone, hrest⟩ := Option.bind_eq_some_iff.mp hrest
  have hb₂ : P b₂ := hreach b₁ b₂ hone
  exact foldlM_preserves (fun b x hx => hkeep b x (by simp [hx])) hb₂ hrest

/-- The body fails for some elements, whatever the result so far is. -/
theorem foldlM_all {ok : α → Bool} {g : β → α → β}
    (hf : ∀ b a, f b a = if ok a then some (g b a) else none) (l : List α) (b : β) :
    l.foldlM f b = if l.all ok then some (l.foldl g b) else none := by
  induction l generalizing b with
  | nil => rfl
  | cons a l ih =>
    rw [List.foldlM_cons, hf, List.all_cons]
    cases ok a with
    | false => rfl
    | true =>
      rw [if_pos rfl, Bool.true_and, List.foldl_cons]
      exact ih (g b a)

/-- A loop that writes its result for some elements and passes over the others. -/
theorem foldlM_overwrite {sel : α → Option γ} {g : γ → Option β}
    (hpass : ∀ b, ∀ a ∈ l, sel a = none → f b a = some b)
    (hwrite : ∀ b, ∀ a ∈ l, ∀ c, sel a = some c → f b a = g c) (h : l.foldlM f b = some b') :
    ((l.filterMap sel).getLast? = none → b' = b) ∧
      ∀ c, (l.filterMap sel).getLast? = some c → g c = some b' := by
  -- the last element decides, so the induction takes the list from its end
  induction l using List.reverseRecOn generalizing b' with
  | nil => exact ⟨fun _ => (Option.some.inj h).symm, fun c hc => absurd hc (by simp)⟩
  | append_singleton l a ih =>
    rw [List.foldlM_append] at h
    obtain ⟨b₁, hbefore, hlast⟩ := Option.bind_eq_some_iff.mp h
    have hlast : f b₁ a = some b' := by simpa using hlast
    cases hsel : sel a with
    | none =>
      obtain rfl : b₁ = b' := Option.some.inj ((hpass b₁ a (by simp) hsel).symm.trans hlast)
      rw [List.filterMap_append, List.filterMap_cons_none hsel, List.filterMap_nil, List.append_nil]
      exact ih (fun b x hx => hpass b x (by simp [hx]))
        (fun b x hx => hwrite b x (by simp [hx])) hbefore
    | some c =>
      have hg : g c = some b' := (hwrite b₁ a (by simp) c hsel).symm.trans hlast
      rw [List.filterMap_append, List.filterMap_cons_some hsel, List.filterMap_nil,
        List.getLast?_concat]
      refine ⟨fun hnone => absurd hnone (by simp), fun d hd => ?_⟩
      obtain rfl : c = d := by simpa using hd
      exact hg

end ClusterScheduler.Foundation
