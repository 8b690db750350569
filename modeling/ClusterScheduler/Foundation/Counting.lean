import Mathlib

/-!
# Counters that are kept by differences

A counter says for how many members of a finite set something holds. When the predicate changes
for one member only, the number moves by one.

* `card_filter_rise` — the predicate begins to hold for one member.
* `foldl_update_apply` — a loop that changes entries of a table, each key at most once.
-/

namespace ClusterScheduler.Foundation

section Card

variable {κ : Type*} [DecidableEq κ] {s : Finset κ} {P Q : κ → Prop} [DecidablePred P]
  [DecidablePred Q] {k : κ}

theorem card_filter_rise (hk : k ∈ s) (hother : ∀ i ∈ s, i ≠ k → (Q i ↔ P i)) (hP : ¬ P k)
    (hQ : Q k) : (s.filter Q).card = (s.filter P).card + 1 := by
  have hinsert : s.filter Q = insert k (s.filter P) := by
    ext i
    rw [Finset.mem_insert, Finset.mem_filter, Finset.mem_filter]
    by_cases hi : i = k
    · subst hi
      exact iff_of_true ⟨hk, hQ⟩ (.inl rfl)
    · constructor
      · rintro ⟨his, hQi⟩
        exact .inr ⟨his, (hother i his hi).mp hQi⟩
      · rintro (heq | ⟨his, hPi⟩)
        · exact absurd heq hi
        · exact ⟨his, (hother i his hi).mpr hPi⟩
  rw [hinsert, Finset.card_insert_of_notMem]
  exact fun hmem => hP (Finset.mem_filter.mp hmem).2

end Card

section Table

variable {κ ε β : Type*} [DecidableEq κ] {key : ε → κ} (cond : ε → Prop) [DecidablePred cond]
  (f : β → β)

/-- The loop has changed an entry if there was an element for it. -/
theorem foldl_update_apply {l : List ε} (hnodup : (l.map key).Nodup) (table : κ → β) (k : κ) :
    l.foldl (fun table e =>
      if cond e then Function.update table (key e) (f (table (key e))) else table) table k =
      if ∃ e ∈ l, key e = k ∧ cond e then f (table k) else table k := by
  induction l generalizing table with
  | nil =>
    rw [if_neg]
    · rfl
    · rintro ⟨e, he, -⟩
      exact List.not_mem_nil he
  | cons e l ih =>
    rw [List.map_cons, List.nodup_cons] at hnodup
    rw [List.foldl_cons, ih hnodup.2]
    by_cases hk : key e = k
    · -- the other elements have other keys
      have hnone : ¬ ∃ e' ∈ l, key e' = k ∧ cond e' := by
        rintro ⟨e', he', hk', -⟩
        exact hnodup.1 (hk ▸ hk' ▸ List.mem_map_of_mem he')
      rw [if_neg hnone]
      by_cases hc : cond e
      · rw [if_pos hc, if_pos ⟨e, List.mem_cons_self, hk, hc⟩, hk, Function.update_self]
      · rw [if_neg hc, if_neg]
        rintro ⟨e', he', hk', hc'⟩
        rcases List.mem_cons.mp he' with rfl | hmem
        · exact hc hc'
        · exact hnone ⟨e', hmem, hk', hc'⟩
    · have hsame : (if cond e then Function.update table (key e) (f (table (key e))) else table)
          k = table k := by
        split_ifs
        · exact Function.update_of_ne (Ne.symm hk) ..
        · rfl
      have hiff : (∃ e' ∈ e :: l, key e' = k ∧ cond e') ↔ ∃ e' ∈ l, key e' = k ∧ cond e' := by
        rw [List.exists_mem_cons_iff, or_iff_right]
        exact fun h => hk h.1
      simp only [hsame, hiff]

end Table

end ClusterScheduler.Foundation
