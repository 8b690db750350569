import Mathlib.Logic.Relation
import Mathlib.Order.Basic
import Mathlib.Tactic.Linarith

/-!
# Following a partial function

A loop that goes from a value to the next one, until there is none.

* `Comes` — the values the loop comes to.
* `lastFrom` — the value it ends with, when a number of steps is enough.
* `exists_lastFrom_iff` — a loop over integers that never goes back and stays below a bound
  ends exactly if it comes to no value that is followed by itself.
* `Comes.exists_gap` — what lies between the first value and a later one lies between two
  that follow each other.
-/

namespace ClusterScheduler.Foundation

variable {α : Type*} {next : α → Option α} {a b x : α}

def Comes (next : α → Option α) : α → α → Prop :=
  Relation.ReflTransGen fun x y => next x = some y

theorem Comes.refl : Comes next a a := Relation.ReflTransGen.refl

theorem Comes.step {y : α} (h : Comes next a x) (hxy : next x = some y) : Comes next a y :=
  Relation.ReflTransGen.tail h hxy

/-- The value the loop ends with, if it does within so many steps. -/
def lastFrom (next : α → Option α) : ℕ → α → Option α
  | 0, _ => none
  | steps + 1, x =>
    match next x with
    | none => some x
    | some y => lastFrom next steps y

variable {steps : ℕ}

theorem lastFrom_succ_none (h : next x = none) : lastFrom next (steps + 1) x = some x := by
  simp [lastFrom, h]

theorem lastFrom_succ_some {y : α} (h : next x = some y) :
    lastFrom next (steps + 1) x = lastFrom next steps y := by
  simp [lastFrom, h]

/-- The loop ends with a value it comes to, and nothing follows it. -/
theorem lastFrom_spec (h : lastFrom next steps a = some b) : Comes next a b ∧ next b = none := by
  induction steps generalizing a with
  | zero => cases h
  | succ steps ih =>
    cases hn : next a with
    | none =>
      rw [lastFrom_succ_none hn] at h
      cases h
      exact ⟨.refl, hn⟩
    | some y =>
      rw [lastFrom_succ_some hn] at h
      obtain ⟨hcomes, hlast⟩ := ih h
      exact ⟨Relation.ReflTransGen.head hn hcomes, hlast⟩

/-- A loop that ends also ends from every value it comes to, with the same value. -/
theorem Comes.lastFrom (h : Comes next a x) (hlast : Foundation.lastFrom next steps a = some b) :
    ∃ n, Foundation.lastFrom next n x = some b := by
  induction h with
  | refl => exact ⟨steps, hlast⟩
  | tail _ hxy ih =>
    obtain ⟨n, hn⟩ := ih
    cases n with
    | zero => cases hn
    | succ n => exact ⟨n, by rwa [lastFrom_succ_some hxy] at hn⟩

theorem lastFrom_of_fixed (h : next x = some x) (steps : ℕ) : lastFrom next steps x = none := by
  induction steps with
  | zero => rfl
  | succ steps ih => rw [lastFrom_succ_some h, ih]

/-- The last value is behind every value the loop comes to. -/
theorem Comes.comes_last (h : Comes next a x)
    (hlast : Foundation.lastFrom next steps a = some b) : Comes next x b := by
  obtain ⟨n, hn⟩ := h.lastFrom hlast
  exact (lastFrom_spec hn).1

/-! ## Loops over ordered values -/

theorem Comes.exists_gap [LinearOrder α] {t : α} (h : Comes next a b) (hat : a ≤ t) (htb : t < b) :
    ∃ x y, Comes next a x ∧ next x = some y ∧ x ≤ t ∧ t < y := by
  induction h with
  | refl => exact absurd htb (not_lt.mpr hat)
  | @tail x y hx hxy ih =>
    rcases lt_or_ge t x with htx | hxt
    · exact ih htx
    · exact ⟨x, y, hx, hxy, hxt, htb⟩

theorem exists_lastFrom_iff {next : ℤ → Option ℤ} {a : ℤ} (bound : ℤ)
    (hforward : ∀ x y, Comes next a x → next x = some y → x ≤ y)
    (hbound : ∀ x y, Comes next a x → next x = some y → y ≤ bound) :
    (∃ steps b, lastFrom next steps a = some b) ↔ ∀ x, Comes next a x → next x ≠ some x := by
  constructor
  · rintro ⟨steps, b, hlast⟩ x hx hfixed
    obtain ⟨n, hn⟩ := hx.lastFrom hlast
    rw [lastFrom_of_fixed hfixed] at hn
    cases hn
  · intro hmoves
    -- the distance to the bound shrinks with every step
    have hends : ∀ (n : ℕ) (x : ℤ), Comes next a x → (bound - x).toNat < n →
        ∃ steps b, lastFrom next steps x = some b := by
      intro n
      induction n with
      | zero => exact fun x hx hn => absurd hn (Nat.not_lt_zero _)
      | succ n ih =>
        intro x hx hn
        cases hxy : next x with
        | none => exact ⟨1, x, lastFrom_succ_none hxy⟩
        | some y =>
          have hle := hforward x y hx hxy
          have hy := hbound x y hx hxy
          have hne : x ≠ y := by
            rintro rfl
            exact hmoves x hx hxy
          obtain ⟨steps, b, hlast⟩ := ih y (hx.step hxy) (by omega)
          exact ⟨steps + 1, b, by rw [lastFrom_succ_some hxy, hlast]⟩
    exact hends _ a .refl (Nat.lt_succ_self _)

end ClusterScheduler.Foundation
