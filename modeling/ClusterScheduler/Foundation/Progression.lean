import Mathlib.Data.Nat.Basic
import Mathlib.Tactic.Tauto

/-!
# Finite arithmetic progressions

A progression is given by a first number, an upper bound and a step. Splitting
one and joining two are the same law read in two directions
(`onGrid_append`); the other lemmas are its cases.
-/

namespace ClusterScheduler.Foundation

def OnGrid (lo hi d x : ℕ) : Prop := lo ≤ x ∧ x ≤ hi ∧ d ∣ x - lo

variable {lo hi d m x : ℕ}

/-- **Splitting.** Behind a member `m` the progression goes on at `m + d`. -/
theorem onGrid_append (hlo : lo ≤ m) (hhi : m ≤ hi) (hm : d ∣ m - lo) :
    OnGrid lo hi d x ↔ OnGrid lo m d x ∨ OnGrid (m + d) hi d x := by
  constructor
  · rintro ⟨h1, h2, h3⟩
    rcases Nat.lt_or_ge m x with hlt | hge
    · right
      have hdvd : d ∣ x - m := by
        have := Nat.dvd_sub h3 hm
        rwa [show x - lo - (m - lo) = x - m by omega] at this
      have hle := Nat.le_of_dvd (by omega) hdvd
      refine ⟨by omega, h2, ?_⟩
      have := Nat.dvd_sub hdvd (Nat.dvd_refl d)
      rwa [show x - m - d = x - (m + d) by omega] at this
    · exact Or.inl ⟨h1, hge, h3⟩
  · rintro (⟨h1, h2, h3⟩ | ⟨h1, h2, h3⟩)
    · exact ⟨h1, by omega, h3⟩
    · refine ⟨by omega, h2, ?_⟩
      have := Nat.dvd_add (Nat.dvd_add h3 (Nat.dvd_refl d)) hm
      rwa [show x - (m + d) + d + (m - lo) = x - lo by omega] at this

theorem onGrid_self : OnGrid lo lo d x ↔ x = lo := by
  constructor
  · rintro ⟨h1, h2, -⟩
    omega
  · rintro rfl
    exact ⟨Nat.le_refl x, Nat.le_refl x, by simp⟩

theorem not_onGrid (h : hi < lo) : ¬ OnGrid lo hi d x := by
  rintro ⟨h1, h2, -⟩
  omega

theorem onGrid_pair (h : lo < hi) : OnGrid lo hi (hi - lo) x ↔ x = lo ∨ x = hi := by
  rw [onGrid_append (Nat.le_refl lo) (Nat.le_of_lt h) (by simp), onGrid_self,
    show lo + (hi - lo) = hi by omega, onGrid_self]

theorem onGrid_first (h : lo ≤ hi) : OnGrid lo hi d x ↔ x = lo ∨ OnGrid (lo + d) hi d x := by
  rw [onGrid_append (Nat.le_refl lo) h (by simp), onGrid_self]

theorem onGrid_last (hlt : lo < hi) (hd : d ∣ hi - lo) :
    OnGrid lo hi d x ↔ OnGrid lo (hi - d) d x ∨ x = hi := by
  have hle := Nat.le_of_dvd (by omega) hd
  have hdvd : d ∣ hi - d - lo := by
    have := Nat.dvd_sub hd (Nat.dvd_refl d)
    rwa [show hi - lo - d = hi - d - lo by omega] at this
  rw [onGrid_append (by omega) (Nat.sub_le hi d) hdvd,
    show hi - d + d = hi by omega, onGrid_self]

variable {y : ℕ}

/-- A number inside: what is before it, itself, what is behind it. -/
theorem onGrid_inside (hlo : lo < y) (hhi : y < hi) (hy : d ∣ y - lo) :
    OnGrid lo hi d x ↔
      OnGrid lo (y - d) d x ∨ x = y ∨ OnGrid (y + d) hi d x := by
  rw [onGrid_append (Nat.le_of_lt hlo) (Nat.le_of_lt hhi) hy, onGrid_last hlo hy]
  tauto

/-- The last member that is not greater than `y`. -/
theorem onGrid_floor (hlo : lo ≤ y) :
    lo ≤ lo + (y - lo) / d * d ∧ lo + (y - lo) / d * d ≤ y ∧
      d ∣ lo + (y - lo) / d * d - lo := by
  have := Nat.div_mul_le_self (y - lo) d
  refine ⟨by omega, by omega, ?_⟩
  rw [Nat.add_sub_cancel_left]
  exact Nat.dvd_mul_left d _

/-- A member is behind neither `y` nor the last member up to `y`. -/
theorem le_floor_iff (hd : 0 < d) (hlo : lo ≤ y) (hx : lo ≤ x) (hdvd : d ∣ x - lo) :
    x ≤ lo + (y - lo) / d * d ↔ x ≤ y := by
  obtain ⟨k, hk⟩ := hdvd
  have hiff : k ≤ (y - lo) / d ↔ d * k ≤ y - lo := by
    rw [Nat.le_div_iff_mul_le hd, Nat.mul_comm]
  have hmul : d * k ≤ (y - lo) / d * d ↔ k ≤ (y - lo) / d := by
    rw [Nat.mul_comm d k]
    exact Nat.mul_le_mul_right_iff hd
  omega

/-- The last member up to `y` is less than a step before `y`. -/
theorem floor_le_iff (hd : 0 < d) (hx : lo ≤ x) (hdvd : d ∣ x - lo) :
    lo + (y - lo) / d * d ≤ x ↔ y < x + d := by
  obtain ⟨k, hk⟩ := hdvd
  have hiff : (y - lo) / d < k + 1 ↔ y - lo < (k + 1) * d := Nat.div_lt_iff_lt_mul hd
  have hmul : (y - lo) / d * d ≤ d * k ↔ (y - lo) / d ≤ k := by
    rw [Nat.mul_comm d k]
    exact Nat.mul_le_mul_right_iff hd
  rw [Nat.add_mul, Nat.one_mul, Nat.mul_comm k d] at hiff
  omega

theorem onGrid_between {z : ℕ} (hlo : lo ≤ y) (hdvd : d ∣ y - lo) (hz : z ≤ hi) :
    OnGrid y z d x ↔ OnGrid lo hi d x ∧ y ≤ x ∧ x ≤ z := by
  constructor
  · rintro ⟨h1, h2, h3⟩
    refine ⟨⟨Nat.le_trans hlo h1, Nat.le_trans h2 hz, ?_⟩, h1, h2⟩
    rw [show x - lo = x - y + (y - lo) by omega]
    exact Nat.dvd_add h3 hdvd
  · rintro ⟨⟨-, -, h3⟩, h1, h2⟩
    refine ⟨h1, h2, ?_⟩
    rw [show x - y = x - lo - (y - lo) by omega]
    exact Nat.dvd_sub h3 hdvd

/-- A bound off the grid can be moved to the last member. -/
theorem onGrid_round (hlo : lo ≤ hi) (hd : 0 < d) :
    OnGrid lo hi d x ↔ OnGrid lo (lo + (hi - lo) / d * d) d x := by
  obtain ⟨h1, h2, h3⟩ := onGrid_floor (d := d) hlo
  have hlt := Nat.lt_div_mul_add (a := hi - lo) hd
  have hnone : ¬ OnGrid (lo + (hi - lo) / d * d + d) hi d x := not_onGrid (by omega)
  rw [onGrid_append h1 h2 h3]
  exact or_iff_left hnone

end ClusterScheduler.Foundation
