import Mathlib

/-!
# Ids from a wrapping counter

* `nextFree` — the first value of the counter that is not taken.
* `exists_free` — with fewer ids in use than there are, some id is free.
* `nextFree_of_free` — the counter finds it.
-/

namespace ClusterScheduler.Foundation

variable {w : ℕ} {taken : BitVec w → Bool}

/-- The first value from `next` on that is not taken, with the counter after it. -/
def nextFree (taken : BitVec w → Bool) : ℕ → BitVec w → Option (BitVec w × BitVec w)
  | 0, _ => none
  | steps + 1, next =>
    if taken next then nextFree taken steps (next + 1) else some (next, next + 1)

variable {steps : ℕ} {next : BitVec w}

theorem not_taken_of_nextFree {r : BitVec w × BitVec w}
    (h : nextFree taken steps next = some r) : taken r.1 = false := by
  induction steps generalizing next with
  | zero => exact absurd h (by simp [nextFree])
  | succ steps ih =>
    rw [nextFree] at h
    split at h
    next => exact ih h
    next hfree =>
      cases h
      exact Bool.eq_false_iff.mpr hfree

/-- A free value within reach of the counter ends the search. -/
theorem nextFree_of_offset {k : ℕ} (hk : k < steps)
    (h : taken (next + BitVec.ofNat w k) = false) : ∃ r, nextFree taken steps next = some r := by
  induction steps generalizing next k with
  | zero => exact absurd hk (Nat.not_lt_zero k)
  | succ steps ih =>
    rw [nextFree]
    split
    next htaken =>
      cases k with
      | zero =>
        rw [BitVec.add_zero, htaken] at h
        exact absurd h.symm Bool.false_ne_true
      | succ k =>
        apply ih (Nat.lt_of_succ_lt_succ hk)
        rwa [BitVec.ofNat_add, BitVec.add_comm (BitVec.ofNat w k), ← BitVec.add_assoc] at h
    next => exact ⟨_, rfl⟩

theorem nextFree_of_free {id : BitVec w} (next : BitVec w) (h : taken id = false) :
    ∃ r, nextFree taken (2 ^ w) next = some r := by
  apply nextFree_of_offset (id - next).isLt
  rwa [BitVec.ofNat_toNat, BitVec.setWidth_eq, BitVec.add_comm, BitVec.sub_add_cancel]

/-- With fewer ids in use than there are, some id is free. -/
theorem exists_free {used : List (BitVec w)} (h : used.length < 2 ^ w) : ∃ id, id ∉ used := by
  by_contra hall
  simp only [not_exists, not_not] at hall
  have hnodup : ((List.range (2 ^ w)).map (BitVec.ofNat w)).Nodup := by
    apply List.Nodup.map_on _ List.nodup_range
    intro i hi j hj hij
    rw [List.mem_range] at hi hj
    have htoNat := congrArg BitVec.toNat hij
    rwa [BitVec.toNat_ofNat, BitVec.toNat_ofNat, Nat.mod_eq_of_lt hi, Nat.mod_eq_of_lt hj]
      at htoNat
  have hle := (hnodup.subperm fun id _ => hall id).length_le
  rw [List.length_map, List.length_range] at hle
  exact absurd hle (Nat.not_le.mpr h)

end ClusterScheduler.Foundation
