import Mathlib

/-!
# Queues in a ring

A ring of slots holds a queue: the first element at the head, the others in the slots
behind it, and the next one will be put at the tail. Both ends wrap around.

* `ringNext`, `ringSlot` — the slot behind another, and the `i`-th slot from the head.
* `RingQueue` — a queue laid out in a ring, each element knowing its slot.
* `RingQueue.push`, `RingQueue.pop` — adding at the tail and taking from the head.

A slot is never shared: `RingQueue.tail_free` says that the slot at the tail is nobody's
as long as the ring is not full.
-/

namespace ClusterScheduler.Foundation

/-! ## Slots -/

def ringNext (n i : ℕ) : ℕ := if i + 1 = n then 0 else i + 1

def ringSlot (n head i : ℕ) : ℕ := (head + i) % n

section Slots

variable {n head i j : ℕ}

theorem ringNext_lt (hi : i < n) : ringNext n i < n := by
  unfold ringNext
  split_ifs <;> omega

theorem ringNext_eq (hi : i < n) : ringNext n i = (i + 1) % n := by
  unfold ringNext
  split_ifs with h
  · rw [h, Nat.mod_self]
  · rw [Nat.mod_eq_of_lt (by omega)]

theorem ringSlot_lt (hh : head < n) : ringSlot n head i < n :=
  Nat.mod_lt _ (Nat.zero_lt_of_lt hh)

theorem ringSlot_zero (hh : head < n) : ringSlot n head 0 = head := Nat.mod_eq_of_lt hh

theorem ringNext_ringSlot (hh : head < n) :
    ringNext n (ringSlot n head i) = ringSlot n head (i + 1) := by
  rw [ringNext_eq (ringSlot_lt hh), ringSlot, ringSlot, Nat.mod_add_mod, Nat.add_assoc]

theorem ringSlot_ringNext (hh : head < n) :
    ringSlot n (ringNext n head) i = ringSlot n head (i + 1) := by
  rw [ringNext_eq hh, ringSlot, ringSlot, Nat.mod_add_mod, Nat.add_assoc, Nat.add_comm 1 i]

theorem ringSlot_inj (hi : i < n) (hj : j < n) (h : ringSlot n head i = ringSlot n head j) :
    i = j := by
  have hmod : i ≡ j [MOD n] := Nat.ModEq.add_left_cancel' head h
  exact Nat.ModEq.eq_of_lt_of_lt hmod hi hj

end Slots

/-! ## Queues -/

variable {α : Type*}

/-- A queue laid out in a ring of `n` slots. `slot` says where an element is. -/
structure RingQueue (n head tail : ℕ) (q : List α) (slot : α → Option ℕ) : Prop where
  head_lt : head < n
  length_le : q.length ≤ n
  tail_eq : tail = ringSlot n head q.length
  nodup : q.Nodup
  slots : ∀ i a, q[i]? = some a → slot a = some (ringSlot n head i)
  queued : ∀ a k, slot a = some k → a ∈ q

namespace RingQueue

variable {n head tail : ℕ} {q : List α} {slot : α → Option ℕ}

variable {a : α}

/-- An element is in a slot exactly when it is at that distance from the head. -/
theorem slot_iff (h : RingQueue n head tail q slot) {k : ℕ} :
    slot a = some k ↔ ∃ i, q[i]? = some a ∧ k = ringSlot n head i := by
  constructor
  · intro hk
    obtain ⟨i, hi⟩ := List.mem_iff_getElem?.mp (h.queued a k hk)
    refine ⟨i, hi, ?_⟩
    rw [h.slots i a hi] at hk
    exact (Option.some.inj hk).symm
  · rintro ⟨i, hi, rfl⟩
    exact h.slots i a hi

theorem first_of_head (h : RingQueue n head tail q slot) (ha : slot a = some head) :
    ∃ rest, q = a :: rest := by
  obtain ⟨i, hi, hk⟩ := h.slot_iff.mp ha
  have hlt : i < q.length := (List.getElem?_eq_some_iff.mp hi).1
  have h0 : i = 0 := by
    have hle := h.length_le
    have hslot : ringSlot n head i = ringSlot n head 0 := by
      rw [ringSlot_zero h.head_lt, ← hk]
    exact ringSlot_inj (Nat.lt_of_lt_of_le hlt hle) (Nat.zero_lt_of_lt h.head_lt) hslot
  subst h0
  cases q with
  | nil => simp at hi
  | cons x rest =>
    obtain rfl : x = a := by simpa using hi
    exact ⟨rest, rfl⟩

variable {rest : List α}

theorem slot_first (h : RingQueue n head tail (a :: rest) slot) : slot a = some head := by
  rw [h.slots 0 a rfl, ringSlot_zero h.head_lt]

/-- **The slot at the tail is free** as long as the ring is not full. -/
theorem tail_free (h : RingQueue n head tail q slot) (hlt : q.length < n) (a : α) :
    slot a ≠ some tail := by
  intro ha
  obtain ⟨i, hi, hk⟩ := h.slot_iff.mp ha
  have hi' : i < q.length := (List.getElem?_eq_some_iff.mp hi).1
  rw [h.tail_eq] at hk
  have := ringSlot_inj hlt (Nat.lt_trans hi' hlt) hk
  omega

theorem tail_ne_head (h : RingQueue n head tail q slot) (hlt : q.length < n) (hq : q ≠ []) :
    tail ≠ head := by
  cases q with
  | nil => exact absurd rfl hq
  | cons a rest =>
    intro hth
    exact h.tail_free hlt a (by rw [h.slot_first, hth])

theorem head_ne_next (h : RingQueue n head tail (a :: rest) slot)
    (hrest : rest ≠ []) : ringNext n head ≠ head := by
  have hlen : 0 < rest.length := List.length_pos_of_ne_nil hrest
  have hle : rest.length + 1 ≤ n := h.length_le
  intro heq
  have h1 : ringSlot n head 1 = ringSlot n head 0 := by
    rw [← ringNext_ringSlot h.head_lt, ringSlot_zero h.head_lt, heq]
  have := ringSlot_inj (by omega) (by omega) h1
  omega

variable [DecidableEq α]

theorem push (h : RingQueue n head tail q slot) (hlt : q.length < n) (ha : slot a = none) :
    RingQueue n head (ringNext n tail) (q ++ [a]) (Function.update slot a (some tail)) where
  head_lt := h.head_lt
  length_le := by
    rw [List.length_append]
    exact hlt
  tail_eq := by
    rw [h.tail_eq, ringNext_ringSlot h.head_lt, List.length_append]
    rfl
  nodup := by
    have hmem : a ∉ q := by
      intro hmem
      obtain ⟨i, hi⟩ := List.mem_iff_getElem?.mp hmem
      rw [h.slots i a hi] at ha
      exact Option.some_ne_none _ ha
    exact List.nodup_append.mpr ⟨h.nodup, List.nodup_singleton a,
      fun x hx y hy => by
        obtain rfl : y = a := by simpa using hy
        rintro rfl
        exact hmem hx⟩
  slots := by
    intro i b hi
    by_cases hb : b = a
    · subst hb
      rw [Function.update_self]
      by_cases hil : i < q.length
      · rw [List.getElem?_append_left hil] at hi
        rw [h.slots i b hi] at ha
        exact absurd ha (Option.some_ne_none _)
      · obtain ⟨hilt, -⟩ := List.getElem?_eq_some_iff.mp hi
        rw [List.length_append, List.length_singleton] at hilt
        rw [h.tail_eq, show i = q.length by omega]
    · rw [Function.update_of_ne hb]
      by_cases hil : i < q.length
      · rw [List.getElem?_append_left hil] at hi
        exact h.slots i b hi
      · rw [List.getElem?_append_right (by omega)] at hi
        obtain ⟨_, hba⟩ := List.getElem?_eq_some_iff.mp hi
        exact absurd (by simpa using hba.symm) hb
  queued := by
    intro b k hb
    by_cases hba : b = a
    · simp [hba]
    · rw [Function.update_of_ne hba] at hb
      exact List.mem_append_left _ (h.queued b k hb)

theorem pop (h : RingQueue n head tail (a :: rest) slot) :
    RingQueue n (ringNext n head) tail rest (Function.update slot a none) where
  head_lt := ringNext_lt h.head_lt
  length_le := Nat.le_of_succ_le h.length_le
  tail_eq := by
    rw [ringSlot_ringNext h.head_lt]
    exact h.tail_eq
  nodup := (List.nodup_cons.mp h.nodup).2
  slots := by
    intro i b hi
    have hne : b ≠ a := by
      rintro rfl
      exact (List.nodup_cons.mp h.nodup).1 (List.mem_of_getElem? hi)
    rw [Function.update_of_ne hne, ringSlot_ringNext h.head_lt]
    exact h.slots (i + 1) b hi
  queued := by
    intro b k hb
    by_cases hba : b = a
    · rw [hba, Function.update_self] at hb
      exact absurd hb.symm (Option.some_ne_none _)
    · rw [Function.update_of_ne hba] at hb
      rcases List.mem_cons.mp (h.queued b k hb) with h' | h'
      · exact absurd h' hba
      · exact h'

end RingQueue

end ClusterScheduler.Foundation
