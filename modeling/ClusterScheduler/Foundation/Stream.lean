import Mathlib

/-!
# Numbered streams

A sender numbers what it sends from 1 on and repeats a part of it as often as it likes.
A receiver keeps what it has not got yet.

* `Numbered` — the numbers of a list are consecutive.
* `Excerpt` — a part of a stream that starts at a position.
* `dropWhile_lt`, `dropWhile_le` — what is left of a numbered list above a number.
* `take_append_excerpt` — a receiver that has a prefix of the stream and takes what is new
  in an excerpt has a longer prefix.
-/

namespace ClusterScheduler.Foundation

variable {α : Type*} {number : α → ℕ}

/-! ## Numbers -/

/-- The elements have consecutive numbers, the first one has the number given. -/
def Numbered (number : α → ℕ) (first : ℕ) (l : List α) : Prop :=
  l.map number = List.range' first l.length

variable {first : ℕ}

theorem numbered_nil : Numbered number first [] := rfl

variable {l : List α}

theorem numbered_cons {x : α} :
    Numbered number first (x :: l) ↔ number x = first ∧ Numbered number (first + 1) l := by
  rw [Numbered, List.map_cons, List.length_cons, List.range'_succ, List.cons.injEq]
  exact Iff.rfl

theorem numbered_append {l' : List α} :
    Numbered number first (l ++ l') ↔
      Numbered number first l ∧ Numbered number (first + l.length) l' := by
  induction l generalizing first with
  | nil => exact (and_iff_right numbered_nil).symm
  | cons x l ih =>
    rw [List.cons_append, numbered_cons, ih, numbered_cons, and_assoc, List.length_cons,
      show first + 1 + l.length = first + (l.length + 1) by omega]

variable (h : Numbered number first l)
include h

theorem Numbered.drop {n : ℕ} (hn : n ≤ l.length) : Numbered number (first + n) (l.drop n) := by
  have hsplit : Numbered number first (l.take n ++ l.drop n) := by rwa [List.take_append_drop]
  have hrest := (numbered_append.mp hsplit).2
  rwa [List.length_take_of_le hn] at hrest

theorem Numbered.of_initial {w : List α} (hw : w <+: l) : Numbered number first w := by
  obtain ⟨rest, rfl⟩ := hw
  exact (numbered_append.mp h).1

/-- What is left when the numbers below one are skipped. -/
theorem dropWhile_lt {i : ℕ} : l.dropWhile (fun x => number x < i) = l.drop (i - first) := by
  induction l generalizing first with
  | nil => rw [List.dropWhile_nil, List.drop_nil]
  | cons x l ih =>
    obtain ⟨hx, hl⟩ := numbered_cons.mp h
    by_cases hi : first < i
    · have hskip : i - first = (i - (first + 1)) + 1 := by omega
      rw [List.dropWhile_cons_of_pos (by simpa [hx] using hi), ih hl, hskip, List.drop_succ_cons]
    · have hstop : i - first = 0 := by omega
      rw [List.dropWhile_cons_of_neg (by simpa [hx] using hi), hstop, List.drop_zero]

theorem dropWhile_le {i : ℕ} : l.dropWhile (fun x => number x ≤ i) = l.drop (i + 1 - first) := by
  rw [← dropWhile_lt h]
  congr 1
  ext x
  exact decide_eq_decide.mpr Nat.lt_succ_iff.symm

omit h

/-! ## Excerpts -/

/-- A part of a stream that starts behind the first `start` elements. -/
def Excerpt (stream : List α) (start : ℕ) (w : List α) : Prop := w <+: stream.drop start

variable {stream w : List α} {start n : ℕ}

theorem Excerpt.append (h : Excerpt stream start w) (more : List α)
    (hstart : start ≤ stream.length) : Excerpt (stream ++ more) start w := by
  rw [Excerpt, List.drop_append_of_le_length hstart]
  exact h.trans (List.prefix_append _ _)

theorem Excerpt.numbered (h : Excerpt stream start w) (hstream : Numbered number 1 stream)
    (hstart : start ≤ stream.length) : Numbered number (start + 1) w := by
  have hdrop := (hstream.drop hstart).of_initial h
  rwa [add_comm] at hdrop

theorem Excerpt.length_le (h : Excerpt stream start w) (hstart : start ≤ stream.length) :
    start + w.length ≤ stream.length := by
  have hle := List.IsPrefix.length_le h
  rw [List.length_drop] at hle
  omega

/-- **What is new in an excerpt** makes a prefix of the stream longer. -/
theorem take_append_excerpt (h : Excerpt stream start w) (hstart : start ≤ n) :
    stream.take n ++ w.drop (n - start) = stream.take (max n (start + w.length)) := by
  obtain ⟨rest, hrest⟩ := h
  by_cases hlt : n < start + w.length
  · have hdrop : stream.drop n = w.drop (n - start) ++ rest := by
      have hn : n = start + (n - start) := by omega
      rw [hn, ← List.drop_drop, ← hrest, List.drop_append_of_le_length (by omega),
        Nat.add_sub_cancel_left]
    have htake : w.drop (n - start) = (stream.drop n).take (w.drop (n - start)).length := by
      rw [hdrop, List.take_left]
    rw [htake, List.length_drop, max_eq_right hlt.le,
      show start + w.length = n + (w.length - (n - start)) by omega, List.take_add]
  · rw [List.drop_eq_nil_of_le (by omega), List.append_nil, max_eq_left (not_lt.mp hlt)]

end ClusterScheduler.Foundation
