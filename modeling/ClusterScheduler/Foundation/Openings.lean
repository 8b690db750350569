import Mathlib.Order.Bounds.Basic
import ClusterScheduler.Foundation.StepFunction

/-!
# Windows below a bound

A resource is used as a step function says, and somebody wants a window in which
the use stays at or below a bound. This module has the searches for such windows
and what they find, for entries and values of any kind.

* `entryAt`, `windowEntries` — the entry in force at a time, and those in force in a window.
* `windowMax` — the largest value in a window, in one pass over the entries.
* `settledFrom` — the time from which the values stay below a bound for good.
* `keptFrom` — the time from which the entries pass a test for good.
* `firstFit` — the first entry between two times whose time passes a test.
-/

namespace ClusterScheduler.Foundation

variable {ε β : Type*}

/-! ## The value in force -/

section InForce

variable (time : ε → ℕ)

/-- The entry in force at `t` and the entries behind it. `prev` is the entry
before the given ones. -/
def inForce (t : ℕ) : Option ε → List ε → Option ε × List ε
  | prev, [] => (prev, [])
  | prev, e :: rest =>
    if t = time e then (some e, rest)
    else if t < time e then (prev, e :: rest)
    else inForce t (some e) rest

variable {time} {val : ε → β} {b : β}

theorem valueAt_mem_begun (d : List ε) (t : ℕ) :
    valueAt time val b d t = b ∨
      ∃ e ∈ d, time e ≤ t ∧ valueAt time val b d t = val e := by
  induction d generalizing b with
  | nil => exact Or.inl rfl
  | cons e rest ih =>
    rw [valueAt_cons]
    rcases ih (b := if time e ≤ t then val e else b) with h | ⟨x, hx, hxt, h⟩
    · by_cases he : time e ≤ t
      · rw [if_pos he] at h ⊢
        exact Or.inr ⟨e, .head _, he, h⟩
      · rw [if_neg he] at h ⊢
        exact Or.inl h
    · exact Or.inr ⟨x, .tail _ hx, hxt, h⟩

theorem valueAt_self : ∀ {d : List ε} {b : β}, Spaced 1 time d → ∀ e ∈ d,
    valueAt time val b d (time e) = val e
  | x :: rest, b, hd, e, he => by
      obtain ⟨hx, hrest⟩ := List.pairwise_cons.mp hd
      rw [valueAt_cons]
      rcases List.mem_cons.mp he with rfl | he
      · rw [if_pos (le_refl _)]
        exact valueAt_of_later fun y hy => Nat.lt_of_lt_of_le (Nat.lt_succ_self _) (hx y hy)
      · exact valueAt_self hrest e he

variable {t : ℕ}

/-- From `t` on the entry in force and those behind it say what the list says. -/
theorem valueAt_inForce :
    ∀ {d : List ε} {prev : Option ε}, Spaced 1 time d → ∀ u, t ≤ u →
      valueAt time val (valueOf val b (inForce time t prev d).1)
        (inForce time t prev d).2 u = valueAt time val (valueOf val b prev) d u
  | [], _, _, _, _ => rfl
  | e :: rest, prev, hd, u, hu => by
      obtain ⟨he, hrest⟩ := List.pairwise_cons.mp hd
      rw [inForce, valueAt_cons]
      by_cases h1 : t = time e
      · rw [if_pos h1, if_pos (by omega)]
        rfl
      · rw [if_neg h1]
        by_cases h2 : t < time e
        · rw [if_pos h2, valueAt_cons]
        · rw [if_neg h2, if_pos (by omega)]
          exact valueAt_inForce hrest u hu

theorem inForce_later :
    ∀ {d : List ε} {prev : Option ε}, Spaced 1 time d →
      Spaced 1 time (inForce time t prev d).2 ∧
        ∀ e ∈ (inForce time t prev d).2, t < time e
  | [], _, _ => ⟨List.Pairwise.nil, by simp [inForce]⟩
  | e :: rest, prev, hd => by
      obtain ⟨he, hrest⟩ := List.pairwise_cons.mp hd
      rw [inForce]
      split_ifs with h1 h2
      · refine ⟨hrest, fun x hx => ?_⟩
        have := he x hx
        omega
      · refine ⟨hd, fun x hx => ?_⟩
        rcases List.mem_cons.mp hx with rfl | hx
        · exact h2
        · have := he x hx
          omega
      · exact inForce_later hrest

end InForce

/-! ## The entry in force -/

section EntryAt

variable (time : ε → ℕ)

def entryAt (d : List ε) (t : ℕ) : Option ε := valueAt time some none d t

variable {time}

variable {t : ℕ} {e : ε}

theorem mem_of_entryAt {d : List ε} (h : e ∈ entryAt time d t) : e ∈ d ∧ time e ≤ t := by
  rcases @valueAt_mem_begun _ _ time some none d t with h' | ⟨x, hx, hxt, h'⟩
  · rw [entryAt, h'] at h
    exact absurd h (Option.not_mem_none e)
  · rw [entryAt, h'] at h
    obtain rfl := Option.mem_some.mp h
    exact ⟨hx, hxt⟩

variable {before after : List ε}

theorem entryAt_append_cons (he : time e ≤ t)
    (hafter : ∀ x ∈ after, t < time x) : e ∈ entryAt time (before ++ e :: after) t := by
  rw [entryAt, valueAt_append, valueAt_cons, if_pos he, valueAt_of_later hafter]
  rfl

/-- Behind an entry only it and later ones are in force. -/
theorem mem_of_entryAt_append_cons {x : ε} (he : time e ≤ t)
    (hx : x ∈ entryAt time (before ++ e :: after) t) : x ∈ e :: after := by
  rw [entryAt, valueAt_append, valueAt_cons, if_pos he] at hx
  rcases valueAt_mem time some (some e) after t with h | ⟨y, hy, h⟩
  · rw [h] at hx
    obtain rfl := Option.mem_some.mp hx
    exact .head _
  · rw [h] at hx
    obtain rfl := Option.mem_some.mp hx
    exact .tail _ hy

end EntryAt

/-! ## The entries of a window -/

section WindowEntries

variable (time : ε → ℕ)

def windowEntries (start stop : ℕ) (d : List ε) : List ε :=
  (inForce time start none d).1.toList ++ (inForce time start none d).2.takeWhile (time · < stop)

variable {time} {d : List ε} {start stop u : ℕ} {e : ε}

theorem entryAt_inForce (hd : Spaced 1 time d) (hu : start ≤ u) :
    entryAt time d u = valueAt time some (inForce time start none d).1
      (inForce time start none d).2 u := by
  have hvalue : ∀ o : Option ε, valueOf some none o = o := fun o => by cases o <;> rfl
  have h : valueAt time some (valueOf some none (inForce time start none d).1)
      (inForce time start none d).2 u = valueAt time some (valueOf some none none) d u :=
    valueAt_inForce hd u hu
  rw [hvalue] at h
  exact h.symm

theorem mem_takeWhile (hd : Spaced 1 time d) (he : e ∈ d) (hstop : time e < stop) :
    e ∈ d.takeWhile (time · < stop) := by
  obtain ⟨before, after, rfl⟩ := List.append_of_mem he
  have hbefore : ∀ x ∈ before, decide (time x < stop) = true := by
    intro x hx
    have hlt : time x + 1 ≤ time e := (List.pairwise_append.mp hd).2.2 x hx e (.head _)
    exact decide_eq_true (by omega)
  rw [List.takeWhile_append_of_pos hbefore, List.takeWhile_cons, if_pos (decide_eq_true hstop)]
  exact List.mem_append_right _ (.head _)

theorem mem_windowEntries (hd : Spaced 1 time d) : e ∈ windowEntries time start stop d ↔
    ∃ u, (u = start ∨ start ≤ u ∧ u < stop) ∧ e ∈ entryAt time d u := by
  obtain ⟨hrest, hlater⟩ : Spaced 1 time (inForce time start none d).2 ∧
      ∀ e ∈ (inForce time start none d).2, start < time e := inForce_later hd
  rw [windowEntries, List.mem_append, Option.mem_toList]
  constructor
  · rintro (he | he)
    · refine ⟨start, .inl rfl, ?_⟩
      rw [entryAt_inForce hd le_rfl, valueAt_of_later hlater]
      exact he
    · have hmem := (List.takeWhile_prefix _).subset he
      refine ⟨time e, .inr ⟨(hlater e hmem).le, ?_⟩, ?_⟩
      · simpa using List.mem_takeWhile_imp he
      · rw [entryAt_inForce hd (hlater e hmem).le, valueAt_self hrest e hmem]
        rfl
  · rintro ⟨u, hu, he⟩
    rw [entryAt_inForce hd (hu.elim (fun h => h.ge) And.left)] at he
    rcases @valueAt_mem_begun _ _ time some (inForce time start none d).1
      (inForce time start none d).2 u with h | ⟨x, hx, hxu, h⟩
    · exact .inl (h ▸ he)
    · rw [h] at he
      obtain rfl := Option.mem_some.mp he
      have hxstart := hlater x hx
      exact .inr (mem_takeWhile hrest hx (by omega))

end WindowEntries
/-! ## The largest value in a window -/

section WindowMax

variable [LinearOrder β] (time : ε → ℕ) (val : ε → β)

/-- The largest of `m` and the values of the entries before `stop`. -/
def maxBefore (stop : ℕ) : β → List ε → β
  | m, [] => m
  | m, e :: rest =>
    if time e < stop then maxBefore stop (if m < val e then val e else m) rest
    else m

def windowMax (b : β) (start stop : ℕ) (d : List ε) : β :=
  maxBefore time val stop (valueOf val b (inForce time start none d).1)
    (inForce time start none d).2

variable {time val} {b c : β} {d : List ε}

variable {stop : ℕ}

theorem maxBefore_le_iff :
    ∀ {d : List ε} {m : β}, Spaced 1 time d →
      (maxBefore time val stop m d ≤ c ↔ m ≤ c ∧ ∀ e ∈ d, time e < stop → val e ≤ c)
  | [], m, _ => by simp [maxBefore]
  | e :: rest, m, hd => by
      obtain ⟨he, hrest⟩ := List.pairwise_cons.mp hd
      rw [maxBefore, List.forall_mem_cons]
      by_cases h : time e < stop
      · rw [if_pos h, maxBefore_le_iff hrest]
        have hm : (if m < val e then val e else m) ≤ c ↔ m ≤ c ∧ val e ≤ c := by
          split_ifs with hlt
          · exact ⟨fun hv => ⟨le_trans (le_of_lt hlt) hv, hv⟩, And.right⟩
          · exact ⟨fun hv => ⟨hv, le_trans (not_lt.mp hlt) hv⟩, And.left⟩
        rw [hm]
        tauto
      · have hr : ∀ x ∈ rest, ¬ time x < stop := fun x hx => by
          have := he x hx
          omega
        rw [if_neg h]
        exact ⟨fun hv => ⟨hv, fun h' => absurd h' h, fun x hx h' => absurd h' (hr x hx)⟩,
          And.left⟩

variable {start : ℕ}

/-- **The pass finds the largest value.** It is at most `c` exactly when every
value in force in the window is. -/
theorem windowMax_le_iff (hd : Spaced 1 time d) (hlt : start < stop) :
    windowMax time val b start stop d ≤ c ↔
      ∀ u, start ≤ u → u < stop → valueAt time val b d u ≤ c := by
  obtain ⟨hspaced, hlater⟩ : Spaced 1 time (inForce time start none d).2 ∧
      ∀ e ∈ (inForce time start none d).2, start < time e := inForce_later hd
  have hval : ∀ u, start ≤ u → valueAt time val b d u =
      valueAt time val (valueOf val b (inForce time start none d).1)
        (inForce time start none d).2 u := by
    intro u hu
    symm
    apply valueAt_inForce hd u hu
  rw [windowMax, maxBefore_le_iff hspaced]
  constructor
  · rintro ⟨hm, hall⟩ u hu hus
    rw [hval u hu]
    obtain h | ⟨e, he, heu, h⟩ : valueAt time val _ (inForce time start none d).2 u = _ ∨ _ :=
      valueAt_mem_begun (inForce time start none d).2 u
    · rw [h]
      exact hm
    · rw [h]
      exact hall e he (Nat.lt_of_le_of_lt heu hus)
  · intro h
    refine ⟨?_, fun e he hes => ?_⟩
    · have h0 := h start (le_refl _) hlt
      rwa [hval start (le_refl _), valueAt_of_later hlater] at h0
    · have he' := h (time e) (le_of_lt (hlater e he)) hes
      rwa [hval _ (le_of_lt (hlater e he)), valueAt_self hspaced e he] at he'

theorem maxBefore_mem : ∀ (d : List ε) (m : β),
    maxBefore time val stop m d = m ∨
      ∃ e ∈ d, time e < stop ∧ maxBefore time val stop m d = val e
  | [], m => Or.inl rfl
  | e :: rest, m => by
      rw [maxBefore]
      split_ifs with hstop hlt
      · rcases maxBefore_mem rest (val e) with h | ⟨x, hx, hxs, h⟩
        · exact Or.inr ⟨e, .head _, hstop, h⟩
        · exact Or.inr ⟨x, .tail _ hx, hxs, h⟩
      · rcases maxBefore_mem rest m with h | ⟨x, hx, hxs, h⟩
        · exact Or.inl h
        · exact Or.inr ⟨x, .tail _ hx, hxs, h⟩
      · exact Or.inl rfl

theorem windowMax_mem (hd : Spaced 1 time d) :
    ∃ u, (u = start ∨ start ≤ u ∧ u < stop) ∧
      valueAt time val b d u = windowMax time val b start stop d := by
  obtain ⟨hspaced, hlater⟩ : Spaced 1 time (inForce time start none d).2 ∧
      ∀ e ∈ (inForce time start none d).2, start < time e := inForce_later hd
  have hval : ∀ u, start ≤ u →
      valueAt time val (valueOf val b (inForce time start none d).1)
        (inForce time start none d).2 u = valueAt time val b d u :=
    fun u hu => valueAt_inForce hd u hu
  rcases maxBefore_mem (inForce time start none d).2
    (valueOf val b (inForce time start none d).1) with h | ⟨e, he, hes, h⟩
  · refine ⟨start, Or.inl rfl, ?_⟩
    rw [← hval start (le_refl _), valueAt_of_later hlater]
    exact h.symm
  · refine ⟨time e, Or.inr ⟨le_of_lt (hlater e he), hes⟩, ?_⟩
    rw [← hval _ (le_of_lt (hlater e he)), valueAt_self hspaced e he]
    exact h.symm

/-- **The pass computes the maximum** over the window and its first moment. -/
theorem windowMax_isGreatest (hd : Spaced 1 time d) :
    IsGreatest {v | ∃ u, (u = start ∨ start ≤ u ∧ u < stop) ∧ valueAt time val b d u = v}
      (windowMax time val b start stop d) := by
  refine ⟨windowMax_mem hd, ?_⟩
  rintro v ⟨u, hu, rfl⟩
  by_cases hlt : start < stop
  · apply (windowMax_le_iff hd hlt).mp (le_refl _) u
    · omega
    · omega
  · -- the window is empty but for its first moment, and so is the one that ends behind it
    have heq : windowMax time val b start stop d = windowMax time val b start (start + 1) d := by
      have hstop : ∀ (s : ℕ) (m : β), s ≤ start + 1 →
          maxBefore time val s m (inForce time start none d).2 = m := by
        intro s m hs
        obtain ⟨-, hlater⟩ : Spaced 1 time (inForce time start none d).2 ∧
            ∀ e ∈ (inForce time start none d).2, start < time e := inForce_later hd
        rcases maxBefore_mem
          (inForce time start none d).2 m with h | ⟨e, he, hes, -⟩
        · exact h
        · have := hlater e he
          omega
      rw [windowMax, windowMax, hstop stop _ (by omega), hstop (start + 1) _ (le_refl _)]
    rw [heq]
    apply (windowMax_le_iff hd (Nat.lt_succ_self start)).mp (le_refl _) u
    · omega
    · omega

end WindowMax

/-! ## From when on a bound is kept -/

section Settled

variable [LinearOrder β] (time : ε → ℕ) (val : ε → β)

/-- Search from the end for an entry at or below the bound whose predecessor is
above it. The entries are given last first; 0 when there is none. -/
def settledFrom (c : β) : List ε → ℕ
  | e :: p :: rest =>
    if val e ≤ c ∧ c < val p then time e else settledFrom c (p :: rest)
  | _ => 0

variable {time val} {b c : β}

theorem settledFrom_spec (c : β) : ∀ (l : List ε), (∀ e, l.head? = some e → val e ≤ c) →
    (∀ e ∈ l, val e ≤ c) ∨
      ∃ l₁ x l₂, l = l₁ ++ x :: l₂ ∧ settledFrom time val c l = time x ∧
        ∀ y ∈ l₁ ++ [x], val y ≤ c
  | [], _ => Or.inl (by simp)
  | [e], h => Or.inl (by simpa using h e rfl)
  | e :: p :: rest, h => by
      have he : val e ≤ c := h e rfl
      rw [settledFrom]
      by_cases hp : c < val p
      · rw [if_pos ⟨he, hp⟩]
        exact Or.inr ⟨[], e, p :: rest, rfl, rfl, by simpa using he⟩
      · rw [if_neg fun h' => hp h'.2]
        have hhead : ∀ x, (p :: rest).head? = some x → val x ≤ c := by
          rintro x ⟨rfl⟩
          exact not_lt.mp hp
        rcases settledFrom_spec c (p :: rest) hhead with hall | ⟨l₁, x, l₂, hl, hx, hall⟩
        · exact Or.inl (List.forall_mem_cons.mpr ⟨he, hall⟩)
        · refine Or.inr ⟨e :: l₁, x, l₂, by rw [hl]; rfl, hx, ?_⟩
          exact List.forall_mem_cons.mpr ⟨he, hall⟩

variable {d : List ε}

/-- **The bound is kept** from the time found, when the last entry keeps it. -/
theorem valueAt_le_of_settled (hb : b ≤ c) (hlast : ∀ e, d.getLast? = some e → val e ≤ c) {u : ℕ}
    (hu : settledFrom time val c d.reverse ≤ u) : valueAt time val b d u ≤ c := by
  have hhead : ∀ e, d.reverse.head? = some e → val e ≤ c := by
    intro e he
    exact hlast e (by rwa [List.head?_reverse] at he)
  have hspec : (∀ e ∈ d.reverse, val e ≤ c) ∨ ∃ l₁ x l₂, d.reverse = l₁ ++ x :: l₂ ∧
      settledFrom time val c d.reverse = time x ∧ ∀ y ∈ l₁ ++ [x], val y ≤ c :=
    settledFrom_spec c d.reverse hhead
  rcases hspec with hall | ⟨l₁, x, l₂, hl, hx, hall⟩
  · rcases valueAt_mem time val b d u with h | ⟨e, he, h⟩
    · rw [h]
      exact hb
    · rw [h]
      exact hall e (List.mem_reverse.mpr he)
  · have hd : d = l₂.reverse ++ x :: l₁.reverse := by
      have := congrArg List.reverse hl
      simpa using this
    rw [hx] at hu
    rw [hd, valueAt_append, valueAt_cons, if_pos hu]
    rcases valueAt_mem time val (val x) l₁.reverse u with h | ⟨e, he, h⟩
    · rw [h]
      exact hall x (by simp)
    · rw [h]
      exact hall e (by simp [List.mem_reverse.mp he])

theorem settledFrom_eq_zero_or (c : β) : ∀ l : List ε, settledFrom time val c l = 0 ∨
    ∃ l₁ x p l₂, l = l₁ ++ x :: p :: l₂ ∧ settledFrom time val c l = time x ∧ c < val p
  | [] => Or.inl rfl
  | [e] => Or.inl rfl
  | e :: p :: rest => by
      rw [settledFrom]
      split_ifs with h
      · exact Or.inr ⟨[], e, p, rest, rfl, rfl, h.2⟩
      · rcases settledFrom_eq_zero_or c (p :: rest) with hzero | ⟨l₁, x, y, l₂, hl, hx, hy⟩
        · exact Or.inl hzero
        · exact Or.inr ⟨e :: l₁, x, y, l₂, by rw [hl]; rfl, hx, hy⟩

/-- **The bound is exceeded** just before the time found, which is that of an entry. -/
theorem lt_valueAt_of_settled (hd : Spaced 1 time d) (hpos : 0 < settledFrom time val c d.reverse) :
    (∃ e ∈ d, time e = settledFrom time val c d.reverse) ∧
      c < valueAt time val b d (settledFrom time val c d.reverse - 1) := by
  have hspec : settledFrom time val c d.reverse = 0 ∨ ∃ l₁ x p l₂,
      d.reverse = l₁ ++ x :: p :: l₂ ∧ settledFrom time val c d.reverse = time x ∧ c < val p :=
    settledFrom_eq_zero_or c d.reverse
  obtain hzero | ⟨l₁, x, p, l₂, hl, hx, hp⟩ := hspec
  · omega
  · have hsplit : d = l₂.reverse ++ p :: x :: l₁.reverse := by
      have := congrArg List.reverse hl
      simpa using this
    refine ⟨⟨x, by rw [hsplit]; simp, hx.symm⟩, ?_⟩
    rw [hsplit] at hd
    obtain ⟨hpx, hlater⟩ := List.pairwise_cons.mp (List.pairwise_append.mp hd).2.1
    have hpt := hpx x (.head _)
    have hall : ∀ y ∈ x :: l₁.reverse, time x - 1 < time y := by
      intro y hy
      rcases List.mem_cons.mp hy with rfl | hy
      · omega
      · have := (List.pairwise_cons.mp hlater).1 y hy
        omega
    rw [hx, hsplit, valueAt_append, valueAt_cons, if_pos (by omega), valueAt_of_later hall]
    exact hp

end Settled

/-! ## From when on a test is passed -/

section KeptFrom

variable (time : ε → ℕ)

/-- From `t` on every entry in force passes the test. -/
def KeptFrom (p : ε → Prop) (d : List ε) (t : ℕ) : Prop :=
  ∀ u, t ≤ u → ∀ e ∈ entryAt time d u, p e

/-- Walk back from the last entry to one that does not pass. The time is that of the entry
`next` behind it, 0 if all entries pass, and there is none if the last one does not. -/
def keptFrom (p : ε → Bool) : Option ε → List ε → Option ℕ
  | _, [] => some 0
  | next, e :: before => if p e then keptFrom p (some e) before else next.map time

variable {time} {p : ε → Bool} {d : List ε}

/-- **What the walk finds**, when all entries it has passed are kept behind it. -/
theorem keptFrom_spec : ∀ (l after : List ε), Spaced 1 time (l.reverse ++ after) →
    (∀ e ∈ after, p e = true) →
    (∀ t, keptFrom time p after.head? l = some t →
      IsLeast {t | KeptFrom time (p · = true) (l.reverse ++ after) t} t) ∧
    (keptFrom time p after.head? l = none →
      ∀ t, ¬ KeptFrom time (p · = true) (l.reverse ++ after) t)
  | [], after, _, hafter => by
      refine ⟨fun t ht => ?_, fun h => nomatch h⟩
      obtain rfl : 0 = t := Option.some.inj ht
      exact ⟨fun u _ e he => hafter e (mem_of_entryAt he).1, fun t _ => Nat.zero_le t⟩
  | e :: l, after, hd, hafter => by
      rw [List.reverse_cons, List.append_assoc, List.singleton_append] at hd ⊢
      rw [keptFrom]
      by_cases he : p e = true
      · rw [if_pos he]
        exact keptFrom_spec l (e :: after) hd (List.forall_mem_cons.mpr ⟨he, hafter⟩)
      rw [if_neg he]
      have hlater : ∀ x ∈ after, time e + 1 ≤ time x :=
        (List.pairwise_cons.mp (List.pairwise_append.mp hd).2.1).1
      cases after with
      | nil =>
        refine ⟨fun t ht => (nomatch ht), fun _ t hkept => he ?_⟩
        -- the last entry is in force at all later times
        exact hkept (max t (time e)) (le_max_left _ _) e
          (entryAt_append_cons (le_max_right _ _) (by simp))
      | cons x after =>
        refine ⟨fun t ht => ?_, fun h => nomatch h⟩
        obtain rfl : time x = t := Option.some.inj ht
        refine ⟨fun u hu y hy => ?_, fun t hkept => ?_⟩
        · apply hafter y
          rw [← List.singleton_append, ← List.append_assoc] at hy
          exact mem_of_entryAt_append_cons hu hy
        · -- otherwise `e` would have to pass just before `x` begins
          by_contra hlt
          have hxe := hlater x (.head _)
          apply he
          refine hkept (time x - 1) (by omega) e (entryAt_append_cons (by omega) fun y hy => ?_)
          rcases List.mem_cons.mp hy with rfl | hy
          · omega
          · have hxy : time x + 1 ≤ time y :=
              (List.pairwise_cons.mp (List.pairwise_cons.mp
                (List.pairwise_append.mp hd).2.1).2).1 y hy
            omega

theorem keptFrom_isLeast (hd : Spaced 1 time d) {t : ℕ}
    (h : keptFrom time p none d.reverse = some t) :
    IsLeast {t | KeptFrom time (p · = true) d t} t := by
  have hspec := (keptFrom_spec (p := p) d.reverse [] (by simpa using hd) (by simp)).1 t h
  simpa using hspec

theorem not_keptFrom (hd : Spaced 1 time d) (h : keptFrom time p none d.reverse = none) (t : ℕ) :
    ¬ KeptFrom time (p · = true) d t := by
  have hspec := (keptFrom_spec (p := p) d.reverse [] (by simpa using hd) (by simp)).2 h t
  simpa using hspec

theorem keptFrom_le {bound : ℕ} : ∀ {l : List ε} {next : Option ε}, (∀ e ∈ l, time e ≤ bound) →
    (∀ e ∈ next, time e ≤ bound) → ∀ t ∈ keptFrom time p next l, t ≤ bound
  | [], _, _, _, t, ht => Option.mem_some.mp ht ▸ Nat.zero_le bound
  | e :: l, next, hl, hnext, t, ht => by
      obtain ⟨he, hl⟩ := List.forall_mem_cons.mp hl
      rw [keptFrom] at ht
      split_ifs at ht
      · exact keptFrom_le hl (fun x hx => Option.mem_some.mp hx ▸ he) t ht
      · obtain ⟨x, hx, rfl⟩ := Option.mem_map.mp ht
        exact hnext x hx

end KeptFrom

/-! ## The first entry that passes a test -/

section FirstFit

variable (time : ε → ℕ) (fits : ℕ → Bool)

/-- The first entry later than `lo` whose time passes the test; the search ends
at `hi`. -/
def firstFit (lo hi : ℕ) : List ε → Option ℕ
  | [] => none
  | e :: rest =>
    if time e ≤ lo then firstFit lo hi rest
    else if hi ≤ time e then none
    else if fits (time e) then some (time e)
    else firstFit lo hi rest

variable {time fits} {lo hi : ℕ}

theorem firstFit_some {t : ℕ} : ∀ {d : List ε}, firstFit time fits lo hi d = some t →
    (∃ e ∈ d, time e = t) ∧ lo < t ∧ t < hi ∧ fits t = true
  | e :: rest, h => by
      rw [firstFit] at h
      split_ifs at h with h1 h2 h3
      · obtain ⟨⟨x, hx, hxt⟩, hrest⟩ := firstFit_some h
        exact ⟨⟨x, .tail _ hx, hxt⟩, hrest⟩
      · obtain rfl : time e = t := by simpa using h
        exact ⟨⟨e, .head _, rfl⟩, by omega, by omega, h3⟩
      · obtain ⟨⟨x, hx, hxt⟩, hrest⟩ := firstFit_some h
        exact ⟨⟨x, .tail _ hx, hxt⟩, hrest⟩

/-- No entry before the one found passes the test, and none before `hi` when
nothing is found. -/
theorem firstFit_le : ∀ {d : List ε}, Spaced 1 time d → ∀ e ∈ d, lo < time e →
    fits (time e) = true → (firstFit time fits lo hi d).getD hi ≤ time e ∨ hi ≤ time e
  | x :: rest, hd, e, he, hlo, hfit => by
      obtain ⟨hx, hrest⟩ := List.pairwise_cons.mp hd
      rw [firstFit]
      rcases List.mem_cons.mp he with rfl | he
      · rw [if_neg (by omega)]
        split_ifs with h2
        · exact Or.inr h2
        · exact Or.inl (le_refl _)
      · have hlt := hx e he
        split_ifs with h1 h2 h3
        · exact firstFit_le hrest e he hlo hfit
        · exact Or.inr (by omega)
        · exact Or.inl (show time x ≤ time e by omega)
        · exact firstFit_le hrest e he hlo hfit

end FirstFit

end ClusterScheduler.Foundation
