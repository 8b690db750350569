import Mathlib.Data.List.Basic
import Mathlib.Data.List.Chain
import Mathlib.Data.List.TakeWhile
import Mathlib.Tactic.Tauto

/-!
# Step functions given by breakpoint lists

A resource diagram, a calendar or a load history is stored as a list of entries
ordered by time; an entry holds from its own time until the next one begins.
This module is about such lists in general: the entry type is arbitrary, its
time and the value read off it are parameters.

* `valueAt` — the function a list denotes: the value of the last entry whose
  time is not later than `t`, and a default before the first.
* `overlay` — book a window: an entry at its start, an update of every entry
  inside it, an entry at its end.
* `compact` — drop the leading entries that say nothing and every entry that
  repeats the one kept before it.

The results say when `overlay` acts pointwise (`valueAt_overlay`) and when
`compact` leaves the function alone (`valueAt_compact`).
-/

namespace ClusterScheduler.Foundation

variable {ε β : Type*}

/-! ## The function a list denotes -/

/-- The value in force at `t`: that of the last entry with `time ≤ t`, `b` if
there is none. -/
def valueAt (time : ε → ℕ) (val : ε → β) (b : β) (d : List ε) (t : ℕ) : β :=
  d.foldl (fun b e => if time e ≤ t then val e else b) b

/-- Entries ordered by time, each at least `k` after the one before it: ordered
for `k = 0`, strictly ordered for `k = 1`. -/
def Spaced (k : ℕ) (time : ε → ℕ) (d : List ε) : Prop :=
  d.Pairwise (fun e e' => time e + k ≤ time e')

variable {time : ε → ℕ} {d : List ε}

theorem Spaced.ordered {k : ℕ} (h : Spaced k time d) : Spaced 0 time d :=
  h.imp fun {e e'} (hle : time e + k ≤ time e') => by omega

section Denotation

variable {time : ε → ℕ} {val : ε → β} {b : β}

@[simp] theorem valueAt_nil (t : ℕ) : valueAt time val b [] t = b := rfl

@[simp] theorem valueAt_cons (e : ε) (d : List ε) (t : ℕ) :
    valueAt time val b (e :: d) t =
      valueAt time val (if time e ≤ t then val e else b) d t := rfl

theorem valueAt_append (d d' : List ε) (t : ℕ) :
    valueAt time val b (d ++ d') t = valueAt time val (valueAt time val b d t) d' t := by
  simp [valueAt, List.foldl_append]

variable {t : ℕ}

theorem valueAt_of_later {d : List ε} (h : ∀ e ∈ d, t < time e) : valueAt time val b d t = b := by
  induction d generalizing b with
  | nil => rfl
  | cons e rest ih =>
    rw [valueAt_cons, if_neg (Nat.not_le.mpr (h e List.mem_cons_self))]
    exact ih fun x hx => h x (.tail _ hx)

theorem valueAt_mem (time : ε → ℕ) (val : ε → β) (b : β) (d : List ε) (t : ℕ) :
    valueAt time val b d t = b ∨ ∃ e ∈ d, valueAt time val b d t = val e := by
  induction d generalizing b with
  | nil => exact Or.inl rfl
  | cons e rest ih =>
    rw [valueAt_cons]
    rcases ih (if time e ≤ t then val e else b) with h | ⟨x, hx, h⟩
    · by_cases he : time e ≤ t
      · rw [if_pos he] at h ⊢
        exact Or.inr ⟨e, .head _, h⟩
      · rw [if_neg he] at h ⊢
        exact Or.inl h
    · exact Or.inr ⟨x, .tail _ hx, h⟩

theorem valueAt_map {γ : Type*} (g : β → γ) (d : List ε) (t : ℕ) :
    g (valueAt time val b d t) = valueAt time (fun e => g (val e)) (g b) d t := by
  induction d generalizing b with
  | nil => rfl
  | cons e rest ih => rw [valueAt_cons, valueAt_cons, ih, apply_ite g]

/-- Only entries that begin between two times tell them apart. -/
theorem valueAt_congr {d : List ε} {t' : ℕ} (h : ∀ e ∈ d, time e ≤ t ↔ time e ≤ t') :
    valueAt time val b d t = valueAt time val b d t' := by
  induction d generalizing b with
  | nil => rfl
  | cons e rest ih =>
    rw [valueAt_cons, valueAt_cons]
    simp only [h e List.mem_cons_self]
    exact ih fun x hx => h x (.tail _ hx)

end Denotation

variable {val : ε → β} {b : β} {t : ℕ} {e : ε}

theorem valueAt_getLast (h : ∀ e ∈ d, time e ≤ t) (he : d.getLast? = some e) :
    valueAt time val b d t = val e := by
  induction d generalizing b with
  | nil => simp at he
  | cons x rest ih =>
    rw [valueAt_cons, if_pos (h x List.mem_cons_self)]
    cases rest with
    | nil =>
      obtain rfl : x = e := by simpa using he
      rfl
    | cons y ys =>
      rw [List.getLast?_cons_cons] at he
      exact ih (fun z hz => h z (.tail _ hz)) he

/-! ## Booking a window -/

/-- What a booking does to the entries it meets. `upd` acts on an entry inside
the window, `mkStart` builds the entry at the start from the one in force
before it, `mkStop` the entry at the end from the last one inside. -/
structure Window (ε : Type*) where
  start : ℕ
  stop : ℕ
  upd : ε → ε
  mkStart : Option ε → ε
  mkStop : ε → ε

/-- Walk from the start entry `prev` to the end of the window. -/
def closeFrom (time : ε → ℕ) (w : Window ε) (prev : ε) : List ε → List ε
  | [] => [w.mkStop prev]
  | e :: rest =>
    if w.stop = time e then e :: rest
    else if w.stop < time e then w.mkStop prev :: e :: rest
    else w.upd e :: closeFrom time w (w.upd e) rest

/-- Book a window into a list; `prev` is the entry before the given ones. -/
def overlay (time : ε → ℕ) (w : Window ε) (prev : Option ε) :
    List ε → List ε
  | [] => w.mkStart prev :: closeFrom time w (w.mkStart prev) []
  | e :: rest =>
    if w.start = time e then w.upd e :: closeFrom time w (w.upd e) rest
    else if w.start < time e then
      w.mkStart prev :: closeFrom time w (w.mkStart prev) (e :: rest)
    else e :: overlay time w (some e) rest

/-- The entries the closing walk goes through: those after the start entry. -/
def afterStart (time : ε → ℕ) (s : ℕ) : List ε → List ε
  | [] => []
  | e :: rest =>
    if s = time e then rest
    else if s < time e then e :: rest
    else afterStart time s rest

variable {s : ℕ}

/-- What begins later than the start is among the entries after it. -/
theorem mem_afterStart (hd : Spaced 0 time d) (he : e ∈ d) (hlt : s < time e) :
    e ∈ afterStart time s d := by
  induction d with
  | nil => simp at he
  | cons x rest ih =>
    obtain ⟨hx, hrest⟩ := List.pairwise_cons.mp hd
    rw [afterStart]
    split_ifs with h1 h2
    · rcases List.mem_cons.mp he with rfl | he
      · omega
      · exact he
    · exact he
    · rcases List.mem_cons.mp he with rfl | he
      · omega
      · exact ih hrest he

/-- Where a window ends without an entry, the value of its last point is still
in force. -/
theorem valueAt_stop (hd : Spaced 0 time d) (hst : s < t)
    (hno : ∀ e ∈ afterStart time s d, time e ≠ t) :
    valueAt time val b d t = valueAt time val b d (t - 1) := by
  refine valueAt_congr fun e he => ?_
  have hne : time e ≠ t := fun h => hno e (mem_afterStart hd he (by omega)) h
  omega

/-- A window whose entries carry the times they should. -/
structure Window.Timed (time : ε → ℕ) (w : Window ε) : Prop where
  le : w.start ≤ w.stop
  upd : ∀ e, time (w.upd e) = time e
  start : ∀ p, time (w.mkStart p) = w.start
  stop : ∀ p, time (w.mkStop p) = w.stop

section Booking

variable {time : ε → ℕ} {val : ε → β} {w : Window ε}

variable {prev : ε} {d : List ε}

/-- Every entry of a closed list is old, updated, or the new end. -/
theorem mem_closeFrom {x : ε} (hx : x ∈ closeFrom time w prev d) :
    x ∈ d ∨ (∃ e ∈ d, x = w.upd e) ∨ x = w.mkStop prev ∨
      ∃ e ∈ d, x = w.mkStop (w.upd e) := by
  induction d generalizing prev with
  | nil => exact Or.inr (Or.inr (Or.inl (by simpa [closeFrom] using hx)))
  | cons e rest ih =>
    simp only [closeFrom] at hx
    split_ifs at hx with h1 h2
    · exact Or.inl hx
    · rcases List.mem_cons.mp hx with rfl | hx
      · exact Or.inr (Or.inr (Or.inl rfl))
      · exact Or.inl hx
    · rcases List.mem_cons.mp hx with rfl | hx
      · exact Or.inr (Or.inl ⟨e, .head _, rfl⟩)
      · rcases ih hx with h | ⟨y, hy, rfl⟩ | rfl | ⟨y, hy, rfl⟩
        · exact Or.inl (.tail _ h)
        · exact Or.inr (Or.inl ⟨y, .tail _ hy, rfl⟩)
        · exact Or.inr (Or.inr (Or.inr ⟨e, .head _, rfl⟩))
        · exact Or.inr (Or.inr (Or.inr ⟨y, .tail _ hy, rfl⟩))

variable {P : ε → Prop}

theorem closeFrom_all (hupd : ∀ e, P e → P (w.upd e)) (hstop : ∀ e, P e → P (w.mkStop e))
    (hprev : P prev) (hd : ∀ e ∈ d, P e) : ∀ e ∈ closeFrom time w prev d, P e := by
  intro x hx
  rcases mem_closeFrom hx with h | ⟨e, he, rfl⟩ | rfl | ⟨e, he, rfl⟩
  · exact hd x h
  · exact hupd e (hd e he)
  · exact hstop prev hprev
  · exact hstop _ (hupd e (hd e he))

/-- An invariant `P` of entries survives a booking; `Q` is what is known of the
entry before the list. -/
theorem overlay_all {Q : Option ε → Prop} (hQ : ∀ e, P e → Q (some e))
    (hupd : ∀ e, P e → P (w.upd e)) (hstart : ∀ p, Q p → P (w.mkStart p))
    (hstop : ∀ e, P e → P (w.mkStop e)) {prev : Option ε} (hprev : Q prev) (hd : ∀ e ∈ d, P e) :
    ∀ e ∈ overlay time w prev d, P e := by
  induction d generalizing prev with
  | nil =>
    intro x hx
    have hs := hstart prev hprev
    rcases List.mem_cons.mp hx with rfl | hx
    · exact hs
    · exact closeFrom_all hupd hstop hs hd x hx
  | cons e rest ih =>
    have he : P e := hd e (.head _)
    have hrest : ∀ x ∈ rest, P x := fun x hx => hd x (.tail _ hx)
    intro x hx
    simp only [overlay] at hx
    split_ifs at hx with h1 h2
    · rcases List.mem_cons.mp hx with rfl | hx
      · exact hupd e he
      · exact closeFrom_all hupd hstop (hupd e he) hrest x hx
    · have hs := hstart prev hprev
      rcases List.mem_cons.mp hx with rfl | hx
      · exact hs
      · exact closeFrom_all hupd hstop hs hd x hx
    · rcases List.mem_cons.mp hx with rfl | hx
      · exact he
      · exact ih (hQ e he) hrest x hx

/-- Nothing in a closed list begins before a bound on the old entries and the
end. -/
theorem le_time_closeFrom (hw : w.Timed time) {s : ℕ} (hs : s ≤ w.stop) (hd : ∀ e ∈ d, s ≤ time e) :
    ∀ e ∈ closeFrom time w prev d, s ≤ time e := by
  intro x hx
  rcases mem_closeFrom hx with h | ⟨e, he, rfl⟩ | rfl | ⟨e, he, rfl⟩
  · exact hd x h
  · rw [hw.upd]; exact hd e he
  · rw [hw.stop]; exact hs
  · rw [hw.stop]; exact hs

variable {k : ℕ}

theorem closeFrom_spaced (hk : k ≤ 1) (hw : w.Timed time) (hd : Spaced k time d) :
    Spaced k time (closeFrom time w prev d) := by
  induction d generalizing prev with
  | nil => exact List.pairwise_singleton _ _
  | cons e rest ih =>
    obtain ⟨he, hrest⟩ := List.pairwise_cons.mp hd
    simp only [closeFrom]
    split_ifs with h1 h2
    · exact hd
    · refine List.pairwise_cons.mpr ⟨?_, hd⟩
      intro x hx
      rw [hw.stop]
      rcases List.mem_cons.mp hx with rfl | hx
      · omega
      · have := he x hx
        omega
    · refine List.pairwise_cons.mpr ⟨?_, ih hrest⟩
      rw [hw.upd]
      exact le_time_closeFrom hw (by omega) he

/-- Booking keeps the entries ordered by time, strictly when the window is not
empty. -/
theorem overlay_spaced (hk : k ≤ 1) (hw : w.Timed time) (hlt : w.start + k ≤ w.stop)
    {prev : Option ε} (hd : Spaced k time d) : Spaced k time (overlay time w prev d) := by
  induction d generalizing prev with
  | nil =>
    refine List.pairwise_cons.mpr ⟨?_, closeFrom_spaced hk hw hd⟩
    rw [hw.start]
    exact le_time_closeFrom hw hlt (by simp)
  | cons e rest ih =>
    obtain ⟨he, hrest⟩ := List.pairwise_cons.mp hd
    simp only [overlay]
    split_ifs with h1 h2
    · refine List.pairwise_cons.mpr ⟨?_, closeFrom_spaced hk hw hrest⟩
      rw [hw.upd]
      exact le_time_closeFrom hw (h1 ▸ hlt) he
    · refine List.pairwise_cons.mpr ⟨?_, closeFrom_spaced hk hw hd⟩
      rw [hw.start]
      refine le_time_closeFrom hw hlt ?_
      intro x hx
      rcases List.mem_cons.mp hx with rfl | hx
      · omega
      · have := he x hx
        omega
    · refine List.pairwise_cons.mpr ⟨?_, ih hrest⟩
      -- nothing the booking adds begins before its start
      have hle : time e + k ≤ w.start := by omega
      exact overlay_all (Q := fun _ => True) (fun _ _ => trivial)
        (fun x hx => by rw [hw.upd]; exact hx)
        (fun p _ => by rw [hw.start]; exact hle)
        (fun x _ => by rw [hw.stop]; omega)
        trivial he

/-! ## Booking acts pointwise -/

def valueOf (val : ε → β) (b : β) (p : Option ε) : β := p.elim b val

variable {f : β → β}

/-- The closing walk applies `f` up to the end and nothing after it. `x` is the
value in force before the booking where the walk begins. -/
theorem valueAt_closeFrom (hw : w.Timed time) (hP : ∀ e, P e → P (w.upd e)) :
    ∀ {d : List ε} {prev : ε} {x : β}, Spaced 0 time d → (∀ e ∈ d, P e) →
      (∀ e ∈ d, time e < w.stop → val (w.upd e) = f (val e)) →
      P prev → val prev = f x →
      (∀ p, P p → (∀ e ∈ d, time e ≠ w.stop) → val p = f (valueAt time val x d w.stop) →
        val (w.mkStop p) = valueAt time val x d w.stop) →
      ∀ t, valueAt time val (val prev) (closeFrom time w prev d) t =
        if t < w.stop then f (valueAt time val x d t)
        else valueAt time val x d t
  | [], prev, x, _, _, _, hprev, hx, hstop, t => by
      have hend := hstop prev hprev (by simp) hx
      simp only [closeFrom, valueAt_cons, valueAt_nil, hw.stop] at hend ⊢
      by_cases ht : t < w.stop
      · rw [if_neg (by omega), if_pos ht, hx]
      · rw [if_pos (by omega), if_neg ht, hend]
  | e :: rest, prev, x, hd, hPd, hval, hprev, hx, hstop, t => by
      obtain ⟨he, hrest⟩ := List.pairwise_cons.mp hd
      have hlate : ∀ {s}, s < time e → ∀ y ∈ e :: rest, s < time y := by
        intro s hs y hy
        rcases List.mem_cons.mp hy with rfl | hy
        · exact hs
        · exact Nat.lt_of_lt_of_le hs (he y hy)
      by_cases h1 : w.stop = time e
      · -- the end is an existing entry: everything from here on is old
        rw [closeFrom, if_pos h1]
        by_cases ht : t < w.stop
        · rw [if_pos ht, valueAt_of_later (hlate (h1 ▸ ht)), valueAt_of_later (hlate (h1 ▸ ht)), hx]
        · rw [if_neg ht, valueAt_cons, valueAt_cons, if_pos (by omega),
            if_pos (by omega)]
      by_cases h2 : w.stop < time e
      · -- the end falls before the next entry
        rw [closeFrom, if_neg h1, if_pos h2, valueAt_cons, hw.stop]
        have hold : valueAt time val x (e :: rest) w.stop = x :=
          valueAt_of_later (hlate h2)
        by_cases ht : t < w.stop
        · have hlt : t < time e := Nat.lt_trans ht h2
          rw [if_neg (by omega), if_pos ht, valueAt_of_later (hlate hlt),
            valueAt_of_later (hlate hlt), hx]
        · have hend := hstop prev hprev
            (fun y hy => Nat.ne_of_gt (hlate h2 y hy)) (by rw [hold]; exact hx)
          rw [hold] at hend
          rw [if_pos (by omega), if_neg ht, hend]
      · -- still inside: the updated entry becomes the previous one
        have hlt : time e < w.stop := by omega
        have hve : val (w.upd e) = f (val e) := hval e (.head _) hlt
        rw [closeFrom, if_neg h1, if_neg h2, valueAt_cons, hw.upd, valueAt_cons]
        by_cases hte : time e ≤ t
        · rw [if_pos hte, if_pos hte]
          refine valueAt_closeFrom hw hP hrest
            (fun y hy => hPd y (.tail _ hy))
            (fun y hy => hval y (.tail _ hy))
            (hP e (hPd e (.head _))) hve ?_ t
          intro p hp hne hpv
          have hend := hstop p hp (fun y hy => by
            rcases List.mem_cons.mp hy with rfl | hy
            · exact Ne.symm h1
            · exact hne y hy)
          rw [valueAt_cons, if_pos (by omega)] at hend
          exact hend hpv
        · have hgt : t < time e := by omega
          have hr : ∀ y ∈ rest, t < time y :=
            fun y hy => hlate hgt y (.tail _ hy)
          rw [if_neg hte, if_neg hte, if_pos (by omega), valueAt_of_later hr,
            valueAt_of_later (le_time_closeFrom hw (by omega) hr), hx]

/-- **Booking acts pointwise.** With `f` the effect on a value, the denoted
function becomes `f` of the old one inside the window and stays as it was
outside it. `P` is an invariant of entries. The new start entry has to carry
`f` of what was in force there, the new end entry what was in force before the
booking; the first is asked for only when no entry of that time exists, the
second only when none is left after the start entry. -/
theorem valueAt_overlay {b : β} (hw : w.Timed time) (hP : ∀ e, P e → P (w.upd e))
    (hPs : ∀ p : Option ε, (∀ e ∈ p, P e) → P (w.mkStart p)) :
    ∀ {d : List ε} {prev : Option ε}, Spaced 0 time d → (∀ e ∈ d, P e) →
      (∀ e ∈ prev, P e) →
      (∀ e ∈ d, w.start ≤ time e → time e < w.stop ∨ time e = w.start → val (w.upd e) = f (val e)) →
      (∀ p : Option ε, (∀ e ∈ p, P e) → (∀ e ∈ d, time e ≠ w.start) →
        valueOf val b p = valueAt time val (valueOf val b prev) d w.start → val (w.mkStart p) =
          f (valueAt time val (valueOf val b prev) d w.start)) →
      (∀ p, P p → (∀ e ∈ afterStart time w.start d, time e ≠ w.stop) →
        val p = f (valueAt time val (valueOf val b prev) d w.stop) →
        val (w.mkStop p) = valueAt time val (valueOf val b prev) d w.stop) →
      ∀ t, valueAt time val (valueOf val b prev) (overlay time w prev d) t =
        if w.start ≤ t ∧ t < w.stop then
          f (valueAt time val (valueOf val b prev) d t)
        else valueAt time val (valueOf val b prev) d t
  | [], prev, _, _, hprev, _, hstart, hstop, t => by
      have hs : val (w.mkStart prev) = f (valueOf val b prev) :=
        hstart prev hprev (by simp) rfl
      rw [overlay, valueAt_cons, hw.start]
      by_cases ht : w.start ≤ t
      · rw [if_pos ht, valueAt_closeFrom (f := f) hw hP List.Pairwise.nil
          (by simp) (by simp) (hPs prev hprev) hs (fun p hp hn hv =>
            hstop p hp (by simp [afterStart]) hv) t]
        simp only [ht, true_and, valueAt_nil]
      · have hlt : t + 1 ≤ w.stop := by have := hw.le; omega
        rw [if_neg ht, if_neg (by omega), valueAt_nil,
          valueAt_of_later (le_time_closeFrom hw hlt (by simp))]
  | e :: rest, prev, hd, hPd, hprev, hval, hstart, hstop, t => by
      obtain ⟨he, hrest⟩ := List.pairwise_cons.mp hd
      have hle := hw.le
      have hPe : P e := hPd e (.head _)
      have hPr : ∀ y ∈ rest, P y := fun y hy => hPd y (.tail _ hy)
      have hlate : ∀ {s}, s < time e → ∀ y ∈ e :: rest, s < time y := by
        intro s hs y hy
        rcases List.mem_cons.mp hy with rfl | hy
        · exact hs
        · exact Nat.lt_of_lt_of_le hs (he y hy)
      by_cases h1 : w.start = time e
      · -- the start is an existing entry
        have hve := hval e (.head _) (by omega) (Or.inr h1.symm)
        rw [afterStart, if_pos h1] at hstop
        rw [overlay, if_pos h1, valueAt_cons, hw.upd, valueAt_cons]
        by_cases ht : time e ≤ t
        · rw [if_pos ht, if_pos ht]
          rw [valueAt_closeFrom (f := f) hw hP hrest hPr
            (fun y hy hys => hval y (.tail _ hy)
              (by have := he y hy; omega) (Or.inl hys)) (hP e hPe) hve ?_ t]
          · simp only [h1, ht, true_and]
          · intro p hp hne hpv
            have hend := hstop p hp hne
            rw [valueAt_cons, if_pos (by omega)] at hend
            exact hend hpv
        · have hr : ∀ y ∈ rest, t < time y := fun y hy =>
            hlate (by omega) y (.tail _ hy)
          rw [if_neg ht, if_neg ht, if_neg (by omega), valueAt_of_later hr,
            valueAt_of_later (le_time_closeFrom hw (by omega) hr)]
      by_cases h2 : w.start < time e
      · -- the start falls before the first entry: a new one is made from `prev`
        have hold : valueAt time val (valueOf val b prev) (e :: rest) w.start =
            valueOf val b prev := valueAt_of_later (hlate h2)
        have hs := hstart prev hprev
          (fun y hy => Nat.ne_of_gt (hlate h2 y hy)) hold.symm
        rw [hold] at hs
        rw [afterStart, if_neg h1, if_pos h2] at hstop
        rw [overlay, if_neg h1, if_pos h2, valueAt_cons, hw.start]
        by_cases ht : w.start ≤ t
        · rw [if_pos ht, valueAt_closeFrom (f := f) hw hP hd hPd
            (fun y hy hys => hval y hy (Nat.le_of_lt (hlate h2 y hy)) (Or.inl hys))
            (hPs prev hprev) hs hstop t]
          simp only [ht, true_and]
        · rw [if_neg ht, if_neg (by omega), valueAt_of_later (hlate (by omega)), valueAt_of_later
              (le_time_closeFrom hw (by omega) (hlate (by omega)))]
      · -- the start is later: go on with `e` as the entry before
        have hlt : time e < w.start := by omega
        rw [afterStart, if_neg h1, if_neg h2] at hstop
        rw [overlay, if_neg h1, if_neg h2, valueAt_cons, valueAt_cons]
        by_cases ht : time e ≤ t
        · rw [if_pos ht]
          change valueAt time val (valueOf val b (some e)) _ t = if _ then
            f (valueAt time val (valueOf val b (some e)) rest t)
            else valueAt time val (valueOf val b (some e)) rest t
          refine valueAt_overlay (b := b) hw hP hPs hrest hPr
            (by rintro y ⟨rfl⟩; exact hPe)
            (fun y hy => hval y (.tail _ hy)) ?_ ?_ t
          · intro p hp hne hpv
            have h := hstart p hp (fun y hy => by
              rcases List.mem_cons.mp hy with rfl | hy
              · exact Ne.symm h1
              · exact hne y hy)
            rw [valueAt_cons, if_pos (by omega)] at h
            exact h hpv
          · intro p hp hne hpv
            have h := hstop p hp hne
            rw [valueAt_cons, if_pos (by omega)] at h
            exact h hpv
        · have hr : ∀ y ∈ rest, t < time y := fun y hy =>
            hlate (by omega) y (.tail _ hy)
          have hov : ∀ y ∈ overlay time w (some e) rest, t < time y :=
            overlay_all (Q := fun _ => True) (fun _ _ => trivial)
              (fun x hx => by rw [hw.upd]; exact hx)
              (fun p _ => by rw [hw.start]; omega)
              (fun x _ => by rw [hw.stop]; omega) trivial hr
          rw [if_neg ht, if_neg (by omega), valueAt_of_later hr, valueAt_of_later hov]

/-- Booking into a whole list, with no entry before it. -/
theorem valueAt_overlay_none (val : ε → β) (b : β) (hw : w.Timed time) (hP : ∀ e, P e → P (w.upd e))
    (hPs : ∀ p : Option ε, (∀ e ∈ p, P e) → P (w.mkStart p)) (hd : Spaced 0 time d)
    (hPd : ∀ e ∈ d, P e) (hval : ∀ e ∈ d, w.start ≤ time e → time e < w.stop ∨ time e = w.start →
      val (w.upd e) = f (val e))
    (hstart : ∀ p : Option ε, (∀ e ∈ p, P e) → (∀ e ∈ d, time e ≠ w.start) →
      valueOf val b p = valueAt time val b d w.start →
      val (w.mkStart p) = f (valueAt time val b d w.start))
    (hstop : ∀ p, P p → (∀ e ∈ afterStart time w.start d, time e ≠ w.stop) →
      val p = f (valueAt time val b d w.stop) →
      val (w.mkStop p) = valueAt time val b d w.stop) (t : ℕ) :
    valueAt time val b (overlay time w none d) t =
      if w.start ≤ t ∧ t < w.stop then f (valueAt time val b d t)
      else valueAt time val b d t := by
  have hnone : ∀ e ∈ (none : Option ε), P e := by simp
  exact valueAt_overlay (b := b) hw hP hPs hd hPd hnone hval hstart hstop t

end Booking

/-! ## Dropping entries that say nothing -/

/-- Drop every entry that repeats the last one kept. -/
def dropSame (same : ε → ε → Bool) (kept : ε) : List ε → List ε
  | [] => []
  | e :: rest =>
    if same kept e then dropSame same kept rest
    else e :: dropSame same e rest

/-- Drop the leading entries that are `idle`, then every repetition. -/
def compact (idle : ε → Bool) (same : ε → ε → Bool) (d : List ε) : List ε :=
  match d.dropWhile idle with
  | [] => []
  | e :: rest => e :: dropSame same e rest

section Compact

variable {time : ε → ℕ} {val : ε → β} {idle : ε → Bool} {same : ε → ε → Bool}

theorem dropSame_sublist (kept : ε) (d : List ε) : (dropSame same kept d).Sublist d := by
  induction d generalizing kept with
  | nil => exact List.Sublist.slnil
  | cons e rest ih =>
    rw [dropSame]
    split_ifs
    · exact (ih kept).cons e
    · exact (ih e).cons_cons e

theorem compact_sublist (d : List ε) : (compact idle same d).Sublist d := by
  unfold compact
  cases h : d.dropWhile idle with
  | nil => exact List.nil_sublist d
  | cons e rest =>
    have hsub : (e :: rest).Sublist d := h ▸ List.dropWhile_sublist idle
    exact ((dropSame_sublist e rest).cons_cons e).trans hsub

variable {d : List ε}

theorem compact_spaced {k : ℕ} (hd : Spaced k time d) : Spaced k time (compact idle same d) :=
  List.Pairwise.sublist (compact_sublist d) hd

theorem compact_isChain (d : List ε) :
    (compact idle same d).IsChain (fun e e' => same e e' = false) := by
  have hdrop : ∀ (l : List ε) (kept : ε),
      (kept :: dropSame same kept l).IsChain (fun e e' => same e e' = false) := by
    intro l
    induction l with
    | nil => exact fun kept => List.IsChain.singleton kept
    | cons e rest ih =>
      intro kept
      rw [dropSame]
      split_ifs with h
      · exact ih kept
      · exact List.IsChain.cons_cons (by simpa using h) (ih e)
  unfold compact
  cases d.dropWhile idle with
  | nil => exact List.IsChain.nil
  | cons e rest => exact hdrop rest e

theorem compact_head {e : ε} (he : (compact idle same d).head? = some e) : idle e = false := by
  unfold compact at he
  cases h : d.dropWhile idle with
  | nil => simp [h] at he
  | cons x rest =>
    obtain rfl : x = e := by simpa [h] using he
    have := List.head?_dropWhile_not idle d
    simpa [h] using this

variable {P : ε → Prop}

theorem valueAt_dropSame (hsame : ∀ e e', P e → P e' → same e e' = true → val e = val e') :
    ∀ {d : List ε} {kept : ε}, Spaced 0 time (kept :: d) → P kept →
      (∀ e ∈ d, P e) → ∀ t, time kept ≤ t →
      valueAt time val (val kept) (dropSame same kept d) t =
        valueAt time val (val kept) d t
  | [], _, _, _, _, _, _ => rfl
  | e :: rest, kept, hd, hk, hPd, t, ht => by
      obtain ⟨hke, hrest⟩ := List.pairwise_cons.mp hd
      obtain ⟨he, hrest'⟩ := List.pairwise_cons.mp hrest
      have hPe : P e := hPd e (.head _)
      have hPr : ∀ y ∈ rest, P y := fun y hy => hPd y (.tail _ hy)
      have hkr : Spaced 0 time (kept :: rest) :=
        List.pairwise_cons.mpr
          ⟨fun y hy => hke y (.tail _ hy), hrest'⟩
      rw [dropSame]
      split_ifs with h
      · rw [valueAt_dropSame hsame hkr hk hPr t ht, valueAt_cons, ← hsame kept e hk hPe h, ite_self]
      · rw [valueAt_cons, valueAt_cons]
        by_cases hte : time e ≤ t
        · rw [if_pos hte]
          exact valueAt_dropSame hsame hrest hPe hPr t hte
        · have hr : ∀ y ∈ rest, t < time y :=
            fun y hy => Nat.lt_of_lt_of_le (by omega) (he y hy)
          rw [if_neg hte, valueAt_of_later hr, valueAt_of_later
            (fun y hy => hr y ((dropSame_sublist e rest).subset hy))]

variable {b : β}

/-- Before the first entry that is not idle only idle ones are in force. -/
theorem valueAt_of_idle (idle : ε → Bool) (hidle : ∀ e, idle e = true → val e = b) {t : ℕ}
    (ht : ∀ e ∈ d.dropWhile idle, t < time e) : valueAt time val b d t = b := by
  conv_lhs => rw [← List.takeWhile_append_dropWhile (p := idle) (l := d)]
  rw [valueAt_append, valueAt_of_later ht]
  rcases valueAt_mem time val b (d.takeWhile idle) t with h | ⟨e, he, h⟩
  · exact h
  · rw [h]
    exact hidle e (List.mem_takeWhile_imp he)

/-- **Compacting changes nothing** that can be observed, provided the default is
in force before the first entry that is not idle and equal entries carry equal
values. -/
theorem valueAt_compact (hsame : ∀ e e', P e → P e' → same e e' = true → val e = val e')
    (hd : Spaced 0 time d) (hPd : ∀ e ∈ d, P e)
    (hlead : ∀ t, (∀ e ∈ d.dropWhile idle, t < time e) → valueAt time val b d t = b) (t : ℕ) :
    valueAt time val b (compact idle same d) t = valueAt time val b d t := by
  have hsub := List.dropWhile_sublist idle (l := d)
  have hasc : Spaced 0 time (d.dropWhile idle) := hd.sublist hsub
  have hPs : ∀ e ∈ d.dropWhile idle, P e := fun e he => hPd e (hsub.subset he)
  have hsplit : valueAt time val b d t =
      valueAt time val (valueAt time val b (d.takeWhile idle) t)
        (d.dropWhile idle) t := by
    rw [← valueAt_append, List.takeWhile_append_dropWhile]
  have hlt := hlead t
  unfold compact
  cases h : d.dropWhile idle with
  | nil => rw [hlt (by simp [h]), valueAt_nil]
  | cons e rest =>
    rw [h] at hasc hPs hlt hsplit
    obtain ⟨he, -⟩ := List.pairwise_cons.mp hasc
    by_cases hte : time e ≤ t
    · rw [hsplit, valueAt_cons, valueAt_cons, if_pos hte, if_pos hte]
      exact valueAt_dropSame hsame hasc (hPs e (.head _))
        (fun y hy => hPs y (.tail _ hy)) t hte
    · have hr : ∀ y ∈ e :: rest, t < time y := by
        intro y hy
        rcases List.mem_cons.mp hy with rfl | hy
        · omega
        · have := he y hy
          omega
      rw [hlt hr, valueAt_of_later]
      intro y hy
      rcases List.mem_cons.mp hy with rfl | hy
      · omega
      · exact hr y (.tail _ ((dropSame_sublist e rest).subset hy))

end Compact

end ClusterScheduler.Foundation
