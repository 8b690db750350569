import Mathlib

/-!
# Computations over memory of a known size

A computation changes a state and may give up with an error code. Memory that is not there is
never touched without notice: the computation stops there.

* `Stop`, `CheckedM` — the ways to stop, and the computations.
* `store` — into an array that was allocated with as many slots as the list has.
* `Safe` — a computation comes to its end, and what holds then.
* `Follows` — it does what a computation without memory does, seen through an abstraction of
  the state.
-/

namespace ClusterScheduler.Foundation

universe u

/-- An access outside of the memory, no end, or an error code. -/
inductive Stop (ε : Type u) where
  | outside
  | endless
  | code (e : ε)
  deriving DecidableEq, Repr

abbrev CheckedM (σ ε : Type u) := StateT σ (Except (Stop ε))

section

variable {σ τ ε α β : Type u}

/-- A value goes into a slot. The slot is handed to what computes the value. -/
def storing (array : List α) (i : ℕ) (m : CheckedM σ ε α) : CheckedM σ ε (List α) :=
  if i < array.length then do
    let v ← m
    return array.set i v
  else throw .outside

def store (array : List α) (i : ℕ) (change : α → α) : CheckedM σ ε (List α) :=
  match array[i]? with
  | some v => return array.set i (change v)
  | none => throw .outside

/-! ## Computations that come to an end -/

/-- From this state the computation gives a result or an error code, and nothing else. -/
def Safe (m : CheckedM σ ε α) (s : σ) (post : α → σ → Prop) (err : ε → Prop) : Prop :=
  match m.run s with
  | .ok (a, s') => post a s'
  | .error (.code e) => err e
  | .error _ => False

variable {m : CheckedM σ ε α} {f : α → CheckedM σ ε β} {s : σ} {a : α}
  {post mid : α → σ → Prop} {err : ε → Prop} {post' : β → σ → Prop}

theorem safe_iff : Safe m s post err ↔
    (∃ a s', m.run s = .ok (a, s') ∧ post a s') ∨ ∃ e, m.run s = .error (.code e) ∧ err e := by
  rw [Safe]
  rcases m.run s with (_ | _ | e) | ⟨a, s'⟩ <;> simp

theorem Safe.pure (h : post a s) : Safe (pure a : CheckedM σ ε α) s post err := h

theorem Safe.code {e : ε} (h : err e) : Safe (throw (.code e) : CheckedM σ ε α) s post err := h

theorem Safe.imp {post' : α → σ → Prop} {err' : ε → Prop} (h : Safe m s post err)
    (hpost : ∀ a s', post a s' → post' a s') (herr : ∀ e, err e → err' e) :
    Safe m s post' err' := by
  rw [safe_iff] at h ⊢
  rcases h with ⟨a, s', hrun, h⟩ | ⟨e, hrun, h⟩
  · exact Or.inl ⟨a, s', hrun, hpost a s' h⟩
  · exact Or.inr ⟨e, hrun, herr e h⟩

theorem run_bind_of_ok {s' : σ} (h : m.run s = .ok (a, s')) : (m >>= f).run s = (f a).run s' := by
  rw [StateT.run_bind, h]
  rfl

theorem run_bind_of_error {stop : Stop ε} (h : m.run s = .error stop) :
    (m >>= f).run s = .error stop := by
  rw [StateT.run_bind, h]
  rfl

theorem Safe.bind (h : Safe m s mid err) (hf : ∀ a s', mid a s' → Safe (f a) s' post' err) :
    Safe (m >>= f) s post' err := by
  rcases safe_iff.mp h with ⟨a, s', hrun, hmid⟩ | ⟨e, hrun, herr⟩
  · rw [Safe, run_bind_of_ok hrun]
    exact hf a s' hmid
  · rw [Safe, run_bind_of_error hrun]
    exact herr

theorem Safe.get_bind {f : σ → CheckedM σ ε α} (h : Safe (f s) s post err) :
    Safe (get >>= f) s post err := h

theorem store_eq {array : List α} {i : ℕ} {change : α → α} (hi : i < array.length) :
    (store array i change : CheckedM σ ε (List α)) =
      Pure.pure (array.set i (change (array.get ⟨i, hi⟩))) := by
  rw [store, List.getElem?_eq_getElem hi]
  rfl

/-! ## Computations without memory -/

variable {abs : σ → τ} {p : StateT τ (Except ε) α} {g : α → StateT τ (Except ε) β}

/-- What the computation gives is what `p` gives, and `post` holds of it as well. -/
def Follows (abs : σ → τ) (m : CheckedM σ ε α) (p : StateT τ (Except ε) α) (s : σ)
    (post : α → σ → Prop) : Prop :=
  Safe m s (fun a s' => p.run (abs s) = .ok (a, abs s') ∧ post a s')
    fun e => p.run (abs s) = .error e

theorem Follows.imp {mid : α → σ → Prop} (h : Follows abs m p s mid)
    (hpost : ∀ a s', mid a s' → post a s') : Follows abs m p s post :=
  Safe.imp h (fun a s' h => ⟨h.1, hpost a s' h.2⟩) fun _ h => h

theorem Follows.pure (h : post a s) : Follows abs (pure a : CheckedM σ ε α) (pure a) s post :=
  Safe.pure ⟨rfl, h⟩

theorem Follows.code {e : ε} : Follows abs (throw (.code e)) (throw e) s post :=
  Safe.code rfl

theorem Follows.bind (h : Follows abs m p s mid)
    (hf : ∀ a s', mid a s' → Follows abs (f a) (g a) s' post') :
    Follows abs (m >>= f) (p >>= g) s post' := by
  rcases safe_iff.mp h with ⟨a, s', hrun, hp, hmid⟩ | ⟨e, hrun, hp⟩
  · have hnext := hf a s' hmid
    rw [Follows, Safe, run_bind_of_ok hrun]
    rw [Follows, Safe] at hnext
    have hbind : (p >>= g).run (abs s) = (g a).run (abs s') := by
      rw [StateT.run_bind, hp]
      rfl
    rw [hbind]
    exact hnext
  · rw [Follows, Safe, run_bind_of_error hrun, StateT.run_bind, hp]
    rfl

end

end ClusterScheduler.Foundation
