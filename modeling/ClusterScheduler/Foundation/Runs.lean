import Mathlib.Data.List.Induction

/-!
# Runs of a partial step function

A system takes one action after the other. An action that is not possible ends the run.

* `EveryState` — a property of every state of a run.
* `EveryStep` — a condition on every action of a run, in the state it meets.
* `everyState_of_everyStep`, `everyState_iff_everyStep` — an invariant that the actions with the
  condition keep.
-/

namespace ClusterScheduler.Foundation

variable {σ α : Type*} {step : σ → α → Option σ}

def EveryState (step : σ → α → Option σ) (P : σ → Prop) : σ → List α → Prop
  | s, [] => P s
  | s, a :: acts => P s ∧ ∀ s', step s a = some s' → EveryState step P s' acts

def EveryStep (step : σ → α → Option σ) (Q : σ → α → Prop) : σ → List α → Prop
  | _, [] => True
  | s, a :: acts => ∀ s', step s a = some s' → Q s a ∧ EveryStep step Q s' acts

variable {P I : σ → Prop} {Q : σ → α → Prop} {A : α → Prop} {s : σ} {acts : List α}

theorem EveryState.head (h : EveryState step P s acts) : P s := by
  cases acts with
  | nil => exact h
  | cons a acts => exact h.1

theorem everyStep_cons {a : α} {s' : σ} (hstep : step s a = some s') :
    EveryStep step Q s (a :: acts) ↔ Q s a ∧ EveryStep step Q s' acts := by
  refine ⟨fun h => h s' hstep, fun h s'' hstep' => ?_⟩
  obtain rfl := Option.some.inj (hstep.symm.trans hstep')
  exact h

variable (hkeep : ∀ s a s', I s → A a → Q s a → step s a = some s' → I s')
include hkeep

theorem everyState_of_everyStep
    (hinv : ∀ s, I s → P s) (hs : I s) (hacts : ∀ a ∈ acts, A a) (h : EveryStep step Q s acts) :
    EveryState step P s acts := by
  induction acts generalizing s with
  | nil => exact hinv s hs
  | cons a acts ih =>
    obtain ⟨ha, hacts⟩ := List.forall_mem_cons.mp hacts
    refine ⟨hinv s hs, fun s' hstep => ?_⟩
    obtain ⟨hq, hrest⟩ := h s' hstep
    exact ih (hkeep s a s' hs ha hq hstep) hacts hrest

/-- If an action without the condition leads to a state without the property, the property
holds all along a run exactly when every action meets the condition. -/
theorem everyState_iff_everyStep
    (hinv : ∀ s, I s → P s) (hneeds : ∀ s a s', I s → A a → step s a = some s' → P s' → Q s a)
    (hs : I s) (hacts : ∀ a ∈ acts, A a) : EveryState step P s acts ↔ EveryStep step Q s acts := by
  refine ⟨fun h => ?_, everyState_of_everyStep hkeep hinv hs hacts⟩
  induction acts generalizing s with
  | nil => trivial
  | cons a acts ih =>
    obtain ⟨ha, hacts⟩ := List.forall_mem_cons.mp hacts
    intro s' hstep
    have hrest := h.2 s' hstep
    have hq : Q s a := hneeds s a s' hs ha hstep hrest.head
    exact ⟨hq, ih (hkeep s a s' hs ha hq hstep) hacts hrest⟩

end ClusterScheduler.Foundation
