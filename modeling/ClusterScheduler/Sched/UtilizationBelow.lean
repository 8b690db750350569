import ClusterScheduler.Consumables.Usage
import ClusterScheduler.Foundation.Openings

/-!
# When a consumable is free

A reservation asks every consumable when the amount requested is free for as long
as the job runs. The answer is searched in the diagrams of the consumable, without
regard to any other.

* `utilizationMax` — the largest utilization in a window.
* `utilizationBelow` — the earliest window of the searched ones, with
  `utilizationFitsDuration` deciding about one.
* `earlierWindow_cases`, `earlierWindow_le_of_fits` — what the search for an earlier window
  finds.

Jobs have no binding and the diagrams carry none, so the amount of an entry is the
utilization. A consumable that has no element is one nothing was booked on.
-/

namespace ClusterScheduler.Sched

open Foundation Consumables

/-! ## Functions of the source -/

def dispatchTimeNow : ℕ := 0

def dispatchTimeQueueEnd : ℕ := uint64Max

/-- The amount in force behind all bookings. An entry at the largest time only ends
what was booked for ever. -/
def lastAmount (d : List Rde) : ℚ :=
  match d.getLast? with
  | none => 0
  | some e =>
    if e.time ≠ uint64Max then e.amount
    else ((d.dropLast.getLast?).map (·.amount)).getD 0

def utilizationQueueEnd (cr : Usage) (forExclRequest : Bool) : ℚ :=
  let max := lastAmount (cr.utilized.getD [])
  let nonexclusive := cr.utilizedNonexclusive.getD []
  if forExclRequest && !nonexclusive.isEmpty && decide (max < lastAmount nonexclusive) then
    lastAmount nonexclusive
  else max

/-- The largest utilization in a window. An exclusive request counts the jobs too
that did not ask for the resource. -/
def utilizationMax (cr : Usage) (startTime duration : ℕ) (forExclRequest : Bool) : ℚ :=
  if startTime = dispatchTimeNow then
    if forExclRequest then max cr.utilizedNowNonexclusive cr.utilizedNow
    else cr.utilizedNow
  else if startTime = dispatchTimeQueueEnd then utilizationQueueEnd cr forExclRequest
  else
    let endTime := utilizationEndtime startTime duration
    let m := windowMax Rde.time Rde.amount 0 startTime endTime (cr.utilized.getD [])
    let mNonexclusive := windowMax Rde.time Rde.amount 0 startTime endTime
      (cr.utilizedNonexclusive.getD [])
    if forExclRequest && decide (m < mNonexclusive) then mNonexclusive else m

def utilizationFitsDuration (duration : ℕ) (cr : Usage) (start : ℕ) (maxUtil : ℚ)
    (forExclRequest : Bool) : Bool :=
  decide (utilizationMax cr start duration forExclRequest ≤ maxUtil)

/-- The time from which a diagram stays at or below a utilization until its end, 0
when it never exceeds it. -/
def searchBackward (maxUtil : ℚ) (d : List Rde) : ℕ :=
  settledFrom Rde.time Rde.amount maxUtil d.reverse

/-- The same for both diagrams, the later of the two. -/
def settledWhen (cr : Usage) (maxUtil : ℚ) (forExclRequest : Bool) : ℕ :=
  let when_ := searchBackward maxUtil (cr.utilized.getD [])
  let whenNonexclusive := searchBackward maxUtil (cr.utilizedNonexclusive.getD [])
  if forExclRequest && decide (when_ < whenNonexclusive) then whenNonexclusive else when_

/-- An earlier window that is long enough: now, or where an entry begins. -/
def earlierWindow (now duration : ℕ) (cr : Usage) (maxUtil : ℚ) (forExclRequest : Bool)
    (when_ : ℕ) : ℕ :=
  if utilizationFitsDuration duration cr now maxUtil forExclRequest then now
  else (firstFit Rde.time
    (fun t => utilizationFitsDuration duration cr t maxUtil forExclRequest) now when_
    (cr.utilized.getD [])).getD when_

/-- The first time at which a resource is below a utilization, 0 for now. -/
def utilizationBelow (now duration : ℕ) (cr : Usage) (maxUtil : ℚ) (forExclRequest : Bool) :
    ℕ :=
  let when_ := settledWhen cr maxUtil forExclRequest
  if when_ ≠ dispatchTimeNow ∧ 0 < duration then
    let earlier := earlierWindow now duration cr maxUtil forExclRequest when_
    if earlier < when_ then earlier else when_
  else when_

/-- The diagrams of an element are well formed, their times are times, and nothing is
bound to threads. -/
structure UsageOk (cr : Usage) : Prop where
  diagram : ∀ nonExclusive, IsDiagram ((cr.diagram nonExclusive).getD [])
  times : ∀ nonExclusive, ∀ e ∈ (cr.diagram nonExclusive).getD [], e.time < 2 ^ 64
  unbound : ∀ nonExclusive, ∀ e ∈ (cr.diagram nonExclusive).getD [], e.bindingInuse = none

/-! ## The search for an earlier window -/

section EarlierWindow

variable {cr : Usage} {maxUtil : ℚ} {forExclRequest : Bool} {when_ : ℕ}

/-- What is found is the window given, one that begins now, or one that begins with a
later entry. -/
theorem earlierWindow_cases (now duration : ℕ) (cr : Usage) (maxUtil : ℚ)
    (forExclRequest : Bool) (when_ : ℕ) :
    let earlier := earlierWindow now duration cr maxUtil forExclRequest when_
    earlier = when_ ∨
      (earlier = now ∧ utilizationFitsDuration duration cr now maxUtil forExclRequest = true) ∨
      (now < earlier ∧ earlier < when_ ∧ (∃ e ∈ cr.utilized.getD [], e.time = earlier) ∧
        utilizationFitsDuration duration cr earlier maxUtil forExclRequest = true) := by
  intro earlier
  by_cases hnow : utilizationFitsDuration duration cr now maxUtil forExclRequest = true
  · exact Or.inr (Or.inl ⟨if_pos hnow, hnow⟩)
  · have heq : earlier = _ := if_neg hnow
    cases hf : firstFit Rde.time
        (fun t => utilizationFitsDuration duration cr t maxUtil forExclRequest) now when_
        (cr.utilized.getD []) with
    | none =>
      rw [hf] at heq
      exact Or.inl heq
    | some t =>
      rw [hf] at heq
      obtain ⟨he, hlo, hhi, hfit⟩ := firstFit_some hf
      rw [heq]
      exact Or.inr (Or.inr ⟨hlo, hhi, he, hfit⟩)

/-- No window that the search looks at is long enough and begins earlier. -/
theorem earlierWindow_le_of_fits {now duration : ℕ} (hd : Spaced 1 Rde.time (cr.utilized.getD []))
    {t : ℕ} (ht : t = now ∨ now < t ∧ ∃ e ∈ cr.utilized.getD [], e.time = t)
    (hfit : utilizationFitsDuration duration cr t maxUtil forExclRequest = true) :
    earlierWindow now duration cr maxUtil forExclRequest when_ ≤ t ∨ when_ ≤ t := by
  unfold earlierWindow
  rcases ht with rfl | ⟨hlo, e, he, rfl⟩
  · rw [if_pos hfit]
    exact Or.inl (le_refl t)
  · split_ifs with hnow
    · exact Or.inl (le_of_lt hlo)
    · exact firstFit_le hd e he hlo hfit

end EarlierWindow

end ClusterScheduler.Sched
