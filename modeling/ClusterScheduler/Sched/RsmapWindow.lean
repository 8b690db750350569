import ClusterScheduler.Sched.RsmapDiagram
import ClusterScheduler.Sched.UtilizationBelow

/-!
# Instances that are not free over a window

Before instances of a resource map are granted, the scheduler asks which are held at any
time of the window.

* `utilizationRsmapMax` — what is held of every instance there at most.
* `highest` — the same as the largest amount in the entries of the window.
* `instAt_le_utilizationRsmapMax` — no more is held at any time of the window.
-/

namespace ClusterScheduler.Sched

open Foundation Consumables

/-! ## Functions of the source -/

def raiseTo (ep dst : Resl) : Resl :=
  if dst.amount < ep.amount then { dst with amount := ep.amount } else dst

def raiseResl (taken : List Resl) (ep : Resl) : List Resl :=
  upsert Resl.value ep.value ⟨ep.value, 0⟩ (raiseTo ep) taken

def raiseEntry (taken : List Resl) (rde : Rde) : List Resl :=
  rde.resourceMapList.foldl raiseResl taken

/-- What is held now counts for a window that has begun. -/
def utilizationRsmapMax (cr : Usage) (now startTime duration : ℕ) : List Resl :=
  let atQueueEnd := startTime = dispatchTimeQueueEnd
  let startTime := if startTime = dispatchTimeNow then now else startTime
  let taken := if ¬ atQueueEnd ∧ startTime ≤ now then cr.utilizedNowResourceMapList else []
  match cr.utilized with
  | none => taken
  | some diagram =>
    (windowEntries Rde.time startTime (utilizationEndtime startTime duration) diagram).foldl
      raiseEntry taken

/-! ## What is held at most -/

theorem raiseTo_value (ep dst : Resl) : (raiseTo ep dst).value = dst.value := by
  unfold raiseTo
  split_ifs <;> rfl

theorem raiseTo_amount (ep dst : Resl) : (raiseTo ep dst).amount = max dst.amount ep.amount := by
  unfold raiseTo
  split_ifs with hlt
  · exact (max_eq_right hlt.le).symm
  · exact (max_eq_left (not_lt.mp hlt)).symm

theorem reslAmount_raiseResl (taken : List Resl) (ep : Resl) (id : String) :
    reslAmount (raiseResl taken ep) id =
      if id = ep.value then max (reslAmount taken id) ep.amount else reslAmount taken id := by
  have hlookup : ∀ l, findResl l id = lookup Resl.value id l := fun _ => rfl
  rw [reslAmount, hlookup, raiseResl, lookup_upsert (raiseTo_value ep) (by rfl)]
  split_ifs with hid
  · rw [reslAmount, hlookup, hid, Option.map_some, Option.getD_some, raiseTo_amount]
    cases lookup Resl.value ep.value taken with
    | none => rfl
    | some dst => rfl
  · rfl

def highest (l : List Resl) (id : String) : ℕ :=
  ((l.filter (·.value = id)).map (·.amount)).foldr max 0

@[simp] theorem highest_nil (id : String) : highest [] id = 0 := rfl

theorem highest_cons (ep : Resl) (l : List Resl) (id : String) :
    highest (ep :: l) id = if ep.value = id then max ep.amount (highest l id) else highest l id := by
  rw [highest, List.filter_cons]
  by_cases h : ep.value = id
  · rw [if_pos (decide_eq_true h), if_pos h]
    rfl
  · rw [if_neg (by simpa using h), if_neg h]
    rfl

theorem highest_le_iff {l : List Resl} {id : String} {n : ℕ} :
    highest l id ≤ n ↔ ∀ ep ∈ l, ep.value = id → ep.amount ≤ n := by
  induction l with
  | nil => simp
  | cons ep l ih =>
    rw [highest_cons, List.forall_mem_cons]
    split_ifs with h
    · rw [max_le_iff, ih]
      simp [h]
    · rw [ih]
      simp [h]

theorem highest_isGreatest (l : List Resl) (id : String) :
    IsGreatest {a | a = 0 ∨ ∃ ep ∈ l, ep.value = id ∧ ep.amount = a} (highest l id) := by
  constructor
  · induction l with
    | nil => exact .inl rfl
    | cons ep l ih =>
      rw [highest_cons]
      have hlater : highest l id = 0 ∨
          ∃ x ∈ ep :: l, x.value = id ∧ x.amount = highest l id :=
        ih.imp_right fun ⟨x, hx, h⟩ => ⟨x, List.mem_cons_of_mem ep hx, h⟩
      split_ifs with h
      · rcases max_choice ep.amount (highest l id) with hmax | hmax
        · exact .inr ⟨ep, .head _, h, hmax.symm⟩
        · rwa [hmax]
      · exact hlater
  · rintro a (rfl | ⟨ep, hep, hid, rfl⟩)
    · exact Nat.zero_le _
    · exact highest_le_iff.mp le_rfl ep hep hid

theorem highest_mono {l l' : List Resl} (h : l ⊆ l') (id : String) : highest l id ≤ highest l' id :=
  highest_le_iff.mpr fun ep hep => highest_le_iff.mp le_rfl ep (h hep)

theorem reslAmount_le_highest (l : List Resl) (id : String) : reslAmount l id ≤ highest l id := by
  rw [reslAmount]
  cases hfind : findResl l id with
  | none => exact Nat.zero_le _
  | some ep =>
    have hvalue : ep.value = id := by simpa using List.find?_some hfind
    exact highest_le_iff.mp le_rfl ep (List.mem_of_find?_eq_some hfind) hvalue

theorem reslAmount_foldl_raiseResl (l taken : List Resl) (id : String) :
    reslAmount (l.foldl raiseResl taken) id = max (reslAmount taken id) (highest l id) := by
  induction l generalizing taken with
  | nil => simp
  | cons ep l ih =>
    rw [List.foldl_cons, ih, reslAmount_raiseResl, highest_cons]
    by_cases h : ep.value = id
    · rw [if_pos h, if_pos h.symm, max_assoc]
    · rw [if_neg h, if_neg (Ne.symm h)]

def windowResl (start stop : ℕ) (d : List Rde) : List Resl :=
  (windowEntries Rde.time start stop d).flatMap Rde.resourceMapList

theorem reslAmount_foldl_raiseEntry (entries : List Rde) (taken : List Resl) (id : String) :
    reslAmount (entries.foldl raiseEntry taken) id =
      max (reslAmount taken id) (highest (entries.flatMap Rde.resourceMapList) id) := by
  rw [← reslAmount_foldl_raiseResl, List.foldl_flatMap]
  rfl

variable {now start : ℕ}

theorem highest_le_utilizationRsmapMax (cr : Usage) (duration : ℕ)
    (hstart : start ≠ dispatchTimeNow) (id : String) :
    highest (windowResl start (utilizationEndtime start duration) (cr.utilized.getD [])) id ≤
      reslAmount (utilizationRsmapMax cr now start duration) id := by
  rw [utilizationRsmapMax, if_neg hstart]
  cases cr.utilized with
  | none => exact Nat.zero_le _
  | some d =>
    dsimp only
    rw [reslAmount_foldl_raiseEntry]
    exact le_max_right _ _

theorem reslAmount_utilizationRsmapMax (cr : Usage) (duration : ℕ)
    (hnow : now < start) (id : String) :
    reslAmount (utilizationRsmapMax cr now start duration) id =
      highest (windowResl start (utilizationEndtime start duration) (cr.utilized.getD [])) id := by
  have hstart : start ≠ dispatchTimeNow := Nat.ne_of_gt (Nat.zero_lt_of_lt hnow)
  rw [utilizationRsmapMax, if_neg hstart, if_neg fun h => absurd h.2 (not_le.mpr hnow)]
  cases cr.utilized with
  | none => rfl
  | some d =>
    dsimp only
    rw [reslAmount_foldl_raiseEntry]
    exact max_eq_right (Nat.zero_le _)

theorem instAt_eq_entryAt (d : List Rde) (id : String) (t : ℕ) : instAt (some d) id t =
    ((entryAt Rde.time d t).map fun e => reslAmount e.resourceMapList id).getD 0 := by
  let amount : Option Rde → ℕ := fun o => (o.map fun e => reslAmount e.resourceMapList id).getD 0
  have hmap : amount (valueAt Rde.time some none d t) =
      valueAt Rde.time (fun e => amount (some e)) (amount none) d t := valueAt_map amount d t
  exact hmap.symm

/-- **No more is held** of an instance at any time of the window. -/
theorem instAt_le_utilizationRsmapMax {cr : Usage} (hd : Spaced 1 Rde.time (cr.utilized.getD []))
    {duration t : ℕ} (hnow : start ≠ dispatchTimeNow) (hstart : start ≤ t)
    (hstop : t < utilizationEndtime start duration) (id : String) :
    instAt cr.utilized id t ≤ reslAmount (utilizationRsmapMax cr now start duration) id := by
  refine le_trans ?_ (highest_le_utilizationRsmapMax cr duration hnow id)
  cases hcr : cr.utilized with
  | none => exact Nat.zero_le _
  | some d =>
    rw [hcr] at hd
    rw [instAt_eq_entryAt]
    cases hentry : entryAt Rde.time d t with
    | none => exact Nat.zero_le _
    | some e =>
      apply (reslAmount_le_highest e.resourceMapList id).trans
      refine highest_mono (fun ep hep => ?_) id
      have hmem := (mem_windowEntries hd).mpr ⟨t, .inr ⟨hstart, hstop⟩, hentry⟩
      exact List.mem_flatMap.mpr ⟨e, hmem, hep⟩

end ClusterScheduler.Sched
