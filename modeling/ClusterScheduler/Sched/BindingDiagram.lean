import ClusterScheduler.Sched.RsmapDiagram

/-!
# Core bindings in the diagram of a host

The entries of the `slots` diagram of a host also say which threads are bound
from their time on. This module asks when that follows the bookings.

* `boundAt` — the threads bound at a time according to a diagram.
* `BindingStep` — what a call has to meet.
* `BindingRun`, `bindingRun_pointwise` — along runs that meet it, the threads
  bound at a time are those of the bookings in force then.

As with instances, an entry made by a call without a binding does not inherit
the one of its neighbour (`binding_lost`).
-/

namespace ClusterScheduler.Sched

open Foundation Sgeobj

def boundSet (e : Rde) : Set ℕ := {x | x ∈ boundThreads e.bindingInuse}

def boundAt (d : Option (List Rde)) (t : ℕ) : Set ℕ :=
  valueAt Rde.time boundSet ∅ (d.getD []) t

theorem mem_boundAt {d : Option (List Rde)} {t x : ℕ} :
    x ∈ boundAt d t ↔
      x ∈ valueAt Rde.time (fun e => boundThreads e.bindingInuse) [] (d.getD []) t := by
  have hempty : {y : ℕ | y ∈ ([] : List ℕ)} = ∅ := by simp
  have h : {y | y ∈ valueAt Rde.time (fun e => boundThreads e.bindingInuse) []
      (d.getD []) t} = boundAt d t := by
    rw [boundAt, ← hempty]
    exact valueAt_map (fun l : List ℕ => {y | y ∈ l}) (d.getD []) t
  rw [← h]
  rfl

def Booking.threads (b : Booking) : Set ℕ :=
  {x | ∃ s ∈ b.bindingTouse, x ∈ usedThreads (parseToTree s)}

/-- The bindings of a call are topologies of the host. -/
def Booking.OnHost (b : Booking) (σ : HostTopology) : Prop :=
  ∀ s ∈ b.bindingTouse, σ.Mask (parseToTree s)

/-! ## The binding of a call -/

section OneCall

variable {σ : HostTopology} {b : Booking} {d : Option (List Rde)}

theorem foldl_mark_spec (bindings : List (List Char)) :
    ∀ {topo : List Node}, (∀ s ∈ bindings, σ.Mask (parseToTree s)) →
      (topo = [] ∨ σ.Mask topo) →
      (bindings ≠ [] ∨ σ.Mask topo → σ.Mask (bindings.foldl
          (fun topo s => markNodesAsUsedOrUnused topo (parseToTree s) true) topo)) ∧
      ∀ x, x ∈ usedThreads (bindings.foldl
          (fun topo s => markNodesAsUsedOrUnused topo (parseToTree s) true) topo) ↔
        x ∈ usedThreads topo ∨ ∃ s ∈ bindings, x ∈ usedThreads (parseToTree s) := by
  induction bindings with
  | nil =>
    intro topo _ _
    exact ⟨fun h => h.resolve_left (fun hne => hne rfl), by simp⟩
  | cons s rest ih =>
    intro topo hmasks htopo
    have hs := hmasks s (.head _)
    have hmark := HostTopology.Mask.mark htopo hs true
    obtain ⟨ih1, ih2⟩ := ih
      (fun x hx => hmasks x (.tail _ hx)) (Or.inr hmark)
    refine ⟨fun _ => ih1 (Or.inr hmark), fun x => ?_⟩
    rw [List.foldl_cons, ih2, HostTopology.mem_usedThreads_mark_true htopo hs]
    simp only [List.mem_cons, exists_eq_or_imp, or_assoc]

theorem Booking.bindingToUse_mask (h : b.OnHost σ) (hne : b.bindingTouse ≠ []) :
    σ.Mask b.bindingToUse :=
  (foldl_mark_spec b.bindingTouse h (Or.inl rfl)).1 (Or.inl hne)

theorem Booking.mem_bindingToUse (h : b.OnHost σ) (x : ℕ) :
    x ∈ usedThreads b.bindingToUse ↔ x ∈ b.threads := by
  rw [Booking.bindingToUse, (foldl_mark_spec b.bindingTouse h (Or.inl rfl)).2]
  simp [Booking.threads]

/-- The condition on a call and the diagram it finds. -/
structure BindingStep (d : Option (List Rde)) (b : Booking) : Prop where
  /-- a call that is not booked ahead carries no binding, or has an empty window -/
  skip : b.skipped d = true → b.bindingTouse = [] ∨ b.endTime = b.startTime
  /-- what an empty window binds is not bound there -/
  apart : b.bindingTouse ≠ [] → b.endTime = b.startTime →
    Disjoint (boundAt d b.startTime) b.threads
  /-- a call without a binding finds its start entry, or nothing is bound there -/
  bareStart : b.bindingTouse = [] →
    (∃ e ∈ d.getD [], e.time = b.startTime) ∨ boundAt d b.startTime = ∅
  /-- and the same at its end -/
  bareEnd : b.bindingTouse = [] →
    (∃ e ∈ afterStart Rde.time b.startTime (d.getD []), e.time = b.endTime) ∨
      boundAt d b.endTime = ∅
  /-- nothing is bound while the amounts from the beginning on are zero -/
  lead : ∀ t, (∀ s ≤ t, amountAt d s + (if b.Covers s then b.utilization else 0) = 0) →
    boundAt d t = ∅ ∧ (b.Covers t → b.threads = ∅)

/-- What holds of the entries between calls. -/
structure BindingSound (σ : HostTopology) (d : Option (List Rde)) : Prop where
  ordered : Spaced 0 Rde.time (d.getD [])
  entries : ∀ e ∈ d.getD [], σ.Holds e.bindingInuse

theorem holds_none : σ.Holds none := Or.inl rfl

variable {source : Option (List Char)}

variable {str : Option (List Char)}

theorem Booking.binding_holds (h : b.OnHost σ)
    (hstr : σ.Holds str) (hsrc : σ.Holds source) (name : String) (used : Bool) :
    σ.Holds (b.binding name str source used) := by
  unfold Booking.binding
  split_ifs with hh
  · have hne : b.bindingTouse ≠ [] := by
      simp only [Booking.handleBinding, Bool.and_eq_true] at hh
      simpa using hh.2
    exact HostTopology.Holds.elemMark hstr hsrc (b.bindingToUse_mask h hne) used
  · exact hstr

theorem Booking.overlay_holds (h : b.OnHost σ) (name : String) {d : List Rde}
    (hP : ∀ e ∈ d, σ.Holds e.bindingInuse) :
    ∀ e ∈ overlay Rde.time (b.window name) none d, σ.Holds e.bindingInuse := by
  refine overlay_all (P := fun e : Rde => σ.Holds e.bindingInuse)
    (Q := fun p : Option Rde => ∀ e ∈ p, σ.Holds e.bindingInuse)
    ?_ (fun e he => b.binding_holds h he he _ _) ?_
    (fun e he => b.binding_holds h holds_none he _ _) (by simp) hP
  · intro e he x hx
    obtain rfl : e = x := by simpa using hx
    exact he
  · intro p hp
    refine b.binding_holds h holds_none ?_ _ _
    cases p with
    | none => exact holds_none
    | some e => exact hp e rfl

theorem Booking.handleBinding_slots (hlevel : b.level = .hostTag) :
    b.handleBinding "slots" = !b.bindingTouse.isEmpty := by
  simp [Booking.handleBinding, hlevel]

/-- Marking the binding of a call in an entry adds its threads. -/
theorem Booking.mem_binding_true (h : b.OnHost σ) (hlevel : b.level = .hostTag) (hstr : σ.Holds str)
    (hsrc : σ.Holds source)
    (hbare : b.bindingTouse = [] → {x | x ∈ boundThreads str} = {x | x ∈ boundThreads source}) :
    {x | x ∈ boundThreads (b.binding "slots" str source true)} =
      {x | x ∈ boundThreads source} ∪ b.threads := by
  unfold Booking.binding
  rw [Booking.handleBinding_slots hlevel]
  by_cases hne : b.bindingTouse = []
  · rw [hne, List.isEmpty_nil, Bool.not_true, if_neg (by simp), hbare hne]
    ext x
    simp [Booking.threads, hne]
  · rw [if_pos (by simpa using hne)]
    ext x
    have hm := b.bindingToUse_mask h hne
    simp only [Set.mem_ofPred_eq, Set.mem_union]
    rw [HostTopology.mem_boundThreads_elemMark_true hstr hsrc hm, Booking.mem_bindingToUse h]

theorem Booking.mem_binding_false (h : b.OnHost σ) (hlevel : b.level = .hostTag)
    (hsrc : σ.Holds source) (hne : b.bindingTouse ≠ []) :
    {x | x ∈ boundThreads (b.binding "slots" none source false)} =
      {x | x ∈ boundThreads source} \ b.threads := by
  unfold Booking.binding
  rw [Booking.handleBinding_slots hlevel, if_pos (by simpa using hne)]
  ext x
  have hm := b.bindingToUse_mask h hne
  simp only [Set.mem_ofPred_eq, Set.mem_sdiff]
  rw [HostTopology.mem_boundThreads_elemMark_false holds_none hsrc hm, Booking.mem_bindingToUse h]

/-- Before normalizing: the call adds its threads on its window. -/
theorem Booking.bound_overlay (hσ : b.OnHost σ) (hlevel : b.level = .hostTag)
    (h : BindingSound σ d) (hstep : BindingStep d b)
    (hapart : ∀ t, b.Covers t → Disjoint (boundAt d t) b.threads) (t : ℕ) :
    boundAt (some (overlay Rde.time (b.window "slots") none (d.getD []))) t =
      if b.Covers t then boundAt d t ∪ b.threads else boundAt d t := by
  have hsource : ∀ p : Option Rde, (∀ e ∈ p, σ.Holds e.bindingInuse) →
      σ.Holds (p.bind (·.bindingInuse)) := by
    intro p hp
    cases p with
    | none => exact holds_none
    | some e => exact hp e rfl
  have hvalue : ∀ p : Option Rde, {x | x ∈ boundThreads (p.bind (·.bindingInuse))} =
      valueOf boundSet ∅ p := by
    intro p
    cases p with
    | none => simp [valueOf, boundThreads, bindingNow]
    | some e => rfl
  refine valueAt_overlay_none (P := fun e : Rde => σ.Holds e.bindingInuse)
    (f := (· ∪ b.threads)) boundSet ∅ (b.window_timed "slots")
    (fun e he => b.binding_holds hσ he he _ _)
    (fun p hp => b.binding_holds hσ holds_none (hsource p hp) _ _)
    h.ordered h.entries ?_ ?_ ?_ t
  · intro e he _ _
    exact Booking.mem_binding_true hσ hlevel (h.entries e he) (h.entries e he)
      (fun _ => rfl)
  · intro p hp hno hval
    rw [← hval, ← hvalue p]
    refine Booking.mem_binding_true hσ hlevel holds_none (hsource p hp) ?_
    intro hnil
    rcases hstep.bareStart hnil with ⟨e, he, het⟩ | hempty
    · exact absurd het (hno e he)
    · rw [hvalue p, hval]
      refine Eq.trans ?_ hempty.symm
      simp [boundThreads, bindingNow]
  · intro p hp hno hval
    change boundSet p = boundAt d b.endTime ∪ b.threads at hval
    show {x | x ∈ boundThreads (b.binding "slots" none p.bindingInuse false)} =
      boundAt d b.endTime
    by_cases hne : b.bindingTouse = []
    · have hbare : b.binding "slots" none p.bindingInuse false = none := by
        simp [Booking.binding, Booking.handleBinding, hne]
      rcases hstep.bareEnd hne with ⟨e, he, het⟩ | hempty
      · exact absurd het (hno e he)
      · rw [hbare, hempty]
        simp [boundThreads, bindingNow]
    · -- the threads of the call are not otherwise bound up to its end
      have hdis : Disjoint (boundAt d b.endTime) b.threads := by
        rcases Nat.lt_or_ge b.startTime b.endTime with hlt | hge
        · rw [boundAt, valueAt_stop h.ordered hlt hno]
          exact hapart _ ⟨by omega, by omega⟩
        · have heq : b.endTime = b.startTime := Nat.le_antisymm hge b.start_le_end
          rw [heq]
          exact hstep.apart hne heq
      rw [Booking.mem_binding_false hσ hlevel hp hne]
      change boundSet p \ b.threads = _
      rw [hval, Set.union_sdiff_right, sdiff_eq_left.mpr hdis]

theorem bound_normalize {d : List Rde} (hd : Spaced 0 Rde.time d)
    (hlead : ∀ t, (∀ s ≤ t, valueAt Rde.time Rde.amount 0 d s = 0) → boundAt (some d) t = ∅)
    (t : ℕ) : boundAt (some (utilizationNormalize d)) t = boundAt (some d) t := by
  refine valueAt_compact (P := fun _ => True) ?_ hd (fun _ _ => trivial) ?_ t
  · intro e e' _ _ h
    simp only [sameEntry, Bool.and_eq_true, decide_eq_true_eq] at h
    rw [boundSet, boundSet, h.1.2]
  · intro t ht
    refine hlead t fun s hs =>
      valueAt_of_idle (fun e => e.amount = 0) (by simp) ?_
    exact fun e he => Nat.lt_of_le_of_lt hs (ht e he)

theorem overlay_ordered (h : BindingSound σ d) (b : Booking) (name : String) :
    Spaced 0 Rde.time (overlay Rde.time (b.window name) none (d.getD [])) :=
  overlay_spaced (Nat.zero_le 1) (b.window_timed name) b.start_le_end h.ordered

variable {cr : Rue}

theorem BindingSound.add (hσ : b.OnHost σ)
    (h : BindingSound σ (cr.diagram b.implicitNonExclusive)) :
    BindingSound σ ((utilizationAdd cr b).diagram b.implicitNonExclusive) := by
  cases hskip : b.skipped (cr.diagram b.implicitNonExclusive) with
  | true => rw [utilizationAdd_of_skipped hskip]; exact h
  | false =>
    rw [utilizationAdd_of_not_skipped hskip, Rue.diagram_setDiagram, if_pos rfl]
    exact ⟨compact_spaced (overlay_ordered h b cr.name), fun e he =>
      b.overlay_holds hσ cr.name h.entries e ((compact_sublist _).subset he)⟩

/-- **One call.** Under its condition a call on the slots of a host adds its
threads on its window and changes nothing elsewhere. -/
theorem boundAt_add (hname : cr.name = "slots") (hσ : b.OnHost σ)
    (hlevel : b.level = .hostTag) (h : BindingSound σ (cr.diagram b.implicitNonExclusive))
    (hstep : BindingStep (cr.diagram b.implicitNonExclusive) b) (hapart : ∀ t, b.Covers t →
      Disjoint (boundAt (cr.diagram b.implicitNonExclusive) t) b.threads) (t : ℕ) :
    boundAt ((utilizationAdd cr b).diagram b.implicitNonExclusive) t =
      if b.Covers t then
        boundAt (cr.diagram b.implicitNonExclusive) t ∪ b.threads
      else boundAt (cr.diagram b.implicitNonExclusive) t := by
  cases hskip : b.skipped (cr.diagram b.implicitNonExclusive) with
  | true =>
    rw [utilizationAdd_of_skipped hskip]
    rcases hstep.skip hskip with hbare | hempty
    · have hnone : b.threads = ∅ := by simp [Booking.threads, hbare]
      rw [hnone, Set.union_empty, ite_self]
    · rw [if_neg (Booking.not_covers hempty t)]
  | false =>
    rw [utilizationAdd_of_not_skipped hskip, Rue.diagram_setDiagram, if_pos rfl,
      hname, bound_normalize (overlay_ordered h b "slots") ?_ t,
      Booking.bound_overlay hσ hlevel h hstep hapart]
    intro t ht
    rw [Booking.bound_overlay hσ hlevel h hstep hapart]
    obtain ⟨hold, hnew⟩ := hstep.lead t fun s hs => by
      have := ht s hs
      rw [b.amount_overlay "slots" h.ordered] at this
      exact this
    split_ifs with hc
    · rw [hold, hnew hc, Set.union_empty]
    · exact hold

end OneCall

/-! ## Runs -/

/-- Runs of bookings into one `slots` diagram of a host with topology `σ`.
Bookings whose windows overlap bind different threads; every call meets
`BindingStep`. -/
inductive BindingRun (σ : HostTopology) (nonExclusive : Bool) :
    Rue → List Booking → Prop
  | start : BindingRun σ nonExclusive (Rue.fresh "slots") []
  | book {cr : Rue} {booked : List Booking} (b : Booking)
      (run : BindingRun σ nonExclusive cr booked)
      (here : b.implicitNonExclusive = nonExclusive) (level : b.level = .hostTag)
      (host : b.OnHost σ)
      (apart : ∀ c ∈ booked, ∀ t, b.Covers t → c.Covers t → Disjoint c.threads b.threads)
      (step : BindingStep (cr.diagram nonExclusive) b) :
      BindingRun σ nonExclusive (utilizationAdd cr b) (b :: booked)

section Runs

variable {σ : HostTopology} {x : Bool} {cr : Rue} {booked : List Booking}

variable (run : BindingRun σ x cr booked)
include run

theorem BindingRun.name : cr.name = "slots" := by
  induction run with
  | start => rfl
  | book b _ _ _ _ _ _ ih => rw [utilizationAdd_name, ih]

theorem BindingRun.sound : BindingSound σ (cr.diagram x) := by
  induction run with
  | start =>
    cases x <;> exact ⟨List.Pairwise.nil, by simp [Rue.fresh, Rue.diagram]⟩
  | book b _ here _ host _ _ ih =>
    subst here
    exact BindingSound.add host ih

theorem bindingRun_law (t : ℕ) :
    boundAt (cr.diagram x) t = {y | ∃ b ∈ booked, b.Covers t ∧ y ∈ b.threads} := by
  induction run generalizing t with
  | start => cases x <;> simp [Rue.fresh, Rue.diagram, boundAt]
  | @book cr booked b run here level host apart step ih =>
    subst here
    have hapart : ∀ t, b.Covers t →
        Disjoint (boundAt (cr.diagram b.implicitNonExclusive) t) b.threads := by
      intro t ht
      rw [ih, Set.disjoint_left]
      rintro y ⟨c, hc, hct, hy⟩ hyb
      exact Set.disjoint_left.mp (apart c hc t ht hct) hy hyb
    rw [boundAt_add run.name host level run.sound step hapart, ih]
    ext y
    split_ifs with hc
    · simp only [Set.mem_union, Set.mem_ofPred_eq, List.mem_cons, exists_eq_or_imp, hc, true_and]
      exact or_comm
    · simp only [Set.mem_ofPred_eq, List.mem_cons, exists_eq_or_imp, hc, false_and, false_or]

omit run

/-- **Bindings follow the bookings.** In every run whose calls meet the
condition, the threads the diagram says are bound at a time are exactly those
of the bookings whose window contains it; and a further call without a binding
that meets the condition changes this at no time. -/
theorem bindingRun_pointwise (run : BindingRun σ x cr booked) :
    (∀ t, boundAt (cr.diagram x) t = {y | ∃ b ∈ booked, b.Covers t ∧ y ∈ b.threads}) ∧
    ∀ b : Booking, b.implicitNonExclusive = x → b.level = .hostTag →
      b.bindingTouse = [] → BindingStep (cr.diagram x) b → ∀ t,
      boundAt ((utilizationAdd cr b).diagram x) t = boundAt (cr.diagram x) t := by
  refine ⟨bindingRun_law run, ?_⟩
  rintro b rfl hlevel hnil hstep t
  have hnone : b.threads = ∅ := by simp [Booking.threads, hnil]
  rw [boundAt_add run.name (fun s hs => by simp [hnil] at hs) hlevel run.sound hstep
    (fun t _ => by rw [hnone]; exact Set.disjoint_empty _), hnone, Set.union_empty, ite_self]

end Runs

/-- A job on a host with one socket of two cores, bound or not. -/
def coreCall (startTime duration : ℕ) (bindings : List (List Char))
    (hs : startTime < 2 ^ 64) (hd : duration < 2 ^ 64) : Booking where
  startTime := startTime
  duration := duration
  utilization := 1
  level := .hostTag
  forJob := true
  implicitNonExclusive := false
  bindingTouse := bindings
  rsmapInuse := []
  maxReservations := 1
  start_lt := hs
  duration_lt := hd

def twoCores : HostTopology :=
  HostTopology.ofString "(S(C(T)(T))(C(T)(T)))".toList (by decide +kernel)

/-- A job bound to the first core, in an empty diagram. -/
theorem bindingRun_pointwise_core :
    let b := coreCall 100 50 ["(S(c(t)(t))(C(T)(T)))".toList] (by decide) (by decide)
    BindingRun twoCores false (utilizationAdd (Rue.fresh "slots") b) [b] ∧
      boundAt (utilizationAdd (Rue.fresh "slots") b).utilized 120 =
        {y | ∃ c ∈ [b], c.Covers 120 ∧ y ∈ c.threads} := by
  intro b
  have hstep : BindingStep ((Rue.fresh "slots").diagram false) b := by
    refine ⟨by decide, fun _ h => absurd h (by decide), fun h => absurd h (by decide),
      fun h => absurd h (by decide), fun t ht => ⟨rfl, fun hc => ?_⟩⟩
    have h1 := ht t (Nat.le_refl t)
    have hzero : amountAt ((Rue.fresh "slots").diagram false) t = 0 := rfl
    rw [if_pos hc, hzero] at h1
    exact absurd h1 (by decide +kernel)
  have hhost : b.OnHost twoCores := by
    intro s hs
    obtain rfl : s = "(S(c(t)(t))(C(T)(T)))".toList := by
      simpa [b, coreCall] using hs
    exact ⟨by decide +kernel, by decide +kernel⟩
  have hrun : BindingRun twoCores false (utilizationAdd (Rue.fresh "slots") b) [b] :=
    .book b .start rfl rfl hhost (by simp) hstep
  exact ⟨hrun, (bindingRun_pointwise hrun).1 120⟩

/-- The first core is bound from 100 to 150. A job without a binding from 110
to 120 makes its start entry without it. -/
theorem binding_lost :
    let booked := utilizationAdd (Rue.fresh "slots")
      (coreCall 100 50 ["(S(c(t)(t))(C(T)(T)))".toList] (by decide) (by decide))
    let cr := utilizationAdd booked (coreCall 110 10 [] (by decide) (by decide))
    3 ∈ boundAt booked.utilized 115 ∧ 3 ∉ boundAt cr.utilized 115 := by
  intro booked cr
  rw [mem_boundAt, mem_boundAt]
  decide +kernel

end ClusterScheduler.Sched
