import ClusterScheduler.Foundation.Binary64
import ClusterScheduler.Foundation.StepFunction
import ClusterScheduler.Sgeobj.TopologyMarking

/-!
# Resource utilization diagrams

Every resource of a queue, a host or the whole cluster has a diagram: a list of
entries ordered by time, each saying what is taken from its time on. Bookings
and reservations are added to it and withdrawn from it with one function.

* `Rde`, `Rue` — a diagram entry and the resource it belongs to.
* `Booking` — the arguments of one `utilizationAdd` call.
* `utilizationEndtime`, `utilizationRsmapSet`, `utilizationNormalize`,
  `utilizationAdd` — the functions of the source.
* `IsDiagram`, `utilizationAdd_pointwise` — every diagram that calls can build
  is well formed, and a call adds its amount on its window.
-/

namespace ClusterScheduler.Sched

open Foundation Sgeobj

/-! ## Data -/

/-- How much of one instance of a resource map is taken. -/
structure Resl where
  value : String
  amount : ℕ
  deriving DecidableEq

/-- A diagram entry: from `time` on, `amount` is taken, with these instances of
a resource map and these threads. -/
structure Rde where
  time : ℕ
  amount : ℚ
  resourceMapList : List Resl
  bindingInuse : Option (List Char)

/-- The utilization of one resource. A diagram that was never booked into does
not exist. -/
structure Rue where
  name : String
  utilized : Option (List Rde)
  utilizedNonexclusive : Option (List Rde)

/-- Where a request is satisfied. -/
inductive Tag where
  | noTag | queueTag | hostTag | globalTag | peTag | rqsTag
  deriving DecidableEq

/-- One call: a window, an amount, and what is booked along with it. An empty
`bindingTouse` is the absent list. `maxReservations` is the configured number
at the time of the call. -/
structure Booking where
  startTime : ℕ
  duration : ℕ
  utilization : ℚ
  level : Tag
  forJob : Bool
  implicitNonExclusive : Bool
  bindingTouse : List (List Char)
  rsmapInuse : List Resl
  maxReservations : ℕ
  start_lt : startTime < 2 ^ 64 := by decide
  duration_lt : duration < 2 ^ 64 := by decide

/-! ## The functions of the source -/

def uint64Max : ℕ := 2 ^ 64 - 1

/-- The end of a window, capped when the sum, computed with doubles, reaches
the largest time. -/
def utilizationEndtime (start duration : ℕ) : ℕ :=
  if toBinary64 (toBinary64 start + toBinary64 duration) < toBinary64 uint64Max
  then (start + duration) % 2 ^ 64
  else uint64Max

/-- Change the first element of an identifier, or remove it. -/
def adjustResl (id : String) (f : ℕ → Option ℕ) : List Resl → List Resl
  | [] => []
  | r :: rest =>
    if r.value = id then
      match f r.amount with
      | some amount => { r with amount := amount } :: rest
      | none => rest
    else r :: adjustResl id f rest

/-- One identifier of a change. Giving back what is not held does nothing. -/
def rsmapSetOne (add : Bool) (ids : List Resl) (ch : Resl) : List Resl :=
  if add then
    if ids.any (·.value = ch.value) then
      adjustResl ch.value (fun inUse => some ((inUse + ch.amount) % 2 ^ 32)) ids
    else ids ++ [{ value := ch.value, amount := ch.amount % 2 ^ 32 }]
  else
    adjustResl ch.value
      (fun inUse => if ch.amount < inUse then some (inUse - ch.amount) else none)
      ids

def utilizationRsmapSet (previous change : List Resl) (add : Bool) : List Resl :=
  change.foldl (rsmapSetOne add) previous

def findResl (ids : List Resl) (id : String) : Option Resl :=
  ids.find? (·.value = id)

def utilizationRsmapEqual (a b : List Resl) : Bool :=
  a.length = b.length &&
    a.all fun ep => (findResl b ep.value).map (·.amount) = some ep.amount

def sameEntry (prev e : Rde) : Bool :=
  prev.amount = e.amount && prev.bindingInuse = e.bindingInuse &&
    utilizationRsmapEqual prev.resourceMapList e.resourceMapList

def utilizationNormalize (diagram : List Rde) : List Rde :=
  compact (fun e => e.amount = 0) sameEntry diagram

namespace Booking

variable (b : Booking)

def endTime : ℕ := utilizationEndtime b.startTime b.duration

def bindingToUse : List Node :=
  b.bindingTouse.foldl
    (fun topo s => markNodesAsUsedOrUnused topo (parseToTree s) true) []

def handleBinding (name : String) : Bool :=
  b.level = .hostTag && name = "slots" && !b.bindingTouse.isEmpty

def handleRsmap : Bool :=
  (b.level = .hostTag || b.level = .globalTag) && !b.rsmapInuse.isEmpty

def rsmapTaken : Bool := 0 ≤ b.utilization

/-- The string of an entry after the binding of the call. `str` is what the
entry holds, `source` where the marking starts. -/
def binding (name : String) (str source : Option (List Char)) (used : Bool) :
    Option (List Char) :=
  if b.handleBinding name then
    elemMarkNodesAsUsedOrUnused str (bindingNow source) b.bindingToUse used
  else str

def rsmap (own source : List Resl) (add : Bool) : List Resl :=
  if b.handleRsmap then utilizationRsmapSet source b.rsmapInuse add else own

/-- An entry inside the window. -/
def increment (name : String) (e : Rde) : Rde where
  time := e.time
  amount := e.amount + b.utilization
  resourceMapList := b.rsmap e.resourceMapList e.resourceMapList b.rsmapTaken
  bindingInuse := b.binding name e.bindingInuse e.bindingInuse true

/-- A new entry at the start of the window, built from the one before it. -/
def startEntry (name : String) (prev : Option Rde) : Rde where
  time := b.startTime
  amount := b.utilization + (prev.map (·.amount)).getD 0
  resourceMapList :=
    b.rsmap [] ((prev.map (·.resourceMapList)).getD []) b.rsmapTaken
  bindingInuse := b.binding name none (prev.bind (·.bindingInuse)) true

/-- A new entry at the end of the window, built from the last one inside. -/
def endEntry (name : String) (prev : Rde) : Rde where
  time := b.endTime
  amount := prev.amount - b.utilization
  resourceMapList := b.rsmap [] prev.resourceMapList (!b.rsmapTaken)
  bindingInuse := b.binding name none prev.bindingInuse false

/-- What the call does to a diagram, as a window. -/
def window (name : String) : Window Rde where
  start := b.startTime
  stop := b.endTime
  upd := b.increment name
  mkStart := b.startEntry name
  mkStop := b.endEntry name

/-- A job is only booked ahead when reservation is configured and the job has a
duration, or when the diagram exists already. -/
def skipped (diagram : Option (List Rde)) : Bool :=
  b.forJob && (b.maxReservations = 0 || b.duration = 0) && diagram.isNone

end Booking

namespace Rue

def diagram (cr : Rue) (nonExclusive : Bool) : Option (List Rde) :=
  if nonExclusive then cr.utilizedNonexclusive else cr.utilized

def setDiagram (cr : Rue) (nonExclusive : Bool) (d : List Rde) : Rue :=
  if nonExclusive then { cr with utilizedNonexclusive := some d }
  else { cr with utilized := some d }

def fresh (name : String) : Rue := ⟨name, none, none⟩

end Rue

/-- Find the start entry or make one, update what lies in the window, find the
end entry or make one, normalize. -/
def utilizationAdd (cr : Rue) (b : Booking) : Rue :=
  let diagram := cr.diagram b.implicitNonExclusive
  if b.skipped diagram then cr
  else
    cr.setDiagram b.implicitNonExclusive (utilizationNormalize
      (overlay Rde.time (b.window cr.name) none (diagram.getD [])))

def utilizationAddAll (cr : Rue) (calls : List Booking) : Rue :=
  calls.foldl utilizationAdd cr

def amountAt (d : Option (List Rde)) (t : ℕ) : ℚ :=
  valueAt Rde.time Rde.amount 0 (d.getD []) t

/-- Two entries say the same: amount, binding, and instances up to order. -/
def SameState (e e' : Rde) : Prop :=
  e.amount = e'.amount ∧ e.bindingInuse = e'.bindingInuse ∧
    e.resourceMapList.Perm e'.resourceMapList

/-- A well formed diagram. -/
structure IsDiagram (d : List Rde) : Prop where
  increasing : Spaced 1 Rde.time d
  head : ∀ e, d.head? = some e → e.amount ≠ 0
  neighbours : d.IsChain (fun e e' => ¬ SameState e e')
  last : ∀ e, d.getLast? = some e → e.amount = 0

/-! ## The end of a window -/

theorem utilizationEndtime_cases {s d : ℕ} (hs : s < 2 ^ 64) (hd : d < 2 ^ 64) :
    utilizationEndtime s d = s + d ∨ utilizationEndtime s d = uint64Max := by
  unfold utilizationEndtime
  split_ifs with h
  · left
    have hmax : toBinary64 uint64Max = 2 ^ 64 := by decide
    have hlt : s + d < 2 ^ 64 := by
      by_contra hge
      have := le_toBinary64_add hs hd (by omega)
      omega
    exact Nat.mod_eq_of_lt hlt
  · exact Or.inr rfl

theorem Booking.start_le_end (b : Booking) : b.startTime ≤ b.endTime := by
  have hs := b.start_lt
  unfold Booking.endTime
  rcases utilizationEndtime_cases b.start_lt b.duration_lt with h | h <;> rw [h]
  · omega
  · unfold uint64Max
    omega

variable {b : Booking}

/-- A window is empty only for a duration of zero or the last point in time. -/
theorem Booking.start_lt_end (hd : 0 < b.duration)
    (hs : b.startTime ≠ uint64Max) : b.startTime < b.endTime := by
  have hlt := b.start_lt
  unfold uint64Max at hs
  unfold Booking.endTime
  rcases utilizationEndtime_cases b.start_lt b.duration_lt with h | h <;> rw [h]
  · omega
  · unfold uint64Max
    omega

theorem Booking.window_timed (b : Booking) (name : String) : (b.window name).Timed Rde.time where
  le := b.start_le_end
  upd := fun _ => rfl
  start := fun _ => rfl
  stop := fun _ => rfl

/-! ## Instances of an entry -/

/-- No identifier is listed twice. -/
def DistinctIds (ids : List Resl) : Prop := (ids.map (·.value)).Nodup

theorem adjustResl_values_sublist (id : String) (f : ℕ → Option ℕ) (ids : List Resl) :
    ((adjustResl id f ids).map (·.value)).Sublist (ids.map (·.value)) := by
  induction ids with
  | nil => exact List.Sublist.slnil
  | cons r rest ih =>
    rw [adjustResl]
    split_ifs with h
    · cases f r.amount with
      | none => exact (List.Sublist.refl _).cons _
      | some a => exact List.Sublist.refl _
    · exact ih.cons_cons _

variable {ids : List Resl}

theorem rsmapSetOne_distinct (add : Bool)
    (h : DistinctIds ids) (ch : Resl) : DistinctIds (rsmapSetOne add ids ch) := by
  unfold rsmapSetOne
  split_ifs with hadd hany
  · exact h.sublist (adjustResl_values_sublist _ _ _)
  · unfold DistinctIds at h ⊢
    rw [List.map_append, List.nodup_append']
    refine ⟨h, by simp, ?_⟩
    intro x hx hx'
    obtain rfl : x = ch.value := by simpa using hx'
    exact hany (by simpa using hx)
  · exact h.sublist (adjustResl_values_sublist _ _ _)

theorem utilizationRsmapSet_distinct {add : Bool} (change : List Resl) :
    ∀ {ids : List Resl}, DistinctIds ids →
      DistinctIds (utilizationRsmapSet ids change add) := by
  induction change with
  | nil => exact fun h => h
  | cons ch rest ih => exact fun h => ih (rsmapSetOne_distinct add h ch)

theorem findResl_of_mem (h : DistinctIds ids) {r : Resl}
    (hr : r ∈ ids) : findResl ids r.value = some r := by
  induction ids with
  | nil => simp at hr
  | cons x rest ih =>
    obtain ⟨hx, hrest⟩ := List.nodup_cons.mp h
    unfold findResl at ih ⊢
    rcases List.mem_cons.mp hr with rfl | hr
    · simp
    · have hne : ¬ x.value = r.value := fun heq =>
        hx (List.mem_map.mpr ⟨r, hr, heq.symm⟩)
      rw [List.find?_cons_of_neg (by simpa using hne)]
      exact ih hrest hr

theorem sameEntry_of_sameState {e e' : Rde} (h' : DistinctIds e'.resourceMapList)
    (h : SameState e e') : sameEntry e e' = true := by
  obtain ⟨ha, hb, hp⟩ := h
  have hall : ∀ r ∈ e.resourceMapList,
      (findResl e'.resourceMapList r.value).map (·.amount) = some r.amount := by
    intro r hr
    rw [findResl_of_mem h' (hp.mem_iff.mp hr)]
    rfl
  simp [sameEntry, utilizationRsmapEqual, ha, hb, hp.length_eq]
  simpa using hall

theorem Booking.rsmap_distinct (b : Booking) {own source : List Resl}
    (ho : DistinctIds own) (hs : DistinctIds source) (add : Bool) :
    DistinctIds (b.rsmap own source add) := by
  unfold Booking.rsmap
  split_ifs
  · exact utilizationRsmapSet_distinct _ hs
  · exact ho

variable {d : List Rde}

theorem Booking.overlay_distinct (b : Booking) (name : String)
    (hd : ∀ e ∈ d, DistinctIds e.resourceMapList) :
    ∀ e ∈ overlay Rde.time (b.window name) none d, DistinctIds e.resourceMapList := by
  have hnil : DistinctIds [] := List.nodup_nil
  refine overlay_all (P := fun e : Rde => DistinctIds e.resourceMapList)
    (Q := fun p : Option Rde => ∀ e ∈ p, DistinctIds e.resourceMapList)
    ?_ ?_ ?_ ?_ (by simp) hd
  · intro e he x hx
    obtain rfl : e = x := by simpa using hx
    exact he
  · exact fun e he => b.rsmap_distinct he he _
  · intro p hp
    refine b.rsmap_distinct hnil ?_ _
    cases p with
    | none => exact hnil
    | some e => exact hp e rfl
  · exact fun e he => b.rsmap_distinct hnil he _

/-! ## Amounts -/

theorem Booking.amount_overlay (b : Booking) (name : String) (hd : Spaced 0 Rde.time d) (t : ℕ) :
    valueAt Rde.time Rde.amount 0 (overlay Rde.time (b.window name) none d) t =
      valueAt Rde.time Rde.amount 0 d t +
        if b.startTime ≤ t ∧ t < b.endTime then b.utilization else 0 := by
  have h : valueAt Rde.time Rde.amount 0
      (overlay Rde.time (b.window name) none d) t =
      if b.startTime ≤ t ∧ t < b.endTime then
        valueAt Rde.time Rde.amount 0 d t + b.utilization
      else valueAt Rde.time Rde.amount 0 d t := by
    refine valueAt_overlay_none (P := fun _ => True) (f := (· + b.utilization))
      Rde.amount 0 (b.window_timed name) (fun _ _ => trivial)
      (fun _ _ => trivial) hd (fun _ _ => trivial) (fun _ _ _ _ => rfl) ?_ ?_ t
    · intro p _ _ hp
      rw [← hp, add_comm]
      cases p <;> rfl
    · intro p _ _ hp
      show p.amount - b.utilization = _
      rw [hp]
      exact add_sub_cancel_right _ _
  rw [h]
  split_ifs
  · rfl
  · rw [add_zero]

theorem amount_normalize (hd : Spaced 0 Rde.time d) (t : ℕ) :
    valueAt Rde.time Rde.amount 0 (utilizationNormalize d) t =
      valueAt Rde.time Rde.amount 0 d t := by
  refine valueAt_compact (P := fun _ => True) ?_ hd (fun _ _ => trivial) ?_ t
  · intro e e' _ _ h
    simp only [sameEntry, Bool.and_eq_true, decide_eq_true_eq] at h
    exact h.1.1
  · exact fun t ht => valueAt_of_idle _ (fun e he => by simpa using he) ht

/-! ## Every reachable diagram -/

/-- What holds of the diagrams of a resource between calls. -/
structure Sound (d : List Rde) : Prop extends IsDiagram d where
  distinct : ∀ e ∈ d, DistinctIds e.resourceMapList

theorem sound_nil : Sound [] where
  increasing := List.Pairwise.nil
  head := by simp
  neighbours := List.IsChain.nil
  last := by simp
  distinct := by simp

theorem IsDiagram.eventually_zero (h : IsDiagram d) {t : ℕ}
    (ht : ∀ e ∈ d, e.time ≤ t) : valueAt Rde.time Rde.amount 0 d t = 0 := by
  cases he : d.getLast? with
  | none => rw [List.getLast?_eq_none_iff.mp he, valueAt_nil]
  | some e => rw [valueAt_getLast ht he, h.last e he]

/-- One call on a sound diagram leaves a sound diagram. -/
theorem Booking.sound (name : String) (hlt : b.startTime < b.endTime) (hd : Sound d) :
    Sound (utilizationNormalize (overlay Rde.time (b.window name) none d)) := by
  have htimed := b.window_timed name
  have hspaced : Spaced 1 Rde.time (overlay Rde.time (b.window name) none d) :=
    overlay_spaced (Nat.le_refl 1) htimed hlt hd.increasing
  have hdist := b.overlay_distinct name hd.distinct
  set o := overlay Rde.time (b.window name) none d with ho
  have hsub : ∀ e ∈ utilizationNormalize o, e ∈ o := (compact_sublist o).subset
  refine ⟨⟨compact_spaced hspaced, ?_, ?_, ?_⟩, fun e he => hdist e (hsub e he)⟩
  · intro e he
    simpa using compact_head he
  · refine (compact_isChain o).imp_of_mem_imp ?_
    intro e e' _ he' hne hsame
    rw [sameEntry_of_sameState (hdist e' (hsub e' he')) hsame] at hne
    exact absurd hne (by simp)
  · -- late enough, the old diagram, the window and the new diagram are all over
    intro e he
    obtain ⟨t, hto, htd, htb⟩ : ∃ t, (∀ e ∈ utilizationNormalize o, e.time ≤ t) ∧
        (∀ e ∈ d, e.time ≤ t) ∧ b.endTime ≤ t := by
      refine ⟨((utilizationNormalize o).map (·.time)).sum + (d.map (·.time)).sum +
        b.endTime, ?_, ?_, by omega⟩
      · intro x hx
        have := List.single_le_sum (l := (utilizationNormalize o).map (·.time))
          (by simp) x.time (List.mem_map_of_mem hx)
        omega
      · intro x hx
        have := List.single_le_sum (l := d.map (·.time)) (by simp) x.time
          (List.mem_map_of_mem hx)
        omega
    have hval : valueAt Rde.time Rde.amount 0 (utilizationNormalize o) t =
        e.amount := valueAt_getLast hto he
    rw [← hval, amount_normalize hspaced.ordered, b.amount_overlay name hd.increasing.ordered,
      hd.toIsDiagram.eventually_zero htd, if_neg (by omega), add_zero]

/-- Both diagrams of a resource are sound. -/
def Rue.Sound (cr : Rue) : Prop :=
  ∀ nonExclusive, Sched.Sound ((cr.diagram nonExclusive).getD [])

@[simp] theorem Rue.diagram_setDiagram (cr : Rue) (x y : Bool) (d : List Rde) :
    (cr.setDiagram x d).diagram y = if x = y then some d else cr.diagram y := by
  cases x <;> cases y <;> rfl

variable {cr : Rue}

theorem utilizationAdd_of_skipped (h : b.skipped (cr.diagram b.implicitNonExclusive) = true) :
    utilizationAdd cr b = cr := if_pos h

theorem utilizationAdd_of_not_skipped (h : b.skipped (cr.diagram b.implicitNonExclusive) = false) :
    utilizationAdd cr b = cr.setDiagram b.implicitNonExclusive
      (utilizationNormalize (overlay Rde.time (b.window cr.name) none
        ((cr.diagram b.implicitNonExclusive).getD []))) :=
  if_neg (by simp [h])

theorem utilizationAdd_name (cr : Rue) (b : Booking) : (utilizationAdd cr b).name = cr.name := by
  unfold utilizationAdd Rue.setDiagram
  dsimp only
  split_ifs <;> rfl

theorem utilizationAdd_sound (hcr : cr.Sound)
    (hlt : b.startTime < b.endTime) : (utilizationAdd cr b).Sound := by
  cases h : b.skipped (cr.diagram b.implicitNonExclusive) with
  | true => rw [utilizationAdd_of_skipped h]; exact hcr
  | false =>
    rw [utilizationAdd_of_not_skipped h]
    intro nonExclusive
    rw [Rue.diagram_setDiagram]
    split_ifs with hx
    · subst hx
      exact Booking.sound cr.name hlt (hcr _)
    · exact hcr nonExclusive

/-- The entries of both diagrams are in order. -/
def Rue.Ordered (cr : Rue) : Prop :=
  ∀ nonExclusive, Spaced 0 Rde.time ((cr.diagram nonExclusive).getD [])

theorem Rue.Sound.ordered (h : cr.Sound) : cr.Ordered :=
  fun nonExclusive => (h nonExclusive).increasing.ordered

/-- The order is kept by every call, whatever its window. -/
theorem Rue.Ordered.add (h : cr.Ordered) (b : Booking) : (utilizationAdd cr b).Ordered := by
  cases hskip : b.skipped (cr.diagram b.implicitNonExclusive) with
  | true => rwa [utilizationAdd_of_skipped hskip]
  | false =>
    rw [utilizationAdd_of_not_skipped hskip]
    intro nonExclusive
    rw [Rue.diagram_setDiagram]
    split_ifs
    · apply compact_spaced
      exact overlay_spaced (Nat.zero_le 1) (b.window_timed cr.name) b.start_le_end (h _)
    · exact h nonExclusive

theorem amountAt_utilizationAdd (hcr : cr.Ordered)
    (hskip : b.skipped (cr.diagram b.implicitNonExclusive) = false) (nonExclusive : Bool)
    (t : ℕ) : amountAt ((utilizationAdd cr b).diagram nonExclusive) t =
      amountAt (cr.diagram nonExclusive) t +
        if b.implicitNonExclusive = nonExclusive ∧ b.startTime ≤ t ∧ t < b.endTime then
          b.utilization
        else 0 := by
  have hspaced := hcr b.implicitNonExclusive
  rw [utilizationAdd_of_not_skipped hskip, Rue.diagram_setDiagram]
  by_cases hx : b.implicitNonExclusive = nonExclusive
  · rw [if_pos hx, amountAt, Option.getD_some, amount_normalize
      (overlay_spaced (Nat.zero_le 1) (b.window_timed cr.name) b.start_le_end hspaced),
      b.amount_overlay cr.name hspaced, hx]
    simp only [true_and]
    rfl
  · rw [if_neg hx, if_neg fun h => hx h.1, add_zero]

theorem utilizationAddAll_sound {calls : List Booking} :
    ∀ {cr : Rue}, cr.Sound →
      (∀ b ∈ calls, 0 < b.duration ∧ b.startTime ≠ uint64Max) →
      (utilizationAddAll cr calls).Sound := by
  induction calls with
  | nil => exact fun hcr _ => hcr
  | cons b rest ih =>
    intro cr hcr hcalls
    obtain ⟨hd, hs⟩ := hcalls b (.head _)
    exact ih (utilizationAdd_sound hcr (Booking.start_lt_end hd hs))
      fun c hc => hcalls c (.tail _ hc)

theorem Rue.fresh_sound (name : String) : (Rue.fresh name).Sound := by
  intro nonExclusive
  cases nonExclusive <;> exact sound_nil

/-- **Pointwise addition.** Take any diagram that calls with a duration build
from nothing, and one more such call. Either the call is one of those that are
not booked ahead, and nothing changes; or the amount in force grows by
`utilization` exactly on the window `[startTime, endTime)`. In both cases the
diagrams stay well formed. -/
theorem utilizationAdd_pointwise (name : String) (calls : List Booking) (b : Booking)
    (hcalls : ∀ c ∈ b :: calls, 0 < c.duration ∧ c.startTime ≠ uint64Max) :
    let cr := utilizationAddAll (Rue.fresh name) calls
    let d := cr.diagram b.implicitNonExclusive
    let cr' := utilizationAdd cr b
    (b.skipped d = true → cr' = cr) ∧
    (b.skipped d = false → ∀ t, amountAt (cr'.diagram b.implicitNonExclusive) t =
      amountAt d t + if b.startTime ≤ t ∧ t < b.endTime then b.utilization else 0) ∧
    ∀ nonExclusive, IsDiagram ((cr'.diagram nonExclusive).getD []) := by
  intro cr d cr'
  have hcr : cr.Sound := utilizationAddAll_sound (Rue.fresh_sound name)
    fun c hc => hcalls c (.tail _ hc)
  obtain ⟨hd, hs⟩ := hcalls b (.head _)
  have hlt := Booking.start_lt_end hd hs
  refine ⟨utilizationAdd_of_skipped, ?_, fun nonExclusive =>
    ((utilizationAdd_sound hcr hlt) nonExclusive).toIsDiagram⟩
  intro hskip t
  rw [show cr' = utilizationAdd cr b from rfl, amountAt_utilizationAdd hcr.ordered hskip]
  simp only [true_and]
  rfl

/-- A call for one slot of a queue, for ten seconds from `startTime` on. -/
def slotCall (startTime maxReservations : ℕ) (h : startTime < 2 ^ 64) : Booking where
  startTime := startTime
  duration := 10
  utilization := 1
  level := .queueTag
  forJob := true
  implicitNonExclusive := false
  bindingTouse := []
  rsmapInuse := []
  maxReservations := maxReservations
  start_lt := h

/-- Two overlapping calls with reservation configured. -/
theorem utilizationAdd_pointwise_two :
    let cr := utilizationAddAll (Rue.fresh "slots") [slotCall 100 1 (by decide)]
    let b := slotCall 105 1 (by decide)
    b.skipped cr.utilized = false ∧
      amountAt (utilizationAdd cr b).utilized 107 = amountAt cr.utilized 107 + 1 := by
  refine ⟨by decide, ?_⟩
  have h := (utilizationAdd_pointwise "slots" [slotCall 100 1 (by decide)]
    (slotCall 105 1 (by decide)) (by decide)).2.1 (by decide) 107
  rw [if_pos (by decide)] at h
  exact h

/-- Without reservation a job is not booked ahead on a diagram that does not
exist yet, and at the last point in time the start and the end entry coincide. -/
theorem utilizationAdd_pointwise_unrestricted_false :
    amountAt (utilizationAdd (Rue.fresh "slots")
        (slotCall 100 0 (by decide))).utilized 105 ≠
      amountAt (Rue.fresh "slots").utilized 105 + 1 ∧
    ¬ IsDiagram ((utilizationAdd (Rue.fresh "slots")
        (slotCall uint64Max 1 (by decide))).utilized.getD []) := by
  refine ⟨by decide +kernel, fun h => ?_⟩
  have hinc : List.Pairwise (fun e e' : Rde => e.time + 1 ≤ e'.time) _ := h.increasing
  revert hinc
  decide +kernel

end ClusterScheduler.Sched
