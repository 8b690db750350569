import ClusterScheduler.Sched.ResourceUtilization

/-!
# Instances of resource maps in a diagram

A resource map is held as particular instances, and the entries of its diagram
say how much of each instance is taken. This module asks when that follows the
same pointwise law as the amount.

* `reslAmount`, `instAt` — what an entry, and a diagram, hold of an instance.
* `RsmapStep` — what a call has to meet so that the law survives it.
* `RsmapRun` — runs of bookings and withdrawals.
* `rsmapRun_law` — along such runs, what is held of an instance at a time is
  the sum over the bookings in force then.

The law needs its condition: an entry made by a call that carries no instances
does not inherit those of its neighbour (`rsmap_lost`).
-/

namespace ClusterScheduler.Sched

open Foundation Sgeobj

def reslAmount (ids : List Resl) (id : String) : ℕ :=
  ((findResl ids id).map (·.amount)).getD 0

def reslTotal (change : List Resl) (id : String) : ℕ :=
  ((change.filter (·.value = id)).map (·.amount)).sum

def instAt (d : Option (List Rde)) (id : String) (t : ℕ) : ℕ :=
  valueAt Rde.time (fun e => reslAmount e.resourceMapList id) 0 (d.getD []) t

/-! ## Taking and giving back -/

@[simp] theorem reslAmount_nil (id : String) : reslAmount [] id = 0 := rfl

theorem reslAmount_cons (r : Resl) (ids : List Resl) (id : String) :
    reslAmount (r :: ids) id =
      if r.value = id then r.amount else reslAmount ids id := by
  unfold reslAmount findResl
  by_cases h : r.value = id
  · rw [List.find?_cons_of_pos (by simpa using h), if_pos h]
    rfl
  · rw [List.find?_cons_of_neg (by simpa using h), if_neg h]

@[simp] theorem reslTotal_nil (id : String) : reslTotal [] id = 0 := rfl

theorem reslTotal_cons (r : Resl) (change : List Resl) (id : String) :
    reslTotal (r :: change) id = (if r.value = id then r.amount else 0) + reslTotal change id := by
  unfold reslTotal
  by_cases h : r.value = id
  · simp [h]
  · simp [h]

variable {ids : List Resl} {id : String}

theorem reslAmount_eq_zero (h : ∀ r ∈ ids, r.value ≠ id) : reslAmount ids id = 0 := by
  induction ids with
  | nil => rfl
  | cons r rest ih =>
    rw [reslAmount_cons, if_neg (h r List.mem_cons_self)]
    exact ih fun x hx => h x (.tail _ hx)

/-- Where identifiers are there once, the first one is all there is. -/
theorem reslTotal_of_distinct (h : DistinctIds ids) (id : String) :
    reslTotal ids id = reslAmount ids id := by
  induction ids with
  | nil => rfl
  | cons r ids ih =>
    obtain ⟨hr, hids⟩ := List.nodup_cons.mp h
    rw [reslTotal_cons, reslAmount_cons, ih hids]
    split_ifs with hid
    · rw [reslAmount_eq_zero, add_zero]
      intro x hx hvalue
      exact hr (List.mem_map.mpr ⟨x, hx, hvalue.trans hid.symm⟩)
    · exact zero_add _

variable {f : ℕ → Option ℕ}

theorem reslAmount_adjust_ne {id' : String} (h : id' ≠ id) :
    reslAmount (adjustResl id f ids) id' = reslAmount ids id' := by
  induction ids with
  | nil => rfl
  | cons r rest ih =>
    rw [adjustResl]
    by_cases hr : r.value = id
    · have hne : r.value ≠ id' := fun h' => h (h' ▸ hr)
      rw [if_pos hr, reslAmount_cons r, if_neg hne]
      cases f r.amount with
      | none => rfl
      | some a => rw [reslAmount_cons, if_neg hne]
    · rw [if_neg hr, reslAmount_cons, reslAmount_cons, ih]

theorem reslAmount_adjust_self (hd : DistinctIds ids) (h : ids.any (·.value = id) = true) :
    reslAmount (adjustResl id f ids) id = (f (reslAmount ids id)).getD 0 := by
  induction ids with
  | nil => simp at h
  | cons r rest ih =>
    obtain ⟨hr, hrest⟩ := List.nodup_cons.mp hd
    rw [adjustResl]
    by_cases hid : r.value = id
    · rw [if_pos hid, reslAmount_cons r, if_pos hid]
      cases f r.amount with
      | none =>
        refine reslAmount_eq_zero fun x hx hxid => hr ?_
        exact List.mem_map.mpr ⟨x, hx, hxid.trans hid.symm⟩
      | some a => rw [reslAmount_cons, if_pos hid]; rfl
    · have hany : rest.any (·.value = id) = true := by simpa [hid] using h
      rw [if_neg hid, reslAmount_cons, reslAmount_cons, if_neg hid, if_neg hid]
      exact ih hrest hany

theorem reslAmount_append_new {v : String}
    (h : ids.any (·.value = v) = false) (a : ℕ) (id : String) :
    reslAmount (ids ++ [⟨v, a⟩]) id = if v = id then a else reslAmount ids id := by
  induction ids with
  | nil => rw [List.nil_append, reslAmount_cons]
  | cons r rest ih =>
    obtain ⟨hr, hrest⟩ : ¬ r.value = v ∧ rest.any (·.value = v) = false := by
      simpa using h
    rw [List.cons_append, reslAmount_cons, reslAmount_cons, ih hrest]
    by_cases h1 : r.value = id
    · rw [if_pos h1, if_pos h1, if_neg (fun h2 => hr (h1.trans h2.symm))]
    · rw [if_neg h1, if_neg h1]

theorem reslAmount_of_not_any (h : ids.any (·.value = id) = false) : reslAmount ids id = 0 :=
  reslAmount_eq_zero fun r hr => by
    simpa using List.any_eq_false.mp h r hr

theorem reslAmount_take_one (hd : DistinctIds ids) (ch : Resl) (id : String) :
    reslAmount (rsmapSetOne true ids ch) id =
      if ch.value = id then (reslAmount ids id + ch.amount) % 2 ^ 32
      else reslAmount ids id := by
  unfold rsmapSetOne
  rw [if_pos rfl]
  by_cases hid : ch.value = id
  · subst hid
    rw [if_pos rfl]
    cases hany : ids.any (·.value = ch.value) with
    | true => rw [if_pos rfl, reslAmount_adjust_self hd hany]; rfl
    | false =>
      rw [if_neg (by simp), reslAmount_append_new hany, if_pos rfl,
        reslAmount_of_not_any hany, Nat.zero_add]
  · rw [if_neg hid]
    cases hany : ids.any (·.value = ch.value) with
    | true => rw [if_pos rfl, reslAmount_adjust_ne (Ne.symm hid)]
    | false => rw [if_neg (by simp), reslAmount_append_new hany, if_neg hid]

theorem adjustResl_of_not_any (h : ids.any (·.value = id) = false) : adjustResl id f ids = ids := by
  induction ids with
  | nil => rfl
  | cons r rest ih =>
    obtain ⟨hr, hrest⟩ : ¬ r.value = id ∧ rest.any (·.value = id) = false := by
      simpa using h
    rw [adjustResl, if_neg hr, ih hrest]

/-- Giving back one identifier; below zero there is nothing. -/
theorem reslAmount_give_one (hd : DistinctIds ids) (ch : Resl) (id : String) :
    reslAmount (rsmapSetOne false ids ch) id =
      if ch.value = id then reslAmount ids id - ch.amount
      else reslAmount ids id := by
  unfold rsmapSetOne
  rw [if_neg (by simp)]
  by_cases hid : ch.value = id
  · subst hid
    rw [if_pos rfl]
    cases hany : ids.any (·.value = ch.value) with
    | true =>
      rw [reslAmount_adjust_self hd hany]
      split_ifs with hlt
      · rfl
      · simp only [Option.getD_none]
        omega
    | false =>
      rw [adjustResl_of_not_any hany, reslAmount_of_not_any hany, Nat.zero_sub]
  · rw [if_neg hid, reslAmount_adjust_ne (Ne.symm hid)]

/-- Taking adds, as long as the amount fits its 32 bits. -/
theorem reslAmount_take (id : String) :
    ∀ (change : List Resl) {ids : List Resl}, DistinctIds ids →
      reslAmount ids id + reslTotal change id < 2 ^ 32 →
      reslAmount (utilizationRsmapSet ids change true) id =
        reslAmount ids id + reslTotal change id
  | [], _, _, _ => rfl
  | ch :: rest, ids, hd, hlt => by
      rw [reslTotal_cons] at hlt ⊢
      have hone : reslAmount (rsmapSetOne true ids ch) id =
          reslAmount ids id + if ch.value = id then ch.amount else 0 := by
        rw [reslAmount_take_one hd ch id]
        split_ifs at hlt ⊢ with h
        · exact Nat.mod_eq_of_lt (by omega)
        · rfl
      have ih := reslAmount_take id rest (rsmapSetOne_distinct true hd ch)
        (by rw [hone]; omega)
      rw [hone] at ih
      rw [show utilizationRsmapSet ids (ch :: rest) true =
        utilizationRsmapSet (rsmapSetOne true ids ch) rest true from rfl, ih]
      omega

theorem reslAmount_give (id : String) :
    ∀ (change : List Resl) {ids : List Resl}, DistinctIds ids →
      reslAmount (utilizationRsmapSet ids change false) id =
        reslAmount ids id - reslTotal change id
  | [], _, _ => rfl
  | ch :: rest, ids, hd => by
      have ih := reslAmount_give id rest (rsmapSetOne_distinct false hd ch)
      rw [reslAmount_give_one hd ch id] at ih
      rw [show utilizationRsmapSet ids (ch :: rest) false =
        utilizationRsmapSet (rsmapSetOne false ids ch) rest false from rfl, ih,
        reslTotal_cons]
      split_ifs <;> omega

/-- What is known of the instances of an entry. -/
structure RsmapEntry (ids : List Resl) : Prop where
  distinct : DistinctIds ids
  fits : ∀ id, reslAmount ids id < 2 ^ 32

theorem rsmapEntry_nil : RsmapEntry [] where
  distinct := List.nodup_nil
  fits := by simp

theorem RsmapEntry.setOne (h : RsmapEntry ids) (add : Bool)
    (ch : Resl) : RsmapEntry (rsmapSetOne add ids ch) where
  distinct := rsmapSetOne_distinct add h.distinct ch
  fits := by
    intro id
    have := h.fits id
    cases add with
    | true =>
      rw [reslAmount_take_one h.distinct]
      split_ifs
      · exact Nat.mod_lt _ (by norm_num)
      · exact this
    | false =>
      rw [reslAmount_give_one h.distinct]
      split_ifs <;> omega

theorem RsmapEntry.set {add : Bool} :
    ∀ (change : List Resl) {ids : List Resl}, RsmapEntry ids →
      RsmapEntry (utilizationRsmapSet ids change add)
  | [], _, h => h
  | ch :: rest, _, h => RsmapEntry.set rest (h.setOne add ch)

theorem Booking.rsmap_entry (b : Booking) {own source : List Resl}
    (ho : RsmapEntry own) (hs : RsmapEntry source) (add : Bool) :
    RsmapEntry (b.rsmap own source add) := by
  unfold Booking.rsmap
  split_ifs
  · exact RsmapEntry.set _ hs
  · exact ho

theorem reslAmount_of_equal {a b : List Resl} (ha : DistinctIds a)
    (h : utilizationRsmapEqual a b = true) (id : String) : reslAmount a id = reslAmount b id := by
  obtain ⟨hlen, hall⟩ : a.length = b.length ∧ ∀ r ∈ a,
      (findResl b r.value).map (·.amount) = some r.amount := by
    simpa [utilizationRsmapEqual] using h
  have hsub : a.map (·.value) ⊆ b.map (·.value) := by
    intro v hv
    obtain ⟨r, hr, rfl⟩ := List.mem_map.mp hv
    obtain ⟨x, hx, -⟩ := Option.map_eq_some_iff.mp (hall r hr)
    have hmem := List.mem_of_find?_eq_some hx
    have hval : x.value = r.value := by simpa using List.find?_some hx
    exact List.mem_map.mpr ⟨x, hmem, hval⟩
  have hperm : (a.map (·.value)).Perm (b.map (·.value)) :=
    (List.subperm_of_subset ha hsub).perm_of_length_le (by simp [hlen])
  by_cases hid : id ∈ a.map (·.value)
  · obtain ⟨r, hr, rfl⟩ := List.mem_map.mp hid
    unfold reslAmount
    rw [findResl_of_mem ha hr, hall r hr]
    rfl
  · have hidb : id ∉ b.map (·.value) := fun h' => hid (hperm.mem_iff.mpr h')
    rw [reslAmount_eq_zero fun r hr hv => hid (List.mem_map.mpr ⟨r, hr, hv⟩),
      reslAmount_eq_zero fun r hr hv => hidb (List.mem_map.mpr ⟨r, hr, hv⟩)]

/-! ## One call -/

/-- The times of the window of a call. -/
def Booking.Covers (b : Booking) (t : ℕ) : Prop := b.startTime ≤ t ∧ t < b.endTime

instance (b : Booking) (t : ℕ) : Decidable (b.Covers t) :=
  inferInstanceAs (Decidable (_ ∧ _))

theorem Booking.not_covers {b : Booking} (h : b.endTime = b.startTime) (t : ℕ) : ¬ b.Covers t :=
  fun hcovers => by
    unfold Booking.Covers at hcovers
    omega

/-- What a call does to the amount held of an instance. -/
def Booking.effect (b : Booking) (id : String) (x : ℕ) : ℕ :=
  if b.handleRsmap then
    if b.rsmapTaken then x + reslTotal b.rsmapInuse id
    else x - reslTotal b.rsmapInuse id
  else x

/-- The condition on a call and the diagram it finds. -/
structure RsmapStep (d : Option (List Rde)) (b : Booking) : Prop where
  /-- a call that is not booked ahead carries no instances, or has an empty window -/
  skip : b.skipped d = true → b.rsmapInuse = [] ∨ b.endTime = b.startTime
  fits : b.handleRsmap = true → b.rsmapTaken = true → ∀ id,
    instAt d id b.startTime + reslTotal b.rsmapInuse id < 2 ^ 32 ∧
    ∀ e ∈ d.getD [], b.startTime ≤ e.time → e.time < b.endTime ∨ e.time = b.startTime →
      reslAmount e.resourceMapList id + reslTotal b.rsmapInuse id < 2 ^ 32
  /-- what an empty window gives back is held there -/
  held : b.handleRsmap = true → b.rsmapTaken = false → b.endTime = b.startTime →
    ∀ id, reslTotal b.rsmapInuse id ≤ instAt d id b.startTime
  /-- a call without instances finds its start entry, or nothing is held there -/
  bareStart : b.handleRsmap = false →
    (∃ e ∈ d.getD [], e.time = b.startTime) ∨ ∀ id, instAt d id b.startTime = 0
  /-- and the same at its end -/
  bareEnd : b.handleRsmap = false →
    (∃ e ∈ afterStart Rde.time b.startTime (d.getD []), e.time = b.endTime) ∨
      ∀ id, instAt d id b.endTime = 0
  /-- no instance is held while the amounts from the beginning on are zero -/
  lead : ∀ t, (∀ s ≤ t, amountAt d s + (if b.Covers s then b.utilization else 0) = 0) → ∀ id,
    (if b.Covers t then b.effect id (instAt d id t) else instAt d id t) = 0

section OneCall

variable {b : Booking} {d : Option (List Rde)} {name : String}

/-- What is in force is less than `2 ^ 32`. -/
theorem instAt_lt (hP : ∀ e ∈ d.getD [], RsmapEntry e.resourceMapList) (id : String) (t : ℕ) :
    instAt d id t < 2 ^ 32 := by
  rcases valueAt_mem Rde.time (fun e => reslAmount e.resourceMapList id) 0
    (d.getD []) t with h | ⟨e, he, h⟩
  · rw [instAt, h]
    norm_num
  · rw [instAt, h]
    exact (hP e he).fits id

theorem Booking.reslAmount_rsmap {own source : List Resl} {id : String} (hs : RsmapEntry source)
    (hown : b.handleRsmap = false → reslAmount own id = reslAmount source id)
    (hfit : b.handleRsmap = true → b.rsmapTaken = true →
      reslAmount source id + reslTotal b.rsmapInuse id < 2 ^ 32) :
    reslAmount (b.rsmap own source b.rsmapTaken) id = b.effect id (reslAmount source id) := by
  unfold Booking.rsmap Booking.effect
  cases hh : b.handleRsmap with
  | false => exact hown hh
  | true =>
    rw [if_pos rfl, if_pos rfl]
    cases ht : b.rsmapTaken with
    | true => exact reslAmount_take id _ hs.distinct (hfit hh ht)
    | false => exact reslAmount_give id _ hs.distinct

/-- Before normalizing: the call acts pointwise on every instance. -/
theorem Booking.inst_overlay (hd : Spaced 0 Rde.time (d.getD []))
    (hP : ∀ e ∈ d.getD [], RsmapEntry e.resourceMapList) (hstep : RsmapStep d b)
    (hheld : b.handleRsmap = true → b.rsmapTaken = false → ∀ id t, b.Covers t →
      reslTotal b.rsmapInuse id ≤ instAt d id t) (id : String) (t : ℕ) :
    instAt (some (overlay Rde.time (b.window name) none (d.getD []))) id t =
      if b.Covers t then b.effect id (instAt d id t)
      else instAt d id t := by
  have hlist : ∀ p : Option Rde, (∀ e ∈ p, RsmapEntry e.resourceMapList) →
      RsmapEntry ((p.map (·.resourceMapList)).getD []) := by
    intro p hp
    cases p with
    | none => exact rsmapEntry_nil
    | some e => exact hp e rfl
  have hvalue : ∀ p : Option Rde, reslAmount ((p.map (·.resourceMapList)).getD []) id =
      valueOf (fun e => reslAmount e.resourceMapList id) 0 p := by
    intro p
    cases p <;> rfl
  refine valueAt_overlay_none (P := fun e : Rde => RsmapEntry e.resourceMapList)
    (f := b.effect id) (fun e => reslAmount e.resourceMapList id) 0
    (b.window_timed name) (fun e he => b.rsmap_entry he he _)
    (fun p hp => b.rsmap_entry rsmapEntry_nil (hlist p hp) _) hd hP ?_ ?_ ?_ t
  · intro e he h1 h2
    exact Booking.reslAmount_rsmap (hP e he) (fun _ => rfl)
      fun hh ht => ((hstep.fits hh ht) id).2 e he h1 h2
  · intro p hp hno hval
    rw [← hval, ← hvalue p]
    refine Booking.reslAmount_rsmap (hlist p hp) ?_ ?_
    · intro hh
      rcases hstep.bareStart hh with ⟨e, he, het⟩ | hzero
      · exact absurd het (hno e he)
      · rw [hvalue p, hval]
        exact (hzero id).symm
    · intro hh ht
      rw [hvalue p, hval]
      exact ((hstep.fits hh ht) id).1
  · intro p hp hno hval
    change reslAmount p.resourceMapList id = b.effect id (instAt d id b.endTime)
      at hval
    show reslAmount (b.rsmap [] p.resourceMapList (!b.rsmapTaken)) id =
      instAt d id b.endTime
    unfold Booking.rsmap
    unfold Booking.effect at hval
    cases hh : b.handleRsmap with
    | false =>
      rcases hstep.bareEnd hh with ⟨e, he, het⟩ | hzero
      · exact absurd het (hno e he)
      · exact (hzero id).symm
    | true =>
      rw [hh, if_pos rfl] at hval
      rw [if_pos rfl]
      cases ht : b.rsmapTaken with
      | true =>
        rw [ht, if_pos rfl] at hval
        rw [Bool.not_true, reslAmount_give id _ hp.distinct, hval]
        omega
      | false =>
        rw [ht, if_neg (by simp)] at hval
        -- what is given back is held up to the end of the window
        have hle : reslTotal b.rsmapInuse id ≤ instAt d id b.endTime := by
          rcases Nat.lt_or_ge b.startTime b.endTime with hlt | hge
          · rw [instAt, valueAt_stop hd hlt hno]
            exact hheld hh ht id _ ⟨by omega, by omega⟩
          · have heq : b.endTime = b.startTime :=
              Nat.le_antisymm hge b.start_le_end
            rw [heq]
            exact hstep.held hh ht heq id
        have hlt := instAt_lt hP id b.endTime
        rw [Bool.not_false, reslAmount_take id _ hp.distinct (by omega), hval]
        omega

/-- Normalizing does not change what is held of an instance. -/
theorem inst_normalize {d : List Rde} (hd : Spaced 0 Rde.time d)
    (hP : ∀ e ∈ d, RsmapEntry e.resourceMapList) (id : String)
    (hlead : ∀ t, (∀ s ≤ t, valueAt Rde.time Rde.amount 0 d s = 0) → instAt (some d) id t = 0)
    (t : ℕ) : instAt (some (utilizationNormalize d)) id t = instAt (some d) id t := by
  refine valueAt_compact (P := fun e : Rde => RsmapEntry e.resourceMapList)
    ?_ hd hP ?_ t
  · intro e e' he _ h
    simp only [sameEntry, Bool.and_eq_true] at h
    exact reslAmount_of_equal he.distinct h.2 id
  · intro t ht
    refine hlead t fun s hs =>
      valueAt_of_idle (fun e => e.amount = 0) (by simp) ?_
    exact fun e he => Nat.lt_of_le_of_lt hs (ht e he)

end OneCall

/-- What holds of the entries between calls. -/
structure RsmapSound (d : Option (List Rde)) : Prop where
  ordered : Spaced 0 Rde.time (d.getD [])
  entries : ∀ e ∈ d.getD [], RsmapEntry e.resourceMapList

theorem Booking.overlay_entries (b : Booking) (name : String) {d : List Rde}
    (hP : ∀ e ∈ d, RsmapEntry e.resourceMapList) :
    ∀ e ∈ overlay Rde.time (b.window name) none d, RsmapEntry e.resourceMapList := by
  refine overlay_all (P := fun e : Rde => RsmapEntry e.resourceMapList)
    (Q := fun p : Option Rde => ∀ e ∈ p, RsmapEntry e.resourceMapList)
    ?_ (fun e he => b.rsmap_entry he he _) ?_
    (fun e he => b.rsmap_entry rsmapEntry_nil he _) (by simp) hP
  · intro e he x hx
    obtain rfl : e = x := by simpa using hx
    exact he
  · intro p hp
    refine b.rsmap_entry rsmapEntry_nil ?_ _
    cases p with
    | none => exact rsmapEntry_nil
    | some e => exact hp e rfl

variable {cr : Rue} {b : Booking}

theorem RsmapSound.add (h : RsmapSound (cr.diagram b.implicitNonExclusive)) :
    RsmapSound ((utilizationAdd cr b).diagram b.implicitNonExclusive) := by
  cases hskip : b.skipped (cr.diagram b.implicitNonExclusive) with
  | true => rw [utilizationAdd_of_skipped hskip]; exact h
  | false =>
    rw [utilizationAdd_of_not_skipped hskip, Rue.diagram_setDiagram, if_pos rfl]
    have hsp : Spaced 0 Rde.time (overlay Rde.time (b.window cr.name) none
        ((cr.diagram b.implicitNonExclusive).getD [])) :=
      overlay_spaced (Nat.zero_le 1) (b.window_timed cr.name) b.start_le_end h.ordered
    exact ⟨compact_spaced hsp, fun e he => b.overlay_entries cr.name h.entries e
      ((compact_sublist _).subset he)⟩

/-- **One call.** Under its condition a call acts pointwise on every instance:
it takes or gives back on its window and changes nothing elsewhere. -/
theorem instAt_add (h : RsmapSound (cr.diagram b.implicitNonExclusive))
    (hstep : RsmapStep (cr.diagram b.implicitNonExclusive) b)
    (hheld : b.handleRsmap = true → b.rsmapTaken = false → ∀ id t, b.Covers t →
      reslTotal b.rsmapInuse id ≤
        instAt (cr.diagram b.implicitNonExclusive) id t) (id : String) (t : ℕ) :
    instAt ((utilizationAdd cr b).diagram b.implicitNonExclusive) id t =
      if b.Covers t then
        b.effect id (instAt (cr.diagram b.implicitNonExclusive) id t)
      else instAt (cr.diagram b.implicitNonExclusive) id t := by
  cases hskip : b.skipped (cr.diagram b.implicitNonExclusive) with
  | true =>
    rw [utilizationAdd_of_skipped hskip]
    rcases hstep.skip hskip with hbare | hempty
    · simp [Booking.effect, Booking.handleRsmap, hbare]
    · rw [if_neg (Booking.not_covers hempty t)]
  | false =>
    rw [utilizationAdd_of_not_skipped hskip, Rue.diagram_setDiagram, if_pos rfl]
    have hsp : Spaced 0 Rde.time (overlay Rde.time (b.window cr.name) none
        ((cr.diagram b.implicitNonExclusive).getD [])) :=
      overlay_spaced (Nat.zero_le 1) (b.window_timed cr.name) b.start_le_end h.ordered
    rw [inst_normalize hsp (b.overlay_entries cr.name h.entries) id ?_ t,
      Booking.inst_overlay h.ordered h.entries hstep hheld]
    intro t ht
    rw [Booking.inst_overlay h.ordered h.entries hstep hheld]
    refine hstep.lead t (fun s hs => ?_) id
    have := ht s hs
    rw [b.amount_overlay cr.name h.ordered] at this
    exact this

/-! ## Runs of bookings and withdrawals -/

def Booking.OnMap (b : Booking) : Prop := b.level = .hostTag ∨ b.level = .globalTag

/-- The call `c` withdraws the booking `b`: same window and instances, negated
amount. -/
structure Booking.Withdraws (c b : Booking) : Prop where
  start : c.startTime = b.startTime
  stop : c.duration = b.duration
  amount : c.utilization = -b.utilization
  instances : c.rsmapInuse = b.rsmapInuse

def Booking.holds (b : Booking) (id : String) (t : ℕ) : ℕ :=
  if b.Covers t then reslTotal b.rsmapInuse id else 0

/-- Runs of one diagram. The list holds the bookings that are not withdrawn.
Every call meets `RsmapStep`; a booking that carries instances has an amount
that is not negative, and its withdrawal one that is. -/
inductive RsmapRun (name : String) (nonExclusive : Bool) : Rue → List Booking → Prop
  | start : RsmapRun name nonExclusive (Rue.fresh name) []
  | book {cr : Rue} {active : List Booking} (b : Booking)
      (run : RsmapRun name nonExclusive cr active)
      (here : b.implicitNonExclusive = nonExclusive) (level : b.OnMap)
      (sign : b.rsmapInuse ≠ [] → 0 ≤ b.utilization)
      (step : RsmapStep (cr.diagram nonExclusive) b) :
      RsmapRun name nonExclusive (utilizationAdd cr b) (b :: active)
  | withdraw {cr : Rue} {before after : List Booking} (b c : Booking)
      (run : RsmapRun name nonExclusive cr (before ++ b :: after))
      (here : c.implicitNonExclusive = nonExclusive) (level : c.OnMap)
      (withdraws : c.Withdraws b)
      (sign : c.rsmapInuse ≠ [] → c.utilization < 0)
      (step : RsmapStep (cr.diagram nonExclusive) c) :
      RsmapRun name nonExclusive (utilizationAdd cr c) (before ++ after)

theorem Booking.handleRsmap_onMap (h : b.OnMap) : b.handleRsmap = !b.rsmapInuse.isEmpty := by
  rcases h with h | h <;> simp [Booking.handleRsmap, h]

theorem Booking.covers_withdraws {c : Booking} (h : c.Withdraws b) (t : ℕ) :
    c.Covers t ↔ b.Covers t := by
  unfold Booking.Covers Booking.endTime
  rw [h.start, h.stop]

variable {name : String} {x : Bool} {active : List Booking}

theorem RsmapRun.sound (run : RsmapRun name x cr active) : RsmapSound (cr.diagram x) := by
  induction run with
  | start =>
    cases x <;> exact ⟨List.Pairwise.nil, by simp [Rue.fresh, Rue.diagram]⟩
  | book b _ here _ _ _ ih =>
    subst here
    exact RsmapSound.add ih
  | withdraw b c _ here _ _ _ _ ih =>
    subst here
    exact RsmapSound.add ih

theorem rsmapRun_law (run : RsmapRun name x cr active) (id : String) (t : ℕ) :
    instAt (cr.diagram x) id t = (active.map (·.holds id t)).sum := by
  induction run generalizing id t with
  | start => cases x <;> rfl
  | @book cr active b run here level sign step ih =>
    subst here
    have hhandle := Booking.handleRsmap_onMap level
    have htaken : b.handleRsmap = true → b.rsmapTaken = true := by
      intro hh
      have hne : b.rsmapInuse ≠ [] := by simpa [hhandle] using hh
      simpa [Booking.rsmapTaken] using sign hne
    rw [instAt_add run.sound step
      (fun hh ht => absurd (htaken hh) (by simp [ht])), ih]
    rw [List.map_cons, List.sum_cons, Booking.holds, Booking.effect]
    cases hh : b.handleRsmap with
    | false =>
      have hnil : b.rsmapInuse = [] := by simpa [hhandle] using hh
      simp [hnil]
    | true =>
      rw [htaken hh, if_pos rfl, if_pos rfl]
      split_ifs <;> omega
  | @withdraw cr before after b c run here level hw sign step ih =>
    subst here
    have hhandle := Booking.handleRsmap_onMap level
    have hgiven : c.handleRsmap = true → c.rsmapTaken = false := by
      intro hh
      have hne : c.rsmapInuse ≠ [] := by simpa [hhandle] using hh
      simpa [Booking.rsmapTaken] using sign hne
    have hsum : ∀ id t, instAt (cr.diagram c.implicitNonExclusive) id t =
        ((before ++ after).map (·.holds id t)).sum + b.holds id t := by
      intro id t
      rw [ih]
      simp only [List.map_append, List.map_cons, List.sum_append, List.sum_cons]
      omega
    rw [instAt_add run.sound step ?_, hsum, Booking.effect]
    · cases hh : c.handleRsmap with
      | false =>
        have hnil : b.rsmapInuse = [] := by
          rw [← hw.instances]
          simpa [hhandle] using hh
        simp [Booking.holds, hnil]
      | true =>
        simp only [hgiven hh, if_true, Bool.false_eq_true, if_false,
          Booking.holds, hw.instances, Booking.covers_withdraws hw]
        split_ifs <;> omega
    · intro hh ht id t hcov
      rw [hsum, hw.instances, Booking.holds, if_pos ((Booking.covers_withdraws hw t).mp hcov)]
      omega

/-- **Instances follow the amount.** In every run whose calls meet the
condition, what the diagram holds of an instance at a time is the sum over the
bookings in force at that time that are not withdrawn; and a further call
without instances that meets the condition changes it nowhere. -/
theorem rsmapRun_pointwise {name : String} {x : Bool} {cr : Rue}
    {active : List Booking} (run : RsmapRun name x cr active) :
    (∀ id t, instAt (cr.diagram x) id t = (active.map (·.holds id t)).sum) ∧
    ∀ b : Booking, b.implicitNonExclusive = x → b.rsmapInuse = [] →
      RsmapStep (cr.diagram x) b → ∀ id t,
      instAt ((utilizationAdd cr b).diagram x) id t = instAt (cr.diagram x) id t := by
  refine ⟨rsmapRun_law run, ?_⟩
  rintro b rfl hnil hstep id t
  have hbare : b.handleRsmap = false := by simp [Booking.handleRsmap, hnil]
  rw [instAt_add run.sound hstep (by simp [hbare]), Booking.effect, hbare]
  simp

/-- A reservation on a host, with or without instances. -/
def gpuCall (startTime duration : ℕ) (amount : ℚ) (instances : List Resl)
    (hs : startTime < 2 ^ 64) (hd : duration < 2 ^ 64) : Booking where
  startTime := startTime
  duration := duration
  utilization := amount
  level := .hostTag
  forJob := false
  implicitNonExclusive := false
  bindingTouse := []
  rsmapInuse := instances
  maxReservations := 0
  start_lt := hs
  duration_lt := hd

/-- A reservation of two of `gpu0` in an empty diagram. -/
theorem rsmapRun_pointwise_gpu :
    let b := gpuCall 1000 200 2 [⟨"gpu0", 2⟩] (by decide) (by decide)
    RsmapRun "gpu" false (utilizationAdd (Rue.fresh "gpu") b) [b] ∧
      instAt (utilizationAdd (Rue.fresh "gpu") b).utilized "gpu0" 1100 = 2 := by
  intro b
  have htotal : ∀ id, reslTotal b.rsmapInuse id ≤ 2 := by
    intro id
    rw [show b.rsmapInuse = [⟨"gpu0", 2⟩] from rfl, reslTotal_cons]
    split_ifs <;> simp
  have hstep : RsmapStep ((Rue.fresh "gpu").diagram false) b := by
    refine ⟨by decide, fun _ _ id => ⟨?_, by simp [Rue.fresh, Rue.diagram]⟩,
      fun _ _ h => absurd h (by decide), fun h => absurd h (by decide),
      fun h => absurd h (by decide), fun t ht id => ?_⟩
    · have hzero : instAt ((Rue.fresh "gpu").diagram false) id b.startTime = 0 := rfl
      have := htotal id
      omega
    · by_cases hc : b.Covers t
      · have h2 := ht t (Nat.le_refl t)
        have hzero : amountAt ((Rue.fresh "gpu").diagram false) t = 0 := rfl
        rw [if_pos hc, hzero] at h2
        exact absurd h2 (by decide +kernel)
      · rw [if_neg hc]
        rfl
  have hrun : RsmapRun "gpu" false (utilizationAdd (Rue.fresh "gpu") b) [b] :=
    .book b .start rfl (Or.inl rfl) (fun _ => by decide +kernel) hstep
  exact ⟨hrun, (rsmapRun_pointwise hrun).1 "gpu0" 1100⟩

/-- Two of `gpu0` are reserved from 1000 to 1200. A reservation without
instances from 1050 to 1150 makes its start entry without them. -/
theorem rsmap_lost :
    let booked := utilizationAdd (Rue.fresh "gpu")
      (gpuCall 1000 200 2 [⟨"gpu0", 2⟩] (by decide) (by decide))
    let cr := utilizationAdd booked (gpuCall 1050 100 1 [] (by decide) (by decide))
    instAt booked.utilized "gpu0" 1100 = 2 ∧ instAt cr.utilized "gpu0" 1100 = 0 := by
  decide +kernel

end ClusterScheduler.Sched
