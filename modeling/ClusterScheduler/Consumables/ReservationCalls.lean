import ClusterScheduler.Consumables.ReservationInstances

/-!
# What reservations book of a resource map

The booking passes all instances that a reservation was granted of a map on a host, once for
every granted queue instance that takes the map from the host.

* `takerCall`, `reservationCalls_eq_map` — the calls for a map.
* `Quiet` — a call without instances does no harm.
* `rsmapStep_takerCall` — one call meets the condition of the diagram.
* `Conf.IsMap`, `Reservation.Clean` — maps, and reservations with one call for each of them.
* `takenTotal`, `grantedTotal` — what the reservations of a time take, and are granted.
* `heldAt_arDoReservation` — the diagram after a reservation was booked or released.
-/

namespace ClusterScheduler.Consumables

open Foundation Sched

/-! ## What is booked of a map -/

/-- The call for one granted queue instance that takes the map. It carries all instances the
reservation was granted of the map on the host. -/
def takerCall (conf : Conf) (ar : Reservation) (dcep : CEntry) (hostName : String) (sign : ℤ)
    (taker : Tag × Visit) : Booking :=
  rcCall (ar.assignment conf) taker.1
    (if (jobGetContributionByScope conf.parse ar.dummyJob dcep.name dcep .global).isSome ∧
        taker.1 ≠ .hostTag then [] else taker.2.granted.bindingToUse)
    (ar.instances dcep.name hostName) ⟨false, sign * offered conf ar taker.2 dcep⟩

section Calls

variable {conf : Conf} {ar : Reservation} {dcep : CEntry} {hostName : String} {sign : ℤ}

variable {tag : Tag}

theorem configCalls_of_checked (hconf : conf.Checked) (hdcep : dcep ∈ conf.centries)
    {config : List String} (hnodup : config.Nodup)
    (hdefined : ∀ n ∈ config, n ∈ conf.centries.map (·.name)) {a : Assignment} {g : GrantedQueue}
    {objName : String} {slots : ℤ} {isMasterTask doPerHostBooking : Bool} :
    configCalls conf.parse conf.centries a g tag objName slots isMasterTask doPerHostBooking
      dcep.name config = if dcep.name ∈ config then
        if consumableDoBooking dcep.consumable isMasterTask doPerHostBooking then
          rcCalls conf.parse a g tag objName slots isMasterTask dcep.name dcep
        else []
      else [] := by
  induction config with
  | nil => rfl
  | cons n config ih =>
    obtain ⟨hnot, htail⟩ := List.nodup_cons.mp hnodup
    obtain ⟨hn, hrest⟩ := List.forall_mem_cons.mp hdefined
    obtain ⟨cr, hcr, rfl⟩ := List.mem_map.mp hn
    rw [configCalls, hconf.locate hcr]
    dsimp only
    rw [ih htail hrest]
    by_cases hname : cr.name = dcep.name
    · have heq := hconf.eq_of_name hcr hdcep hname
      subst heq
      rw [if_neg hnot, if_pos List.mem_cons_self, List.append_nil]
      simp only [true_and]
    · rw [if_neg fun h => hname h.1, List.nil_append]
      simp only [List.mem_cons, Ne.symm hname, false_or]

theorem bookFor_offered (hsign : sign = 1 ∨ sign = -1) (v : Visit) (hslots : v.granted.slots ≠ 0) :
    (if consumableDoBooking dcep.consumable v.isMasterTask v.doPerHostBooking then
      bookFor (consumableGetDebitSlots dcep.consumable (sign * v.granted.slots))
        (arGetRequestOrDefault conf ar dcep dcep.name) else []) =
      if offered conf ar v dcep ≠ 0 then [(sign : ℚ) * offered conf ar v dcep] else [] := by
  have hpos : (0 : ℤ) < v.granted.slots := Nat.cast_pos.mpr (Nat.pos_of_ne_zero hslots)
  have hcast : (v.granted.slots : ℚ) ≠ 0 := Nat.cast_ne_zero.mpr hslots
  have hsignum : slotSignum (sign * v.granted.slots) = sign := by
    rcases hsign with rfl | rfl
    · rw [one_mul]
      exact if_pos hpos
    · rw [slotSignum, if_neg (by omega), if_pos (by omega)]
  rw [offered, arDoubleval]
  cases arGetRequestOrDefault conf ar dcep dcep.name with
  | none => simp [bookFor]
  | some value =>
    by_cases hvalue : value = 0
    · subst hvalue
      cases dcep.consumable with
      | no => simp [consumableDoBooking]
      | yes => simp [bookFor]
      | job => cases v.isMasterTask <;> simp [bookFor]
      | host => cases v.doPerHostBooking <;> simp [bookFor]
    · cases dcep.consumable with
      | no => simp [consumableDoBooking]
      | yes =>
        simp [bookFor, consumableDoBooking, consumableGetDebitSlots, hvalue, hslots]
        ring
      | job =>
        cases v.isMasterTask <;>
          simp [bookFor, consumableDoBooking, consumableGetDebitSlots, hvalue, hsignum]
      | host =>
        cases v.doPerHostBooking <;>
          simp [bookFor, consumableDoBooking, consumableGetDebitSlots, hvalue, hsignum]

theorem rsmapInuse_instances (hrsmap : dcep.valtype = .rsmap)
    (htag : tag = .hostTag ∨ tag = .globalTag) :
    rsmapInuse (ar.assignment conf) tag dcep dcep.name hostName = ar.instances dcep.name hostName :=
  if_pos ⟨htag, hrsmap⟩

theorem rcCalls_taker (hconf : conf.Checked) (har : ar.RequestsNoSlots)
    (hdcep : dcep ∈ conf.centries) (hrsmap : dcep.valtype = .rsmap) (hrelop : dcep.relop ≠ .excl)
    (hsign : sign = 1 ∨ sign = -1) (htag : tag = .hostTag ∨ tag = .globalTag)
    (v : Visit) (hslots : v.granted.slots ≠ 0) :
    (if consumableDoBooking dcep.consumable v.isMasterTask v.doPerHostBooking then
      rcCalls conf.parse (ar.assignment conf) v.granted tag hostName
        (sign * v.granted.slots) v.isMasterTask dcep.name dcep else []) =
      if offered conf ar v dcep ≠ 0 then [takerCall conf ar dcep hostName sign (tag, v)]
      else [] := by
  have hbook : (if consumableDoBooking dcep.consumable v.isMasterTask v.doPerHostBooking then
      bookFor (consumableGetDebitSlots dcep.consumable (sign * v.granted.slots))
        (arGetRequestOrDefault conf ar dcep dcep.name) else []) =
      if offered conf ar v dcep ≠ 0 then [(sign : ℚ) * offered conf ar v dcep] else [] :=
    bookFor_offered hsign v hslots
  have hdebits : consumableDebits conf.parse (ar.assignment conf).job (ar.assignment conf).pe
      dcep.name dcep (sign * v.granted.slots) v.isMasterTask =
      (bookFor (consumableGetDebitSlots dcep.consumable (sign * v.granted.slots))
        (arGetRequestOrDefault conf ar dcep dcep.name)).map (⟨false, ·⟩) := by
    rw [consumableDebits, withImplicit, if_neg fun hexcl => hrelop hexcl.2]
    exact congrArg (List.map _) (explicitDebits_dummyJob hconf har hdcep _ _)
  rw [rcCalls, hdebits, rsmapInuse_instances hrsmap htag]
  by_cases hdo : consumableDoBooking dcep.consumable v.isMasterTask v.doPerHostBooking = true
  · rw [if_pos hdo] at hbook
    rw [if_pos hdo, hbook]
    by_cases hoffered : offered conf ar v dcep ≠ 0
    · rw [if_pos hoffered, if_pos hoffered]
      rfl
    · rw [if_neg hoffered, if_neg hoffered]
      rfl
  · rw [if_neg hdo] at hbook
    rw [if_neg hdo]
    by_cases hoffered : offered conf ar v dcep ≠ 0
    · rw [if_pos hoffered] at hbook
      exact absurd hbook.symm (List.cons_ne_nil _ _)
    · exact (if_neg hoffered).symm

theorem callsAt_eq_map (hconf : conf.Checked) (har : ar.RequestsNoSlots)
    (hdcep : dcep ∈ conf.centries) (hrsmap : dcep.valtype = .rsmap) (hrelop : dcep.relop ≠ .excl)
    (hsign : sign = 1 ∨ sign = -1) (htag : tag = .hostTag ∨ tag = .globalTag)
    (v : Visit) (hslots : v.granted.slots ≠ 0) (host : String) :
    callsAt conf ar v (.host host) tag host sign (.host hostName) dcep.name =
      (takersOn conf ar dcep hostName tag host v).map (takerCall conf ar dcep hostName sign) := by
  unfold callsAt takersOn
  by_cases hhost : hostName = host
  · subst hhost
    rw [if_pos rfl]
    cases hconfig : conf.configAt (.host hostName) with
    | none => simp [configCalls]
    | some config =>
      rw [Option.getD_some, configCalls_of_checked hconf hdcep (hconf.nodup _ config hconfig)
        (hconf.defined _ config hconfig),
        rcCalls_taker hconf har hdcep hrsmap hrelop hsign htag v hslots]
      by_cases hin : dcep.name ∈ config
      · by_cases hoffered : offered conf ar v dcep ≠ 0
        · rw [if_pos hin, if_pos hoffered, if_pos ⟨rfl, hin, hoffered⟩]
          rfl
        · rw [if_pos hin, if_neg hoffered, if_neg fun h => hoffered h.2.2]
          rfl
      · rw [if_neg hin, if_neg fun h => hin h.2.1]
        rfl
  · have hplace : (Place.host hostName) ≠ .host host := fun h => hhost (Place.host.inj h)
    rw [if_neg hplace, if_neg fun h => hhost h.1]
    rfl

/-- **The calls for a map** on a host: one for each granted queue instance that takes it, with
all instances. -/
theorem reservationCalls_eq_map (hconf : conf.Checked) (har : ar.RequestsNoSlots)
    (hgranted : ar.Granted conf) (hdcep : dcep ∈ conf.centries) (hrsmap : dcep.valtype = .rsmap)
    (hrelop : dcep.relop ≠ .excl) (hsign : sign = 1 ∨ sign = -1) :
    reservationCalls conf ar sign (.host hostName) dcep.name =
      (takers conf ar dcep hostName).map (takerCall conf ar dcep hostName sign) := by
  have hvisit : ∀ v ∈ ar.visits, visitCalls conf ar v sign (.host hostName) dcep.name =
      (takersAt conf ar dcep hostName v).map (takerCall conf ar dcep hostName sign) := by
    intro v hv
    have hslots := hgranted.slots v.granted (granted_mem_of_visit hv)
    have hqueue : callsAt conf ar v (.queue v.granted.qname) .queueTag v.granted.qname sign
        (.host hostName) dcep.name = [] := if_neg Place.noConfusion
    rw [visitCalls, hqueue, List.append_nil,
      callsAt_eq_map hconf har hdcep hrsmap hrelop hsign (.inr rfl) v hslots,
      callsAt_eq_map hconf har hdcep hrsmap hrelop hsign (.inl rfl) v hslots, takersAt,
      List.map_append]
  rw [reservationCalls, takers, List.map_flatMap]
  exact List.flatMap_congr hvisit

end Calls

/-! ## One call -/

/-- A call without instances makes no entry where instances are held. -/
structure Quiet (d : Option (List Rde)) (w : JobWindow) : Prop where
  start : (∃ e ∈ d.getD [], e.time = w.startTime) ∨ ∀ id, instAt d id w.startTime = 0
  stop : (∃ e ∈ d.getD [], e.time = w.endTime) ∨ ∀ id, instAt d id w.endTime = 0

def Books.heldAt (books : Books) (name hostName id : String) (t : ℕ) : ℕ :=
  instAt (usageAt name (books (.host hostName))).utilized id t

section OneCall

variable {conf : Conf} {ar : Reservation} {dcep : CEntry} {hostName : String} {sign : ℤ}
  {taker : Tag × Visit} {u : Usage}

theorem tag_of_mem_takers (h : taker ∈ takers conf ar dcep hostName) :
    taker.1 = .hostTag ∨ taker.1 = .globalTag := by
  obtain ⟨v, -, hv⟩ := List.mem_flatMap.mp h
  rcases List.mem_append.mp hv with hv | hv
  · unfold takersOn at hv
    split_ifs at hv
    · exact .inr (congrArg Prod.fst (List.mem_singleton.mp hv))
    · cases hv
  · unfold takersOn at hv
    split_ifs at hv
    · exact .inl (congrArg Prod.fst (List.mem_singleton.mp hv))
    · cases hv

theorem takers_of_once (honce : (takers conf ar dcep hostName).length ≤ 1)
    (hpos : ∀ taker ∈ takers conf ar dcep hostName, 0 < offered conf ar taker.2 dcep) :
    takers conf ar dcep hostName = [] ∨ ∃ taker, takers conf ar dcep hostName = [taker] ∧
      0 < offered conf ar taker.2 dcep := by
  rcases htakers : takers conf ar dcep hostName with _ | ⟨taker, rest⟩
  · exact .inl rfl
  · rw [htakers, List.length_cons] at honce
    obtain rfl : rest = [] := List.length_eq_zero_iff.mp (by omega)
    exact .inr ⟨taker, rfl, hpos taker (htakers ▸ (.head _))⟩

theorem handleRsmap_takerCall (h : taker ∈ takers conf ar dcep hostName) :
    (takerCall conf ar dcep hostName sign taker).handleRsmap =
      !(ar.instances dcep.name hostName).isEmpty :=
  Booking.handleRsmap_onMap (tag_of_mem_takers h)

def afterCall (ar : Reservation) (sign : ℤ) (name hostName id : String) (held : ℕ) : ℕ :=
  if sign = 1 then held + reslTotal (ar.instances name hostName) id
  else held - reslTotal (ar.instances name hostName) id

variable (hsign : sign = 1 ∨ sign = -1)
include hsign

theorem rsmapTaken_takerCall (hpos : 0 < offered conf ar taker.2 dcep) :
    (takerCall conf ar dcep hostName sign taker).rsmapTaken = decide (sign = 1) := by
  show decide (0 ≤ (sign : ℚ) * offered conf ar taker.2 dcep) = decide (sign = 1)
  rcases hsign with rfl | rfl
  · simp [hpos.le]
  · simp [hpos]

theorem effect_takerCall (h : taker ∈ takers conf ar dcep hostName)
    (hpos : 0 < offered conf ar taker.2 dcep) (id : String) (held : ℕ) :
    (takerCall conf ar dcep hostName sign taker).effect id held =
      afterCall ar sign dcep.name hostName id held := by
  have hrsmap : (takerCall conf ar dcep hostName sign taker).rsmapInuse =
      ar.instances dcep.name hostName := rfl
  rw [Booking.effect, handleRsmap_takerCall h, rsmapTaken_takerCall hsign hpos, hrsmap, afterCall]
  cases hlist : ar.instances dcep.name hostName with
  | nil => simp
  | cons resl l => simp

/-- **A call meets the condition** of the diagram when what it takes is free, what it does
without instances is harmless, and no instance is held without an amount. -/
theorem rsmapStep_takerCall
    (h : taker ∈ takers conf ar dcep hostName) (hpos : 0 < offered conf ar taker.2 dcep)
    (hwindow : ar.window.startTime < ar.window.endTime)
    (hd : Spaced 0 Rde.time (u.utilized.getD []))
    (hfits : sign = 1 → ∀ id, instAt u.utilized id ar.window.startTime +
        reslTotal (ar.instances dcep.name hostName) id < 2 ^ 32 ∧
      ∀ e ∈ u.utilized.getD [], ar.window.startTime ≤ e.time →
        e.time < ar.window.endTime ∨ e.time = ar.window.startTime →
        reslAmount e.resourceMapList id + reslTotal (ar.instances dcep.name hostName) id < 2 ^ 32)
    (hquiet : ar.instances dcep.name hostName = [] → Quiet u.utilized ar.window)
    (hlead : ∀ t id, amountAt u.utilized t + (if ar.window.Covers t then
        (sign : ℚ) * offered conf ar taker.2 dcep else 0) = 0 → (if ar.window.Covers t then
        afterCall ar sign dcep.name hostName id (instAt u.utilized id t)
      else instAt u.utilized id t) = 0) :
    RsmapStep u.utilized (takerCall conf ar dcep hostName sign taker) := by
  have htaken : (takerCall conf ar dcep hostName sign taker).rsmapTaken = decide (sign = 1) :=
    rsmapTaken_takerCall hsign hpos
  have hbare : (takerCall conf ar dcep hostName sign taker).handleRsmap = false →
      Quiet u.utilized ar.window := by
    intro hhandle
    rw [handleRsmap_takerCall h] at hhandle
    apply hquiet
    simpa using hhandle
  constructor
  · intro hskip
    exact absurd hskip (by simp [Booking.skipped, takerCall, rcCall, Reservation.assignment])
  · intro _ ht
    rw [htaken] at ht
    exact hfits (of_decide_eq_true ht)
  · intro _ _ hempty
    exact absurd hempty hwindow.ne'
  · exact fun hhandle => (hbare hhandle).start
  · intro hhandle
    rcases (hbare hhandle).stop with ⟨e, he, htime⟩ | hzero
    · exact .inl ⟨e, mem_afterStart hd he (htime ▸ hwindow), htime⟩
    · exact .inr hzero
  · intro t ht id
    rw [effect_takerCall hsign h hpos]
    exact hlead t id (ht t le_rfl)

end OneCall

/-! ## The calls of a reservation -/

/-- A resource map among the complex entries. -/
structure Conf.IsMap (conf : Conf) (dcep : CEntry) : Prop where
  centry : dcep ∈ conf.centries
  type : dcep.valtype = .rsmap

/-- What resource maps are checked for. The slots are of another type. -/
def Conf.MapsChecked (conf : Conf) : Prop :=
  ∀ dcep, conf.IsMap dcep → dcep.relop ≠ .excl ∧ dcep.name ≠ sgeAttrSlots

/-- A reservation with a window, of which no two granted queue instances take a map from one
host. -/
structure Reservation.Clean (conf : Conf) (ar : Reservation) : Prop where
  granted : ar.Granted conf
  noSlots : ar.RequestsNoSlots
  window : ar.window.startTime < ar.window.endTime
  once : ∀ dcep, conf.IsMap dcep → ∀ hostName, (takers conf ar dcep hostName).length ≤ 1
  positive : ∀ dcep, conf.IsMap dcep → ∀ hostName, ∀ taker ∈ takers conf ar dcep hostName,
    0 < offered conf ar taker.2 dcep
  taken : ∀ dcep, conf.IsMap dcep → ∀ hostName, takers conf ar dcep hostName = [] →
    ar.instances dcep.name hostName = []

/-- The entries of the diagrams are sound, whatever they are for. -/
structure Books.Sound (books : Books) : Prop where
  rue : ∀ p name, (usageAt name (books p)).toRue.Sound
  instances : ∀ p name, RsmapSound (usageAt name (books p)).utilized

theorem Books.Sound.ordered {books : Books} (h : books.Sound) : OrderedBooks books :=
  fun p name => (h.rue p name).ordered

section Reservation

variable {conf : Conf} {ar : Reservation} {dcep : CEntry} {hostName : String} {sign : ℤ}
  {c : ReservationBooks}

theorem books_sound_empty : Books.Sound fun _ => [] where
  rue := by
    intro p name b
    cases b <;> exact sound_nil
  instances := fun p name => ⟨List.Pairwise.nil, List.forall_mem_nil _⟩

theorem sound_calls {w : JobWindow} (hw : w.startTime < w.endTime) {calls : List Booking}
    (hcalls : ∀ call ∈ calls, OfWindow w call) {u : Usage} (hu : u.toRue.Sound)
    (hinstances : RsmapSound u.utilized) :
    (calls.foldl Usage.schedule u).toRue.Sound ∧
      RsmapSound (calls.foldl Usage.schedule u).utilized := by
  induction calls generalizing u with
  | nil => exact ⟨hu, hinstances⟩
  | cons call calls ih =>
    obtain ⟨hcall, hcalls⟩ := List.forall_mem_cons.mp hcalls
    apply ih hcalls
    · apply utilizationAdd_sound hu
      rw [hcall.start, hcall.stop]
      exact hw
    · cases hexclusive : call.implicitNonExclusive with
      | false =>
        have hadd : RsmapSound (u.diagram call.implicitNonExclusive) →
            RsmapSound ((utilizationAdd u.toRue call).diagram call.implicitNonExclusive) :=
          RsmapSound.add
        rw [hexclusive] at hadd
        exact hadd hinstances
      | true =>
        have hskip := hcall.recorded (u.diagram call.implicitNonExclusive)
        have hother : (utilizationAdd u.toRue call).diagram false = u.diagram false := by
          rw [utilizationAdd_of_not_skipped hskip, Rue.diagram_setDiagram, hexclusive]
          rfl
        show RsmapSound ((utilizationAdd u.toRue call).diagram false)
        rw [hother]
        exact hinstances

theorem Books.Sound.reserve (hclean : ar.Clean conf) (incslots : Bool)
    (h : c.books.Sound) : (arDoReservation conf ar incslots c).books.Sound := by
  constructor
  · intro p name
    rw [usageAt_arDoReservation hclean.granted]
    exact (sound_calls hclean.window ofWindow_reservationCalls (h.rue p name)
      (h.instances p name)).1
  · intro p name
    rw [usageAt_arDoReservation hclean.granted]
    exact (sound_calls hclean.window ofWindow_reservationCalls (h.rue p name)
      (h.instances p name)).2

def takenOf (conf : Conf) (ar : Reservation) (dcep : CEntry) (hostName : String) : ℚ :=
  ((takers conf ar dcep hostName).map fun taker => offered conf ar taker.2 dcep).sum

theorem callTotal_takerCall (takers : List (Tag × Visit)) :
    callTotal false (takers.map (takerCall conf ar dcep hostName sign)) =
      sign * (takers.map fun taker => offered conf ar taker.2 dcep).sum := by
  induction takers with
  | nil => simp [callTotal]
  | cons taker takers ih =>
    rw [List.map_cons, callTotal_cons, ih, List.map_cons, List.sum_cons, mul_add]
    rfl

theorem Reservation.Clean.takenOf_nonneg (hclean : ar.Clean conf) (hmap : conf.IsMap dcep) :
    0 ≤ takenOf conf ar dcep hostName := by
  apply List.sum_nonneg
  intro amount hamount
  obtain ⟨taker, htaker, rfl⟩ := List.mem_map.mp hamount
  exact (hclean.positive dcep hmap hostName taker htaker).le

theorem Reservation.Clean.instances_of_takenOf (hclean : ar.Clean conf) (hmap : conf.IsMap dcep)
    (h : takenOf conf ar dcep hostName = 0) : ar.instances dcep.name hostName = [] := by
  apply hclean.taken dcep hmap
  by_contra hne
  obtain ⟨taker, htaker⟩ := List.exists_mem_of_ne_nil _ hne
  have hpos := hclean.positive dcep hmap hostName
  refine absurd h (List.sum_pos _ ?_ (by simpa using hne)).ne'
  intro amount hamount
  obtain ⟨taker, htaker, rfl⟩ := List.mem_map.mp hamount
  exact hpos taker htaker

/-! ## All reservations held -/

def takenTotal (conf : Conf) (held : List Reservation) (dcep : CEntry) (hostName : String) (t : ℕ) :
    ℚ :=
  (held.map fun ar => if ar.window.Covers t then takenOf conf ar dcep hostName else 0).sum

def grantedTotal (held : List Reservation) (name hostName id : String) (t : ℕ) : ℕ :=
  (held.map fun ar =>
    if ar.window.Covers t then reslTotal (ar.instances name hostName) id else 0).sum

variable {held : List Reservation}

theorem takenTotal_nonneg (hmap : conf.IsMap dcep)
    (hclean : ∀ ar ∈ held, ar.Clean conf) (t : ℕ) : 0 ≤ takenTotal conf held dcep hostName t := by
  apply List.sum_nonneg
  intro amount hamount
  obtain ⟨ar, har, rfl⟩ := List.mem_map.mp hamount
  split_ifs
  · exact (hclean ar har).takenOf_nonneg hmap
  · exact le_rfl

theorem grantedTotal_eq_zero (hmap : conf.IsMap dcep)
    (hclean : ∀ ar ∈ held, ar.Clean conf) {t : ℕ} (h : takenTotal conf held dcep hostName t = 0)
    (id : String) : grantedTotal held dcep.name hostName id t = 0 := by
  induction held with
  | nil => rfl
  | cons ar held ih =>
    obtain ⟨har, hclean⟩ := List.forall_mem_cons.mp hclean
    have hrest : 0 ≤ takenTotal conf held dcep hostName t := takenTotal_nonneg hmap hclean t
    have hsum : (if ar.window.Covers t then takenOf conf ar dcep hostName else 0) +
        takenTotal conf held dcep hostName t = 0 := h
    have hnonneg : 0 ≤ takenOf conf ar dcep hostName := har.takenOf_nonneg hmap
    show (if ar.window.Covers t then reslTotal (ar.instances dcep.name hostName) id else 0) +
      grantedTotal held dcep.name hostName id t = 0
    split_ifs at hsum ⊢
    · rw [har.instances_of_takenOf hmap (by linarith), reslTotal_nil, zero_add]
      exact ih hclean (by linarith)
    · rw [zero_add] at hsum ⊢
      exact ih hclean hsum

/-- **Booking or releasing a reservation.** If the reservations held afterwards take what the
amounts say, the diagram has the instances that they were granted. -/
theorem heldAt_arDoReservation (hconf : conf.Checked) (hmaps : conf.MapsChecked)
    (hmap : conf.IsMap dcep) (hclean : ar.Clean conf) (hsound : c.books.Sound) {incslots : Bool}
    (hsign : sign = if incslots then 1 else -1) (hheld : ∀ ar ∈ held, ar.Clean conf)
    (hamount : ∀ t, scheduledAt false dcep.name t (c.books (.host hostName)) +
      (if ar.window.Covers t then sign * takenOf conf ar dcep hostName else 0) =
        takenTotal conf held dcep hostName t) (hinst : ∀ id t, (if ar.window.Covers t then
        afterCall ar sign dcep.name hostName id (c.books.heldAt dcep.name hostName id t)
      else c.books.heldAt dcep.name hostName id t) = grantedTotal held dcep.name hostName id t)
    (hgiven : sign = -1 → ∀ id t, ar.window.Covers t →
      reslTotal (ar.instances dcep.name hostName) id ≤ c.books.heldAt dcep.name hostName id t)
    (hfits : sign = 1 → ∀ id, c.books.heldAt dcep.name hostName id ar.window.startTime +
        reslTotal (ar.instances dcep.name hostName) id < 2 ^ 32 ∧
      ∀ e ∈ (usageAt dcep.name (c.books (.host hostName))).utilized.getD [],
        ar.window.startTime ≤ e.time → e.time < ar.window.endTime ∨ e.time = ar.window.startTime →
        reslAmount e.resourceMapList id + reslTotal (ar.instances dcep.name hostName) id < 2 ^ 32)
    (hquiet : takers conf ar dcep hostName ≠ [] → ar.instances dcep.name hostName = [] →
      Quiet (usageAt dcep.name (c.books (.host hostName))).utilized ar.window) (id : String)
    (t : ℕ) :
    (arDoReservation conf ar incslots c).books.heldAt dcep.name hostName id t =
      grantedTotal held dcep.name hostName id t := by
  obtain ⟨hrelop, hslots⟩ := hmaps dcep hmap
  have hsigns : sign = 1 ∨ sign = -1 := by
    rw [hsign]
    cases incslots
    · exact .inr rfl
    · exact .inl rfl
  rw [Books.heldAt, usageAt_arDoReservation hclean.granted, ← hsign, ← hinst,
    reservationCalls_eq_map hconf hclean.noSlots hclean.granted hmap.centry hmap.type hrelop hsigns]
  rcases takers_of_once (hclean.once dcep hmap hostName) (hclean.positive dcep hmap hostName) with
    htakers | ⟨taker, htakers, hpos⟩
  · -- nothing is booked, and nothing was granted
    have hnone : ar.instances dcep.name hostName = [] := hclean.taken dcep hmap hostName htakers
    rw [htakers, afterCall, hnone, reslTotal_nil, add_zero, Nat.sub_zero, ite_self, ite_self]
    rfl
  · have hmem : taker ∈ takers conf ar dcep hostName := htakers ▸ (.head _)
    have htaken : takenOf conf ar dcep hostName = offered conf ar taker.2 dcep := by
      rw [takenOf, htakers]
      exact add_zero _
    have hlead : ∀ t id, scheduledAt false dcep.name t (c.books (.host hostName)) +
        (if ar.window.Covers t then (sign : ℚ) * offered conf ar taker.2 dcep else 0) = 0 →
        (if ar.window.Covers t then
          afterCall ar sign dcep.name hostName id (c.books.heldAt dcep.name hostName id t)
        else c.books.heldAt dcep.name hostName id t) = 0 := by
      intro t id hzero
      rw [← htaken, hamount] at hzero
      rw [hinst]
      exact grantedTotal_eq_zero hmap hheld hzero id
    have hstep : RsmapStep (usageAt dcep.name (c.books (.host hostName))).utilized
        (takerCall conf ar dcep hostName sign taker) :=
      rsmapStep_takerCall hsigns hmem hpos hclean.window (hsound.instances _ _).ordered hfits
        (hquiet (List.ne_nil_of_mem hmem)) hlead
    have hback : (takerCall conf ar dcep hostName sign taker).rsmapTaken = false → ∀ id t,
        ar.window.Covers t → reslTotal (ar.instances dcep.name hostName) id ≤
          c.books.heldAt dcep.name hostName id t := by
      intro hback
      rw [rsmapTaken_takerCall hsigns hpos] at hback
      exact hgiven (hsigns.resolve_left (of_decide_eq_false hback))
    rw [htakers, List.map_cons, List.map_nil, List.foldl_cons, List.foldl_nil, Books.heldAt,
      ← effect_takerCall hsigns hmem hpos]
    have hrsmap : RsmapSound ((usageAt dcep.name (c.books (.host hostName))).diagram
        (takerCall conf ar dcep hostName sign taker).implicitNonExclusive) :=
      hsound.instances (.host hostName) dcep.name
    exact instAt_add hrsmap hstep (fun _ => hback) id t

theorem reservationTotal_eq_takenOf (hconf : conf.Checked) (hmaps : conf.MapsChecked)
    (hmap : conf.IsMap dcep) (hclean : ar.Clean conf) (hsign : sign = 1 ∨ sign = -1) :
    reservationTotal conf ar sign (.host hostName) dcep.name false =
      sign * takenOf conf ar dcep hostName := by
  obtain ⟨hrelop, -⟩ := hmaps dcep hmap
  rw [← callTotal_reservationCalls, reservationCalls_eq_map hconf hclean.noSlots hclean.granted
    hmap.centry hmap.type hrelop hsign, callTotal_takerCall, takenOf]

end Reservation

end ClusterScheduler.Consumables
