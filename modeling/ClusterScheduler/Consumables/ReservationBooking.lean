import ClusterScheduler.Consumables.Schedule
import ClusterScheduler.Consumables.Tasks

/-!
# Booking advance reservations

An advance reservation is booked in the diagrams of the hosts and of the queue instances
that were granted to it, and released with the opposite number of slots.

* `Reservation` — what the bookings read of a reservation.
* `arDoReservation` — booking a reservation and releasing it.
* `Visit`, `visits` — the granted queue instances with what both loops through them compute.
* `usageAt_arDoReservation` — the calls a reservation makes for the diagrams of an element.
* `scheduledAt_arDoReservation` — what they add.

Events and messages are left out.
-/

namespace ClusterScheduler.Consumables

open Foundation Sched

/-! ## Data -/

/-- What the bookings read of a reservation. -/
structure Reservation where
  window : JobWindow
  resourceList : List Request
  grantedSlots : List GrantedQueue
  grantedPe : Option String
  peObject : Option Pe
  grantedResourcesList : List GrantedResource

def Reservation.dummyJob (ar : Reservation) : Job where
  jobNumber := 0
  owner := ""
  group := ""
  grpList := []
  project := none
  ar := 0
  requestSetList := [⟨.global, ar.resourceList⟩]

def Reservation.pe (ar : Reservation) : Option Pe := ar.grantedPe.bind fun _ => ar.peObject

def Reservation.assignment (conf : Conf) (ar : Reservation) : Assignment where
  job := ar.dummyJob
  pe := ar.pe
  gdil := ar.grantedSlots
  grants := ar.grantedResourcesList
  window := ar.window
  hosts := conf.hosts
  queues := fun name => (conf.queues name).map (·.config)
  forJobScheduling := false

/-- The diagrams of the hosts and queue instances, and of the slots of the parallel
environments that exist. -/
structure ReservationBooks where
  books : Books
  pes : String → Option Rue

/-! ## Functions of the source -/

section Functions

variable (conf : Conf) (ar : Reservation)

/-- The diagrams of the global host, of the host and of the queue instance. -/
def arReserveQueue (g : GrantedQueue) (qhostname : String) (tmpSlots : ℤ)
    (isMasterTask doPerHostBooking : Bool) (books : Books) : Books :=
  let book := fun tag objName => rcAddJobUtilization conf.parse conf.centries (ar.assignment conf)
    g tag objName tmpSlots isMasterTask doPerHostBooking
  let books := atPlace (conf.configAt (.host sgeGlobalName)) (.host sgeGlobalName)
    (book .globalTag sgeGlobalName) books
  let books := atPlace (conf.configAt (.host qhostname)) (.host qhostname)
    (book .hostTag qhostname) books
  atPlace (conf.configAt (.queue g.qname)) (.queue g.qname) (book .queueTag g.qname) books

/-- The loop through the granted queue instances, with the slots times `sign`. One that is
not found is passed by. -/
def arReserveGdil (sign : ℤ) : Bool → Option String → List GrantedQueue → Books → Books
  | _, _, [], books => books
  | isMasterTask, lastHostname, g :: gdil, books =>
    match conf.queues g.qname with
    | none => arReserveGdil sign false lastHostname gdil books
    | some queue =>
      let perHost := hostDoPerHostBooking lastHostname queue.qhostname
      arReserveGdil sign false perHost.2 gdil
        (arReserveQueue conf ar g queue.qhostname (sign * g.slots) isMasterTask perHost.1 books)

def arPeSlots (sign : ℤ) : ℤ :=
  ((ar.grantedSlots.filter fun g => (conf.queues g.qname).isSome).map fun g =>
    sign * g.slots).sum

def arPeCall (sign : ℤ) : Booking :=
  rcCall (ar.assignment conf) .peTag [] [] ⟨false, arPeSlots conf ar sign⟩

def arDoReservation (incslots : Bool) (c : ReservationBooks) : ReservationBooks where
  books := arReserveGdil conf ar (if incslots then 1 else -1) true none ar.grantedSlots c.books
  pes :=
    match ar.grantedPe with
    | none => c.pes
    | some pe => Function.update c.pes pe ((c.pes pe).map fun cr =>
      utilizationAdd cr (arPeCall conf ar (if incslots then 1 else -1)))

end Functions

/-! ## The granted queue instances -/

/-- A granted queue instance, whether it is the first one, and whether the one before it is
on another host. -/
structure Visit where
  granted : GrantedQueue
  isMasterTask : Bool
  doPerHostBooking : Bool

def visitsFrom : Bool → Option String → List GrantedQueue → List Visit
  | _, _, [] => []
  | isMasterTask, lastHostname, g :: gdil =>
    let perHost := hostDoPerHostBooking lastHostname g.qhostname
    ⟨g, isMasterTask, perHost.1⟩ :: visitsFrom false perHost.2 gdil

def Reservation.visits (ar : Reservation) : List Visit := visitsFrom true none ar.grantedSlots

/-- What was granted is there: queue instances on their hosts, with slots, each once. -/
structure Reservation.Granted (conf : Conf) (ar : Reservation) : Prop where
  queues : ∀ g ∈ ar.grantedSlots, ∃ queue, conf.queues g.qname = some queue ∧
    queue.qhostname = g.qhostname
  slots : ∀ g ∈ ar.grantedSlots, g.slots ≠ 0
  distinct : (ar.grantedSlots.map (·.qname)).Nodup

theorem map_granted_visitsFrom (isMasterTask : Bool) (lastHostname : Option String)
    (gdil : List GrantedQueue) :
    (visitsFrom isMasterTask lastHostname gdil).map (·.granted) = gdil := by
  induction gdil generalizing isMasterTask lastHostname with
  | nil => rfl
  | cons g gdil ih => rw [visitsFrom, List.map_cons, ih]

theorem granted_mem_of_visit {ar : Reservation} {v : Visit} (h : v ∈ ar.visits) :
    v.granted ∈ ar.grantedSlots := by
  have hmem := List.mem_map_of_mem (f := Visit.granted) h
  rwa [Reservation.visits, map_granted_visitsFrom] at hmem

/-! ## The calls -/

section Calls

variable {parse : ParseUlongVal} {centries : List CEntry} {a : Assignment} {g : GrantedQueue}
  {tag : Tag} {objName name : String} {slots : ℤ} {isMasterTask doPerHostBooking : Bool} {p : Place}

structure OfWindow (w : JobWindow) (call : Booking) : Prop where
  start : call.startTime = w.startTime
  stop : call.endTime = w.endTime
  recorded : ∀ d, call.skipped d = false

/-- Bookings for reservations are always recorded, those for jobs when reservations are
configured and the job has a duration. -/
def Assignment.Recorded (a : Assignment) : Prop :=
  a.forJobScheduling = false ∨ (a.window.maxReservations ≠ 0 ∧ a.window.duration ≠ 0)

theorem ofWindow_rcCall (h : a.Recorded) (binding : List (List Char)) (rsmap : List Resl)
    (amount : Amount) : OfWindow a.window (rcCall a tag binding rsmap amount) := by
  refine ⟨rfl, rfl, fun d => ?_⟩
  rcases h with hforJob | ⟨hmax, hduration⟩
  · simp [Booking.skipped, rcCall, hforJob]
  · simp [Booking.skipped, rcCall, hmax, hduration]

theorem ofWindow_configCalls (h : a.Recorded) (config : List String) :
    ∀ call ∈ configCalls parse centries a g tag objName slots isMasterTask doPerHostBooking
      name config, OfWindow a.window call := by
  induction config with
  | nil => exact List.forall_mem_nil _
  | cons n config ih =>
    rw [configCalls]
    cases centryListLocate centries n with
    | none => exact List.forall_mem_nil _
    | some dcep =>
      intro call hcall
      rcases List.mem_append.mp hcall with hcall | hcall
      · split_ifs at hcall
        · obtain ⟨amount, -, rfl⟩ := List.mem_map.mp hcall
          split_ifs
          all_goals exact ofWindow_rcCall h _ _ _
        · cases hcall
      · exact ih call hcall

theorem ofWindow_placeCalls (h : a.Recorded) (config : Option (List String)) (place : Place) :
    ∀ call ∈ placeCalls parse centries a g config place tag objName isMasterTask doPerHostBooking
      p name, OfWindow a.window call := by
  intro call hcall
  unfold placeCalls at hcall
  split at hcall
  · split at hcall
    · exact ofWindow_configCalls h _ call hcall
    · cases hcall
  · cases hcall

theorem ofWindow_scheduleCalls (h : a.Recorded) (gdil : List GrantedQueue)
    (doPerGlobalHostBooking : Bool) (last : Option String) :
    ∀ call ∈ scheduleCalls parse centries a p name isMasterTask doPerGlobalHostBooking last gdil,
      OfWindow a.window call := by
  induction gdil generalizing isMasterTask doPerGlobalHostBooking last with
  | nil => exact List.forall_mem_nil _
  | cons g gdil ih =>
    intro call hcall
    rw [scheduleCalls] at hcall
    rcases List.mem_append.mp hcall with hcall | hcall
    · rcases List.mem_append.mp hcall with hcall | hcall
      · rcases List.mem_append.mp hcall with hcall | hcall
        · exact ofWindow_placeCalls h _ _ call hcall
        · exact ofWindow_placeCalls h _ _ call hcall
      · exact ofWindow_placeCalls h _ _ call hcall
    · exact ih _ _ call hcall

end Calls

/-! ## What calls add to the diagrams -/

def scheduledAt (b : Bool) (name : String) (t : ℕ) (actual : List Usage) : ℚ :=
  amountAt ((usageAt name actual).diagram b) t

def JobWindow.Covers (w : JobWindow) (t : ℕ) : Prop := w.startTime ≤ t ∧ t < w.endTime

instance (w : JobWindow) (t : ℕ) : Decidable (w.Covers t) :=
  inferInstanceAs (Decidable (_ ∧ _))

/-- The entries of every diagram are in order. -/
def OrderedBooks (books : Books) : Prop := ∀ p name, (usageAt name (books p)).toRue.Ordered

theorem orderedBooks_empty : OrderedBooks fun _ => [] := by
  intro p name b
  cases b <;> exact List.Pairwise.nil

variable {u : Usage}

theorem ordered_schedule (calls : List Booking) (h : u.toRue.Ordered) :
    (calls.foldl Usage.schedule u).toRue.Ordered := by
  induction calls generalizing u with
  | nil => exact h
  | cons call calls ih =>
    apply ih
    exact h.add call

theorem amountAt_calls {w : JobWindow} {b : Bool} {calls : List Booking}
    (hcalls : ∀ call ∈ calls, OfWindow w call) (hu : u.toRue.Ordered) (t : ℕ) :
    amountAt ((calls.foldl Usage.schedule u).diagram b) t =
      amountAt (u.diagram b) t + if w.Covers t then callTotal b calls else 0 := by
  induction calls generalizing u with
  | nil => simp [callTotal]
  | cons call calls ih =>
    obtain ⟨hcall, hcalls⟩ := List.forall_mem_cons.mp hcalls
    rw [List.foldl_cons, ih hcalls (hu.add call)]
    show amountAt ((utilizationAdd u.toRue call).diagram b) t + _ = _
    rw [amountAt_utilizationAdd hu (hcall.recorded _), callTotal_cons, hcall.start, hcall.stop, add_assoc]
    congr 1
    unfold JobWindow.Covers
    by_cases ht : w.startTime ≤ t ∧ t < w.endTime
    · simp [ht]
    · simp [ht]

/-- Where both bookings agree, the diagrams grow over the window by as much as what is in use. -/
theorem BookingsAgree.scheduledAt {parse : ParseUlongVal} {centries : List CEntry} {a : Assignment}
    {books : Books} (h : BookingsAgree parse centries a books) (ha : a.Recorded)
    (hbooks : OrderedBooks (debitScheduledJobNow parse centries a books)) (p : Place)
    (name : String) (b : Bool) (t : ℕ) :
    scheduledAt b name t (debitScheduledJob parse centries a books p) =
      scheduledAt b name t (debitScheduledJobNow parse centries a books p) +
        if a.window.Covers t then
          nowAt b name (debitScheduledJob parse centries a books p) - nowAt b name (books p)
        else 0 := by
  rw [Consumables.scheduledAt, debitScheduledJob, usageAt_addJobUtilization,
    amountAt_calls (ofWindow_scheduleCalls ha _ _ _) (hbooks p name), ← h p name b]
  rfl

/-! ## The calls of a reservation -/

section Reservation

variable (conf : Conf) (ar : Reservation)

def callsAt (v : Visit) (place : Place) (tag : Tag) (objName : String) (sign : ℤ) (p : Place)
    (name : String) : List Booking :=
  if p = place then
    configCalls conf.parse conf.centries (ar.assignment conf) v.granted tag objName
      (sign * v.granted.slots) v.isMasterTask v.doPerHostBooking name
      ((conf.configAt place).getD [])
  else []

/-- The calls for an element of a place, for one granted queue instance. -/
def visitCalls (v : Visit) (sign : ℤ) (p : Place) (name : String) : List Booking :=
  callsAt conf ar v (.host sgeGlobalName) .globalTag sgeGlobalName sign p name ++
    callsAt conf ar v (.host v.granted.qhostname) .hostTag v.granted.qhostname sign p name ++
    callsAt conf ar v (.queue v.granted.qname) .queueTag v.granted.qname sign p name

def reservationCalls (sign : ℤ) (p : Place) (name : String) : List Booking :=
  ar.visits.flatMap fun v => visitCalls conf ar v sign p name

/-- What is taken of a consumable of a place, by the booking of one. -/
def takenAt (v : Visit) (place : Place) (sign : ℤ) (p : Place) (name : String) (b : Bool) : ℚ :=
  if p = place then
    configTotal conf.parse conf.centries ar.dummyJob ar.pe (sign * v.granted.slots)
      v.isMasterTask v.doPerHostBooking b name ((conf.configAt place).getD [])
  else 0

/-- What one granted queue instance takes of a consumable of a place. -/
def visitTotal (v : Visit) (sign : ℤ) (p : Place) (name : String) (b : Bool) : ℚ :=
  takenAt conf ar v (.host sgeGlobalName) sign p name b +
    takenAt conf ar v (.host v.granted.qhostname) sign p name b +
    takenAt conf ar v (.queue v.granted.qname) sign p name b

def reservationTotal (sign : ℤ) (p : Place) (name : String) (b : Bool) : ℚ :=
  (ar.visits.map fun v => visitTotal conf ar v sign p name b).sum

variable {conf ar} {name : String} {p : Place} {sign : ℤ} {b : Bool}

variable {v : Visit}

theorem usageAt_reserve_atPlace {place : Place} {tag : Tag} {objName : String}
    (hslots : sign * v.granted.slots ≠ 0) (books : Books) :
    usageAt name (atPlace (conf.configAt place) place (rcAddJobUtilization conf.parse conf.centries
      (ar.assignment conf) v.granted tag objName (sign * v.granted.slots) v.isMasterTask
        v.doPerHostBooking) books p) =
      (callsAt conf ar v place tag objName sign p name).foldl Usage.schedule
        (usageAt name (books p)) := by
  unfold callsAt
  by_cases hp : p = place
  · rw [if_pos hp, hp]
    cases conf.configAt place with
    | none => rfl
    | some config =>
      rw [atPlace, Function.update_self, usageAt_rcAddJobUtilization hslots]
      rfl
  · rw [if_neg hp]
    cases conf.configAt place with
    | none => rfl
    | some config =>
      rw [atPlace, Function.update_of_ne hp]
      rfl

theorem usageAt_arReserveQueue (hslots : sign * v.granted.slots ≠ 0) (books : Books) :
    usageAt name (arReserveQueue conf ar v.granted v.granted.qhostname
      (sign * v.granted.slots) v.isMasterTask v.doPerHostBooking books p) =
      (visitCalls conf ar v sign p name).foldl Usage.schedule (usageAt name (books p)) := by
  rw [arReserveQueue, visitCalls, List.foldl_append, List.foldl_append]
  dsimp only
  rw [usageAt_reserve_atPlace hslots, usageAt_reserve_atPlace hslots,
    usageAt_reserve_atPlace hslots]

/-- **The diagrams after a reservation** was booked or released are those its calls make. -/
theorem usageAt_arDoReservation (hgranted : ar.Granted conf) (incslots : Bool)
    (c : ReservationBooks) :
    usageAt name ((arDoReservation conf ar incslots c).books p) =
      (reservationCalls conf ar (if incslots then 1 else -1) p name).foldl Usage.schedule
        (usageAt name (c.books p)) := by
  have hsign : (if incslots then 1 else -1 : ℤ) ≠ 0 := by cases incslots <;> decide
  rw [arDoReservation, reservationCalls, Reservation.visits]
  generalize (if incslots then 1 else -1 : ℤ) = sign at hsign
  have hgdil : ∀ (gdil : List GrantedQueue), (∀ g ∈ gdil, g ∈ ar.grantedSlots) →
      ∀ isMasterTask lastHostname books,
        usageAt name (arReserveGdil conf ar sign isMasterTask lastHostname gdil books p) =
          ((visitsFrom isMasterTask lastHostname gdil).flatMap fun v =>
            visitCalls conf ar v sign p name).foldl Usage.schedule (usageAt name (books p)) := by
    intro gdil
    induction gdil with
    | nil => exact fun _ _ _ _ => rfl
    | cons g gdil ih =>
      intro hmem isMasterTask lastHostname books
      obtain ⟨hg, hmem⟩ := List.forall_mem_cons.mp hmem
      obtain ⟨queue, hqueue, hhost⟩ := hgranted.queues g hg
      have hslots : sign * g.slots ≠ 0 :=
        mul_ne_zero hsign (Nat.cast_ne_zero.mpr (hgranted.slots g hg))
      rw [arReserveGdil, hqueue, visitsFrom]
      dsimp only
      rw [hhost, ih hmem, List.flatMap_cons, List.foldl_append]
      congr 1
      exact usageAt_arReserveQueue (v := ⟨g, isMasterTask, _⟩) hslots books
  exact hgdil ar.grantedSlots (fun _ h => h) true none c.books

theorem ofWindow_reservationCalls :
    ∀ call ∈ reservationCalls conf ar sign p name, OfWindow ar.window call := by
  have hat : ∀ v place tag objName, ∀ call ∈ callsAt conf ar v place tag objName sign p name,
      OfWindow ar.window call := by
    intro v place tag objName call hcall
    rw [callsAt] at hcall
    split_ifs at hcall
    · exact ofWindow_configCalls (a := ar.assignment conf) (.inl rfl) _ call hcall
    · cases hcall
  intro call hcall
  obtain ⟨v, -, hcall⟩ := List.mem_flatMap.mp hcall
  rcases List.mem_append.mp hcall with hcall | hcall
  · rcases List.mem_append.mp hcall with hcall | hcall
    · exact hat _ _ _ _ call hcall
    · exact hat _ _ _ _ call hcall
  · exact hat _ _ _ _ call hcall

theorem callTotal_reservationCalls :
    callTotal b (reservationCalls conf ar sign p name) = reservationTotal conf ar sign p name b := by
  have hat : ∀ v place tag objName, callTotal b (callsAt conf ar v place tag objName sign p name) =
      takenAt conf ar v place sign p name b := by
    intro v place tag objName
    rw [callsAt, takenAt]
    split_ifs
    · exact callTotal_configCalls _
    · rfl
  rw [reservationCalls, reservationTotal]
  induction ar.visits with
  | nil => rfl
  | cons v l ih =>
    rw [List.flatMap_cons, callTotal_append, ih, List.map_cons, List.sum_cons, visitCalls,
      callTotal_append, callTotal_append, hat, hat, hat, visitTotal]

variable {c : ReservationBooks}

variable (hgranted : ar.Granted conf)
include hgranted

/-- **What a reservation adds** to a diagram when it is booked or released. -/
theorem scheduledAt_arDoReservation (incslots : Bool) (hc : OrderedBooks c.books) (t : ℕ) :
    scheduledAt b name t ((arDoReservation conf ar incslots c).books p) =
      scheduledAt b name t (c.books p) +
        if ar.window.Covers t then
          reservationTotal conf ar (if incslots then 1 else -1) p name b
        else 0 := by
  rw [scheduledAt, usageAt_arDoReservation hgranted, amountAt_calls ofWindow_reservationCalls
    (hc p name), callTotal_reservationCalls]
  rfl

theorem OrderedBooks.reserve (incslots : Bool)
    (hc : OrderedBooks c.books) : OrderedBooks (arDoReservation conf ar incslots c).books := by
  intro p name
  rw [usageAt_arDoReservation hgranted]
  exact ordered_schedule _ (hc p name)

/-- **A release takes back** what was booked. -/
theorem reservationTotal_neg :
    reservationTotal conf ar (-1) p name b = -reservationTotal conf ar 1 p name b := by
  rw [reservationTotal, reservationTotal, ← sum_map_neg]
  refine congrArg List.sum (List.map_congr_left fun v hv => ?_)
  have hslots : (1 * (v.granted.slots : ℤ)) ≠ 0 := by
    rw [one_mul]
    exact Nat.cast_ne_zero.mpr (hgranted.slots _ (granted_mem_of_visit hv))
  have hat : ∀ place, takenAt conf ar v place (-1) p name b = -takenAt conf ar v place 1 p name b := by
    intro place
    rw [takenAt, takenAt, neg_mul]
    split_ifs
    · exact configTotal_neg hslots
    · exact neg_zero.symm
  rw [visitTotal, visitTotal, hat, hat, hat]
  ring

end Reservation

/-! ## Runs -/

/-- A reservation is booked or released. -/
structure ReservationCall where
  ar : Reservation
  incslots : Bool

def doReservations (conf : Conf) (calls : List ReservationCall) (c : ReservationBooks) :
    ReservationBooks :=
  calls.foldl (fun c call => arDoReservation conf call.ar call.incslots c) c

theorem OrderedBooks.run {conf : Conf} {calls : List ReservationCall}
    (hcalls : ∀ call ∈ calls, call.ar.Granted conf) {c : ReservationBooks}
    (hc : OrderedBooks c.books) : OrderedBooks (doReservations conf calls c).books := by
  induction calls generalizing c with
  | nil => exact hc
  | cons call calls ih =>
    obtain ⟨hcall, hcalls⟩ := List.forall_mem_cons.mp hcalls
    exact ih hcalls (hc.reserve hcall call.incslots)

end ClusterScheduler.Consumables
