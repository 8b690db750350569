import ClusterScheduler.Consumables.Quotas

/-!
# Quotas in the schedule

Reservations are checked against the diagrams of the limits, which
`rqsAddJobUtilization` books as `rqsDebitRuleUsage` books what is in use now.

* `JobWindow` — when a job runs.
* `rqsSlaveUtilization` — its own booking of the slave tasks.
* `rqsAddJobUtilization` — booking the diagrams of the limits of a rule.
* `amountAt_addLimit` — what the calls for a limit add to its diagrams.
* `quota_bookings_agree_iff` — both functions book the same, but for the slots of
  slave tasks whose requests do not count on the master host.
-/

namespace ClusterScheduler.Consumables

open Foundation Sched

/-! ## Functions of the source -/

/-- When a job runs, and how many reservations are configured. -/
structure JobWindow where
  startTime : ℕ
  duration : ℕ
  maxReservations : ℕ
  start_lt : startTime < 2 ^ 64 := by decide
  duration_lt : duration < 2 ^ 64 := by decide

def rqsCall (w : JobWindow) (a : Amount) : Booking where
  startTime := w.startTime
  duration := w.duration
  utilization := a.value
  level := .rqsTag
  forJob := true
  implicitNonExclusive := a.nonexclusive
  bindingTouse := []
  rsmapInuse := []
  maxReservations := w.maxReservations
  start_lt := w.start_lt
  duration_lt := w.duration_lt

def Usage.schedule (u : Usage) (call : Booking) : Usage :=
  { u with toRue := utilizationAdd u.toRue call }

section Schedule

variable (parse : ParseUlongVal) (centries : List CEntry) (job : Job) (pe : Option Pe)
  (slots : ℤ) (isMasterTask doPerHostBooking : Bool)

/-- The slave tasks. When their requests do not count on the master host, the amount
for the slots is determined, and nothing is booked. -/
def rqsSlaveUtilization (name : String) (dcep : CEntry) (pe : Pe) : List ℚ :=
  if slaveSlots slots isMasterTask pe ≠ 0 then
    if isMasterTask && pe.ignoreSlaveRequestsOnMasterHost then []
    else bookFor (consumableGetDebitSlots dcep.consumable (slaveSlots slots isMasterTask pe))
      (jobGetContributionByScope parse job name dcep .slave)
  else []

def rqsExplicitUtilization (name : String) (dcep : CEntry) : List ℚ :=
  match jobGetContributionByScope parse job name dcep .global with
  | some dval => bookFor (consumableGetDebitSlots dcep.consumable slots) (some dval)
  | none =>
    match pe with
    | some pe => masterDebits parse job name dcep slots isMasterTask ++
        rqsSlaveUtilization parse job slots isMasterTask name dcep pe
    | none => []

/-- The amounts booked for one limit, in order. -/
def limitUtilization (limitName : String) : List Amount :=
  match centryListLocate centries limitName with
  | none => []
  | some rawCentry =>
    if !consumableDoBooking rawCentry.consumable isMasterTask doPerHostBooking then []
    else withImplicit rawCentry slots
      (rqsExplicitUtilization parse job pe slots isMasterTask limitName rawCentry)

def rqsUtilizationCalls (w : JobWindow) (limitName : String) : List Booking :=
  (limitUtilization parse centries job pe slots isMasterTask doPerHostBooking limitName).map
    (rqsCall w)

/-- One round of the loop through the limits. The element is made even when nothing is
booked. -/
def rqsAddLimit (w : JobWindow) (rueName : String) (limit : Limit) : ℕ × Limit :=
  match centryListLocate centries limit.name with
  | none => (0, limit)
  | some rawCentry =>
    let usage := ensureUsage rawCentry.consumable rueName limit.usage
    let calls := rqsUtilizationCalls parse centries job pe slots isMasterTask
      doPerHostBooking w limit.name
    (calls.length, { limit with
      usage := if calls = [] then usage
        else updateUsage rueName (fun u => calls.foldl Usage.schedule u) usage })

def rqsAddJobUtilization (w : JobWindow) (limits : List Limit) (rueName : String) :
    ℕ × List Limit :=
  let rounds := limits.map
    (rqsAddLimit parse centries job pe slots isMasterTask doPerHostBooking w rueName)
  ((rounds.map Prod.fst).sum, rounds.map Prod.snd)

end Schedule

/-! ## What the calls add to the diagrams -/

def callTotal (nonexclusive : Bool) (calls : List Booking) : ℚ :=
  ((calls.filter (·.implicitNonExclusive = nonexclusive)).map Booking.utilization).sum

theorem callTotal_cons (b : Bool) (call : Booking) (calls : List Booking) :
    callTotal b (call :: calls) =
      (if call.implicitNonExclusive = b then call.utilization else 0) + callTotal b calls := by
  unfold callTotal
  by_cases h : call.implicitNonExclusive = b <;> simp [h]

theorem callTotal_map (b : Bool) (w : JobWindow) (l : List Amount) :
    callTotal b (l.map (rqsCall w)) = total b l := by
  induction l with
  | nil => rfl
  | cons a l ih =>
    rw [List.map_cons, callTotal_cons, ih, total_cons]
    rfl

/-- A window that is booked: reservations are configured, and the job has a duration. -/
structure JobWindow.Booked (w : JobWindow) : Prop where
  maxReservations : w.maxReservations ≠ 0
  duration : 0 < w.duration
  startTime : w.startTime ≠ uint64Max

def JobWindow.endTime (w : JobWindow) : ℕ := utilizationEndtime w.startTime w.duration

section Calls

variable {w : JobWindow} {b : Bool}

theorem JobWindow.Booked.lt (hw : w.Booked) (a : Amount) :
    (rqsCall w a).startTime < (rqsCall w a).endTime :=
  Booking.start_lt_end (b := rqsCall w a) hw.duration hw.startTime

theorem JobWindow.Booked.not_skipped (hw : w.Booked) (a : Amount) (d : Option (List Rde)) :
    (rqsCall w a).skipped d = false := by
  have hmax := hw.maxReservations
  have hduration := hw.duration.ne'
  simp [Booking.skipped, rqsCall, hmax, hduration]

theorem amountAt_schedule (hw : w.Booked) (l : List Amount) {u : Usage} (hu : u.toRue.Sound)
    (t : ℕ) :
    amountAt ((l.map (rqsCall w)).foldl Usage.schedule u |>.diagram b) t =
      amountAt (u.diagram b) t +
        if w.startTime ≤ t ∧ t < w.endTime then total b l else 0 := by
  induction l generalizing u with
  | nil => simp
  | cons a l ih =>
    have hsound := utilizationAdd_sound hu (hw.lt a)
    have hadd := amountAt_utilizationAdd hu.ordered (hw.not_skipped a _) b t
    rw [List.map_cons, List.foldl_cons, ih hsound]
    show amountAt ((utilizationAdd u.toRue (rqsCall w a)).diagram b) t + _ = _
    rw [hadd, total_cons, add_assoc]
    congr 1
    show (if a.nonexclusive = b ∧ w.startTime ≤ t ∧ t < w.endTime then a.value else 0) + _ = _
    split_ifs with hc ht ht hb <;> simp_all

end Calls

section Agree

variable {parse : ParseUlongVal} {centries : List CEntry} {job : Job} {pe : Option Pe}
  {slots : ℤ} {isMasterTask doPerHostBooking b : Bool} {w : JobWindow} {rueName : String}

theorem schedule_name (calls : List Booking) (u : Usage) :
    (calls.foldl Usage.schedule u).name = u.name := by
  induction calls generalizing u with
  | nil => rfl
  | cons call calls ih => exact (ih (u.schedule call)).trans (utilizationAdd_name u.toRue call)

/-- **What the calls for a limit add** to the diagrams of its element, at every time of
the window. -/
theorem amountAt_addLimit (hw : w.Booked) {limit : Limit}
    (hsound : (usageAt rueName limit.usage).toRue.Sound) (t : ℕ) :
    amountAt ((usageAt rueName (rqsAddLimit parse centries job pe slots isMasterTask
      doPerHostBooking w rueName limit).2.usage).diagram b) t =
      amountAt ((usageAt rueName limit.usage).diagram b) t +
        if w.startTime ≤ t ∧ t < w.endTime then
          callTotal b (rqsUtilizationCalls parse centries job pe slots isMasterTask
            doPerHostBooking w limit.name)
        else 0 := by
  rw [rqsAddLimit, rqsUtilizationCalls, callTotal_map]
  cases hlocate : centryListLocate centries limit.name with
  | none => simp [limitUtilization, hlocate]
  | some rawCentry =>
    dsimp only
    generalize limitUtilization parse centries job pe slots isMasterTask doPerHostBooking
      limit.name = l
    split_ifs with hnil ht ht
    · rw [usageAt_ensureUsage, List.map_eq_nil_iff.mp hnil, total_nil, add_zero]
    · rw [usageAt_ensureUsage, add_zero]
    · rw [usageAt_updateUsage (schedule_name _), if_pos rfl, usageAt_ensureUsage,
        amountAt_schedule hw l hsound, if_pos ht]
    · rw [usageAt_updateUsage (schedule_name _), if_pos rfl, usageAt_ensureUsage,
        amountAt_schedule hw l hsound, if_neg ht]

/-! ## Both functions -/

/-- The slave tasks on the master host have slots that only the function for what is in
use now books. -/
def SlaveSlotsIgnored (parse : ParseUlongVal) (centries : List CEntry) (job : Job)
    (pe : Option Pe) (slots : ℤ) (isMasterTask doPerHostBooking : Bool) (limitName : String) :
    Prop :=
  ∃ rawCentry p, centryListLocate centries limitName = some rawCentry ∧
    consumableDoBooking rawCentry.consumable isMasterTask doPerHostBooking = true ∧
    jobGetContributionByScope parse job limitName rawCentry .global = none ∧
    pe = some p ∧ isMasterTask = true ∧ p.ignoreSlaveRequestsOnMasterHost = true ∧
    limitName = sgeAttrSlots ∧ slaveSlots slots isMasterTask p ≠ 0

/-- The amounts added to the elements of a limit by both functions. -/
def BookedAlike (parse : ParseUlongVal) (centries : List CEntry) (job : Job) (pe : Option Pe)
    (slots : ℤ) (isMasterTask doPerHostBooking : Bool) (w : JobWindow) (rueName : String)
    (limit : Limit) : Prop :=
  ∀ b, nowAt b rueName (rqsDebitLimit parse centries (some job) pe rueName slots isMasterTask
      doPerHostBooking limit).2.usage - nowAt b rueName limit.usage =
    callTotal b (rqsUtilizationCalls parse centries job pe slots isMasterTask doPerHostBooking w
      limit.name)

variable {rawCentry : CEntry} {p : Pe}

theorem slaveDebits_ignored (hmaster : isMasterTask = true)
    (hignore : p.ignoreSlaveRequestsOnMasterHost = true)
    (hslots : slaveSlots slots isMasterTask p ≠ 0) :
    slaveDebits parse job sgeAttrSlots rawCentry slots isMasterTask p =
      [(consumableGetDebitSlots rawCentry.consumable (slaveSlots slots isMasterTask p) : ℚ)] ∧
    rqsSlaveUtilization parse job slots isMasterTask sgeAttrSlots rawCentry p = [] := by
  constructor
  · rw [slaveDebits, if_pos hslots, slaveContribution, hmaster, hignore]
    simp [bookFor]
  · rw [rqsSlaveUtilization, hmaster, hignore]
    simp

/-- Otherwise both functions book the slave tasks alike. -/
theorem slaveDebits_eq {name : String}
    (h : ¬ (isMasterTask = true ∧ p.ignoreSlaveRequestsOnMasterHost = true ∧
      name = sgeAttrSlots ∧ slaveSlots slots isMasterTask p ≠ 0)) :
    slaveDebits parse job name rawCentry slots isMasterTask p =
      rqsSlaveUtilization parse job slots isMasterTask name rawCentry p := by
  unfold slaveDebits rqsSlaveUtilization slaveContribution
  by_cases hslots : slaveSlots slots isMasterTask p ≠ 0
  · rw [if_pos hslots, if_pos hslots]
    by_cases hboth : (isMasterTask && p.ignoreSlaveRequestsOnMasterHost) = true
    · obtain ⟨hmaster, hignore⟩ := Bool.and_eq_true_iff.mp hboth
      have hname : name ≠ sgeAttrSlots := fun hname => h ⟨hmaster, hignore, hname, hslots⟩
      rw [if_pos hboth, if_pos hboth, if_neg hname]
      simp [bookFor]
    · rw [if_neg hboth, if_neg hboth]
  · rw [if_neg hslots, if_neg hslots]

/-- Both functions add the same to a limit exactly when no slots are ignored. -/
theorem total_agree_iff (limitName : String) :
    (∀ b, total b (limitDebits parse centries job pe slots isMasterTask doPerHostBooking
        limitName) = total b (limitUtilization parse centries job pe slots isMasterTask
          doPerHostBooking limitName)) ↔
      ¬ SlaveSlotsIgnored parse centries job pe slots isMasterTask doPerHostBooking limitName := by
  constructor
  · rintro hagree ⟨rawCentry, p, hlocate, hdo, hglobal, rfl, hmaster, hignore, rfl, hslots⟩
    have hsum := hagree false
    rw [limitDebits, limitUtilization, hlocate] at hsum
    simp only [hdo, Bool.not_true, Bool.false_eq_true, if_false, if_true, consumableDebits,
      sum_withImplicit, explicitDebits, rqsExplicitUtilization, hglobal] at hsum
    rw [(slaveDebits_ignored hmaster hignore hslots).1,
      (slaveDebits_ignored hmaster hignore hslots).2, List.sum_append, List.sum_append,
      List.sum_nil, List.sum_singleton, add_zero] at hsum
    have hzero := add_eq_left.mp hsum
    exact hslots (consumableGetDebitSlots_eq_zero.mp (by exact_mod_cast hzero))
  · intro h b
    congr 1
    rw [limitDebits, limitUtilization]
    cases hlocate : centryListLocate centries limitName with
    | none => rfl
    | some rawCentry =>
      dsimp only
      cases hdo : consumableDoBooking rawCentry.consumable isMasterTask doPerHostBooking with
      | false => rfl
      | true =>
        simp only [Bool.not_true, Bool.false_eq_true, if_false, if_true, consumableDebits]
        congr 1
        unfold explicitDebits rqsExplicitUtilization
        cases hglobal : jobGetContributionByScope parse job limitName rawCentry .global with
        | some dval => rfl
        | none =>
          cases hpe : pe with
          | none => rfl
          | some p =>
            dsimp only
            rw [slaveDebits_eq fun hslave => h ⟨rawCentry, p, hlocate, hdo, hglobal, hpe, hslave⟩]

/-- **Quota bookings agree between now and schedule** exactly when no slots of slave
tasks are ignored. -/
theorem quota_bookings_agree_iff (parse : ParseUlongVal) (centries : List CEntry) (job : Job)
    (pe : Option Pe) (slots : ℤ) (isMasterTask doPerHostBooking : Bool) (w : JobWindow)
    (rueName : String) (limits : List Limit)
    (hdistinct : ∀ limit ∈ limits, DistinctNames limit.usage) :
    (∀ limit ∈ limits, BookedAlike parse centries job pe slots isMasterTask doPerHostBooking w
        rueName limit) ↔
      ∀ limit ∈ limits, ¬ SlaveSlotsIgnored parse centries job pe slots isMasterTask
        doPerHostBooking limit.name := by
  refine forall₂_congr fun limit hm => ?_
  rw [← total_agree_iff, BookedAlike]
  refine forall_congr' fun b => ?_
  rw [nowAt_debitLimit (hdistinct limit hm), if_pos rfl, add_sub_cancel_left,
    rqsUtilizationCalls, callTotal_map]

end Agree

/-! ## A parallel job on its master host -/

def parseDigit : ParseUlongVal := fun _ s =>
  if s = "0" then some 0 else if s = "1" then some 1 else none

def slotsCEntry (defaultval : String) : CEntry where
  name := sgeAttrSlots
  shortcut := "s"
  valtype := .int
  relop := .le
  consumable := .yes
  defaultval := defaultval

/-- A job without requests. -/
def plainJob : Job where
  jobNumber := 1
  owner := "owner"
  group := "group"
  grpList := []
  project := none
  ar := 0
  requestSetList := []

def ignoringPe : Pe := ⟨"mpi", true, true⟩

def hourWindow : JobWindow where
  startTime := 0
  duration := 3600
  maxReservations := 1

def slotsLimit : Limit := ⟨sgeAttrSlots, []⟩

/-- With the default request the slots are booked for all tasks in one step. -/
theorem quota_bookings_agree_default :
    BookedAlike parseDigit [slotsCEntry "1"] plainJob (some ignoringPe) 2 true true hourWindow
      "/////" slotsLimit := by
  refine (quota_bookings_agree_iff parseDigit [slotsCEntry "1"] plainJob (some ignoringPe) 2 true
    true hourWindow "/////" [slotsLimit] (by simp [slotsLimit, DistinctNames])).mpr ?_ slotsLimit
    (List.mem_singleton_self _)
  rintro limit hm ⟨rawCentry, p, hlocate, -, hglobal, -⟩
  rw [List.mem_singleton.mp hm] at hlocate hglobal
  obtain rfl : slotsCEntry "1" = rawCentry := Option.some.inj hlocate
  exact absurd hglobal (by decide +kernel)

/-- Two slots are booked in the schedule. -/
theorem amountAt_addLimit_hour :
    amountAt ((usageAt "/////" (rqsAddLimit parseDigit [slotsCEntry "1"] plainJob
      (some ignoringPe) 2 true true hourWindow "/////" slotsLimit).2.usage).diagram false) 7 = 2 :=
  (amountAt_addLimit ⟨by decide, by decide, by decide⟩ (fun b => by cases b <;> exact sound_nil)
    7).trans (by decide +kernel)

/-- **A slot is missing in the schedule** when slots have no default request: of two
slots on the master host the one of the slave task is in use now only. -/
theorem quota_slot_unbooked : ¬ BookedAlike parseDigit [slotsCEntry "0"] plainJob
    (some ignoringPe) 2 true true hourWindow "/////" slotsLimit := by
  intro hagree
  have hnow := hagree false
  revert hnow
  decide +kernel

end ClusterScheduler.Consumables
