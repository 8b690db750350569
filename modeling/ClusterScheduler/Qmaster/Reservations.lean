import ClusterScheduler.Foundation.Ledger
import ClusterScheduler.Qmaster.TimedEvents

/-!
# Advance reservations

A reservation waits for its start time, runs, and is removed at its end time or when it is
deleted. It counts the error states of the queue instances it reserved.

* `AdvanceReservation`, `ReservationState` — the reservations, the states of the queue instances
  and the pending timed events.
* `sgeArStateSetWaiting`, `sgeArStateSetRunning`, `sgeArListSetErrorState` — the state of a
  reservation.
* `arMod`, `arDel`, `sgeArEventHandler`, `arInitializeTimer` — what happens to the list.
* `ReservationAct`, `reservationStep` — one request, event or restart.
* `PhaseOk` — the state tells whether the reservation started and has errors.

The amounts a reservation books are not part of this model, nor are messages and mails.
-/

namespace ClusterScheduler.Qmaster

open Foundation

/-! ## Data -/

inductive ArState where
  | unknown
  | waiting
  | running
  | exited
  | deleted
  | error
  | warning
  deriving DecidableEq

/-- The number of a state, the second key of a timed event. -/
def ArState.code : ArState → ℕ
  | .unknown => 0
  | .waiting => 1
  | .running => 2
  | .exited => 3
  | .deleted => 4
  | .error => 5
  | .warning => 6

/-- The bits of the state of a queue instance. -/
inductive QiState where
  | alarm
  | suspendAlarm
  | disabled
  | suspended
  | unknown
  | error
  | suspendedOnSubordinate
  | calDisabled
  | calSuspended
  | ambiguous
  | orphaned
  | full
  deriving DecidableEq

def qinstanceSetState (state : Finset QiState) (setState : Bool) (bit : QiState) :
    Finset QiState × Bool :=
  let newState := if setState then insert bit state else state.erase bit
  (newState, decide (state ≠ newState))

/-- The reservation's own copy of a queue instance. -/
structure ReservedQueue where
  fullName : String
  state : Finset QiState
  deriving DecidableEq

def ReservedQueue.setError (q : ReservedQueue) (errorType : QiState) (setError : Bool) :
    ReservedQueue :=
  { q with state := (qinstanceSetState q.state setError errorType).1 }

/-- The queue instances of the granted slots. None is granted twice. -/
abbrev GrantedQueues := { names : List String // names.Nodup }

/-- A reservation. Two fields are not in the source: whether the start time was reached, and
how often the reservation was handled as started since the last restart. -/
structure AdvanceReservation where
  id : ℕ
  startTime : ℕ
  endTime : ℕ
  grantedQueues : GrantedQueues
  state : ArState
  qiErrors : BitVec 32
  reservedQueues : List ReservedQueue
  started : Bool
  handled : ℕ
  deriving DecidableEq

/-- The states of the queue instances by full name, the reservations, and the pending
events of reservations. -/
structure ReservationState where
  simulateExecds : Bool
  queues : String → Finset QiState
  ars : List AdvanceReservation
  pending : List TimedEvent

/-! ## The state of a reservation -/

def sgeArHasErrors (ar : AdvanceReservation) : Bool := decide (ar.qiErrors ≠ 0)

def sgeArStateSetRunning (ar : AdvanceReservation) : AdvanceReservation :=
  if ar.state = .deleted ∨ ar.state = .exited then ar
  else { ar with state := if sgeArHasErrors ar then .error else .running }

def sgeArStateSetWaiting (ar : AdvanceReservation) : AdvanceReservation :=
  if ar.state = .deleted ∨ ar.state = .exited then ar
  else { ar with state := if sgeArHasErrors ar then .warning else .waiting }

def sgeArStateSetDeleted (ar : AdvanceReservation) : AdvanceReservation :=
  { ar with state := .deleted }

def initialStates : List QiState :=
  [.ambiguous, .alarm, .suspendAlarm, .disabled, .unknown, .error]

def countState (state : Finset QiState) (acc : ReservedQueue × BitVec 32) (bit : QiState) :
    ReservedQueue × BitVec 32 :=
  if bit ∈ state then (acc.1.setError bit true, acc.2 + 1) else acc

/-- The copy of a queue instance is made. -/
def addReservedQueue (queues : String → Finset QiState) (ar : AdvanceReservation)
    (queueName : String) : AdvanceReservation :=
  let r := initialStates.foldl (countState (queues queueName)) (⟨queueName, ∅⟩, ar.qiErrors)
  { ar with qiErrors := r.2, reservedQueues := ar.reservedQueues ++ [r.1] }

/-- `ar_initialize_resource_booking()` as far as states are concerned. -/
def arInitializeResourceBooking (queues : String → Finset QiState) (ar : AdvanceReservation) :
    AdvanceReservation :=
  ar.grantedQueues.1.foldl (addReservedQueue queues) { ar with reservedQueues := [] }

/-- One error more or less is counted, and noted in the copy of the queue instance. -/
def noteError (qname : String) (errorType : QiState) (setError : Bool)
    (ar : AdvanceReservation) : AdvanceReservation :=
  { ar with
    qiErrors := if setError then ar.qiErrors + 1 else ar.qiErrors - 1
    reservedQueues :=
      modifyFirst (·.fullName) qname (·.setError errorType setError) ar.reservedQueues }

/-- The state follows when the first error comes or the last one goes. -/
def updateState (oldErrors : BitVec 32) (ar : AdvanceReservation) : AdvanceReservation :=
  if oldErrors = 0 ∨ ar.qiErrors = 0 then
    if ar.state = .running ∨ ar.state = .error then sgeArStateSetRunning ar
    else sgeArStateSetWaiting ar
  else ar

def setErrorState (qname : String) (errorType : QiState) (setError : Bool)
    (ar : AdvanceReservation) : AdvanceReservation :=
  if (lookup (·.fullName) qname ar.reservedQueues).isSome then
    updateState ar.qiErrors (noteError qname errorType setError ar)
  else ar

def sgeArListSetErrorState (ars : List AdvanceReservation) (qname : String)
    (errorType : QiState) (setError : Bool) : List AdvanceReservation :=
  ars.map (setErrorState qname errorType setError)

/-! ## The state of a queue instance -/

namespace ReservationState

/-- A bit of a queue instance is set or cleared; the reservations are told when it changed. -/
def qinstanceStateSet (bit : QiState) (s : ReservationState) (qname : String)
    (setState : Bool) : ReservationState × Bool :=
  let r := qinstanceSetState (s.queues qname) setState bit
  let s' := { s with queues := Function.update s.queues qname r.1 }
  if r.2 then ({ s' with ars := sgeArListSetErrorState s.ars qname bit setState }, true)
  else (s', false)

def setAmbiguous := qinstanceStateSet .ambiguous
def setManualDisabled := qinstanceStateSet .disabled
def setManualSuspended := qinstanceStateSet .suspended
def setError := qinstanceStateSet .error

def setUnknown (s : ReservationState) (qname : String) (setState : Bool) :
    ReservationState × Bool :=
  qinstanceStateSet .unknown s qname (if s.simulateExecds then false else setState)

/-! ## Timed events -/

end ReservationState

def typeArEvent : ℕ := 18

def arEvent (ar : AdvanceReservation) (time : ℕ) (state : ArState) : TimedEvent :=
  teNewEvent time typeArEvent .oneTime ar.id state.code none

def startEvent (ar : AdvanceReservation) : TimedEvent := arEvent ar ar.startTime .running

def endEvent (ar : AdvanceReservation) : TimedEvent := arEvent ar ar.endTime .exited

/-- `te_add_event()`, without the sequence number. -/
def addPending (pending : List TimedEvent) (e : TimedEvent) : List TimedEvent :=
  pending.orderedInsert DueLe e

/-- `te_delete_one_time_event()` for an event of a reservation. -/
def deletePending (pending : List TimedEvent) (id : ℕ) (state : ArState) : List TimedEvent :=
  pending.filter fun e => !(DeleteKey.mk typeArEvent id state.code none false).matches e

namespace ReservationState

/-! ## The list of reservations -/

/-- `ar_mod()`, as far as it is modelled, and `ar_success()`. -/
def arMod (s : ReservationState) (id startTime endTime : ℕ) (granted : GrantedQueues) :
    ReservationState :=
  let ar := sgeArStateSetWaiting (arInitializeResourceBooking s.queues
    ⟨id, startTime, endTime, granted, .waiting, 0, [], false, 0⟩)
  { s with ars := s.ars ++ [ar], pending := addPending s.pending (startEvent ar) }

/-- One reservation is deleted. It stays in the list as long as it has jobs. -/
def deleteAr (s : ReservationState) (id : ℕ) (jobsRemoved : Bool) : ReservationState :=
  { s with
    ars := if jobsRemoved then s.ars.eraseP (·.id = id)
      else modifyFirst (·.id) id sgeArStateSetDeleted s.ars
    pending := deletePending (deletePending s.pending id .running) id .exited }

/-- The loop of `ar_del()` over the reservations. `selected` tells which ones the request is
about and its user may delete, `jobsRemoved` is the result of `sge_ar_remove_all_jobs()`. -/
def arDel (s : ReservationState) (selected jobsRemoved : AdvanceReservation → Bool) :
    ReservationState :=
  s.ars.foldl (fun s ar => if selected ar then s.deleteAr ar.id (jobsRemoved ar) else s) s

theorem arDel_keeps {P : ReservationState → Prop}
    (hdelete : ∀ s id jobsRemoved, P s → P (s.deleteAr id jobsRemoved)) {s : ReservationState}
    (hs : P s) (selected jobsRemoved : AdvanceReservation → Bool) :
    P (s.arDel selected jobsRemoved) := by
  have hloop : ∀ (l : List AdvanceReservation) (s : ReservationState), P s →
      P (l.foldl
        (fun s ar => if selected ar then s.deleteAr ar.id (jobsRemoved ar) else s) s) := by
    intro l
    induction l with
    | nil => exact fun s hs => hs
    | cons ar l ih =>
      intro s hs
      apply ih
      dsimp only
      split
      · exact hdelete s ar.id _ hs
      · exact hs
  exact hloop s.ars s hs

def lastJobExit (s : ReservationState) (id : ℕ) : ReservationState :=
  match lookup (·.id) id s.ars with
  | some ar => if ar.state = .deleted then { s with ars := s.ars.eraseP (·.id = id) } else s
  | none => s

end ReservationState

def handleStart (ar : AdvanceReservation) : AdvanceReservation :=
  { sgeArStateSetRunning ar with started := true, handled := ar.handled + 1 }

/-- An event that was taken out of the list is handled. -/
def sgeArEventHandler (s : ReservationState) (e : TimedEvent) : ReservationState :=
  match lookup (·.id) e.key1 s.ars with
  | none => s
  | some ar =>
    if e.key2 = ArState.exited.code then { s with ars := s.ars.eraseP (·.id = e.key1) }
    else
      { s with
        ars := modifyFirst (·.id) e.key1 handleStart s.ars
        pending := addPending s.pending (endEvent ar) }

/-- The loop over the reservations when the qmaster starts. -/
def arInitializeTimer (now : ℕ) :
    List AdvanceReservation → List TimedEvent → List AdvanceReservation × List TimedEvent
  | [], pending => ([], pending)
  | ar :: ars, pending =>
    if now < ar.startTime then
      let r := arInitializeTimer now ars
        (addPending (addPending pending (startEvent ar)) (startEvent ar))
      ({ sgeArStateSetWaiting ar with started := false } :: r.1, r.2)
    else if now < ar.endTime then
      let r := arInitializeTimer now ars (addPending pending (endEvent ar))
      ({ sgeArStateSetRunning ar with started := true } :: r.1, r.2)
    else arInitializeTimer now ars pending

/-- A reservation as it was spooled: the number of errors is not, and a state only when the
reservation is made and deleted. -/
def spooledAr (ar : AdvanceReservation) : AdvanceReservation :=
  { ar with
    state := if ar.state = .deleted then .deleted else .waiting
    qiErrors := 0
    handled := 0 }

/-- The qmaster starts again: events are lost, and the queue instances are in the states they
are found in. -/
def restartQmaster (s : ReservationState) (queues : String → Finset QiState) (now : ℕ) :
    ReservationState :=
  let r := arInitializeTimer now
    (s.ars.map fun ar => arInitializeResourceBooking queues (spooledAr ar)) []
  { s with queues := queues, ars := r.1, pending := r.2 }

/-! ## Steps -/

def ReservationState.initial (simulateExecds : Bool) (queues : String → Finset QiState) :
    ReservationState :=
  ⟨simulateExecds, queues, [], []⟩

inductive ReservationAct where
  | setAmbiguous (qname : String) (setState : Bool)
  | setManualDisabled (qname : String) (setState : Bool)
  | setManualSuspended (qname : String) (setState : Bool)
  | setUnknown (qname : String) (setState : Bool)
  | setError (qname : String) (setState : Bool)
  | add (id startTime endTime : ℕ) (granted : GrantedQueues)
  | del (selected jobsRemoved : AdvanceReservation → Bool)
  | lastJobExit (id : ℕ)
  | deliver (e : TimedEvent)
  | restart (queues : String → Finset QiState) (now : ℕ)

open ReservationState in
/-- One step. A new reservation gets an id that is not in use, and any pending event may be
the next one. -/
def reservationStep (s : ReservationState) : ReservationAct → Option ReservationState
  | .setAmbiguous qname b => some (setAmbiguous s qname b).1
  | .setManualDisabled qname b => some (setManualDisabled s qname b).1
  | .setManualSuspended qname b => some (setManualSuspended s qname b).1
  | .setUnknown qname b => some (setUnknown s qname b).1
  | .setError qname b => some (setError s qname b).1
  | .add id startTime endTime granted =>
    if id ∈ s.ars.map (·.id) then none else some (arMod s id startTime endTime granted)
  | .del selected jobsRemoved => some (arDel s selected jobsRemoved)
  | .lastJobExit id => some (s.lastJobExit id)
  | .deliver e =>
    if e ∈ s.pending then some (sgeArEventHandler { s with pending := s.pending.erase e } e)
    else none
  | .restart queues now => some (restartQmaster s queues now)

/-! ## The phase of a reservation -/

def AdvanceReservation.liveState (ar : AdvanceReservation) : ArState :=
  if ar.started then if sgeArHasErrors ar then .error else .running
  else if sgeArHasErrors ar then .warning else .waiting

def PhaseOk (ar : AdvanceReservation) : Prop := ar.state = .deleted ∨ ar.state = ar.liveState

/-- What a reservation is known by. -/
structure SameReservation (ar ar' : AdvanceReservation) : Prop where
  id : ar'.id = ar.id
  startTime : ar'.startTime = ar.startTime
  endTime : ar'.endTime = ar.endTime
  grantedQueues : ar'.grantedQueues = ar.grantedQueues

section Phase

variable {ar ar' ar'' : AdvanceReservation}

theorem SameReservation.refl (ar : AdvanceReservation) : SameReservation ar ar :=
  ⟨rfl, rfl, rfl, rfl⟩

theorem liveState_ne_exited (ar : AdvanceReservation) : ar.liveState ≠ .exited := by
  unfold AdvanceReservation.liveState
  split_ifs <;> exact nofun

theorem liveState_ne_deleted (ar : AdvanceReservation) : ar.liveState ≠ .deleted := by
  unfold AdvanceReservation.liveState
  split_ifs <;> exact nofun

theorem PhaseOk.ne_exited (h : PhaseOk ar) : ar.state ≠ .exited := by
  rcases h with h | h
  · rw [h]
    exact nofun
  · rw [h]
    exact liveState_ne_exited ar

/-- A deleted reservation stays deleted, any other one runs. -/
theorem sgeArStateSetRunning_cases (h : ar.state ≠ .exited) :
    ar.state = .deleted ∧ sgeArStateSetRunning ar = ar ∨
    ar.state ≠ .deleted ∧ sgeArStateSetRunning ar =
      { ar with state := if sgeArHasErrors ar then .error else .running } := by
  by_cases hdel : ar.state = .deleted
  · exact Or.inl ⟨hdel, if_pos (Or.inl hdel)⟩
  · exact Or.inr ⟨hdel, if_neg (not_or.mpr ⟨hdel, h⟩)⟩

theorem sgeArStateSetWaiting_cases (h : ar.state ≠ .exited) :
    ar.state = .deleted ∧ sgeArStateSetWaiting ar = ar ∨
    ar.state ≠ .deleted ∧ sgeArStateSetWaiting ar =
      { ar with state := if sgeArHasErrors ar then .warning else .waiting } := by
  by_cases hdel : ar.state = .deleted
  · exact Or.inl ⟨hdel, if_pos (Or.inl hdel)⟩
  · exact Or.inr ⟨hdel, if_neg (not_or.mpr ⟨hdel, h⟩)⟩

theorem phaseOk_setRunning (h : ar.state ≠ .exited) (handled : ℕ) :
    PhaseOk { sgeArStateSetRunning ar with started := true, handled := handled } := by
  rcases sgeArStateSetRunning_cases h with ⟨hdel, heq⟩ | ⟨-, heq⟩
  · exact Or.inl (by rw [heq]; exact hdel)
  · exact Or.inr (by rw [heq]; rfl)

theorem sgeArStateSetRunning_eq (ar : AdvanceReservation) :
    ∃ state, sgeArStateSetRunning ar = { ar with state := state } := by
  unfold sgeArStateSetRunning
  split_ifs
  · exact ⟨ar.state, rfl⟩
  · exact ⟨.error, rfl⟩
  · exact ⟨.running, rfl⟩

theorem sgeArStateSetWaiting_eq (ar : AdvanceReservation) :
    ∃ state, sgeArStateSetWaiting ar = { ar with state := state } := by
  unfold sgeArStateSetWaiting
  split_ifs
  · exact ⟨ar.state, rfl⟩
  · exact ⟨.warning, rfl⟩
  · exact ⟨.waiting, rfl⟩

theorem sameReservation_setRunning (ar : AdvanceReservation) :
    SameReservation ar (sgeArStateSetRunning ar) := by
  obtain ⟨state, heq⟩ := sgeArStateSetRunning_eq ar
  rw [heq]
  exact ⟨rfl, rfl, rfl, rfl⟩

theorem sameReservation_setWaiting (ar : AdvanceReservation) :
    SameReservation ar (sgeArStateSetWaiting ar) := by
  obtain ⟨state, heq⟩ := sgeArStateSetWaiting_eq ar
  rw [heq]
  exact ⟨rfl, rfl, rfl, rfl⟩

/-- The queue instances of a reservation are initialized; everything else stays. -/
theorem arInitializeResourceBooking_eq (queues : String → Finset QiState)
    (ar : AdvanceReservation) :
    ∃ qiErrors reservedQueues, arInitializeResourceBooking queues ar =
      { ar with qiErrors := qiErrors, reservedQueues := reservedQueues } := by
  have hloop : ∀ (names : List String) (ar' : AdvanceReservation),
      (∃ qiErrors reservedQueues,
        ar' = { ar with qiErrors := qiErrors, reservedQueues := reservedQueues }) →
      ∃ qiErrors reservedQueues, names.foldl (addReservedQueue queues) ar' =
        { ar with qiErrors := qiErrors, reservedQueues := reservedQueues } := by
    intro names
    induction names with
    | nil => exact fun ar' h => h
    | cons name names ih =>
      rintro ar' ⟨qiErrors, reservedQueues, rfl⟩
      exact ih _ ⟨_, _, rfl⟩
  exact hloop _ _ ⟨ar.qiErrors, [], rfl⟩

/-- The state of a reservation whose number of errors changed. -/
theorem phaseOk_updateState (hphase : PhaseOk ar) (qiErrors : BitVec 32)
    (reservedQueues : List ReservedQueue) :
    ∃ state, updateState ar.qiErrors
        { ar with qiErrors := qiErrors, reservedQueues := reservedQueues } =
        { ar with qiErrors := qiErrors, reservedQueues := reservedQueues, state := state } ∧
      (state = .deleted ↔ ar.state = .deleted) ∧
      PhaseOk { ar with
        qiErrors := qiErrors, reservedQueues := reservedQueues, state := state } := by
  set ar' := { ar with qiErrors := qiErrors, reservedQueues := reservedQueues } with har'
  by_cases hzero : ar.qiErrors = 0 ∨ qiErrors = 0
  · rw [updateState, if_pos hzero]
    rcases hphase with hdel | hlive
    · -- a deleted reservation stays as it is
      have hrunning : ¬ (ar'.state = .running ∨ ar'.state = .error) := by simp [har', hdel]
      rw [if_neg hrunning]
      refine ⟨ar.state, if_pos (Or.inl hdel), Iff.rfl, Or.inl hdel⟩
    · have hdel : ar.state ≠ .deleted := hlive ▸ liveState_ne_deleted ar
      have hfinal : ¬ (ar'.state = .deleted ∨ ar'.state = .exited) :=
        not_or.mpr ⟨hdel, hlive ▸ liveState_ne_exited ar⟩
      have hstarted : ar'.state = .running ∨ ar'.state = .error ↔ ar.started = true := by
        rw [show ar'.state = ar.state from rfl, hlive, AdvanceReservation.liveState]
        split_ifs with h <;> simp [h]
      have hne : ar'.liveState ≠ .deleted := liveState_ne_deleted ar'
      refine ⟨ar'.liveState, ?_, iff_of_false hne hdel, Or.inr rfl⟩
      by_cases h : ar.started = true
      · rw [if_pos (hstarted.mpr h), sgeArStateSetRunning, if_neg hfinal,
          AdvanceReservation.liveState, if_pos h]
      · rw [if_neg (mt hstarted.mp h), sgeArStateSetWaiting, if_neg hfinal,
          AdvanceReservation.liveState, if_neg h]
  · -- there are errors before and after
    obtain ⟨hold, hnew⟩ := not_or.mp hzero
    rw [updateState, if_neg hzero]
    refine ⟨ar.state, rfl, Iff.rfl, hphase.imp id fun h => ?_⟩
    have hsame : ar'.liveState = ar.liveState := by
      simp only [AdvanceReservation.liveState, sgeArHasErrors, har', decide_eq_true_eq, ne_eq,
        hold, hnew]
    exact h.trans hsame.symm

variable {qname : String}

theorem setErrorState_of_reserved (hphase : PhaseOk ar)
    (h : qname ∈ ar.reservedQueues.map (·.fullName)) (errorType : QiState) (setError : Bool) :
    ∃ state, setErrorState qname errorType setError ar =
        { noteError qname errorType setError ar with state := state } ∧
      (state = .deleted ↔ ar.state = .deleted) ∧
      PhaseOk { noteError qname errorType setError ar with state := state } := by
  have hsome : (lookup (·.fullName) qname ar.reservedQueues).isSome :=
    Option.isSome_iff_ne_none.mpr fun hnone => lookup_eq_none.mp hnone h
  rw [setErrorState, if_pos hsome]
  exact phaseOk_updateState hphase _ _

theorem setErrorState_of_notReserved
    (h : qname ∉ ar.reservedQueues.map (·.fullName)) (errorType : QiState) (setError : Bool) :
    setErrorState qname errorType setError ar = ar :=
  if_neg fun hsome => Option.isSome_iff_ne_none.mp hsome (lookup_eq_none.mpr h)

/-- A change of a queue instance neither starts a reservation nor deletes it. -/
theorem setErrorState_spec (hphase : PhaseOk ar) (qname : String) (errorType : QiState)
    (setError : Bool) :
    let ar' := setErrorState qname errorType setError ar
    SameReservation ar ar' ∧ ar'.started = ar.started ∧ ar'.handled = ar.handled ∧
      (ar'.state = .deleted ↔ ar.state = .deleted) ∧ PhaseOk ar' := by
  by_cases h : qname ∈ ar.reservedQueues.map (·.fullName)
  · obtain ⟨state, heq, hdel, hphase'⟩ := setErrorState_of_reserved hphase h errorType setError
    rw [heq]
    exact ⟨⟨rfl, rfl, rfl, rfl⟩, rfl, rfl, hdel, hphase'⟩
  · rw [setErrorState_of_notReserved h]
    exact ⟨.refl ar, rfl, rfl, Iff.rfl, hphase⟩

end Phase

end ClusterScheduler.Qmaster
