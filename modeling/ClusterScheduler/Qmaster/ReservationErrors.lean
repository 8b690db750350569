import ClusterScheduler.Foundation.Runs
import ClusterScheduler.Qmaster.Reservations

/-!
# Errors of reservations

A reservation counts the states that keep its queue instances from running jobs. It starts with
the states they are in when it is made, and is told about every change from then on.

* `errorsOf` — how many of the states some queue instances are in.
* `ErrorsExact` — the number of errors, and the state that tells whether there are any.
* `CountedRight` — a reservation is made over queue instances that are not suspended, and the
  number fits.
* `errorsExact_iff` — the numbers are exact all along a run if and only if its steps are counted
  right.
-/

namespace ClusterScheduler.Qmaster

open Foundation

/-! ## States that are errors -/

def errorStates : Finset QiState := {.ambiguous, .disabled, .suspended, .unknown, .error}

def errorsOf (queues : String → Finset QiState) (names : List String) : ℕ :=
  (names.map fun name => (queues name ∩ errorStates).card).sum

/-- No queue instance is in an alarm state. -/
def NoAlarms (queues : String → Finset QiState) : Prop :=
  ∀ name, .alarm ∉ queues name ∧ .suspendAlarm ∉ queues name

section ErrorsOf

variable (queues : String → Finset QiState) {names : List String} {qname : String}

theorem errorsOf_cons (name : String) (names : List String) :
    errorsOf queues (name :: names) = (queues name ∩ errorStates).card + errorsOf queues names := by
  rw [errorsOf, List.map_cons, List.sum_cons, errorsOf]

theorem errorsOf_update_of_notMem (h : qname ∉ names) (state : Finset QiState) :
    errorsOf (Function.update queues qname state) names = errorsOf queues names := by
  have hmap : ∀ name ∈ names, (Function.update queues qname state name ∩ errorStates).card =
      (queues name ∩ errorStates).card := by
    intro name hname
    rw [Function.update_of_ne]
    rintro rfl
    exact h hname
  rw [errorsOf, List.map_congr_left hmap, errorsOf]

theorem errorsOf_update_of_mem (h : qname ∈ names) (hnodup : names.Nodup) (state : Finset QiState) :
    errorsOf (Function.update queues qname state) names + (queues qname ∩ errorStates).card =
      errorsOf queues names + (state ∩ errorStates).card := by
  induction names with
  | nil => cases h
  | cons name names ih =>
    obtain ⟨hname, hnodup⟩ := List.nodup_cons.mp hnodup
    rw [errorsOf_cons, errorsOf_cons]
    rcases List.mem_cons.mp h with rfl | h
    · rw [Function.update_self, errorsOf_update_of_notMem queues hname]
      omega
    · have hne : name ≠ qname := by
        rintro rfl
        exact hname h
      have hrest := ih h hnodup
      rw [Function.update_of_ne hne]
      omega

theorem card_qinstanceSetState {state : Finset QiState} {bit : QiState} (hbit : bit ∈ errorStates)
    {setState : Bool} (hchanged : (qinstanceSetState state setState bit).2 = true) :
    if setState then ((qinstanceSetState state setState bit).1 ∩ errorStates).card =
        (state ∩ errorStates).card + 1
      else ((qinstanceSetState state setState bit).1 ∩ errorStates).card + 1 =
        (state ∩ errorStates).card := by
  cases setState with
  | true =>
    have hnot : bit ∉ state := by
      intro hmem
      exact of_decide_eq_true hchanged (Finset.insert_eq_of_mem hmem).symm
    show (insert bit state ∩ errorStates).card = (state ∩ errorStates).card + 1
    rw [Finset.insert_inter_of_mem hbit, Finset.card_insert_of_notMem]
    exact fun h => hnot (Finset.mem_inter.mp h).1
  | false =>
    have hmem : bit ∈ state := by
      by_contra hnot
      exact of_decide_eq_true hchanged (Finset.erase_eq_of_notMem hnot).symm
    show (state.erase bit ∩ errorStates).card + 1 = (state ∩ errorStates).card
    rw [Finset.erase_inter, Finset.card_erase_add_one (Finset.mem_inter.mpr ⟨hmem, hbit⟩)]

end ErrorsOf

/-! ## A new reservation -/

def initialErrors (state : Finset QiState) : ℕ := initialStates.countP (· ∈ state)

section Initial

variable (queues : String → Finset QiState)

/-- Among the error states only the suspension by an administrator is left out. -/
theorem initialErrors_add {state : Finset QiState} (halarm : .alarm ∉ state)
    (hsuspendAlarm : .suspendAlarm ∉ state) :
    initialErrors state + (if .suspended ∈ state then 1 else 0) =
      (state ∩ errorStates).card := by
  have hcount : initialErrors state = (state ∩ errorStates.erase .suspended).card := by
    rw [initialErrors, List.countP_eq_length_filter, ← List.toFinset_card_of_nodup]
    · congr 1
      ext bit
      cases bit <;> simp [initialStates, errorStates, halarm, hsuspendAlarm]
    · exact List.Nodup.filter _ (by decide)
  have herase : errorStates = insert .suspended (errorStates.erase .suspended) := by decide
  rw [hcount]
  conv_rhs => rw [herase]
  split_ifs with h
  · rw [Finset.inter_insert_of_mem h, Finset.card_insert_of_notMem]
    exact fun hmem => absurd (Finset.mem_inter.mp hmem).2 (by decide)
  · rw [Finset.inter_insert_of_notMem h, Nat.add_zero]

theorem foldl_countState (state : Finset QiState) (bits : List QiState) (q : ReservedQueue)
    (n : BitVec 32) :
    (bits.foldl (countState state) (q, n)).1.fullName = q.fullName ∧
      (bits.foldl (countState state) (q, n)).2 = n + BitVec.ofNat 32 (bits.countP (· ∈ state)) := by
  induction bits generalizing q n with
  | nil => exact ⟨rfl, (BitVec.add_zero n).symm⟩
  | cons bit bits ih =>
    simp only [List.foldl_cons, countState, List.countP_cons, decide_eq_true_eq]
    split_ifs with h
    · obtain ⟨hname, hn⟩ := ih (q.setError bit true) (n + 1)
      refine ⟨hname, hn.trans ?_⟩
      rw [BitVec.ofNat_add, BitVec.add_assoc, BitVec.add_comm 1]
      rfl
    · exact ih q n

theorem foldl_addReservedQueue (names : List String) (ar : AdvanceReservation) :
    let ar' := names.foldl (addReservedQueue queues) ar
    ar'.reservedQueues.map (·.fullName) = ar.reservedQueues.map (·.fullName) ++ names ∧
      ar'.qiErrors =
        ar.qiErrors + BitVec.ofNat 32 (names.map fun name => initialErrors (queues name)).sum := by
  induction names generalizing ar with
  | nil => exact ⟨(List.append_nil _).symm, (BitVec.add_zero _).symm⟩
  | cons name names ih =>
    obtain ⟨hname, hcount⟩ := foldl_countState (queues name) initialStates ⟨name, ∅⟩ ar.qiErrors
    obtain ⟨hnames, herrors⟩ := ih (addReservedQueue queues ar name)
    rw [List.foldl_cons]
    constructor
    · rw [hnames, addReservedQueue, List.map_append, List.map_singleton, hname,
        List.append_assoc, List.singleton_append]
    · rw [herrors, addReservedQueue, hcount, List.map_cons, List.sum_cons, BitVec.ofNat_add,
        ← BitVec.add_assoc]
      rfl

variable {queues} in
/-- What a reservation counts first, and what it should. -/
theorem sum_initialErrors (hqueues : NoAlarms queues) (names : List String) :
    (names.map fun name => initialErrors (queues name)).sum +
      names.countP (fun name => decide (.suspended ∈ queues name)) = errorsOf queues names := by
  induction names with
  | nil => rfl
  | cons name names ih =>
    have hname := initialErrors_add (hqueues name).1 (hqueues name).2
    rw [List.map_cons, List.sum_cons, List.countP_cons, errorsOf_cons, ← ih, ← hname]
    simp only [decide_eq_true_eq]
    omega

end Initial

/-! ## Between two steps -/

def AdvanceReservation.queueNames (ar : AdvanceReservation) : List String :=
  ar.reservedQueues.map (·.fullName)

structure ErrorsExact (s : ReservationState) : Prop where
  count : ∀ ar ∈ s.ars, ar.qiErrors.toNat = errorsOf s.queues ar.queueNames
  beforeStart : ∀ ar ∈ s.ars, ar.state ≠ .deleted → ar.started = false →
    ar.state = if 0 < errorsOf s.queues ar.queueNames then .warning else .waiting
  afterStart : ∀ ar ∈ s.ars, ar.state ≠ .deleted → ar.started = true →
    ar.state = if 0 < errorsOf s.queues ar.queueNames then .error else .running

/-- The number of errors is the one of the queue instances, and fits. -/
structure Counted (queues : String → Finset QiState) (ar : AdvanceReservation) : Prop where
  names : ar.queueNames = ar.grantedQueues.1
  errors : ar.qiErrors = BitVec.ofNat 32 (errorsOf queues ar.queueNames)
  few : errorsOf queues ar.queueNames < 2 ^ 32
  phase : PhaseOk ar

structure ErrorsInv (s : ReservationState) : Prop where
  simulate : s.simulateExecds = false
  noAlarms : NoAlarms s.queues
  counted : ∀ ar ∈ s.ars, Counted s.queues ar

/-- The states of the queue instances after a request. -/
def ReservationAct.queuesAfter (queues : String → Finset QiState) :
    ReservationAct → String → Finset QiState
  | .setAmbiguous qname b =>
    Function.update queues qname (qinstanceSetState (queues qname) b .ambiguous).1
  | .setManualDisabled qname b =>
    Function.update queues qname (qinstanceSetState (queues qname) b .disabled).1
  | .setManualSuspended qname b =>
    Function.update queues qname (qinstanceSetState (queues qname) b .suspended).1
  | .setUnknown qname b =>
    Function.update queues qname (qinstanceSetState (queues qname) b .unknown).1
  | .setError qname b =>
    Function.update queues qname (qinstanceSetState (queues qname) b .error).1
  | _ => queues

/-- A reservation is made over queue instances that no administrator suspended, and their
errors fit into 32 bits. -/
def NewCounted (s : ReservationState) : ReservationAct → Prop
  | .add _ _ _ granted =>
    (∀ name ∈ granted.1, .suspended ∉ s.queues name) ∧ errorsOf s.queues granted.1 < 2 ^ 32
  | _ => True

/-- The condition on a step. -/
structure CountedRight (s : ReservationState) (a : ReservationAct) : Prop where
  new : NewCounted s a
  fits : ∀ ar ∈ s.ars, errorsOf (a.queuesAfter s.queues) ar.queueNames < 2 ^ 32

def ReservationAct.isRestart : ReservationAct → Bool
  | .restart _ _ => true
  | _ => false

theorem queueNames_noteError (qname : String) (bit : QiState) (b : Bool)
    (ar : AdvanceReservation) : (noteError qname bit b ar).queueNames = ar.queueNames := by
  rw [AdvanceReservation.queueNames, noteError]
  refine map_modifyFirst (fun _ => ?_) ar.reservedQueues
  rfl

theorem queueNames_setErrorState {ar : AdvanceReservation} (hphase : PhaseOk ar) (qname : String)
    (bit : QiState) (b : Bool) : (setErrorState qname bit b ar).queueNames = ar.queueNames := by
  by_cases hmem : qname ∈ ar.queueNames
  · obtain ⟨state, heq, -⟩ := setErrorState_of_reserved hphase hmem bit b
    rw [heq]
    exact queueNames_noteError qname bit b ar
  · rw [setErrorState_of_notReserved hmem]

namespace Counted

variable {queues : String → Finset QiState} {ar : AdvanceReservation}

variable (h : Counted queues ar)
include h

theorem toNat : ar.qiErrors.toNat = errorsOf queues ar.queueNames := by
  rw [h.errors, BitVec.toNat_ofNat, Nat.mod_eq_of_lt h.few]

theorem hasErrors : sgeArHasErrors ar = decide (0 < errorsOf queues ar.queueNames) := by
  rw [sgeArHasErrors, ← h.toNat]
  congr 1
  rw [eq_iff_iff, Nat.pos_iff_ne_zero, ne_eq, ne_eq, ← BitVec.toNat_inj]
  rfl

/-- Changes that concern neither queue instances nor errors. -/
theorem congr {ar' : AdvanceReservation}
    (hnames : ar'.queueNames = ar.queueNames) (hgranted : ar'.grantedQueues = ar.grantedQueues)
    (herrors : ar'.qiErrors = ar.qiErrors) (hphase : PhaseOk ar') : Counted queues ar' where
  names := by rw [hnames, hgranted, h.names]
  errors := by rw [herrors, hnames, h.errors]
  few := hnames ▸ h.few
  phase := hphase

/-- The reservation is told that a queue instance changed. -/
theorem setErrorState {qname : String} {bit : QiState} {b : Bool}
    (hbit : bit ∈ errorStates) (hchanged : (qinstanceSetState (queues qname) b bit).2 = true)
    (hfew : errorsOf (Function.update queues qname (qinstanceSetState (queues qname) b bit).1)
      ar.queueNames < 2 ^ 32) :
    Counted (Function.update queues qname (qinstanceSetState (queues qname) b bit).1)
      (setErrorState qname bit b ar) := by
  set state' := (qinstanceSetState (queues qname) b bit).1
  by_cases hmem : qname ∈ ar.queueNames
  · obtain ⟨state, heq, -, hphase⟩ := setErrorState_of_reserved h.phase hmem bit b
    have hnodup : ar.queueNames.Nodup := h.names ▸ ar.grantedQueues.2
    have hupdate := errorsOf_update_of_mem queues hmem hnodup state'
    have hcard : if b then (state' ∩ errorStates).card = (queues qname ∩ errorStates).card + 1
        else (state' ∩ errorStates).card + 1 = (queues qname ∩ errorStates).card :=
      card_qinstanceSetState hbit hchanged
    have hnames := queueNames_noteError qname bit b ar
    rw [heq]
    refine ⟨?_, ?_, ?_, hphase⟩
    · exact hnames.trans h.names
    · show (if b then ar.qiErrors + 1 else ar.qiErrors - 1) =
        BitVec.ofNat 32 (errorsOf _ (noteError qname bit b ar).queueNames)
      rw [hnames, h.errors]
      cases b with
      | true =>
        rw [if_pos rfl] at hcard ⊢
        rw [show errorsOf (Function.update queues qname state') ar.queueNames =
          errorsOf queues ar.queueNames + 1 by omega, BitVec.ofNat_add]
        rfl
      | false =>
        rw [if_neg Bool.false_ne_true] at hcard ⊢
        rw [show errorsOf queues ar.queueNames =
          errorsOf (Function.update queues qname state') ar.queueNames + 1 by omega,
          BitVec.ofNat_add]
        exact BitVec.add_sub_cancel _ _
    · show errorsOf _ (noteError qname bit b ar).queueNames < 2 ^ 32
      rw [hnames]
      exact hfew
  · rw [setErrorState_of_notReserved hmem]
    have hsame := errorsOf_update_of_notMem queues hmem state'
    exact ⟨h.names, hsame ▸ h.errors, hfew, h.phase⟩

end Counted

theorem arMod_spec (s : ReservationState) (id startTime endTime : ℕ) (granted : GrantedQueues) :
    ∃ ar, (s.arMod id startTime endTime granted).ars = s.ars ++ [ar] ∧
      ar.queueNames = granted.1 ∧ ar.grantedQueues = granted ∧ PhaseOk ar ∧
      ar.qiErrors = BitVec.ofNat 32
        (granted.1.map fun name => initialErrors (s.queues name)).sum := by
  set new : AdvanceReservation :=
    ⟨id, startTime, endTime, granted, .waiting, 0, [], false, 0⟩ with hnew
  obtain ⟨hnames, herrors⟩ := foldl_addReservedQueue s.queues granted.1 new
  obtain ⟨qiErrors, reservedQueues, heq⟩ := arInitializeResourceBooking_eq s.queues new
  set booked := arInitializeResourceBooking s.queues new with hbooked
  have hstate : booked.state ≠ .exited := by
    rw [heq]
    exact nofun
  have hdel : booked.state ≠ .deleted := by
    rw [heq]
    exact nofun
  refine ⟨sgeArStateSetWaiting booked, rfl, ?_, ?_, ?_, ?_⟩
  all_goals
    rcases sgeArStateSetWaiting_cases hstate with ⟨h, -⟩ | ⟨-, hwaiting⟩
    · exact absurd h hdel
    rw [hwaiting]
  · exact hnames.trans (List.nil_append _)
  · show booked.grantedQueues = granted
    rw [heq]
  · have hstarted : ¬ booked.started = true := by
      rw [heq]
      exact Bool.false_ne_true
    exact Or.inr (if_neg hstarted).symm
  · exact herrors.trans (BitVec.zero_add _)

namespace ErrorsInv

variable {s s' : ReservationState}

theorem exact (hs : ErrorsInv s) : ErrorsExact s := by
  have hstate : ∀ ar ∈ s.ars, ar.state ≠ .deleted → ar.state = ar.liveState :=
    fun ar har hdel => (hs.counted ar har).phase.resolve_left hdel
  refine ⟨fun ar har => (hs.counted ar har).toNat, fun ar har hdel hstarted => ?_,
    fun ar har hdel hstarted => ?_⟩
  · rw [hstate ar har hdel, AdvanceReservation.liveState, hstarted, (hs.counted ar har).hasErrors]
    simp
  · rw [hstate ar har hdel, AdvanceReservation.liveState, hstarted, (hs.counted ar har).hasErrors]
    simp

variable {bit : QiState}

theorem qinstanceStateSet (hs : ErrorsInv s) (hbit : bit ∈ errorStates)
    (qname : String) (b : Bool) (hfew : ∀ ar ∈ s.ars, errorsOf (Function.update s.queues qname
      (qinstanceSetState (s.queues qname) b bit).1) ar.queueNames < 2 ^ 32) :
    ErrorsInv (s.qinstanceStateSet bit qname b).1 := by
  have halarms : NoAlarms (Function.update s.queues qname
      (qinstanceSetState (s.queues qname) b bit).1) := by
    intro name
    by_cases hname : name = qname
    · subst hname
      rw [Function.update_self]
      obtain ⟨halarm, hsuspendAlarm⟩ := hs.noAlarms name
      have hne : bit ≠ .alarm ∧ bit ≠ .suspendAlarm := by
        constructor
        · rintro rfl
          exact absurd hbit (by decide)
        · rintro rfl
          exact absurd hbit (by decide)
      cases b with
      | true =>
        refine ⟨fun h => ?_, fun h => ?_⟩
        · exact (Finset.mem_insert.mp h).elim (fun h => hne.1 h.symm) halarm
        · exact (Finset.mem_insert.mp h).elim (fun h => hne.2 h.symm) hsuspendAlarm
      | false =>
        exact ⟨fun h => halarm (Finset.mem_of_mem_erase h),
          fun h => hsuspendAlarm (Finset.mem_of_mem_erase h)⟩
    · rw [Function.update_of_ne hname]
      exact hs.noAlarms name
  rw [ReservationState.qinstanceStateSet]
  dsimp only
  split
  · rename_i hchanged
    refine ⟨hs.simulate, halarms, fun ar' har' => ?_⟩
    obtain ⟨ar, har, rfl⟩ := List.mem_map.mp har'
    exact (hs.counted ar har).setErrorState hbit hchanged (hfew ar har)
  · rename_i hsame
    have hsame' : (qinstanceSetState (s.queues qname) b bit).1 = s.queues qname :=
      (not_ne_iff.mp fun h => hsame (decide_eq_true h)).symm
    refine ⟨hs.simulate, halarms, fun ar har => ?_⟩
    dsimp only
    rw [hsame', Function.update_eq_self]
    exact hs.counted ar har

variable {id startTime endTime : ℕ} {granted : GrantedQueues}

variable (hs : ErrorsInv s)
include hs

theorem arMod (hsuspended : ∀ name ∈ granted.1, .suspended ∉ s.queues name)
    (hfew : errorsOf s.queues granted.1 < 2 ^ 32) :
    ErrorsInv (s.arMod id startTime endTime granted) := by
  obtain ⟨ar, hars, hnames, hgranted, hphase, herrors⟩ := arMod_spec s id startTime endTime granted
  refine ⟨hs.simulate, hs.noAlarms, fun x hx => ?_⟩
  rw [hars] at hx
  rcases List.mem_append.mp hx with hx | hx
  · exact hs.counted x hx
  · obtain rfl := List.mem_singleton.mp hx
    have hsum := sum_initialErrors hs.noAlarms granted.1
    rw [List.countP_eq_zero.mpr fun name hname => by simpa using hsuspended name hname,
      Nat.add_zero] at hsum
    refine ⟨hnames.trans (congrArg _ hgranted).symm, ?_, ?_, hphase⟩
    · rw [herrors, hsum, hnames]
      rfl
    · rw [hnames]
      exact hfew

/-- A reservation that misses a suspended queue instance is not exact. -/
theorem newCounted_of_exact (hexact : ErrorsExact (s.arMod id startTime endTime granted)) :
    NewCounted s (.add id startTime endTime granted) := by
  obtain ⟨ar, hars, hnames, -, -, herrors⟩ := arMod_spec s id startTime endTime granted
  have hmem : ar ∈ (s.arMod id startTime endTime granted).ars := by
    rw [hars]
    exact List.mem_append_right _ (.head _)
  have hcount : ar.qiErrors.toNat = errorsOf s.queues ar.queueNames := hexact.count ar hmem
  have hsum := sum_initialErrors hs.noAlarms granted.1
  have hlt := ar.qiErrors.isLt
  rw [hcount, hnames] at hlt
  rw [herrors, BitVec.toNat_ofNat, hnames] at hcount
  refine ⟨?_, hlt⟩
  have hle := Nat.mod_le (granted.1.map fun name => initialErrors (s.queues name)).sum (2 ^ 32)
  have hzero : granted.1.countP (fun name => decide (.suspended ∈ s.queues name)) = 0 := by omega
  intro name hname hsuspended
  exact List.countP_eq_zero.mp hzero name hname (decide_eq_true hsuspended)

/-- A step that leaves the queue instances and the errors of all reservations alone. -/
theorem ofArs {ars : List AdvanceReservation} (pending : List TimedEvent)
    (hars : ∀ ar ∈ ars, ar ∈ s.ars ∨ Counted s.queues ar) :
    ErrorsInv { s with ars := ars, pending := pending } where
  simulate := hs.simulate
  noAlarms := hs.noAlarms
  counted := fun ar har => (hars ar har).elim (hs.counted ar) id

theorem modify (id : ℕ) (pending : List TimedEvent)
    {f : AdvanceReservation → AdvanceReservation} (hf : ∀ ar ∈ s.ars, Counted s.queues (f ar)) :
    ErrorsInv { s with ars := modifyFirst (·.id) id f s.ars, pending := pending } := by
  refine hs.ofArs pending fun ar har => ?_
  rcases mem_modifyFirst har with har | ⟨x, hx, -, rfl⟩
  · exact Or.inl har
  · exact Or.inr (hf x hx)

theorem remove (id : ℕ) (pending : List TimedEvent) :
    ErrorsInv { s with ars := s.ars.eraseP (·.id = id), pending := pending } :=
  hs.ofArs pending fun _ har => Or.inl (List.mem_of_mem_eraseP har)

theorem deleteAr (id : ℕ) (jobsRemoved : Bool) : ErrorsInv (s.deleteAr id jobsRemoved) := by
  rw [ReservationState.deleteAr]
  by_cases hgone : jobsRemoved
  · rw [if_pos hgone]
    exact hs.remove id _
  · rw [if_neg hgone]
    exact hs.modify id _ fun ar har => (hs.counted ar har).congr rfl rfl rfl (Or.inl rfl)

theorem arDel (selected jobsRemoved : AdvanceReservation → Bool) :
    ErrorsInv (s.arDel selected jobsRemoved) :=
  ReservationState.arDel_keeps (fun _ id gone hs => hs.deleteAr id gone) hs selected jobsRemoved

theorem lastJobExit (id : ℕ) : ErrorsInv (s.lastJobExit id) := by
  rw [ReservationState.lastJobExit]
  split
  · split
    · exact hs.remove id s.pending
    · exact hs
  · exact hs

theorem sgeArEventHandler (e : TimedEvent) :
    ErrorsInv (sgeArEventHandler { s with pending := s.pending.erase e } e) := by
  rw [Qmaster.sgeArEventHandler]
  split
  · exact ⟨hs.simulate, hs.noAlarms, hs.counted⟩
  · split
    · exact hs.remove e.key1 _
    · refine hs.modify (f := handleStart) e.key1 _ fun ar har => ?_
      have hphase := phaseOk_setRunning (hs.counted ar har).phase.ne_exited (ar.handled + 1)
      obtain ⟨state, heq⟩ := sgeArStateSetRunning_eq ar
      refine (hs.counted ar har).congr ?_ ?_ ?_ hphase
      · show (sgeArStateSetRunning ar).queueNames = ar.queueNames
        rw [heq]
        rfl
      · exact (sameReservation_setRunning ar).grantedQueues
      · show (sgeArStateSetRunning ar).qiErrors = ar.qiErrors
        rw [heq]

omit hs

variable {a : ReservationAct}

theorem step (hs : ErrorsInv s) (ha : a.isRestart = false)
    (hright : CountedRight s a) (hstep : reservationStep s a = some s') : ErrorsInv s' := by
  cases a with
  | setAmbiguous qname b =>
    exact Option.some.inj hstep ▸ hs.qinstanceStateSet (by decide) qname b hright.fits
  | setManualDisabled qname b =>
    exact Option.some.inj hstep ▸ hs.qinstanceStateSet (by decide) qname b hright.fits
  | setManualSuspended qname b =>
    exact Option.some.inj hstep ▸ hs.qinstanceStateSet (by decide) qname b hright.fits
  | setUnknown qname b =>
    cases hstep
    rw [ReservationState.setUnknown, hs.simulate, if_neg Bool.false_ne_true]
    exact hs.qinstanceStateSet (by decide) qname b hright.fits
  | setError qname b =>
    exact Option.some.inj hstep ▸ hs.qinstanceStateSet (by decide) qname b hright.fits
  | add id startTime endTime granted =>
    obtain ⟨-, hstep⟩ := Option.ite_none_left_eq_some.mp hstep
    obtain ⟨hsuspended, hfew⟩ := hright.new
    exact Option.some.inj hstep ▸ hs.arMod hsuspended hfew
  | del selected jobsRemoved => exact Option.some.inj hstep ▸ hs.arDel selected jobsRemoved
  | lastJobExit id => exact Option.some.inj hstep ▸ hs.lastJobExit id
  | deliver e =>
    obtain ⟨-, hstep⟩ := Option.ite_none_right_eq_some.mp hstep
    exact Option.some.inj hstep ▸ hs.sgeArEventHandler e
  | restart queues now => cases ha

theorem fits_of_exact (hs : ErrorsInv s) {qname : String} {b : Bool}
    (hexact : ErrorsExact (s.qinstanceStateSet bit qname b).1) :
    ∀ ar ∈ s.ars, errorsOf (Function.update s.queues qname
      (qinstanceSetState (s.queues qname) b bit).1) ar.queueNames < 2 ^ 32 := by
  intro ar har
  rw [ReservationState.qinstanceStateSet] at hexact
  dsimp only at hexact
  split at hexact
  · have hcount := hexact.count _ (List.mem_map_of_mem har)
    dsimp only at hcount
    rw [queueNames_setErrorState (hs.counted ar har).phase] at hcount
    exact hcount ▸ BitVec.isLt _
  · rename_i hsame
    have hsame' : (qinstanceSetState (s.queues qname) b bit).1 = s.queues qname :=
      (not_ne_iff.mp fun h => hsame (decide_eq_true h)).symm
    rw [hsame', Function.update_eq_self]
    exact (hs.counted ar har).few

theorem countedRight_of_exact (hs : ErrorsInv s) (ha : a.isRestart = false)
    (hstep : reservationStep s a = some s') (hexact : ErrorsExact s') : CountedRight s a := by
  have hfew : ∀ ar ∈ s.ars, errorsOf s.queues ar.queueNames < 2 ^ 32 :=
    fun ar har => (hs.counted ar har).few
  cases a with
  | setAmbiguous qname b =>
    cases hstep
    exact ⟨trivial, hs.fits_of_exact hexact⟩
  | setManualDisabled qname b =>
    cases hstep
    exact ⟨trivial, hs.fits_of_exact hexact⟩
  | setManualSuspended qname b =>
    cases hstep
    exact ⟨trivial, hs.fits_of_exact hexact⟩
  | setUnknown qname b =>
    cases hstep
    rw [ReservationState.setUnknown, hs.simulate, if_neg Bool.false_ne_true] at hexact
    exact ⟨trivial, hs.fits_of_exact hexact⟩
  | setError qname b =>
    cases hstep
    exact ⟨trivial, hs.fits_of_exact hexact⟩
  | add id startTime endTime granted =>
    obtain ⟨-, hstep⟩ := Option.ite_none_left_eq_some.mp hstep
    cases hstep
    exact ⟨hs.newCounted_of_exact hexact, hfew⟩
  | del selected jobsRemoved => exact ⟨trivial, hfew⟩
  | lastJobExit id => exact ⟨trivial, hfew⟩
  | deliver e => exact ⟨trivial, hfew⟩
  | restart queues now => cases ha

end ErrorsInv

/-! ## Runs -/

/-- Without restarts, load alarms and simulated hosts, the number of errors and the state of
every reservation are exact in every state of a run exactly when its steps are counted
right. -/
theorem errorsExact_iff {queues : String → Finset QiState} (hqueues : NoAlarms queues)
    {acts : List ReservationAct} (hacts : ∀ a ∈ acts, a.isRestart = false) :
    EveryState reservationStep ErrorsExact (.initial false queues) acts ↔
      EveryStep reservationStep CountedRight (.initial false queues) acts :=
  everyState_iff_everyStep (I := ErrorsInv)
    (fun _ _ _ hs ha hright hstep => hs.step ha hright hstep) (fun _ hs => hs.exact)
    (fun _ _ _ hs ha hstep hexact => hs.countedRight_of_exact ha hstep hexact)
    ⟨rfl, hqueues, nofun⟩ hacts

/-- A queue instance gets into error state before a reservation for it starts, and out of it
afterwards. -/
def errorAndBack : List ReservationAct :=
  [.add 1 100 200 ⟨["all.q@host"], List.nodup_singleton _⟩,
   .setError "all.q@host" true,
   .deliver (teNewEvent 100 typeArEvent .oneTime 1 ArState.running.code none),
   .setError "all.q@host" false]

theorem errorsExact_errorAndBack :
    EveryState reservationStep ErrorsExact (.initial false fun _ => ∅) errorAndBack := by
  have hnone : NoAlarms fun _ => ∅ := fun _ => ⟨Finset.notMem_empty _, Finset.notMem_empty _⟩
  refine (errorsExact_iff hnone (by decide)).mpr ?_
  refine (everyStep_cons rfl).mpr ⟨⟨⟨by decide, by decide⟩, by decide⟩, ?_⟩
  refine (everyStep_cons rfl).mpr ⟨⟨trivial, by decide⟩, ?_⟩
  refine (everyStep_cons rfl).mpr ⟨⟨trivial, by decide⟩, ?_⟩
  exact (everyStep_cons rfl).mpr ⟨⟨trivial, by decide⟩, trivial⟩

/-- **A suspended queue instance is not counted** when a reservation is made over it, and no
longer suspended it is counted less than nothing. -/
theorem not_errorsExact :
    ¬ EveryState reservationStep ErrorsExact (.initial false fun _ => {.suspended})
      [.add 1 100 200 ⟨["all.q@host"], List.nodup_singleton _⟩,
       .setManualSuspended "all.q@host" false] := by
  intro h
  have hexact := ((h.2 _ rfl).2 _ rfl).count
  revert hexact
  decide

end ClusterScheduler.Qmaster
