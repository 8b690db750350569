import ClusterScheduler.Foundation.Runs
import ClusterScheduler.Qmaster.Reservations

/-!
# Timers of reservations

A reservation that has not started waits for its start event, one that has started for its end
event, and a deleted one for nothing.

* `expectedEvents` — the event a reservation waits for.
* `TimersInv` — the pending events are the expected ones.
* `TimersExact` — what this means for a single reservation.
* `RestartsLate` — no restart meets a reservation that starts later, or a deleted one that has
  not ended.
* `timersExact_iff` — a run keeps the timers exact if and only if its restarts are late.
-/

namespace ClusterScheduler.Qmaster

open Foundation

/-! ## Expected events -/

def expectedEvents (ar : AdvanceReservation) : List TimedEvent :=
  if ar.state = .deleted then [] else if ar.started then [endEvent ar] else [startEvent ar]

/-- The events that `ar_initialize_timer()` adds for a reservation. -/
def armedEvents (now : ℕ) (ar : AdvanceReservation) : List TimedEvent :=
  if now < ar.startTime then [startEvent ar, startEvent ar]
  else if now < ar.endTime then [endEvent ar]
  else []

section Events

variable {ar ar' : AdvanceReservation} {e : TimedEvent}

variable (h : SameReservation ar ar')
include h

theorem SameReservation.startEvent : startEvent ar' = startEvent ar := by
  simp only [Qmaster.startEvent, arEvent, h.id, h.startTime]

theorem SameReservation.endEvent : endEvent ar' = endEvent ar := by
  simp only [Qmaster.endEvent, arEvent, h.id, h.endTime]

theorem expectedEvents_congr (hstarted : ar'.started = ar.started)
    (hdel : ar'.state = .deleted ↔ ar.state = .deleted) :
    expectedEvents ar' = expectedEvents ar := by
  simp only [expectedEvents, hdel, hstarted, h.startEvent, h.endEvent]

omit h

theorem expectedEvents_cases (h : e ∈ expectedEvents ar) :
    ar.state ≠ .deleted ∧
      (ar.started = true ∧ e = endEvent ar ∨ ar.started = false ∧ e = startEvent ar) := by
  rw [expectedEvents] at h
  split_ifs at h with hdel hstarted
  · cases h
  · exact ⟨hdel, Or.inl ⟨hstarted, List.mem_singleton.mp h⟩⟩
  · exact ⟨hdel, Or.inr ⟨Bool.eq_false_of_not_eq_true hstarted, List.mem_singleton.mp h⟩⟩

theorem key1_of_mem_expectedEvents (ar : AdvanceReservation) :
    ∀ e ∈ expectedEvents ar, e.key1 = ar.id := by
  intro e he
  rcases (expectedEvents_cases he).2 with ⟨-, rfl⟩ | ⟨-, rfl⟩
  · rfl
  · rfl

theorem key1_of_mem_armedEvents (now : ℕ) (ar : AdvanceReservation) :
    ∀ e ∈ armedEvents now ar, e.key1 = ar.id := by
  intro e he
  rw [armedEvents] at he
  split_ifs at he
  · rcases List.mem_pair.mp he with rfl | rfl
    · rfl
    · rfl
  · rw [List.mem_singleton.mp he]
    rfl
  · cases he

theorem expectedEvents_of_deleted (h : ar.state = .deleted) : expectedEvents ar = [] := if_pos h

theorem addPending_perm (pending : List TimedEvent) (e : TimedEvent) :
    (addPending pending e).Perm (e :: pending) :=
  List.perm_orderedInsert DueLe e pending

/-- The two deletions remove all events of a reservation. -/
theorem deletePending_both {pending : List TimedEvent} (id : ℕ)
    (h : ∀ e ∈ pending, ∃ ar, e ∈ expectedEvents ar) :
    deletePending (deletePending pending id .running) id .exited =
      pending.filter (·.key1 ≠ id) := by
  rw [deletePending, deletePending, List.filter_filter]
  apply List.filter_congr
  intro e he
  obtain ⟨ar, hmem⟩ := h e he
  rcases (expectedEvents_cases hmem).2 with ⟨-, rfl⟩ | ⟨-, rfl⟩ <;>
    simp [DeleteKey.matches, startEvent, endEvent, arEvent, teNewEvent, ArState.code]

end Events

/-! ## Between two steps -/

/-- The pending events are the expected ones, and only a reservation that started was handled
as started. -/
structure TimersInv (s : ReservationState) : Prop where
  ids : (s.ars.map (·.id)).Nodup
  phase : ∀ ar ∈ s.ars, PhaseOk ar
  handled : ∀ ar ∈ s.ars, ar.handled ≤ if ar.started then 1 else 0
  pending : s.pending.Perm (s.ars.flatMap expectedEvents)

/-- A reservation that is not deleted has one pending event, and there are no others. -/
structure TimersExact (s : ReservationState) : Prop where
  notStarted : ∀ ar ∈ s.ars, ar.state ≠ .deleted → ar.started = false →
    s.pending.filter (·.key1 = ar.id) = [startEvent ar]
  started : ∀ ar ∈ s.ars, ar.state ≠ .deleted → ar.started = true →
    s.pending.filter (·.key1 = ar.id) = [endEvent ar]
  noOther : ∀ e ∈ s.pending, ∃ ar ∈ s.ars, ar.id = e.key1 ∧ ar.state ≠ .deleted
  once : ∀ ar ∈ s.ars, ar.handled ≤ 1

section Invariant

variable {s s' : ReservationState}

namespace TimersInv

theorem exact (hs : TimersInv s) : TimersExact s := by
  have hfilter : ∀ ar ∈ s.ars,
      (s.pending.filter (·.key1 = ar.id)).Perm (expectedEvents ar) := by
    intro ar har
    rw [← filter_flatMap_key key1_of_mem_expectedEvents hs.ids har]
    exact hs.pending.filter _
  refine ⟨fun ar har hdel hstarted => ?_, fun ar har hdel hstarted => ?_, fun e he => ?_,
    fun ar har => (hs.handled ar har).trans ?_⟩
  · have h := hfilter ar har
    rw [expectedEvents, if_neg hdel, if_neg (by simp [hstarted])] at h
    exact List.perm_singleton.mp h
  · have h := hfilter ar har
    rw [expectedEvents, if_neg hdel, if_pos hstarted] at h
    exact List.perm_singleton.mp h
  · obtain ⟨ar, har, hmem⟩ := List.mem_flatMap.mp (hs.pending.mem_iff.mp he)
    exact ⟨ar, har, (key1_of_mem_expectedEvents ar e hmem).symm, (expectedEvents_cases hmem).1⟩
  · split_ifs <;> omega

theorem expected (hs : TimersInv s) : ∀ e ∈ s.pending, ∃ ar, e ∈ expectedEvents ar := by
  intro e he
  obtain ⟨ar, -, hmem⟩ := List.mem_flatMap.mp (hs.pending.mem_iff.mp he)
  exact ⟨ar, hmem⟩

variable {f : AdvanceReservation → AdvanceReservation}

/-- Changes of reservations that concern neither their events nor their being handled. -/
theorem mapArs (hs : TimersInv s)
    (hf : ∀ ar ∈ s.ars, SameReservation ar (f ar) ∧ (f ar).started = ar.started ∧
      (f ar).handled = ar.handled ∧ ((f ar).state = .deleted ↔ ar.state = .deleted) ∧
      PhaseOk (f ar)) (queues : String → Finset QiState) :
    TimersInv { s with queues := queues, ars := s.ars.map f } where
  ids := by
    have hids : (s.ars.map f).map (·.id) = s.ars.map (·.id) := by
      rw [List.map_map]
      exact List.map_congr_left fun ar har => (hf ar har).1.id
    exact hids ▸ hs.ids
  phase := by
    intro ar' har'
    obtain ⟨ar, har, rfl⟩ := List.mem_map.mp har'
    exact (hf ar har).2.2.2.2
  handled := by
    intro ar' har'
    obtain ⟨ar, har, rfl⟩ := List.mem_map.mp har'
    obtain ⟨-, hstarted, hhandled, -⟩ := hf ar har
    rw [hstarted, hhandled]
    exact hs.handled ar har
  pending := by
    refine hs.pending.trans (List.Perm.of_eq ?_)
    rw [List.flatMap_map]
    refine List.flatMap_congr fun ar har => ?_
    obtain ⟨hsame, hstarted, -, hdel, -⟩ := hf ar har
    exact (expectedEvents_congr hsame hstarted hdel).symm

theorem qinstanceStateSet (hs : TimersInv s) (bit : QiState) (qname : String) (b : Bool) :
    TimersInv (s.qinstanceStateSet bit qname b).1 := by
  rw [ReservationState.qinstanceStateSet]
  dsimp only
  split
  · exact hs.mapArs (fun ar har => setErrorState_spec (hs.phase ar har) qname bit b) _
  · exact ⟨hs.ids, hs.phase, hs.handled, hs.pending⟩

theorem arMod (hs : TimersInv s) {id : ℕ} (hid : id ∉ s.ars.map (·.id)) (startTime endTime : ℕ)
    (granted : GrantedQueues) : TimersInv (s.arMod id startTime endTime granted) := by
  obtain ⟨qiErrors, reservedQueues, heq⟩ := arInitializeResourceBooking_eq s.queues
    ⟨id, startTime, endTime, granted, .waiting, 0, [], false, 0⟩
  rw [ReservationState.arMod, heq]
  dsimp only
  set new : AdvanceReservation :=
    ⟨id, startTime, endTime, granted, .waiting, qiErrors, reservedQueues, false, 0⟩ with hnew
  have hsame := sameReservation_setWaiting new
  have hstate : new.state ≠ .exited := nofun
  rcases sgeArStateSetWaiting_cases hstate with ⟨hdel, -⟩ | ⟨-, heq⟩
  · cases hdel
  set ar := sgeArStateSetWaiting new
  have hphase : PhaseOk ar := Or.inr (by rw [heq]; rfl)
  have hexpected : expectedEvents ar = [startEvent ar] := by
    rw [expectedEvents, if_neg, if_neg]
    · rw [heq]
      exact Bool.false_ne_true
    · rw [heq]
      dsimp only
      split_ifs <;> exact nofun
  refine ⟨?_, ?_, ?_, ?_⟩
  · rw [List.map_append, List.map_singleton, List.nodup_append]
    refine ⟨hs.ids, List.nodup_singleton _, fun a ha b hb => ?_⟩
    rw [List.mem_singleton.mp hb, hsame.id]
    rintro rfl
    exact hid ha
  · intro x hx
    rcases List.mem_append.mp hx with hx | hx
    · exact hs.phase x hx
    · rw [List.mem_singleton.mp hx]
      exact hphase
  · intro x hx
    rcases List.mem_append.mp hx with hx | hx
    · exact hs.handled x hx
    · rw [List.mem_singleton.mp hx, heq]
      exact Nat.zero_le _
  · dsimp only
    rw [List.flatMap_append, List.flatMap_singleton, hexpected]
    refine (addPending_perm _ _).trans ?_
    exact (hs.pending.cons _).trans (List.perm_append_singleton _ _).symm

variable {pending : List TimedEvent}

variable (hs : TimersInv s)
include hs

/-- A reservation is gone from the list, with its events. -/
theorem remove (id : ℕ)
    (hpending : pending.Perm ((s.ars.flatMap expectedEvents).filter (·.key1 ≠ id))) :
    TimersInv { s with ars := s.ars.eraseP (·.id = id), pending := pending } where
  ids := nodup_eraseP hs.ids _
  phase := fun ar har => hs.phase ar (List.mem_of_mem_eraseP har)
  handled := fun ar har => hs.handled ar (List.mem_of_mem_eraseP har)
  pending := by
    dsimp only
    rw [eraseP_eq_filter hs.ids, ← filter_flatMap_ne key1_of_mem_expectedEvents]
    exact hpending

theorem modify {ar : AdvanceReservation} (har : ar ∈ s.ars)
    (hid : ∀ x, (f x).id = x.id) (hphase : PhaseOk (f ar))
    (hhandled : (f ar).handled ≤ if (f ar).started then 1 else 0) (hpending : pending.Perm
      (expectedEvents (f ar) ++ (s.ars.flatMap expectedEvents).filter (·.key1 ≠ ar.id))) :
    TimersInv { s with ars := modifyFirst (·.id) ar.id f s.ars, pending := pending } := by
  have hperm := modifyFirst_perm (f := f) hs.ids har
  have hmem : ∀ x ∈ modifyFirst (·.id) ar.id f s.ars, x = f ar ∨ x ∈ s.ars := by
    intro x hx
    rcases List.mem_cons.mp (hperm.mem_iff.mp hx) with rfl | hx
    · exact Or.inl rfl
    · exact Or.inr (List.mem_of_mem_filter hx)
  refine ⟨?_, ?_, ?_, ?_⟩
  · dsimp only
    rw [map_modifyFirst hid]
    exact hs.ids
  · intro x hx
    rcases hmem x hx with rfl | hx
    · exact hphase
    · exact hs.phase x hx
  · intro x hx
    rcases hmem x hx with rfl | hx
    · exact hhandled
    · exact hs.handled x hx
  · rw [filter_flatMap_ne key1_of_mem_expectedEvents] at hpending
    exact hpending.trans (hperm.flatMap_right expectedEvents).symm

theorem deleteAr (id : ℕ) (jobsRemoved : Bool) : TimersInv (s.deleteAr id jobsRemoved) := by
  rw [ReservationState.deleteAr, deletePending_both id hs.expected]
  have hpending := hs.pending.filter fun e => decide (e.key1 ≠ id)
  by_cases hgone : jobsRemoved
  · rw [if_pos hgone]
    exact hs.remove id hpending
  · rw [if_neg hgone]
    by_cases hid : id ∈ s.ars.map (·.id)
    · obtain ⟨ar, har, rfl⟩ := List.mem_map.mp hid
      refine hs.modify (f := sgeArStateSetDeleted) har (fun _ => rfl) (Or.inl rfl)
        (hs.handled ar har) ?_
      rw [expectedEvents_of_deleted (by rfl), List.nil_append]
      exact hpending
    · have hnone : ∀ e ∈ s.ars.flatMap expectedEvents, decide (e.key1 ≠ id) = true := by
        intro e he
        obtain ⟨ar, har, hmem⟩ := List.mem_flatMap.mp he
        rw [key1_of_mem_expectedEvents ar e hmem]
        exact decide_eq_true fun h => hid (h ▸ List.mem_map_of_mem har)
      rw [List.filter_eq_self.mpr hnone] at hpending
      rw [modifyFirst_of_notMem hid]
      exact ⟨hs.ids, hs.phase, hs.handled, hpending⟩

theorem arDel (selected jobsRemoved : AdvanceReservation → Bool) :
    TimersInv (s.arDel selected jobsRemoved) :=
  ReservationState.arDel_keeps (fun _ id gone hs => hs.deleteAr id gone) hs selected jobsRemoved

theorem lastJobExit (id : ℕ) : TimersInv (s.lastJobExit id) := by
  rw [ReservationState.lastJobExit]
  split
  · rename_i ar hlookup
    split
    · rename_i hdel
      obtain rfl : ar.id = id := lookup_key hlookup
      have har : ar ∈ s.ars := List.mem_of_find?_eq_some hlookup
      have hself : (s.ars.flatMap expectedEvents).filter (·.key1 ≠ ar.id) =
          s.ars.flatMap expectedEvents := by
        refine List.filter_eq_self.mpr fun e he => decide_eq_true fun hkey => ?_
        have hmem : e ∈ (s.ars.flatMap expectedEvents).filter (·.key1 = ar.id) :=
          List.mem_filter.mpr ⟨he, decide_eq_true hkey⟩
        rw [filter_flatMap_key key1_of_mem_expectedEvents hs.ids har,
          expectedEvents_of_deleted hdel] at hmem
        cases hmem
      exact hs.remove ar.id (hself.symm ▸ hs.pending)
    · exact hs
  · exact hs

/-- The event that is handled is the one its reservation waits for. -/
theorem sgeArEventHandler {e : TimedEvent} (he : e ∈ s.pending) :
    TimersInv (sgeArEventHandler { s with pending := s.pending.erase e } e) := by
  obtain ⟨ar, har, hmem⟩ := List.mem_flatMap.mp (hs.pending.mem_iff.mp he)
  obtain ⟨hdel, hcases⟩ := expectedEvents_cases hmem
  have hkey : e.key1 = ar.id := key1_of_mem_expectedEvents ar e hmem
  have hrest : (s.pending.erase e).Perm
      ((s.ars.flatMap expectedEvents).filter (·.key1 ≠ ar.id)) := by
    have hown := filter_flatMap_key key1_of_mem_expectedEvents hs.ids har
    have hone : expectedEvents ar = [e] := by
      rcases hcases with ⟨hstarted, rfl⟩ | ⟨hstarted, rfl⟩
      · rw [expectedEvents, if_neg hdel, if_pos hstarted]
      · rw [expectedEvents, if_neg hdel, if_neg (by simp [hstarted])]
    have hsplit := (List.filter_append_perm (fun x : TimedEvent => decide (x.key1 = ar.id))
      (s.ars.flatMap expectedEvents)).symm
    rw [hown, hone] at hsplit
    have herase := (hs.pending.trans hsplit).erase e
    rw [List.singleton_append, List.erase_cons_head] at herase
    simpa using herase
  have hlookup : lookup (·.id) e.key1 s.ars = some ar := hkey ▸ lookup_of_mem hs.ids har
  rw [Qmaster.sgeArEventHandler, hlookup]
  dsimp only
  rcases hcases with ⟨-, rfl⟩ | ⟨hstarted, rfl⟩
  · -- the reservation ends
    rw [if_pos (by rfl)]
    exact hs.remove ar.id hrest
  · -- the reservation starts
    have hkind : (startEvent ar).key2 ≠ ArState.exited.code :=
      show ArState.running.code ≠ ArState.exited.code by decide
    rw [if_neg hkind]
    have hstate := (hs.phase ar har).ne_exited
    have hsame := sameReservation_setRunning ar
    refine hs.modify (f := handleStart) har (fun x => (sameReservation_setRunning x).id)
      (phaseOk_setRunning hstate _) ?_ ?_
    · have hzero := hs.handled ar har
      rw [if_neg (by simp [hstarted])] at hzero
      show ar.handled + 1 ≤ 1
      omega
    · have hexpected : expectedEvents (handleStart ar) = [endEvent ar] := by
        rcases sgeArStateSetRunning_cases hstate with ⟨h, -⟩ | ⟨-, heq⟩
        · exact absurd h hdel
        · rw [expectedEvents, handleStart, heq, if_neg, if_pos]
          · rfl
          · rfl
          · dsimp only
            split_ifs <;> exact nofun
      rw [hexpected]
      exact (addPending_perm _ _).trans (hrest.cons _)

end TimersInv

/-! ## Restarts -/

def ArmedLate (now : ℕ) (ar : AdvanceReservation) : Prop :=
  ar.startTime ≤ now ∧ (ar.state = .deleted → ar.endTime ≤ now)

theorem armedLate_congr {ar ar' : AdvanceReservation} {now : ℕ} (h : SameReservation ar ar')
    (hdel : ar'.state = .deleted ↔ ar.state = .deleted) : ArmedLate now ar' ↔ ArmedLate now ar := by
  rw [ArmedLate, ArmedLate, h.startTime, h.endTime, hdel]

section Restart

variable {now : ℕ} {ars : List AdvanceReservation}

theorem arInitializeTimer_pending (ars : List AdvanceReservation) (pending : List TimedEvent) :
    (arInitializeTimer now ars pending).2.Perm (pending ++ ars.flatMap (armedEvents now)) := by
  induction ars generalizing pending with
  | nil => simp [arInitializeTimer]
  | cons ar ars ih =>
    rw [arInitializeTimer, List.flatMap_cons, armedEvents]
    split_ifs
    · refine (ih _).trans ?_
      have hadd : (addPending (addPending pending (startEvent ar)) (startEvent ar)).Perm
          ([startEvent ar, startEvent ar] ++ pending) :=
        (addPending_perm _ _).trans ((addPending_perm _ _).cons _)
      have hswap := hadd.trans List.perm_append_comm
      rw [← List.append_assoc]
      exact hswap.append_right _
    · refine (ih _).trans ?_
      have hswap := (addPending_perm pending (endEvent ar)).trans
        (List.perm_append_singleton _ _).symm
      rw [← List.append_assoc]
      exact hswap.append_right _
    · rw [List.nil_append]
      exact ih _

theorem mem_arInitializeTimer {ars : List AdvanceReservation} {pending : List TimedEvent}
    (hars : ∀ ar ∈ ars, ar.state ≠ .exited) {ar' : AdvanceReservation}
    (h : ar' ∈ (arInitializeTimer now ars pending).1) :
    ∃ ar ∈ ars, SameReservation ar ar' ∧ (ar.state = .deleted → ar'.state = .deleted) := by
  induction ars generalizing pending with
  | nil => cases h
  | cons ar ars ih =>
    have htail := fun x hx => hars x (List.mem_cons_of_mem ar hx)
    have hrec : ∀ pending, ar' ∈ (arInitializeTimer now ars pending).1 →
        ∃ x ∈ ar :: ars, SameReservation x ar' ∧ (x.state = .deleted → ar'.state = .deleted) := by
      intro pending h
      obtain ⟨x, hx, hsame⟩ := ih htail h
      exact ⟨x, List.mem_cons_of_mem ar hx, hsame⟩
    rw [arInitializeTimer] at h
    split_ifs at h
    · rcases List.mem_cons.mp h with rfl | h
      · have hsame := sameReservation_setWaiting ar
        refine ⟨ar, .head _, ⟨hsame.id, hsame.startTime, hsame.endTime,
          hsame.grantedQueues⟩, fun hdel => ?_⟩
        rw [sgeArStateSetWaiting, if_pos (Or.inl hdel)]
        exact hdel
      · exact hrec _ h
    · rcases List.mem_cons.mp h with rfl | h
      · have hsame := sameReservation_setRunning ar
        refine ⟨ar, .head _, ⟨hsame.id, hsame.startTime, hsame.endTime,
          hsame.grantedQueues⟩, fun hdel => ?_⟩
        rw [sgeArStateSetRunning, if_pos (Or.inl hdel)]
        exact hdel
      · exact hrec _ h
    · exact hrec _ h

/-- What the loop leaves when every reservation started, and no deleted one is armed. -/
theorem arInitializeTimer_late {ars : List AdvanceReservation} (hids : (ars.map (·.id)).Nodup)
    (hars : ∀ ar ∈ ars, ar.state ≠ .exited ∧ ar.handled = 0 ∧ ArmedLate now ar)
    (pending : List TimedEvent) :
    let r := (arInitializeTimer now ars pending).1
    (r.map (·.id)).Sublist (ars.map (·.id)) ∧ (∀ ar ∈ r, PhaseOk ar ∧ ar.handled = 0) ∧
      r.flatMap expectedEvents = ars.flatMap (armedEvents now) := by
  induction ars generalizing pending with
  | nil => exact ⟨List.Sublist.refl _, nofun, rfl⟩
  | cons ar ars ih =>
    obtain ⟨⟨hstate, hzero, hstart, hend⟩, htail⟩ := List.forall_mem_cons.mp hars
    have ih := ih (List.nodup_cons.mp hids).2 htail
    have hnot : ¬ now < ar.startTime := Nat.not_lt.mpr hstart
    rw [arInitializeTimer, if_neg hnot]
    by_cases hlt : now < ar.endTime
    · obtain ⟨hsub, hphase, hevents⟩ := ih (addPending pending (endEvent ar))
      have hdel : ar.state ≠ .deleted := fun h => absurd (hend h) (Nat.not_le.mpr hlt)
      have hsame := sameReservation_setRunning ar
      rcases sgeArStateSetRunning_cases hstate with ⟨h, -⟩ | ⟨-, heq⟩
      · exact absurd h hdel
      rw [if_pos hlt]
      refine ⟨?_, ?_, ?_⟩
      · rw [List.map_cons, List.map_cons, hsame.id]
        exact hsub.cons_cons _
      · refine List.forall_mem_cons.mpr ⟨⟨phaseOk_setRunning hstate _, ?_⟩, hphase⟩
        rw [heq]
        exact hzero
      · rw [List.flatMap_cons, List.flatMap_cons, hevents, armedEvents, if_neg hnot, if_pos hlt,
          expectedEvents, if_neg, if_pos]
        · rw [heq]
          rfl
        · rfl
        · rw [heq]
          dsimp only
          split_ifs <;> exact nofun
    · obtain ⟨hsub, hphase, hevents⟩ := ih pending
      rw [if_neg hlt]
      refine ⟨hsub.cons _, hphase, ?_⟩
      rw [hevents, List.flatMap_cons, armedEvents, if_neg hnot, if_neg hlt, List.nil_append]

end Restart

/-- The condition: every reservation that a restart meets has started, and a deleted one has
ended. -/
def RestartsLate (s : ReservationState) : ReservationAct → Prop
  | .restart _ now => ∀ ar ∈ s.ars, ArmedLate now ar
  | _ => True

theorem spooledAr_spec (queues : String → Finset QiState) (ar : AdvanceReservation) :
    let ar' := arInitializeResourceBooking queues (spooledAr ar)
    SameReservation ar ar' ∧ ar'.state ≠ .exited ∧ ar'.handled = 0 ∧
      (ar'.state = .deleted ↔ ar.state = .deleted) := by
  obtain ⟨qiErrors, reservedQueues, heq⟩ := arInitializeResourceBooking_eq queues (spooledAr ar)
  rw [heq]
  refine ⟨⟨rfl, rfl, rfl, rfl⟩, ?_, rfl, ?_⟩
  · dsimp only [spooledAr]
    split_ifs <;> exact nofun
  · dsimp only [spooledAr]
    split_ifs with hdel
    · exact iff_of_true rfl hdel
    · exact iff_of_false nofun hdel

namespace TimersInv

variable {now : ℕ}

theorem restartQmaster (hs : TimersInv s) (queues : String → Finset QiState)
    (hlate : ∀ ar ∈ s.ars, ArmedLate now ar) : TimersInv (restartQmaster s queues now) := by
  set ars := s.ars.map fun ar => arInitializeResourceBooking queues (spooledAr ar) with hars
  have hmap : ars.map (·.id) = s.ars.map (·.id) := by
    rw [hars, List.map_map]
    exact List.map_congr_left fun ar _ => (spooledAr_spec queues ar).1.id
  have hids : (ars.map (·.id)).Nodup := hmap ▸ hs.ids
  have hfound : ∀ ar ∈ ars, ar.state ≠ .exited ∧ ar.handled = 0 ∧ ArmedLate now ar := by
    intro ar' har'
    obtain ⟨ar, har, rfl⟩ := List.mem_map.mp har'
    obtain ⟨hsame, hexited, hzero, hdel⟩ := spooledAr_spec queues ar
    exact ⟨hexited, hzero, (armedLate_congr hsame hdel).mpr (hlate ar har)⟩
  obtain ⟨hsub, hphase, hevents⟩ := arInitializeTimer_late hids hfound []
  refine ⟨hids.sublist hsub, fun ar har => (hphase ar har).1, fun ar har => ?_, ?_⟩
  · rw [(hphase ar har).2]
    exact Nat.zero_le _
  · refine (arInitializeTimer_pending ars []).trans (List.Perm.of_eq ?_)
    exact hevents.symm

theorem armedLate_of_exact (hs : TimersInv s) {queues : String → Finset QiState}
    (hexact : TimersExact (Qmaster.restartQmaster s queues now)) :
    ∀ ar ∈ s.ars, ArmedLate now ar := by
  set ars := s.ars.map fun ar => arInitializeResourceBooking queues (spooledAr ar) with hars
  have hids : (ars.map (·.id)).Nodup := by
    have hmap : ars.map (·.id) = s.ars.map (·.id) := by
      rw [hars, List.map_map]
      exact List.map_congr_left fun ar _ => (spooledAr_spec queues ar).1.id
    exact hmap ▸ hs.ids
  set s' := Qmaster.restartQmaster s queues now with hs'
  have hpending : s'.pending.Perm (ars.flatMap (armedEvents now)) :=
    arInitializeTimer_pending ars []
  intro ar har
  obtain ⟨hsame, -, -, hdel⟩ := spooledAr_spec queues ar
  rw [← armedLate_congr hsame hdel]
  set x := arInitializeResourceBooking queues (spooledAr ar)
  have hx : x ∈ ars := List.mem_map_of_mem har
  -- an event that is armed belongs to a reservation that is not deleted
  have howner : ∀ e ∈ armedEvents now x, ∃ ar' ∈ s'.ars, ar'.id = x.id ∧
      ar'.state ≠ .deleted ∧ x.state ≠ .deleted := by
    intro e he
    have hmem : e ∈ s'.pending := hpending.mem_iff.mpr (List.mem_flatMap.mpr ⟨x, hx, he⟩)
    obtain ⟨ar', har', hid, hlive⟩ := hexact.noOther e hmem
    rw [key1_of_mem_armedEvents now x e he] at hid
    obtain ⟨y, hy, hsame', hdel'⟩ := mem_arInitializeTimer (fun y hy => by
      obtain ⟨z, hz, rfl⟩ := List.mem_map.mp hy
      exact (spooledAr_spec queues z).2.1) har'
    obtain rfl : y = x := List.inj_on_of_nodup_map hids hy hx (hsame'.id.symm.trans hid)
    exact ⟨ar', har', hid, hlive, fun h => hlive (hdel' h)⟩
  have hone : ∀ e ∈ armedEvents now x, (armedEvents now x).length = 1 := by
    intro e he
    obtain ⟨ar', har', hid, hlive, -⟩ := howner e he
    have hown := (hpending.filter fun e => decide (e.key1 = x.id)).length_eq
    rw [filter_flatMap_key (key1_of_mem_armedEvents now) hids hx, ← hid] at hown
    rw [← hown]
    by_cases hstarted : ar'.started = true
    · rw [hexact.started ar' har' hlive hstarted]
      rfl
    · rw [hexact.notStarted ar' har' hlive (Bool.eq_false_of_not_eq_true hstarted)]
      rfl
  constructor
  · by_contra hlt
    have harmed : armedEvents now x = [startEvent x, startEvent x] := if_pos (Nat.not_le.mp hlt)
    rw [harmed] at hone
    exact absurd (hone (startEvent x) (.head _)) nofun
  · intro hxdel
    by_contra hlt
    have harmed : armedEvents now x ≠ [] := by
      rw [armedEvents, if_pos (Nat.not_le.mp hlt)]
      split_ifs <;> exact nofun
    obtain ⟨e, he⟩ := List.exists_mem_of_ne_nil _ harmed
    obtain ⟨-, -, -, -, hxlive⟩ := howner e he
    exact hxlive hxdel

theorem step (hs : TimersInv s) {a : ReservationAct} (hlate : RestartsLate s a)
    (hstep : reservationStep s a = some s') : TimersInv s' := by
  cases a with
  | setAmbiguous qname b => exact Option.some.inj hstep ▸ hs.qinstanceStateSet _ qname b
  | setManualDisabled qname b => exact Option.some.inj hstep ▸ hs.qinstanceStateSet _ qname b
  | setManualSuspended qname b => exact Option.some.inj hstep ▸ hs.qinstanceStateSet _ qname b
  | setUnknown qname b => exact Option.some.inj hstep ▸ hs.qinstanceStateSet _ qname _
  | setError qname b => exact Option.some.inj hstep ▸ hs.qinstanceStateSet _ qname b
  | add id startTime endTime granted =>
    obtain ⟨hid, hstep⟩ := Option.ite_none_left_eq_some.mp hstep
    exact Option.some.inj hstep ▸ hs.arMod hid startTime endTime granted
  | del selected jobsRemoved => exact Option.some.inj hstep ▸ hs.arDel selected jobsRemoved
  | lastJobExit id => exact Option.some.inj hstep ▸ hs.lastJobExit id
  | deliver e =>
    obtain ⟨he, hstep⟩ := Option.ite_none_right_eq_some.mp hstep
    exact Option.some.inj hstep ▸ hs.sgeArEventHandler he
  | restart queues now => exact Option.some.inj hstep ▸ hs.restartQmaster queues hlate

end TimersInv

end Invariant

/-! ## Runs -/

theorem TimersInv.initial (simulateExecds : Bool) (queues : String → Finset QiState) :
    TimersInv (.initial simulateExecds queues) where
  ids := List.nodup_nil
  phase := nofun
  handled := nofun
  pending := List.Perm.refl _

/-- In a run every reservation has its one event in every state exactly when all restarts are
late. -/
theorem timersExact_iff (simulateExecds : Bool) (queues : String → Finset QiState)
    (acts : List ReservationAct) :
    EveryState reservationStep TimersExact (.initial simulateExecds queues) acts ↔
      EveryStep reservationStep RestartsLate (.initial simulateExecds queues) acts := by
  refine everyState_iff_everyStep (I := TimersInv) (A := fun _ => True)
    (fun s a s' hs _ hlate hstep => hs.step hlate hstep) (fun s hs => hs.exact)
    (fun s a s' hs _ hstep hexact => ?_) (.initial simulateExecds queues) fun _ _ => trivial
  cases a with
  | restart queues now =>
    obtain rfl := Option.some.inj hstep
    exact hs.armedLate_of_exact hexact
  | _ => trivial

/-- **Two start events**: a reservation is made, and the qmaster is restarted before it
starts. -/
theorem not_timersExact :
    ¬ EveryState reservationStep TimersExact (.initial false fun _ => ∅)
      [.add 1 100 200 ⟨["all.q@host"], List.nodup_singleton _⟩, .restart (fun _ => ∅) 50] := by
  intro h
  have hexact := ((h.2 _ rfl).2 _ rfl).notStarted
  revert hexact
  decide

end ClusterScheduler.Qmaster
