import ClusterScheduler.Foundation.Runs
import ClusterScheduler.Qmaster.TimedEvents

/-!
# The timer of automatic rescheduling

When a host becomes unknown a timer is armed, and when it goes off jobs of the host are
rescheduled. The timer is armed again when the timeout was raised meanwhile.

* `rescheduleUnknownTrigger`, `rescheduleUnknownEvent` — functions of the source.
* `UnknownTimers`, `unknownStep` — the events of all hosts, the timeouts and the clock.
* `ArmedEvent` — an event with the time its timer was armed at, and what it waits in all.
* `WaitedForAll` — jobs were rescheduled only after the timeout in force then.
* `DueTimesFit` — no due time wraps.
* `WaitsEnough` — the timeout in force is at most what the event waited for.
* `unknownRun_waits` — in a run of such steps every rescheduling has waited.

Times count microseconds in 64 bits. The key of an event has 32 bits, and is read as seconds.
-/

namespace ClusterScheduler.Qmaster

open Foundation

/-! ## Functions of the source -/

def typeRescheduleUnknownEvent : ℕ := 7

def sgeGmt32ToGmt64 (timestamp : ℕ) : ℕ := timestamp * 1000000

/-- The event that is added for a host. A timeout of 0 turns the mechanism off. -/
def rescheduleUnknownTrigger (now addTime seconds : ℕ) (host : String) : Option TimedEvent :=
  let timeout := sgeGmt32ToGmt64 seconds
  if timeout ≠ 0 then
    some (teNewEvent ((now + timeout + addTime) % 2 ^ 64) typeRescheduleUnknownEvent .oneTime
      (timeout % 2 ^ 32) 0 (some host))
  else none

/-- What becomes of an event. -/
inductive UnknownOutcome where
  | dropped
  | rearmed (ev : TimedEvent)
  | reschedules

def keyTimeout (anEvent : TimedEvent) : ℕ := sgeGmt32ToGmt64 anEvent.key1

def newDelta (addTime seconds : ℕ) : ℕ := (sgeGmt32ToGmt64 seconds + addTime) % 2 ^ 64

def queuesUnknown (masterList : List (Option Bool)) : Bool :=
  masterList.all fun qinstance => qinstance.getD true

/-- `reschedule_unknown_event()`. The timeout of a host that is not found is absent. -/
def rescheduleUnknownEvent (now addTime : ℕ) (disableReschedule : Bool) (host : Option ℕ)
    (masterList : List (Option Bool)) (anEvent : TimedEvent) : UnknownOutcome :=
  if disableReschedule then .dropped
  else
    match host with
    | none => .dropped
    | some seconds =>
      if sgeGmt32ToGmt64 seconds = 0 then .dropped
      else if keyTimeout anEvent < newDelta addTime seconds then
        .rearmed (teNewEvent ((now + newDelta addTime seconds - keyTimeout anEvent) % 2 ^ 64)
          typeRescheduleUnknownEvent .oneTime (newDelta addTime seconds % 2 ^ 32) 0 anEvent.strKey)
      else if queuesUnknown masterList then .reschedules
      else .dropped

/-! ## The timers of all hosts -/

/-- An event with the time its timer was armed at. `waits` adds up what it and the events it
replaced were made to wait. -/
structure ArmedEvent where
  event : TimedEvent
  armed : ℕ
  waits : ℕ

/-- Jobs of a host were rescheduled while a timeout was in force. -/
structure Rescheduling where
  armed : ℕ
  time : ℕ
  seconds : ℕ

/-- The clock, the timeout of each host, and what is pending and was done. -/
structure UnknownTimers where
  now : ℕ
  timeouts : String → Option ℕ
  pending : List ArmedEvent
  done : List Rescheduling

def UnknownTimers.init (now : ℕ) (timeouts : String → Option ℕ) : UnknownTimers :=
  ⟨now, timeouts, [], []⟩

def UnknownTimers.inForce (s : UnknownTimers) (e : ArmedEvent) : Option ℕ :=
  e.event.strKey.bind s.timeouts

inductive UnknownAct where
  | tick (now : ℕ)
  | configure (host : String) (timeout : Option ℕ)
  | trigger (host : String)
  | fire (k : ℕ) (disableReschedule : Bool) (masterList : List (Option Bool))

/-- The event at a position goes off. -/
def fireEvent (addTime : ℕ) (s : UnknownTimers) (k : ℕ) (e : ArmedEvent)
    (disableReschedule : Bool) (masterList : List (Option Bool)) : UnknownTimers :=
  match rescheduleUnknownEvent s.now addTime disableReschedule (s.inForce e) masterList
    e.event with
  | .dropped => { s with pending := s.pending.eraseIdx k }
  | .rearmed ev =>
    { s with
      pending := s.pending.set k ⟨ev, e.armed,
        e.waits + (newDelta addTime ((s.inForce e).getD 0) - keyTimeout e.event)⟩ }
  | .reschedules =>
    { s with
      pending := s.pending.eraseIdx k
      done := ⟨e.armed, s.now, (s.inForce e).getD 0⟩ :: s.done }

/-- No event goes off before it is due. -/
def unknownStep (addTime : ℕ) (s : UnknownTimers) : UnknownAct → Option UnknownTimers
  | .tick now => if s.now ≤ now then some { s with now } else none
  | .configure host timeout => some { s with timeouts := Function.update s.timeouts host timeout }
  | .trigger host =>
    (s.timeouts host).map fun seconds =>
      match rescheduleUnknownTrigger s.now addTime seconds host with
      | none => s
      | some ev =>
        { s with
          pending := s.pending ++ [⟨ev, s.now, sgeGmt32ToGmt64 seconds + addTime⟩] }
  | .fire k disableReschedule masterList =>
    match s.pending[k]? with
    | none => none
    | some e =>
      if s.now < e.event.when then none
      else some (fireEvent addTime s k e disableReschedule masterList)

/-- The time from arming was at least the timeout in force and the added time. -/
def WaitedForAll (addTime : ℕ) (s : UnknownTimers) : Prop :=
  ∀ r ∈ s.done, r.armed + (sgeGmt32ToGmt64 r.seconds + addTime) ≤ r.time

def DueTimesFit (addTime : ℕ) (s : UnknownTimers) : UnknownAct → Prop
  | .trigger host => ∀ seconds ∈ s.timeouts host,
      s.now + sgeGmt32ToGmt64 seconds + addTime < 2 ^ 64
  | .fire k _ _ => ∀ e ∈ s.pending[k]?, ∀ seconds ∈ s.inForce e,
      s.now + newDelta addTime seconds - keyTimeout e.event < 2 ^ 64
  | _ => True

/-- The handler does not stop before it looks at the jobs, and does not arm the timer again. -/
structure GoesOn (addTime seconds : ℕ) (disableReschedule : Bool)
    (masterList : List (Option Bool)) (anEvent : TimedEvent) : Prop where
  enabled : disableReschedule = false
  timeout : sgeGmt32ToGmt64 seconds ≠ 0
  key : newDelta addTime seconds ≤ keyTimeout anEvent
  unknown : queuesUnknown masterList = true

/-- When nothing keeps the handler from going on, the timeout in force and the added time are at
most what the event waits in all. -/
def WaitsEnough (addTime : ℕ) (s : UnknownTimers) : UnknownAct → Prop
  | .fire k disableReschedule masterList => ∀ e ∈ s.pending[k]?, ∀ seconds ∈ s.inForce e,
      GoesOn addTime seconds disableReschedule masterList e.event →
      sgeGmt32ToGmt64 seconds + addTime ≤ e.waits
  | _ => True

/-! ## What a step does -/

@[simp] theorem teNewEvent_oneTime_when (aTime aType key1 key2 : ℕ) (strKey : Option String) :
    (teNewEvent aTime aType .oneTime key1 key2 strKey).when = aTime := rfl

variable {addTime : ℕ} {s : UnknownTimers} {k : ℕ} {e : ArmedEvent}

def UnknownTimers.drop (s : UnknownTimers) (k : ℕ) : UnknownTimers :=
  { s with pending := s.pending.eraseIdx k }

theorem rescheduleUnknownEvent_cases (now addTime : ℕ) (disableReschedule : Bool)
    (host : Option ℕ) (masterList : List (Option Bool)) (anEvent : TimedEvent) :
    (∀ seconds ∈ host, ¬ GoesOn addTime seconds disableReschedule masterList anEvent) ∧
      rescheduleUnknownEvent now addTime disableReschedule host masterList anEvent = .dropped ∨
    (∃ seconds ∈ host, ∃ ev, keyTimeout anEvent < newDelta addTime seconds ∧
      ev.when = (now + newDelta addTime seconds - keyTimeout anEvent) % 2 ^ 64 ∧
      rescheduleUnknownEvent now addTime disableReschedule host masterList anEvent = .rearmed ev) ∨
    ∃ seconds ∈ host, GoesOn addTime seconds disableReschedule masterList anEvent ∧
      rescheduleUnknownEvent now addTime disableReschedule host masterList anEvent =
        .reschedules := by
  unfold rescheduleUnknownEvent
  split
  · next hdis => exact .inl ⟨fun _ _ hgo => Bool.noConfusion (hdis.symm.trans hgo.enabled), rfl⟩
  · next hdis =>
      split
      · exact .inl ⟨by simp, rfl⟩
      · next seconds =>
          split
          · next hzero =>
              refine .inl ⟨fun seconds' hs hgo => ?_, rfl⟩
              obtain rfl := Option.mem_some.mp hs
              exact hgo.timeout hzero
          · next hzero =>
              split
              · next hkey =>
                  exact .inr (.inl ⟨seconds, rfl, _, hkey, teNewEvent_oneTime_when _ _ _ _ _, rfl⟩)
              · next hkey =>
                  split
                  · next hunknown =>
                      exact .inr (.inr ⟨seconds, rfl, ⟨Bool.eq_false_of_not_eq_true hdis, hzero,
                        Nat.le_of_not_lt hkey, hunknown⟩, rfl⟩)
                  · next hunknown => exact .inl ⟨fun _ _ hgo => hunknown hgo.unknown, rfl⟩

/-- The event is dropped, armed again, or leads to a rescheduling. -/
theorem fireEvent_cases (addTime : ℕ) (s : UnknownTimers) (k : ℕ) (e : ArmedEvent)
    (disableReschedule : Bool) (masterList : List (Option Bool)) :
    (∀ seconds ∈ s.inForce e, ¬ GoesOn addTime seconds disableReschedule masterList e.event) ∧
      fireEvent addTime s k e disableReschedule masterList = s.drop k ∨
    (∃ seconds ∈ s.inForce e, ∃ ev, keyTimeout e.event < newDelta addTime seconds ∧
        ev.when = (s.now + newDelta addTime seconds - keyTimeout e.event) % 2 ^ 64 ∧
        fireEvent addTime s k e disableReschedule masterList =
          { s with
            pending := s.pending.set k ⟨ev, e.armed,
              e.waits + (newDelta addTime seconds - keyTimeout e.event)⟩ }) ∨
    ∃ seconds ∈ s.inForce e, GoesOn addTime seconds disableReschedule masterList e.event ∧
      fireEvent addTime s k e disableReschedule masterList =
        { s.drop k with done := ⟨e.armed, s.now, seconds⟩ :: s.done } := by
  unfold fireEvent
  rcases rescheduleUnknownEvent_cases s.now addTime disableReschedule (s.inForce e) masterList
    e.event with ⟨hnot, heq⟩ | ⟨seconds, hs, ev, hkey, hwhen, heq⟩ | ⟨seconds, hs, hgo, heq⟩
  · rw [heq]
    exact .inl ⟨hnot, rfl⟩
  · rw [heq, Option.mem_def.mp hs]
    exact .inr (.inl ⟨seconds, rfl, ev, hkey, hwhen, rfl⟩)
  · rw [heq, Option.mem_def.mp hs]
    exact .inr (.inr ⟨seconds, rfl, hgo, rfl⟩)

variable {act : UnknownAct} {s' : UnknownTimers}

theorem pending_step {P : ArmedEvent → Prop}
    (h : ∀ e ∈ s.pending, P e) (hfit : DueTimesFit addTime s act)
    (hnew : ∀ ev seconds, ev.when = s.now + (sgeGmt32ToGmt64 seconds + addTime) →
      P ⟨ev, s.now, sgeGmt32ToGmt64 seconds + addTime⟩)
    (hagain : ∀ k disableReschedule masterList, act = .fire k disableReschedule masterList →
      ∀ e ∈ s.pending[k]?, e.event.when ≤ s.now → ∀ ev delta, ev.when = s.now + delta →
        P ⟨ev, e.armed, e.waits + delta⟩)
    (hstep : unknownStep addTime s act = some s') : ∀ e ∈ s'.pending, P e := by
  cases act with
  | tick now =>
    obtain ⟨-, hs'⟩ := Option.ite_none_right_eq_some.mp hstep
    cases hs'
    exact h
  | configure host timeout =>
    cases hstep
    exact h
  | trigger host =>
    obtain ⟨seconds, hseconds, rfl⟩ := Option.map_eq_some_iff.mp hstep
    cases hev : rescheduleUnknownTrigger s.now addTime seconds host with
    | none => exact h
    | some ev =>
      intro e he
      rcases List.mem_append.mp he with he | he
      · exact h e he
      · obtain rfl := List.mem_singleton.mp he
        obtain ⟨-, hev'⟩ := Option.ite_none_right_eq_some.mp hev
        apply hnew
        rw [← Option.some.inj hev', teNewEvent_oneTime_when,
          Nat.mod_eq_of_lt (hfit seconds hseconds), Nat.add_assoc]
  | fire k disableReschedule masterList =>
    rw [unknownStep] at hstep
    cases he : s.pending[k]? with
    | none => simp [he] at hstep
    | some e =>
      rw [he] at hstep
      obtain ⟨hdue, hs'⟩ := Option.ite_none_left_eq_some.mp hstep
      cases hs'
      have hdrop : ∀ e' ∈ (s.drop k).pending, P e' := fun e' he' =>
        h e' (List.mem_of_mem_eraseIdx he')
      obtain ⟨-, heq⟩ | ⟨seconds, hseconds, ev, hkey, hwhen, heq⟩ | ⟨seconds, -, -, heq⟩ :=
        fireEvent_cases addTime s k e disableReschedule masterList
      · rw [heq]
        exact hdrop
      · rw [heq]
        intro e' he'
        rcases List.mem_or_eq_of_mem_set he' with he' | rfl
        · exact h e' he'
        · apply hagain k disableReschedule masterList rfl e he (Nat.le_of_not_lt hdue)
          rw [hwhen, Nat.mod_eq_of_lt (hfit e he seconds hseconds), Nat.add_sub_assoc hkey.le]
      · rw [heq]
        exact hdrop

theorem done_step (hstep : unknownStep addTime s act = some s') :
    s'.done = s.done ∨
      ∃ k disableReschedule masterList, act = .fire k disableReschedule masterList ∧
        ∃ e ∈ s.pending[k]?, e.event.when ≤ s.now ∧ ∃ seconds ∈ s.inForce e,
          GoesOn addTime seconds disableReschedule masterList e.event ∧
          s'.done = ⟨e.armed, s.now, seconds⟩ :: s.done := by
  cases act with
  | tick now =>
    obtain ⟨-, hs'⟩ := Option.ite_none_right_eq_some.mp hstep
    cases hs'
    exact .inl rfl
  | configure host timeout =>
    cases hstep
    exact .inl rfl
  | trigger host =>
    obtain ⟨seconds, -, rfl⟩ := Option.map_eq_some_iff.mp hstep
    cases rescheduleUnknownTrigger s.now addTime seconds host <;> exact .inl rfl
  | fire k disableReschedule masterList =>
    rw [unknownStep] at hstep
    cases he : s.pending[k]? with
    | none => simp [he] at hstep
    | some e =>
      rw [he] at hstep
      obtain ⟨hdue, hs'⟩ := Option.ite_none_left_eq_some.mp hstep
      cases hs'
      obtain ⟨-, heq⟩ | ⟨seconds, -, ev, -, -, heq⟩ | ⟨seconds, hs, hgo, heq⟩ :=
        fireEvent_cases addTime s k e disableReschedule masterList
      · exact .inl (heq ▸ rfl)
      · exact .inl (heq ▸ rfl)
      · exact .inr ⟨k, disableReschedule, masterList, rfl, e, he, Nat.le_of_not_lt hdue,
          seconds, hs, hgo, heq ▸ rfl⟩

/-! ## Waiting -/

/-- Every event is due no earlier than what it waits in all after its timer was armed. -/
structure TimersKept (addTime : ℕ) (s : UnknownTimers) : Prop where
  due : ∀ e ∈ s.pending, e.armed + e.waits ≤ e.event.when
  waited : WaitedForAll addTime s

theorem TimersKept.step (h : TimersKept addTime s)
    (hwaits : DueTimesFit addTime s act ∧ WaitsEnough addTime s act)
    (hstep : unknownStep addTime s act = some s') : TimersKept addTime s' := by
  refine ⟨pending_step h.due hwaits.1 (fun ev seconds hwhen => hwhen.ge) ?_ hstep, ?_⟩
  · -- the clock has reached the due time, and the difference is added
    intro k disableReschedule masterList _ e he hdue ev delta hwhen
    rw [hwhen, ← Nat.add_assoc]
    exact Nat.add_le_add_right ((h.due e (List.mem_of_getElem? he)).trans hdue) _
  · obtain heq | ⟨k, disableReschedule, masterList, rfl, e, he, hdue, seconds, hs, hgo, heq⟩ :=
      done_step hstep
    · intro r hr
      exact h.waited r (heq ▸ hr)
    · intro r hr
      rcases List.mem_cons.mp (heq ▸ hr) with rfl | hr
      · exact (Nat.add_le_add_left (hwaits.2 e he seconds hs hgo) _).trans
          ((h.due e (List.mem_of_getElem? he)).trans hdue)
      · exact h.waited r hr

theorem timersKept_init (addTime now : ℕ) (timeouts : String → Option ℕ) :
    TimersKept addTime (.init now timeouts) :=
  ⟨by simp [UnknownTimers.init], by simp [UnknownTimers.init, WaitedForAll]⟩

/-- **Rescheduling waits.** In every run whose due times fit and whose steps wait enough, jobs
are only rescheduled when the timeout in force and the added time have passed since the timer
was armed. -/
theorem unknownRun_waits (addTime now : ℕ) (timeouts : String → Option ℕ) (acts : List UnknownAct)
    (hwaits : EveryStep (unknownStep addTime)
      (fun s act => DueTimesFit addTime s act ∧ WaitsEnough addTime s act)
      (.init now timeouts) acts) :
    EveryState (unknownStep addTime) (WaitedForAll addTime) (.init now timeouts) acts :=
  everyState_of_everyStep (I := TimersKept addTime) (A := fun _ => True)
    (fun _ _ _ hkept _ hwaits hstep => hkept.step hwaits hstep) (fun _ hkept => hkept.waited)
    (timersKept_init addTime now timeouts) (fun _ _ => trivial) hwaits

/-- A timeout of a minute is lowered to half a minute while the timer of a host is pending. -/
theorem unknownRun_waits_lowered :
    EveryState (unknownStep 0) (WaitedForAll 0) (.init 5 fun _ => some 60)
      [.trigger "host", .configure "host" (some 30), .tick 60000005, .fire 0 false [some true]] := by
  apply unknownRun_waits
  refine (everyStep_cons rfl).mpr ⟨⟨?_, trivial⟩, ?_⟩
  · intro seconds hs
    obtain rfl := Option.mem_some.mp hs
    decide
  refine (everyStep_cons rfl).mpr ⟨⟨trivial, trivial⟩, ?_⟩
  refine (everyStep_cons rfl).mpr ⟨⟨trivial, trivial⟩, ?_⟩
  refine (everyStep_cons rfl).mpr ⟨⟨?_, ?_⟩, trivial⟩
  · intro e he seconds hs
    obtain rfl := Option.mem_some.mp he
    obtain rfl := Option.mem_some.mp hs
    decide
  · intro e he seconds hs _
    obtain rfl := Option.mem_some.mp he
    obtain rfl := Option.mem_some.mp hs
    decide

/-- A timeout of one second is raised to 1000 seconds while the timer is pending: jobs are
rescheduled after one second. -/
theorem unknownRun_early :
    ¬ EveryState (unknownStep 0) (WaitedForAll 0) (.init 5 fun _ => some 1)
      [.trigger "host", .configure "host" (some 1000), .tick 1000005,
        .fire 0 false [some true]] := by
  intro h
  have hlast := (((h.2 _ rfl).2 _ rfl).2 _ rfl).2 _ rfl
  exact absurd (hlast ⟨5, 1000005, 1000⟩ (.head _)) (by decide)

end ClusterScheduler.Qmaster
