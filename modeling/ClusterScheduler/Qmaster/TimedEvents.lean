import Mathlib

/-!
# Timed events

Events of the qmaster that are due at some time, kept in a list sorted by due time, and the
thread that sleeps until the first of them is due and delivers it.

* `TimedEvent`, `TimerState` — the list, `Event_Control`, and where the thread is.
* `teAddEvent`, `teDelete` — what any thread may do while the mutex is free.
* `TimerAct`, `timerStep` — the sections of the threads, each with the mutex taken once.
* `TimerInv` — what holds between any two sections.
* `timer_safe` — events are delivered once, in order, never early and never
  after they were deleted, as long as `next` is not read as "the list is empty" while the
  thread waits for an event.

The thread may wake up at any time. A wait times out only when the event is due.
-/

namespace ClusterScheduler.Qmaster

open List (Perm)
open scoped List

/-! ## The event list -/

inductive TeMode where
  | oneTime
  | recurring
  deriving DecidableEq

/-- An element of the event list. The thread keeps a copy of the one it waits for. -/
structure TimedEvent where
  seqno : ℕ
  when : ℕ
  type : ℕ
  mode : TeMode
  interval : ℕ
  key1 : ℕ
  key2 : ℕ
  strKey : Option String
  deriving DecidableEq

/-- `te_new_event()`. The time is the due time of a one-time event, and the interval of a
recurring one. -/
def teNewEvent (aTime aType : ℕ) (aMode : TeMode) (aKey1 aKey2 : ℕ) (aStrKey : Option String) :
    TimedEvent where
  seqno := 0
  when := if aMode = .oneTime then aTime else 0
  type := aType
  mode := aMode
  interval := if aMode = .oneTime then 0 else aTime
  key1 := aKey1
  key2 := aKey2
  strKey := aStrKey

/-- The sort order of the list. -/
def DueLe (a b : TimedEvent) : Prop := a.when ≤ b.when

instance : DecidableRel DueLe := fun a b => Nat.decLe a.when b.when

instance : Std.Total DueLe := ⟨fun a b => Nat.le_total a.when b.when⟩

instance : IsTrans TimedEvent DueLe := ⟨fun _ _ _ => Nat.le_trans⟩

/-- The arguments of a deletion. Without keys all one-time events of the type are meant. -/
structure DeleteKey where
  type : ℕ
  key1 : ℕ
  key2 : ℕ
  strKey : Option String
  ignoreKeys : Bool
  deriving DecidableEq

/-- Is the event deleted? -/
def DeleteKey.matches (k : DeleteKey) (e : TimedEvent) : Bool :=
  decide (e.type = k.type) && decide (e.mode = .oneTime) &&
    (k.ignoreKeys || (decide (e.key1 = k.key1) && decide (e.key2 = k.key2) &&
      (k.strKey.isNone || decide (e.strKey = k.strKey))))

/-! ## The state -/

/-- Where the thread is: at the top of its loop, in one of the two waits, about to call the
handler of an event it took out, or about to add a recurring event again. -/
inductive TimerPhase where
  | top
  | waitEmpty
  | waitNext (te : TimedEvent)
  | deliver (te : TimedEvent)
  | readd (te : TimedEvent)
  deriving DecidableEq

/-- What has happened to events. -/
inductive TimerEntry where
  | added (e : TimedEvent)
  | deleted (k : DeleteKey) (e : TimedEvent)
  | deleteReturned (k : DeleteKey)
  | waits (e : TimedEvent) (list : List TimedEvent)
  | taken (e : TimedEvent) (list : List TimedEvent)
  | delivered (e : TimedEvent) (now : ℕ)
  deriving DecidableEq

/-- `Event_Control`, the types with a handler, the clock and the thread. The history has
the latest entry first. -/
structure TimerState where
  clock : ℕ
  list : List TimedEvent
  next : ℕ
  last : ℕ
  deleted : Bool
  seqNo : ℕ
  handlers : List ℕ
  phase : TimerPhase
  history : List TimerEntry
  deriving DecidableEq

/-- `te_init()`, at some time. -/
def TimerState.init (now : ℕ) : TimerState where
  clock := now
  list := []
  next := 0
  last := 0
  deleted := false
  seqNo := 0
  handlers := []
  phase := .top
  history := []

/-! ## Sections of any thread -/

def dueTime (anEvent : TimedEvent) (now : ℕ) : ℕ :=
  if anEvent.mode = .oneTime then anEvent.when else (now + anEvent.interval) % 2 ^ 64

def TimerState.element (s : TimerState) (anEvent : TimedEvent) (now : ℕ) : TimedEvent :=
  { anEvent with when := dueTime anEvent now, seqno := s.seqNo }

/-- `te_add_event()`. A `next` of zero stands for an empty list. -/
def teAddEvent (s : TimerState) (anEvent : TimedEvent) (now : ℕ) : TimerState :=
  let le := s.element anEvent now
  { s with
    seqNo := s.seqNo + 1
    list := s.list.orderedInsert DueLe le
    next := if s.next = 0 ∨ le.when < s.next then le.when else s.next
    history := .added le :: s.history }

/-- `te_delete_all_or_one_time_event()`. -/
def teDelete (s : TimerState) (k : DeleteKey) : TimerState :=
  let gone := s.list.filter k.matches
  { s with
    list := s.list.filter fun e => !k.matches e
    deleted := s.deleted || !gone.isEmpty
    history := .deleteReturned k :: (gone.map (.deleted k) ++ s.history) }

/-! ## Sections of the thread -/

/-- `te_check_time()`: the clock was set back. -/
def teCheckTime (s : TimerState) (aTime : ℕ) : TimerState :=
  if aTime < s.last then
    let delta := s.last - aTime
    { s with
      list := s.list.map fun e => { e with when := (e.when + 2 ^ 64 - delta) % 2 ^ 64 }
      last := aTime
      next := (s.next + 2 ^ 64 - delta) % 2 ^ 64 }
  else s

/-- The element is unchained. -/
def takeOut (s : TimerState) (te : TimedEvent) : TimerState :=
  { s with
    list := s.list.erase te
    phase := .deliver te
    history := .taken te s.list :: s.history }

/-- The thread looks at the first event: it waits for it, or takes it out. -/
def lookAtFirst (s : TimerState) (now : ℕ) : TimerState :=
  match s.list with
  | [] => s
  | te :: _ =>
    if now < te.when then
      { s with
        clock := now
        next := te.when
        deleted := false
        phase := .waitNext te
        history := .waits te s.list :: s.history }
    else takeOut { s with clock := now, next := now } te

/-- `te_wait_empty()`, and what follows when there is an event. -/
def teWaitEmpty (s : TimerState) (now : ℕ) : TimerState :=
  if s.list = [] then { s with next := 0, phase := .waitEmpty } else lookAtFirst s now

def startLoop (s : TimerState) (now₁ now₂ now₃ : ℕ) : TimerState :=
  teWaitEmpty { teCheckTime s now₁ with clock := now₂, last := now₂ } now₃

def afterWait (s : TimerState) (te : TimedEvent) : TimerState :=
  if s.next < te.when ∨ s.deleted = true then { s with phase := .top } else takeOut s te

/-- The thread wakes up in `te_wait_next()` before the time-out. -/
def wakeNext (s : TimerState) (te : TimedEvent) (now : ℕ) : TimerState :=
  if s.next = te.when ∧ now < te.when then { s with clock := now }
  else afterWait { s with clock := now } te

/-- `te_scan_table_and_deliver()` up to the call of the handler. -/
def scanTableAndDeliver (s : TimerState) (te : TimedEvent) : TimerState :=
  { s with
    phase := if te.mode = .recurring then .readd te else .top
    history := if te.type ∈ s.handlers then .delivered te s.clock :: s.history else s.history }

/-! ## Steps -/

inductive TimerAct where
  | tick (now : ℕ)
  | register (aType : ℕ)
  | add (anEvent : TimedEvent) (now : ℕ)
  | delete (k : DeleteKey)
  | start (now₁ now₂ now₃ : ℕ)
  | wakeEmpty (now : ℕ)
  | wakeNext (now : ℕ)
  | timedOut
  | deliver
  | readd (now : ℕ)
  deriving DecidableEq

/-- One section. Clocks do not run backwards. -/
def timerStep (s : TimerState) : TimerAct → Option TimerState
  | .tick now => if s.clock ≤ now then some { s with clock := now } else none
  | .register aType => some { s with handlers := s.handlers ++ [aType] }
  | .add anEvent now => if now ≤ s.clock then some (teAddEvent s anEvent now) else none
  | .delete k => some (teDelete s k)
  | .start now₁ now₂ now₃ =>
    if s.phase = .top ∧ s.clock ≤ now₁ ∧ now₁ ≤ now₂ ∧ now₂ ≤ now₃ then
      some (startLoop s now₁ now₂ now₃)
    else none
  | .wakeEmpty now =>
    if s.phase = .waitEmpty ∧ s.clock ≤ now then some (teWaitEmpty s now) else none
  | .wakeNext now =>
    match s.phase with
    | .waitNext te => if s.clock ≤ now then some (wakeNext s te now) else none
    | _ => none
  | .timedOut =>
    match s.phase with
    | .waitNext te => if te.when ≤ s.clock then some (afterWait s te) else none
    | _ => none
  | .deliver =>
    match s.phase with
    | .deliver te => some (scanTableAndDeliver s te)
    | _ => none
  | .readd now =>
    match s.phase with
    | .readd te =>
      if now ≤ s.clock then some { teAddEvent s te now with phase := .top } else none
    | _ => none

/-- An event that is due no earlier than the one the thread waits for is added while `next`
is zero. -/
def overlooks (s : TimerState) : TimerAct → Bool
  | .add anEvent now =>
    match s.phase with
    | .waitNext te =>
      !s.deleted && decide (s.next = 0) && decide (te.when ≤ dueTime anEvent now)
    | _ => false
  | _ => false

/-- The states that any threads reach in any order of sections, each of them allowed. -/
inductive TimerReachable (allowed : TimerState → TimerAct → Bool) : TimerState → Prop
  | init (now : ℕ) : TimerReachable allowed (.init now)
  | step {s s' : TimerState} (a : TimerAct) :
      TimerReachable allowed s → allowed s a = true → timerStep s a = some s' →
      TimerReachable allowed s'

/-- One section after the other. -/
def timerRun (allowed : TimerState → TimerAct → Bool) (s : TimerState) :
    List TimerAct → Option TimerState
  | [] => some s
  | a :: acts =>
    if allowed s a then (timerStep s a).bind fun s' => timerRun allowed s' acts else none

theorem TimerReachable.run {allowed : TimerState → TimerAct → Bool} {s s' : TimerState}
    {acts : List TimerAct} (hs : TimerReachable allowed s)
    (h : timerRun allowed s acts = some s') : TimerReachable allowed s' := by
  induction acts generalizing s with
  | nil => exact Option.some.inj h ▸ hs
  | cons a acts ih =>
    obtain ⟨hok, h⟩ := Option.ite_none_right_eq_some.mp h
    obtain ⟨s₁, hstep, h⟩ := Option.bind_eq_some_iff.mp h
    exact ih (hs.step a hok hstep) h

/-! ## What the history tells -/

def addedOf (h : List TimerEntry) : List TimedEvent :=
  h.filterMap fun x => match x with
    | .added e => some e
    | _ => none

def deletedOf (h : List TimerEntry) : List TimedEvent :=
  h.filterMap fun x => match x with
    | .deleted _ e => some e
    | _ => none

def takenOf (h : List TimerEntry) : List TimedEvent :=
  h.filterMap fun x => match x with
    | .taken e _ => some e
    | _ => none

def deliveredOf (h : List TimerEntry) : List TimedEvent :=
  h.filterMap fun x => match x with
    | .delivered e _ => some e
    | _ => none

/-- Who asks for an event to be deleted that was not taken out before gets it deleted. -/
def CallsKept (h : List TimerEntry) : Prop :=
  ∀ h₁ h₂ k e, h = h₂ ++ .deleteReturned k :: h₁ → e ∈ addedOf h₁ → e ∉ takenOf h₁ →
    k.matches e = true → e ∈ deletedOf h

/-- Events are delivered once, in order, never early and never after they were deleted. -/
structure TimerSafe (s : TimerState) : Prop where
  once : ((deliveredOf s.history).map (·.seqno)).Nodup
  notEarly : ∀ e now, .delivered e now ∈ s.history → e.when ≤ now
  inOrder : ∀ e list, .taken e list ∈ s.history → e ∈ list ∧ ∀ x ∈ list, e.when ≤ x.when
  notDeleted : ∀ h₁ h₂ k e, s.history = h₂ ++ .deleteReturned k :: h₁ → e ∈ addedOf h₁ →
    e ∉ takenOf h₁ → k.matches e = true → e ∉ deliveredOf s.history
  accounted : (addedOf s.history).Perm
    (s.list ++ (takenOf s.history ++ deletedOf s.history))
  deletedOnCall : ∀ k e, .deleted k e ∈ s.history → k.matches e = true
  waits : ∀ e list, .waits e list ∈ s.history → ∀ x ∈ list, e.when ≤ x.when

/-! ## Calls for deletion -/

section Calls

variable {h : List TimerEntry}

theorem CallsKept.cons {x : TimerEntry} (hc : CallsKept h) (hx : ∀ k, x ≠ .deleteReturned k)
    (hsub : deletedOf h ⊆ deletedOf (x :: h)) : CallsKept (x :: h) := by
  intro h₁ h₂ k e heq hadd htaken hk
  cases h₂ with
  | nil =>
    obtain ⟨rfl, -⟩ := List.cons.inj heq
    exact absurd rfl (hx k)
  | cons y h₂ =>
    obtain ⟨-, heq⟩ := List.cons.inj heq
    exact hsub (hc h₁ h₂ k e heq hadd htaken hk)

theorem addedOf_deleted (k : DeleteKey) (gone : List TimedEvent) (h : List TimerEntry) :
    addedOf (gone.map (.deleted k) ++ h) = addedOf h := by
  induction gone with
  | nil => rfl
  | cons e gone ih => exact ih

theorem takenOf_deleted (k : DeleteKey) (gone : List TimedEvent) (h : List TimerEntry) :
    takenOf (gone.map (.deleted k) ++ h) = takenOf h := by
  induction gone with
  | nil => rfl
  | cons e gone ih => exact ih

theorem deliveredOf_deleted (k : DeleteKey) (gone : List TimedEvent) (h : List TimerEntry) :
    deliveredOf (gone.map (.deleted k) ++ h) = deliveredOf h := by
  induction gone with
  | nil => rfl
  | cons e gone ih => exact ih

theorem deletedOf_deleted (k : DeleteKey) (gone : List TimedEvent) (h : List TimerEntry) :
    deletedOf (gone.map (.deleted k) ++ h) = gone ++ deletedOf h := by
  induction gone with
  | nil => rfl
  | cons e gone ih => exact congrArg (e :: ·) ih

theorem CallsKept.deleted (hc : CallsKept h) (k : DeleteKey) (gone : List TimedEvent) :
    CallsKept (gone.map (.deleted k) ++ h) := by
  induction gone with
  | nil => exact hc
  | cons e gone ih => exact ih.cons (fun _ => nofun) (List.subset_cons_self _ _)

/-- A call that returns leaves none of its events behind. -/
theorem CallsKept.returned {k : DeleteKey} (hc : CallsKept h)
    (hk : ∀ e ∈ addedOf h, e ∉ takenOf h → k.matches e = true → e ∈ deletedOf h) :
    CallsKept (.deleteReturned k :: h) := by
  intro h₁ h₂ k' e heq hadd htaken hk'
  cases h₂ with
  | nil =>
    obtain ⟨hkk, rfl⟩ := List.cons.inj heq
    obtain rfl : k = k' := TimerEntry.deleteReturned.inj hkk
    exact hk e hadd htaken hk'
  | cons y h₂ =>
    obtain ⟨-, heq⟩ := List.cons.inj heq
    exact hc h₁ h₂ k' e heq hadd htaken hk'

end Calls

/-! ## The list and the history -/

/-- What holds of the list, the number of the next event, and the history. -/
structure TimerLog (l : List TimedEvent) (n : ℕ) (h : List TimerEntry) : Prop where
  sorted : l.Pairwise DueLe
  seqnos : ((addedOf h).map (·.seqno)).Nodup
  fresh : ∀ e ∈ addedOf h, e.seqno < n
  accounted : (addedOf h).Perm (l ++ (takenOf h ++ deletedOf h))
  inOrder : ∀ e list, .taken e list ∈ h → e ∈ list ∧ ∀ x ∈ list, e.when ≤ x.when
  waits : ∀ e list, .waits e list ∈ h → ∀ x ∈ list, e.when ≤ x.when
  matched : ∀ k e, .deleted k e ∈ h → k.matches e = true
  notEarly : ∀ e now, .delivered e now ∈ h → e.when ≤ now
  calls : CallsKept h

namespace TimerLog

variable {l : List TimedEvent} {n : ℕ} {h : List TimerEntry} {te : TimedEvent}

theorem init : TimerLog [] 0 [] where
  sorted := .nil
  seqnos := List.nodup_nil
  fresh := by simp [addedOf]
  accounted := .refl _
  inOrder := by simp
  waits := by simp
  matched := by simp
  notEarly := by simp
  calls := by
    intro h₁ h₂ k e heq
    simp at heq

variable (hl : TimerLog l n h)
include hl

theorem add (hte : te.seqno = n) :
    TimerLog (l.orderedInsert DueLe te) (n + 1) (.added te :: h) where
  sorted := hl.sorted.orderedInsert te l
  seqnos := by
    refine List.nodup_cons.mpr ⟨fun hmem => ?_, hl.seqnos⟩
    obtain ⟨e, he, heq⟩ := List.mem_map.mp hmem
    have := hl.fresh e he
    simp only [heq, hte] at this
    exact absurd this (lt_irrefl n)
  fresh := by
    intro e he
    rcases List.mem_cons.mp he with rfl | he
    · exact hte ▸ Nat.lt_succ_self _
    · exact (hl.fresh e he).trans (Nat.lt_succ_self n)
  accounted :=
    (hl.accounted.cons te).trans ((List.perm_orderedInsert DueLe te l).symm.append_right _)
  inOrder := fun e list he => hl.inOrder e list ((List.mem_cons.mp he).resolve_left nofun)
  waits := fun e list he => hl.waits e list ((List.mem_cons.mp he).resolve_left nofun)
  matched := fun k e he => hl.matched k e ((List.mem_cons.mp he).resolve_left nofun)
  notEarly := fun e now he => hl.notEarly e now ((List.mem_cons.mp he).resolve_left nofun)
  calls := hl.calls.cons (fun _ => nofun) fun _ he => he

theorem wait (hte : ∀ x ∈ l, te.when ≤ x.when) : TimerLog l n (.waits te l :: h) where
  sorted := hl.sorted
  seqnos := hl.seqnos
  fresh := hl.fresh
  accounted := hl.accounted
  inOrder := fun e list he => hl.inOrder e list ((List.mem_cons.mp he).resolve_left nofun)
  waits := by
    intro e list he
    rcases List.mem_cons.mp he with heq | he
    · obtain ⟨rfl, rfl⟩ := TimerEntry.waits.inj heq
      exact hte
    · exact hl.waits e list he
  matched := fun k e he => hl.matched k e ((List.mem_cons.mp he).resolve_left nofun)
  notEarly := fun e now he => hl.notEarly e now ((List.mem_cons.mp he).resolve_left nofun)
  calls := hl.calls.cons (fun _ => nofun) fun _ he => he

theorem take (hmem : te ∈ l) (hte : ∀ x ∈ l, te.when ≤ x.when) :
    TimerLog (l.erase te) n (.taken te l :: h) where
  sorted := hl.sorted.sublist List.erase_sublist
  seqnos := hl.seqnos
  fresh := hl.fresh
  accounted := by
    have hperm : l.Perm (te :: l.erase te) := List.perm_cons_erase hmem
    calc addedOf h
        _ ~ l ++ (takenOf h ++ deletedOf h) := hl.accounted
        _ ~ te :: l.erase te ++ (takenOf h ++ deletedOf h) := hperm.append_right _
        _ ~ l.erase te ++ te :: (takenOf h ++ deletedOf h) := List.perm_middle.symm
  inOrder := by
    intro e list he
    rcases List.mem_cons.mp he with heq | he
    · obtain ⟨rfl, rfl⟩ := TimerEntry.taken.inj heq
      exact ⟨hmem, hte⟩
    · exact hl.inOrder e list he
  waits := fun e list he => hl.waits e list ((List.mem_cons.mp he).resolve_left nofun)
  matched := fun k e he => hl.matched k e ((List.mem_cons.mp he).resolve_left nofun)
  notEarly := fun e now he => hl.notEarly e now ((List.mem_cons.mp he).resolve_left nofun)
  calls := hl.calls.cons (fun _ => nofun) fun _ he => he

theorem deliver {now : ℕ} (hte : te.when ≤ now) : TimerLog l n (.delivered te now :: h) where
  sorted := hl.sorted
  seqnos := hl.seqnos
  fresh := hl.fresh
  accounted := hl.accounted
  inOrder := fun e list he => hl.inOrder e list ((List.mem_cons.mp he).resolve_left nofun)
  waits := fun e list he => hl.waits e list ((List.mem_cons.mp he).resolve_left nofun)
  matched := fun k e he => hl.matched k e ((List.mem_cons.mp he).resolve_left nofun)
  notEarly := by
    intro e t he
    rcases List.mem_cons.mp he with heq | he
    · obtain ⟨rfl, rfl⟩ := TimerEntry.delivered.inj heq
      exact hte
    · exact hl.notEarly e t he
  calls := hl.calls.cons (fun _ => nofun) fun _ he => he

omit hl

/-- An entry of a deletion tells an event of the list, or was there before. -/
theorem mem_deletion {k : DeleteKey} {x : TimerEntry}
    (hx : x ∈ .deleteReturned k :: ((l.filter k.matches).map (.deleted k) ++ h)) :
    x = .deleteReturned k ∨ (∃ e, k.matches e = true ∧ x = .deleted k e) ∨ x ∈ h := by
  rcases List.mem_cons.mp hx with rfl | hx
  · exact Or.inl rfl
  · rcases List.mem_append.mp hx with hx | hx
    · obtain ⟨e, he, rfl⟩ := List.mem_map.mp hx
      exact Or.inr (Or.inl ⟨e, (List.mem_filter.mp he).2, rfl⟩)
    · exact Or.inr (Or.inr hx)

theorem delete (hl : TimerLog l n h) (k : DeleteKey) :
    TimerLog (l.filter fun e => !k.matches e) n
      (.deleteReturned k :: ((l.filter k.matches).map (.deleted k) ++ h)) := by
  have hadd := addedOf_deleted k (l.filter k.matches) h
  have htaken := takenOf_deleted k (l.filter k.matches) h
  have hdel := deletedOf_deleted k (l.filter k.matches) h
  refine ⟨hl.sorted.filter _, ?_, ?_, ?_, ?_, ?_, ?_, ?_, ?_⟩
  · exact (congrArg (fun a => (a.map (·.seqno)).Nodup) hadd).mpr hl.seqnos
  · intro e he
    exact hl.fresh e (hadd ▸ he)
  · have hperm : (l.filter fun e => !k.matches e) ++ l.filter k.matches ~ l :=
      List.perm_append_comm.trans (List.filter_append_perm _ l)
    change (addedOf (_ ++ h)).Perm (_ ++ (takenOf (_ ++ h) ++ deletedOf (_ ++ h)))
    rw [hadd, htaken, hdel]
    calc addedOf h
        _ ~ l ++ (takenOf h ++ deletedOf h) := hl.accounted
        _ ~ (l.filter fun e => !k.matches e) ++ l.filter k.matches ++
              (takenOf h ++ deletedOf h) := hperm.symm.append_right _
        _ ~ (l.filter fun e => !k.matches e) ++
              (takenOf h ++ (l.filter k.matches ++ deletedOf h)) := by
            rw [List.append_assoc]
            apply List.Perm.append_left
            rw [← List.append_assoc, ← List.append_assoc]
            exact List.perm_append_comm.append_right _
  · intro e list he
    rcases mem_deletion he with he | ⟨_, _, he⟩ | he
    · cases he
    · cases he
    · exact hl.inOrder e list he
  · intro e list he
    rcases mem_deletion he with he | ⟨_, _, he⟩ | he
    · cases he
    · cases he
    · exact hl.waits e list he
  · intro k' e he
    rcases mem_deletion he with he | ⟨e', hk, he⟩ | he
    · cases he
    · obtain ⟨rfl, rfl⟩ := TimerEntry.deleted.inj he
      exact hk
    · exact hl.matched k' e he
  · intro e now he
    rcases mem_deletion he with he | ⟨_, _, he⟩ | he
    · cases he
    · cases he
    · exact hl.notEarly e now he
  · apply (hl.calls.deleted k _).returned
    intro e he htk hk
    rw [hadd] at he
    rw [htaken] at htk
    rw [hdel]
    rcases List.mem_append.mp (hl.accounted.mem_iff.mp he) with hmem | hmem
    · exact List.mem_append_left _ (List.mem_filter.mpr ⟨hmem, hk⟩)
    · exact List.mem_append_right _ ((List.mem_append.mp hmem).resolve_left htk)

end TimerLog

/-! ## The invariant -/

def TimerPhase.inHand : TimerPhase → List TimedEvent
  | .deliver te => [te]
  | _ => []

/-- What holds between any two sections. While the thread waits and nothing was deleted,
its event is in the list, and either `next` tells of an earlier one or there is none. -/
structure TimerInv (s : TimerState) : Prop where
  log : TimerLog s.list s.seqNo s.history
  delivered : (s.phase.inHand ++ deliveredOf s.history).Sublist (takenOf s.history)
  last_le : s.last ≤ s.clock
  due : ∀ te ∈ s.phase.inHand, te.when ≤ s.clock
  waiting : ∀ te, s.phase = .waitNext te → s.deleted = false →
    te ∈ s.list ∧ s.next ≤ te.when ∧ (s.next < te.when ∨ ∀ x ∈ s.list, te.when ≤ x.when)

namespace TimerInv

variable {s : TimerState} {te : TimedEvent}

theorem init (now : ℕ) : TimerInv (.init now) where
  log := .init
  delivered := .slnil
  last_le := Nat.zero_le now
  due := nofun
  waiting := nofun

theorem deliveredOf_sublist (hs : TimerInv s) :
    (deliveredOf s.history).Sublist (takenOf s.history) :=
  (List.sublist_append_right _ _).trans hs.delivered

variable {s' : TimerState}

/-- A thread that has nothing in hand may be anywhere but in a wait for an event. -/
theorem idle (hs : TimerInv s) (hlist : s'.list = s.list)
    (hseq : s'.seqNo = s.seqNo) (hhist : s'.history = s.history) (hlast : s'.last ≤ s'.clock)
    (hhand : s'.phase.inHand = []) (hphase : ∀ te, s'.phase ≠ .waitNext te) : TimerInv s' where
  log := by
    rw [hlist, hseq, hhist]
    exact hs.log
  delivered := by
    rw [hhand, hhist]
    exact hs.deliveredOf_sublist
  last_le := hlast
  due := by
    rw [hhand]
    exact nofun
  waiting := fun te hte => absurd hte (hphase te)

variable {now : ℕ}

variable (hs : TimerInv s)
include hs

theorem tick (hnow : s.clock ≤ now) :
    TimerInv { s with clock := now } where
  log := hs.log
  delivered := hs.delivered
  last_le := hs.last_le.trans hnow
  due := fun te hte => (hs.due te hte).trans hnow
  waiting := hs.waiting

theorem register (aType : ℕ) :
    TimerInv { s with handlers := s.handlers ++ [aType] } where
  log := hs.log
  delivered := hs.delivered
  last_le := hs.last_le
  due := hs.due
  waiting := hs.waiting

theorem teDelete (k : DeleteKey) : TimerInv (teDelete s k) where
  log := hs.log.delete k
  delivered := by
    have htaken := takenOf_deleted k (s.list.filter k.matches) s.history
    have hdel := deliveredOf_deleted k (s.list.filter k.matches) s.history
    change (s.phase.inHand ++ deliveredOf (_ ++ s.history)).Sublist (takenOf (_ ++ s.history))
    rw [htaken, hdel]
    exact hs.delivered
  last_le := hs.last_le
  due := hs.due
  waiting := by
    intro te hte hdel
    obtain ⟨hdel, hgone⟩ := Bool.or_eq_false_iff.mp hdel
    have hnone : s.list.filter k.matches = [] := by
      simpa using hgone
    have hkeep : s.list.filter (fun e => !k.matches e) = s.list := by
      rw [List.filter_eq_self]
      intro e he
      have := List.filter_eq_nil_iff.mp hnone e he
      simpa using this
    change te ∈ s.list.filter _ ∧ s.next ≤ te.when ∧
      (s.next < te.when ∨ ∀ x ∈ s.list.filter _, te.when ≤ x.when)
    rw [hkeep]
    exact hs.waiting te hte hdel

/-- A new event is noticed: it makes `next` earlier, or is due no earlier than the event the
thread waits for. -/
theorem teAddEvent {anEvent : TimedEvent}
    (hok : ∀ te, s.phase = .waitNext te → s.deleted = false → s.next = 0 →
      dueTime anEvent now < te.when) : TimerInv (teAddEvent s anEvent now) where
  log := hs.log.add rfl
  delivered := hs.delivered
  last_le := hs.last_le
  due := hs.due
  waiting := by
    intro te hte hdel
    obtain ⟨hmem, hle, hnext⟩ := hs.waiting te hte hdel
    have hmem' : te ∈ (Qmaster.teAddEvent s anEvent now).list :=
      (List.mem_orderedInsert DueLe).mpr (Or.inr hmem)
    refine ⟨hmem', ?_⟩
    change (if s.next = 0 ∨ dueTime anEvent now < s.next then _ else _) ≤ te.when ∧
      ((if s.next = 0 ∨ dueTime anEvent now < s.next then _ else _) < te.when ∨ _)
    by_cases hzero : s.next = 0
    · have hlt := hok te hte hdel hzero
      rw [if_pos (Or.inl hzero)]
      exact ⟨hlt.le, Or.inl hlt⟩
    · by_cases hearly : dueTime anEvent now < s.next
      · rw [if_pos (Or.inr hearly)]
        exact ⟨hearly.le.trans hle, Or.inl (hearly.trans_le hle)⟩
      · rw [if_neg (not_or.mpr ⟨hzero, hearly⟩)]
        refine ⟨hle, ?_⟩
        by_cases hbefore : s.next < te.when
        · exact Or.inl hbefore
        · -- the event comes in behind the one the thread waits for
          apply Or.inr
          intro x hx
          rcases (List.mem_orderedInsert DueLe).mp hx with rfl | hx
          · exact (not_lt.mp hbefore).trans (not_lt.mp hearly)
          · exact hnext.resolve_left hbefore x hx

theorem takeOut (hmem : te ∈ s.list) (hmin : ∀ x ∈ s.list, te.when ≤ x.when)
    (hdue : te.when ≤ s.clock) : TimerInv (takeOut s te) where
  log := hs.log.take hmem hmin
  delivered := hs.deliveredOf_sublist.cons_cons te
  last_le := hs.last_le
  due := by
    intro x hx
    rw [List.mem_singleton.mp hx]
    exact hdue
  waiting := nofun

theorem lookAtFirst (hnow : s.clock ≤ now) (hne : s.list ≠ []) : TimerInv (lookAtFirst s now) := by
  unfold Qmaster.lookAtFirst
  match hl : s.list with
  | [] => exact absurd hl hne
  | te :: rest =>
    have hmem : te ∈ s.list := hl ▸ (.head _)
    have hmin : ∀ x ∈ s.list, te.when ≤ x.when := by
      have hsorted := hs.log.sorted
      rw [hl] at hsorted ⊢
      intro x hx
      rcases List.mem_cons.mp hx with rfl | hx
      · exact le_rfl
      · exact List.rel_of_pairwise_cons hsorted hx
    dsimp only
    by_cases hlt : now < te.when
    · rw [if_pos hlt, ← hl]
      exact
        { log := hs.log.wait hmin
          delivered := hs.deliveredOf_sublist
          last_le := hs.last_le.trans hnow
          due := nofun
          waiting := by
            intro x hx _
            obtain rfl : te = x := TimerPhase.waitNext.inj hx
            exact ⟨hmem, le_rfl, Or.inr hmin⟩ }
    · rw [if_neg hlt, ← hl]
      have hs' : TimerInv { s with clock := now, next := now, phase := .top } :=
        hs.idle rfl rfl rfl (hs.last_le.trans hnow) rfl nofun
      exact hs'.takeOut hmem hmin (not_lt.mp hlt)

theorem teWaitEmpty (hnow : s.clock ≤ now) : TimerInv (teWaitEmpty s now) := by
  unfold Qmaster.teWaitEmpty
  by_cases hl : s.list = []
  · rw [if_pos hl]
    exact hs.idle rfl rfl rfl hs.last_le rfl nofun
  · rw [if_neg hl]
    exact hs.lookAtFirst hnow hl

theorem teCheckTime_eq (hnow : s.clock ≤ now) : teCheckTime s now = s := by
  unfold teCheckTime
  exact if_neg (not_lt.mpr (hs.last_le.trans hnow))

theorem startLoop (htop : s.phase = .top) {now₁ now₂ now₃ : ℕ}
    (h₁ : s.clock ≤ now₁) (h₃ : now₂ ≤ now₃) : TimerInv (startLoop s now₁ now₂ now₃) := by
  unfold Qmaster.startLoop
  rw [hs.teCheckTime_eq h₁]
  have hs' : TimerInv { s with clock := now₂, last := now₂ } := by
    refine hs.idle rfl rfl rfl le_rfl ?_ ?_
    · simp only [htop, TimerPhase.inHand]
    · simp [htop]
  exact hs'.teWaitEmpty h₃

theorem afterWait (hphase : s.phase = .waitNext te)
    (hdue : s.next = te.when → te.when ≤ s.clock) : TimerInv (afterWait s te) := by
  unfold Qmaster.afterWait
  by_cases hover : s.next < te.when ∨ s.deleted = true
  · rw [if_pos hover]
    exact hs.idle rfl rfl rfl hs.last_le rfl nofun
  · rw [if_neg hover]
    obtain ⟨hnext, hdel⟩ := not_or.mp hover
    obtain ⟨hmem, hle, hmin⟩ := hs.waiting te hphase (Bool.eq_false_iff.mpr hdel)
    exact hs.takeOut hmem (hmin.resolve_left hnext) (hdue (le_antisymm hle (not_lt.mp hnext)))

theorem wakeNext (hphase : s.phase = .waitNext te)
    (hnow : s.clock ≤ now) : TimerInv (wakeNext s te now) := by
  unfold Qmaster.wakeNext
  by_cases hstay : s.next = te.when ∧ now < te.when
  · rw [if_pos hstay]
    exact hs.tick hnow
  · rw [if_neg hstay]
    apply (hs.tick hnow).afterWait hphase
    intro heq
    exact not_lt.mp fun hlt => hstay ⟨heq, hlt⟩

theorem scanTableAndDeliver (hphase : s.phase = .deliver te) :
    TimerInv (scanTableAndDeliver s te) := by
  have hsub : (te :: deliveredOf s.history).Sublist (takenOf s.history) := by
    simpa only [hphase, TimerPhase.inHand, List.singleton_append] using hs.delivered
  have hdue : te.when ≤ s.clock := hs.due te (by simp [hphase, TimerPhase.inHand])
  have hhand : (if te.mode = .recurring then TimerPhase.readd te else .top).inHand = [] := by
    split_ifs <;> rfl
  have hnowait : ∀ x, (if te.mode = .recurring then TimerPhase.readd te else .top) ≠
      .waitNext x := by
    intro x
    split_ifs <;> exact nofun
  by_cases hreg : te.type ∈ s.handlers
  · refine ⟨?_, ?_, hs.last_le, ?_, fun x hx => absurd hx (hnowait x)⟩
    · simp only [Qmaster.scanTableAndDeliver, if_pos hreg]
      exact hs.log.deliver hdue
    · simp only [Qmaster.scanTableAndDeliver, if_pos hreg, hhand]
      exact hsub
    · simp only [Qmaster.scanTableAndDeliver, hhand]
      exact nofun
  · exact hs.idle rfl rfl (if_neg hreg) hs.last_le hhand hnowait

theorem step {a : TimerAct} (hok : overlooks s a = false)
    (h : timerStep s a = some s') : TimerInv s' := by
  cases a with
  | tick now =>
    obtain ⟨hnow, rfl⟩ := Option.ite_none_right_eq_some.mp h |>.imp_right Option.some.inj
    exact hs.tick hnow
  | register aType =>
    cases h
    exact hs.register aType
  | add anEvent now =>
    obtain ⟨hnow, rfl⟩ := Option.ite_none_right_eq_some.mp h |>.imp_right Option.some.inj
    apply hs.teAddEvent
    intro te hte hdel hzero
    simpa [overlooks, hte, hdel, hzero] using hok
  | delete k =>
    cases h
    exact hs.teDelete k
  | start now₁ now₂ now₃ =>
    obtain ⟨⟨htop, h₁, -, h₃⟩, rfl⟩ :=
      Option.ite_none_right_eq_some.mp h |>.imp_right Option.some.inj
    exact hs.startLoop htop h₁ h₃
  | wakeEmpty now =>
    obtain ⟨⟨-, hnow⟩, rfl⟩ :=
      Option.ite_none_right_eq_some.mp h |>.imp_right Option.some.inj
    exact hs.teWaitEmpty hnow
  | wakeNext now =>
    simp only [timerStep] at h
    split at h
    case h_1 te hphase =>
      obtain ⟨hnow, rfl⟩ := Option.ite_none_right_eq_some.mp h |>.imp_right Option.some.inj
      exact hs.wakeNext hphase hnow
    case h_2 => cases h
  | timedOut =>
    simp only [timerStep] at h
    split at h
    case h_1 te hphase =>
      obtain ⟨hdue, rfl⟩ := Option.ite_none_right_eq_some.mp h |>.imp_right Option.some.inj
      exact hs.afterWait hphase fun _ => hdue
    case h_2 => cases h
  | deliver =>
    simp only [timerStep] at h
    split at h
    case h_1 te hphase =>
      cases h
      exact hs.scanTableAndDeliver hphase
    case h_2 => cases h
  | readd now =>
    simp only [timerStep] at h
    split at h
    case h_1 te hphase =>
      obtain ⟨-, rfl⟩ := Option.ite_none_right_eq_some.mp h |>.imp_right Option.some.inj
      have hadd : TimerInv (Qmaster.teAddEvent s te now) := by
        apply hs.teAddEvent
        intro x hx
        exact absurd (hphase.symm.trans hx) nofun
      exact hadd.idle rfl rfl rfl hadd.last_le rfl nofun
    case h_2 => cases h

omit hs

theorem of_reachable (h : TimerReachable (fun s a => !overlooks s a) s) : TimerInv s := by
  induction h with
  | init now => exact init now
  | step a _ hok hstep ih => exact ih.step (Bool.not_eq_true' _ |>.mp hok) hstep

theorem nodup (hs : TimerInv s) : (s.list ++ (takenOf s.history ++ deletedOf s.history)).Nodup :=
  hs.log.accounted.nodup_iff.mp (List.Nodup.of_map _ hs.log.seqnos)

theorem safe (hs : TimerInv s) : TimerSafe s where
  once := by
    have hsub : (deliveredOf s.history).Sublist
        (s.list ++ (takenOf s.history ++ deletedOf s.history)) :=
      hs.deliveredOf_sublist.trans
        ((List.sublist_append_left _ _).trans (List.sublist_append_right _ _))
    have hseq := (hs.log.accounted.map (·.seqno)).nodup_iff.mp hs.log.seqnos
    exact hseq.sublist (hsub.map _)
  notEarly := hs.log.notEarly
  inOrder := hs.log.inOrder
  notDeleted := by
    intro h₁ h₂ k e heq hadd htaken hk hdel
    have hgone := hs.log.calls h₁ h₂ k e heq hadd htaken hk
    have hdisj := (List.nodup_append.mp (List.nodup_append.mp hs.nodup).2.1).2.2
    exact hdisj e (hs.deliveredOf_sublist.subset hdel) e hgone rfl
  accounted := hs.log.accounted
  deletedOnCall := hs.log.matched
  waits := hs.log.waits

end TimerInv

/-! ## Main result -/

/-- As long as `next` is not taken for the sign of an empty list while the thread waits for
an event, timed events are delivered once, in order, never early and never after they were
deleted. -/
theorem timer_safe {s : TimerState} (h : TimerReachable (fun s a => !overlooks s a) s) :
    TimerSafe s :=
  (TimerInv.of_reachable h).safe

def resendEvent (aTime job : ℕ) : TimedEvent :=
  teNewEvent aTime 1 .oneTime job 0 (some "job-resend_event")

/-- While the thread waits for an event, an earlier one and a later one are added. It starts
over, delivers the earlier one, and then the first after a wait. -/
def timerOrderedRun : List TimerAct :=
  [.register 1, .add (resendEvent 100 1) 10, .start 11 12 13, .add (resendEvent 50 2) 13,
    .add (resendEvent 200 3) 13, .wakeNext 14, .start 14 14 14, .tick 50, .timedOut, .deliver,
    .start 51 51 51, .delete ⟨1, 3, 0, none, false⟩, .wakeNext 52, .tick 100, .timedOut,
    .start 100 100 100, .deliver]

theorem timer_safe_ordered :
    ∃ s, timerRun (fun s a => !overlooks s a) (.init 10) timerOrderedRun = some s ∧
      TimerSafe s := by
  obtain ⟨s, hs⟩ := Option.isSome_iff_exists.mp
    (show (timerRun (fun s a => !overlooks s a) (.init 10) timerOrderedRun).isSome by
      decide +kernel)
  exact ⟨s, hs, timer_safe (TimerReachable.run (.init 10) hs)⟩

/-- The same with an event that was due at time zero. The thread takes `next` for that of an
empty list, and no longer for that of an earlier event. -/
def timerOverlookingRun : List TimerAct :=
  [.register 1, .add (resendEvent 100 1) 10, .start 11 12 13, .add (resendEvent 0 2) 13,
    .add (resendEvent 200 3) 13, .wakeNext 14, .deliver]

/-- An event is delivered early, and before another one that is due. -/
theorem timer_overlooks : ¬∀ s, TimerReachable (fun _ _ => true) s → TimerSafe s := by
  intro h
  have hrun : timerRun (fun _ _ => true) (.init 10) timerOverlookingRun = some
      ((timerRun (fun _ _ => true) (.init 10) timerOverlookingRun).getD (.init 10)) := by
    decide +kernel
  have hearly := (h _ (TimerReachable.run (.init 10) hrun)).notEarly
    { resendEvent 100 1 with seqno := 0 } 14 (by decide +kernel)
  exact absurd hearly (by decide)

end ClusterScheduler.Qmaster
