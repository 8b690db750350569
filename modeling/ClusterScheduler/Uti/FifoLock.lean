import ClusterScheduler.Foundation.Ring

/-!
# The FIFO read/write lock

A lock that any number of readers or one writer may hold. Threads that have to wait queue
in a ring of slots and get the lock in the order in which they came; threads that find the
ring full wait outside.

* `FifoRwLock` — the structure behind the mutex.
* `FifoState`, `FifoAct`, `fifoStep` — the threads, and the sections they go through with
  the mutex: a call, and what follows when a thread wakes up.
* `FifoInv` — what holds between any two sections.
* `fifo_safe` — a writer is alone, slots are not shared, the queue is a queue, and nobody
  in it is forgotten.

A waiting thread may wake up at any time, whether it was signaled or not. The counters have 32
bits in the source: they count threads, of which there are fewer than `2 ^ 31`.
-/

namespace ClusterScheduler.Uti

open Foundation

/-! ## The lock -/

def fifoLockQueueLength : ℕ := 512

/-- A slot of the queue. -/
structure FifoElem where
  isReader : Bool
  isSignaled : Bool
  deriving DecidableEq

structure FifoRwLock where
  array : ℕ → FifoElem
  head : ℕ
  tail : ℕ
  readerActive : ℤ
  readerWaiting : ℤ
  writerActive : ℤ
  writerWaiting : ℤ
  waiting : ℤ
  signaled : ℤ

namespace FifoRwLock

def init : FifoRwLock where
  array := fun _ => ⟨false, false⟩
  head := 0
  tail := 0
  readerActive := 0
  readerWaiting := 0
  writerActive := 0
  writerWaiting := 0
  waiting := 0
  signaled := 0

variable (lock : FifoRwLock) (isReader : Bool)

def addActive (n : ℤ) : FifoRwLock :=
  { lock with
    readerActive := lock.readerActive + if isReader then n else 0
    writerActive := lock.writerActive + if isReader then 0 else n }

def addWaiting (n : ℤ) : FifoRwLock :=
  { lock with
    readerWaiting := lock.readerWaiting + if isReader then n else 0
    writerWaiting := lock.writerWaiting + if isReader then 0 else n }

def isFull : Bool := decide (lock.readerWaiting + lock.writerWaiting = fifoLockQueueLength)

/-- Has a thread that asks for the lock to queue? Readers queue behind a writer, writers
behind anybody, and both behind a thread that was signaled. -/
def doWaitInQueue : Bool :=
  if isReader then decide (0 < lock.writerActive + lock.writerWaiting + lock.signaled)
  else decide (0 < lock.writerActive + lock.readerActive + lock.signaled)

/-- Take the slot at the tail. -/
def enqueue : FifoRwLock :=
  { lock.addWaiting isReader 1 with
    array := Function.update lock.array lock.tail ⟨isReader, false⟩
    tail := ringNext fifoLockQueueLength lock.tail }

/-- Signal the thread in the slot at the head. -/
def signalHead : FifoRwLock :=
  { lock with
    array := Function.update lock.array lock.head { lock.array lock.head with isSignaled := true }
    signaled := lock.signaled + 1 }

/-- Is there a reader behind the reader that leaves the slot `index`? -/
def chains (index : ℕ) : Bool :=
  (lock.array index).isReader && decide (0 < lock.readerWaiting) &&
    (lock.array lock.head).isReader

/-- The signaled thread leaves the queue. A reader wakes up the reader behind it. -/
def leaveQueue : FifoRwLock :=
  let index := lock.head
  let lock := { lock with
    signaled := lock.signaled - 1
    head := ringNext fifoLockQueueLength lock.head }
  let lock := if lock.chains index then lock.signalHead else lock
  { lock with array := Function.update lock.array index ⟨false, false⟩ }

/-- `sge_fifo_ulock()`: the last thread that holds the lock signals the first that waits. -/
def release : FifoRwLock :=
  let lock := lock.addActive isReader (-1)
  if lock.readerActive + lock.writerActive + lock.signaled = 0 ∧
      0 < lock.readerWaiting + lock.writerWaiting then
    lock.signalHead
  else lock

end FifoRwLock

/-! ## Threads -/

/-- Where a thread is: not in a call, waiting outside, or waiting in a slot. -/
inductive ThreadState where
  | running
  | outside (isReader : Bool)
  | queued (isReader : Bool) (index : ℕ)
  deriving DecidableEq

def ThreadState.slot : ThreadState → Bool → Option ℕ
  | .queued r index, isReader => if r = isReader then some index else none
  | _, _ => none

/-- The lock and the threads. `holders` are the locks held. `queued` and `granted` are all
requests that ever entered and left the queue, in this order. -/
structure FifoState (ι : Type*) where
  lock : FifoRwLock
  thread : ι → ThreadState
  holders : List (ι × Bool)
  queued : List (ι × Bool)
  granted : List (ι × Bool)

inductive FifoAct (ι : Type*) where
  | lock (t : ι) (isReader : Bool)
  | wakeOutside (t : ι)
  | wakeQueued (t : ι)
  | unlock (t : ι) (isReader : Bool)

variable {ι : Type*}

def FifoState.init : FifoState ι where
  lock := .init
  thread := fun _ => .running
  holders := []
  queued := []
  granted := []

def slotOf (thread : ι → ThreadState) : ι × Bool → Option ℕ :=
  fun p => (thread p.1).slot p.2

section Steps

variable [DecidableEq ι]

/-- The thread gets the lock. -/
def grant (s : FifoState ι) (t : ι) (isReader : Bool) : FifoState ι :=
  { s with
    lock := s.lock.addActive isReader 1
    thread := Function.update s.thread t .running
    holders := (t, isReader) :: s.holders }

def waitOutside (s : FifoState ι) (t : ι) (isReader : Bool) : FifoState ι :=
  { s with
    lock := { s.lock with waiting := s.lock.waiting + 1 }
    thread := Function.update s.thread t (.outside isReader) }

def waitInQueue (s : FifoState ι) (t : ι) (isReader : Bool) : FifoState ι :=
  { s with
    lock := s.lock.enqueue isReader
    thread := Function.update s.thread t (.queued isReader s.lock.tail)
    queued := s.queued ++ [(t, isReader)] }

/-- `sge_fifo_lock()` from the question whether the queue is full on. -/
def enter (s : FifoState ι) (t : ι) (isReader : Bool) : FifoState ι :=
  if s.lock.isFull then waitOutside s t isReader
  else if s.lock.doWaitInQueue isReader then waitInQueue s t isReader
  else grant s t isReader

def reenter (s : FifoState ι) (t : ι) (isReader : Bool) : FifoState ι :=
  enter { s with lock := { s.lock with waiting := s.lock.waiting - 1 } } t isReader

/-- A thread that waits in a slot wakes up: it waits again or gets the lock. -/
def wake (s : FifoState ι) (t : ι) (isReader : Bool) (index : ℕ) : FifoState ι :=
  let lock := s.lock.addWaiting isReader (-1)
  if (lock.array index).isSignaled then
    grant { s with lock := lock.leaveQueue, granted := s.granted ++ [(t, isReader)] } t isReader
  else { s with lock := lock.addWaiting isReader 1 }

def ulock (s : FifoState ι) (t : ι) (isReader : Bool) : FifoState ι :=
  { s with
    lock := s.lock.release isReader
    holders := s.holders.erase (t, isReader) }

/-- One section. Threads unlock what they hold. -/
def fifoStep (s : FifoState ι) : FifoAct ι → Option (FifoState ι)
  | .lock t isReader =>
    match s.thread t with
    | .running => some (enter s t isReader)
    | _ => none
  | .wakeOutside t =>
    match s.thread t with
    | .outside isReader => some (reenter s t isReader)
    | _ => none
  | .wakeQueued t =>
    match s.thread t with
    | .queued isReader index => some (wake s t isReader index)
    | _ => none
  | .unlock t isReader =>
    match s.thread t with
    | .running => if (t, isReader) ∈ s.holders then some (ulock s t isReader) else none
    | _ => none

/-- The states that any threads reach in any order of sections. -/
inductive FifoReachable : FifoState ι → Prop
  | init : FifoReachable .init
  | step {s s' : FifoState ι} (a : FifoAct ι) :
      FifoReachable s → fifoStep s a = some s' → FifoReachable s'

end Steps

/-! ## What sections do to the lock -/

namespace FifoRwLock

variable {lock : FifoRwLock}

/-- The lock after the first thread has left, apart from its slots. -/
theorem leaveQueue_fields (lock : FifoRwLock) :
    lock.leaveQueue.head = ringNext fifoLockQueueLength lock.head ∧
      lock.leaveQueue.tail = lock.tail ∧
      lock.leaveQueue.readerActive = lock.readerActive ∧
      lock.leaveQueue.writerActive = lock.writerActive ∧
      lock.leaveQueue.readerWaiting = lock.readerWaiting ∧
      lock.leaveQueue.writerWaiting = lock.writerWaiting := by
  unfold leaveQueue
  dsimp only
  split_ifs <;> exact ⟨rfl, rfl, rfl, rfl, rfl, rfl⟩

def leaveChains (lock : FifoRwLock) : Bool :=
  (lock.array lock.head).isReader && decide (0 < lock.readerWaiting) &&
    (lock.array (ringNext fifoLockQueueLength lock.head)).isReader

theorem leaveQueue_signaled (lock : FifoRwLock) :
    lock.leaveQueue.signaled = lock.signaled - 1 + if lock.leaveChains then 1 else 0 := by
  unfold leaveQueue
  dsimp only
  rw [show FifoRwLock.chains _ lock.head = lock.leaveChains from rfl]
  cases lock.leaveChains
  · simp
  · rfl

theorem leaveQueue_isReader (lock : FifoRwLock) {k : ℕ} (hk : k ≠ lock.head) :
    (lock.leaveQueue.array k).isReader = (lock.array k).isReader := by
  unfold leaveQueue
  dsimp only
  rw [Function.update_of_ne hk]
  split_ifs
  · unfold signalHead
    dsimp only
    by_cases h : k = ringNext fifoLockQueueLength lock.head
    · rw [h, Function.update_self]
    · rw [Function.update_of_ne h]
  · rfl

/-- The slot that is left is not signaled, and of the others only the new head may be. -/
theorem leaveQueue_isSignaled (lock : FifoRwLock) (k : ℕ) :
    (lock.leaveQueue.array k).isSignaled = true ↔ k ≠ lock.head ∧
      ((lock.array k).isSignaled = true ∨
        lock.leaveChains = true ∧ k = ringNext fifoLockQueueLength lock.head) := by
  unfold leaveQueue
  dsimp only
  rw [show FifoRwLock.chains _ lock.head = lock.leaveChains from rfl]
  by_cases hk : k = lock.head
  · simp [hk]
  · rw [Function.update_of_ne hk]
    cases lock.leaveChains with
    | false => simp [hk]
    | true =>
      rw [if_pos rfl]
      unfold signalHead
      dsimp only
      by_cases h : k = ringNext fifoLockQueueLength lock.head
      · rw [h, Function.update_self]
        simpa [h] using hk
      · rw [Function.update_of_ne h]
        simp [hk, h]

theorem signalHead_isReader (lock : FifoRwLock) (k : ℕ) :
    (lock.signalHead.array k).isReader = (lock.array k).isReader := by
  unfold signalHead
  dsimp only
  by_cases h : k = lock.head
  · rw [h, Function.update_self]
  · rw [Function.update_of_ne h]

theorem signalHead_isSignaled (lock : FifoRwLock) (k : ℕ) :
    (lock.signalHead.array k).isSignaled = true ↔
      (lock.array k).isSignaled = true ∨ k = lock.head := by
  unfold signalHead
  dsimp only
  by_cases h : k = lock.head
  · simp [h]
  · rw [Function.update_of_ne h]
    simp [h]

/-- Waking up without a signal and waiting again changes nothing. -/
theorem addWaiting_back (lock : FifoRwLock) (isReader : Bool) :
    (lock.addWaiting isReader (-1)).addWaiting isReader 1 = lock := by
  cases isReader <;> simp [addWaiting]

end FifoRwLock

/-! ## Slots of threads -/

section Slots

variable {thread : ι → ThreadState}

variable {k : ℕ}

variable {st : ThreadState} {r : Bool}

theorem ThreadState.slot_eq_some : st.slot r = some k ↔ st = .queued r k := by
  cases st with
  | running => simp [ThreadState.slot]
  | outside r' => simp [ThreadState.slot]
  | queued r' k' =>
    simp only [ThreadState.slot, ThreadState.queued.injEq]
    by_cases h : r' = r <;> simp [h]

theorem slotOf_eq_some {p : ι × Bool} :
    slotOf thread p = some k ↔ thread p.1 = .queued p.2 k := ThreadState.slot_eq_some

variable [DecidableEq ι] {t : ι}

theorem slotOf_update_free (h : ∀ r, (thread t).slot r = none)
    (h' : ∀ r, st.slot r = none) : slotOf (Function.update thread t st) = slotOf thread := by
  funext p
  unfold slotOf
  by_cases hp : p.1 = t
  · rw [hp, Function.update_self, h, h']
  · rw [Function.update_of_ne hp]

theorem slotOf_update_queued (h : ∀ r, (thread t).slot r = none) (r : Bool) (k : ℕ) :
    slotOf (Function.update thread t (.queued r k)) =
      Function.update (slotOf thread) (t, r) (some k) := by
  funext p
  obtain ⟨u, r'⟩ := p
  unfold slotOf
  by_cases hp : (u, r') = (t, r)
  · cases hp
    rw [Function.update_self, Function.update_self]
    exact if_pos rfl
  · rw [Function.update_of_ne hp]
    by_cases hu : u = t
    · subst hu
      dsimp only
      rw [Function.update_self, h]
      exact if_neg fun hr => hp (by rw [hr])
    · dsimp only
      rw [Function.update_of_ne hu]

theorem slotOf_update_leave (h : thread t = .queued r k) :
    slotOf (Function.update thread t .running) = Function.update (slotOf thread) (t, r) none := by
  funext p
  obtain ⟨u, r'⟩ := p
  unfold slotOf
  by_cases hp : (u, r') = (t, r)
  · cases hp
    rw [Function.update_self, Function.update_self]
    rfl
  · rw [Function.update_of_ne hp]
    by_cases hu : u = t
    · subst hu
      dsimp only
      rw [Function.update_self, h]
      exact (if_neg fun hr => hp (by rw [hr])).symm
    · dsimp only
      rw [Function.update_of_ne hu]

end Slots

/-! ## The invariant -/

structure FifoCore (s : FifoState ι) (q : List (ι × Bool)) : Prop where
  log : s.queued = s.granted ++ q
  ring : RingQueue fifoLockQueueLength s.lock.head s.lock.tail q (slotOf s.thread)
  kind : ∀ p k, slotOf s.thread p = some k → (s.lock.array k).isReader = p.2
  readerWaiting : s.lock.readerWaiting = q.countP (·.2)
  writerWaiting : s.lock.writerWaiting = q.countP (!·.2)
  readerActive : s.lock.readerActive = s.holders.countP (·.2)
  writerActive : s.lock.writerActive = s.holders.countP (!·.2)
  signals : ∀ k, (s.lock.array k).isSignaled = true ↔
    s.lock.signaled = 1 ∧ k = s.lock.head
  signaled : s.lock.signaled = 0 ∨ s.lock.signaled = 1 ∧ q ≠ []
  alone : s.lock.writerActive = 0 ∨ s.lock.writerActive = 1 ∧ s.lock.readerActive = 0
  next : s.lock.signaled = 1 → s.lock.writerActive = 0 ∧
    ((s.lock.array s.lock.head).isReader = false → s.lock.readerActive = 0)

/-- Between two sections a queue is never left alone. -/
structure FifoInv (s : FifoState ι) (q : List (ι × Bool)) : Prop extends FifoCore s q where
  alive : q ≠ [] → 0 < s.lock.readerActive + s.lock.writerActive + s.lock.signaled

namespace FifoCore

variable {s : FifoState ι} {q : List (ι × Bool)}

theorem waiting_eq (h : FifoCore s q) : s.lock.readerWaiting + s.lock.writerWaiting = q.length := by
  rw [h.readerWaiting, h.writerWaiting, List.length_eq_countP_add_countP (p := fun p => p.2)]
  push_cast
  congr 2
  exact List.countP_congr fun p _ => by simp

theorem nonneg (h : FifoCore s q) : 0 ≤ s.lock.readerActive ∧ 0 ≤ s.lock.writerActive ∧
    0 ≤ s.lock.readerWaiting ∧ 0 ≤ s.lock.writerWaiting ∧ 0 ≤ s.lock.signaled := by
  have h1 := h.readerActive
  have h2 := h.writerActive
  have h3 := h.readerWaiting
  have h4 := h.writerWaiting
  have h5 := h.signaled
  omega

theorem head_isReader {p : ι × Bool} {rest : List (ι × Bool)} (h : FifoCore s (p :: rest)) :
    (s.lock.array s.lock.head).isReader = p.2 :=
  h.kind p s.lock.head h.ring.slot_first

end FifoCore

/-! ## Sections keep the invariant -/

section Sections

variable [DecidableEq ι] {s s' : FifoState ι} {q : List (ι × Bool)} {t : ι} {isReader : Bool}

omit [DecidableEq ι] in
theorem FifoInv.init : FifoInv (FifoState.init (ι := ι)) [] where
  log := rfl
  ring := {
    head_lt := show 0 < 512 by decide
    length_le := Nat.zero_le _
    tail_eq := rfl
    nodup := List.nodup_nil
    slots := by simp
    queued := by simp [slotOf, FifoState.init, ThreadState.slot] }
  kind := by simp [slotOf, FifoState.init, ThreadState.slot]
  readerWaiting := rfl
  writerWaiting := rfl
  readerActive := rfl
  writerActive := rfl
  signals := by simp [FifoState.init, FifoRwLock.init]
  signaled := Or.inl rfl
  alone := Or.inl rfl
  next := by simp [FifoState.init, FifoRwLock.init]
  alive := fun h => absurd rfl h

theorem FifoCore.grant (h : FifoCore s q) (hfree : ∀ r, (s.thread t).slot r = none)
    (hwriter : s.lock.writerActive = 0)
    (hreader : isReader = false → s.lock.readerActive = 0 ∧ s.lock.signaled = 0)
    (hnext : s.lock.signaled = 1 → (s.lock.array s.lock.head).isReader = true) :
    FifoInv (Uti.grant s t isReader) q := by
  have hslot : slotOf (Uti.grant s t isReader).thread = slotOf s.thread :=
    slotOf_update_free hfree fun _ => rfl
  have hnonneg := h.nonneg
  exact {
    log := h.log
    ring := by rw [hslot]; exact h.ring
    kind := by rw [hslot]; exact h.kind
    readerWaiting := h.readerWaiting
    writerWaiting := h.writerWaiting
    readerActive := by
      show s.lock.readerActive + _ = _
      rw [h.readerActive]
      cases isReader <;> simp [Uti.grant]
    writerActive := by
      show s.lock.writerActive + _ = _
      rw [h.writerActive]
      cases isReader <;> simp [Uti.grant]
    signals := h.signals
    signaled := h.signaled
    alone := by
      show s.lock.writerActive + _ = 0 ∨ s.lock.writerActive + _ = 1 ∧ s.lock.readerActive + _ = 0
      rw [hwriter]
      cases isReader with
      | true => exact Or.inl rfl
      | false => exact Or.inr ⟨rfl, by rw [(hreader rfl).1]; rfl⟩
    next := by
      intro hs
      cases isReader with
      | true =>
        exact ⟨by show s.lock.writerActive + 0 = 0; omega,
          fun hhead => absurd ((hnext hs).symm.trans hhead) (by decide)⟩
      | false => exact absurd hs (by show s.lock.signaled ≠ 1; have := (hreader rfl).2; omega)
    alive := by
      intro _
      show 0 < s.lock.readerActive + _ + (s.lock.writerActive + _) + s.lock.signaled
      cases isReader <;> simp <;> omega }

/-- What a call does when the thread is not in the queue. -/
theorem FifoInv.enter (h : FifoInv s q) (hfree : ∀ r, (s.thread t).slot r = none) :
    ∃ q', FifoInv (Uti.enter s t isReader) q' := by
  have hnonneg := h.nonneg
  have hsignaled := h.signaled
  unfold Uti.enter
  split_ifs with hfull hwait
  · have hslot : slotOf (waitOutside s t isReader).thread = slotOf s.thread :=
      slotOf_update_free hfree fun _ => rfl
    exact ⟨q, { h with
      ring := by rw [hslot]; exact h.ring
      kind := by rw [hslot]; exact h.kind }⟩
  · refine ⟨q ++ [(t, isReader)], ?_⟩
    have hlt : q.length < fifoLockQueueLength := by
      have hle := h.ring.length_le
      have heq := h.waiting_eq
      have hne : s.lock.readerWaiting + s.lock.writerWaiting ≠ fifoLockQueueLength := by
        simpa [FifoRwLock.isFull] using hfull
      omega
    have hslot : slotOf (waitInQueue s t isReader).thread =
        Function.update (slotOf s.thread) (t, isReader) (some s.lock.tail) :=
      slotOf_update_queued hfree _ _
    -- the slot taken is nobody's
    have htail : ∀ p, slotOf s.thread p ≠ some s.lock.tail := h.ring.tail_free hlt
    have harray : (waitInQueue s t isReader).lock.array =
      Function.update s.lock.array s.lock.tail ⟨isReader, false⟩ := rfl
    have hhead : s.lock.signaled = 1 → s.lock.head ≠ s.lock.tail := by
      intro hs
      obtain hs' | ⟨-, hq⟩ := h.signaled
      · omega
      · exact (h.ring.tail_ne_head hlt hq).symm
    exact {
      log := by
        show s.queued ++ _ = s.granted ++ (q ++ _)
        rw [h.log, List.append_assoc]
      ring := by rw [hslot]; exact h.ring.push hlt (hfree isReader)
      kind := by
        intro p k hk
        rw [hslot] at hk
        rw [harray]
        by_cases hp : p = (t, isReader)
        · rw [hp, Function.update_self] at hk
          rw [← Option.some.inj hk, Function.update_self, hp]
        · rw [Function.update_of_ne hp] at hk
          have hne : k ≠ s.lock.tail := by
            rintro rfl
            exact htail p hk
          rw [Function.update_of_ne hne]
          exact h.kind p k hk
      readerWaiting := by
        show s.lock.readerWaiting + _ = _
        rw [h.readerWaiting, List.countP_append]
        cases isReader <;> simp
      writerWaiting := by
        show s.lock.writerWaiting + _ = _
        rw [h.writerWaiting, List.countP_append]
        cases isReader <;> simp
      readerActive := h.readerActive
      writerActive := h.writerActive
      signals := by
        intro k
        rw [harray]
        by_cases hk : k = s.lock.tail
        · rw [hk, Function.update_self]
          constructor
          · exact fun hf => absurd hf Bool.false_ne_true
          · exact fun hs => absurd hs.2.symm (hhead hs.1)
        · rw [Function.update_of_ne hk]
          exact h.signals k
      signaled := by
        rcases h.signaled with hs | ⟨hs, -⟩
        · exact Or.inl hs
        · exact Or.inr ⟨hs, by simp⟩
      alone := h.alone
      next := by
        intro hs
        rw [harray, show (waitInQueue s t isReader).lock.head = s.lock.head from rfl,
          Function.update_of_ne (hhead hs)]
        exact h.next hs
      alive := by
        intro _
        show 0 < s.lock.readerActive + s.lock.writerActive + s.lock.signaled
        cases isReader with
        | false =>
          have : 0 < s.lock.writerActive + s.lock.readerActive + s.lock.signaled := by
            simpa [FifoRwLock.doWaitInQueue] using hwait
          omega
        | true =>
          have hw : 0 < s.lock.writerActive + s.lock.writerWaiting + s.lock.signaled := by
            simpa [FifoRwLock.doWaitInQueue] using hwait
          by_cases hq : q = []
          · have hzero : s.lock.writerWaiting = 0 := by rw [h.writerWaiting, hq]; rfl
            omega
          · exact h.alive hq }
  · refine ⟨q, h.grant hfree ?_ ?_ ?_⟩
    · cases isReader <;> simp [FifoRwLock.doWaitInQueue] at hwait <;> omega
    · rintro rfl
      simp [FifoRwLock.doWaitInQueue] at hwait
      omega
    · intro hs
      cases isReader <;> simp [FifoRwLock.doWaitInQueue] at hwait <;> omega

variable {k : ℕ}

omit [DecidableEq ι] in
theorem FifoInv.first_of_signaled (h : FifoInv s q)
    (ht : s.thread t = .queued isReader k) (hk : (s.lock.array k).isSignaled = true) :
    s.lock.signaled = 1 ∧ k = s.lock.head ∧ ∃ rest, q = (t, isReader) :: rest := by
  obtain ⟨hs, rfl⟩ := (h.signals k).mp hk
  exact ⟨hs, rfl, h.ring.first_of_head (slotOf_eq_some.mpr ht)⟩

/-- The state in which the first thread has left the queue and has not got the lock yet. -/
def leave (s : FifoState ι) (t : ι) (isReader : Bool) : FifoState ι :=
  { s with
    lock := (s.lock.addWaiting isReader (-1)).leaveQueue
    thread := Function.update s.thread t .running
    granted := s.granted ++ [(t, isReader)] }

theorem grant_leave (s : FifoState ι) (t : ι) (isReader : Bool) :
    Uti.grant { s with
      lock := (s.lock.addWaiting isReader (-1)).leaveQueue
      granted := s.granted ++ [(t, isReader)] } t isReader =
    Uti.grant (leave s t isReader) t isReader := by
  unfold Uti.grant leave
  dsimp only
  rw [Function.update_idem]

section Leave

variable {rest : List (ι × Bool)} (h : FifoInv s ((t, isReader) :: rest))
  (ht : s.thread t = .queued isReader s.lock.head) (hs : s.lock.signaled = 1)

omit [DecidableEq ι] in
include h in
theorem FifoInv.rest_of_chains (hc : (s.lock.addWaiting isReader (-1)).leaveChains = true) :
    isReader = true ∧ rest ≠ [] ∧
      (s.lock.array (ringNext fifoLockQueueLength s.lock.head)).isReader = true := by
  have hhead : (s.lock.array s.lock.head).isReader = isReader := h.head_isReader
  have hcount := h.readerWaiting
  rw [FifoRwLock.leaveChains, Bool.and_eq_true, Bool.and_eq_true, decide_eq_true_eq] at hc
  obtain ⟨⟨h1, h2⟩, h3⟩ := hc
  have hr : isReader = true := hhead.symm.trans h1
  subst hr
  refine ⟨rfl, ?_, h3⟩
  rintro rfl
  change 0 < s.lock.readerWaiting + -1 at h2
  rw [hcount] at h2
  simp at h2

include hs in
omit h in
theorem leave_signaled : (leave s t isReader).lock.signaled =
    if (s.lock.addWaiting isReader (-1)).leaveChains then 1 else 0 := by
  show (s.lock.addWaiting isReader (-1)).leaveQueue.signaled = _
  rw [FifoRwLock.leaveQueue_signaled,
    show (s.lock.addWaiting isReader (-1)).signaled = s.lock.signaled from rfl, hs]
  ring

include hs in
omit h in
theorem chains_of_signaled (hs' : (leave s t isReader).lock.signaled = 1) :
    (s.lock.addWaiting isReader (-1)).leaveChains = true := by
  rw [leave_signaled hs] at hs'
  by_contra hc
  rw [if_neg hc] at hs'
  exact absurd hs' (by decide)

include h in
theorem FifoInv.leave_head_isReader (hc : (s.lock.addWaiting isReader (-1)).leaveChains = true) :
    ((leave s t isReader).lock.array (leave s t isReader).lock.head).isReader = true := by
  have hne := h.ring.head_ne_next (h.rest_of_chains hc).2.1
  show ((s.lock.addWaiting isReader (-1)).leaveQueue.array
    (s.lock.addWaiting isReader (-1)).leaveQueue.head).isReader = true
  rw [(FifoRwLock.leaveQueue_fields _).1]
  exact (FifoRwLock.leaveQueue_isReader (s.lock.addWaiting isReader (-1)) hne).trans
    (h.rest_of_chains hc).2.2

include h ht hs in
theorem FifoInv.leave : FifoCore (leave s t isReader) rest := by
  set lock' := s.lock.addWaiting isReader (-1) with hlock'
  obtain ⟨hhead, htail, hra, hwa, hrw, hww⟩ := lock'.leaveQueue_fields
  have hslot : slotOf (Uti.leave s t isReader).thread =
      Function.update (slotOf s.thread) (t, isReader) none := slotOf_update_leave ht
  have hpop := h.ring.pop
  have hsig : (Uti.leave s t isReader).lock.signaled = if lock'.leaveChains then 1 else 0 :=
    leave_signaled hs
  have hnext : lock'.leaveChains = true →
      ringNext fifoLockQueueLength s.lock.head ≠ s.lock.head := fun hc =>
    h.ring.head_ne_next (h.rest_of_chains hc).2.1
  exact {
    log := by
      show s.queued = (s.granted ++ [(t, isReader)]) ++ rest
      rw [h.log, List.append_assoc]
      rfl
    ring := by
      rw [hslot]
      show RingQueue _ lock'.leaveQueue.head lock'.leaveQueue.tail _ _
      rw [hhead, htail]
      exact hpop
    kind := by
      intro p k hk
      rw [hslot] at hk
      by_cases hp : p = (t, isReader)
      · rw [hp, Function.update_self] at hk
        exact absurd hk.symm (Option.some_ne_none _)
      · rw [Function.update_of_ne hp] at hk
        have hne : k ≠ lock'.head := by
          rintro rfl
          obtain ⟨rest', hrest'⟩ := h.ring.first_of_head hk
          exact hp (List.cons.inj hrest').1.symm
        show (lock'.leaveQueue.array k).isReader = p.2
        rw [lock'.leaveQueue_isReader hne]
        exact h.kind p k hk
    readerWaiting := by
      show lock'.leaveQueue.readerWaiting = _
      rw [hrw]
      show s.lock.readerWaiting + _ = _
      rw [h.readerWaiting, List.countP_cons]
      cases isReader <;> simp
    writerWaiting := by
      show lock'.leaveQueue.writerWaiting = _
      rw [hww]
      show s.lock.writerWaiting + _ = _
      rw [h.writerWaiting, List.countP_cons]
      cases isReader <;> simp
    readerActive := hra.trans h.readerActive
    writerActive := hwa.trans h.writerActive
    signals := by
      intro k
      rw [hsig]
      show (lock'.leaveQueue.array k).isSignaled = true ↔ _ ∧ k = lock'.leaveQueue.head
      rw [lock'.leaveQueue_isSignaled, hhead]
      show k ≠ s.lock.head ∧ ((s.lock.array k).isSignaled = true ∨ _) ↔ _
      rw [h.signals]
      cases hc : lock'.leaveChains with
      | false =>
        rw [if_neg Bool.false_ne_true]
        constructor
        · rintro ⟨hne, h' | h'⟩
          · exact absurd h'.2 hne
          · exact absurd h'.1 Bool.false_ne_true
        · exact fun h' => absurd h'.1 (by decide)
      | true =>
        rw [if_pos rfl]
        constructor
        · rintro ⟨hne, h' | h'⟩
          · exact absurd h'.2 hne
          · exact ⟨rfl, h'.2⟩
        · rintro ⟨-, hk⟩
          exact ⟨fun heq => hnext hc (hk.symm.trans heq), Or.inr ⟨rfl, hk⟩⟩
    signaled := by
      rw [hsig]
      cases hc : lock'.leaveChains with
      | false => exact Or.inl rfl
      | true => exact Or.inr ⟨rfl, (h.rest_of_chains hc).2.1⟩
    alone := by
      show lock'.leaveQueue.writerActive = 0 ∨
        lock'.leaveQueue.writerActive = 1 ∧ lock'.leaveQueue.readerActive = 0
      rw [hra, hwa]
      exact h.alone
    next := by
      intro hs'
      have hc : lock'.leaveChains = true := chains_of_signaled hs hs'
      exact ⟨hwa.trans (h.next hs).1,
        fun hf => absurd ((h.leave_head_isReader hc).symm.trans hf) (by decide)⟩ }

end Leave

theorem FifoInv.wake (h : FifoInv s q) (ht : s.thread t = .queued isReader k) :
    ∃ q', FifoInv (Uti.wake s t isReader k) q' := by
  unfold Uti.wake
  dsimp only
  by_cases hk : ((s.lock.addWaiting isReader (-1)).array k).isSignaled = true
  · rw [if_pos hk, grant_leave]
    obtain ⟨hs, rfl, rest, rfl⟩ := h.first_of_signaled ht hk
    have hcore := h.leave ht hs
    obtain ⟨hwriter, hreader⟩ := h.next hs
    have hhead : (s.lock.array s.lock.head).isReader = isReader := h.head_isReader
    obtain ⟨-, -, hra, hwa, -, -⟩ := (s.lock.addWaiting isReader (-1)).leaveQueue_fields
    refine ⟨rest, hcore.grant (fun r => ?_) (hwa.trans hwriter) ?_ ?_⟩
    · show (Function.update s.thread t .running t).slot r = none
      rw [Function.update_self]
      rfl
    · intro hf
      refine ⟨hra.trans (hreader (hhead.trans hf)), ?_⟩
      rcases hcore.signaled with h0 | ⟨h1, -⟩
      · exact h0
      · -- a writer wakes up nobody
        have hc := (h.rest_of_chains (chains_of_signaled hs h1)).1
        exact absurd (hc.symm.trans hf) (by decide)
    · exact fun hs' => h.leave_head_isReader (chains_of_signaled hs hs')
  · rw [if_neg hk, FifoRwLock.addWaiting_back]
    exact ⟨q, h⟩

omit [DecidableEq ι] in
/-- Signaling the first thread when nobody holds the lock and nobody is signaled. -/
theorem FifoCore.signalHead (h : FifoCore s q) (hq : q ≠ []) (hs : s.lock.signaled = 0)
    (hwriter : s.lock.writerActive = 0) (hreader : s.lock.readerActive = 0) :
    FifoInv { s with lock := s.lock.signalHead } q where
  log := h.log
  ring := h.ring
  kind := fun p k hk => (s.lock.signalHead_isReader k).trans (h.kind p k hk)
  readerWaiting := h.readerWaiting
  writerWaiting := h.writerWaiting
  readerActive := h.readerActive
  writerActive := h.writerActive
  signals := by
    intro k
    show (s.lock.signalHead.array k).isSignaled = true ↔ s.lock.signaled + 1 = 1 ∧ _
    rw [s.lock.signalHead_isSignaled, h.signals]
    constructor
    · rintro (⟨h1, -⟩ | rfl)
      · omega
      · exact ⟨by omega, rfl⟩
    · exact fun h' => Or.inr h'.2
  signaled := Or.inr ⟨by show s.lock.signaled + 1 = 1; omega, hq⟩
  alone := h.alone
  next := fun _ => ⟨hwriter, fun _ => hreader⟩
  alive := by
    intro _
    show 0 < s.lock.readerActive + s.lock.writerActive + (s.lock.signaled + 1)
    omega

/-- The state in which a lock was given back and nobody has been signaled yet. -/
def giveBack (s : FifoState ι) (t : ι) (isReader : Bool) : FifoState ι :=
  { s with
    lock := s.lock.addActive isReader (-1)
    holders := s.holders.erase (t, isReader) }

theorem FifoInv.giveBack (h : FifoInv s q) (hmem : (t, isReader) ∈ s.holders) :
    FifoCore (giveBack s t isReader) q := by
  have hreaders := h.readerActive
  have hwriters := h.writerActive
  have hnonneg := h.nonneg
  have hnext := h.next
  have halone := h.alone
  have hcount : ∀ p : ι × Bool → Bool,
      ((s.holders.erase (t, isReader)).countP p : ℤ) =
        s.holders.countP p - if p (t, isReader) then 1 else 0 := by
    intro p
    have hperm := List.perm_cons_erase hmem
    rw [hperm.countP_eq, List.countP_cons]
    split_ifs <;> push_cast <;> ring
  have hr : (Uti.giveBack s t isReader).lock.readerActive =
      (s.holders.erase (t, isReader)).countP (·.2) := by
    show s.lock.readerActive + _ = _
    rw [hreaders, hcount]
    cases isReader
    · simp
    · simp
      rfl
  have hw : (Uti.giveBack s t isReader).lock.writerActive =
      (s.holders.erase (t, isReader)).countP (!·.2) := by
    show s.lock.writerActive + _ = _
    rw [hwriters, hcount]
    cases isReader
    · simp
      rfl
    · simp
  have hra : (Uti.giveBack s t isReader).lock.readerActive =
      s.lock.readerActive + if isReader then -1 else 0 := rfl
  have hwa : (Uti.giveBack s t isReader).lock.writerActive =
      s.lock.writerActive + if isReader then 0 else -1 := rfl
  exact { h with
    readerActive := hr
    writerActive := hw
    alone := by
      cases isReader <;> simp only [Bool.false_eq_true, if_true, if_false] at hra hwa <;> omega
    next := by
      intro hs
      obtain ⟨h1, h2⟩ := hnext hs
      have hs' : s.lock.signaled = 1 := hs
      cases isReader <;> simp only [Bool.false_eq_true, if_true, if_false] at hra hwa
      · refine ⟨by omega, fun hf => ?_⟩
        have := h2 hf
        omega
      · refine ⟨by omega, fun hf => ?_⟩
        have := h2 hf
        omega }

theorem FifoInv.ulock (h : FifoInv s q) (hmem : (t, isReader) ∈ s.holders) :
    FifoInv (Uti.ulock s t isReader) q := by
  have hcore := h.giveBack hmem
  have hnonneg := hcore.nonneg
  have hwaiting := hcore.waiting_eq
  unfold Uti.ulock FifoRwLock.release
  dsimp only
  rw [show s.lock.addActive isReader (-1) = (Uti.giveBack s t isReader).lock from rfl]
  split_ifs with hsig
  · refine hcore.signalHead ?_ (by omega) (by omega) (by omega)
    rintro rfl
    rw [hwaiting] at hsig
    exact lt_irrefl (0 : ℤ) hsig.2
  · refine { hcore with alive := fun hq => ?_ }
    have hlen : 0 < q.length := List.length_pos_of_ne_nil hq
    show 0 < (Uti.giveBack s t isReader).lock.readerActive +
      (Uti.giveBack s t isReader).lock.writerActive + (Uti.giveBack s t isReader).lock.signaled
    omega

/-- **One section keeps the invariant.** -/
theorem FifoInv.step (h : FifoInv s q) (a : FifoAct ι) (hstep : fifoStep s a = some s') :
    ∃ q', FifoInv s' q' := by
  cases a with
  | lock t isReader =>
    cases ht : s.thread t with
    | running =>
      rw [fifoStep, ht] at hstep
      cases hstep
      exact h.enter fun r => by rw [ht]; rfl
    | outside _ => simp [fifoStep, ht] at hstep
    | queued _ _ => simp [fifoStep, ht] at hstep
  | wakeOutside t =>
    cases ht : s.thread t with
    | running => simp [fifoStep, ht] at hstep
    | outside isReader =>
      rw [fifoStep, ht] at hstep
      cases hstep
      refine FifoInv.enter (q := q) ?_ fun r => by show (s.thread t).slot r = none; rw [ht]; rfl
      exact { h with }
    | queued _ _ => simp [fifoStep, ht] at hstep
  | wakeQueued t =>
    cases ht : s.thread t with
    | running => simp [fifoStep, ht] at hstep
    | outside _ => simp [fifoStep, ht] at hstep
    | queued isReader k =>
      rw [fifoStep, ht] at hstep
      cases hstep
      exact h.wake ht
  | unlock t isReader =>
    cases ht : s.thread t with
    | running =>
      rw [fifoStep, ht] at hstep
      by_cases hmem : (t, isReader) ∈ s.holders
      · rw [if_pos hmem] at hstep
        cases hstep
        exact ⟨q, h.ulock hmem⟩
      · simp [hmem] at hstep
    | outside _ => simp [fifoStep, ht] at hstep
    | queued _ _ => simp [fifoStep, ht] at hstep

/-- **Every run keeps it.** -/
theorem FifoReachable.inv (h : FifoReachable s) : ∃ q, FifoInv s q := by
  induction h with
  | init => exact ⟨[], FifoInv.init⟩
  | step a _ hstep ih =>
    obtain ⟨q, hq⟩ := ih
    exact hq.step a hstep

end Sections

/-! ## What the lock guarantees -/

/-- A writer holds the lock alone, at most one thread is signaled. The requests that wait
are those that entered the queue and have not left it, in the order in which they came;
they occupy the slots from the head up to the tail, one each. Only the request at the head
can leave, the slot at the tail is free, and a queue that is not empty has somebody to
wait for. -/
structure FifoSafe (s : FifoState ι) : Prop where
  writer_alone : ∀ t, (t, false) ∈ s.holders → s.holders = [(t, false)]
  signaled_le : s.lock.signaled ≤ 1
  queue : ∃ q : List (ι × Bool), s.queued = s.granted ++ q ∧ q.Nodup ∧
    s.lock.readerWaiting + s.lock.writerWaiting = q.length ∧
    q.length ≤ fifoLockQueueLength ∧
    s.lock.tail = ringSlot fifoLockQueueLength s.lock.head q.length ∧
    ∀ t isReader index, s.thread t = .queued isReader index ↔
      ∃ i, q[i]? = some (t, isReader) ∧ index = ringSlot fifoLockQueueLength s.lock.head i
  own_slot : ∀ t isReader index, s.thread t = .queued isReader index →
    (s.lock.array index).isReader = isReader ∧
      ∀ t' isReader', s.thread t' = .queued isReader' index → t' = t
  leaves_head : ∀ t isReader index, s.thread t = .queued isReader index →
    (s.lock.array index).isSignaled = true → index = s.lock.head
  tail_free : s.lock.isFull = false → ∀ t isReader, s.thread t ≠ .queued isReader s.lock.tail
  not_stranded : (∃ t isReader index, s.thread t = .queued isReader index) →
    s.holders ≠ [] ∨ ∃ t isReader index, s.thread t = .queued isReader index ∧
      (s.lock.array index).isSignaled = true

namespace FifoInv

variable {s : FifoState ι} {q : List (ι × Bool)}

variable {t : ι}

theorem writer_alone (h : FifoInv s q) (ht : (t, false) ∈ s.holders) :
    s.holders = [(t, false)] := by
  have hwriters := h.writerActive
  have hreaders := h.readerActive
  have halone := h.alone
  have hpos : 0 < s.holders.countP (!·.2) := List.countP_pos_iff.mpr ⟨(t, false), ht, rfl⟩
  have hlen : s.holders.length = 1 := by
    have hsum := List.length_eq_countP_add_countP (p := fun p : ι × Bool => p.2) (l := s.holders)
    have hnot : s.holders.countP (fun p => ¬p.2 = true) = s.holders.countP (!·.2) :=
      List.countP_congr fun p _ => by simp
    omega
  obtain ⟨p, hp⟩ := List.length_eq_one_iff.mp hlen
  rw [hp] at ht ⊢
  rw [List.mem_singleton.mp ht]

theorem not_stranded (h : FifoInv s q) {isReader : Bool} {index : ℕ}
    (ht : s.thread t = .queued isReader index) :
    s.holders ≠ [] ∨ ∃ t isReader index, s.thread t = .queued isReader index ∧
      (s.lock.array index).isSignaled = true := by
  have hq : q ≠ [] := List.ne_nil_of_mem (h.ring.queued (t, isReader) index (slotOf_eq_some.mpr ht))
  have halive := h.alive hq
  rcases h.signaled with hs | ⟨hs, -⟩
  · refine Or.inl fun hnil => ?_
    have hreaders := h.readerActive
    have hwriters := h.writerActive
    rw [hnil] at hreaders hwriters
    simp only [List.countP_nil, Nat.cast_zero] at hreaders hwriters
    omega
  · obtain ⟨p, rest, rfl⟩ := List.exists_cons_of_ne_nil hq
    exact Or.inr ⟨p.1, p.2, s.lock.head, slotOf_eq_some.mp h.ring.slot_first,
      (h.signals _).mpr ⟨hs, rfl⟩⟩

theorem safe (h : FifoInv s q) : FifoSafe s where
  writer_alone := fun _ => h.writer_alone
  signaled_le := by
    have := h.signaled
    omega
  queue := by
    refine ⟨q, h.log, h.ring.nodup, h.waiting_eq, h.ring.length_le, h.ring.tail_eq, ?_⟩
    intro t isReader index
    rw [← h.ring.slot_iff, slotOf_eq_some]
  own_slot := by
    intro t isReader index ht
    have hslot : slotOf s.thread (t, isReader) = some index := slotOf_eq_some.mpr ht
    refine ⟨h.kind _ _ hslot, fun t' isReader' ht' => ?_⟩
    obtain ⟨i, hi, hk⟩ := h.ring.slot_iff.mp hslot
    obtain ⟨j, hj, hk'⟩ := h.ring.slot_iff.mp
      (show slotOf s.thread (t', isReader') = some index from slotOf_eq_some.mpr ht')
    have hle := h.ring.length_le
    obtain ⟨hilt, -⟩ := List.getElem?_eq_some_iff.mp hi
    obtain ⟨hjlt, -⟩ := List.getElem?_eq_some_iff.mp hj
    obtain rfl := ringSlot_inj (by omega) (by omega) (hk.symm.trans hk')
    exact (Prod.mk.inj (Option.some.inj (hj.symm.trans hi))).1
  leaves_head := fun _ _ index _ hs => ((h.signals index).mp hs).2
  tail_free := by
    intro hfull t isReader ht
    refine h.ring.tail_free ?_ (t, isReader) (slotOf_eq_some.mpr ht)
    have hle := h.ring.length_le
    have heq := h.waiting_eq
    have hne : s.lock.readerWaiting + s.lock.writerWaiting ≠ fifoLockQueueLength := by
      simpa [FifoRwLock.isFull] using hfull
    omega
  not_stranded := fun ⟨_, _, _, ht⟩ => h.not_stranded ht

end FifoInv

/-- **The lock is safe and fair to its queue**, whatever the threads do and in whatever
order. -/
theorem fifo_safe [DecidableEq ι] {s : FifoState ι} (h : FifoReachable s) : FifoSafe s := by
  obtain ⟨q, hq⟩ := h.inv
  exact hq.safe

/-- A reader that comes while a writer holds the lock. -/
theorem fifo_safe_two : ∃ s : FifoState ℕ, s.holders = [(0, false)] ∧
    s.queued = [(1, true)] ∧ FifoSafe s := by
  have h : FifoReachable (ι := ℕ) _ := .step (.lock 0 false) .init rfl
  have h' := h.step (.lock 1 true) rfl
  exact ⟨_, rfl, rfl, fifo_safe h'⟩

end ClusterScheduler.Uti
