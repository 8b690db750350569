import ClusterScheduler.Uti.FifoLock

/-!
# Trying to get the FIFO lock

`sge_fifo_try_lock()` looks whether the lock can be had at once and then runs the function that
waits. The two ask different questions of a reader.

* `someoneBlocksUs`, `fifoTryLock` — the functions of the source.
* `TryReachable` — the states that locks, attempts and unlocks lead to.
* `AtOnce` — an attempt does not wait and says whether it got the lock.
* `WakeUpSeen` — no reader tries while only a wake-up is on its way.
* `fifoTryLock_atOnce_iff` — an attempt does not wait if and only if this is so.
-/

namespace ClusterScheduler.Uti

open Foundation

/-! ## Functions of the source -/

def FifoRwLock.someoneBlocksUs (lock : FifoRwLock) (isReader : Bool) : Bool :=
  if isReader then decide (0 < lock.writerActive + lock.writerWaiting)
  else decide (0 < lock.writerActive + lock.readerActive + lock.signaled)

variable {ι : Type*} [DecidableEq ι]

/-- `sge_fifo_try_lock()` until it returns or waits. There is no result while it waits. -/
def fifoTryLock (s : FifoState ι) (t : ι) (isReader : Bool) : FifoState ι × Option Bool :=
  if s.lock.isFull || s.lock.someoneBlocksUs isReader then (s, some false)
  else
    let s := enter s t isReader
    (s, if s.thread t = .running then some true else none)

/-! ## Runs -/

inductive TryAct (ι : Type*) where
  | act (a : FifoAct ι)
  | tryLock (t : ι) (isReader : Bool)

/-- A thread that waits in an attempt wakes up like any other. -/
def tryStep (s : FifoState ι) : TryAct ι → Option (FifoState ι)
  | .act a => fifoStep s a
  | .tryLock t isReader =>
    match s.thread t with
    | .running => some (fifoTryLock s t isReader).1
    | _ => none

/-- The states that any threads reach in any order of sections. -/
inductive TryReachable : FifoState ι → Prop
  | init : TryReachable .init
  | step {s s' : FifoState ι} (a : TryAct ι) :
      TryReachable s → tryStep s a = some s' → TryReachable s'

/-- The attempt returns without having waited, and returns true exactly when the thread has got
the lock. -/
def AtOnce (s : FifoState ι) (t : ι) (isReader : Bool) : Prop :=
  ∃ got, (fifoTryLock s t isReader).2 = some got ∧
    (fifoTryLock s t isReader).1.thread t = .running ∧
    (fifoTryLock s t isReader).1.holders =
      if got then (t, isReader) :: s.holders else s.holders

/-- When a thread is about to wake up, an attempt to read is refused for another reason. -/
def WakeUpSeen (s : FifoState ι) (isReader : Bool) : Prop :=
  isReader = true → s.lock.signaled = 1 →
    s.lock.isFull = true ∨ 0 < s.lock.writerActive + s.lock.writerWaiting

/-! ## Attempts keep the invariant -/

section Invariant

variable {s s' : FifoState ι} {q : List (ι × Bool)} {t : ι} {isReader : Bool}

theorem FifoInv.tryLock (h : FifoInv s q) (ht : s.thread t = .running) :
    ∃ q', FifoInv (fifoTryLock s t isReader).1 q' := by
  unfold fifoTryLock
  split_ifs
  · exact ⟨q, h⟩
  · apply h.enter
    intro r
    rw [ht]
    rfl

theorem FifoInv.tryStep (h : FifoInv s q) (a : TryAct ι) (hstep : Uti.tryStep s a = some s') :
    ∃ q', FifoInv s' q' := by
  cases a with
  | act a => exact h.step a hstep
  | tryLock t isReader =>
    cases ht : s.thread t with
    | running =>
      rw [Uti.tryStep, ht] at hstep
      cases hstep
      exact h.tryLock ht
    | outside _ => simp [Uti.tryStep, ht] at hstep
    | queued _ _ => simp [Uti.tryStep, ht] at hstep

theorem TryReachable.inv (h : TryReachable s) : ∃ q, FifoInv s q := by
  induction h with
  | init => exact ⟨[], FifoInv.init⟩
  | step a _ hstep ih =>
    obtain ⟨q, hq⟩ := ih
    exact hq.tryStep a hstep

end Invariant

/-! ## Attempts at once -/

section AtOnce

variable {s : FifoState ι} {q : List (ι × Bool)} {t : ι} {isReader : Bool}

theorem atOnce_of_blocked (h : (s.lock.isFull || s.lock.someoneBlocksUs isReader) = true)
    (ht : s.thread t = .running) : AtOnce s t isReader := by
  refine ⟨false, ?_⟩
  rw [fifoTryLock, if_pos h]
  exact ⟨rfl, ht, rfl⟩

/-- An attempt that goes on gets the lock unless it has to queue. -/
theorem atOnce_of_passed (h : (s.lock.isFull || s.lock.someoneBlocksUs isReader) = false) :
    AtOnce s t isReader ↔ s.lock.doWaitInQueue isReader = false := by
  have hfull : s.lock.isFull = false := (Bool.or_eq_false_iff.mp h).1
  unfold AtOnce fifoTryLock
  rw [if_neg (Bool.eq_false_iff.mp h), enter, if_neg (Bool.eq_false_iff.mp hfull)]
  dsimp only
  cases hwait : s.lock.doWaitInQueue isReader with
  | false =>
    refine iff_of_true ⟨true, ?_, ?_, rfl⟩ rfl
    · exact if_pos (Function.update_self ..)
    · exact Function.update_self ..
  | true =>
    refine iff_of_false ?_ Bool.noConfusion
    rintro ⟨got, -, hrunning, -⟩
    have hqueued : (waitInQueue s t isReader).thread t = .queued isReader s.lock.tail :=
      Function.update_self ..
    rw [if_pos rfl, hqueued] at hrunning
    exact ThreadState.noConfusion hrunning

omit [DecidableEq ι] in
/-- What the attempt did not ask: a reader queues behind a thread that was signaled. -/
theorem FifoInv.doWaitInQueue_of_passed (h : FifoInv s q)
    (hpass : s.lock.someoneBlocksUs isReader = false) :
    s.lock.doWaitInQueue isReader = true ↔ isReader = true ∧ s.lock.signaled = 1 := by
  have hsignaled := h.signaled
  have hnonneg := h.nonneg
  cases isReader with
  | false =>
    refine iff_of_false ?_ fun hr => Bool.noConfusion hr.1
    rw [Bool.not_eq_true]
    exact hpass
  | true =>
    have hnone : ¬ 0 < s.lock.writerActive + s.lock.writerWaiting := of_decide_eq_false hpass
    rw [FifoRwLock.doWaitInQueue, if_pos rfl, decide_eq_true_eq]
    constructor
    · exact fun hpos => ⟨rfl, by omega⟩
    · exact fun hr => by omega

end AtOnce

/-- **An attempt does not wait if and only if** it is not that of a reader that finds nobody in
its way but a thread that was signaled and has not run yet. -/
theorem fifoTryLock_atOnce_iff {s : FifoState ι} (h : TryReachable s) {t : ι}
    (ht : s.thread t = .running) (isReader : Bool) :
    AtOnce s t isReader ↔ WakeUpSeen s isReader := by
  obtain ⟨q, hq⟩ := h.inv
  cases hblocked : s.lock.isFull || s.lock.someoneBlocksUs isReader with
  | true =>
    refine iff_of_true (atOnce_of_blocked hblocked ht) ?_
    rintro rfl -
    rcases Bool.or_eq_true_iff.mp hblocked with hfull | hblocks
    · exact .inl hfull
    · exact .inr (of_decide_eq_true hblocks)
  | false =>
    obtain ⟨hfull, hpass⟩ := Bool.or_eq_false_iff.mp hblocked
    rw [atOnce_of_passed hblocked, ← Bool.not_eq_true, hq.doWaitInQueue_of_passed hpass]
    constructor
    · rintro hnot rfl hsignaled
      exact absurd ⟨rfl, hsignaled⟩ hnot
    · rintro hseen ⟨rfl, hsignaled⟩
      rcases hseen rfl hsignaled with hfull' | hpos
      · exact Bool.noConfusion (hfull.symm.trans hfull')
      · exact of_decide_eq_false hpass hpos

/-- A writer has the lock and a reader waits for it: another reader is turned away. -/
theorem fifoTryLock_atOnce_contended : ∃ s : FifoState ℕ, TryReachable s ∧
    s.thread 1 ≠ .running ∧ AtOnce s 2 true := by
  have hwriter : TryReachable (ι := ℕ) _ := .step (.act (.lock 0 false)) .init rfl
  have hreader := hwriter.step (.act (.lock 1 true)) rfl
  refine ⟨_, hreader, by decide, (fifoTryLock_atOnce_iff hreader (by decide) true).mpr ?_⟩
  exact fun _ hsignaled => absurd hsignaled (by decide)

/-- The reader in the queue was signaled by the writer that gave the lock back. Before it wakes
up another reader tries, and waits behind it. -/
theorem fifoTryLock_waits : ¬ ∀ s : FifoState ℕ, TryReachable s →
    ∀ t isReader, s.thread t = .running → AtOnce s t isReader := by
  intro h
  have hwriter : TryReachable (ι := ℕ) _ := .step (.act (.lock 0 false)) .init rfl
  have hreader := hwriter.step (.act (.lock 1 true)) rfl
  have hback := hreader.step (.act (.unlock 0 false)) rfl
  obtain ⟨got, -, hrunning, -⟩ := h _ hback 2 true (by decide)
  revert hrunning
  decide

end ClusterScheduler.Uti
