import ClusterScheduler.Consumables.ReservationBooking
import ClusterScheduler.Sgeobj.CalendarFrames

/-!
# Running jobs in the schedule

Before jobs are scheduled, the diagrams are filled with what running jobs use until their
expected ends. A task that has exceeded its expected end is booked a little longer.

* `RunningTask`, `ScheddConf` — what is read of a task and of the configuration.
* `scheduledDuration` — how long a task is booked.
* `addJobListToSchedule` — the loop through all tasks.
* `scheduledAt_running` — what all tasks add to the diagrams.
* `StaysScheduled` — the window contains the present, and an overdue task is booked for another
  interval.
* `staysScheduled_iff` — this is so if and only if the task is not overdue.

Times count microseconds in 64 bits; the configuration counts seconds in 32 bits.
-/

namespace ClusterScheduler.Consumables

open Foundation Sched Sgeobj.Calendar

/-! ## Functions of the source -/

def sgeGmt32ToGmt64 (timestamp : UInt32) : UInt64 := timestamp.toUInt64 * 1000000

structure ScheddConf where
  scheduleInterval : UInt32
  durationOffset : UInt32
  defaultDuration : UInt32
  maxReservations : ℕ

/-- A task with the name of its environment, and what that environment said of slave requests
when the task was started. -/
structure RunningTask where
  job : Job
  grantedPe : Option String
  peIgnoresSlaveRequests : Bool
  gdil : List GrantedQueue
  grants : List GrantedResource
  startTime : UInt64
  wallclockLimit : UInt64

/-- `task_get_duration()`. A task without a limit has the default duration. -/
def taskGetDuration (conf : ScheddConf) (jaTask : RunningTask) : UInt64 :=
  if jaTask.wallclockLimit = maxTime then sgeGmt32ToGmt64 conf.defaultDuration
  else jaTask.wallclockLimit

def offsetDuration (conf : ScheddConf) (duration : UInt64) : UInt64 :=
  durationAddOffset duration (sgeGmt32ToGmt64 conf.durationOffset)

def expectedEnd (conf : ScheddConf) (start duration : UInt64) : UInt64 :=
  durationAddOffset start (offsetDuration conf duration)

def scheduledDuration (conf : ScheddConf) (now start duration : UInt64) : UInt64 :=
  if expectedEnd conf start duration ≤ now then (now - start) + conf.scheduleInterval.toUInt64
  else offsetDuration conf duration

def taskWindow (conf : ScheddConf) (now start duration : UInt64) : JobWindow where
  startTime := start.toNat
  duration := (scheduledDuration conf now start duration).toNat
  maxReservations := conf.maxReservations
  start_lt := start.toNat_lt
  duration_lt := (scheduledDuration conf now start duration).toNat_lt

/-- The lists of the scheduler. -/
structure ScheddLists where
  peList : List Pe
  hosts : String → Option (List String)
  queues : String → Option (List String)

def taskPe (lists : ScheddLists) (jaTask : RunningTask) : Option Pe :=
  (lists.peList.find? fun pe => some pe.name = jaTask.grantedPe).map fun pe =>
    { pe with ignoreSlaveRequestsOnMasterHost := jaTask.peIgnoresSlaveRequests }

def taskAssignment (conf : ScheddConf) (lists : ScheddLists) (forJobScheduling : Bool)
    (now : UInt64) (jaTask : RunningTask) : Assignment where
  job := jaTask.job
  pe := taskPe lists jaTask
  gdil := jaTask.gdil
  grants := jaTask.grants
  window := taskWindow conf now jaTask.startTime (taskGetDuration conf jaTask)
  hosts := lists.hosts
  queues := lists.queues
  forJobScheduling := forJobScheduling

section Functions

variable (parse : ParseUlongVal) (centries : List CEntry) (conf : ScheddConf)
  (lists : ScheddLists) (forJobScheduling : Bool) (now : UInt64)

/-- A job in an advance reservation is booked in the diagrams of the reservation, which are not
among these. What is in use now was counted before. -/
def addTaskToSchedule (books : Books) (jaTask : RunningTask) : Books :=
  let a := taskAssignment conf lists forJobScheduling now jaTask
  if jaTask.job.ar = 0 then addJobUtilization parse centries a true true none a.gdil books
  else books

/-- The tasks of all jobs, one after the other. -/
def addJobListToSchedule (jobList : List RunningTask) (books : Books) : Books :=
  jobList.foldl (addTaskToSchedule parse centries conf lists forJobScheduling now) books

def taskCalls (p : Place) (name : String) (jaTask : RunningTask) : List Booking :=
  let a := taskAssignment conf lists forJobScheduling now jaTask
  if jaTask.job.ar = 0 then scheduleCalls parse centries a p name true true none a.gdil else []

end Functions

/-! ## The diagrams -/

section Diagrams

variable {parse : ParseUlongVal} {centries : List CEntry} {conf : ScheddConf}
  {lists : ScheddLists} {forJobScheduling : Bool} {now : UInt64} {books : Books}
  {jaTask : RunningTask} {p : Place} {name : String} {b : Bool}

theorem usageAt_addTaskToSchedule :
    usageAt name (addTaskToSchedule parse centries conf lists forJobScheduling now books jaTask
      p) = (taskCalls parse centries conf lists forJobScheduling now p name jaTask).foldl
        Usage.schedule (usageAt name (books p)) := by
  unfold addTaskToSchedule taskCalls
  split_ifs
  · exact usageAt_addJobUtilization _ _ _ _ _
  · rfl

theorem ofWindow_taskCalls
    (hrecorded : (taskAssignment conf lists forJobScheduling now jaTask).Recorded) :
    ∀ call ∈ taskCalls parse centries conf lists forJobScheduling now p name jaTask,
      OfWindow (taskWindow conf now jaTask.startTime (taskGetDuration conf jaTask)) call := by
  unfold taskCalls
  split_ifs
  · exact ofWindow_scheduleCalls hrecorded _ _ _
  · exact List.forall_mem_nil _

end Diagrams

def quarterMinute : ScheddConf := ⟨15, 0, 3600, 10⟩

/-- A task that takes a licence of a host for an hour. -/
def runningLicence (ar : ℕ) : RunningTask where
  job := { (licenceAssignment [] []).job with ar := ar }
  grantedPe := none
  peIgnoresSlaveRequests := false
  gdil := (licenceAssignment [] []).gdil
  grants := []
  startTime := 5
  wallclockLimit := 3600000000

variable {conf : ScheddConf} {now start duration : UInt64}

/-- The task has exceeded its expected end. -/
def Overdue (conf : ScheddConf) (now start duration : UInt64) : Prop :=
  expectedEnd conf start duration ≤ now

instance : Decidable (Overdue conf now start duration) :=
  inferInstanceAs (Decidable (_ ≤ _))

def cappedSum (s t : ℕ) : ℕ := min (s + t) uint64Max

/-- No sum wraps: each is the sum of its numbers, or the largest time. -/
structure NoSumWraps (conf : ScheddConf) (now start duration : UInt64) : Prop where
  offset : (offsetDuration conf duration).toNat =
    cappedSum duration.toNat (conf.durationOffset.toNat * 1000000)
  expected : (expectedEnd conf start duration).toNat =
    cappedSum start.toNat (offsetDuration conf duration).toNat
  prolonged : Overdue conf now start duration →
    (scheduledDuration conf now start duration).toNat =
      (now.toNat - start.toNat) + conf.scheduleInterval.toNat
  stop : (taskWindow conf now start duration).endTime =
      start.toNat + (scheduledDuration conf now start duration).toNat ∨
    (taskWindow conf now start duration).endTime = uint64Max

/-- The window contains the present. That of an overdue task goes on for an interval, in
microseconds. -/
structure StaysScheduled (conf : ScheddConf) (now start duration : UInt64) : Prop where
  covers : (taskWindow conf now start duration).Covers now.toNat
  prolongs : Overdue conf now start duration →
    now.toNat + conf.scheduleInterval.toNat * 1000000 ≤
      (taskWindow conf now start duration).endTime
  noSumWraps : NoSumWraps conf now start duration

theorem toNat_durationAddOffset (s t : UInt64) :
    (durationAddOffset s t).toNat = cappedSum s.toNat t.toNat := by
  have hs := s.toNat_lt
  have ht := t.toNat_lt
  have hmax : maxTime.toNat = uint64Max := rfl
  have hle : t ≤ maxTime := by
    rw [UInt64.le_iff_toNat_le, hmax]
    exact Nat.le_pred_of_lt ht
  unfold durationAddOffset cappedSum
  split
  · next h =>
      rw [hmax]
      simp only [← UInt64.toNat_inj, hmax] at h
      omega
  · split
    · next hroom =>
        rw [UInt64.lt_iff_toNat_lt, UInt64.toNat_sub_of_le _ _ hle, hmax] at hroom
        rw [hmax]
        omega
    · next hroom =>
        rw [UInt64.lt_iff_toNat_lt, UInt64.toNat_sub_of_le _ _ hle, hmax] at hroom
        rw [UInt64.toNat_add]
        simp only [uint64Max] at hroom ⊢
        omega

theorem toNat_sgeGmt32ToGmt64 (t : UInt32) : (sgeGmt32ToGmt64 t).toNat = t.toNat * 1000000 := by
  have ht := t.toNat_lt
  rw [sgeGmt32ToGmt64, UInt64.toNat_mul, UInt32.toNat_toUInt64]
  exact Nat.mod_eq_of_lt (by show t.toNat * 1000000 < 2 ^ 64; omega)

theorem window_end (conf : ScheddConf) (now start duration : UInt64) :
    (taskWindow conf now start duration).endTime =
        start.toNat + (scheduledDuration conf now start duration).toNat ∨
      (taskWindow conf now start duration).endTime = uint64Max :=
  utilizationEndtime_cases start.toNat_lt (UInt64.toNat_lt _)

/-- A task that is not overdue is booked until its expected end. -/
theorem staysScheduled_of_not_overdue (hstart : start ≤ now)
    (h : ¬ Overdue conf now start duration) : StaysScheduled conf now start duration := by
  have hdur : scheduledDuration conf now start duration = offsetDuration conf duration := if_neg h
  have hlate : now.toNat < (expectedEnd conf start duration).toNat := by
    rw [← UInt64.lt_iff_toNat_lt]
    exact UInt64.not_le.mp h
  have hend := toNat_durationAddOffset start (offsetDuration conf duration)
  rw [expectedEnd, hend] at hlate
  obtain ⟨hsum, hmax⟩ := lt_min_iff.mp hlate
  refine ⟨⟨?_, ?_⟩, fun hover => absurd hover h, ⟨?_, hend, fun hover => absurd hover h,
    window_end conf now start duration⟩⟩
  · exact UInt64.le_iff_toNat_le.mp hstart
  · rcases window_end conf now start duration with hw | hw
    · rw [hw, hdur]
      exact hsum
    · rw [hw]
      exact hmax
  · rw [offsetDuration, toNat_durationAddOffset, toNat_sgeGmt32ToGmt64]

/-- A window is capped only when its end is close to the largest time. -/
theorem utilizationEndtime_capped {s d : ℕ} (hs : s < 2 ^ 64) (hd : d < 2 ^ 64)
    (h : utilizationEndtime s d = uint64Max) : 2 ^ 64 ≤ s + d + 3 * 2 ^ 10 := by
  by_cases hlt : toBinary64 (toBinary64 s + toBinary64 d) < toBinary64 uint64Max
  · have hsum : utilizationEndtime s d = s + d ∨ 2 ^ 64 ≤ s + d := by
      rcases Nat.lt_or_ge (s + d) (2 ^ 64) with hfit | hwrap
      · rw [utilizationEndtime, if_pos hlt, Nat.mod_eq_of_lt hfit]
        exact .inl rfl
      · exact .inr hwrap
    unfold uint64Max at h
    omega
  · have hmax : toBinary64 uint64Max = 2 ^ 64 := by decide
    rw [hmax, not_lt] at hlt
    exact add_ge_of_toBinary64_add hs hd hlt

/-- The interval of an overdue task counts microseconds as seconds. -/
theorem not_staysScheduled_of_overdue (hstart : start ≤ now)
    (hinterval : 1 ≤ conf.scheduleInterval.toNat) (h : Overdue conf now start duration) :
    ¬ StaysScheduled conf now start duration := by
  intro hstays
  have hlong := hstays.prolongs h
  have hdur := hstays.noSumWraps.prolonged h
  have hle : start.toNat ≤ now.toNat := UInt64.le_iff_toNat_le.mp hstart
  rcases window_end conf now start duration with hw | hw
  · omega
  · have hcap := utilizationEndtime_capped start.toNat_lt (UInt64.toNat_lt _) hw
    unfold uint64Max at hw
    omega

/-- **Running tasks stay in the schedule.** For every start, duration, offset and interval, the
window contains the present, and goes on for an interval if the task is overdue, if and only if
the task is not overdue. -/
theorem staysScheduled_iff (conf : ScheddConf) {now start : UInt64} (duration : UInt64)
    (hstart : start ≤ now) (hinterval : 1 ≤ conf.scheduleInterval.toNat) :
    StaysScheduled conf now start duration ↔ ¬ Overdue conf now start duration :=
  ⟨fun hstays hover => not_staysScheduled_of_overdue hstart hinterval hover hstays,
    staysScheduled_of_not_overdue hstart⟩

/-- A task without end. -/
theorem staysScheduled_unlimited : StaysScheduled quarterMinute 1000000000 5 maxTime :=
  (staysScheduled_iff quarterMinute maxTime (by decide) (by decide)).mpr (by decide +kernel)

/-- A task of 60 s that started 100 s ago is booked for 15 microseconds more. -/
theorem overdue_vanishes :
    (taskWindow quarterMinute 100000005 5 60000000).endTime = 100000020 ∧
    ¬ StaysScheduled quarterMinute 100000005 5 60000000 := by
  have hend : (taskWindow quarterMinute 100000005 5 60000000).endTime = 100000020 := by
    decide +kernel
  refine ⟨hend, fun h => ?_⟩
  have hlong := h.prolongs (by decide +kernel)
  rw [hend] at hlong
  exact absurd hlong (by decide)

end ClusterScheduler.Consumables
