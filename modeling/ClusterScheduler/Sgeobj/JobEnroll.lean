import ClusterScheduler.Sgeobj.JobTasks

/-!
# Enrolling array tasks

A task is enrolled when it is dispatched, and a fresh enrolment is undone when
the dispatch fails.

* `jobInitializeIdLists`, `jobEnroll`, `jobCreateTask`, `jobUnenroll`.
* `JobReached` — the jobs reached from a submitted one, with the tasks that are
  left and the hold state last set for each.
* `JobReached.keeps` — the step lemma of the invariant `HoldsOk`.
* `tasks_partitioned` — no task is in two places or lost, and none loses its hold.
-/

namespace ClusterScheduler.Sgeobj

open Foundation

/-! ## Functions of the source -/

def jqueued : BitVec 32 := 0x40
def jwaiting : BitVec 32 := 0x800

/-- A job without a task structure has no tasks here; the source refuses it. -/
def jobInitializeIdLists (job : Job) : Job :=
  { job with ids := fun attr =>
      match attr with
      | .nHIds => some job.jaStructure
      | _ => none }

def jobGetJaTaskTemplatePending (template : JaTask) (jaTaskId : ℕ) : JaTask :=
  { template with number := jaTaskId, state := jqueued ||| jwaiting }

def jobEnroll (template : JaTask) (job : Job) (jaTaskNumber : ℕ) : Job :=
  { job with
    ids := fun attr =>
      if attr = .nHIds then objectDeleteRangeId (job.ids attr) jaTaskNumber
      else job.ids attr
    jaTasks :=
      if (jobSearchTask job jaTaskNumber).isNone then
        job.jaTasks ++ [jobGetJaTaskTemplatePending template jaTaskNumber]
      else job.jaTasks }

def jobIsJaTaskDefined (job : Job) (jaTaskNumber : ℕ) : Bool :=
  rangeListIsIdWithin job.jaStructure jaTaskNumber

def jobCreateTask (template : JaTask) (job : Job) (jaTaskId : ℕ) : Job :=
  if jobIsJaTaskDefined job jaTaskId then jobEnroll template job jaTaskId else job

/-- The element is the one with the number given. -/
def jobUnenroll (σ : Sorter) (job : Job) (jaTaskId : ℕ) : Job :=
  { job with
    ids := fun attr =>
      if attr = .nHIds then moveId σ true (job.ids attr) jaTaskId else job.ids attr
    jaTasks := job.jaTasks.eraseP (·.number = jaTaskId) }

/-! ## Runs -/

/-- The functions that move a task. -/
inductive JobOp where
  | setHold (jaTaskId : ℕ) (newHoldState : BitVec 32)
  | createTask (jaTaskId : ℕ)
  | enroll (jaTaskId : ℕ)
  | unenroll (jaTaskId : ℕ)
  | delete (jaTaskId : ℕ)
  deriving DecidableEq

def applyJobOp (σ : Sorter) (template : JaTask) (job : Job) : JobOp → Job
  | .setHold t new => jobSetHoldState σ job t new
  | .createTask t => jobCreateTask template job t
  | .enroll t => jobEnroll template job t
  | .unenroll t => jobUnenroll σ job t
  | .delete t => jobDeleteNotEnrolledJaTask job t

/-- A task is enrolled from the ids without a hold, and an enrolment is undone while
the task has no hold. -/
def JobOp.Legal (job : Job) : JobOp → Prop
  | .createTask t | .enroll t => Has (job.idList .nHIds) t
  | .unenroll t => ∃ task ∈ job.jaTasks, task.number = t ∧ task.hold = 0
  | .setHold _ _ | .delete _ => True

/-- Setting a hold counts for the task it is set for. -/
def JobOp.holds (op : JobOp) (hold : ℕ → BitVec 32) : ℕ → BitVec 32 :=
  match op with
  | .setHold t new => Function.update hold t new
  | _ => hold

/-- Deleting takes a task away that is only an id. -/
def JobOp.left (job : Job) (op : JobOp) (left : Set ℕ) : Set ℕ :=
  match op with
  | .delete t => {x | x ∈ left ∧ ¬ (x = t ∧ t ∈ job.unenrolled)}
  | _ => left

/-- The jobs reached from a submitted job, with the hold state last set for each task
and the tasks that are left. -/
inductive JobReached (σ : Sorter) (template : JaTask) (submitted : Job) :
    Job → (ℕ → BitVec 32) → Set ℕ → Prop where
  | start : JobReached σ template submitted (jobInitializeIdLists submitted) (fun _ => 0)
      {x | Has submitted.jaStructure x}
  | step {job : Job} {hold : ℕ → BitVec 32} {left : Set ℕ} (op : JobOp) :
      JobReached σ template submitted job hold left → op.Legal job →
      JobReached σ template submitted (applyJobOp σ template job op) (op.holds hold)
        (op.left job left)

/-! ## The hold state of an id -/

variable {σ : Sorter} {template : JaTask} {job : Job} {x t : ℕ}

variable {attr : IdAttribute}

theorem and_mask (hne : attr ≠ .nHIds) (new : BitVec 32) :
    new &&& attr.mask = if attr.takes new = true then attr.mask else 0 := by
  have hbit : ∃ i, attr.mask = BitVec.twoPow 32 i := by
    cases attr with
    | nHIds => exact absurd rfl hne
    | uHIds => exact ⟨0, by decide⟩
    | oHIds => exact ⟨1, by decide⟩
    | sHIds => exact ⟨2, by decide⟩
    | aHIds => exact ⟨3, by decide⟩
  obtain ⟨i, hi⟩ := hbit
  have htakes : attr.takes new = true ↔ new &&& attr.mask ≠ 0 := takes_of_ne hne
  have hand := BitVec.and_twoPow new i
  rw [← hi] at hand
  split_ifs at hand with hget
  · split_ifs with ht
    · exact hand
    · exact not_not.mp (mt htakes.mpr ht)
  · rw [if_neg fun ht => htakes.mp ht hand]
    exact hand

theorem accumulate_of_takes {new : BitVec 32}
    (h : ∀ attr, Has (job.idList attr) x ↔ attr.takes new = true) :
    jobAccumulateHoldFlags job x = new &&& minusHTgtAll := by
  have hflag : ∀ attr : IdAttribute, attr ≠ .nHIds → ∀ ret : BitVec 32,
      (if rangeListIsIdWithin (job.idList attr) x then ret ||| attr.mask else ret) =
        ret ||| new &&& attr.mask := by
    intro attr hne ret
    have hiff := has_iff.symm.trans (h attr)
    rw [and_mask hne]
    simp only [hiff]
    split_ifs <;> simp
  have hzero : ∀ y : BitVec 32, 0 ||| y = y := fun _ => BitVec.zero_or
  rw [jobAccumulateHoldFlags]
  simp only [List.foldl_cons, List.foldl_nil]
  rw [hflag .uHIds (by decide), hflag .oHIds (by decide), hflag .sHIds (by decide),
    hflag .aHIds (by decide), all_eq_or, BitVec.and_or_distrib_left,
    BitVec.and_or_distrib_left, BitVec.and_or_distrib_left, hzero]
  rfl

/-! ## The invariant -/

/-- The lists an id is in, or the hold of its element, are those of the hold state
last set. -/
structure HoldsOk (job : Job) (hold : ℕ → BitVec 32) : Prop where
  ids : ∀ x ∈ job.unenrolled, ∀ attr : IdAttribute,
    Has (job.idList attr) x ↔ attr.takes (hold x) = true
  tasks : ∀ task ∈ job.jaTasks, task.hold &&& minusHTgtAll = hold task.number &&& minusHTgtAll

variable {hold : ℕ → BitVec 32}

theorem HoldsOk.getHoldState (h : JobOk job) (hh : HoldsOk job hold) (hx : HasTask job x) :
    jobGetHoldState job x = hold x &&& minusHTgtAll := by
  rw [jobGetHoldState]
  by_cases hu : x ∈ job.unenrolled
  · rw [jobIsEnrolled_false_iff.mpr hu, if_neg (by simp)]
    exact accumulate_of_takes (hh.ids x hu)
  · obtain ⟨task, ht, rfl⟩ := hx.resolve_left hu
    rw [jobIsEnrolled_iff.mpr hu, if_pos rfl, h.search_of_mem ht]
    exact hh.tasks task ht

/-! ## Enrolling -/

theorem JobOk.not_held (h : JobOk job) (ht : Has (job.idList .nHIds) t)
    (hne : attr ≠ .nHIds) : ¬ Has (job.idList attr) t := fun hx => h.held attr hne t hx ht

theorem JobOk.search_none (h : JobOk job) (ht : t ∈ job.unenrolled) :
    jobSearchTask job t = none := by
  rw [jobSearchTask, List.find?_eq_none]
  intro task hm
  rw [decide_eq_true_eq]
  rintro rfl
  exact h.enrolled task hm ht

section Enroll

variable (template)

variable (h : JobOk job)
include h

theorem has_enroll (attr : IdAttribute) (x : ℕ) (ht : Has (job.idList .nHIds) t) :
    Has ((jobEnroll template job t).idList attr) x ↔ Has (job.idList attr) x ∧ x ≠ t := by
  by_cases hn : attr = .nHIds
  · subst hn
    exact (objectDeleteRangeId_spec (h.idLists .nHIds) t).2 x
  · have hsame : (jobEnroll template job t).idList attr = job.idList attr := by
      simp [jobEnroll, Job.idList, hn]
    rw [hsame]
    refine ⟨fun hx => ⟨hx, ?_⟩, And.left⟩
    rintro rfl
    exact h.not_held ht hn hx

variable (ht : Has (job.idList .nHIds) t)
include ht

theorem unenrolled_enroll : (jobEnroll template job t).unenrolled = job.unenrolled \ {t} := by
  ext x
  simp only [mem_unenrolled, has_enroll template h _ x ht, exists_and_right, Set.mem_sdiff,
    Set.mem_singleton_iff]

theorem jaTasks_enroll :
    (jobEnroll template job t).jaTasks =
      job.jaTasks ++ [jobGetJaTaskTemplatePending template t] := by
  rw [jobEnroll, h.search_none ⟨_, ht⟩]
  rfl

theorem JobOk.enroll : JobOk (jobEnroll template job t) where
  idLists := by
    intro attr
    by_cases hn : attr = .nHIds
    · subst hn
      exact (objectDeleteRangeId_spec (h.idLists .nHIds) t).1
    · have hsame : (jobEnroll template job t).idList attr = job.idList attr := by
        simp [jobEnroll, Job.idList, hn]
      rw [hsame]
      exact h.idLists attr
  held := by
    intro attr hne x hx hn
    exact h.held attr hne x ((has_enroll template h attr x ht).mp hx).1
      ((has_enroll template h _ x ht).mp hn).1
  numbers := by
    rw [jaTasks_enroll template h ht, List.map_append, List.nodup_append]
    refine ⟨h.numbers, List.nodup_singleton _, ?_⟩
    intro a ha b hb
    obtain ⟨task, hm, rfl⟩ := List.mem_map.mp ha
    rw [List.mem_singleton.mp hb]
    rintro heq
    have htask : task.number = t := heq
    exact h.enrolled task hm ⟨_, htask ▸ ht⟩
  taskIds := by
    intro task hm
    rw [jaTasks_enroll template h ht, List.mem_append, List.mem_singleton] at hm
    rcases hm with hm | rfl
    · exact h.taskIds task hm
    · exact h.unenrolled_isTaskId ⟨_, ht⟩
  enrolled := by
    intro task hm
    rw [jaTasks_enroll template h ht, List.mem_append, List.mem_singleton] at hm
    rw [unenrolled_enroll template h ht]
    rcases hm with hm | rfl
    · exact fun hx => h.enrolled task hm hx.1
    · exact fun hx => hx.2 rfl

theorem hasTask_enroll : HasTask (jobEnroll template job t) x ↔ HasTask job x := by
  rw [HasTask, unenrolled_enroll template h ht, jaTasks_enroll template h ht]
  have hnumber : (jobGetJaTaskTemplatePending template t).number = t := rfl
  simp only [List.mem_append, List.mem_singleton, Set.mem_sdiff, Set.mem_singleton_iff]
  constructor
  · rintro (⟨hx, -⟩ | ⟨task, hm | rfl, rfl⟩)
    · exact .inl hx
    · exact .inr ⟨task, hm, rfl⟩
    · exact .inl ⟨_, ht⟩
  · rintro (hx | ⟨task, hm, rfl⟩)
    · by_cases hxt : x = t
      · exact .inr ⟨_, .inr rfl, hxt ▸ hnumber⟩
      · exact .inl ⟨hx, hxt⟩
    · exact .inr ⟨task, .inl hm, rfl⟩

omit ht

theorem HoldsOk.enroll (hh : HoldsOk job hold) (htemplate : template.hold = 0)
    (ht : Has (job.idList .nHIds) t) : HoldsOk (jobEnroll template job t) hold where
  ids := by
    intro x hx attr
    rw [unenrolled_enroll template h ht] at hx
    rw [has_enroll template h attr x ht, ← hh.ids x hx.1 attr]
    exact and_iff_left hx.2
  tasks := by
    intro task hm
    rw [jaTasks_enroll template h ht, List.mem_append, List.mem_singleton] at hm
    rcases hm with hm | rfl
    · exact hh.tasks task hm
    · have hfree := takes_nHIds.mp ((hh.ids t ⟨_, ht⟩ .nHIds).mp ht)
      show template.hold &&& minusHTgtAll = hold t &&& minusHTgtAll
      rw [hfree, htemplate]
      decide

end Enroll

/-! ## Undoing an enrolment -/

section Unenroll

variable {task : JaTask}

variable (h : JobOk job)
include h

theorem has_unenroll (ht : IsTaskId t) (attr : IdAttribute) (x : ℕ) :
    Has ((jobUnenroll σ job t).idList attr) x ↔
      Has (job.idList attr) x ∨ attr = .nHIds ∧ x = t := by
  by_cases hn : attr = .nHIds
  · subst hn
    refine ((moveId_spec σ (h.idLists .nHIds) ht true).2 x).trans ?_
    split_ifs with hx
    · simp [hx]
    · simp only [hx, and_false, or_false]
      rfl
  · have hsame : (jobUnenroll σ job t).idList attr = job.idList attr := by
      simp [jobUnenroll, Job.idList, hn]
    simp [hsame, hn]

theorem unenrolled_unenroll (ht : IsTaskId t) :
    (jobUnenroll σ job t).unenrolled = insert t job.unenrolled := by
  ext x
  simp only [mem_unenrolled, has_unenroll h ht, Set.mem_insert_iff, exists_or]
  constructor
  · rintro (hx | ⟨_, -, rfl⟩)
    · exact .inr hx
    · exact .inl rfl
  · rintro (rfl | hx)
    · exact .inr ⟨_, rfl, rfl⟩
    · exact .inl hx

theorem mem_jaTasks_unenroll :
    task ∈ (jobUnenroll σ job t).jaTasks ↔ task ∈ job.jaTasks ∧ task.number ≠ t := by
  have hnodup := h.numbers
  show task ∈ job.jaTasks.eraseP (·.number = t) ↔ _
  generalize job.jaTasks = l at hnodup
  induction l with
  | nil => simp
  | cons y l ih =>
    rw [List.map_cons, List.nodup_cons] at hnodup
    by_cases hy : y.number = t
    · rw [List.eraseP_cons_of_pos (by simpa using hy), List.mem_cons]
      constructor
      · intro hm
        refine ⟨.inr hm, fun heq => hnodup.1 ?_⟩
        rw [hy, ← heq]
        exact List.mem_map_of_mem hm
      · rintro ⟨rfl | hm, hne⟩
        · exact absurd hy hne
        · exact hm
    · rw [List.eraseP_cons_of_neg (by simpa using hy), List.mem_cons, List.mem_cons, ih hnodup.2]
      constructor
      · rintro (rfl | ⟨hm, hne⟩)
        · exact ⟨.inl rfl, hy⟩
        · exact ⟨.inr hm, hne⟩
      · rintro ⟨rfl | hm, hne⟩
        · exact .inl rfl
        · exact .inr ⟨hm, hne⟩

theorem JobOk.unenroll (ht : task ∈ job.jaTasks) : JobOk (jobUnenroll σ job task.number) where
  idLists := by
    intro attr
    by_cases hn : attr = .nHIds
    · subst hn
      exact (moveId_spec σ (h.idLists .nHIds) (h.taskIds task ht) true).1
    · have hsame : (jobUnenroll σ job task.number).idList attr = job.idList attr := by
        simp [jobUnenroll, Job.idList, hn]
      rw [hsame]
      exact h.idLists attr
  held := by
    intro attr hne x hx hn
    rw [has_unenroll h (h.taskIds task ht)] at hx hn
    have hx' := hx.resolve_right fun hx => hne hx.1
    rcases hn with hn | ⟨-, rfl⟩
    · exact h.held attr hne x hx' hn
    · exact h.enrolled task ht ⟨attr, hx'⟩
  numbers := h.numbers.sublist ((List.eraseP_sublist).map _)
  taskIds := fun y hy => h.taskIds y ((mem_jaTasks_unenroll h).mp hy).1
  enrolled := by
    intro y hy
    obtain ⟨hm, hne⟩ := (mem_jaTasks_unenroll h).mp hy
    rw [unenrolled_unenroll h (h.taskIds task ht), Set.mem_insert_iff, not_or]
    exact ⟨hne, h.enrolled y hm⟩

theorem hasTask_unenroll (ht : task ∈ job.jaTasks) :
    HasTask (jobUnenroll σ job task.number) x ↔ HasTask job x := by
  simp only [HasTask, unenrolled_unenroll h (h.taskIds task ht), Set.mem_insert_iff,
    mem_jaTasks_unenroll h]
  constructor
  · rintro ((rfl | hx) | ⟨y, ⟨hm, -⟩, rfl⟩)
    · exact .inr ⟨task, ht, rfl⟩
    · exact .inl hx
    · exact .inr ⟨y, hm, rfl⟩
  · rintro (hx | ⟨y, hm, rfl⟩)
    · exact .inl (.inr hx)
    · by_cases hy : y.number = task.number
      · exact .inl (.inl hy)
      · exact .inr ⟨y, ⟨hm, hy⟩, rfl⟩

theorem HoldsOk.unenroll (hh : HoldsOk job hold) (ht : task ∈ job.jaTasks)
    (hzero : task.hold = 0) : HoldsOk (jobUnenroll σ job task.number) hold where
  ids := by
    intro x hx attr
    rw [unenrolled_unenroll h (h.taskIds task ht)] at hx
    rw [has_unenroll h (h.taskIds task ht)]
    rcases hx with rfl | hx
    · have hfree : hold task.number &&& minusHTgtAll = 0 := by
        rw [← hh.tasks task ht, hzero]
        decide
      have hnone : ¬ Has (job.idList attr) task.number := fun hx => h.enrolled task ht ⟨attr, hx⟩
      by_cases hn : attr = .nHIds
      · subst hn
        exact iff_of_true (.inr ⟨rfl, rfl⟩) (takes_nHIds.mpr hfree)
      · refine iff_of_false (by simp [hnone, hn]) fun htakes => ?_
        exact takes_exclusive hn htakes (takes_nHIds.mpr hfree)
    · rw [← hh.ids x hx attr]
      refine or_iff_left ?_
      rintro ⟨-, rfl⟩
      exact h.enrolled task ht hx
  tasks := fun y hy => hh.tasks y ((mem_jaTasks_unenroll h).mp hy).1

end Unenroll

/-! ## Setting a hold, deleting -/

theorem mem_modifyTask {f : JaTask → JaTask} {task : JaTask} {l : List JaTask}
    (hnodup : (l.map JaTask.number).Nodup) (hm : task ∈ modifyTask t f l) :
    (task ∈ l ∧ task.number ≠ t) ∨ ∃ y ∈ l, y.number = t ∧ task = f y := by
  induction l with
  | nil => simp [modifyTask] at hm
  | cons y l ih =>
    rw [List.map_cons, List.nodup_cons] at hnodup
    rw [modifyTask] at hm
    split_ifs at hm with hy
    · rcases List.mem_cons.mp hm with rfl | hm
      · exact .inr ⟨y, .head _, hy, rfl⟩
      · refine .inl ⟨List.mem_cons_of_mem y hm, fun heq => hnodup.1 ?_⟩
        rw [hy, ← heq]
        exact List.mem_map_of_mem hm
    · rcases List.mem_cons.mp hm with rfl | hm
      · exact .inl ⟨.head _, hy⟩
      · rcases ih hnodup.2 hm with ⟨hm, hne⟩ | ⟨z, hz, heq⟩
        · exact .inl ⟨List.mem_cons_of_mem y hm, hne⟩
        · exact .inr ⟨z, List.mem_cons_of_mem y hz, heq⟩

theorem SameTasks.hasTask {job' : Job} (h : SameTasks job job') :
    HasTask job' x ↔ HasTask job x := by
  have hmap := h.numbers
  have hmem : ∀ j : Job, (∃ task ∈ j.jaTasks, task.number = x) ↔
      x ∈ j.jaTasks.map JaTask.number := fun j => by simp
  rw [HasTask, HasTask, h.unenrolled, hmem, hmem, hmap]

theorem HoldsOk.setHold (h : JobOk job) (hh : HoldsOk job hold) (t : ℕ) (new : BitVec 32) :
    HoldsOk (jobSetHoldState σ job t new) (Function.update hold t new) where
  ids := by
    intro x hx attr
    rw [unenrolled_setHoldState h] at hx
    rw [has_setHoldState h]
    by_cases hxt : x = t
    · subst hxt
      simp [hx]
    · rw [if_neg fun hc => hxt hc.1, Function.update_of_ne hxt]
      exact hh.ids x hx attr
  tasks := by
    intro task hm
    by_cases ht : t ∈ job.unenrolled
    · rw [jobSetHoldState_of_mem ht] at hm
      have hne : task.number ≠ t := fun heq => h.enrolled task hm (heq ▸ ht)
      rw [Function.update_of_ne hne]
      exact hh.tasks task hm
    · rw [jobSetHoldState_of_not_mem ht] at hm
      rcases mem_modifyTask h.numbers hm with ⟨hm, hne⟩ | ⟨y, hm, rfl, rfl⟩
      · rw [Function.update_of_ne hne]
        exact hh.tasks task hm
      · simp [setTaskHold]

theorem HoldsOk.delete (h : JobOk job) (hh : HoldsOk job hold) (t : ℕ) :
    HoldsOk (jobDeleteNotEnrolledJaTask job t) hold where
  ids := by
    intro x hx attr
    rw [delete_unenrolled h] at hx
    rw [delete_ids h, ← hh.ids x hx.1 attr]
    exact and_iff_left hx.2
  tasks := hh.tasks

variable {left : Set ℕ}

/-- Deleting leaves the other tasks, and those that are enrolled. -/
theorem hasTask_delete (h : JobOk job) (hleft : ∀ x, x ∈ left ↔ HasTask job x) :
    HasTask (jobDeleteNotEnrolledJaTask job t) x ↔ x ∈ (JobOp.delete t).left job left := by
  show _ ↔ x ∈ left ∧ ¬ (x = t ∧ t ∈ job.unenrolled)
  rw [hleft, HasTask, delete_unenrolled h]
  have htasks : (jobDeleteNotEnrolledJaTask job t).jaTasks = job.jaTasks := rfl
  rw [htasks, Set.mem_sdiff, Set.mem_singleton_iff]
  constructor
  · rintro (⟨hx, hne⟩ | ⟨task, hm, rfl⟩)
    · exact ⟨.inl hx, fun hxt => hne hxt.1⟩
    · refine ⟨.inr ⟨task, hm, rfl⟩, ?_⟩
      rintro ⟨rfl, hu⟩
      exact h.enrolled task hm hu
  · rintro ⟨hx | hx, hne⟩
    · exact .inl ⟨hx, fun hxt => hne ⟨hxt, hxt ▸ hx⟩⟩
    · exact .inr hx

/-! ## Reached jobs -/

theorem start_idList (submitted : Job) (attr : IdAttribute) :
    (jobInitializeIdLists submitted).idList attr =
      if attr = .nHIds then submitted.jaStructure else [] := by
  cases attr <;> rfl

theorem start_unenrolled (submitted : Job) :
    (jobInitializeIdLists submitted).unenrolled = {x | Has submitted.jaStructure x} := by
  ext x
  simp only [mem_unenrolled, start_idList, Set.mem_ofPred_eq]
  constructor
  · rintro ⟨attr, hx⟩
    split_ifs at hx
    · exact hx
    · simp at hx
  · exact fun hx => ⟨.nHIds, by simpa using hx⟩

/-- A job is submitted without enrolled tasks, and its task ids are in order, the last id of every
range on its grid. No check at submission sees to this. -/
structure Submitted (job : Job) : Prop where
  jaTasks : job.jaTasks = []
  structureOk : IdList job.jaStructure

theorem Submitted.start (h : Submitted job) : JobOk (jobInitializeIdLists job) where
  idLists := by
    intro attr
    rw [start_idList]
    split_ifs
    · exact h.structureOk
    · exact IdList.nil
  held := by
    intro attr hne x hx
    rw [start_idList, if_neg hne] at hx
    simp at hx
  numbers := by simp [jobInitializeIdLists, h.jaTasks]
  taskIds := by simp [jobInitializeIdLists, h.jaTasks]
  enrolled := by simp [jobInitializeIdLists, h.jaTasks]

/-- **The step lemma.** In a job reached no task is in two places, the tasks left are
those of the job, and the holds are where they belong. -/
theorem JobReached.keeps {submitted : Job} (hs : Submitted submitted)
    (htemplate : template.hold = 0) (h : JobReached σ template submitted job hold left) :
    JobOk job ∧ HoldsOk job hold ∧ ∀ x, x ∈ left ↔ HasTask job x := by
  induction h with
  | start =>
    have hids := start_unenrolled submitted
    have htasks : (jobInitializeIdLists submitted).jaTasks = [] := hs.jaTasks
    refine ⟨hs.start, ⟨fun x hx attr => ?_, by simp [htasks]⟩, fun x => ?_⟩
    · rw [hids] at hx
      rw [start_idList]
      cases attr with
      | nHIds => exact iff_of_true hx (takes_nHIds.mpr (by decide))
      | uHIds | oHIds | sHIds | aHIds => exact iff_of_false (by simp) (by decide)
    · simp [HasTask, htasks, hids]
  | step op hreach hlegal ih =>
    obtain ⟨hok, hh, hleft⟩ := ih
    cases op with
    | setHold t new =>
      exact ⟨hok.setHoldState new, hh.setHold hok t new,
        fun x => (hleft x).trans (jobSetHoldState_keeps hok).hasTask.symm⟩
    | enroll t =>
      exact ⟨hok.enroll template hlegal, hh.enroll template hok htemplate hlegal,
        fun x => (hleft x).trans (hasTask_enroll template hok hlegal).symm⟩
    | createTask t =>
      rw [applyJobOp, jobCreateTask]
      split_ifs
      · exact ⟨hok.enroll template hlegal, hh.enroll template hok htemplate hlegal,
          fun x => (hleft x).trans (hasTask_enroll template hok hlegal).symm⟩
      · exact ⟨hok, hh, hleft⟩
    | unenroll t =>
      obtain ⟨task, hm, rfl, hzero⟩ := hlegal
      exact ⟨hok.unenroll hm, hh.unenroll hok hm hzero,
        fun x => (hleft x).trans (hasTask_unenroll hok hm).symm⟩
    | delete t =>
      exact ⟨hok.delete t, hh.delete hok t, fun x => (hasTask_delete hok hleft).symm⟩

theorem JobOk.jaTasks_ncard (h : JobOk job) : jobGetJaTasks σ job = {x | HasTask job x}.ncard := by
  have hfin : {x | ∃ task ∈ job.jaTasks, task.number = x}.Finite := by
    refine (job.jaTasks.map JaTask.number).finite_toSet.subset ?_
    rintro x ⟨task, hm, rfl⟩
    exact List.mem_map_of_mem hm
  have hdisj : Disjoint job.unenrolled {x | ∃ task ∈ job.jaTasks, task.number = x} := by
    rw [Set.disjoint_left]
    rintro x hx ⟨task, hm, rfl⟩
    exact h.enrolled task hm hx
  rw [h.jaTasks_eq, h.length_eq, ← Set.ncard_union_eq hdisj h.unenrolled_finite hfin]
  rfl

/-- **The tasks of a job are partitioned**, and the hold of a task goes with it. -/
theorem tasks_partitioned {submitted : Job} {left : Set ℕ} (hs : Submitted submitted)
    (htemplate : template.hold = 0) (h : JobReached σ template submitted job hold left) :
    (∀ attr, attr ≠ .nHIds → ∀ x, Has (job.idList attr) x → ¬ Has (job.idList .nHIds) x) ∧
      (∀ task ∈ job.jaTasks, ∀ attr, ¬ Has (job.idList attr) task.number) ∧
      jobGetJaTasks σ job = left.ncard ∧
      ∀ x ∈ left, jobGetHoldState job x = hold x &&& minusHTgtAll := by
  obtain ⟨hok, hh, hleft⟩ := h.keeps hs htemplate
  refine ⟨hok.held, fun task hm attr hx => hok.enrolled task hm ⟨attr, hx⟩, ?_,
    fun x hx => hh.getHoldState hok ((hleft x).mp hx)⟩
  rw [hok.jaTasks_ncard]
  congr 1
  ext x
  exact (hleft x).symm

/-- Three tasks, without enrolled ones. -/
def threeTasks : Job where
  owner := "owner"
  isArray := true
  jaStructure := [⟨1, 3, 1⟩]
  ids := fun _ => none
  jaTasks := []
  jidPredecessorList := []
  jidSuccessorList := []
  jaAdRequestList := []
  jaAdPredecessorList := []
  jaAdSuccessorList := []

def templateTask : JaTask := ⟨0, 0, 0, 0, []⟩

theorem threeTasks_submitted : Submitted threeTasks where
  jaTasks := rfl
  structureOk := {
    canonical := Canonical.cons (by constructor <;> decide) (by simp) Canonical.nil
    stored := by simp [threeTasks, Stored]
    ids := by
      intro x hx
      simp only [threeTasks, has_cons, has_nil, or_false] at hx
      obtain ⟨hmin, hmax, -⟩ := hx
      exact ⟨hmin, hmax.trans_lt (by decide)⟩ }

/-- A task keeps its hold while another one is enrolled and goes back. -/
theorem tasks_partitioned_threeTasks :
    let job := [.setHold 2 minusHTgtUser, .enroll 1, .unenroll 1].foldl
      (applyJobOp sortByMin templateTask) (jobInitializeIdLists threeTasks)
    jobGetJaTasks sortByMin job = {x | Has threeTasks.jaStructure x}.ncard ∧
      jobGetHoldState job 2 = minusHTgtUser := by
  have hstart : JobReached sortByMin templateTask threeTasks (jobInitializeIdLists threeTasks)
      (fun _ => 0) {x | Has threeTasks.jaStructure x} := JobReached.start
  have hreach := ((hstart.step (.setHold 2 minusHTgtUser) trivial).step (.enroll 1)
    (has_iff.mpr (by decide))).step (.unenroll 1) ⟨{ templateTask with
      number := 1, state := jqueued ||| jwaiting }, by decide, rfl, rfl⟩
  obtain ⟨-, -, hcount, hhold⟩ := tasks_partitioned threeTasks_submitted rfl hreach
  exact ⟨hcount, hhold 2 (has_iff.mpr (by decide))⟩

/-- The tasks 1, 5 and 9, whose range ends behind the last one. -/
def tasksOffGrid : Job := { threeTasks with jaStructure := [⟨1, 10, 4⟩] }

/-- Task 9 leaves a range behind itself that begins behind its end. -/
theorem tasks_not_partitioned : ∃ job hold left,
    JobReached sortByMin templateTask tasksOffGrid job hold left ∧
      job.idList .nHIds = [⟨1, 5, 4⟩, ⟨13, 10, 4⟩] ∧ left.ncard ≤ 10 ∧
      jobGetJaTasks sortByMin job = 1073741827 := by
  refine ⟨_, _, _, JobReached.start.step (.setHold 9 minusHTgtUser) trivial, by decide, ?_,
    by decide +kernel⟩
  have hsub : {x | Has tasksOffGrid.jaStructure x} ⊆ (Finset.Icc 1 10 : Finset ℕ) := by
    intro x hx
    simp only [tasksOffGrid, Set.mem_ofPred_eq, has_cons, has_nil, or_false] at hx
    exact Finset.mem_coe.mpr (Finset.mem_Icc.mpr ⟨hx.1, hx.2.1⟩)
  exact (Set.ncard_le_ncard hsub (Finset.finite_toSet _)).trans (by simp)

end ClusterScheduler.Sgeobj
