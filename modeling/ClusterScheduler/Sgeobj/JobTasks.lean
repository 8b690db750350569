import ClusterScheduler.Sgeobj.IdLists

/-!
# Array tasks of a job

A task that has never been dispatched is only an id, in the list of the ids
without a hold or in the lists of the holds it has. A task that has been
dispatched is enrolled: it has an element of its own.

* `Job`, `JaTask` — the part of a job these functions read and write.
* `jobIsEnrolled`, `jobGetJaTasks`, `jobGetNotEnrolledJaTasks`,
  `jobGetHoldState`, `jobSetHoldState`, `jobDeleteNotEnrolledJaTask`.
* `Job.unenrolled` — the ids in the lists.
* `JobOk` — the lists are in order, and no task is in two places.
* `jobSetHoldState_keeps` — changing holds moves ids between lists only.
-/

namespace ClusterScheduler.Sgeobj

open Foundation

/-! ## Data -/

def jheld : BitVec 32 := 0x10
def jfinished : BitVec 32 := 0x10000

def minusHTgtUser : BitVec 32 := 1
def minusHTgtOperator : BitVec 32 := 2
def minusHTgtSystem : BitVec 32 := 4
def minusHTgtJaAd : BitVec 32 := 8
def minusHTgtAll : BitVec 32 := 15

/-- An enrolled task. `taskList` has the ids of its parallel tasks. -/
structure JaTask where
  number : ℕ
  status : BitVec 32
  state : BitVec 32
  hold : BitVec 32
  taskList : List String
  deriving DecidableEq

/-- The id lists of a job: no hold, then the user, operator, system and array
dependency hold. -/
inductive IdAttribute where
  | nHIds
  | uHIds
  | oHIds
  | sHIds
  | aHIds
  deriving DecidableEq

structure Job where
  owner : String
  isArray : Bool
  jaStructure : List Range
  ids : IdAttribute → Option (List Range)
  jaTasks : List JaTask
  jidPredecessorList : List ℕ
  jidSuccessorList : List ℕ
  jaAdRequestList : List String
  jaAdPredecessorList : List ℕ
  jaAdSuccessorList : List ℕ

def idAttributes : List IdAttribute := [.nHIds, .uHIds, .oHIds, .sHIds, .aHIds]

/-- The hold an id in a list has; the list without a hold stands against all. -/
def IdAttribute.mask : IdAttribute → BitVec 32
  | nHIds => minusHTgtAll
  | uHIds => minusHTgtUser
  | oHIds => minusHTgtOperator
  | sHIds => minusHTgtSystem
  | aHIds => minusHTgtJaAd

/-! ## Functions of the source -/

def Job.idList (job : Job) (attr : IdAttribute) : List Range :=
  (job.ids attr).getD []

def jobIsEnrolled (job : Job) (taskNumber : ℕ) : Bool :=
  !idAttributes.any fun attr => rangeListIsIdWithin (job.idList attr) taskNumber

def jobSearchTask (job : Job) (jaTaskId : ℕ) : Option JaTask :=
  job.jaTasks.find? (·.number = jaTaskId)

/-- First id, last id and step the job was submitted with. -/
def jobGetSubmitTaskIds (job : Job) : ℕ × ℕ × ℕ :=
  match job.jaStructure with
  | range :: _ => (range.min, range.max, if range.step ≠ 0 then range.step else 1)
  | [] => (1, 1, 1)

def jobGetNotEnrolledJaTasks (σ : Sorter) (job : Job) : ℕ :=
  let uoIds := rangeListCalculateUnionSet σ (job.ids .uHIds) (job.ids .oHIds)
  let uosIds := rangeListCalculateUnionSet σ uoIds (job.ids .sHIds)
  let uosaIds := rangeListCalculateUnionSet σ uosIds (job.ids .aHIds)
  add32 (rangeListGetNumberOfIds (job.idList .nHIds))
    (rangeListGetNumberOfIds (uosaIds.getD []))

def jobGetEnrolledJaTasks (job : Job) : ℕ := job.jaTasks.length

def jobGetJaTasks (σ : Sorter) (job : Job) : ℕ :=
  add32 (jobGetNotEnrolledJaTasks σ job) (jobGetEnrolledJaTasks job)

def objectDeleteRangeId (l : Option (List Range)) (id : ℕ) : Option (List Range) :=
  (rangeListRemoveId l id).map rangeListCompress

def jobDeleteNotEnrolledJaTask (job : Job) (jaTaskNumber : ℕ) : Job :=
  { job with ids := fun attr => objectDeleteRangeId (job.ids attr) jaTaskNumber }

def jobAccumulateHoldFlags (job : Job) (jaTaskId : ℕ) : BitVec 32 :=
  [IdAttribute.uHIds, .oHIds, .sHIds, .aHIds].foldl (fun ret attr =>
    if rangeListIsIdWithin (job.idList attr) jaTaskId then ret ||| attr.mask
    else ret) 0

def jobGetHoldState (job : Job) (jaTaskId : ℕ) : BitVec 32 :=
  if jobIsEnrolled job jaTaskId then
    match jobSearchTask job jaTaskId with
    | some jaTask => jaTask.hold &&& minusHTgtAll
    | none => 0
  else jobAccumulateHoldFlags job jaTaskId

def IdAttribute.takes (newHoldState : BitVec 32) : IdAttribute → Bool
  | nHIds => newHoldState &&& minusHTgtAll = 0
  | attr => newHoldState &&& attr.mask ≠ 0

/-- Insert or remove one id, an absent list is created. -/
def moveId (σ : Sorter) (insert : Bool) (l : Option (List Range)) (id : ℕ) :
    Option (List Range) :=
  (if insert then some (rangeListInsertId σ (l.getD []) id)
    else rangeListRemoveId l id).map rangeListCompress

/-- Apply a change to the first enrolled task with a number. -/
def modifyTask (jaTaskId : ℕ) (f : JaTask → JaTask) : List JaTask → List JaTask
  | [] => []
  | jaTask :: rest =>
    if jaTask.number = jaTaskId then f jaTask :: rest
    else jaTask :: modifyTask jaTaskId f rest

def setTaskHold (newHoldState : BitVec 32) (jaTask : JaTask) : JaTask :=
  { jaTask with
    hold := newHoldState
    state := if newHoldState ≠ 0 then jaTask.state ||| jheld else jaTask.state &&& ~~~jheld }

def jobSetHoldState (σ : Sorter) (job : Job) (jaTaskId : ℕ) (newHoldState : BitVec 32) :
    Job :=
  if !jobIsEnrolled job jaTaskId then
    { job with
      ids := fun attr =>
        moveId σ (attr.takes newHoldState) (job.ids attr) jaTaskId }
  else
    { job with jaTasks := modifyTask jaTaskId (setTaskHold newHoldState) job.jaTasks }

/-! ## Ids in the lists -/

def Job.unenrolled (job : Job) : Set ℕ := {x | ∃ attr, Has (job.idList attr) x}

/-- The lists of a job are in order, and no task is in two places. -/
structure JobOk (job : Job) : Prop where
  idLists : ∀ attr, IdList (job.idList attr)
  held : ∀ attr, attr ≠ .nHIds → ∀ x, Has (job.idList attr) x →
    ¬ Has (job.idList .nHIds) x
  numbers : (job.jaTasks.map JaTask.number).Nodup
  taskIds : ∀ t ∈ job.jaTasks, IsTaskId t.number
  enrolled : ∀ t ∈ job.jaTasks, t.number ∉ job.unenrolled

variable {σ : Sorter} {job : Job} {x t : ℕ}

theorem mem_unenrolled : x ∈ job.unenrolled ↔ ∃ attr, Has (job.idList attr) x := Iff.rfl

theorem mem_idAttributes (attr : IdAttribute) : attr ∈ idAttributes := by
  cases attr <;> simp [idAttributes]

theorem jobIsEnrolled_iff : jobIsEnrolled job x = true ↔ x ∉ job.unenrolled := by
  rw [jobIsEnrolled, Bool.not_eq_true', List.any_eq_false]
  constructor
  · rintro h ⟨attr, hx⟩
    exact h attr (mem_idAttributes attr) (has_iff.mp hx)
  · intro h attr _ hx
    exact h ⟨attr, has_iff.mpr hx⟩

theorem jobIsEnrolled_false_iff : jobIsEnrolled job x = false ↔ x ∈ job.unenrolled := by
  rw [← not_iff_not, Bool.not_eq_false, jobIsEnrolled_iff]

instance (job : Job) (x : ℕ) : Decidable (x ∈ job.unenrolled) :=
  decidable_of_iff _ jobIsEnrolled_false_iff

theorem unenrolled_eq : job.unenrolled = idSet (job.idList .nHIds) ∪
    {x | ∃ attr, attr ≠ .nHIds ∧ Has (job.idList attr) x} := by
  ext x
  constructor
  · rintro ⟨attr, hx⟩
    by_cases hn : attr = .nHIds
    · exact .inl (hn ▸ hx)
    · exact .inr ⟨attr, hn, hx⟩
  · rintro (hx | ⟨attr, -, hx⟩)
    · exact ⟨_, hx⟩
    · exact ⟨_, hx⟩

namespace JobOk

variable (h : JobOk job)
include h

theorem unenrolled_isTaskId (hx : x ∈ job.unenrolled) : IsTaskId x := by
  obtain ⟨attr, hx⟩ := hx
  exact (h.idLists attr).ids x hx

theorem unenrolled_finite : job.unenrolled.Finite :=
  (Set.finite_Ico 1 (2 ^ 31)).subset fun _ hx => h.unenrolled_isTaskId hx

theorem search_of_mem {jaTask : JaTask} (hm : jaTask ∈ job.jaTasks) :
    jobSearchTask job jaTask.number = some jaTask := by
  have hnodup := h.numbers
  rw [jobSearchTask]
  generalize job.jaTasks = l at hm hnodup
  induction l with
  | nil => cases hm
  | cons y l ih =>
    rw [List.map_cons, List.nodup_cons] at hnodup
    rcases List.mem_cons.mp hm with rfl | hm
    · simp
    · have hne : y.number ≠ jaTask.number := fun heq =>
        hnodup.1 (heq ▸ List.mem_map_of_mem hm)
      rw [List.find?_cons_of_neg (by simpa using hne)]
      exact ih hm hnodup.2

theorem count_held :
    ∃ l, IdList l ∧ (∀ x, Has l x ↔ ∃ attr, attr ≠ .nHIds ∧ Has (job.idList attr) x) ∧
      jobGetNotEnrolledJaTasks σ job =
        add32 (rangeListGetNumberOfIds (job.idList .nHIds)) (rangeListGetNumberOfIds l) := by
  obtain ⟨h1, ids1⟩ := IdList.union σ (h.idLists .uHIds) (h.idLists .oHIds)
  obtain ⟨h2, ids2⟩ := IdList.union σ h1 (h.idLists .sHIds)
  obtain ⟨h3, ids3⟩ := IdList.union σ h2 (h.idLists .aHIds)
  refine ⟨_, h3, fun x => ?_, rfl⟩
  rw [ids3, ids2, ids1]
  constructor
  · rintro (((hx | hx) | hx) | hx)
    · exact ⟨.uHIds, by decide, hx⟩
    · exact ⟨.oHIds, by decide, hx⟩
    · exact ⟨.sHIds, by decide, hx⟩
    · exact ⟨.aHIds, by decide, hx⟩
  · rintro ⟨attr, hne, hx⟩
    cases attr with
    | nHIds => exact absurd rfl hne
    | uHIds => exact .inl (.inl (.inl hx))
    | oHIds => exact .inl (.inl (.inr hx))
    | sHIds => exact .inl (.inr hx)
    | aHIds => exact .inr hx

/-- **Counting the ids** that are not enrolled. -/
theorem notEnrolled_eq : jobGetNotEnrolledJaTasks σ job = job.unenrolled.ncard := by
  obtain ⟨l, hl, hids, heq⟩ := h.count_held (σ := σ)
  have hn := h.idLists .nHIds
  have hset : {x | ∃ attr, attr ≠ .nHIds ∧ Has (job.idList attr) x} =
      idSet l := by
    ext x
    exact (hids x).symm
  have hdisj : Disjoint (idSet (job.idList .nHIds)) (idSet l) := by
    rw [Set.disjoint_left]
    intro x hx hx'
    obtain ⟨attr, hne, hx''⟩ := (hids x).mp hx'
    exact h.held attr hne x hx'' hx
  have hlt := hn.ncard_lt
  have hlt' := hl.ncard_lt
  rw [heq, hn.count, hl.count, unenrolled_eq, hset,
    Set.ncard_union_eq hdisj hn.idSet_finite hl.idSet_finite]
  exact Nat.mod_eq_of_lt (by omega)

theorem length_eq : job.jaTasks.length = {x | ∃ t ∈ job.jaTasks, t.number = x}.ncard := by
  have hset : {x | ∃ t ∈ job.jaTasks, t.number = x} =
      ((job.jaTasks.map JaTask.number).toFinset : Set ℕ) := by
    ext x
    simp
  rw [hset, Set.ncard_coe_finset, List.toFinset_card_of_nodup h.numbers, List.length_map]

/-- **Counting all tasks** of a job. -/
theorem jaTasks_eq : jobGetJaTasks σ job = job.unenrolled.ncard + job.jaTasks.length := by
  have hsub : job.unenrolled ∪ {x | ∃ t ∈ job.jaTasks, t.number = x} ⊆
      Set.Ico 1 (2 ^ 31) := by
    rintro x (hx | ⟨t, ht, rfl⟩)
    · exact h.unenrolled_isTaskId hx
    · exact h.taskIds t ht
  have hdisj : Disjoint job.unenrolled {x | ∃ t ∈ job.jaTasks, t.number = x} := by
    rw [Set.disjoint_left]
    rintro x hx ⟨t, ht, rfl⟩
    exact h.enrolled t ht hx
  have hfin := Set.finite_Ico 1 (2 ^ 31)
  have hcard : (Set.Ico 1 (2 ^ 31)).ncard = 2 ^ 31 - 1 := by
    rw [Set.ncard_eq_toFinset_card', Set.toFinset_Ico, Nat.card_Ico]
  have hle := Set.ncard_le_ncard hsub hfin
  rw [Set.ncard_union_eq hdisj h.unenrolled_finite
    (hfin.subset (Set.subset_union_right.trans hsub)), ← h.length_eq] at hle
  rw [jobGetJaTasks, h.notEnrolled_eq, jobGetEnrolledJaTasks]
  exact Nat.mod_eq_of_lt (by omega)

end JobOk

/-! ## Changing the lists -/

structure SameSubmit (job job' : Job) : Prop where
  isArray : job'.isArray = job.isArray
  jaStructure : job'.jaStructure = job.jaStructure
  jaAdRequestList : job'.jaAdRequestList = job.jaAdRequestList
  jaAdSuccessorList : job'.jaAdSuccessorList = job.jaAdSuccessorList

theorem SameSubmit.refl (job : Job) : SameSubmit job job := ⟨rfl, rfl, rfl, rfl⟩

variable {job' : Job}

variable {job'' : Job}

theorem SameSubmit.trans {job : Job} (h : SameSubmit job job')
    (h' : SameSubmit job' job'') : SameSubmit job job'' where
  isArray := h'.isArray.trans h.isArray
  jaStructure := h'.jaStructure.trans h.jaStructure
  jaAdRequestList := h'.jaAdRequestList.trans h.jaAdRequestList
  jaAdSuccessorList := h'.jaAdSuccessorList.trans h.jaAdSuccessorList

/-- The tasks of a job are the same when holds do not count: the ids that are not
enrolled, and the number and status of those that are. -/
structure SameTasks (job job' : Job) : Prop extends SameSubmit job job' where
  unenrolled : job'.unenrolled = job.unenrolled
  jaTasks : job'.jaTasks.map (fun t => (t.number, t.status)) =
    job.jaTasks.map (fun t => (t.number, t.status))

theorem SameTasks.refl (job : Job) : SameTasks job job := ⟨SameSubmit.refl job, rfl, rfl⟩

theorem SameTasks.trans {job : Job} (h : SameTasks job job')
    (h' : SameTasks job' job'') : SameTasks job job'' where
  toSameSubmit := h.toSameSubmit.trans h'.toSameSubmit
  unenrolled := h'.unenrolled.trans h.unenrolled
  jaTasks := h'.jaTasks.trans h.jaTasks

theorem getD_objectDeleteRangeId (l : Option (List Range)) (id : ℕ) :
    (objectDeleteRangeId l id).getD [] = rangeListCompress (removeIdLoop id (l.getD [])) := by
  rw [objectDeleteRangeId, getD_map_compress, getD_removeId]

variable {l : Option (List Range)}

theorem objectDeleteRangeId_spec (h : IdList (l.getD [])) (id : ℕ) :
    IdList ((objectDeleteRangeId l id).getD []) ∧
      ∀ x, Has ((objectDeleteRangeId l id).getD []) x ↔ Has (l.getD []) x ∧ x ≠ id := by
  obtain ⟨hr, hids⟩ := h.remove id
  obtain ⟨hc, hids'⟩ := hr.compress
  rw [getD_objectDeleteRangeId]
  exact ⟨hc, fun x => by rw [hids', hids]⟩

theorem moveId_spec (σ : Sorter) (h : IdList (l.getD []))
    {id : ℕ} (hid : IsTaskId id) (insert : Bool) :
    IdList ((moveId σ insert l id).getD []) ∧
      ∀ x, Has ((moveId σ insert l id).getD []) x ↔
        if x = id then insert = true else Has (l.getD []) x := by
  cases insert with
  | true =>
    obtain ⟨hi, hids⟩ := h.insert σ hid
    obtain ⟨hc, hids'⟩ := hi.compress
    refine ⟨hc, fun x => ?_⟩
    show Has (rangeListCompress _) x ↔ _
    rw [hids', hids]
    split_ifs with hx <;> simp [hx]
  | false =>
    obtain ⟨hc, hids⟩ := objectDeleteRangeId_spec h id
    refine ⟨hc, fun x => (hids x).trans ?_⟩
    split_ifs with hx <;> simp [hx]

theorem delete_ids (h : JobOk job) (t : ℕ) (attr : IdAttribute) (x : ℕ) :
    Has ((jobDeleteNotEnrolledJaTask job t).idList attr) x ↔
      Has (job.idList attr) x ∧ x ≠ t :=
  (objectDeleteRangeId_spec (h.idLists attr) t).2 x

theorem delete_unenrolled (h : JobOk job) (t : ℕ) :
    (jobDeleteNotEnrolledJaTask job t).unenrolled = job.unenrolled \ {t} := by
  ext x
  constructor
  · rintro ⟨attr, hx⟩
    obtain ⟨hx, hne⟩ := (delete_ids h t attr x).mp hx
    exact ⟨⟨attr, hx⟩, hne⟩
  · rintro ⟨⟨attr, hx⟩, hne⟩
    exact ⟨attr, (delete_ids h t attr x).mpr ⟨hx, hne⟩⟩

theorem JobOk.delete (h : JobOk job) (t : ℕ) : JobOk (jobDeleteNotEnrolledJaTask job t) where
  idLists := fun attr => (objectDeleteRangeId_spec (h.idLists attr) t).1
  held := by
    intro attr hne x hx hn
    exact h.held attr hne x ((delete_ids h t attr x).mp hx).1 ((delete_ids h t _ x).mp hn).1
  numbers := h.numbers
  taskIds := h.taskIds
  enrolled := by
    intro task ht hmem
    rw [delete_unenrolled h] at hmem
    exact h.enrolled task ht hmem.1

/-! ## Holds -/

variable {new : BitVec 32}

theorem takes_nHIds : IdAttribute.nHIds.takes new = true ↔ new &&& minusHTgtAll = 0 := by
  simp [IdAttribute.takes]

variable {attr : IdAttribute}

theorem takes_of_ne (hne : attr ≠ .nHIds) : attr.takes new = true ↔ new &&& attr.mask ≠ 0 := by
  cases attr with
  | nHIds => exact absurd rfl hne
  | uHIds | oHIds | sHIds | aHIds => simp [IdAttribute.takes]

theorem mask_and_all : minusHTgtAll &&& attr.mask = attr.mask := by
  cases attr <;> decide

theorem all_eq_or : minusHTgtAll =
    minusHTgtUser ||| minusHTgtOperator ||| minusHTgtSystem ||| minusHTgtJaAd := by decide

/-- A hold state puts an id into the list without a hold or into others. -/
theorem takes_exclusive (hne : attr ≠ .nHIds)
    (h : attr.takes new = true) : ¬ IdAttribute.nHIds.takes new = true := by
  rw [takes_nHIds]
  intro hall
  rw [takes_of_ne hne, ← mask_and_all, ← BitVec.and_assoc, hall] at h
  exact h BitVec.zero_and

theorem exists_takes (new : BitVec 32) : ∃ attr : IdAttribute, attr.takes new = true := by
  by_contra hnone
  push Not at hnone
  have hzero : ∀ attr : IdAttribute, attr ≠ .nHIds → new &&& attr.mask = 0 := fun attr hne =>
    not_not.mp (mt (takes_of_ne hne).mpr (hnone attr))
  have hu : new &&& minusHTgtUser = 0 := hzero .uHIds (by decide)
  have ho : new &&& minusHTgtOperator = 0 := hzero .oHIds (by decide)
  have hs : new &&& minusHTgtSystem = 0 := hzero .sHIds (by decide)
  have ha : new &&& minusHTgtJaAd = 0 := hzero .aHIds (by decide)
  apply hnone .nHIds
  rw [takes_nHIds, all_eq_or, BitVec.and_or_distrib_left, BitVec.and_or_distrib_left,
    BitVec.and_or_distrib_left, hu, ho, hs, ha]
  decide

section SetHoldState

variable {new : BitVec 32}

theorem jobSetHoldState_of_mem (ht : t ∈ job.unenrolled) :
    jobSetHoldState σ job t new =
      { job with ids := fun attr => moveId σ (attr.takes new) (job.ids attr) t } := by
  rw [jobSetHoldState, jobIsEnrolled_false_iff.mpr ht]
  rfl

theorem jobSetHoldState_of_not_mem (ht : t ∉ job.unenrolled) :
    jobSetHoldState σ job t new =
      { job with jaTasks := modifyTask t (setTaskHold new) job.jaTasks } := by
  rw [jobSetHoldState, jobIsEnrolled_iff.mpr ht]
  rfl

/-- Where the ids are after the hold of a task has been changed. -/
theorem has_setHoldState (h : JobOk job) (attr : IdAttribute) (x : ℕ) :
    Has ((jobSetHoldState σ job t new).idList attr) x ↔
      if x = t ∧ t ∈ job.unenrolled then attr.takes new = true
      else Has (job.idList attr) x := by
  by_cases ht : t ∈ job.unenrolled
  · rw [jobSetHoldState_of_mem ht]
    refine ((moveId_spec σ (h.idLists attr) (h.unenrolled_isTaskId ht) _).2 x).trans ?_
    simp only [ht, and_true]
    rfl
  · rw [jobSetHoldState_of_not_mem ht, if_neg fun hx => ht hx.2]
    rfl

/-- A change that is not seen by `g`. -/
theorem modifyTask_map {α : Type} {f : JaTask → JaTask} {g : JaTask → α}
    (hg : ∀ y, g (f y) = g y) (l : List JaTask) : (modifyTask t f l).map g = l.map g := by
  induction l with
  | nil => rfl
  | cons y l ih =>
    rw [modifyTask]
    split
    · rw [List.map_cons, hg, List.map_cons]
    · rw [List.map_cons, ih, List.map_cons]

theorem unenrolled_setHoldState (h : JobOk job) :
    (jobSetHoldState σ job t new).unenrolled = job.unenrolled := by
  ext x
  simp only [mem_unenrolled, has_setHoldState h]
  by_cases hx : x = t ∧ t ∈ job.unenrolled
  · simp only [hx, and_self, if_true]
    exact iff_of_true (exists_takes new) hx.2
  · simp only [hx, if_false]

/-- **Changing a hold** moves the id of a task between the lists, or sets the hold
of its element; the tasks stay the same. -/
theorem jobSetHoldState_keeps (h : JobOk job) : SameTasks job (jobSetHoldState σ job t new) := by
  have hunenrolled : (jobSetHoldState σ job t new).unenrolled = job.unenrolled :=
    unenrolled_setHoldState h
  by_cases ht : t ∈ job.unenrolled
  · rw [jobSetHoldState_of_mem ht] at hunenrolled ⊢
    exact ⟨⟨rfl, rfl, rfl, rfl⟩, hunenrolled, rfl⟩
  · rw [jobSetHoldState_of_not_mem ht] at hunenrolled ⊢
    have htasks := modifyTask_map (t := t) (f := setTaskHold new)
      (g := fun t => (t.number, t.status)) (fun _ => rfl) job.jaTasks
    exact ⟨⟨rfl, rfl, rfl, rfl⟩, hunenrolled, htasks⟩

end SetHoldState

theorem SameTasks.numbers {job : Job} (h : SameTasks job job') :
    job'.jaTasks.map JaTask.number = job.jaTasks.map JaTask.number := by
  have hmap := congrArg (List.map Prod.fst) h.jaTasks
  rwa [List.map_map, List.map_map] at hmap

theorem JobOk.of_same {job : Job} (h : JobOk job) (hsame : SameTasks job job')
    (hlists : ∀ attr, IdList (job'.idList attr))
    (hheld : ∀ attr, attr ≠ .nHIds → ∀ x, Has (job'.idList attr) x → ¬ Has (job'.idList .nHIds) x) :
    JobOk job' where
  idLists := hlists
  held := hheld
  numbers := hsame.numbers ▸ h.numbers
  taskIds := by
    intro task ht
    obtain ⟨y, hy, heq⟩ := List.mem_map.mp (hsame.numbers ▸ List.mem_map_of_mem ht)
    exact heq ▸ h.taskIds y hy
  enrolled := by
    intro task ht
    obtain ⟨y, hy, heq⟩ := List.mem_map.mp (hsame.numbers ▸ List.mem_map_of_mem ht)
    rw [hsame.unenrolled, ← heq]
    exact h.enrolled y hy

theorem JobOk.setHoldState (h : JobOk job) (new : BitVec 32) :
    JobOk (jobSetHoldState σ job t new) := by
  refine h.of_same (jobSetHoldState_keeps h) (fun attr => ?_) (fun attr hne x => ?_)
  · by_cases ht : t ∈ job.unenrolled
    · rw [jobSetHoldState_of_mem ht]
      exact (moveId_spec σ (h.idLists attr) (h.unenrolled_isTaskId ht) _).1
    · rw [jobSetHoldState_of_not_mem ht]
      exact h.idLists attr
  · rw [has_setHoldState h, has_setHoldState h]
    split_ifs
    · exact takes_exclusive hne
    · exact h.held attr hne x

/-! ## The array dependency hold -/

/-- The task is held by an array dependency. -/
def AdHeld (job : Job) (x : ℕ) : Prop := jobGetHoldState job x &&& minusHTgtJaAd ≠ 0

/-- Only the list of the array dependency hold decides about an id. -/
theorem adHeld_of_mem (hx : x ∈ job.unenrolled) : AdHeld job x ↔ Has (job.idList .aHIds) x := by
  have hmask : IdAttribute.aHIds.mask = minusHTgtJaAd := rfl
  have hu : IdAttribute.uHIds.mask &&& minusHTgtJaAd = 0 := by decide
  have ho : IdAttribute.oHIds.mask &&& minusHTgtJaAd = 0 := by decide
  have hs : IdAttribute.sHIds.mask &&& minusHTgtJaAd = 0 := by decide
  -- the flags of the three other lists are lost in the mask
  have hflag : ∀ (attr : IdAttribute) (ret : BitVec 32),
      attr.mask &&& minusHTgtJaAd = 0 → ret &&& minusHTgtJaAd = 0 →
      (if rangeListIsIdWithin (job.idList attr) x then ret ||| attr.mask else ret) &&&
        minusHTgtJaAd = 0 := by
    intro attr ret hattr hret
    split_ifs
    · rw [BitVec.and_or_distrib_right, hattr, hret]
      rfl
    · exact hret
  rw [AdHeld, jobGetHoldState, jobIsEnrolled_false_iff.mpr hx, if_neg (by simp),
    jobAccumulateHoldFlags]
  simp only [List.foldl_cons, List.foldl_nil]
  have hbefore := hflag .sHIds _ hs (hflag .oHIds _ ho (hflag .uHIds 0 hu (by decide)))
  generalize (if rangeListIsIdWithin (job.idList .sHIds) x then _ else _) = ret at hbefore ⊢
  rw [has_iff]
  split_ifs with ha
  · rw [BitVec.and_or_distrib_right, hbefore, hmask]
    exact iff_of_true (by decide) ha
  · exact iff_of_false (not_not.mpr hbefore) ha

theorem modifyTask_find (f : JaTask → JaTask) (hf : ∀ y, (f y).number = y.number)
    (l : List JaTask) :
    (modifyTask t f l).find? (·.number = x) =
      if x = t then (l.find? (·.number = x)).map f else l.find? (·.number = x) := by
  induction l with
  | nil => simp [modifyTask]
  | cons y l ih =>
    by_cases hy : y.number = t
    · rw [modifyTask, if_pos hy]
      by_cases hx : x = t
      · simp [hx, hf, hy]
      · have hne : y.number ≠ x := fun h => hx (h.symm.trans hy)
        simp [hx, hf, hne]
    · rw [modifyTask, if_neg hy]
      by_cases hyx : y.number = x
      · have hx : x ≠ t := fun h => hy (hyx.trans h)
        simp [hyx, hx]
      · simp [hyx, ih]

theorem adHeld_set_of_ne (h : JobOk job) (hne : x ≠ t) :
    AdHeld (jobSetHoldState σ job t new) x ↔ AdHeld job x := by
  by_cases hx : x ∈ job.unenrolled
  · have hx' : x ∈ (jobSetHoldState σ job t new).unenrolled := by
      rwa [unenrolled_setHoldState h]
    rw [adHeld_of_mem hx', adHeld_of_mem hx, has_setHoldState h, if_neg fun hx => hne hx.1]
  · have hx' : x ∉ (jobSetHoldState σ job t new).unenrolled := by
      rwa [unenrolled_setHoldState h]
    have hsearch : jobSearchTask (jobSetHoldState σ job t new) x = jobSearchTask job x := by
      by_cases ht : t ∈ job.unenrolled
      · rw [jobSetHoldState_of_mem ht]
        rfl
      · rw [jobSetHoldState_of_not_mem ht]
        exact (modifyTask_find (setTaskHold new) (fun _ => rfl) job.jaTasks).trans
          (if_neg hne)
    rw [AdHeld, AdHeld, jobGetHoldState, jobGetHoldState, jobIsEnrolled_iff.mpr hx,
      jobIsEnrolled_iff.mpr hx', hsearch, if_pos rfl, if_pos rfl]

def HasTask (job : Job) (x : ℕ) : Prop :=
  x ∈ job.unenrolled ∨ ∃ task ∈ job.jaTasks, task.number = x

theorem search_of_hasTask (hx : HasTask job x) (hu : x ∉ job.unenrolled) :
    ∃ task, jobSearchTask job x = some task := by
  obtain ⟨task, ht, rfl⟩ := hx.resolve_left hu
  rw [← Option.isSome_iff_exists, jobSearchTask, List.find?_isSome]
  exact ⟨task, ht, by simp⟩

theorem adHeld_set_self (h : JobOk job) (ht : HasTask job t) :
    AdHeld (jobSetHoldState σ job t new) t ↔ new &&& minusHTgtJaAd ≠ 0 := by
  by_cases hu : t ∈ job.unenrolled
  · have hu' : t ∈ (jobSetHoldState σ job t new).unenrolled := by
      rwa [unenrolled_setHoldState h]
    rw [adHeld_of_mem hu', has_setHoldState h, if_pos ⟨rfl, hu⟩, takes_of_ne (by decide)]
    rfl
  · have hu' : t ∉ (jobSetHoldState σ job t new).unenrolled := by
      rwa [unenrolled_setHoldState h]
    obtain ⟨task, hfind⟩ := search_of_hasTask ht hu
    have hsearch : jobSearchTask (jobSetHoldState σ job t new) t =
        some (setTaskHold new task) := by
      rw [jobSetHoldState_of_not_mem hu]
      refine (modifyTask_find (setTaskHold new) (fun _ => rfl) job.jaTasks).trans ?_
      rw [if_pos rfl]
      exact congrArg (Option.map (setTaskHold new)) hfind
    rw [AdHeld, jobGetHoldState, jobIsEnrolled_iff.mpr hu', if_pos rfl, hsearch]
    show new &&& minusHTgtAll &&& minusHTgtJaAd ≠ 0 ↔ _
    rw [BitVec.and_assoc]
    exact Iff.rfl

end ClusterScheduler.Sgeobj
