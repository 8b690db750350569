import ClusterScheduler.Sgeobj.JobEnroll

/-!
# Requests that change holds

A user, an operator or a manager adds holds to a task, takes them away, or sets them.

* `modTaskAttributes` — one request for one task.
* `HoldTarget`, `Authority` — the four holds, and who may change them.
* `Authorised` — a request changes only what its user may change.
* `Entitled` — the condition under which it does.
* `authorised_run_iff` — a run of requests is authorised exactly when all are entitled.

The value of a share is not part of the model, only who may set it.
-/

namespace ClusterScheduler.Qmaster

open Sgeobj

/-! ## Data -/

def minusHCmdAdd : BitVec 32 := 0
def minusHCmdSub : BitVec 32 := 16
def minusHCmdSet : BitVec 32 := 32

/-- Who sends a request, and what `manop_is_manager()` and `manop_is_operator()` say. -/
structure Packet where
  user : String
  isManager : Bool
  isOperator : Bool

/-- The fields of a request element for a task that are there. -/
structure TaskChange where
  setsShare : Bool
  hold : Option (BitVec 32)

inductive ModStatus where
  | ok
  | enoopr
  deriving DecidableEq

/-- Which hold was refused, and whether it was to be removed. -/
inductive HoldAnswer where
  | mustBeOperatorForShare
  | mustBeManager (isSubOpCode : Bool)
  | mustBeOperator (isSubOpCode : Bool)
  | mustBeJobOwner (isSubOpCode : Bool)
  | shareSet
  | holdModified (isArray : Bool)
  deriving DecidableEq

structure ModResult where
  status : ModStatus
  job : Job
  change : TaskChange
  answers : List HoldAnswer

/-! ## One request -/

def opCode (opCodeAndHold : BitVec 32) : BitVec 32 := opCodeAndHold &&& ~~~minusHTgtAll

def holdTarget (opCodeAndHold : BitVec 32) : BitVec 32 := opCodeAndHold &&& minusHTgtAll

def newHold (oldHold opCodeAndHold : BitVec 32) : BitVec 32 :=
  if opCode opCodeAndHold = minusHCmdSub then oldHold &&& ~~~holdTarget opCodeAndHold
  else if opCode opCodeAndHold = minusHCmdAdd then oldHold ||| holdTarget opCodeAndHold
  else if opCode opCodeAndHold = minusHCmdSet then holdTarget opCodeAndHold
  else oldHold

/-- The first hold among the targets that the user must not change, with the answer. -/
def refusedHold (packet : Packet) (owner : String) (opCodeAndHold : BitVec 32) :
    Option (BitVec 32 × HoldAnswer) :=
  let target := holdTarget opCodeAndHold
  let isSubOpCode := decide (opCode opCodeAndHold = minusHCmdSub)
  if target &&& minusHTgtSystem = minusHTgtSystem ∧ packet.isManager = false then
    some (minusHTgtSystem, .mustBeManager isSubOpCode)
  else if target &&& minusHTgtOperator = minusHTgtOperator ∧ packet.isOperator = false then
    some (minusHTgtOperator, .mustBeOperator isSubOpCode)
  else if target &&& minusHTgtUser = minusHTgtUser ∧
      packet.user ≠ owner ∧ packet.isOperator = false then
    some (minusHTgtUser, .mustBeJobOwner isSubOpCode)
  else none

/-- The hold of a request is refused only when it would change something. The refused
target is taken out of the request. -/
def modTaskHold (σ : Sorter) (packet : Packet) (job : Job) (jaTaskId : ℕ) (change : TaskChange)
    (opCodeAndHold : BitVec 32) : ModResult :=
  let old := jobGetHoldState job jaTaskId
  let new := newHold old opCodeAndHold
  match if new ≠ old then refusedHold packet job.owner opCodeAndHold else none with
  | some (refused, answer) =>
    ⟨.enoopr, job, { change with hold := some (opCodeAndHold &&& ~~~refused) }, [answer]⟩
  | none =>
    ⟨.ok, jobSetHoldState σ job jaTaskId new, change,
      if new ≠ old then [.holdModified job.isArray] else []⟩

def modTaskAttributes (σ : Sorter) (packet : Packet) (job : Job) (jaTaskId : ℕ)
    (change : TaskChange) (isTaskEnrolled : Bool) : ModResult :=
  let setsShare := isTaskEnrolled && change.setsShare
  if setsShare && !packet.isOperator then ⟨.enoopr, job, change, [.mustBeOperatorForShare]⟩
  else
    let answers := if setsShare then [.shareSet] else []
    match change.hold with
    | none => ⟨.ok, job, change, answers⟩
    | some opCodeAndHold =>
      let r := modTaskHold σ packet job jaTaskId change opCodeAndHold
      { r with answers := answers ++ r.answers }

/-! ## Who may change what -/

/-- The holds of a task. -/
inductive HoldTarget where
  | user
  | operator
  | system
  | jaAd
  deriving DecidableEq

def HoldTarget.mask : HoldTarget → BitVec 32
  | user => minusHTgtUser
  | operator => minusHTgtOperator
  | system => minusHTgtSystem
  | jaAd => minusHTgtJaAd

/-- The hold is set. -/
def HoldTarget.In (tgt : HoldTarget) (hold : BitVec 32) : Prop := hold &&& tgt.mask ≠ 0

instance (tgt : HoldTarget) (hold : BitVec 32) : Decidable (tgt.In hold) :=
  inferInstanceAs (Decidable (_ ≠ _))

/-- The system hold needs a manager, the operator hold an operator, the user hold the owner or
an operator. The array dependency hold is no one's. -/
def Authority (packet : Packet) (owner : String) : HoldTarget → Prop
  | .system => packet.isManager = true
  | .operator => packet.isOperator = true
  | .user => packet.user = owner ∨ packet.isOperator = true
  | .jaAd => False

/-- One request of a run. -/
structure HoldRequest where
  packet : Packet
  jaTaskId : ℕ
  change : TaskChange
  isTaskEnrolled : Bool

def HoldRequest.perform (σ : Sorter) (job : Job) (r : HoldRequest) : ModResult :=
  modTaskAttributes σ r.packet job r.jaTaskId r.change r.isTaskEnrolled

/-- An accepted request changes with authority, a refused one changes no hold. -/
def Authorised (σ : Sorter) (job : Job) (r : HoldRequest) : Prop :=
  ((r.perform σ job).status = .ok → ∀ x, HasTask job x → ∀ tgt : HoldTarget,
    (tgt.In (jobGetHoldState (r.perform σ job).job x) ↔ tgt.In (jobGetHoldState job x)) ∨
      Authority r.packet job.owner tgt) ∧
  ((r.perform σ job).status ≠ .ok → ∀ x, HasTask job x →
    jobGetHoldState (r.perform σ job).job x = jobGetHoldState job x)

/-- Nothing that is held is removed, only what is held is added, and exactly what is held is
set. -/
structure HoldTarget.Kept (tgt : HoldTarget) (oldHold opCodeAndHold : BitVec 32) : Prop where
  sub : opCode opCodeAndHold = minusHCmdSub → tgt.In (holdTarget opCodeAndHold) → ¬ tgt.In oldHold
  add : opCode opCodeAndHold = minusHCmdAdd → tgt.In (holdTarget opCodeAndHold) → tgt.In oldHold
  set : opCode opCodeAndHold = minusHCmdSet → (tgt.In (holdTarget opCodeAndHold) ↔ tgt.In oldHold)

/-- The array dependency hold is kept, and setting takes away no other hold that the user
could not have named. -/
structure Entitled (job : Job) (r : HoldRequest) (opCodeAndHold : BitVec 32) : Prop where
  jaAd : HoldTarget.Kept .jaAd (jobGetHoldState job r.jaTaskId) opCodeAndHold
  set : opCode opCodeAndHold = minusHCmdSet → ∀ tgt : HoldTarget, tgt ≠ .jaAd →
    tgt.In (jobGetHoldState job r.jaTaskId) → ¬ tgt.In (holdTarget opCodeAndHold) →
      Authority r.packet job.owner tgt

def HoldRequest.Accepts (job : Job) (r : HoldRequest) (opCodeAndHold : BitVec 32) : Prop :=
  ¬ ((r.isTaskEnrolled && r.change.setsShare && !r.packet.isOperator) = true) ∧
    r.change.hold = some opCodeAndHold ∧
    (newHold (jobGetHoldState job r.jaTaskId) opCodeAndHold ≠ jobGetHoldState job r.jaTaskId →
      refusedHold r.packet job.owner opCodeAndHold = none)

/-! ## Bits -/

def HoldTarget.bit : HoldTarget → ℕ
  | user => 0
  | operator => 1
  | system => 2
  | jaAd => 3

theorem HoldTarget.mask_eq (tgt : HoldTarget) : tgt.mask = BitVec.twoPow 32 tgt.bit := by
  cases tgt <;> decide

theorem HoldTarget.bit_lt (tgt : HoldTarget) : tgt.bit < 32 := by
  cases tgt <;> decide

variable {tgt : HoldTarget} {hold : BitVec 32}

theorem HoldTarget.in_iff : tgt.In hold ↔ hold.getLsbD tgt.bit = true := by
  rw [HoldTarget.In, tgt.mask_eq, BitVec.and_twoPow]
  cases h : hold.getLsbD tgt.bit with
  | true =>
    rw [if_pos rfl, ← tgt.mask_eq]
    refine iff_of_true ?_ rfl
    cases tgt <;> decide
  | false => simp

theorem HoldTarget.and_mask_eq : hold &&& tgt.mask = tgt.mask ↔ tgt.In hold := by
  have hmask : tgt.mask ≠ 0 := by cases tgt <;> decide
  rw [HoldTarget.in_iff]
  rw [tgt.mask_eq] at hmask ⊢
  rw [BitVec.and_twoPow]
  cases h : hold.getLsbD tgt.bit with
  | true => simp
  | false => simpa using hmask.symm

theorem HoldTarget.in_all (tgt : HoldTarget) : minusHTgtAll.getLsbD tgt.bit = true := by
  cases tgt <;> decide

@[simp] theorem HoldTarget.in_and_all : tgt.In (hold &&& minusHTgtAll) ↔ tgt.In hold := by
  simp [HoldTarget.in_iff, tgt.in_all]

variable {old : BitVec 32}

variable {target : BitVec 32}

theorem HoldTarget.in_or : tgt.In (old ||| target) ↔ tgt.In old ∨ tgt.In target := by
  simp [HoldTarget.in_iff]

theorem HoldTarget.in_and_not : tgt.In (old &&& ~~~target) ↔ tgt.In old ∧ ¬ tgt.In target := by
  simp [HoldTarget.in_iff, tgt.bit_lt]

/-! ## The hold state after a change -/

variable {σ : Sorter} {job : Job} {x t : ℕ}

theorem getHoldState_setHoldState (h : JobOk job) (hx : HasTask job x) (new : BitVec 32) :
    jobGetHoldState (jobSetHoldState σ job t new) x =
      if x = t then new &&& minusHTgtAll else jobGetHoldState job x := by
  by_cases hu : x ∈ job.unenrolled
  · have hu' : x ∈ (jobSetHoldState σ job t new).unenrolled := by
      rwa [unenrolled_setHoldState h]
    rw [jobGetHoldState, jobGetHoldState, jobIsEnrolled_false_iff.mpr hu,
      jobIsEnrolled_false_iff.mpr hu', if_neg Bool.false_ne_true, if_neg Bool.false_ne_true]
    split
    next hxt =>
      subst hxt
      refine accumulate_of_takes fun attr => ?_
      rw [has_setHoldState h, if_pos ⟨rfl, hu⟩]
    next hxt =>
      have hsame (attr : IdAttribute) :
          rangeListIsIdWithin ((jobSetHoldState σ job t new).idList attr) x =
            rangeListIsIdWithin (job.idList attr) x := by
        have hhas : Has ((jobSetHoldState σ job t new).idList attr) x ↔ Has (job.idList attr) x :=
          (has_setHoldState h attr x).trans (if_neg fun hboth => hxt hboth.1).to_iff
        rw [has_iff, has_iff] at hhas
        exact Bool.eq_iff_iff.mpr hhas
      simp only [jobAccumulateHoldFlags, hsame]
  · have hu' : x ∉ (jobSetHoldState σ job t new).unenrolled := by
      rwa [unenrolled_setHoldState h]
    rw [jobGetHoldState, jobGetHoldState, jobIsEnrolled_iff.mpr hu, jobIsEnrolled_iff.mpr hu',
      if_pos rfl, if_pos rfl]
    by_cases ht : t ∈ job.unenrolled
    · have hxt : x ≠ t := fun heq => hu (heq ▸ ht)
      rw [if_neg hxt, jobSetHoldState_of_mem ht]
      rfl
    · have hsearch : jobSearchTask (jobSetHoldState σ job t new) x =
          if x = t then (jobSearchTask job x).map (setTaskHold new) else jobSearchTask job x := by
        rw [jobSetHoldState_of_not_mem ht]
        exact modifyTask_find (setTaskHold new) (fun _ => rfl) job.jaTasks
      rw [hsearch]
      by_cases hxt : x = t
      · obtain ⟨task, hfind⟩ := search_of_hasTask hx hu
        rw [if_pos hxt, if_pos hxt, hfind]
        rfl
      · rw [if_neg hxt, if_neg hxt]

/-! ## One request -/

theorem authority_of_not_refused {packet : Packet} {owner : String} {w : BitVec 32}
    (h : refusedHold packet owner w = none) (hne : tgt ≠ .jaAd)
    (htgt : tgt.In (holdTarget w)) : Authority packet owner tgt := by
  simp only [refusedHold] at h
  have hmask := HoldTarget.and_mask_eq.mpr htgt
  split_ifs at h with hsystem hoperator huser
  cases tgt with
  | system => exact Bool.of_not_eq_false fun hno => hsystem ⟨hmask, hno⟩
  | operator => exact Bool.of_not_eq_false fun hno => hoperator ⟨hmask, hno⟩
  | user =>
    by_contra hno
    obtain ⟨howner, hoperator⟩ := not_or.mp hno
    exact huser ⟨hmask, howner, Bool.eq_false_iff.mpr hoperator⟩
  | jaAd => exact absurd rfl hne

theorem in_newHold (old w : BitVec 32) (tgt : HoldTarget) :
    (tgt.In (newHold old w) ↔ tgt.In old) ∨ tgt.In (holdTarget w) ∨
      (opCode w = minusHCmdSet ∧ tgt.In old ∧ ¬ tgt.In (holdTarget w)) := by
  unfold newHold
  split_ifs with hsub hadd hset
  · rw [HoldTarget.in_and_not]
    by_cases htgt : tgt.In (holdTarget w)
    · exact Or.inr (Or.inl htgt)
    · exact Or.inl (and_iff_left htgt)
  · rw [HoldTarget.in_or]
    by_cases htgt : tgt.In (holdTarget w)
    · exact Or.inr (Or.inl htgt)
    · exact Or.inl (or_iff_left htgt)
  · by_cases htgt : tgt.In (holdTarget w)
    · exact Or.inr (Or.inl htgt)
    · by_cases hold : tgt.In old
      · exact Or.inr (Or.inr ⟨hset, hold, htgt⟩)
      · exact Or.inl (iff_of_false htgt hold)
  · exact Or.inl Iff.rfl

theorem in_newHold_iff {w : BitVec 32} :
    (tgt.In (newHold old w) ↔ tgt.In old) ↔ tgt.Kept old w := by
  have hsubAdd : minusHCmdSub ≠ minusHCmdAdd := by decide
  have hsubSet : minusHCmdSub ≠ minusHCmdSet := by decide
  have haddSet : minusHCmdAdd ≠ minusHCmdSet := by decide
  unfold newHold
  split_ifs with hsub hadd hset
  · rw [HoldTarget.in_and_not]
    constructor
    · intro h
      exact ⟨fun _ htgt hold => (h.mpr hold).2 htgt, fun hop => absurd (hsub ▸ hop) hsubAdd,
        fun hop => absurd (hsub ▸ hop) hsubSet⟩
    · intro h
      exact ⟨And.left, fun hold => ⟨hold, fun htgt => h.sub hsub htgt hold⟩⟩
  · rw [HoldTarget.in_or]
    constructor
    · intro h
      exact ⟨fun hop => absurd hop hsub, fun _ htgt => h.mp (Or.inr htgt),
        fun hop => absurd (hadd ▸ hop) haddSet⟩
    · intro h
      exact ⟨fun hor => hor.elim id (h.add hadd), Or.inl⟩
  · constructor
    · intro h
      exact ⟨fun hop => absurd hop hsub, fun hop => absurd hop hadd, fun _ => h⟩
    · intro h
      exact h.set hset
  · constructor
    · intro _
      exact ⟨fun hop => absurd hop hsub, fun hop => absurd hop hadd, fun hop => absurd hop hset⟩
    · intro _
      exact Iff.rfl

variable {r : HoldRequest} {w : BitVec 32}

variable (σ) in
theorem perform_of_accepts (h : r.Accepts job w) :
    (r.perform σ job).status = .ok ∧ (r.perform σ job).job =
      jobSetHoldState σ job r.jaTaskId (newHold (jobGetHoldState job r.jaTaskId) w) := by
  obtain ⟨hshare, hhold, hrefused⟩ := h
  have hnone : (if newHold (jobGetHoldState job r.jaTaskId) w ≠ jobGetHoldState job r.jaTaskId then
      refusedHold r.packet job.owner w else none) = none := by
    split
    next hne => exact hrefused hne
    next => rfl
  rw [HoldRequest.perform, modTaskAttributes, if_neg hshare, hhold]
  dsimp only [modTaskHold]
  rw [hnone]
  exact ⟨rfl, rfl⟩

theorem perform_of_not_accepts (h : ∀ w, ¬ r.Accepts job w) : (r.perform σ job).job = job := by
  rw [HoldRequest.perform, modTaskAttributes]
  split
  next => rfl
  next hshare =>
    cases hhold : r.change.hold with
    | none => rfl
    | some w =>
      dsimp only [modTaskHold]
      cases hrefused : (if newHold (jobGetHoldState job r.jaTaskId) w ≠
          jobGetHoldState job r.jaTaskId then refusedHold r.packet job.owner w else none) with
      | some refused => rfl
      | none =>
        refine absurd ⟨hshare, hhold, fun hne => ?_⟩ (h w)
        rwa [if_pos hne] at hrefused

/-- A request changes only what its user may change exactly when it is entitled. -/
theorem authorised_iff (hok : JobOk job) (ht : HasTask job r.jaTaskId) :
    Authorised σ job r ↔ ∀ w, r.Accepts job w → Entitled job r w := by
  by_cases hacc : ∃ w, r.Accepts job w
  · obtain ⟨w, hacc⟩ := hacc
    obtain ⟨hstatus, hjob⟩ := perform_of_accepts σ hacc
    have hsame (w' : BitVec 32) (hacc' : r.Accepts job w') : w' = w :=
      Option.some.inj (hacc'.2.1.symm.trans hacc.2.1)
    have hnew (tgt : HoldTarget) :
        tgt.In (jobGetHoldState (r.perform σ job).job r.jaTaskId) ↔
          tgt.In (newHold (jobGetHoldState job r.jaTaskId) w) := by
      rw [hjob, getHoldState_setHoldState hok ht, if_pos rfl, HoldTarget.in_and_all]
    constructor
    · intro h w' hacc'
      rw [hsame w' hacc']
      have htask := h.1 hstatus r.jaTaskId ht
      constructor
      · rw [← in_newHold_iff, ← hnew]
        exact (htask .jaAd).resolve_right id
      · intro hset tgt _ hold htgt
        refine (htask tgt).resolve_left fun hiff => ?_
        have hin := (hnew tgt).mp (hiff.mpr hold)
        have hsub : minusHCmdSet ≠ minusHCmdSub := by decide
        have hadd : minusHCmdSet ≠ minusHCmdAdd := by decide
        rw [newHold, hset, if_neg hsub, if_neg hadd, if_pos rfl] at hin
        exact htgt hin
    · intro h
      have hentitled := h w hacc
      refine ⟨fun _ x hx tgt => ?_, fun hstop => absurd hstatus hstop⟩
      by_cases hxt : x = r.jaTaskId
      · rw [hxt, hnew]
        by_cases hjaAd : tgt = .jaAd
        · rw [hjaAd]
          exact Or.inl (in_newHold_iff.mpr hentitled.jaAd)
        · rcases in_newHold (jobGetHoldState job r.jaTaskId) w tgt with
            hiff | htgt | ⟨hset, hold, htgt⟩
          · exact Or.inl hiff
          · by_cases hne : newHold (jobGetHoldState job r.jaTaskId) w =
                jobGetHoldState job r.jaTaskId
            · exact Or.inl (by rw [hne])
            · exact Or.inr (authority_of_not_refused (hacc.2.2 hne) hjaAd htgt)
          · exact Or.inr (hentitled.set hset tgt hjaAd hold htgt)
      · rw [hjob, getHoldState_setHoldState hok hx, if_neg hxt]
        exact Or.inl Iff.rfl
  · rw [not_exists] at hacc
    refine iff_of_true ?_ fun w hw => absurd hw (hacc w)
    rw [Authorised, perform_of_not_accepts hacc]
    exact ⟨fun _ _ _ _ => Or.inl Iff.rfl, fun _ _ _ => rfl⟩

/-! ## Runs -/

/-- A property of every request of a run, in the state it meets. -/
def EveryRequest (σ : Sorter) (P : Job → HoldRequest → Prop) (job : Job) :
    List HoldRequest → Prop
  | [] => True
  | r :: requests => P job r ∧ EveryRequest σ P (r.perform σ job).job requests

variable (σ) in
theorem perform_keeps (hok : JobOk job) (r : HoldRequest) :
    JobOk (r.perform σ job).job ∧ ∀ x, HasTask (r.perform σ job).job x ↔ HasTask job x := by
  by_cases hacc : ∃ w, r.Accepts job w
  · obtain ⟨w, hacc⟩ := hacc
    rw [(perform_of_accepts σ hacc).2]
    exact ⟨hok.setHoldState _, fun x => (jobSetHoldState_keeps hok).hasTask⟩
  · rw [perform_of_not_accepts (not_exists.mp hacc)]
    exact ⟨hok, fun _ => Iff.rfl⟩

/-- In a run every request changes only what its user may change exactly when every request
is entitled. -/
theorem authorised_run_iff (σ : Sorter) {job : Job} (hok : JobOk job)
    (requests : List HoldRequest) (ht : ∀ r ∈ requests, HasTask job r.jaTaskId) :
    EveryRequest σ (Authorised σ) job requests ↔
      EveryRequest σ (fun job r => ∀ w, r.Accepts job w → Entitled job r w) job requests := by
  induction requests generalizing job with
  | nil => exact Iff.rfl
  | cons r requests ih =>
    obtain ⟨hr, hrequests⟩ := List.forall_mem_cons.mp ht
    obtain ⟨hok', hsame⟩ := perform_keeps σ hok r
    have hrest := ih hok' fun r' hr' => (hsame _).mpr (hrequests r' hr')
    exact and_congr (authorised_iff hok hr) hrest

/-- Without setting and without the array dependency hold every request is entitled. -/
theorem entitled_of_not_set (hop : opCode w ≠ minusHCmdSet)
    (hjaAd : ¬ HoldTarget.In .jaAd (holdTarget w)) : Entitled job r w where
  jaAd := {
    sub := fun _ htgt => absurd htgt hjaAd
    add := fun _ htgt => absurd htgt hjaAd
    set := fun hset => absurd hset hop }
  set := fun hset => absurd hset hop

def systemHold : List HoldRequest :=
  [⟨⟨"root", true, true⟩, 2, ⟨false, some (minusHCmdAdd ||| minusHTgtSystem)⟩, false⟩,
   ⟨⟨"owner", false, false⟩, 2, ⟨false, some (minusHCmdSub ||| minusHTgtSystem)⟩, false⟩]

def systemHoldLost : List HoldRequest :=
  [⟨⟨"root", true, true⟩, 2, ⟨false, some (minusHCmdAdd ||| minusHTgtSystem)⟩, false⟩,
   ⟨⟨"owner", false, false⟩, 2, ⟨false, some (minusHCmdSet ||| minusHTgtUser)⟩, false⟩]

theorem hasTask_second : HasTask (jobInitializeIdLists threeTasks) 2 :=
  Or.inl ⟨.nHIds, has_iff.mpr (by decide +kernel)⟩

theorem authorised_systemHold :
    EveryRequest sortByMin (Authorised sortByMin) (jobInitializeIdLists threeTasks) systemHold := by
  refine (authorised_run_iff sortByMin threeTasks_submitted.start systemHold ?_).mpr
    ⟨fun w hw => ?_, fun w hw => ?_, trivial⟩
  · intro r hr
    simp only [systemHold, List.mem_cons, List.not_mem_nil, or_false] at hr
    rcases hr with rfl | rfl <;> exact hasTask_second
  · obtain rfl : _ = w := Option.some.inj hw.2.1
    exact entitled_of_not_set (by decide) (by decide)
  · obtain rfl : _ = w := Option.some.inj hw.2.1
    exact entitled_of_not_set (by decide) (by decide)

/-- **The system hold is lost** to a user who could not remove it. -/
theorem not_authorised_set :
    ¬ EveryRequest sortByMin (Authorised sortByMin) (jobInitializeIdLists threeTasks)
      systemHoldLost := by
  intro h
  obtain ⟨-, ⟨hset, -⟩, -⟩ := h
  have hkeeps := (perform_keeps sortByMin threeTasks_submitted.start
    ⟨⟨"root", true, true⟩, 2, ⟨false, some (minusHCmdAdd ||| minusHTgtSystem)⟩, false⟩).2 2
  rcases hset (by decide +kernel) 2 (hkeeps.mpr hasTask_second) .system with hlost | hmanager
  · revert hlost
    decide +kernel
  · exact absurd hmanager Bool.false_ne_true

end ClusterScheduler.Qmaster
