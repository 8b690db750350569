import ClusterScheduler.Qmaster.SlotwiseTasks

/-!
# Suspension in a slot-wise tree

The check suspends as many tasks as the first count is above the threshold. A task that holds
several queue instances of the tree lowers the count by more than one, so tasks can be suspended
when the threshold is met already.

* `mostExtremeTask_spec` — the choice is a task of the deepest level, where the sequence number is
  the highest.
* `xTasks_recorded` — the loop goes through the tasks in the order `suspensionOrder`.
* `SuspendsAsNeeded` — the count is above the threshold whenever a task is suspended, and in the
  end it is not, or no task is left below the root.
* `suspendsAsNeeded_iff` — this holds if and only if the tasks that go before the last one hold few
  queue instances, and the search sees the tasks.
-/

namespace ClusterScheduler.Qmaster.Slotwise

open Relation Foundation

/-! ## The task that is chosen -/

section Choice

theorem foldl_max_spec {α : Type*} (f : α → ℕ) (l : List α) (init : ℕ) :
    init ≤ l.foldl (fun m a => max (f a) m) init ∧
      (∀ a ∈ l, f a ≤ l.foldl (fun m a => max (f a) m) init) ∧
      (l.foldl (fun m a => max (f a) m) init = init ∨
        ∃ a ∈ l, f a = l.foldl (fun m a => max (f a) m) init) := by
  induction l generalizing init with
  | nil => exact ⟨le_rfl, List.forall_mem_nil _, .inl rfl⟩
  | cons a l ih =>
    obtain ⟨hinit, hall, hreach⟩ := ih (max (f a) init)
    rw [List.foldl_cons]
    refine ⟨le_trans (le_max_right _ _) hinit, ?_, ?_⟩
    · intro b hb
      rcases List.mem_cons.mp hb with rfl | hb
      · exact le_trans (le_max_left _ _) hinit
      · exact hall b hb
    · rcases hreach with hreach | ⟨b, hb, hreach⟩
      · rcases max_choice (f a) init with hmax | hmax
        · exact .inr ⟨a, .head _, by rw [hreach, hmax]⟩
        · exact .inl (by rw [hreach, hmax])
      · exact .inr ⟨b, .tail _ hb, hreach⟩

variable {tree : List SsosNode} {depth : ℕ}

theorem extremeSeqNo_suspend (onlySsos : Bool) : extremeSeqNo tree depth true onlySsos =
    (tree.filter fun node => node.ssos.depth = depth ∧ node.tasks ≠ []).foldl
      (fun extreme node => max node.ssos.seqNo extreme) 0 := by
  unfold extremeSeqNo
  rw [List.foldl_filter]
  congr 1
  funext extreme node
  by_cases hnode : node.ssos.depth = depth ∧ node.tasks ≠ []
  · by_cases hlt : extreme < node.ssos.seqNo
    · simp [hnode, hlt, max_eq_left hlt.le]
    · simp [hnode, hlt, max_eq_right (not_lt.mp hlt)]
  · have hskip : ¬ (node.ssos.depth = depth ∧ node.tasks ≠ [] ∧
        ((true : Bool) = true ∧ extreme < node.ssos.seqNo ∨
          ¬ (true : Bool) = true ∧ node.ssos.seqNo < extreme ∧
            (node.tasks.any fun task => isSsos onlySsos task.task) = true)) :=
      fun h => hnode ⟨h.1, h.2.1⟩
    rw [if_neg hskip, decide_eq_false hnode]
    rfl

variable {place : SsosQinstance × SsosTask}

theorem mem_places (onlySsos : Bool) :
    place ∈ places tree depth true onlySsos ↔ ∃ node ∈ tree, node.ssos = place.1 ∧
      place.2 ∈ node.tasks ∧ node.ssos.depth = depth ∧
        node.ssos.seqNo = extremeSeqNo tree depth true onlySsos := by
  unfold places
  simp only [List.mem_flatMap, List.mem_filter, List.mem_map, Bool.true_or, and_true,
    decide_eq_true_eq]
  constructor
  · rintro ⟨node, ⟨hnode, hdepth, hseq⟩, task, htask, rfl⟩
    exact ⟨node, hnode, rfl, htask, hdepth, hseq⟩
  · rintro ⟨node, hnode, hssos, htask, hdepth, hseq⟩
    exact ⟨node, ⟨hnode, hdepth, hseq⟩, place.2, htask, by rw [hssos]⟩

variable {node : SsosNode}

/-- A level with tasks has tasks where the sequence number is the highest. -/
theorem places_ne_nil (onlySsos : Bool) (hnode : node ∈ tree)
    (hdepth : node.ssos.depth = depth) (htasks : node.tasks ≠ []) :
    places tree depth true onlySsos ≠ [] := by
  have hmem : node ∈ tree.filter fun node => node.ssos.depth = depth ∧ node.tasks ≠ [] :=
    List.mem_filter.mpr ⟨hnode, decide_eq_true ⟨hdepth, htasks⟩⟩
  obtain ⟨-, hall, hreach⟩ := foldl_max_spec (fun node : SsosNode => node.ssos.seqNo)
    (tree.filter fun node => node.ssos.depth = depth ∧ node.tasks ≠ []) 0
  rw [← extremeSeqNo_suspend onlySsos] at hall hreach
  have hhighest : ∃ top ∈ tree.filter fun node => node.ssos.depth = depth ∧ node.tasks ≠ [],
      top.ssos.seqNo = extremeSeqNo tree depth true onlySsos := by
    rcases hreach with hzero | hreach
    · exact ⟨node, hmem, by have hle := hall node hmem; omega⟩
    · exact hreach
  obtain ⟨top, htop, hseq⟩ := hhighest
  obtain ⟨htop, hkeep⟩ := List.mem_filter.mp htop
  obtain ⟨htopDepth, htopTasks⟩ := of_decide_eq_true hkeep
  obtain ⟨task, htask⟩ := List.exists_mem_of_ne_nil _ htopTasks
  have hplace : (top.ssos, task) ∈ places tree depth true onlySsos :=
    (mem_places onlySsos).mpr ⟨top, htop, rfl, htask, htopDepth, hseq⟩
  exact List.ne_nil_of_mem hplace

theorem le_extremeSeqNo (onlySsos : Bool) (hnode : node ∈ tree)
    (hdepth : node.ssos.depth = depth) (htasks : node.tasks ≠ []) :
    node.ssos.seqNo ≤ extremeSeqNo tree depth true onlySsos := by
  rw [extremeSeqNo_suspend]
  exact (foldl_max_spec (fun node : SsosNode => node.ssos.seqNo) _ 0).2.1 node
    (List.mem_filter.mpr ⟨hnode, decide_eq_true ⟨hdepth, htasks⟩⟩)

/-- The task is older or younger than those the search has seen. -/
def Search.Sees (search : Search) (ssos : SsosQinstance) (task : SsosTask) : Prop :=
  if ssos.action = soActionLr then task.task.startTime < search.oldestStartTime
  else search.youngestStartTime < task.task.startTime

/-- The search begins with the greatest time as the oldest and 0 as the youngest. -/
def InSight (ssos : SsosQinstance) (task : SsosTask) : Prop :=
  Search.Sees ⟨2 ^ 64 - 1, 0, none⟩ ssos task

variable {search : Search}

theorem look_of_sees
    (h : search.Sees place.1 place.2) : (search.look true place).found = some place ∧
      (search.look true place).oldestStartTime ≤ search.oldestStartTime := by
  unfold Search.Sees at h
  unfold Search.look
  dsimp only
  by_cases haction : place.1.action = soActionLr
  · rw [if_pos haction] at h
    rw [if_pos (by simp [haction, h])]
    exact ⟨rfl, h.le⟩
  · rw [if_neg haction] at h
    rw [if_neg (by simp [haction]), if_pos (by simp [haction, h])]
    exact ⟨rfl, le_rfl⟩

theorem look_of_not_sees (h : ¬ search.Sees place.1 place.2) : search.look true place = search := by
  unfold Search.Sees at h
  unfold Search.look
  dsimp only
  by_cases haction : place.1.action = soActionLr
  · rw [if_pos haction] at h
    rw [if_neg (by simp [haction, not_lt.mp h]), if_neg (by simp [haction])]
  · rw [if_neg haction] at h
    rw [if_neg (by simp [haction]), if_neg (by simp [haction, not_lt.mp h])]

variable {ssos : SsosQinstance} {task : SsosTask}

theorem Search.Sees.inSight
    (h : search.Sees ssos task) (hbound : search.oldestStartTime ≤ 2 ^ 64 - 1) :
    InSight ssos task := by
  unfold InSight
  unfold Search.Sees at h ⊢
  split
  · rename_i haction
    rw [if_pos haction] at h
    exact lt_of_lt_of_le h hbound
  · rename_i haction
    rw [if_neg haction] at h
    exact Nat.zero_lt_of_lt h

theorem foldl_look (l : List (SsosQinstance × SsosTask)) :
    (l.foldl (Search.look true) ⟨2 ^ 64 - 1, 0, none⟩).oldestStartTime ≤ 2 ^ 64 - 1 ∧
      (l.foldl (Search.look true) ⟨2 ^ 64 - 1, 0, none⟩ = ⟨2 ^ 64 - 1, 0, none⟩ ∧
          (∀ place ∈ l, ¬ InSight place.1 place.2) ∨
        ∃ place ∈ l, (l.foldl (Search.look true) ⟨2 ^ 64 - 1, 0, none⟩).found = some place ∧
          InSight place.1 place.2) := by
  induction l using List.reverseRecOn with
  | nil => exact ⟨le_rfl, .inl ⟨rfl, List.forall_mem_nil _⟩⟩
  | append_singleton l place ih =>
    rw [List.foldl_append, List.foldl_cons, List.foldl_nil]
    obtain ⟨hbound, hends⟩ := ih
    by_cases hsees : Search.Sees (l.foldl (Search.look true) ⟨2 ^ 64 - 1, 0, none⟩)
        place.1 place.2
    · obtain ⟨hfound, hle⟩ := look_of_sees hsees
      refine ⟨le_trans hle hbound, .inr ⟨place, ?_, hfound, hsees.inSight hbound⟩⟩
      exact List.mem_append_right l (.head _)
    · rw [look_of_not_sees hsees]
      refine ⟨hbound, ?_⟩
      rcases hends with ⟨hsame, hnone⟩ | ⟨other, hother, hfound⟩
      · refine .inl ⟨hsame, fun other hother => ?_⟩
        rcases List.mem_append.mp hother with hother | hother
        · exact hnone other hother
        · rw [List.mem_singleton.mp hother]
          rw [hsame] at hsees
          exact hsees
      · exact .inr ⟨other, List.mem_append_left [place] hother, hfound⟩

theorem getTaskToXInDepth_mem (onlySsos : Bool)
    (h : getTaskToXInDepth tree depth true onlySsos = some place) :
    place ∈ places tree depth true onlySsos ∧ InSight place.1 place.2 := by
  unfold getTaskToXInDepth at h
  rcases (foldl_look (places tree depth true onlySsos)).2 with
    ⟨hsame, -⟩ | ⟨other, hother, hfound, hsight⟩
  · rw [hsame] at h
    cases h
  · rw [hfound] at h
    obtain rfl : other = place := Option.some.inj h
    exact ⟨hother, hsight⟩

theorem getTaskToXInDepth_isSome (onlySsos : Bool)
    (hplace : place ∈ places tree depth true onlySsos) (hsight : InSight place.1 place.2) :
    (getTaskToXInDepth tree depth true onlySsos).isSome := by
  unfold getTaskToXInDepth
  rcases (foldl_look (places tree depth true onlySsos)).2 with ⟨-, hnone⟩ | ⟨other, -, hfound, -⟩
  · exact absurd hsight (hnone place hplace)
  · rw [hfound]
    rfl

/-- A loop from the last level up stops at the first level with a task. -/
theorem findSome_range'_reverse {α : Type*} {f : ℕ → Option α} (n : ℕ) :
    ((List.range' 1 n).reverse.findSome? f = none ↔ ∀ i, 0 < i → i ≤ n → f i = none) ∧
      ∀ a, (List.range' 1 n).reverse.findSome? f = some a →
        ∃ i, 0 < i ∧ i ≤ n ∧ f i = some a ∧ ∀ j, i < j → j ≤ n → f j = none := by
  induction n with
  | zero =>
    refine ⟨⟨fun _ i hpos hle => absurd hpos (by omega), fun _ => rfl⟩, ?_⟩
    intro a h
    cases h
  | succ n ih =>
    obtain ⟨hnone, hsome⟩ := ih
    rw [List.range'_1_concat, List.reverse_append, List.reverse_singleton, List.singleton_append,
      List.findSome?_cons, add_comm 1 n]
    cases hlast : f (n + 1) with
    | some b =>
      refine ⟨⟨fun h => absurd h (Option.some_ne_none b), fun h => ?_⟩, ?_⟩
      · rw [h (n + 1) (Nat.succ_pos n) le_rfl] at hlast
        cases hlast
      · intro a h
        exact ⟨n + 1, Nat.succ_pos n, le_rfl, hlast.trans h, fun j hlt hle => by omega⟩
    | none =>
      refine ⟨hnone.trans ⟨fun h i hpos hle => ?_, fun h i hpos hle => ?_⟩, ?_⟩
      · rcases Nat.le_succ_iff.mp hle with hle | rfl
        · exact h i hpos hle
        · exact hlast
      · exact h i hpos (Nat.le_succ_of_le hle)
      · intro a h
        obtain ⟨i, hpos, hle, hi, habove⟩ := hsome a h
        refine ⟨i, hpos, Nat.le_succ_of_le hle, hi, fun j hlt hj => ?_⟩
        rcases Nat.le_succ_iff.mp hj with hj | rfl
        · exact habove j hlt hj
        · exact hlast

/-- Below the root, in the deepest level with tasks, where the sequence number is the highest. -/
def AtTheExtreme (tree : List SsosNode) (ssos : SsosQinstance) : Prop :=
  0 < ssos.depth ∧ ∀ node ∈ tree, node.tasks ≠ [] →
    node.ssos.depth ≤ ssos.depth ∧ (node.ssos.depth = ssos.depth → node.ssos.seqNo ≤ ssos.seqNo)

theorem le_depth (hnode : node ∈ tree) :
    node.ssos.depth ≤ tree.foldl (fun depth node => max node.ssos.depth depth) 0 :=
  (foldl_max_spec (fun node : SsosNode => node.ssos.depth) tree 0).2.1 node hnode

theorem mostExtremeTask_some (h : mostExtremeTask tree true = some (ssos, task)) :
    Noted tree ssos task ∧ 0 < ssos.depth ∧ InSight ssos task := by
  obtain ⟨i, hpos, -, hi, -⟩ := (findSome_range'_reverse
    (f := fun i => getTaskToXInDepth tree i true true) _).2 (ssos, task) h
  obtain ⟨hplace, hsight⟩ := getTaskToXInDepth_mem true hi
  obtain ⟨home, hhome, rfl, htask, rfl, -⟩ := (mem_places true).mp hplace
  exact ⟨⟨home, hhome, rfl, htask⟩, hpos, hsight⟩

/-- With a task in sight at the extreme, one of those at the extreme is chosen. -/
theorem mostExtremeTask_spec (hnoted : Noted tree ssos task) (hextreme : AtTheExtreme tree ssos)
    (hsight : InSight ssos task) :
    ∃ found task', mostExtremeTask tree true = some (found, task') ∧ AtTheExtreme tree found := by
  obtain ⟨node, hnode, rfl, htask⟩ := hnoted
  obtain ⟨hpos, hall⟩ := hextreme
  have hplace : (node.ssos, task) ∈ places tree node.ssos.depth true true := by
    refine (mem_places true).mpr ⟨node, hnode, rfl, htask, rfl, ?_⟩
    have hle := le_extremeSeqNo true hnode rfl (List.ne_nil_of_mem htask)
    obtain ⟨top, htop⟩ := List.exists_mem_of_ne_nil _
      (places_ne_nil true hnode rfl (List.ne_nil_of_mem htask))
    obtain ⟨home, hhome, -, hmem, hdepth, hseq⟩ := (mem_places true).mp htop
    have hge := (hall home hhome (List.ne_nil_of_mem hmem)).2 hdepth
    exact le_antisymm hle (hseq ▸ hge)
  have hlevel : (getTaskToXInDepth tree node.ssos.depth true true).isSome :=
    getTaskToXInDepth_isSome true hplace hsight
  obtain ⟨hnone, hsome⟩ := findSome_range'_reverse
    (f := fun i => getTaskToXInDepth tree i true true)
    (tree.foldl (fun depth node => max node.ssos.depth depth) 0)
  cases hchoice : mostExtremeTask tree true with
  | none =>
    have hempty := hnone.mp hchoice node.ssos.depth hpos (le_depth hnode)
    rw [hempty] at hlevel
    exact absurd hlevel (by simp)
  | some found =>
    obtain ⟨i, -, -, hi, habove⟩ := hsome found hchoice
    obtain ⟨home, hhome, hssos, hmem, rfl, hseq⟩ :=
      (mem_places true).mp (getTaskToXInDepth_mem true hi).1
    have hle := (hall home hhome (List.ne_nil_of_mem hmem)).1
    have hsame : home.ssos.depth = node.ssos.depth := by
      by_contra hne
      have hempty := habove node.ssos.depth (lt_of_le_of_ne hle hne) (le_depth hnode)
      rw [hempty] at hlevel
      exact absurd hlevel (by simp)
    refine ⟨found.1, found.2, rfl, hssos ▸ ?_, fun other hother htasks => hssos ▸ ⟨?_, ?_⟩⟩
    · exact hsame ▸ hpos
    · rw [hsame]
      exact (hall other hother htasks).1
    · intro hdepth
      rw [hseq]
      exact le_extremeSeqNo true hother hdepth htasks

end Choice

/-! ## The loop -/

/-- The tasks below the root in the order in which they would be suspended, `n` at most. -/
def suspensionOrder : ℕ → List SsosNode → List Signal
  | 0, _ => []
  | n + 1, tree =>
    match mostExtremeTask tree true with
    | none => []
    | some (ssos, task) =>
      ⟨ssos.qinstance, task.jobId, task.task.taskNumber⟩ ::
        suspensionOrder n (removeTaskFromSlotwiseSosTree tree task.jobId task.task.taskNumber)

/-- The task runs at a place of the tree. A queue instance that is listed more than once stands at
the place listed first, where its tasks are noted. -/
def RunsAt (host : String) (tree : List SsosQinstance) (jobs : JobList) (jobId taskId : ℕ)
    (ssos : SsosQinstance) : Prop :=
  ∃ qname, RunsIn jobs jobId taskId ⟨qname, host⟩ ∧ placeOf tree qname = some ssos

/-- Below the root, in the deepest level with running tasks, and where the sequence number is the
highest. -/
def Extreme (host : String) (tree : List SsosQinstance) (jobs : JobList) (ssos : SsosQinstance) :
    Prop :=
  0 < ssos.depth ∧ ∀ jobId taskId other, RunsAt host tree jobs jobId taskId other →
    other.depth ≤ ssos.depth ∧ (other.depth = ssos.depth → other.seqNo ≤ ssos.seqNo)

def ExtremeInSight (host : String) (tree : List SsosQinstance) (jobs : JobList) : Prop :=
  ∃ ssos task, Noted (recorded host tree jobs) ssos task ∧ Extreme host tree jobs ssos ∧
    InSight ssos task

def Chosen (host : String) (tree : List SsosQinstance) (jobs : JobList) (signal : Signal) : Prop :=
  ∃ ssos task, mostExtremeTask (recorded host tree jobs) true = some (ssos, task) ∧
    signal = ⟨ssos.qinstance, task.jobId, task.task.taskNumber⟩

/-- How many of the queue instances in the tree are granted to these tasks, running ones. -/
def heldBy (host : String) (tree : List SsosQinstance) (jobs : JobList) (signals : List Signal) :
    ℕ :=
  ((runningOn host jobs).filter fun gdi => gdi.1.isOneOf signals).countP fun gdi =>
    (placeOf tree gdi.2).isSome

theorem length_suspensionOrder_le (n : ℕ) (nodes : List SsosNode) :
    (suspensionOrder n nodes).length ≤ n := by
  induction n generalizing nodes with
  | zero => exact le_rfl
  | succ n ih =>
    unfold suspensionOrder
    split
    · exact Nat.zero_le _
    · rw [List.length_cons]
      exact Nat.succ_le_succ (ih _)

section Loop

variable {host : String} {tree : List SsosQinstance} {jobs : JobList}

variable {ssos : SsosQinstance}

variable {jobId taskId : ℕ}

theorem runsAt_iff :
    RunsAt host tree jobs jobId taskId ssos ↔ ∃ task : SsosTask, task.jobId = jobId ∧
      task.task.taskNumber = taskId ∧ Noted (recorded host tree jobs) ssos task := by
  constructor
  · rintro ⟨qname, hruns, hplace⟩
    obtain ⟨task, hjob, htask, hmem⟩ := runsIn_iff.mp hruns
    exact ⟨task, hjob, htask, noted_recorded.mpr ⟨qname, hmem, hplace⟩⟩
  · rintro ⟨task, hjob, htask, hnoted⟩
    obtain ⟨qname, hmem, hplace⟩ := noted_recorded.mp hnoted
    exact ⟨qname, runsIn_iff.mpr ⟨task, hjob, htask, hmem⟩, hplace⟩

theorem extreme_iff :
    Extreme host tree jobs ssos ↔ AtTheExtreme (recorded host tree jobs) ssos := by
  refine and_congr_right fun _ => ⟨?_, ?_⟩
  · intro h node hnode htasks
    obtain ⟨task, htask⟩ := List.exists_mem_of_ne_nil _ htasks
    exact h _ _ node.ssos (runsAt_iff.mpr ⟨task, rfl, rfl, node, hnode, rfl, htask⟩)
  · intro h jobId taskId other hruns
    obtain ⟨_, -, -, node, hnode, rfl, hmem⟩ := runsAt_iff.mp hruns
    exact h node hnode (List.ne_nil_of_mem hmem)

theorem slotwiseXOnSubordinate_of_noted {task : SsosTask} (suspend : Bool)
    (hnoted : Noted (recorded host tree jobs) ssos task) :
    slotwiseXOnSubordinate jobs task.jobId task.task.taskNumber suspend =
      some (jobs.x suspend task.jobId task.task.taskNumber) := by
  obtain ⟨qname, hmem, -⟩ := noted_recorded.mp hnoted
  obtain ⟨job, hjob, hnumber, htask, -, -⟩ := mem_runningOn.mp hmem
  have hjobSome : (jobs.jobs.find? (·.jobNumber = task.jobId)).isSome :=
    List.find?_isSome.mpr ⟨job, hjob, decide_eq_true hnumber⟩
  obtain ⟨first, hfirst⟩ := Option.isSome_iff_exists.mp hjobSome
  have hsame : first = job := by
    refine List.inj_on_of_nodup_map jobs.unique (List.mem_of_find?_eq_some hfirst) hjob ?_
    have hfirstNumber : first.jobNumber = task.jobId := by simpa using List.find?_some hfirst
    rw [hfirstNumber, hnumber]
  have htaskSome : (job.jaTasks.find? (·.taskNumber = task.task.taskNumber)).isSome :=
    List.find?_isSome.mpr ⟨task.task, htask, decide_eq_true rfl⟩
  obtain ⟨found, hfound⟩ := Option.isSome_iff_exists.mp htaskSome
  rw [slotwiseXOnSubordinate, hfirst, Option.bind_some, hsame, hfound, Option.map_some]

variable {signal : Signal}

theorem Chosen.runsAt (h : Chosen host tree jobs signal) :
    ∃ ssos, ssos.qinstance = signal.qinstance ∧ 0 < ssos.depth ∧
      RunsAt host tree jobs signal.jobId signal.taskId ssos := by
  obtain ⟨ssos, task, hchoice, rfl⟩ := h
  obtain ⟨hnoted, hpos, -⟩ := mostExtremeTask_some hchoice
  exact ⟨ssos, rfl, hpos, runsAt_iff.mpr ⟨task, rfl, rfl, hnoted⟩⟩

theorem placeOf_spec {qname : String} (h : placeOf tree qname = some ssos) :
    ssos ∈ tree ∧ ssos.qinstance.fullName = qname :=
  ⟨List.mem_of_find?_eq_some h, by simpa using List.find?_some h⟩

theorem Chosen.extreme_iff (h : Chosen host tree jobs signal) :
    (∃ ssos, ssos.qinstance = signal.qinstance ∧
        RunsAt host tree jobs signal.jobId signal.taskId ssos ∧ Extreme host tree jobs ssos) ↔
      ExtremeInSight host tree jobs := by
  obtain ⟨ssos, task, hchoice, rfl⟩ := h
  obtain ⟨hnoted, -, hsight⟩ := mostExtremeTask_some hchoice
  constructor
  · rintro ⟨other, hqinstance, ⟨qname, -, hplace⟩, hextreme⟩
    -- a queue instance has one place
    obtain ⟨qname', -, hplace'⟩ := noted_recorded.mp hnoted
    have hname : qname = qname' := by
      rw [← (placeOf_spec hplace).2, ← (placeOf_spec hplace').2, hqinstance]
    rw [hname, hplace'] at hplace
    obtain rfl : ssos = other := Option.some.inj hplace
    exact ⟨ssos, task, hnoted, hextreme, hsight⟩
  · rintro ⟨other, task', hnoted', hextreme, hsight'⟩
    obtain ⟨found, task'', hfound, hat⟩ :=
      mostExtremeTask_spec hnoted' (Slotwise.extreme_iff.mp hextreme) hsight'
    rw [hchoice] at hfound
    cases hfound
    exact ⟨ssos, rfl, runsAt_iff.mpr ⟨task, rfl, rfl, hnoted⟩, Slotwise.extreme_iff.mpr hat⟩

variable (host tree jobs) in
theorem runningCount_after (signals : List Signal) :
    runningCount host tree (jobs.after signals) + heldBy host tree jobs signals =
      runningCount host tree jobs := by
  have hsplit := List.countP_eq_countP_filter_add (runningOn host jobs)
    (fun gdi : SsosTask × String => (placeOf tree gdi.2).isSome)
    fun gdi => gdi.1.isOneOf signals
  rw [runningCount, runningOn_after, heldBy, runningCount, hsplit, add_comm]

theorem runningCount_x_lt (hruns : RunsAt host tree jobs jobId taskId ssos) :
    runningCount host tree (jobs.x true jobId taskId) < runningCount host tree jobs := by
  obtain ⟨qname, hruns, hplace⟩ := hruns
  obtain ⟨task, rfl, rfl, hmem⟩ := runsIn_iff.mp hruns
  have hheld : 0 < heldBy host tree jobs [⟨ssos.qinstance, task.jobId, task.task.taskNumber⟩] := by
    refine List.countP_pos_iff.mpr ⟨(task, qname), List.mem_filter.mpr ⟨hmem, ?_⟩, ?_⟩
    · simp [SsosTask.isOneOf, SsosTask.is]
    · rw [hplace]
      rfl
  have hcount := runningCount_after host tree jobs
    [⟨ssos.qinstance, task.jobId, task.task.taskNumber⟩]
  have hone : jobs.after [⟨ssos.qinstance, task.jobId, task.task.taskNumber⟩] =
    jobs.x true task.jobId task.task.taskNumber := rfl
  rw [hone] at hcount
  omega

variable (host tree jobs) in
/-- The loop sends the signals of the order, until no task is found. -/
theorem xTasks_recorded (n : ℕ) :
    xTasks n (recorded host tree jobs) jobs true = (suspensionOrder n (recorded host tree jobs),
          jobs.after (suspensionOrder n (recorded host tree jobs))) ∧
      (∀ before signal after,
        suspensionOrder n (recorded host tree jobs) = before ++ signal :: after →
          Chosen host tree (jobs.after before) signal) ∧
      runningCount host tree (jobs.after (suspensionOrder n (recorded host tree jobs))) +
          (suspensionOrder n (recorded host tree jobs)).length ≤ runningCount host tree jobs ∧
      ((suspensionOrder n (recorded host tree jobs)).length = n ∨ mostExtremeTask
          (recorded host tree (jobs.after (suspensionOrder n (recorded host tree jobs)))) true =
            none) := by
  induction n generalizing jobs with
  | zero =>
    refine ⟨rfl, fun before signal after h => ?_, le_rfl, .inl rfl⟩
    exact absurd h (by simp [suspensionOrder])
  | succ n ih =>
    unfold xTasks suspensionOrder xMostExtremeTask
    cases hchoice : mostExtremeTask (recorded host tree jobs) true with
    | none =>
      exact ⟨rfl, fun before signal after h => absurd h (by simp), le_rfl, .inr hchoice⟩
    | some place =>
      obtain ⟨ssos, task⟩ := place
      obtain ⟨hnoted, -, -⟩ := mostExtremeTask_some hchoice
      have hlower := runningCount_x_lt (runsAt_iff.mpr ⟨task, rfl, rfl, hnoted⟩)
      obtain ⟨hloop, hsteps, hcount, hend⟩ := ih (jobs.x true task.jobId task.task.taskNumber)
      dsimp only [Option.bind_some]
      rw [slotwiseXOnSubordinate_of_noted true hnoted]
      dsimp only [Option.map_some]
      rw [← recorded_x, hloop]
      refine ⟨rfl, ?_, ?_, ?_⟩
      · intro before signal after h
        cases before with
        | nil =>
          obtain ⟨rfl, -⟩ := List.cons.inj h
          exact ⟨ssos, task, hchoice, rfl⟩
        | cons first before =>
          obtain ⟨rfl, hrest⟩ := List.cons.inj h
          exact hsteps before signal after hrest
      · rw [List.length_cons]
        exact le_trans (Nat.succ_le_succ hcount) hlower
      · rw [List.length_cons, Nat.succ_inj]
        exact hend

end Loop

/-! ## No task is suspended in vain -/

def Below (queues : ClusterQueueList) (root : QInstance) (qname : String) : Prop :=
  TransGen (Subordinates queues root.hostname) root.qname qname

/-- `signals` are those of the tasks that were suspended, one after the other. -/
structure SuspendsAsNeeded (queues : ClusterQueueList) (root : QInstance)
    (tree : List SsosQinstance) (jobs : JobList) (signals : List Signal) : Prop where
  needed : ∀ before signal after, signals = before ++ signal :: after →
    getSlotwiseSosThreshold root <
      (countRunningJobsInSlotwiseSosTree tree true (jobs.after before)).1
  enough : (countRunningJobsInSlotwiseSosTree tree true (jobs.after signals)).1 ≤
      getSlotwiseSosThreshold root ∨
    ∀ qname, Below queues root qname → ∀ jobId taskId,
      ¬ RunsIn (jobs.after signals) jobId taskId ⟨qname ++ "@" ++ root.hostname, root.hostname⟩
  belowRoot : ∀ before signal after, signals = before ++ signal :: after →
    ∃ qname, qname ≠ root.qname ∧ Below queues root qname ∧
      RunsIn (jobs.after before) signal.jobId signal.taskId
        ⟨qname ++ "@" ++ root.hostname, root.hostname⟩
  deepest : ∀ before signal after, signals = before ++ signal :: after →
    ∃ ssos, ssos.qinstance = signal.qinstance ∧
      RunsAt root.hostname tree (jobs.after before) signal.jobId signal.taskId ssos ∧
      Extreme root.hostname tree (jobs.after before) ssos

/-- With `diff` for the number that the count is above the threshold: the tasks that go before one
of the first `diff` tasks in the order of suspension hold fewer than `diff` queue instances of the
tree. -/
def HoldFewBefore (root : QInstance) (tree : List SsosQinstance) (jobs : JobList) : Prop :=
  let (runningJobs, nodes) := countRunningJobsInSlotwiseSosTree tree true jobs
  let diff := runningJobs - getSlotwiseSosThreshold root
  ∀ n < (suspensionOrder diff nodes).length,
    heldBy root.hostname tree jobs ((suspensionOrder diff nodes).take n) < diff

/-- As long as they hold so few and tasks are left below the root, one of those at the extreme is in
sight. -/
def TasksInSight (root : QInstance) (tree : List SsosQinstance) (jobs : JobList) : Prop :=
  let (runningJobs, nodes) := countRunningJobsInSlotwiseSosTree tree true jobs
  let diff := runningJobs - getSlotwiseSosThreshold root
  ∀ n < diff, heldBy root.hostname tree jobs ((suspensionOrder diff nodes).take n) < diff →
    let later := jobs.after ((suspensionOrder diff nodes).take n)
    ∀ jobId taskId ssos, 0 < ssos.depth → RunsAt root.hostname tree later jobId taskId ssos →
      ExtremeInSight root.hostname tree later

section InVain

variable {queues : ClusterQueueList} {root : QInstance} {tree : List SsosQinstance}
  {jobs : JobList} {fuel : ℕ}

theorem qname_inj {q q' host : String} (h : q ++ "@" ++ host = q' ++ "@" ++ host) : q = q' := by
  have hlist := congrArg String.toList h
  simp only [String.toList_append] at hlist
  exact String.toList_injective (List.append_cancel_right (List.append_cancel_right hlist))

/-- What the walk from the root lists: the root, and the queue instances below it. -/
structure WalkOf (queues : ClusterQueueList) (root : QInstance) (tree : List SsosQinstance) :
    Prop where
  acyclic : Acyclic (Subordinates queues root.hostname)
  listed : ∀ qname, Below queues root qname → ∃ ssos ∈ tree, ssos.qinstance.qname = qname
  head : ∃ first, tree.head? = some first
  element : ∀ ssos ∈ tree, ssos.qinstance.hostname = root.hostname ∧
    (0 < ssos.depth → Below queues root ssos.qinstance.qname) ∧
    (ssos.depth = 0 → ssos.qinstance.qname = root.qname)

theorem WalkOf.intro (hacyclic : Acyclic (Subordinates queues root.hostname))
    (hroot : queues.locateQinstance root.qname root.hostname = some root)
    (h : getSlotwiseSosSubTreeQinstances queues fuel root [] 0 = some tree) :
    WalkOf queues root tree where
  acyclic := hacyclic
  listed := fun qname hbelow => mem_slotwiseSosTree hroot h hbelow.to_reflTransGen
  head := by
    obtain ⟨ssos, hmem, -⟩ := mem_slotwiseSosTree hroot h .refl
    cases tree with
    | nil => cases hmem
    | cons first rest => exact ⟨first, rfl⟩
  element := by
    intro ssos hmem
    rcases below_of_mem_slotwiseSosTree hroot h hmem with rfl | ⟨hpos, hhost, hpath⟩
    · exact ⟨rfl, fun hpos => absurd hpos (Nat.lt_irrefl 0), fun _ => rfl⟩
    · exact ⟨hhost, fun _ => hpath, fun hzero => absurd hzero hpos.ne'⟩

theorem WalkOf.count (hwalk : WalkOf queues root tree) (jobs : JobList) :
    countRunningJobsInSlotwiseSosTree tree true jobs =
      (runningCount root.hostname tree jobs, recorded root.hostname tree jobs) := by
  obtain ⟨first, hfirst⟩ := hwalk.head
  exact countRunningJobsInSlotwiseSosTree_suspend hfirst
    (hwalk.element first (List.mem_of_mem_head? hfirst)).1

variable {jobId taskId : ℕ}

variable (hwalk : WalkOf queues root tree)
include hwalk

theorem WalkOf.below {ssos : SsosQinstance}
    (hdepth : 0 < ssos.depth) (hruns : RunsAt root.hostname tree jobs jobId taskId ssos) :
    ∃ qname, qname ≠ root.qname ∧ Below queues root qname ∧
      RunsIn jobs jobId taskId ⟨qname ++ "@" ++ root.hostname, root.hostname⟩ := by
  obtain ⟨qname, hruns, hplace⟩ := hruns
  obtain ⟨hmem, rfl⟩ := placeOf_spec hplace
  obtain ⟨hhost, hbelow, -⟩ := hwalk.element ssos hmem
  refine ⟨ssos.qinstance.qname, fun hsame => ?_, hbelow hdepth, ?_⟩
  · have hloop := hbelow hdepth
    rw [hsame] at hloop
    exact hwalk.acyclic _ hloop
  · rw [QInstance.fullName, hhost] at hruns
    exact hruns

theorem WalkOf.runsAt {qname : String}
    (hbelow : Below queues root qname)
    (hruns : RunsIn jobs jobId taskId ⟨qname ++ "@" ++ root.hostname, root.hostname⟩) :
    ∃ ssos, 0 < ssos.depth ∧ RunsAt root.hostname tree jobs jobId taskId ssos := by
  obtain ⟨listed, hlisted, hname⟩ := hwalk.listed qname hbelow
  have hfull : listed.qinstance.fullName = qname ++ "@" ++ root.hostname := by
    rw [QInstance.fullName, hname, (hwalk.element listed hlisted).1]
  have hsome : (placeOf tree (qname ++ "@" ++ root.hostname)).isSome :=
    List.find?_isSome.mpr ⟨listed, hlisted, beq_iff_eq.mpr hfull⟩
  obtain ⟨ssos, hplace⟩ := Option.isSome_iff_exists.mp hsome
  refine ⟨ssos, ?_, _, hruns, hplace⟩
  obtain ⟨hmem, hplaced⟩ := placeOf_spec hplace
  obtain ⟨hhost, -, hzero⟩ := hwalk.element ssos hmem
  -- the place at depth 0 is the root's, and the root is not below itself
  by_contra hdepth
  rw [QInstance.fullName, hhost, hzero (Nat.eq_zero_of_not_pos hdepth)] at hplaced
  rw [Below, ← qname_inj hplaced] at hbelow
  exact hwalk.acyclic _ hbelow

theorem WalkOf.asNeeded_iff :
    SuspendsAsNeeded queues root tree jobs
        (suspensionOrder (runningCount root.hostname tree jobs - getSlotwiseSosThreshold root)
          (recorded root.hostname tree jobs)) ↔
      HoldFewBefore root tree jobs ∧ TasksInSight root tree jobs := by
  have hlen := length_suspensionOrder_le
    (runningCount root.hostname tree jobs - getSlotwiseSosThreshold root)
    (recorded root.hostname tree jobs)
  obtain ⟨-, hsteps, hcount, hend⟩ := xTasks_recorded root.hostname tree jobs
    (runningCount root.hostname tree jobs - getSlotwiseSosThreshold root)
  have hheld := runningCount_after root.hostname tree jobs
  unfold HoldFewBefore TasksInSight
  rw [hwalk.count]
  dsimp only
  generalize suspensionOrder (runningCount root.hostname tree jobs - getSlotwiseSosThreshold root)
    (recorded root.hostname tree jobs) = signals at hsteps hcount hlen hend ⊢
  have hsplit : ∀ n (hn : n < signals.length),
      signals = signals.take n ++ signals[n] :: signals.drop (n + 1) := by
    intro n hn
    rw [← List.drop_eq_getElem_cons hn, List.take_append_drop]
  constructor
  · intro h
    refine ⟨fun n hn => ?_, fun n hn hfew jobId taskId ssos hpos hruns => ?_⟩
    · have hneeded := h.needed _ _ _ (hsplit n hn)
      have hsum := hheld (signals.take n)
      rw [hwalk.count] at hneeded
      dsimp only at hneeded
      omega
    · rcases lt_or_ge n signals.length with hlt | hge
      · exact (hsteps _ _ _ (hsplit n hlt)).extreme_iff.mp (h.deepest _ _ _ (hsplit n hlt))
      · -- the loop has ended before `diff` tasks, with the count above the threshold
        rw [List.take_of_length_le hge] at hfew hruns
        have hsum := hheld signals
        obtain ⟨qname, -, hbelow, hruns⟩ := hwalk.below hpos hruns
        rcases h.enough with hle | hnone
        · rw [hwalk.count] at hle
          dsimp only at hle
          omega
        · exact absurd hruns (hnone qname hbelow jobId taskId)
  · rintro ⟨hfew, hsight⟩
    have htake : ∀ before signal after, signals = before ++ signal :: after →
        before.length < signals.length ∧ signals.take before.length = before := by
      intro before signal after h
      rw [h, List.length_append, List.length_cons, List.take_left]
      exact ⟨by omega, rfl⟩
    refine ⟨?_, ?_, ?_, ?_⟩
    · intro before signal after h
      obtain ⟨hlt, hbefore⟩ := htake before signal after h
      have hheldFew := hfew before.length hlt
      have hsum := hheld before
      rw [hbefore] at hheldFew
      rw [hwalk.count]
      dsimp only
      omega
    · rw [hwalk.count]
      dsimp only
      by_contra hcontra
      obtain ⟨hmany, hleft⟩ := not_or.mp hcontra
      have hsum := hheld signals
      have hshort : signals.length <
          runningCount root.hostname tree jobs - getSlotwiseSosThreshold root := by omega
      rcases hend with hall | hnone
      · omega
      · push Not at hleft
        obtain ⟨qname, hbelow, jobId, taskId, hruns⟩ := hleft
        obtain ⟨ssos, hpos, hruns⟩ := hwalk.runsAt hbelow hruns
        have hin := hsight signals.length hshort
        rw [List.take_length] at hin
        obtain ⟨top, task, hnoted, hextreme, htop⟩ :=
          hin (by omega) jobId taskId ssos hpos hruns
        obtain ⟨found, task', hfound, -⟩ :=
          mostExtremeTask_spec hnoted (extreme_iff.mp hextreme) htop
        rw [hnone] at hfound
        cases hfound
    · intro before signal after h
      obtain ⟨ssos, -, hpos, hruns⟩ := (hsteps before signal after h).runsAt
      exact hwalk.below hpos hruns
    · intro before signal after h
      obtain ⟨hlt, hbefore⟩ := htake before signal after h
      have hchosen := hsteps before signal after h
      obtain ⟨ssos, -, hpos, hruns⟩ := hchosen.runsAt
      have hheldFew := hfew before.length hlt
      have hin := hsight before.length (lt_of_lt_of_le hlt hlen) hheldFew
      rw [hbefore] at hin
      exact hchosen.extreme_iff.mpr (hin _ _ ssos hpos hruns)

omit hwalk

/-- In an acyclic tree the check comes back. It suspends what it must and no more if and only if
the tasks that go before one of the first `diff` tasks hold fewer than `diff` queue instances and
the tasks are in sight. -/
theorem suspendsAsNeeded_iff (hacyclic : Acyclic (Subordinates queues root.hostname))
    (hroot : queues.locateQinstance root.qname root.hostname = some root)
    (hthreshold : 0 < getSlotwiseSosThreshold root) :
    ∃ needed, ∀ fuel ≥ needed, ∃ tree signals,
      getSlotwiseSosSubTreeQinstances queues fuel root [] 0 = some tree ∧
      doSlotwiseXOnSubordinateCheck queues (fuel + 1) root true true jobs =
        some (true, signals, jobs.after signals) ∧
      (SuspendsAsNeeded queues root tree jobs signals ↔
        HoldFewBefore root tree jobs ∧ TasksInSight root tree jobs) := by
  refine ⟨height (Subordinates queues root.hostname) root.qname + 1, fun fuel hfuel => ?_⟩
  obtain ⟨tree, htree⟩ := getSlotwiseSosSubTreeQinstances_returns hacyclic fuel hroot
    (by omega) [] 0
  have hwalk : WalkOf queues root tree := WalkOf.intro hacyclic hroot htree
  obtain ⟨hloop, -⟩ := xTasks_recorded root.hostname tree jobs
    (runningCount root.hostname tree jobs - getSlotwiseSosThreshold root)
  refine ⟨tree, _, htree, ?_, hwalk.asNeeded_iff⟩
  unfold doSlotwiseXOnSubordinateCheck
  simp only [if_true, Option.bind_eq_bind, Option.bind_some, if_neg hthreshold.ne', htree,
    hwalk.count, hloop, Bool.not_true, Bool.and_false, Bool.false_eq_true, if_false]

end InVain

theorem low_named : ∀ qi ∈ [(⟨"low", "host", []⟩ : QInstance)], qi.qname = "low" := by decide

/-- Two queue instances below a root that allows two tasks. -/
def threeQueues : ClusterQueueList where
  cqueues :=
    [⟨"high", [⟨"high", "host", [⟨"low", 0, 2, 2, 1⟩, ⟨"mid", 0, 2, 1, 1⟩]⟩], by decide⟩,
      ⟨"mid", [⟨"mid", "host", []⟩], by decide⟩, ⟨"low", [⟨"low", "host", []⟩], low_named⟩]
  unique := by decide

def highInstance : QInstance := ⟨"high", "host", [⟨"low", 0, 2, 2, 1⟩, ⟨"mid", 0, 2, 1, 1⟩]⟩

/-- The first job has a task in two of the queue instances. -/
def threeJobs : JobList where
  jobs :=
    [⟨1, [⟨1, 0x80, 0, 5, [⟨"low@host", "host"⟩, ⟨"mid@host", "host"⟩]⟩], by decide⟩,
      ⟨2, [⟨1, 0x80, 0, 3, [⟨"low@host", "host"⟩]⟩], by decide⟩,
      ⟨3, [⟨1, 0x80, 0, 1, [⟨"high@host", "host"⟩]⟩], by decide⟩]
  unique := by decide

theorem acyclic_threeQueues : Acyclic (Subordinates threeQueues "host") := by
  have hedge : ∀ sup sub, Subordinates threeQueues "host" sup sub →
      sup = "high" ∧ sub ≠ "high" := by
    rintro sup sub ⟨qi, hqi, ⟨so, hso, rfl, -⟩, -⟩
    obtain ⟨cqueue, hmem, rfl, hlocate⟩ := locateQinstance_iff.mp hqi
    have hlist : ∀ cqueue ∈ threeQueues.cqueues, ∀ qi ∈ cqueue.qinstances,
        ∀ so ∈ qi.subordinateList, cqueue.name = "high" ∧ so.name ≠ "high" := by decide
    exact hlist cqueue hmem qi (List.mem_of_find?_eq_some hlocate) so hso
  intro q hpath
  obtain ⟨_, hfirst, -⟩ := TransGen.head'_iff.mp hpath
  obtain ⟨_, -, hlast⟩ := TransGen.tail'_iff.mp hpath
  exact (hedge _ _ hlast).2 (hedge _ _ hfirst).1

theorem suspendsAsNeeded_iff_threeQueues :
    ∃ needed, ∀ fuel ≥ needed, ∃ tree signals,
      getSlotwiseSosSubTreeQinstances threeQueues fuel highInstance [] 0 = some tree ∧
      doSlotwiseXOnSubordinateCheck threeQueues (fuel + 1) highInstance true true threeJobs =
        some (true, signals, threeJobs.after signals) ∧
      (SuspendsAsNeeded threeQueues highInstance tree threeJobs signals ↔
        HoldFewBefore highInstance tree threeJobs ∧ TasksInSight highInstance tree threeJobs) :=
  suspendsAsNeeded_iff acyclic_threeQueues (by decide +kernel) (by decide)

/-- The first suspension frees two queue instances, and a second task is suspended in vain. -/
theorem not_suspendsAsNeeded :
    ¬ ∀ (queues : ClusterQueueList) (root : QInstance) (jobs : JobList) (fuel : ℕ)
        (tree : List SsosQinstance) (signals : List Signal),
      Acyclic (Subordinates queues root.hostname) →
      queues.locateQinstance root.qname root.hostname = some root →
      0 < getSlotwiseSosThreshold root →
      (∀ job ∈ jobs.jobs, ∀ task ∈ job.jaTasks, 0 < task.startTime) →
      getSlotwiseSosSubTreeQinstances queues fuel root [] 0 = some tree →
      doSlotwiseXOnSubordinateCheck queues (fuel + 1) root true true jobs =
        some (true, signals, jobs.after signals) →
      SuspendsAsNeeded queues root tree jobs signals := by
  intro h
  have hneeded := (h threeQueues highInstance threeJobs 3
    [⟨1, 1, 1, ⟨"mid", "host", []⟩, some highInstance⟩,
      ⟨2, 1, 1, ⟨"low", "host", []⟩, some highInstance⟩, ⟨0, 0, 0, highInstance, none⟩]
    [⟨⟨"low", "host", []⟩, 1, 1⟩, ⟨⟨"low", "host", []⟩, 2, 1⟩]
    acyclic_threeQueues (by decide +kernel) (by decide) (by decide) (by decide +kernel)
    (by decide +kernel)).needed [⟨⟨"low", "host", []⟩, 1, 1⟩] ⟨⟨"low", "host", []⟩, 2, 1⟩ [] rfl
  exact absurd hneeded (by decide +kernel)

end ClusterScheduler.Qmaster.Slotwise
