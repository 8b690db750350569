import ClusterScheduler.Events.JobMirror

/-!
# The total update of the job list

A client that registers is sent all lists as they are then. They go through the queue behind
the events that still wait there. Those events are already in the lists: they are blocked
until the list is queued for the client.

* `totalUpdate`, `registerClient` — a client registers.
* `changeEvents`, `numberedEvents` — the events of changes before and after it, and what is
  queued for the client.
* `TotalUpdateConsistent` — no change is sent before the list, and the list with the changes
  sent after it is the master list.
* `total_update_consistent_iff` — for which waiting changes this is so.

Of the other lists only the events are kept. The client has no session and no filters.
-/

namespace ClusterScheduler.Events

variable {β : Type*}

/-! ## Registration -/

def jobRow : List EvEvent :=
  [.jobAdd, .jobDel, .jobMod, .jobUsage, .jobFinalUsage, .jobFinish]

def taskRow : List EvEvent :=
  [.jataskAdd, .jataskDel, .jataskMod, .petaskAdd, .petaskMod, .petaskDel]

def isJobEvent (type : EvEvent) : Bool := type ∈ jobRow ++ taskRow

def totalUpdateEvent (jobs : JobList β) (type : EvEvent) : Event (JobVersion β) :=
  { type := type, newVersion := if type = .jobList then some (.jobs jobs) else none }

def totalUpdate (clientId : ℕ) (ec : EventClient (JobVersion β)) (jobs : JobList β) :
    List (QueuedEvent (JobVersion β)) :=
  (totalUpdateEvents.filter (eventclientSubscribed ec · none)).map fun type =>
    { eventClientId := some clientId, session := none, event := totalUpdateEvent jobs type }

def jobSubscription (other : EvEvent → Bool) (type : EvEvent) : Bool :=
  isJobEvent type || type = .jobList || other type

def registerClient (other : EvEvent → Bool) : EventClient (JobVersion β) :=
  blockEvents (addEventClient none (jobSubscription other) (fun _ new => some new)) .allEvents
    true

def queueForAll (events : List (Event (JobVersion β))) : List (QueuedEvent (JobVersion β)) :=
  events.map fun event => { eventClientId := none, session := none, event := event }

/-! ## Changes before and after -/

def changeAll (jobs : JobList β) (changes : List (JobChange β)) : JobList β :=
  changes.foldl changeJobs jobs

def changeEvents (jobs : JobList β) : List (JobChange β) → List (Event (JobVersion β))
  | [] => []
  | change :: changes =>
    let jobs := changeJobs jobs change
    eventOf jobs change :: changeEvents jobs changes

/-- All events that are numbered for a client. It registers after the changes that wait in
the queue and before the others. -/
def numberedEvents (clientId : ℕ) (other : EvEvent → Bool) (jobs : JobList β)
    (waiting later : List (JobChange β)) : List (Event (JobVersion β)) :=
  let snapshot := changeAll jobs waiting
  let ec := registerClient other
  let queue := queueForAll (changeEvents jobs waiting) ++ totalUpdate clientId ec snapshot ++
    queueForAll (changeEvents snapshot later)
  (queue.foldl (processQueued clientId) ec).events

def beforeJobList (event : Event (JobVersion β)) : Bool := event.type ≠ .jobList

/-- No change is sent before the job list, and a mirror that has gone through all events from
the job list on has the master list. -/
def TotalUpdateConsistent (clientId : ℕ) (other : EvEvent → Bool) (jobs : JobList β)
    (waiting later : List (JobChange β)) : Prop :=
  let events := numberedEvents clientId other jobs waiting later
  (∀ event ∈ events.takeWhile beforeJobList, isJobEvent event.type = false) ∧
    ∀ replica, (events.dropWhile beforeJobList).foldl processEvent replica =
      changeAll (changeAll jobs waiting) later

def JobChange.ofTask : JobChange β → Bool
  | .jobAdd .. | .jobMod .. | .jobDel .. | .jobUsage .. | .jobFinalUsage .. | .jobFinish .. =>
    false
  | .jataskAdd .. | .jataskMod .. | .jataskDel .. | .petaskAdd .. | .petaskDel .. => true

/-! ## What is blocked -/

theorem blockRows_blocked {α : Type*} (ec : EventClient α) (isBlock : Bool)
    (rows : List (EvEvent × List EvEvent)) (type : EvEvent) :
    (blockRows ec isBlock rows).blocked type =
      if rows.any (fun entry => ec.subscribed entry.1 && decide (type ∈ entry.2)) then isBlock
      else ec.blocked type := by
  unfold blockRows
  induction rows generalizing ec with
  | nil => rfl
  | cons entry rows ih =>
    rw [List.foldl_cons, ih, List.any_cons]
    cases hsub : ec.subscribed entry.1 with
    | false => rw [if_neg Bool.false_ne_true, Bool.false_and, Bool.false_or]
    | true =>
      rw [if_pos rfl, Bool.true_and]
      change (if (rows.any fun row => ec.subscribed row.1 && decide (type ∈ row.2)) = true then
          isBlock else if type ∈ entry.2 then isBlock else ec.blocked type) = _
      by_cases htype : type ∈ entry.2
      · rw [if_pos htype, ite_self, decide_eq_true htype, Bool.true_or, if_pos rfl]
      · rw [if_neg htype, decide_eq_false htype, Bool.false_or]

/-- A client of jobs, the changes that belong to the job list are blocked or not. -/
structure Registered (other : EvEvent → Bool) (isBlock : Bool)
    (ec : EventClient (JobVersion β)) : Prop where
  state : ec.state = .connected
  session : ec.session = none
  subscribed : ec.subscribed = jobSubscription other
  select : ec.select = fun _ new => some new
  jobs : ∀ type ∈ jobRow, ec.blocked type = isBlock
  tasks : ∀ type ∈ taskRow, ec.blocked type = false
  lists : ∀ type ∈ totalUpdateEvents, ec.blocked type = false

variable {other : EvEvent → Bool} {isBlock : Bool} {ec : EventClient (JobVersion β)}

theorem registerClient_registered (other : EvEvent → Bool) :
    Registered other true (registerClient (β := β) other) := by
  obtain ⟨blocked, hrest⟩ := blockRows_rest
    (addEventClient none (jobSubscription other) fun _ (new : JobVersion β) => some new) true
    (totalUpdateEvents.zip blockedByList)
  have hrows : registerClient (β := β) other = blockRows
      (addEventClient none (jobSubscription other) fun _ new => some new) true
      (totalUpdateEvents.zip blockedByList) := by
    rw [registerClient, blockEvents, if_pos rfl]
  have hfree : ∀ type : EvEvent, (∀ entry ∈ totalUpdateEvents.zip blockedByList,
      type ∉ entry.2) → (registerClient (β := β) other).blocked type = false := by
    intro type hnot
    rw [hrows, blockRows_blocked, if_neg]
    · rfl
    · rw [List.any_eq_true]
      rintro ⟨entry, hentry, hmem⟩
      rw [Bool.and_eq_true, decide_eq_true_eq] at hmem
      exact hnot entry hentry hmem.2
  constructor
  · rw [hrows, hrest]
    rfl
  · rw [hrows, hrest]
    rfl
  · rw [hrows, hrest]
    rfl
  · rw [hrows, hrest]
    rfl
  · intro type htype
    rw [hrows, blockRows_blocked, if_pos]
    rw [List.any_eq_true]
    refine ⟨(.jobList, jobRow), by decide, ?_⟩
    rw [Bool.and_eq_true, decide_eq_true_eq]
    exact ⟨rfl, htype⟩
  · intro type htype
    apply hfree
    revert type
    decide
  · intro type htype
    apply hfree
    revert type
    decide

/-! ## One event of the queue -/

/-- What waits for a list. -/
def blockRow (type : EvEvent) : List EvEvent :=
  match (totalUpdateEvents.zip blockedByList).find? (fun entry => entry.1 = type) with
  | some entry => entry.2
  | none => []

theorem blockEvents_row {α : Type*} (ec : EventClient α) {type : EvEvent}
    (htype : type ≠ .allEvents) (isBlock : Bool) :
    blockEvents ec type isBlock = setBlocked ec (blockRow type) isBlock := by
  rw [blockEvents, if_neg htype, blockRow]
  cases (totalUpdateEvents.zip blockedByList).find? (fun entry => entry.1 = type) with
  | some entry => rfl
  | none => simp [setBlocked]

variable (h : Registered other isBlock ec)
include h

theorem Registered.setBlocked {type : EvEvent} (htype : type ∈ totalUpdateEvents) :
    Registered other (isBlock && type ≠ .jobList) (setBlocked ec (blockRow type) false) := by
  constructor
  · exact h.state
  · exact h.session
  · exact h.subscribed
  · exact h.select
  · intro t ht
    by_cases hlist : type = .jobList
    · have hrow : t ∈ blockRow type := by
        rw [hlist]
        exact ht
      have hfalse : (isBlock && decide (type ≠ .jobList)) = false := by simp [hlist]
      rw [hfalse]
      exact if_pos hrow
    · have hrow : ∀ type ∈ totalUpdateEvents, type ≠ .jobList → ∀ t ∈ jobRow,
          t ∉ blockRow type := by decide
      have hkept : (isBlock && decide (type ≠ .jobList)) = isBlock := by simp [hlist]
      rw [hkept, ← h.jobs t ht]
      exact if_neg (hrow type htype hlist t ht)
  · intro t ht
    have hrow : ∀ type ∈ totalUpdateEvents, ∀ t ∈ taskRow, t ∉ blockRow type := by decide
    rw [← h.tasks t ht]
    exact if_neg (hrow type htype t ht)
  · intro t ht
    have hrow : ∀ type ∈ totalUpdateEvents, ∀ t ∈ totalUpdateEvents, t ∉ blockRow type := by
      decide
    rw [← h.lists t ht]
    exact if_neg (hrow type htype t ht)

theorem Registered.chainEvent (event : Event (JobVersion β)) :
    Registered other isBlock (chainEvent ec event) :=
  ⟨h.state, h.session, h.subscribed, h.select, h.jobs, h.tasks, h.lists⟩

theorem Registered.selectEvent
    (event : Event (JobVersion β)) : selectEvent ec event = some event :=
  selectEvent_all h.select event

omit h

variable {event : Event (JobVersion β)}

variable (h : Registered other isBlock ec)
include h

theorem Registered.addListEventDirect {b : Bool}
    (hrow : Registered other b (Events.setBlocked ec (blockRow event.type) false))
    (hall : event.type ≠ .allEvents) (hshutdown : event.type ≠ .shutdown) :
    addListEventDirect ec event =
      Events.chainEvent (Events.setBlocked ec (blockRow event.type) false) event := by
  unfold Events.addListEventDirect
  rw [if_neg (not_not.mpr h.state), blockEvents_row ec hall]
  dsimp only
  rw [hrow.selectEvent]
  exact if_neg hshutdown

/-- **A change** is queued unless it is blocked. -/
theorem Registered.processChange (clientId : ℕ) (htype : isJobEvent event.type = true) :
    processQueued clientId ec { eventClientId := none, session := none, event := event } =
      if ec.blocked event.type then ec else Events.chainEvent ec event := by
  have hmem := of_decide_eq_true htype
  have hother : ∀ type ∈ jobRow ++ taskRow,
      blockRow type = [] ∧ type ≠ .allEvents ∧ type ≠ .shutdown := by decide
  obtain ⟨hrow, hall, hshutdown⟩ := hother _ hmem
  have hkept : Events.setBlocked ec (blockRow event.type) false = ec := by
    rw [hrow]
    simp [Events.setBlocked]
  have hsubscribed : ec.subscribed event.type = true := by
    rw [h.subscribed, jobSubscription, htype, Bool.true_or, Bool.true_or]
  unfold processQueued eventclientSubscribed
  rw [h.session]
  cases hblocked : ec.blocked event.type with
  | true => simp [hsubscribed]
  | false =>
    have hself : Registered other isBlock (Events.setBlocked ec (blockRow event.type) false) := by
      rwa [hkept]
    have hadd := h.addListEventDirect hself hall hshutdown
    rw [hkept] at hadd
    simp [hsubscribed, hadd]

/-- **A list** is queued, and what waits for it is not blocked any more. -/
theorem Registered.processList (clientId : ℕ)
    (jobs : JobList β) {type : EvEvent} (htype : type ∈ totalUpdateEvents)
    (hsubscribed : jobSubscription other type = true) :
    processQueued clientId ec
        { eventClientId := some clientId, session := none,
          event := totalUpdateEvent jobs type } =
      Events.chainEvent (Events.setBlocked ec (blockRow type) false)
        (totalUpdateEvent jobs type) := by
  have hother : ∀ type ∈ totalUpdateEvents, type ≠ .allEvents ∧ type ≠ .shutdown := by decide
  obtain ⟨hall, hshutdown⟩ := hother type htype
  have hsub : eventclientSubscribed ec type none = true := by
    unfold eventclientSubscribed
    rw [h.session]
    dsimp only
    rw [h.subscribed, hsubscribed, h.lists type htype]
    rfl
  unfold processQueued
  rw [if_pos ⟨Or.inr rfl, hsub⟩]
  exact h.addListEventDirect (h.setBlocked htype) hall hshutdown

/-! ## What is queued -/

def content (event : Event (JobVersion β)) : Event (JobVersion β) := { event with number := 0 }

def passes (isBlock : Bool) (event : Event (JobVersion β)) : Bool :=
  !(isBlock && decide (event.type ∈ jobRow))

theorem Registered.blocked_eq (htype : isJobEvent event.type = true) :
    ec.blocked event.type = !passes isBlock event := by
  unfold passes
  rcases List.mem_append.mp (of_decide_eq_true htype) with hjob | htask
  · rw [h.jobs _ hjob, decide_eq_true hjob, Bool.and_true, Bool.not_not]
  · have hnot : ∀ type ∈ taskRow, type ∉ jobRow := by decide
    rw [h.tasks _ htask, decide_eq_false (hnot _ htask), Bool.and_false, Bool.not_not]

theorem Registered.processChanges (clientId : ℕ) {events : List (Event (JobVersion β))}
    (htypes : ∀ event ∈ events, isJobEvent event.type = true) :
    Registered other isBlock ((queueForAll events).foldl (processQueued clientId) ec) ∧
      ((queueForAll events).foldl (processQueued clientId) ec).events.map content =
        ec.events.map content ++ (events.filter (passes isBlock)).map content := by
  induction events generalizing ec with
  | nil => exact ⟨h, (List.append_nil _).symm⟩
  | cons event events ih =>
    have htype := htypes event (.head _)
    have hrest := fun other hother => htypes other (.tail _ hother)
    have hblocked := h.blocked_eq htype
    rw [queueForAll, List.map_cons, List.foldl_cons, h.processChange clientId htype]
    cases hpass : passes isBlock event with
    | true =>
      rw [hpass] at hblocked
      rw [hblocked, List.filter_cons_of_pos hpass]
      obtain ⟨hreg, hevents⟩ := ih (h.chainEvent event) hrest
      refine ⟨hreg, hevents.trans ?_⟩
      rw [Events.chainEvent, List.map_append, List.append_assoc]
      rfl
    | false =>
      rw [hpass] at hblocked
      rw [hblocked, List.filter_cons_of_neg (by rw [hpass]; exact Bool.false_ne_true)]
      exact ih h hrest

omit h

variable {types : List EvEvent}

theorem Registered.processLists (h : Registered other isBlock ec) (clientId : ℕ) (jobs : JobList β)
    (htypes : ∀ type ∈ types, type ∈ totalUpdateEvents ∧ jobSubscription other type = true) :
    let queue := types.map fun type : EvEvent =>
      ({ eventClientId := some clientId, session := none,
         event := totalUpdateEvent jobs type } : QueuedEvent (JobVersion β))
    Registered other (isBlock && !types.contains .jobList)
        (queue.foldl (processQueued clientId) ec) ∧
      (queue.foldl (processQueued clientId) ec).events.map content =
        ec.events.map content ++ types.map (totalUpdateEvent jobs) := by
  induction types generalizing ec isBlock with
  | nil =>
    refine ⟨?_, (List.append_nil _).symm⟩
    rw [List.contains_nil, Bool.not_false, Bool.and_true]
    exact h
  | cons type types ih =>
    obtain ⟨htype, hsubscribed⟩ := htypes type (.head _)
    have hrest := fun other hother => htypes other (.tail _ hother)
    dsimp only
    rw [List.map_cons, List.foldl_cons, h.processList clientId jobs htype hsubscribed]
    obtain ⟨hreg, hevents⟩ :=
      ih ((h.setBlocked htype).chainEvent (totalUpdateEvent jobs type)) hrest
    constructor
    · have hflag : (isBlock && !(type :: types).contains EvEvent.jobList) =
          (isBlock && decide (type ≠ .jobList) && !types.contains .jobList) := by
        rw [List.contains_cons, Bool.not_or, Bool.and_assoc]
        congr 2
        by_cases hlist : type = .jobList
        · rw [hlist]
          rfl
        · rw [decide_eq_true hlist, Bool.not_eq_true']
          exact beq_eq_false_iff_ne.mpr (Ne.symm hlist)
      rw [hflag]
      exact hreg
    · refine hevents.trans ?_
      rw [Events.chainEvent, List.map_append, List.append_assoc]
      rfl

/-! ## Types of changes -/

def JobChange.type : JobChange β → EvEvent
  | .jobAdd .. => .jobAdd
  | .jobMod .. => .jobMod
  | .jobDel .. => .jobDel
  | .jobUsage .. => .jobUsage
  | .jobFinalUsage .. => .jobFinalUsage
  | .jobFinish .. => .jobFinish
  | .jataskAdd .. => .jataskAdd
  | .jataskMod .. => .jataskMod
  | .jataskDel .. => .jataskDel
  | .petaskAdd .. => .petaskAdd
  | .petaskDel .. => .petaskDel

theorem changeEvents_types (jobs : JobList β) (changes : List (JobChange β)) :
    (changeEvents jobs changes).map Event.type = changes.map JobChange.type := by
  induction changes generalizing jobs with
  | nil => rfl
  | cons change changes ih =>
    rw [changeEvents, List.map_cons, List.map_cons, ih]
    congr 1
    cases change <;> rfl

theorem forall_changeEvents {P : EvEvent → Prop} (jobs : JobList β) (changes : List (JobChange β)) :
    (∀ event ∈ changeEvents jobs changes, P event.type) ↔ ∀ change ∈ changes, P change.type := by
  rw [← List.forall_mem_map, changeEvents_types, List.forall_mem_map]

theorem isJobEvent_type (change : JobChange β) : isJobEvent change.type = true := by
  cases change <;> rfl

theorem type_mem_jobRow_iff (change : JobChange β) :
    change.type ∈ jobRow ↔ change.ofTask = false := by
  cases change <;> simp [JobChange.type, JobChange.ofTask, jobRow]

/-! ## The replica -/

theorem foldl_changeEvents (jobs : JobList β) (changes : List (JobChange β)) :
    (changeEvents jobs changes).foldl processEvent jobs = changeAll jobs changes := by
  induction changes generalizing jobs with
  | nil => rfl
  | cons change changes ih =>
    rw [changeEvents, List.foldl_cons, processEvent_change, ih]
    rfl

theorem foldl_totalUpdate (jobs : JobList β) (htypes : ∀ type ∈ types, type ∈ totalUpdateEvents) :
    (types.map (totalUpdateEvent jobs)).foldl processEvent jobs = jobs := by
  induction types with
  | nil => rfl
  | cons type types ih =>
    have hself : processEvent jobs (totalUpdateEvent jobs type) = jobs := by
      have htype := htypes type (.head _)
      simp only [totalUpdateEvents, List.mem_cons, List.not_mem_nil, or_false] at htype
      rcases htype with rfl | rfl | rfl | rfl | rfl | rfl | rfl | rfl | rfl | rfl | rfl | rfl |
        rfl | rfl | rfl | rfl | rfl | rfl <;> rfl
    rw [List.map_cons, List.foldl_cons, hself]
    exact ih fun other hother => htypes other (.tail _ hother)

theorem foldl_content (replica : JobList β) (events : List (Event (JobVersion β))) :
    (events.map content).foldl processEvent replica = events.foldl processEvent replica := by
  rw [List.foldl_map]
  rfl

/-- **What is numbered for the client**: the changes that are not blocked, the lists, and
all later changes. -/
theorem numberedEvents_content (clientId : ℕ) (other : EvEvent → Bool) (jobs : JobList β)
    (waiting later : List (JobChange β)) :
    ∃ before after : List EvEvent,
      (∀ type ∈ before ++ after, type ∈ totalUpdateEvents) ∧ .jobList ∉ before ∧
      (numberedEvents clientId other jobs waiting later).map content =
        ((changeEvents jobs waiting).filter (passes true)).map content ++
          before.map (totalUpdateEvent (changeAll jobs waiting)) ++
          totalUpdateEvent (changeAll jobs waiting) .jobList ::
            (after.map (totalUpdateEvent (changeAll jobs waiting)) ++
              (changeEvents (changeAll jobs waiting) later).map content) := by
  have hreg := registerClient_registered (β := β) other
  have hsubscribed : ∀ type, eventclientSubscribed (registerClient (β := β) other) type none =
      (jobSubscription other type && !(registerClient (β := β) other).blocked type) := by
    intro type
    unfold eventclientSubscribed
    rw [hreg.session, hreg.subscribed]
  have hlists : ∀ type ∈ totalUpdateEvents.filter
      (eventclientSubscribed (registerClient (β := β) other) · none),
      type ∈ totalUpdateEvents ∧ jobSubscription other type = true := by
    intro type htype
    obtain ⟨hmem, hsub⟩ := List.mem_filter.mp htype
    rw [hsubscribed, Bool.and_eq_true] at hsub
    exact ⟨hmem, hsub.1⟩
  have hjobList : .jobList ∈ totalUpdateEvents.filter
      (eventclientSubscribed (registerClient (β := β) other) · none) := by
    apply List.mem_filter.mpr
    refine ⟨by decide, ?_⟩
    rw [hsubscribed, hreg.lists _ (by decide)]
    rfl
  obtain ⟨before, after, hsplit, hbefore⟩ := List.eq_append_cons_of_mem hjobList
  refine ⟨before, after, ?_, hbefore, ?_⟩
  · intro type htype
    apply (hlists type _).1
    rw [hsplit]
    rcases List.mem_append.mp htype with h | h
    · exact List.mem_append_left _ h
    · exact List.mem_append_right _ (.tail _ h)
  · have hjob : ∀ jobs (changes : List (JobChange β)), ∀ event ∈ changeEvents jobs changes,
        isJobEvent event.type = true := by
      intro jobs changes
      apply (forall_changeEvents (P := fun type => isJobEvent type = true) jobs changes).mpr
      exact fun change _ => isJobEvent_type change
    obtain ⟨hwaiting, hwaitingEvents⟩ := hreg.processChanges clientId (hjob jobs waiting)
    obtain ⟨hupdate, hupdateEvents⟩ :=
      hwaiting.processLists clientId (changeAll jobs waiting) hlists
    obtain ⟨-, hlaterEvents⟩ :=
      hupdate.processChanges clientId (hjob (changeAll jobs waiting) later)
    have hflag : (true && !(totalUpdateEvents.filter
        (eventclientSubscribed (registerClient (β := β) other) · none)).contains
          EvEvent.jobList) = false := by
      rw [List.contains_iff_mem.mpr hjobList]
      rfl
    have hall : (changeEvents (changeAll jobs waiting) later).filter (passes false) =
        changeEvents (changeAll jobs waiting) later :=
      List.filter_eq_self.mpr fun _ _ => rfl
    rw [hflag, hall] at hlaterEvents
    unfold numberedEvents totalUpdate
    dsimp only
    rw [List.foldl_append, List.foldl_append, hlaterEvents, hupdateEvents, hwaitingEvents, hsplit,
      List.map_append, List.map_cons]
    have hnone : (registerClient (β := β) other).events = [] := by
      obtain ⟨blocked, hrest⟩ := blockEvents_rest
        (addEventClient none (jobSubscription other) fun _ (new : JobVersion β) => some new)
        .allEvents true
      rw [registerClient, hrest]
      rfl
    rw [hnone]
    simp

/-! ## When a total update is consistent -/

theorem isJobEvent_changeEvents (jobs : JobList β) (changes : List (JobChange β)) :
    ∀ event ∈ changeEvents jobs changes, isJobEvent event.type = true := by
  apply (forall_changeEvents (P := fun type => isJobEvent type = true) jobs changes).mpr
  exact fun change _ => isJobEvent_type change

theorem numberedEvents_split (clientId : ℕ) (other : EvEvent → Bool) (jobs : JobList β)
    (waiting later : List (JobChange β)) :
    ∃ before after : List EvEvent, (∀ type ∈ before ++ after, type ∈ totalUpdateEvents) ∧
      ((numberedEvents clientId other jobs waiting later).takeWhile beforeJobList).map content =
        ((changeEvents jobs waiting).filter (passes true)).map content ++
          before.map (totalUpdateEvent (changeAll jobs waiting)) ∧
      ((numberedEvents clientId other jobs waiting later).dropWhile beforeJobList).map content =
        totalUpdateEvent (changeAll jobs waiting) .jobList ::
          (after.map (totalUpdateEvent (changeAll jobs waiting)) ++
            (changeEvents (changeAll jobs waiting) later).map content) := by
  obtain ⟨before, after, hmem, hbefore, hcontent⟩ :=
    numberedEvents_content clientId other jobs waiting later
  have hfront : ∀ event ∈ ((changeEvents jobs waiting).filter (passes true)).map content ++
      before.map (totalUpdateEvent (changeAll jobs waiting)), beforeJobList event = true := by
    intro event hevent
    apply decide_eq_true
    rcases List.mem_append.mp hevent with hwait | hupdate
    · obtain ⟨original, horiginal, rfl⟩ := List.mem_map.mp hwait
      have hjob := isJobEvent_changeEvents jobs waiting original (List.mem_of_mem_filter horiginal)
      intro heq
      rw [show original.type = .jobList from heq] at hjob
      exact absurd hjob (by decide)
    · obtain ⟨type, htype, rfl⟩ := List.mem_map.mp hupdate
      exact fun heq => hbefore (heq ▸ htype)
  have hstop : beforeJobList (totalUpdateEvent (changeAll jobs waiting) .jobList) = false := rfl
  refine ⟨before, after, hmem, ?_, ?_⟩
  · have hmap := List.takeWhile_map (f := content) (p := beforeJobList)
      (l := numberedEvents clientId other jobs waiting later)
    rw [hcontent, List.takeWhile_append_of_pos hfront, List.takeWhile_cons, hstop] at hmap
    rw [← List.append_nil (_ ++ _)]
    exact hmap.symm
  · have hmap := List.dropWhile_map (f := content) (p := beforeJobList)
      (l := numberedEvents clientId other jobs waiting later)
    rw [hcontent, List.dropWhile_append_of_pos hfront, List.dropWhile_cons, hstop] at hmap
    exact hmap.symm

/-- **The list and what comes after it** always make the master list. -/
theorem replica_after_jobList (clientId : ℕ) (other : EvEvent → Bool) (jobs : JobList β)
    (waiting later : List (JobChange β)) (replica : JobList β) :
    ((numberedEvents clientId other jobs waiting later).dropWhile beforeJobList).foldl
      processEvent replica = changeAll (changeAll jobs waiting) later := by
  obtain ⟨before, after, hmem, -, hdrop⟩ :=
    numberedEvents_split clientId other jobs waiting later
  rw [← foldl_content, hdrop, List.foldl_cons, List.foldl_append, foldl_content]
  change ((changeEvents (changeAll jobs waiting) later).foldl processEvent
    ((after.map (totalUpdateEvent (changeAll jobs waiting))).foldl processEvent
      (changeAll jobs waiting))) = _
  rw [foldl_totalUpdate _ fun type htype => hmem type (List.mem_append_right _ htype),
    foldl_changeEvents]

/-- **What is sent before the list** are the waiting changes that are not blocked. -/
theorem withheld_iff (clientId : ℕ) (other : EvEvent → Bool) (jobs : JobList β)
    (waiting later : List (JobChange β)) :
    (∀ event ∈ (numberedEvents clientId other jobs waiting later).takeWhile beforeJobList,
        isJobEvent event.type = false) ↔
      ∀ event ∈ changeEvents jobs waiting, event.type ∈ jobRow := by
  obtain ⟨before, after, hmem, htake, -⟩ :=
    numberedEvents_split clientId other jobs waiting later
  have hlist : ∀ type ∈ totalUpdateEvents, isJobEvent type = false := by decide
  constructor
  · intro hwithheld event hevent
    by_contra hnot
    have hpass : passes true event = true := by
      unfold passes
      rw [decide_eq_false hnot]
      rfl
    have hsent : content event ∈
        ((numberedEvents clientId other jobs waiting later).takeWhile beforeJobList).map
          content := by
      rw [htake]
      exact List.mem_append_left _ (List.mem_map_of_mem (List.mem_filter.mpr ⟨hevent, hpass⟩))
    obtain ⟨sent, hsentMem, hsame⟩ := List.mem_map.mp hsent
    have htype : (content sent).type = (content event).type := congrArg Event.type hsame
    have hfalse := hwithheld sent hsentMem
    rw [show sent.type = event.type from htype,
      isJobEvent_changeEvents jobs waiting event hevent] at hfalse
    exact Bool.noConfusion hfalse
  · intro hblocked event hevent
    have hcopy := List.mem_map_of_mem (f := content) hevent
    rw [htake] at hcopy
    rcases List.mem_append.mp hcopy with hwait | hupdate
    · obtain ⟨original, horiginal, -⟩ := List.mem_map.mp hwait
      obtain ⟨horig, hpass⟩ := List.mem_filter.mp horiginal
      unfold passes at hpass
      rw [decide_eq_true (hblocked original horig)] at hpass
      exact Bool.noConfusion hpass
    · obtain ⟨type, htype, hsame⟩ := List.mem_map.mp hupdate
      have heq : type = (content event).type := congrArg Event.type hsame
      rw [show event.type = type from heq.symm]
      exact hlist type (hmem type (List.mem_append_left _ htype))

/-- **A total update yields a consistent replica** exactly when no change of an array task or
of a parallel task waits in the queue as the client registers. -/
theorem total_update_consistent_iff (clientId : ℕ) (other : EvEvent → Bool) (jobs : JobList β)
    (waiting later : List (JobChange β)) :
    TotalUpdateConsistent clientId other jobs waiting later ↔
      ∀ change ∈ waiting, change.ofTask = false := by
  have hrow : (∀ event ∈ changeEvents jobs waiting, event.type ∈ jobRow) ↔
      ∀ change ∈ waiting, change.ofTask = false := by
    rw [forall_changeEvents]
    exact forall₂_congr fun change _ => type_mem_jobRow_iff change
  rw [← hrow, ← withheld_iff clientId other jobs waiting later]
  exact and_iff_left (replica_after_jobList clientId other jobs waiting later)

/-- The change of an array task waits as the client registers. It is sent before the list of
the job that it belongs to. -/
theorem total_update_inconsistent :
    ¬ TotalUpdateConsistent (β := ℕ) 100 (fun _ => false)
      (Function.update (fun _ => none) 1 (some
        { fields := 0, notEnrolled := fun _ => false
          jaTasks := fun _ => some
            { fields := 0, scaledUsageList := 0, taskList := fun _ => none } }))
      [.jataskMod 1 1 5] [] := by
  rintro ⟨hwithheld, -⟩
  revert hwithheld
  decide +kernel

end ClusterScheduler.Events
