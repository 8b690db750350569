import Mathlib

/-!
# The event master

The event master keeps for each event client the events that the client has subscribed and
has not acknowledged yet. Each event gets the next number of the client.

* `EvEvent` — the kinds of events.
* `totalUpdateEvents`, `blockedByList` — the lists of a total update, and the events that
  wait for each.
* `EventClient` — what the event master keeps of a client.
* `addListEventDirect`, `purgeEventList` — an event is numbered and queued, and it is dropped
  when it is acknowledged.

Times, flushing and the busy state decide when events are sent, and are left out.
-/

namespace ClusterScheduler.Events

/-! ## Events -/

inductive EvEvent where
  | allEvents
  | calendarList | calendarAdd | calendarDel | calendarMod
  | ckptList | ckptAdd | ckptDel | ckptMod
  | centryList | centryAdd | centryDel | centryMod
  | configList | configAdd | configDel | configMod
  | exechostList | exechostAdd | exechostDel | exechostMod
  | jataskAdd | jataskDel | jataskMod
  | petaskAdd | petaskMod | petaskDel
  | jobList | jobAdd | jobDel | jobMod | jobUsage | jobFinalUsage | jobFinish
  | jobScheddInfoList | jobScheddInfoAdd | jobScheddInfoDel | jobScheddInfoMod
  | newSharetree
  | peList | peAdd | peDel | peMod
  | projectList | projectAdd | projectDel | projectMod
  | qmasterGoesDown
  | cqueueList | cqueueAdd | cqueueDel | cqueueMod
  | qinstanceAdd | qinstanceDel | qinstanceMod | qinstanceSos | qinstanceUsos
  | schedConf
  | scheddmonitor
  | shutdown
  | userList | userAdd | userDel | userMod
  | usersetList | usersetAdd | usersetDel | usersetMod
  | hgroupList | hgroupAdd | hgroupDel | hgroupMod
  | rqsList | rqsAdd | rqsDel | rqsMod
  | arList | arAdd | arDel | arMod
  | ackTimeout
  | categoryList | categoryAdd | categoryDel | categoryMod
  | rlList | rlAdd | rlDel | rlMod
  deriving DecidableEq

/-- The lists of a total update, in the order in which they are sent. -/
def totalUpdateEvents : List EvEvent :=
  [.calendarList, .ckptList, .centryList, .configList, .exechostList, .categoryList,
   .jobList, .jobScheddInfoList, .peList, .cqueueList, .schedConf, .usersetList,
   .newSharetree, .projectList, .userList, .hgroupList, .rqsList, .arList]

/-- The events to withhold while a list is pending, row by row for `totalUpdateEvents`. -/
def blockedByList : List (List EvEvent) :=
  [[.calendarAdd, .calendarDel, .calendarMod], [.ckptAdd, .ckptDel, .ckptMod],
   [.centryAdd, .centryDel, .centryMod], [.configAdd, .configDel, .configMod],
   [.exechostAdd, .exechostDel, .exechostMod], [.categoryAdd, .categoryDel, .categoryMod],
   [.jobAdd, .jobDel, .jobMod, .jobUsage, .jobFinalUsage, .jobFinish],
   [.jobScheddInfoAdd, .jobScheddInfoDel, .jobScheddInfoMod], [.peAdd, .peDel, .peMod],
   [.cqueueAdd, .cqueueDel, .cqueueMod, .qinstanceAdd, .qinstanceDel, .qinstanceMod,
    .qinstanceSos, .qinstanceUsos], [], [.usersetAdd, .usersetDel, .usersetMod], [],
   [.projectAdd, .projectDel, .projectMod], [.userAdd, .userDel, .userMod],
   [.hgroupAdd, .hgroupDel, .hgroupMod], [.rqsAdd, .rqsDel, .rqsMod], [.arAdd, .arDel, .arMod]]

/-- The events that reach a client with a session also when they belong to none. -/
def isTotalUpdateEvent (type : EvEvent) : Bool :=
  type ∈ [.calendarList, .ckptList, .centryList, .configList, .exechostList, .categoryList,
    .jobList, .jobScheddInfoList, .peList, .projectList, .cqueueList, .userList, .usersetList,
    .hgroupList, .rlList, .shutdown, .qmasterGoesDown, .ackTimeout]

/-- An event with the keys of the object it is about. The number is 0 until it is queued
for a client, the unique id is 0 until the change is committed. -/
structure Event (α : Type*) where
  number : ℕ := 0
  type : EvEvent
  uniqueId : ℕ := 0
  intkey : ℕ := 0
  intkey2 : ℕ := 0
  strkey : Option String := none
  newVersion : Option α := none
  deriving DecidableEq

/-- An event in the queue, for one client or for all that have subscribed it. -/
structure QueuedEvent (α : Type*) where
  eventClientId : Option ℕ
  session : Option String
  event : Event α
  deriving DecidableEq

/-! ## Event clients -/

inductive EvState where
  | connected
  | closing
  | terminated
  deriving DecidableEq

/-- An event client. What `select` leaves of an object is what the filters of the
subscription leave of it, it is `none` when they leave nothing and the event is not one
that is sent anyway. -/
structure EventClient (α : Type*) where
  state : EvState
  session : Option String
  subscribed : EvEvent → Bool
  blocked : EvEvent → Bool
  select : EvEvent → α → Option α
  nextNumber : ℕ
  events : List (Event α)

variable {α : Type*}

/-- A client that registers. -/
def addEventClient (session : Option String) (subscribed : EvEvent → Bool)
    (select : EvEvent → α → Option α) : EventClient α :=
  { state := .connected, session := session, subscribed := subscribed,
    blocked := fun _ => false, select := select, nextNumber := 1, events := [] }

def modEventClient (ec : EventClient α) (subscribed : EvEvent → Bool)
    (select : EvEvent → α → Option α) : EventClient α :=
  { ec with subscribed := subscribed, blocked := fun _ => false, select := select }

def setBlocked (ec : EventClient α) (row : List EvEvent) (isBlock : Bool) : EventClient α :=
  { ec with blocked := fun type => if type ∈ row then isBlock else ec.blocked type }

def blockRows (ec : EventClient α) (isBlock : Bool) (rows : List (EvEvent × List EvEvent)) :
    EventClient α :=
  rows.foldl (fun ec entry =>
    if ec.subscribed entry.1 then setBlocked ec entry.2 isBlock else ec) ec

def blockEvents (ec : EventClient α) (evType : EvEvent) (isBlock : Bool) : EventClient α :=
  if evType = .allEvents then blockRows ec isBlock (totalUpdateEvents.zip blockedByList)
  else
    match (totalUpdateEvents.zip blockedByList).find? (fun entry => entry.1 = evType) with
    | some entry => setBlocked ec entry.2 isBlock
    | none => ec

def eventclientSubscribed (ec : EventClient α) (event : EvEvent) (session : Option String) :
    Bool :=
  match ec.session, session with
  | some ecSession, some session =>
    session = ecSession && ec.subscribed event && !ec.blocked event
  | some _, none => isTotalUpdateEvent event && ec.subscribed event && !ec.blocked event
  | none, _ => ec.subscribed event && !ec.blocked event

/-- What the filters leave of an event. -/
def selectEvent (ec : EventClient α) (event : Event α) : Option (Event α) :=
  match event.newVersion with
  | none => some event
  | some new => (ec.select event.type new).map fun left => { event with newVersion := some left }

/-- An event is numbered and put behind the others. -/
def chainEvent (ec : EventClient α) (event : Event α) : EventClient α :=
  { ec with
    nextNumber := (ec.nextNumber + 1) % 2 ^ 32
    events := ec.events ++ [{ event with number := ec.nextNumber }] }

def addListEventDirect (ec : EventClient α) (event : Event α) : EventClient α :=
  if ec.state ≠ .connected then ec
  else
    let ec := blockEvents ec event.type false
    match selectEvent ec event with
    | none => ec
    | some left =>
      let ec := chainEvent ec left
      if event.type = .shutdown then { ec with state := .closing } else ec

/-- An event of the queue is put to the events of a client when it is meant for it. -/
def processQueued (clientId : ℕ) (ec : EventClient α) (q : QueuedEvent α) : EventClient α :=
  if (q.eventClientId = none ∨ q.eventClientId = some clientId) ∧
      eventclientSubscribed ec q.event.type q.session then
    addListEventDirect ec q.event
  else ec

def ackTimeoutEvent : Event α := { type := .ackTimeout }

def purgeEventList (events : List (Event α)) (eventNumber : ℕ) : List (Event α) :=
  if eventNumber = 0 then events else events.dropWhile (fun event => event.number ≤ eventNumber)

/-! ## What is kept -/

theorem blockRows_rest (ec : EventClient α) (isBlock : Bool)
    (rows : List (EvEvent × List EvEvent)) :
    ∃ blocked, blockRows ec isBlock rows = { ec with blocked := blocked } := by
  unfold blockRows
  induction rows generalizing ec with
  | nil => exact ⟨ec.blocked, rfl⟩
  | cons entry rows ih =>
    rw [List.foldl_cons]
    split
    · obtain ⟨blocked, h⟩ := ih (setBlocked ec entry.2 isBlock)
      exact ⟨blocked, h⟩
    · exact ih ec

theorem blockEvents_rest (ec : EventClient α) (evType : EvEvent) (isBlock : Bool) :
    ∃ blocked, blockEvents ec evType isBlock = { ec with blocked := blocked } := by
  unfold blockEvents
  split
  · exact blockRows_rest ec isBlock _
  · split
    · exact ⟨_, rfl⟩
    · exact ⟨ec.blocked, rfl⟩

theorem selectEvent_uniqueId {ec : EventClient α} {event left : Event α}
    (h : selectEvent ec event = some left) : left.uniqueId = event.uniqueId := by
  unfold selectEvent at h
  split at h
  · rw [Option.some.inj h]
  · obtain ⟨new, -, rfl⟩ := Option.map_eq_some_iff.mp h
    rfl

theorem selectEvent_all {ec : EventClient α} (h : ec.select = fun _ new => some new)
    (event : Event α) : selectEvent ec event = some event := by
  unfold selectEvent
  rw [h]
  split
  · rfl
  · rename_i new hnew
    rw [Option.map_some, ← hnew]

/-- **One event is queued or none**, with the next number. -/
theorem addListEventDirect_events (ec : EventClient α) (event : Event α) :
    ((addListEventDirect ec event).events = ec.events ∧
        (addListEventDirect ec event).nextNumber = ec.nextNumber) ∨
      ∃ left : Event α, left.number = ec.nextNumber ∧ left.uniqueId = event.uniqueId ∧
        (addListEventDirect ec event).events = ec.events ++ [left] ∧
        (addListEventDirect ec event).nextNumber = (ec.nextNumber + 1) % 2 ^ 32 := by
  obtain ⟨blocked, hblocked⟩ := blockEvents_rest ec event.type false
  unfold addListEventDirect
  split
  · exact Or.inl ⟨rfl, rfl⟩
  · rw [hblocked]
    dsimp only
    cases hselect : selectEvent { ec with blocked := blocked } event with
    | none => exact Or.inl ⟨rfl, rfl⟩
    | some left =>
      have hid := selectEvent_uniqueId hselect
      refine Or.inr ⟨{ left with number := ec.nextNumber }, rfl, hid, ?_⟩
      dsimp only
      split <;> exact ⟨rfl, rfl⟩

end ClusterScheduler.Events
