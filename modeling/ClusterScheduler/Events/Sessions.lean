import ClusterScheduler.Events.EventMaster

/-!
# Sessions

A change is committed with an id, and the session that made it notes the id. The events of
the change go through the queue of the event master to the data store of the readers. A
session may read there when the data store has got as far as the session's last change.

* `Commit` — a change with its events.
* `Sessions`, `SessionAct`, `sessionStep` — the committing threads, the event master and the
  mirror of the readers, step by step.
* `isUptodate` — whether a session may read.
* `InIdOrder` — what holds after any run.
* `reads_own_writes` — nothing a session has changed is still on its way when it may read.

The mirror stays registered, and no event fails to be applied. Ids have 64 bits in the source:
runs are those of fewer than `2 ^ 64` changes and events.
-/

namespace ClusterScheduler.Events

variable {α : Type*}

/-! ## State -/

/-- A change that is committed for a session, `0` is no session. -/
structure Commit (α : Type*) where
  gdiSession : ℕ
  uniqueId : ℕ
  queued : List (QueuedEvent α)
  deriving DecidableEq

/-- The thread that has the global lock, the maps of the session manager, the queue of the
event master with the part it is working on, and the events that the mirror is sent, has
taken, and has applied. All events ever queued for the mirror are noted, and all changes that
were committed. -/
structure Sessions (α : Type*) where
  nextUniqueId : ℕ
  committing : Option (Commit α × Bool)
  completed : List (Commit α)
  sessionMap : ℕ → Option ℕ
  processUniqueId : ℕ
  requests : List (QueuedEvent α)
  batch : List (QueuedEvent α)
  mirrorId : ℕ
  client : EventClient α
  newEvents : List (Event α)
  taken : List (Event α)
  lastUniqueId : Option ℕ
  delivered : List (Event α)
  applied : List (Event α)

inductive SessionAct (α : Type*) where
  | beginCommit (gdiSession : ℕ) (queued : List (QueuedEvent α))
  | setWrite
  | append
  | swap
  | processSend
  | send
  | take
  | apply
  | setProcess
  | removeUnused (sessions : List ℕ)

/-! ## Steps -/

def addUniqueId (uniqueId : ℕ) (queued : List (QueuedEvent α)) : List (QueuedEvent α) :=
  queued.map fun q => { q with event := { q.event with uniqueId := uniqueId } }

def setWriteUniqueId (sessionMap : ℕ → Option ℕ) (session writeEventId : ℕ) : ℕ → Option ℕ :=
  if session = 0 then sessionMap else Function.update sessionMap session (some writeEventId)

def isUptodate (s : Sessions α) (session : ℕ) : Bool :=
  if session = 0 then true
  else
    match s.sessionMap session with
    | some writeUniqueId => writeUniqueId ≤ s.processUniqueId
    | none => true

def isShutdown (event : Event α) : Bool :=
  event.type = .shutdown || event.type = .qmasterGoesDown

def beginCommit (s : Sessions α) (gdiSession : ℕ) (queued : List (QueuedEvent α)) :
    Sessions α :=
  { s with
    nextUniqueId := s.nextUniqueId + 1
    committing := some
      ({ gdiSession := gdiSession, uniqueId := s.nextUniqueId,
         queued := addUniqueId s.nextUniqueId queued }, false) }

def noteCommit (s : Sessions α) (commit : Commit α) : Sessions α :=
  { s with
    committing := some (commit, true)
    sessionMap := setWriteUniqueId s.sessionMap commit.gdiSession commit.uniqueId }

def appendCommit (s : Sessions α) (commit : Commit α) : Sessions α :=
  { s with
    committing := none
    completed := s.completed ++ [commit]
    requests := s.requests ++ commit.queued }

def processFirst (s : Sessions α) (q : QueuedEvent α) (rest : List (QueuedEvent α)) :
    Sessions α :=
  let ec := processQueued s.mirrorId s.client q
  { s with
    batch := rest
    client := ec
    delivered := s.delivered ++ ec.events.drop s.client.events.length }

def applyTaken (s : Sessions α) : Sessions α :=
  { s with
    taken := []
    applied := s.applied ++ s.taken
    lastUniqueId := s.taken.getLast?.map Event.uniqueId }

/-- One step. The event master works through all it has taken from the queue before it sends,
and the mirror notes how far it has got before it takes more. -/
def sessionStep (s : Sessions α) : SessionAct α → Sessions α
  | .beginCommit gdiSession queued =>
    if s.committing.isSome then s else beginCommit s gdiSession queued
  | .setWrite =>
    match s.committing with
    | some (commit, false) => noteCommit s commit
    | _ => s
  | .append =>
    match s.committing with
    | some (commit, true) => appendCommit s commit
    | _ => s
  | .swap =>
    if s.batch.isEmpty then { s with batch := s.requests, requests := [] } else s
  | .processSend =>
    match s.batch with
    | q :: rest => processFirst s q rest
    | [] => s
  | .send =>
    if s.batch.isEmpty then
      { s with
        client := { s.client with events := [] }
        newEvents := s.newEvents ++ s.client.events }
    else s
  | .take =>
    if s.taken.isEmpty && s.lastUniqueId.isNone then
      { s with taken := s.newEvents, newEvents := [] }
    else s
  | .apply =>
    if s.lastUniqueId.isSome || s.taken.any isShutdown then s else applyTaken s
  | .setProcess =>
    match s.lastUniqueId with
    | some uniqueId => { s with processUniqueId := uniqueId, lastUniqueId := none }
    | none => s
  | .removeUnused sessions =>
    { s with sessionMap := fun session =>
        if session ∈ sessions then none else s.sessionMap session }

/-- The first id is drawn by a change without a session, nothing is queued for the mirror. -/
def firstCommit (mirrorId : ℕ) (ec : EventClient α) (queued : List (QueuedEvent α)) :
    Sessions α :=
  { nextUniqueId := 1
    committing := some ({ gdiSession := 0, uniqueId := 0, queued := addUniqueId 0 queued }, false)
    completed := []
    sessionMap := fun _ => none
    processUniqueId := 0
    requests := []
    batch := []
    mirrorId := mirrorId
    client := { ec with events := [] }
    newEvents := []
    taken := []
    lastUniqueId := none
    delivered := []
    applied := [] }

def sessionRun (s : Sessions α) (acts : List (SessionAct α)) : Sessions α :=
  acts.foldl sessionStep s

/-! ## The order of ids -/

def eventIds (events : List (Event α)) : List ℕ := events.map Event.uniqueId

def queuedIds (queued : List (QueuedEvent α)) : List ℕ := queued.map fun q => q.event.uniqueId

/-- The events on their way to the data store, from those that the mirror has taken to those
that still wait in the queue. -/
def stages (s : Sessions α) : List (List ℕ) :=
  [eventIds s.taken, eventIds s.newEvents, eventIds s.client.events ++ queuedIds s.batch,
    queuedIds s.requests]

def Before (l l' : List ℕ) : Prop := ∀ u ∈ l, ∀ v ∈ l', u < v

/-- No change is committed with an id from here on. -/
def idLimit (s : Sessions α) : ℕ :=
  match s.committing with
  | some (commit, _) => commit.uniqueId
  | none => s.nextUniqueId

/-- Nothing on the way has the id or a smaller one, unless the id is 0. -/
def Passed (s : Sessions α) (u : ℕ) : Prop :=
  u = 0 ∨ u < idLimit s ∧ ∀ v ∈ (stages s).flatten, u < v

/-- No change is in two stages, what comes later has greater ids. A session notes its last
change, the id that is noted of the mirror has passed. -/
structure InIdOrder (s : Sessions α) : Prop where
  started : 0 < s.nextUniqueId
  layered : (stages s).Pairwise Before
  drawn : ∀ u ∈ (stages s).flatten, u < idLimit s
  committing : ∀ commit noted, s.committing = some (commit, noted) →
    commit.uniqueId < s.nextUniqueId ∧ (commit.gdiSession ≠ 0 → 0 < commit.uniqueId) ∧
      ∀ q ∈ commit.queued, q.event.uniqueId = commit.uniqueId
  noted : ∀ commit, s.committing = some (commit, true) →
    ∀ w, s.sessionMap commit.gdiSession = some w → commit.uniqueId ≤ w
  completed : ∀ commit ∈ s.completed, commit.uniqueId < idLimit s ∧
    ∀ w, s.sessionMap commit.gdiSession = some w → commit.uniqueId ≤ w
  written : ∀ session w, s.sessionMap session = some w → session ≠ 0 ∧ 0 < w
  process : Passed s s.processUniqueId
  last : ∀ u, s.lastUniqueId = some u → Passed s u
  delivered : s.delivered = s.applied ++ s.taken ++ s.newEvents ++ s.client.events

theorem firstCommit_inIdOrder (mirrorId : ℕ) (ec : EventClient α)
    (queued : List (QueuedEvent α)) : InIdOrder (firstCommit mirrorId ec queued) where
  started := Nat.one_pos
  layered := by simp [stages, firstCommit, Before, eventIds, queuedIds]
  drawn := by simp [stages, firstCommit, eventIds, queuedIds]
  committing := by
    rintro commit noted ⟨⟩
    refine ⟨Nat.one_pos, fun h => absurd rfl h, ?_⟩
    intro q hq
    obtain ⟨q', -, rfl⟩ := List.mem_map.mp hq
    rfl
  noted := by
    rintro commit ⟨⟩
  completed := fun _ h => nomatch h
  written := fun _ _ h => nomatch h
  process := Or.inl rfl
  last := fun _ h => nomatch h
  delivered := rfl

variable {s s' : Sessions α}

variable {u : ℕ}

theorem Passed.shrink (h : Passed s u) (hlimit : idLimit s ≤ idLimit s')
    (hstages : (stages s').flatten ⊆ (stages s).flatten) : Passed s' u := by
  rcases h with hzero | ⟨hlt, hway⟩
  · exact Or.inl hzero
  · exact Or.inr ⟨hlt.trans_le hlimit, fun v hv => hway v (hstages hv)⟩

/-- **Events get on**: the threads that commit and the sessions do nothing. -/
theorem InIdOrder.advance (h : InIdOrder s) (hnext : s'.nextUniqueId = s.nextUniqueId)
    (hcommitting : s'.committing = s.committing) (hcompleted : s'.completed = s.completed)
    (hmap : s'.sessionMap = s.sessionMap) (hlayered : (stages s').Pairwise Before)
    (hstages : (stages s').flatten ⊆ (stages s).flatten) (hprocess : Passed s' s'.processUniqueId)
    (hlast : ∀ u, s'.lastUniqueId = some u → Passed s' u)
    (hdelivered : s'.delivered = s'.applied ++ s'.taken ++ s'.newEvents ++ s'.client.events) :
    InIdOrder s' := by
  have hlimit : idLimit s' = idLimit s := by
    unfold idLimit
    rw [hcommitting, hnext]
  constructor
  · rw [hnext]
    exact h.started
  · exact hlayered
  · intro u hu
    rw [hlimit]
    exact h.drawn u (hstages hu)
  · rw [hcommitting, hnext]
    exact h.committing
  · rw [hcommitting, hmap]
    exact h.noted
  · rw [hcompleted, hlimit, hmap]
    exact h.completed
  · rw [hmap]
    exact h.written
  · exact hprocess
  · exact hlast
  · exact hdelivered

/-! ## The stages -/

theorem before_nil_left (l : List ℕ) : Before [] l := fun _ h => nomatch h

theorem before_nil_right (l : List ℕ) : Before l [] := fun _ _ _ h => nomatch h

variable {l l' m : List ℕ}

variable {m' : List ℕ}

theorem before_append_right : Before l (m ++ m') ↔ Before l m ∧ Before l m' := by
  constructor
  · intro h
    exact ⟨fun u hu v hv => h u hu v (List.mem_append_left _ hv),
      fun u hu v hv => h u hu v (List.mem_append_right _ hv)⟩
  · rintro ⟨hm, hm'⟩ u hu v hv
    rcases List.mem_append.mp hv with h | h
    · exact hm u hu v h
    · exact hm' u hu v h

theorem Before.mono (h : Before l m) (hl : l' ⊆ l) (hm : m' ⊆ m) : Before l' m' :=
  fun u hu v hv => h u (hl hu) v (hm hv)

theorem pairwise_stages {a b c d : List ℕ} :
    [a, b, c, d].Pairwise Before ↔
      (Before a b ∧ Before a c ∧ Before a d) ∧ (Before b c ∧ Before b d) ∧ Before c d := by
  simp [List.pairwise_cons]

theorem eventIds_append (l l' : List (Event α)) : eventIds (l ++ l') = eventIds l ++ eventIds l' :=
  List.map_append

/-! ## The steps of the event master and of the mirror -/

theorem InIdOrder.swap (h : InIdOrder s) (hbatch : s.batch = []) :
    InIdOrder { s with batch := s.requests, requests := [] } := by
  obtain ⟨⟨hab, hac, had⟩, ⟨hbc, hbd⟩, -⟩ := pairwise_stages.mp h.layered
  rw [hbatch, queuedIds, List.map_nil, List.append_nil] at hac hbc
  have hstages : (stages { s with batch := s.requests, requests := [] }).flatten ⊆
      (stages s).flatten := by
    intro u hu
    simpa [stages, hbatch, queuedIds] using hu
  refine h.advance rfl rfl rfl rfl ?_ hstages (h.process.shrink le_rfl hstages)
    (fun u hu => (h.last u hu).shrink le_rfl hstages) h.delivered
  apply pairwise_stages.mpr
  refine ⟨⟨hab, ?_, before_nil_right _⟩, ⟨?_, before_nil_right _⟩, before_nil_right _⟩
  · exact before_append_right.mpr ⟨hac, had⟩
  · exact before_append_right.mpr ⟨hbc, hbd⟩

theorem processQueued_events (mirrorId : ℕ) (ec : EventClient α) (q : QueuedEvent α) :
    ∃ left : List (Event α), (processQueued mirrorId ec q).events = ec.events ++ left ∧
      ∀ event ∈ left, event.uniqueId = q.event.uniqueId := by
  unfold processQueued
  split
  · rcases addListEventDirect_events ec q.event with ⟨hevents, -⟩ | ⟨left, -, hid, hevents, -⟩
    · exact ⟨[], by rw [hevents, List.append_nil], fun _ h => nomatch h⟩
    · refine ⟨[left], hevents, ?_⟩
      intro event hevent
      rw [List.mem_singleton.mp hevent, hid]
  · exact ⟨[], (List.append_nil _).symm, fun _ h => nomatch h⟩

variable (h : InIdOrder s)
include h

theorem InIdOrder.processFirst {q : QueuedEvent α}
    {rest : List (QueuedEvent α)} (hbatch : s.batch = q :: rest) :
    InIdOrder (processFirst s q rest) := by
  obtain ⟨⟨hab, hac, had⟩, ⟨hbc, hbd⟩, hcd⟩ := pairwise_stages.mp h.layered
  obtain ⟨left, hevents, hleft⟩ := processQueued_events s.mirrorId s.client q
  have hids : eventIds (processQueued s.mirrorId s.client q).events ++ queuedIds rest ⊆
      eventIds s.client.events ++ queuedIds s.batch := by
    rw [hevents, eventIds_append, hbatch, List.append_assoc]
    apply List.append_subset.mpr
    refine ⟨List.subset_append_left _ _, List.append_subset.mpr ⟨?_, ?_⟩⟩
    · intro u hu
      obtain ⟨event, hevent, rfl⟩ := List.mem_map.mp hu
      rw [hleft event hevent]
      exact List.mem_append_right _ (.head _)
    · intro u hu
      exact List.mem_append_right _ (.tail _ hu)
  have hstages : (stages (Events.processFirst s q rest)).flatten ⊆ (stages s).flatten := by
    intro u hu
    simp only [stages, Events.processFirst, List.flatten_cons, List.flatten_nil,
      List.append_nil, List.mem_append] at hu ⊢
    rcases hu with hu | hu | hu | hu
    · exact Or.inl hu
    · exact Or.inr (Or.inl hu)
    · exact Or.inr (Or.inr (Or.inl (List.mem_append.mp (hids (List.mem_append.mpr hu)))))
    · exact Or.inr (Or.inr (Or.inr hu))
  refine h.advance rfl rfl rfl rfl ?_ hstages (h.process.shrink le_rfl hstages)
    (fun u hu => (h.last u hu).shrink le_rfl hstages) ?_
  · apply pairwise_stages.mpr
    exact ⟨⟨hab, hac.mono (List.Subset.refl _) hids, had⟩,
      ⟨hbc.mono (List.Subset.refl _) hids, hbd⟩, hcd.mono hids (List.Subset.refl _)⟩
  · simp only [Events.processFirst, hevents, List.drop_left, h.delivered, List.append_assoc]

theorem InIdOrder.send (hbatch : s.batch = []) :
    InIdOrder { s with
      client := { s.client with events := [] }
      newEvents := s.newEvents ++ s.client.events } := by
  obtain ⟨⟨hab, hac, had⟩, ⟨-, hbd⟩, hcd⟩ := pairwise_stages.mp h.layered
  have hnil : eventIds s.client.events ++ queuedIds s.batch = eventIds s.client.events := by
    rw [hbatch, queuedIds, List.map_nil, List.append_nil]
  rw [hnil] at hac hcd
  have hstages : (stages { s with
      client := { s.client with events := [] }
      newEvents := s.newEvents ++ s.client.events }).flatten ⊆ (stages s).flatten := by
    intro u hu
    simpa [stages, hbatch, queuedIds, eventIds, or_assoc] using hu
  refine h.advance rfl rfl rfl rfl ?_ hstages (h.process.shrink le_rfl hstages)
    (fun u hu => (h.last u hu).shrink le_rfl hstages) ?_
  · apply pairwise_stages.mpr
    rw [eventIds_append, hbatch]
    exact ⟨⟨before_append_right.mpr ⟨hab, hac⟩, before_nil_right _, had⟩,
      ⟨before_nil_right _, List.forall_mem_append.mpr ⟨hbd, hcd⟩⟩, before_nil_left _⟩
  · rw [h.delivered, List.append_nil, List.append_assoc, List.append_assoc]

theorem InIdOrder.take (htaken : s.taken = []) :
    InIdOrder { s with taken := s.newEvents, newEvents := [] } := by
  obtain ⟨-, ⟨hbc, hbd⟩, hcd⟩ := pairwise_stages.mp h.layered
  have hstages : (stages { s with taken := s.newEvents, newEvents := [] }).flatten ⊆
      (stages s).flatten := by
    intro u hu
    simpa [stages, htaken, eventIds] using hu
  refine h.advance rfl rfl rfl rfl ?_ hstages (h.process.shrink le_rfl hstages)
    (fun u hu => (h.last u hu).shrink le_rfl hstages) ?_
  · apply pairwise_stages.mpr
    exact ⟨⟨before_nil_right _, hbc, hbd⟩, ⟨before_nil_left _, before_nil_left _⟩, hcd⟩
  · rw [h.delivered, htaken, List.append_nil, List.append_nil]

/-- **The last event that is applied** is before all that are still on the way. -/
theorem InIdOrder.applyTaken : InIdOrder (applyTaken s) := by
  obtain ⟨⟨hab, hac, had⟩, hb, hcd⟩ := pairwise_stages.mp h.layered
  have hstages : (stages (Events.applyTaken s)).flatten ⊆ (stages s).flatten := by
    intro u hu
    simp only [stages, Events.applyTaken, List.flatten_cons, eventIds, List.map_nil,
      List.nil_append] at hu
    exact List.mem_append_right _ hu
  refine h.advance rfl rfl rfl rfl ?_ hstages (h.process.shrink le_rfl hstages) ?_ ?_
  · apply pairwise_stages.mpr
    exact ⟨⟨before_nil_left _, before_nil_left _, before_nil_left _⟩, hb, hcd⟩
  · intro u hu
    obtain ⟨event, hevent, rfl⟩ := Option.map_eq_some_iff.mp hu
    have hmem : event.uniqueId ∈ eventIds s.taken :=
      List.mem_map_of_mem (List.mem_of_getLast? hevent)
    refine Or.inr ⟨h.drawn _ (List.mem_append_left _ hmem), ?_⟩
    intro v hv
    simp only [stages, Events.applyTaken, List.flatten_cons, List.flatten_nil, eventIds,
      List.map_nil, List.nil_append, List.append_nil, List.mem_append] at hv
    rcases hv with hv | hv | hv
    · exact hab _ hmem v hv
    · exact hac _ hmem v (List.mem_append.mpr hv)
    · exact had _ hmem v hv
  · simp only [Events.applyTaken, h.delivered, List.append_nil]

theorem InIdOrder.setProcess (hlast : s.lastUniqueId = some u) :
    InIdOrder { s with processUniqueId := u, lastUniqueId := none } :=
  { h with
    process := h.last u hlast
    last := fun _ hu => nomatch hu }

/-! ## The steps of the committing threads -/

theorem InIdOrder.beginCommit (hfree : s.committing = none) (gdiSession : ℕ)
    (queued : List (QueuedEvent α)) : InIdOrder (beginCommit s gdiSession queued) := by
  have hlimit : idLimit (Events.beginCommit s gdiSession queued) = idLimit s := by
    unfold idLimit
    rw [hfree]
    rfl
  have hkept := List.Subset.refl (stages s).flatten
  constructor
  · exact Nat.succ_pos _
  · exact h.layered
  · rw [hlimit]
    exact h.drawn
  · rintro commit noted ⟨⟩
    refine ⟨Nat.lt_succ_self _, fun _ => h.started, ?_⟩
    intro q hq
    obtain ⟨q', -, rfl⟩ := List.mem_map.mp hq
    rfl
  · rintro commit ⟨⟩
  · rw [hlimit]
    exact h.completed
  · exact h.written
  · exact h.process.shrink hlimit.ge hkept
  · exact fun u hu => (h.last u hu).shrink hlimit.ge hkept
  · exact h.delivered

omit h

variable {commit : Commit α}

variable (h : InIdOrder s)
include h

/-- **The session notes the id** before the events are put into the queue. -/
theorem InIdOrder.noteCommit {noted : Bool}
    (hcommitting : s.committing = some (commit, noted)) : InIdOrder (noteCommit s commit) := by
  have hlimit : idLimit (Events.noteCommit s commit) = idLimit s := by
    unfold idLimit
    rw [hcommitting]
    rfl
  have hid : idLimit s = commit.uniqueId := by
    unfold idLimit
    rw [hcommitting]
  have hkept := List.Subset.refl (stages s).flatten
  obtain ⟨hlt, hpos, hqueued⟩ := h.committing commit noted hcommitting
  have hmap : ∀ session w, (Events.noteCommit s commit).sessionMap session = some w →
      s.sessionMap session = some w ∨
        session = commit.gdiSession ∧ commit.gdiSession ≠ 0 ∧ w = commit.uniqueId := by
    intro session w hw
    unfold Events.noteCommit setWriteUniqueId at hw
    dsimp only at hw
    split at hw
    · exact Or.inl hw
    · rename_i hsession
      by_cases heq : session = commit.gdiSession
      · subst heq
        rw [Function.update_self] at hw
        exact Or.inr ⟨rfl, hsession, (Option.some.inj hw).symm⟩
      · rw [Function.update_of_ne heq] at hw
        exact Or.inl hw
  constructor
  · exact h.started
  · exact h.layered
  · rw [hlimit]
    exact h.drawn
  · rintro commit' noted' ⟨⟩
    exact ⟨hlt, hpos, hqueued⟩
  · rintro commit' ⟨⟩ w hw
    unfold Events.noteCommit setWriteUniqueId at hw
    dsimp only at hw
    split at hw
    · rename_i hsession
      exact absurd hsession (h.written _ w hw).1
    · rw [Function.update_self] at hw
      exact (Option.some.inj hw).le
  · rw [hlimit]
    intro other hother
    refine ⟨(h.completed other hother).1, ?_⟩
    intro w hw
    rcases hmap _ w hw with hold | ⟨-, -, rfl⟩
    · exact (h.completed other hother).2 w hold
    · rw [← hid]
      exact (h.completed other hother).1.le
  · intro session w hw
    rcases hmap session w hw with hold | ⟨rfl, hsession, rfl⟩
    · exact h.written session w hold
    · exact ⟨hsession, hpos hsession⟩
  · exact h.process.shrink hlimit.ge hkept
  · exact fun u hu => (h.last u hu).shrink hlimit.ge hkept
  · exact h.delivered

/-- **The events are put behind all others**, and have a greater id. -/
theorem InIdOrder.appendCommit
    (hcommitting : s.committing = some (commit, true)) : InIdOrder (appendCommit s commit) := by
  have hid : idLimit s = commit.uniqueId := by
    unfold idLimit
    rw [hcommitting]
  obtain ⟨hlt, -, hqueued⟩ := h.committing commit true hcommitting
  have hnew : ∀ u ∈ queuedIds commit.queued, u = commit.uniqueId := by
    intro u hu
    obtain ⟨q, hq, rfl⟩ := List.mem_map.mp hu
    exact hqueued q hq
  have hrequests : queuedIds (s.requests ++ commit.queued) =
      queuedIds s.requests ++ queuedIds commit.queued := List.map_append
  have hstages : ∀ v ∈ (stages (Events.appendCommit s commit)).flatten,
      v ∈ (stages s).flatten ∨ v = commit.uniqueId := by
    intro v hv
    simp only [stages, Events.appendCommit, hrequests, List.flatten_cons, List.flatten_nil,
      List.append_nil, List.mem_append] at hv ⊢
    rcases hv with hv | hv | hv | hv | hv
    · exact Or.inl (Or.inl hv)
    · exact Or.inl (Or.inr (Or.inl hv))
    · exact Or.inl (Or.inr (Or.inr (Or.inl hv)))
    · exact Or.inl (Or.inr (Or.inr (Or.inr hv)))
    · exact Or.inr (hnew v hv)
  have hpassed : ∀ u, Passed s u → Passed (Events.appendCommit s commit) u := by
    rintro u (hzero | ⟨hu, hway⟩)
    · exact Or.inl hzero
    · rw [hid] at hu
      refine Or.inr ⟨hu.trans hlt, ?_⟩
      intro v hv
      rcases hstages v hv with hold | rfl
      · exact hway v hold
      · exact hu
  have hbehind : ∀ l, (∀ u ∈ l, u ∈ (stages s).flatten) → Before l (queuedIds commit.queued) := by
    intro l hl u hu v hv
    rw [hnew v hv, ← hid]
    exact h.drawn u (hl u hu)
  obtain ⟨⟨hab, hac, had⟩, ⟨hbc, hbd⟩, hcd⟩ := pairwise_stages.mp h.layered
  constructor
  · exact h.started
  · apply pairwise_stages.mpr
    rw [show (Events.appendCommit s commit).requests = s.requests ++ commit.queued from rfl,
      hrequests]
    refine ⟨⟨hab, hac, before_append_right.mpr ⟨had, hbehind _ ?_⟩⟩,
      ⟨hbc, before_append_right.mpr ⟨hbd, hbehind _ ?_⟩⟩,
      before_append_right.mpr ⟨hcd, hbehind _ ?_⟩⟩ <;>
    · intro u hu
      simp only [stages, List.flatten_cons, List.mem_append] at hu ⊢
      tauto
  · intro v hv
    rcases hstages v hv with hold | rfl
    · exact (h.drawn v hold).trans (hid.trans_lt hlt)
    · exact hlt
  · rintro commit' noted ⟨⟩
  · rintro commit' ⟨⟩
  · intro other hother
    rcases List.mem_append.mp hother with hold | hlast
    · obtain ⟨hother, hwrite⟩ := h.completed other hold
      exact ⟨hother.trans (hid.trans_lt hlt), hwrite⟩
    · rw [List.mem_singleton.mp hlast]
      exact ⟨hlt, h.noted commit hcommitting⟩
  · exact h.written
  · exact hpassed _ h.process
  · exact fun u hu => hpassed u (h.last u hu)
  · exact h.delivered

theorem InIdOrder.removeUnused (sessions : List ℕ) :
    InIdOrder { s with sessionMap := fun session =>
      if session ∈ sessions then none else s.sessionMap session } := by
  have hkept : ∀ session w,
      (if session ∈ sessions then none else s.sessionMap session) = some w →
        s.sessionMap session = some w := by
    intro session w hw
    split at hw
    · exact nomatch hw
    · exact hw
  exact { h with
    noted := fun commit hcommitting w hw => h.noted commit hcommitting w (hkept _ w hw)
    completed := fun commit hcommit =>
      ⟨(h.completed commit hcommit).1, fun w hw => (h.completed commit hcommit).2 w (hkept _ w hw)⟩
    written := fun session w hw => h.written session w (hkept session w hw) }

/-! ## Runs -/

/-- **One step** keeps the order. -/
theorem InIdOrder.step (act : SessionAct α) : InIdOrder (sessionStep s act) := by
  cases act with
  | beginCommit gdiSession queued =>
    simp only [sessionStep]
    split
    · exact h
    · rename_i hfree
      exact h.beginCommit (Option.not_isSome_iff_eq_none.mp hfree) gdiSession queued
  | setWrite =>
    simp only [sessionStep]
    split
    · rename_i hcommitting
      exact h.noteCommit hcommitting
    · exact h
  | append =>
    simp only [sessionStep]
    split
    · rename_i hcommitting
      exact h.appendCommit hcommitting
    · exact h
  | swap =>
    simp only [sessionStep]
    split
    · rename_i hbatch
      exact h.swap (List.isEmpty_iff.mp hbatch)
    · exact h
  | processSend =>
    simp only [sessionStep]
    split
    · rename_i hbatch
      exact h.processFirst hbatch
    · exact h
  | send =>
    simp only [sessionStep]
    split
    · rename_i hbatch
      exact h.send (List.isEmpty_iff.mp hbatch)
    · exact h
  | take =>
    simp only [sessionStep]
    split
    · rename_i hfree
      exact h.take (List.isEmpty_iff.mp (Bool.and_eq_true_iff.mp hfree).1)
    · exact h
  | apply =>
    simp only [sessionStep]
    split
    · exact h
    · exact h.applyTaken
  | setProcess =>
    simp only [sessionStep]
    split
    · rename_i hlast
      exact h.setProcess hlast
    · exact h
  | removeUnused sessions => exact h.removeUnused sessions

theorem InIdOrder.run (acts : List (SessionAct α)) : InIdOrder (sessionRun s acts) := by
  induction acts generalizing s with
  | nil => exact h
  | cons act acts ih => exact ih (h.step act)

/-! ## Sessions read their own writes -/

/-- No event with the id waits in the queue, and all that were queued for the mirror are
applied. -/
def AllApplied (s : Sessions α) (uniqueId : ℕ) : Prop :=
  (∀ q ∈ s.batch ++ s.requests, q.event.uniqueId ≠ uniqueId) ∧
    s.delivered.filter (fun event => event.uniqueId = uniqueId) =
      s.applied.filter (fun event => event.uniqueId = uniqueId)

theorem InIdOrder.allApplied {uniqueId : ℕ} (hpos : 0 < s.processUniqueId)
    (hle : uniqueId ≤ s.processUniqueId) : AllApplied s uniqueId := by
  have hway : ∀ v ∈ (stages s).flatten, v ≠ uniqueId := by
    intro v hv
    rcases h.process with hzero | ⟨-, hpassed⟩
    · omega
    · exact (hle.trans_lt (hpassed v hv)).ne'
  have hgone : ∀ events : List (Event α), eventIds events ⊆ (stages s).flatten →
      events.filter (fun event => event.uniqueId = uniqueId) = [] := by
    intro events hevents
    apply List.filter_eq_nil_iff.mpr
    intro event hevent heq
    rw [decide_eq_true_eq] at heq
    exact hway _ (hevents (List.mem_map_of_mem hevent)) heq
  have htaken : eventIds s.taken ⊆ (stages s).flatten := by
    intro u hu
    simp [stages, hu]
  have hnew : eventIds s.newEvents ⊆ (stages s).flatten := by
    intro u hu
    simp [stages, hu]
  have hclient : eventIds s.client.events ⊆ (stages s).flatten := by
    intro u hu
    simp [stages, hu]
  constructor
  · intro q hq
    apply hway
    have hmem : q.event.uniqueId ∈ queuedIds (s.batch ++ s.requests) := List.mem_map_of_mem hq
    rw [queuedIds, List.map_append, List.mem_append] at hmem
    simp only [stages, queuedIds, List.flatten_cons, List.mem_append]
    tauto
  · rw [h.delivered, List.filter_append, List.filter_append, List.filter_append, hgone _ htaken,
      hgone _ hnew, hgone _ hclient, List.append_nil, List.append_nil, List.append_nil]

omit h

/-- **A session reads its own writes.** In every run, when a session that has written may
read, every event of every change it has committed has come through the queue, and what of
it was for the mirror is applied. -/
theorem reads_own_writes (mirrorId : ℕ) (ec : EventClient α) (first : List (QueuedEvent α))
    (acts : List (SessionAct α)) (session : ℕ)
    (hmap : ((sessionRun (firstCommit mirrorId ec first) acts).sessionMap session).isSome)
    (huptodate : isUptodate (sessionRun (firstCommit mirrorId ec first) acts) session = true)
    (commit : Commit α)
    (hcommit : commit ∈ (sessionRun (firstCommit mirrorId ec first) acts).completed)
    (hsession : commit.gdiSession = session) :
    AllApplied (sessionRun (firstCommit mirrorId ec first) acts) commit.uniqueId := by
  have horder := (firstCommit_inIdOrder mirrorId ec first).run acts
  obtain ⟨w, hw⟩ := Option.isSome_iff_exists.mp hmap
  subst hsession
  have hwrite := (horder.completed commit hcommit).2 w hw
  unfold isUptodate at huptodate
  rw [if_neg (horder.written _ w hw).1, hw] at huptodate
  have hle := of_decide_eq_true huptodate
  apply horder.allApplied
  · exact (horder.written _ w hw).2.trans_le hle
  · exact hwrite.trans hle

def queuedForAll (type : EvEvent) (uniqueId new : ℕ) : QueuedEvent ℕ :=
  { eventClientId := none, session := none,
    event := { type := type, uniqueId := uniqueId, newVersion := some new } }

/-- Two changes of session 7 and one of session 8, which is still in the queue while the
mirror applies the others. -/
def sessionActs : List (SessionAct ℕ) :=
  [.setWrite, .append, .beginCommit 7 [queuedForAll .jobAdd 0 1, queuedForAll .jataskAdd 0 2],
    .setWrite, .append, .swap, .processSend, .processSend,
    .beginCommit 7 [queuedForAll .jobMod 0 3], .setWrite, .processSend, .append, .send, .swap,
    .processSend, .take, .send, .apply, .setProcess, .take,
    .beginCommit 8 [queuedForAll .jobDel 0 4], .setWrite, .append, .apply, .setProcess]

def allSubscribed : EventClient ℕ :=
  addEventClient none (fun _ => true) (fun _ new => some new)

def afterSessionActs : Sessions ℕ :=
  sessionRun (firstCommit 1 allSubscribed [queuedForAll .jobList 0 0]) sessionActs

theorem reads_own_writes_seven :
    afterSessionActs.applied.length = 4 ∧ isUptodate afterSessionActs 8 = false ∧
      AllApplied afterSessionActs 2 :=
  ⟨by decide +kernel, by decide +kernel,
    reads_own_writes 1 allSubscribed [queuedForAll .jobList 0 0] sessionActs 7
      (by decide +kernel) (by decide +kernel)
      { gdiSession := 7, uniqueId := 2, queued := [queuedForAll .jobMod 2 3] }
      (by decide +kernel) rfl⟩

end ClusterScheduler.Events
