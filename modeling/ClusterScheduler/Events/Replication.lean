import ClusterScheduler.Events.Delivery
import ClusterScheduler.Events.JobMirror

/-!
# The replica behind the channel

The events of changes reach a mirror in reports that are lost, repeated and late.

* `MirrorAct`, `mirrorStep` — the master list changes, or something happens on the way.
* `numbered_follows` — what is numbered for the mirror leads to the master list.
* `replica_follows` — the replica is the master list when no event is missing.
-/

namespace ClusterScheduler.Events

variable {α β : Type*}

/-- Neither an event is added nor the subscription modified. -/
def Act.OnTheWay : Act α → Prop
  | .add _ | .modify _ _ => False
  | _ => True

inductive MirrorAct (β : Type*) where
  | change (jobChange : JobChange β)
  | onTheWay (act : Act (JobVersion β)) (h : act.OnTheWay)

/-- The master list and the delivery of its events. -/
def mirrorStep (s : JobList β × Delivery (JobVersion β)) :
    MirrorAct β → JobList β × Delivery (JobVersion β)
  | .change jobChange =>
    let jobs := changeJobs s.1 jobChange
    (jobs, step s.2 (.add (eventOf jobs jobChange)))
  | .onTheWay act _ => (s.1, step s.2 act)

/-- The mirror is up to date as it registers, and takes all fields of the objects. -/
def mirrorRun (jobs : JobList β) (acts : List (MirrorAct β)) :
    JobList β × Delivery (JobVersion β) :=
  acts.foldl mirrorStep
    (jobs, registered (addEventClient none (fun _ => true) fun _ new => some new))

def replica (jobs : JobList β) (events : List (Event (JobVersion β))) : JobList β :=
  events.foldl processEvent jobs

def TakesAll (ec : EventClient α) : Prop :=
  ec.state = .connected ∧ ec.select = fun _ new => some new

/-! ## One step -/

theorem addListEventDirect_takesAll {ec : EventClient α} (h : TakesAll ec) (event : Event α)
    (htype : event.type ≠ .shutdown) : TakesAll (addListEventDirect ec event) ∧
      (addListEventDirect ec event).events =
        ec.events ++ [{ event with number := ec.nextNumber }] := by
  obtain ⟨blocked, hblocked⟩ := blockEvents_rest ec event.type false
  have hall : selectEvent { ec with blocked } event = some event := selectEvent_all h.2 event
  rw [addListEventDirect, if_neg (not_not.mpr h.1), hblocked]
  dsimp only
  rw [hall]
  dsimp only
  rw [if_neg htype]
  exact ⟨h, rfl⟩

/-- On the way nothing is numbered for a mirror that stays registered. -/
theorem step_onTheWay {s : Delivery α} {act : Act α} (h : act.OnTheWay) {ec' : EventClient α}
    (hclient : (step s act).client = some ec') : (step s act).numbered = s.numbered ∧
      ∃ ec, s.client = some ec ∧ (TakesAll ec → TakesAll ec') := by
  cases act with
  | add | modify => cases h
  | remove => cases hclient
  | send => cases hs : s.client <;> simp_all [step, sendReport]
  | ackTimeout => cases hs : s.client <;> simp_all [step]
  | processAck k =>
    cases hs : s.client <;> cases hack : s.acks[k]? <;> simp_all [step, processAck]
    exact hclient ▸ id
  | get ks => cases hmarked : s.receiver.marked <;> simp_all [step, getEvents]

/-! ## Runs -/

theorem numbered_follows (jobs : JobList β) (acts : List (MirrorAct β))
    {ec : EventClient (JobVersion β)} (hclient : (mirrorRun jobs acts).2.client = some ec) :
    TakesAll ec ∧ replica jobs (mirrorRun jobs acts).2.numbered = (mirrorRun jobs acts).1 := by
  induction acts using List.reverseRecOn generalizing ec with
  | nil =>
    cases hclient
    exact ⟨⟨rfl, rfl⟩, rfl⟩
  | append_singleton acts act ih =>
    rw [mirrorRun, List.foldl_concat, ← mirrorRun] at hclient ⊢
    generalize mirrorRun jobs acts = s at ih hclient ⊢
    cases act with
    | onTheWay act hway =>
      obtain ⟨hnumbered, old, hold, htakes⟩ := step_onTheWay hway hclient
      obtain ⟨hall, hreplica⟩ := ih hold
      exact ⟨htakes hall, hnumbered ▸ hreplica⟩
    | change jobChange =>
      cases hold : s.2.client with
      | none => simp [mirrorStep, step, hold] at hclient
      | some old =>
        obtain ⟨hall, hreplica⟩ := ih hold
        obtain ⟨htakes, hevents⟩ := addListEventDirect_takesAll hall
          (eventOf (changeJobs s.1 jobChange) jobChange) (by cases jobChange <;> simp [eventOf])
        simp only [mirrorStep, step, hold, setClient, Option.some.injEq] at hclient ⊢
        refine ⟨hclient ▸ htakes, ?_⟩
        rw [hevents, List.drop_left, replica, List.foldl_concat, ← replica, hreplica]
        exact processEvent_change s.1 jobChange

theorem mirrorRun_delivered {jobs : JobList β} {acts : List (MirrorAct β)}
    (hlen : (mirrorRun jobs acts).2.numbered.length < 2 ^ 32 - 1) :
    ∃ k, Delivered (mirrorRun jobs acts).2 k := by
  induction acts using List.reverseRecOn with
  | nil => exact ⟨0, registered_delivered rfl rfl⟩
  | append_singleton acts act ih =>
    rw [mirrorRun, List.foldl_concat, ← mirrorRun] at hlen ⊢
    cases act <;>
    · obtain ⟨k, hk⟩ := ih ((step_numbered_le ..).trans_lt hlen)
      exact hk.step _ hlen

/-- **The replica is the master list** whenever a registered mirror has been handed all events
that are numbered for it. -/
theorem replica_follows (jobs : JobList β) (acts : List (MirrorAct β))
    (hlen : (mirrorRun jobs acts).2.numbered.length < 2 ^ 32 - 1)
    (hclient : (mirrorRun jobs acts).2.client.isSome)
    (hall : (mirrorRun jobs acts).2.numbered.length < (mirrorRun jobs acts).2.receiver.nextEvent) :
    replica jobs (mirrorRun jobs acts).2.receiver.handed = (mirrorRun jobs acts).1 := by
  obtain ⟨k, hk⟩ := mirrorRun_delivered hlen
  obtain ⟨ec, hec⟩ := Option.isSome_iff_exists.mp hclient
  rw [hk.nextEvent] at hall
  rw [hk.handed, List.take_of_length_le (Nat.le_of_lt_succ hall)]
  exact (numbered_follows jobs acts hec).2

/-- The second report overtakes the first. -/
def lateReports : List (MirrorAct ℕ) :=
  [.change (.jobAdd 1 ⟨0, fun _ => true, fun _ => none⟩), .onTheWay .send trivial,
    .change (.jobMod 1 5 fun _ => false), .onTheWay .send trivial,
    .onTheWay (.get [1, 0]) trivial]

theorem replica_follows_lateReports :
    replica (fun _ => none) (mirrorRun (fun _ => none) lateReports).2.receiver.handed =
      (mirrorRun (fun _ => none) lateReports).1 :=
  replica_follows _ lateReports (by decide +kernel) (by decide +kernel) (by decide +kernel)

end ClusterScheduler.Events
