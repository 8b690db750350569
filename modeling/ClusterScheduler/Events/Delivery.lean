import ClusterScheduler.Events.EventMaster
import ClusterScheduler.Foundation.Stream

/-!
# Delivery of events

The event master sends all events that are not acknowledged with every report. Reports and
acknowledgements can be lost, repeated and overtake each other.

* `ckEventNumber` — the client trims a report to what is new.
* `ec2Get` — the client fetches reports, hands out what is new, and acknowledges it.
* `Delivery`, `Act`, `step` — the event master, the client and all that was ever sent.
* `Delivered` — what holds after any run.
* `delivered_once` — the client hands out the events once and in order, and no event is
  dropped that it still waits for.
-/

namespace ClusterScheduler.Events

open Foundation

variable {α : Type*}

/-! ## The client -/

/-- The next number to wait for behind events with increasing numbers. -/
def increasingNumbers : List (Event α) → ℕ → Option ℕ
  | [], i => some i
  | event :: events, i =>
    if event.number ≠ i then none else increasingNumbers events ((i + 1) % 2 ^ 32)

/-- What is left of a report, and the next number to wait for. An empty report only tells
that the event master is alive. That all events of a report are old is only logged. -/
def ckEventNumber (lp : List (Event α)) (waitingFor : ℕ) : Option (List (Event α) × ℕ) :=
  match lp with
  | [] => some ([], waitingFor)
  | first :: _ =>
    if waitingFor < first.number then none
    else
      let rest := lp.dropWhile (fun event => event.number < waitingFor)
      (increasingNumbers rest waitingFor).map fun next => (rest, next)

/-- The next number to wait for, all that was handed out, and whether the client has to
register again. -/
structure Receiver (α : Type*) where
  nextEvent : ℕ
  handed : List (Event α)
  marked : Bool

/-- The reports are fetched until there is none left or a number is wrong. -/
def fetchReports (nextEvent : ℕ) (eventList : List (Event α)) :
    List (List (Event α)) → Option (List (Event α)) × ℕ
  | [] => (some eventList, nextEvent)
  | report :: reports =>
    match ckEventNumber report nextEvent with
    | none => (none, nextEvent)
    | some (newEvents, next) => fetchReports next (eventList ++ newEvents) reports

def isLastEvent (event : Event α) : Bool :=
  event.type = .qmasterGoesDown || event.type = .ackTimeout

/-- The receiver after the reports, and the acknowledgement that is sent. -/
def ec2Get (receiver : Receiver α) (reports : List (List (Event α))) :
    Receiver α × Option ℕ :=
  let fetched := fetchReports receiver.nextEvent [] reports
  let eventList := fetched.1.getD []
  ({ nextEvent := fetched.2
     handed := receiver.handed ++ eventList
     marked := fetched.1.isNone || eventList.any isLastEvent },
   if reports = [] then none else some ((fetched.2 + (2 ^ 32 - 1)) % 2 ^ 32))

/-! ## Runs -/

/-- The event master's record of the client, while it has one, all events it has numbered
for it, and all reports and acknowledgements that were ever sent. -/
structure Delivery (α : Type*) where
  client : Option (EventClient α)
  numbered : List (Event α)
  reports : List (List (Event α))
  acks : List ℕ
  receiver : Receiver α

/-- What can happen. A report or an acknowledgement is one of all that were ever sent. -/
inductive Act (α : Type*) where
  | add (event : Event α)
  | modify (subscribed : EvEvent → Bool) (select : EvEvent → α → Option α)
  | send
  | ackTimeout
  | remove
  | processAck (k : ℕ)
  | get (ks : List ℕ)

/-- The record of the client is replaced, what was numbered since is noted. -/
def setClient (s : Delivery α) (ec ec' : EventClient α) : Delivery α :=
  { s with
    client := some ec'
    numbered := s.numbered ++ ec'.events.drop ec.events.length }

def sendReport (s : Delivery α) (ec : EventClient α) : Delivery α :=
  { s with reports := s.reports ++ [ec.events] }

def processAck (s : Delivery α) (ec : EventClient α) (eventNumber : ℕ) : Delivery α :=
  { s with client := some { ec with events := purgeEventList ec.events eventNumber } }

def getEvents (s : Delivery α) (reports : List (List (Event α))) : Delivery α :=
  let got := ec2Get s.receiver reports
  { s with receiver := got.1, acks := s.acks ++ got.2.toList }

/-- One step. A client that has to register again does not fetch any more reports. -/
def step (s : Delivery α) : Act α → Delivery α
  | .add event =>
    match s.client with
    | some ec => setClient s ec (addListEventDirect ec event)
    | none => s
  | .modify subscribed select =>
    { s with client := s.client.map fun ec => modEventClient ec subscribed select }
  | .send =>
    match s.client with
    | some ec => sendReport s ec
    | none => s
  | .ackTimeout =>
    match s.client with
    | some ec =>
      let ec' := chainEvent ec ackTimeoutEvent
      { sendReport (setClient s ec ec') ec' with client := none }
    | none => s
  | .remove => { s with client := none }
  | .processAck k =>
    match s.client, s.acks[k]? with
    | some ec, some eventNumber => processAck s ec eventNumber
    | _, _ => s
  | .get ks =>
    if s.receiver.marked then s else getEvents s (ks.filterMap (s.reports[·]?))

def registered (ec : EventClient α) : Delivery α :=
  { client := some ec, numbered := [], reports := [], acks := [],
    receiver := { nextEvent := 1, handed := [], marked := false } }

def run (s : Delivery α) (acts : List (Act α)) : Delivery α := acts.foldl step s

/-! ## Reports -/

/-- A report holds events of the stream from one that the client has or waits for. -/
def ReportOf (stream : List (Event α)) (n : ℕ) (report : List (Event α)) : Prop :=
  ∃ start, start ≤ n ∧ start ≤ stream.length ∧ Excerpt stream start report

variable {stream : List (Event α)} {n : ℕ}

variable {report : List (Event α)}

theorem ReportOf.mono {m : ℕ} (h : ReportOf stream n report) (hm : n ≤ m) (more : List (Event α)) :
    ReportOf (stream ++ more) m report := by
  obtain ⟨start, hn, hlen, hexcerpt⟩ := h
  refine ⟨start, hn.trans hm, ?_, hexcerpt.append more hlen⟩
  rw [List.length_append]
  omega

variable {events : List (Event α)}

theorem increasingNumbers_of_numbered {i : ℕ}
    (h : Numbered Event.number i events) (hi : i + events.length < 2 ^ 32) :
    increasingNumbers events i = some (i + events.length) := by
  induction events generalizing i with
  | nil => rfl
  | cons event events ih =>
    obtain ⟨hnumber, hrest⟩ := numbered_cons.mp h
    rw [List.length_cons] at hi ⊢
    have hsucc : (i + 1) % 2 ^ 32 = i + 1 := Nat.mod_eq_of_lt (by omega)
    rw [increasingNumbers, if_neg (not_not.mpr hnumber), hsucc, ih hrest (by omega),
      add_assoc, add_comm 1]

/-- **A report is trimmed to what is new** and never refused. -/
theorem ckEventNumber_report (hstream : Numbered Event.number 1 stream)
    (hlen : stream.length < 2 ^ 32 - 1) (hn : n ≤ stream.length) (h : ReportOf stream n report) :
    ∃ newEvents m, ckEventNumber report (n + 1) = some (newEvents, m + 1) ∧ n ≤ m ∧
      m ≤ stream.length ∧ stream.take n ++ newEvents = stream.take m := by
  obtain ⟨start, hstart, hstartLen, hexcerpt⟩ := h
  have hnumbered := hexcerpt.numbered hstream hstartLen
  have hwlen := hexcerpt.length_le hstartLen
  cases report with
  | nil => exact ⟨[], n, rfl, le_rfl, hn, List.append_nil _⟩
  | cons first report =>
    have hfirst := (numbered_cons.mp hnumbered).1
    have hskip := dropWhile_lt (i := n + 1) hnumbered
    have hcount : n + 1 - (start + 1) = n - start := by omega
    rw [hcount] at hskip
    have htake := take_append_excerpt hexcerpt hstart
    refine ⟨(first :: report).drop (n - start), max n (start + (first :: report).length), ?_,
      le_max_left _ _, max_le hn hwlen, htake⟩
    rw [ckEventNumber, if_neg (by omega), hskip]
    dsimp only
    by_cases hnew : n - start ≤ (first :: report).length
    · have hrest := hnumbered.drop hnew
      have hshift : start + 1 + (n - start) = n + 1 := by omega
      rw [hshift] at hrest
      have hincr := increasingNumbers_of_numbered hrest
        (by rw [List.length_drop]; omega)
      have hnext : n + 1 + ((first :: report).drop (n - start)).length =
          max n (start + (first :: report).length) + 1 := by
        rw [List.length_drop]
        omega
      rw [hincr, hnext, Option.map_some]
    · have hold : (first :: report).drop (n - start) = [] :=
        List.drop_eq_nil_of_le (not_le.mp hnew).le
      have hmax : max n (start + (first :: report).length) = n := max_eq_left (by omega)
      rw [hold, hmax]
      rfl

variable {reports : List (List (Event α))}

theorem fetchReports_reports (eventList : List (Event α))
    (hstream : Numbered Event.number 1 stream) (hlen : stream.length < 2 ^ 32 - 1)
    (hn : n ≤ stream.length) (h : ∀ report ∈ reports, ReportOf stream n report) :
    ∃ newEvents m, fetchReports (n + 1) eventList reports =
        (some (eventList ++ newEvents), m + 1) ∧ n ≤ m ∧ m ≤ stream.length ∧
      stream.take n ++ newEvents = stream.take m := by
  induction reports generalizing n eventList with
  | nil => exact ⟨[], n, by rw [List.append_nil]; rfl, le_rfl, hn, List.append_nil _⟩
  | cons report reports ih =>
    obtain ⟨first, m, hck, hnm, hm, hfirst⟩ :=
      ckEventNumber_report hstream hlen hn (h report (.head _))
    have hreports : ∀ other ∈ reports, ReportOf stream m other := by
      intro other hother
      have hmono := (h other (.tail _ hother)).mono hnm []
      rwa [List.append_nil] at hmono
    obtain ⟨later, m', hfetch, hmm, hm', hlater⟩ :=
      ih (eventList ++ first) hm hreports
    refine ⟨first ++ later, m', ?_, hnm.trans hmm, hm', ?_⟩
    · rw [fetchReports, hck]
      dsimp only
      rw [hfetch, List.append_assoc]
    · rw [← List.append_assoc, hfirst, hlater]

/-! ## The invariant -/

/-- After a run the client has the first `k` events. No report starts behind what it waits
for, nothing is acknowledged that it does not have, and what the event master keeps is the
end of the stream. -/
structure Delivered (s : Delivery α) (k : ℕ) : Prop where
  nextEvent : s.receiver.nextEvent = k + 1
  handed : s.receiver.handed = s.numbered.take k
  le : k ≤ s.numbered.length
  numbered : Numbered Event.number 1 s.numbered
  reports : ∀ report ∈ s.reports, ReportOf s.numbered k report
  acks : ∀ n ∈ s.acks, n ≤ k
  client : ∀ ec, s.client = some ec → ec.nextNumber = s.numbered.length + 1 ∧
    ∃ a ≤ k, ec.events = s.numbered.drop a

theorem registered_delivered {ec : EventClient α} (hnext : ec.nextNumber = 1)
    (hevents : ec.events = []) : Delivered (registered ec) 0 where
  nextEvent := rfl
  handed := rfl
  le := le_rfl
  numbered := numbered_nil
  reports := fun _ h => nomatch h
  acks := fun _ h => nomatch h
  client := by
    rintro ec' ⟨⟩
    exact ⟨hnext, 0, le_rfl, hevents⟩

variable {s : Delivery α} {ec ec' : EventClient α} {k : ℕ}

theorem Delivered.setClient (h : Delivered s k) (hclient : s.client = some ec)
    (new : List (Event α)) (hevents : ec'.events = ec.events ++ new)
    (hnew : Numbered Event.number (s.numbered.length + 1) new)
    (hnext : ec'.nextNumber = s.numbered.length + new.length + 1) :
    Delivered (setClient s ec ec') k := by
  obtain ⟨-, a, ha, hec⟩ := h.client ec hclient
  have hlog : (Events.setClient s ec ec').numbered = s.numbered ++ new := by
    unfold Events.setClient
    rw [hevents, List.drop_left]
  constructor
  · exact h.nextEvent
  · rw [hlog, List.take_append_of_le_length h.le]
    exact h.handed
  · rw [hlog, List.length_append]
    exact h.le.trans (Nat.le_add_right _ _)
  · rw [hlog, numbered_append, add_comm 1]
    exact ⟨h.numbered, hnew⟩
  · intro report hreport
    rw [hlog]
    exact (h.reports report hreport).mono le_rfl new
  · exact h.acks
  · rintro ec'' ⟨⟩
    rw [hlog, List.length_append]
    refine ⟨hnext, a, ha, ?_⟩
    rw [hevents, hec, List.drop_append_of_le_length (ha.trans h.le)]

variable {event : Event α}

variable (h : Delivered s k)
include h

theorem Delivered.setClient_one (hclient : s.client = some ec)
    (hevents : ec'.events = ec.events ++ [event]) (hnumber : event.number = ec.nextNumber)
    (hnext : ec'.nextNumber = (ec.nextNumber + 1) % 2 ^ 32)
    (hlen : (Events.setClient s ec ec').numbered.length < 2 ^ 32 - 1) :
    Delivered (Events.setClient s ec ec') k := by
  have hcount := (h.client ec hclient).1
  have hlog : (Events.setClient s ec ec').numbered.length = s.numbered.length + 1 := by
    unfold Events.setClient
    rw [hevents, List.drop_left, List.length_append, List.length_singleton]
  refine h.setClient hclient _ hevents ?_ ?_
  · exact numbered_cons.mpr ⟨hnumber.trans hcount, numbered_nil⟩
  · rw [hnext, hcount, List.length_singleton]
    exact Nat.mod_eq_of_lt (by omega)

theorem Delivered.sendReport (hclient : s.client = some ec) : Delivered (sendReport s ec) k := by
  obtain ⟨-, a, ha, hec⟩ := h.client ec hclient
  refine { h with reports := ?_ }
  intro report hreport
  rcases List.mem_append.mp hreport with hold | hnew
  · exact h.reports report hold
  · rw [List.mem_singleton.mp hnew, hec]
    exact ⟨a, ha, ha.trans h.le, List.prefix_refl _⟩

theorem Delivered.modify (subscribed : EvEvent → Bool) (select : EvEvent → α → Option α) :
    Delivered { s with client := s.client.map (modEventClient · subscribed select) } k := by
  refine { h with client := ?_ }
  intro ec' hclient
  obtain ⟨ec, hec, rfl⟩ := Option.map_eq_some_iff.mp hclient
  exact h.client ec hec

theorem Delivered.remove : Delivered { s with client := none } k :=
  { h with client := fun _ hnone => nomatch hnone }

/-- **What is acknowledged** the client has. -/
theorem Delivered.purge (hclient : s.client = some ec)
    (hn : n ≤ k) : ∃ a ≤ k, purgeEventList ec.events n = s.numbered.drop a := by
  obtain ⟨-, a, ha, hec⟩ := h.client ec hclient
  unfold purgeEventList
  split
  · exact ⟨a, ha, hec⟩
  · have hdrop := dropWhile_le (i := n) (h.numbered.drop (ha.trans h.le))
    refine ⟨a + (n + 1 - (1 + a)), by omega, ?_⟩
    rw [hec, hdrop, List.drop_drop]

theorem Delivered.processAck (hclient : s.client = some ec)
    (hn : n ≤ k) : Delivered (processAck s ec n) k := by
  refine { h with client := ?_ }
  rintro ec' ⟨⟩
  exact ⟨(h.client ec hclient).1, h.purge hclient hn⟩

/-- **The client hands out what is new** and acknowledges what it has. -/
theorem Delivered.getEvents (hlen : s.numbered.length < 2 ^ 32 - 1)
    (hreports : ∀ report ∈ reports, report ∈ s.reports) :
    ∃ m, Delivered (getEvents s reports) m := by
  obtain ⟨newEvents, m, hfetch, hkm, hm, hnew⟩ :=
    fetchReports_reports [] h.numbered hlen h.le
      (fun report hreport => h.reports report (hreports report hreport))
  have hgot : fetchReports s.receiver.nextEvent [] reports = (some newEvents, m + 1) := by
    rw [h.nextEvent, hfetch, List.nil_append]
  refine ⟨m, ?_⟩
  constructor
  · exact congrArg Prod.snd hgot
  · change s.receiver.handed ++ (fetchReports s.receiver.nextEvent [] reports).1.getD [] = _
    rw [hgot, h.handed]
    exact hnew
  · exact hm
  · exact h.numbered
  · intro report hreport
    have hmono := (h.reports report hreport).mono hkm []
    rwa [List.append_nil] at hmono
  · intro n hn
    rcases List.mem_append.mp hn with hold | hack
    · exact (h.acks n hold).trans hkm
    · unfold ec2Get at hack
      rw [hgot] at hack
      dsimp only at hack
      split at hack
      · exact nomatch hack
      · rw [Option.toList_some, List.mem_singleton] at hack
        omega
  · intro ec hclient
    obtain ⟨hnext, a, ha, hec⟩ := h.client ec hclient
    exact ⟨hnext, a, ha.trans hkm, hec⟩

omit h

theorem step_numbered_le (s : Delivery α) (act : Act α) :
    s.numbered.length ≤ (step s act).numbered.length := by
  have hset : ∀ ec ec' : EventClient α,
      s.numbered.length ≤ (Events.setClient s ec ec').numbered.length := by
    intro ec ec'
    unfold Events.setClient
    rw [List.length_append]
    exact Nat.le_add_right _ _
  cases act with
  | add event =>
    cases hclient : s.client with
    | none => simp [step, hclient]
    | some ec => simpa [step, hclient] using hset ec (addListEventDirect ec event)
  | modify subscribed select => exact le_rfl
  | send => cases hclient : s.client <;> simp [step, hclient, Events.sendReport]
  | ackTimeout =>
    cases hclient : s.client with
    | none => simp [step, hclient]
    | some ec =>
      simpa [step, hclient, Events.sendReport] using hset ec (chainEvent ec ackTimeoutEvent)
  | remove => exact le_rfl
  | processAck n =>
    cases hclient : s.client <;> cases hack : s.acks[n]? <;>
      simp [step, hclient, hack, Events.processAck]
  | get ks => cases hmarked : s.receiver.marked <;> simp [step, hmarked, Events.getEvents]

/-- **One step** keeps what holds. -/
theorem Delivered.step (h : Delivered s k) (act : Act α)
    (hlen : (step s act).numbered.length < 2 ^ 32 - 1) : ∃ m, Delivered (step s act) m := by
  have hbefore := (step_numbered_le s act).trans_lt hlen
  cases act with
  | add event =>
    cases hclient : s.client with
    | none =>
      simp only [Events.step, hclient]
      exact ⟨k, h⟩
    | some ec =>
      simp only [Events.step, hclient] at hlen ⊢
      rcases addListEventDirect_events ec event with
        ⟨hevents, hnext⟩ | ⟨left, hnumber, -, hevents, hnext⟩
      · refine ⟨k, h.setClient hclient [] ?_ numbered_nil ?_⟩
        · rw [hevents, List.append_nil]
        · rw [hnext, (h.client ec hclient).1]
          rfl
      · exact ⟨k, h.setClient_one hclient hevents hnumber hnext hlen⟩
  | modify subscribed select => exact ⟨k, h.modify subscribed select⟩
  | send =>
    cases hclient : s.client with
    | none =>
      simp only [Events.step, hclient]
      exact ⟨k, h⟩
    | some ec =>
      simp only [Events.step, hclient]
      exact ⟨k, h.sendReport hclient⟩
  | ackTimeout =>
    cases hclient : s.client with
    | none =>
      simp only [Events.step, hclient]
      exact ⟨k, h⟩
    | some ec =>
      simp only [Events.step, hclient] at hlen ⊢
      have hset := h.setClient_one hclient rfl rfl rfl hlen
      exact ⟨k, (hset.sendReport rfl).remove⟩
  | remove => exact ⟨k, h.remove⟩
  | processAck n =>
    cases hclient : s.client with
    | none =>
      simp only [Events.step, hclient]
      exact ⟨k, h⟩
    | some ec =>
      cases hack : s.acks[n]? with
      | none =>
        simp only [Events.step, hclient, hack]
        exact ⟨k, h⟩
      | some eventNumber =>
        simp only [Events.step, hclient, hack]
        exact ⟨k, h.processAck hclient (h.acks _ (List.mem_of_getElem? hack))⟩
  | get ks =>
    simp only [Events.step]
    split
    · exact ⟨k, h⟩
    · apply h.getEvents hbefore
      intro report hreport
      obtain ⟨i, -, hi⟩ := List.mem_filterMap.mp hreport
      exact List.mem_of_getElem? hi

theorem run_numbered_le (s : Delivery α) (acts : List (Act α)) :
    s.numbered.length ≤ (run s acts).numbered.length := by
  induction acts generalizing s with
  | nil => exact le_rfl
  | cons act acts ih => exact (step_numbered_le s act).trans (ih (Events.step s act))

theorem Delivered.run (h : Delivered s k) (acts : List (Act α))
    (hlen : (run s acts).numbered.length < 2 ^ 32 - 1) : ∃ m, Delivered (run s acts) m := by
  induction acts generalizing s k with
  | nil => exact ⟨k, h⟩
  | cons act acts ih =>
    obtain ⟨m, hm⟩ := h.step act ((run_numbered_le (Events.step s act) acts).trans_lt hlen)
    exact ih hm hlen

/-! ## Exactly once and in order -/

/-- The client has the events with the numbers below the one it waits for, and nothing that
is acknowledged is one it still waits for. -/
def OnceInOrder (s : Delivery α) : Prop :=
  s.receiver.handed = s.numbered.take (s.receiver.nextEvent - 1) ∧
    s.receiver.handed.map Event.number = List.range' 1 (s.receiver.nextEvent - 1) ∧
    ∀ ec, s.client = some ec → ∀ eventNumber ∈ s.acks, ∀ event ∈ ec.events,
      s.receiver.nextEvent ≤ event.number → event ∈ purgeEventList ec.events eventNumber

theorem mem_dropWhile_le (hmem : event ∈ events) (hn : n < event.number) :
    event ∈ events.dropWhile (fun other => other.number ≤ n) := by
  have hsplit := List.takeWhile_append_dropWhile (p := fun other : Event α => other.number ≤ n)
    (l := events)
  rw [← hsplit, List.mem_append] at hmem
  rcases hmem with hold | hnew
  · have hle := List.mem_takeWhile_imp hold
    rw [decide_eq_true_eq] at hle
    omega
  · exact hnew

theorem Delivered.onceInOrder (h : Delivered s k) : OnceInOrder s := by
  have hk : s.receiver.nextEvent - 1 = k := by rw [h.nextEvent, Nat.add_sub_cancel]
  refine ⟨?_, ?_, ?_⟩
  · rw [hk]
    exact h.handed
  · have hnumbered := h.numbered.of_initial (List.take_prefix k s.numbered)
    rw [Numbered, List.length_take_of_le h.le] at hnumbered
    rw [hk, h.handed, hnumbered]
  · intro ec hclient n hack event hevent hnumber
    have hn := h.acks n hack
    have hnext := h.nextEvent
    unfold purgeEventList
    split
    · exact hevent
    · exact mem_dropWhile_le hevent (by omega)

/-- **Events are delivered exactly once and in order.** In every run of one registration
the client has handed out the events 1, 2, … as they were numbered, each once and in order,
and no acknowledgement drops an event that the client still waits for. -/
theorem delivered_once (session : Option String) (subscribed : EvEvent → Bool)
    (select : EvEvent → α → Option α) (acts : List (Act α))
    (hlen : (run (registered (addEventClient session subscribed select)) acts).numbered.length <
      2 ^ 32 - 1) :
    OnceInOrder (run (registered (addEventClient session subscribed select)) acts) := by
  have hinit : Delivered (registered (addEventClient session subscribed select)) 0 :=
    registered_delivered rfl rfl
  obtain ⟨m, hm⟩ := hinit.run acts hlen
  exact hm.onceInOrder

/-- Reports overtake each other and come twice, an acknowledgement comes late, another is
lost, and the client is removed in the end. -/
def lossyRun : List (Act ℕ) :=
  let event : Event ℕ := { type := .jobAdd, uniqueId := 1, newVersion := some 7 }
  [.add event, .send, .add event, .add event, .send, .get [1, 0, 1], .send, .add event, .send,
    .get [0, 3, 2], .send, .processAck 0, .send, .processAck 0, .get [5], .ackTimeout, .get [6],
    .get [0]]

def lossyDelivery : Delivery ℕ :=
  run (registered (addEventClient none (fun _ => true) (fun _ new => some new))) lossyRun

theorem delivered_once_lossy :
    lossyDelivery.receiver.handed.map Event.number = [1, 2, 3, 4, 5] ∧
      lossyDelivery.receiver.marked = true ∧ OnceInOrder lossyDelivery :=
  ⟨by decide +kernel, by decide +kernel, delivered_once _ _ _ _ (by decide +kernel)⟩

end ClusterScheduler.Events
