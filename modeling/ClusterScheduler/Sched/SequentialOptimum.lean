import ClusterScheduler.Sched.SequentialBest

/-!
# The best queue instance

When the search finds the best of the queue instances a job can run in.

* `Optimal` — the result is a queue instance that none is better than.
* `FindsHard`, `FindsSoft` — when a reservation finds the best queue instance, without and with
  soft requests.
* `optimal_iff` — exactly when the result is optimal.
-/

namespace ClusterScheduler.Sched

section Optimum

variable (a : SequentialAssignment) (s₀ : SequentialStart)

/-- The job can run in the queue instance, also by the global layer. -/
def CanRun (q : SequentialQueue) : Prop := a.globalTime.passes = true ∧ Suitable a s₀ q

/-- An assignment now has the fewest soft violations. A reservation has the earliest start, and
the fewest soft violations among those with it. -/
def Optimal (result : Dispatch × Option (SequentialQueue × ℕ)) : Prop :=
  ∃ q start, result = (.ok, some (q, start)) ∧ q ∈ a.queues ∧ CanRun a s₀ q ∧
    (a.isReservation = false → ∀ q' ∈ a.queues, CanRun a s₀ q' → a.violations q ≤ a.violations q') ∧
    (a.isReservation = true → start = a.start q ∧ ∀ q' ∈ a.queues, CanRun a s₀ q' →
      a.start q ≤ a.start q' ∧ (a.start q' = a.start q → a.violations q ≤ a.violations q'))

variable {a s₀}

/-! ## The choice -/

section Choice

variable {tags : String → QueueTags}

theorem foldl_betterQueue_of_untagged {queues : List SequentialQueue} (best : BestQueue)
    (h : ∀ q ∈ queues, (tags q.qname).tag = 0) : queues.foldl (betterQueue a tags) best = best := by
  induction queues with
  | nil => rfl
  | cons q queues ih =>
    obtain ⟨hq, hqueues⟩ := List.forall_mem_cons.mp h
    have hskip : betterQueue a tags best q = best := if_neg fun hall => hall.1 hq
    rw [List.foldl_cons, hskip, ih hqueues]

variable (tags) in
/-- Without soft requests the first of the earliest tagged queue instances is chosen. -/
theorem foldl_betterQueue_hard (hhard : a.isSoft = false) (queues : List SequentialQueue)
    (best : BestQueue) :
    (queues.foldl (betterQueue a tags) best = best ∧
        ∀ q ∈ queues, (tags q.qname).tag ≠ 0 → best.jobStartTime ≤ (tags q.qname).availableAt) ∨
      ∃ before q after, queues = before ++ q :: after ∧
        queues.foldl (betterQueue a tags) best =
          ⟨some q, (tags q.qname).availableAt, (tags q.qname).softViolation⟩ ∧
        (tags q.qname).tag ≠ 0 ∧ (tags q.qname).availableAt < best.jobStartTime ∧
        (∀ x ∈ before, (tags x.qname).tag ≠ 0 →
          (tags q.qname).availableAt < (tags x.qname).availableAt) ∧
        ∀ x ∈ after, (tags x.qname).tag ≠ 0 →
          (tags q.qname).availableAt ≤ (tags x.qname).availableAt := by
  induction queues generalizing best with
  | nil => exact Or.inl ⟨rfl, nofun⟩
  | cons q queues ih =>
    rw [List.foldl_cons]
    by_cases hbetter : (tags q.qname).tag ≠ 0 ∧ (tags q.qname).availableAt < best.jobStartTime
    · have hstep : betterQueue a tags best q =
          ⟨some q, (tags q.qname).availableAt, (tags q.qname).softViolation⟩ :=
        if_pos ⟨hbetter.1, Or.inl hbetter.2⟩
      rw [hstep]
      rcases ih ⟨some q, (tags q.qname).availableAt, (tags q.qname).softViolation⟩ with
        ⟨heq, hle⟩ | ⟨before, x, after, rfl, heq, htag, hlt, hbefore, hafter⟩
      · exact Or.inr ⟨[], q, queues, rfl, heq, hbetter.1, hbetter.2, nofun, hle⟩
      · exact Or.inr ⟨q :: before, x, after, rfl, heq, htag, hlt.trans hbetter.2,
          List.forall_mem_cons.mpr ⟨fun _ => hlt, hbefore⟩, hafter⟩
    · have hstep : betterQueue a tags best q = best := by
        refine if_neg fun ⟨htag, hor⟩ => hbetter ⟨htag, ?_⟩
        exact hor.resolve_right fun hsoft => Bool.false_ne_true (hhard.symm.trans hsoft.1)
      have hlate (htag : (tags q.qname).tag ≠ 0) :
          best.jobStartTime ≤ (tags q.qname).availableAt :=
        not_lt.mp fun hlt => hbetter ⟨htag, hlt⟩
      rw [hstep]
      rcases ih best with ⟨heq, hle⟩ | ⟨before, x, after, rfl, heq, htag, hlt, hbefore, hafter⟩
      · exact Or.inl ⟨heq, List.forall_mem_cons.mpr ⟨hlate, hle⟩⟩
      · exact Or.inr ⟨q :: before, x, after, rfl, heq, htag, hlt,
          List.forall_mem_cons.mpr ⟨fun htag => hlt.trans_le (hlate htag), hbefore⟩, hafter⟩

/-- An assignment now takes the first tagged queue instance. -/
theorem chooseQueue_now (hnow : a.isReservation = false) {before after : List SequentialQueue}
    {q : SequentialQueue} (hall : a.queues = before ++ q :: after)
    (hbefore : ∀ x ∈ before, (tags x.qname).tag = 0) (hq : (tags q.qname).tag ≠ 0) :
    chooseQueue a tags = some (q, (tags q.qname).availableAt) := by
  have hfind : a.queues.find? (fun q => decide ((tags q.qname).tag ≠ 0)) = some q := by
    rw [List.find?_eq_some_iff_append]
    refine ⟨decide_eq_true hq, before, after, hall, fun x hx => ?_⟩
    simp [hbefore x hx]
  rw [chooseQueue, if_neg (Bool.eq_false_iff.mp hnow), hfind]
  rfl

theorem OnlyTagged.choose {s : SequentialState} {b : SequentialQueue}
    (h : OnlyTagged a s₀ a.queues s b) (hsoft : a.isSoft = true) :
    ∃ start, chooseQueue a s.tags = some (b, start) ∧
      (a.isReservation = true → start = a.start b) := by
  obtain ⟨before, after, hall⟩ := List.append_of_mem h.mem
  have hnodup := a.qnames_nodup
  rw [hall, List.map_append, List.map_cons] at hnodup
  have hbefore (x : SequentialQueue) (hx : x ∈ before) : (s.tags x.qname).tag = 0 := by
    by_contra htag
    have hmem : x ∈ a.queues := hall ▸ List.mem_append_left _ hx
    exact (List.nodup_append.mp hnodup).2.2 _ (List.mem_map_of_mem hx) _ (.head _)
      ((h.tag x hmem).mp htag)
  have hafter (x : SequentialQueue) (hx : x ∈ after) : (s.tags x.qname).tag = 0 := by
    by_contra htag
    have hmem : x ∈ a.queues := hall ▸ List.mem_append_right _ (.tail _ hx)
    refine (List.nodup_cons.mp (List.nodup_append.mp hnodup).2.1).1 ?_
    rw [← (h.tag x hmem).mp htag]
    exact List.mem_map_of_mem hx
  have htag : (s.tags b.qname).tag ≠ 0 := (h.tag b h.mem).mpr rfl
  by_cases hres : a.isReservation = true
  · have hav := h.availableAt hres
    have hmax : a.start b ≤ uint64Max :=
      max_le (a.queue_le _) (max_le (a.host_le _) a.global_le)
    have hviolations : a.violations b < uint32Max := (a.violations_lt b.qname).trans (by decide)
    have hstep : betterQueue a s.tags ⟨none, uint64Max, uint32Max⟩ b =
        ⟨some b, a.start b, a.violations b⟩ := by
      rw [betterQueue, hav, h.softViolation]
      refine if_pos ⟨htag, ?_⟩
      rcases hmax.lt_or_eq with hlt | heq
      · exact Or.inl hlt
      · exact Or.inr ⟨hsoft, hviolations, heq.symm⟩
    refine ⟨a.start b, ?_, fun _ => rfl⟩
    rw [chooseQueue, if_pos hres, hall, List.foldl_append, foldl_betterQueue_of_untagged _ hbefore,
      List.foldl_cons, hstep, foldl_betterQueue_of_untagged _ hafter]
    rfl
  · exact ⟨_, chooseQueue_now (Bool.eq_false_iff.mpr hres) hall hbefore htag,
      fun hres' => absurd hres' hres⟩

end Choice

/-! ## The result -/

/-- Among the tagged queue instances the best one has to be chosen. -/
theorem optimal_choose (hpasses : a.globalTime.passes = true)
    (hok : (visitQueueList a (.init s₀) a.queues).bestQueueResult = .ok) :
    Optimal a s₀ (sgeSequentialAssignment a s₀) ↔
      Optimal a s₀ (.ok, chooseQueue a (visitQueueList a (.init s₀) a.queues).tags) := by
  have htags : sequentialTagQueuesSuitable4job a s₀ =
      (.ok, (visitQueueList a (.init s₀) a.queues).tags) := by
    rw [sequentialTagQueuesSuitable4job, if_neg (by simp [hpasses])]
    exact Prod.ext hok rfl
  rw [sgeSequentialAssignment, htags]
  dsimp only
  rw [if_pos rfl]
  cases chooseQueue a (visitQueueList a (.init s₀) a.queues).tags with
  | none => exact iff_of_false (fun ⟨_, _, heq, _⟩ => nomatch heq) fun ⟨_, _, heq, _⟩ => nomatch heq
  | some best => exact Iff.rfl

section Left

variable {pre : List SequentialQueue} {s s' : SequentialState} {q : SequentialQueue}

theorem SearchInv.gotSolution {Best : List SequentialQueue → SequentialState → Prop}
    (h : SearchInv a s₀ Best a.queues s) (hsome : ∃ q ∈ a.queues, Suitable a s₀ q) :
    s.gotSolution = true := by
  obtain ⟨q, hq, hsuits⟩ := hsome
  cases hgot : s.gotSolution with
  | true => rfl
  | false => exact absurd hsuits ((h.none hgot).unsuitable q hq)

/-- The queue instance at which the loop is left is tagged. -/
theorem left_tag (hne : s'.bestQep ≠ some q.qname) :
    ((acceptTags a s' q).untagBest.tags q.qname).tag = 1 := by
  have hbest : (acceptTags a s' q).bestQep ≠ some q.qname := hne
  rw [untagBest_tag, if_neg hbest, acceptTags_tag, if_pos rfl]

theorem left_tag_of_ne (haccepts : Accepts a s₀ s q s') {name : String} (hname : name ≠ q.qname) :
    ((acceptTags a s' q).untagBest.tags name).tag =
      if s.bestQep = some name then 0 else (s.tags name).tag := by
  have hbest : (acceptTags a s' q).bestQep = s.bestQep := haccepts.same.bestQep
  rw [untagBest_tag, hbest, acceptTags_tag, if_neg hname, haccepts.same.tag, setTag_tag,
    if_neg hname]

end Left

theorem optimal_now (hpasses : a.globalTime.passes = true)
    (hsome : ∃ q ∈ a.queues, Suitable a s₀ q) (hnow : a.isReservation = false) :
    Optimal a s₀ (sgeSequentialAssignment a s₀) := by
  have hres : ¬ a.isReservation = true := Bool.eq_false_iff.mp hnow
  have hrule : BestRule a s₀ (BestNow a s₀) := BestNow.rule hnow
  rcases hrule.loop with hend | ⟨pre, q, post, s, s', hall, hinv, haccepts, hfound, heq⟩
  · have hgot := hend.gotSolution hsome
    obtain ⟨hsoft, b, honly, -, hle⟩ := hend.some hgot
    obtain ⟨start, hchoose, -⟩ := honly.choose hsoft
    rw [optimal_choose hpasses (hend.searched.skip.result hgot), hchoose]
    exact ⟨b, start, rfl, honly.mem, ⟨hpasses, honly.suits⟩, fun _ q' hq' hrun =>
      hle q' hq' hrun.2, fun hres' => absurd hres' hres⟩
  · have hok : (visitQueueList a (.init s₀) a.queues).bestQueueResult = .ok := by
      rw [heq, untagBest_bestQueueResult]
      rfl
    have hzero : a.violations q = 0 := by
      cases hsoft : a.isSoft with
      | false => exact a.violations_hard hsoft q.qname
      | true => simpa [foundQueue, hnow, hsoft] using hfound
    have hnew := qname_notMem hall
    have htags : ∀ x ∈ pre, (s.tags x.qname).tag ≠ 0 → s.bestQep = some x.qname := by
      cases hgot : s.gotSolution with
      | false => exact (hinv.none hgot).tags_eq
      | true =>
        obtain ⟨-, b, honly, -, -⟩ := hinv.some hgot
        exact honly.tags_eq
    have hpre (x : SequentialQueue) (hx : x ∈ pre) :
        ((acceptTags a s' q).untagBest.tags x.qname).tag = 0 := by
      rw [left_tag_of_ne haccepts (ne_of_notMem hnew hx)]
      split
      next => rfl
      next hne =>
        by_contra htag
        exact hne (htags x hx htag)
    have hq : ((acceptTags a s' q).untagBest.tags q.qname).tag ≠ 0 := by
      rw [left_tag (haccepts.bestQep_ne hnew fun _ => hinv.bestQep_mem hrule)]
      exact Nat.one_ne_zero
    rw [optimal_choose hpasses hok, heq, chooseQueue_now hnow hall hpre hq]
    refine ⟨q, _, rfl, hall ▸ List.mem_append_right _ (.head _),
      ⟨hpasses, haccepts.suits⟩, fun _ q' _ _ => ?_, fun hres' => absurd hres' hres⟩
    rw [hzero]
    exact Nat.zero_le _

/-- A queue instance ends the loop when only the global layer delays it. -/
structure EndsSearch (a : SequentialAssignment) (s₀ : SequentialStart)
    (pre : List SequentialQueue) (q : SequentialQueue) : Prop where
  suits : Suitable a s₀ q
  queueStart_le : a.queueStart q ≤ a.globalTime.time
  before : ∀ x ∈ pre, Suitable a s₀ x → a.globalTime.time < a.queueStart x

/-- A job can start before the end of time, and behind the queue instance that ends the loop no
queue instance is tagged, by an earlier search, for an earlier time. -/
structure FindsHard (a : SequentialAssignment) (s₀ : SequentialStart) : Prop where
  before_end : ∃ q ∈ a.queues, Suitable a s₀ q ∧ a.start q < uint64Max
  tags : ∀ pre q post, a.queues = pre ++ q :: post → EndsSearch a s₀ pre q →
    ∀ x ∈ post, (s₀.tags x.qname).tag ≠ 0 →
      a.globalTime.time ≤ (s₀.tags x.qname).availableAt

/-- None of the earliest queue instances has fewer violations than those that are compared. -/
def FindsSoft (a : SequentialAssignment) (s₀ : SequentialStart) : Prop :=
  ∀ before first after, a.queues = before ++ first :: after →
    FirstEarliest a s₀ before after first → ∀ q ∈ a.queues, Suitable a s₀ q →
      a.start q = a.start first →
        ∃ q' ∈ a.queues, Compared a s₀ first q' ∧ a.violations q' ≤ a.violations q

theorem first_unique {α : Type*} {P : α → Prop} {before before' after after' : List α} {x x' : α}
    (h : before ++ x :: after = before' ++ x' :: after') (hx : P x) (hx' : P x')
    (hbefore : ∀ y ∈ before, ¬ P y) (hbefore' : ∀ y ∈ before', ¬ P y) :
    before = before' ∧ x = x' ∧ after = after' := by
  induction before generalizing before' with
  | nil =>
    cases before' with
    | nil =>
      obtain ⟨rfl, rfl⟩ := List.cons.inj h
      exact ⟨rfl, rfl, rfl⟩
    | cons y before' =>
      obtain ⟨rfl, -⟩ := List.cons.inj h
      exact absurd hx (hbefore' _ (.head _))
  | cons y before ih =>
    cases before' with
    | nil =>
      obtain ⟨rfl, -⟩ := List.cons.inj h
      exact absurd hx' (hbefore _ (.head _))
    | cons y' before' =>
      obtain ⟨rfl, htail⟩ := List.cons.inj h
      obtain ⟨rfl, rfl, rfl⟩ := ih htail (List.forall_mem_cons.mp hbefore).2
        (List.forall_mem_cons.mp hbefore').2
      exact ⟨rfl, rfl, rfl⟩

theorem EndsSearch.unique {pre pre' post post' : List SequentialQueue} {q q' : SequentialQueue}
    (hends : EndsSearch a s₀ pre q) (hends' : EndsSearch a s₀ pre' q')
    (h : pre ++ q :: post = pre' ++ q' :: post') : pre = pre' ∧ q = q' ∧ post = post' :=
  first_unique (P := fun x => Suitable a s₀ x ∧ a.queueStart x ≤ a.globalTime.time) h
    ⟨hends.suits, hends.queueStart_le⟩ ⟨hends'.suits, hends'.queueStart_le⟩
    (fun x hx hall => (hends.before x hx hall.1).not_ge hall.2)
    fun x hx hall => (hends'.before x hx hall.1).not_ge hall.2

theorem FirstEarliest.unique {before before' after after' : List SequentialQueue}
    {first first' : SequentialQueue} (h : FirstEarliest a s₀ before after first)
    (h' : FirstEarliest a s₀ before' after' first')
    (heq : before ++ first :: after = before' ++ first' :: after') :
    before = before' ∧ first = first' ∧ after = after' := by
  have hstart : a.start first = a.start first' := by
    apply le_antisymm
    · exact h.start_le heq.symm (List.mem_append_right _ (.head _)) h'.suits
    · exact h'.start_le heq (List.mem_append_right _ (.head _)) h.suits
  exact first_unique (P := fun x => Suitable a s₀ x ∧ a.start x = a.start first) heq
    ⟨h.suits, rfl⟩ ⟨h'.suits, hstart.symm⟩
    (fun x hx hall => (h.before_lt x hx hall.1).ne' hall.2)
    fun x hx hall => (h'.before_lt x hx hall.1).ne' (hall.2.trans hstart)

section Hard

variable (hres : a.isReservation = true) (hhard : a.isSoft = false)

include hres in
theorem chooseQueue_reservation (tags : String → QueueTags) :
    chooseQueue a tags = (a.queues.foldl (betterQueue a tags) ⟨none, uint64Max, uint32Max⟩).queue.map
      fun q => (q, (a.queues.foldl (betterQueue a tags) ⟨none, uint64Max, uint32Max⟩).jobStartTime) :=
  if_pos hres

variable {tags : String → QueueTags}

include hres hhard in
theorem Optimal.start_lt (h : Optimal a s₀ (.ok, chooseQueue a tags)) :
    ∃ q ∈ a.queues, Suitable a s₀ q ∧ a.start q < uint64Max := by
  obtain ⟨q, start, heq, hq, hrun, -, hbest⟩ := h
  have hstart := (hbest hres).1
  have hchoose : chooseQueue a tags = some (q, start) := congrArg Prod.snd heq
  rw [chooseQueue_reservation hres] at hchoose
  refine ⟨q, hq, hrun.2, ?_⟩
  rcases foldl_betterQueue_hard tags hhard a.queues ⟨none, uint64Max, uint32Max⟩ with
    ⟨hfold, -⟩ | ⟨_, x, _, _, hfold, _, hlt, _⟩
  · rw [hfold] at hchoose
    nomatch hchoose
  · rw [hfold] at hchoose
    have hpair := Prod.mk.inj (Option.some.inj hchoose)
    rw [← hstart, ← hpair.2]
    exact hlt

variable {q : SequentialQueue}

include hres hhard in
/-- Without soft requests an earliest queue instance is an optimal one. -/
theorem optimal_of_earliest (hpasses : a.globalTime.passes = true) (hq : q ∈ a.queues)
    (hsuits : Suitable a s₀ q) (hle : ∀ x ∈ a.queues, Suitable a s₀ x → a.start q ≤ a.start x) :
    Optimal a s₀ (.ok, some (q, a.start q)) := by
  have hviolations (x : SequentialQueue) : a.violations x = 0 := a.violations_hard hhard x.qname
  refine ⟨q, a.start q, rfl, hq, ⟨hpasses, hsuits⟩, fun hnow => ?_, fun _ => ⟨rfl, ?_⟩⟩
  · exact absurd (hnow.symm.trans hres) Bool.false_ne_true
  · refine fun x hx hrun => ⟨hle x hx hrun.2, fun _ => ?_⟩
    rw [hviolations, hviolations]

include hres hhard in
theorem optimal_hard_of_end (hpasses : a.globalTime.passes = true)
    {s : SequentialState} (hbest : BestHard a s₀ a.queues s) :
    Optimal a s₀ (.ok, chooseQueue a s.tags) ↔ FindsHard a s₀ := by
  have hends (pre : List SequentialQueue) (q : SequentialQueue) (post : List SequentialQueue)
      (hall : a.queues = pre ++ q :: post) : ¬ EndsSearch a s₀ pre q := fun hends => by
    have hmem : q ∈ a.queues := hall ▸ List.mem_append_right _ (.head _)
    have hlate := hbest.global_lt.trans_le (hbest.earliest q hmem hends.suits)
    exact hlate.not_ge hends.queueStart_le
  have hmin (x : SequentialQueue) (hx : x ∈ a.queues) (hsuits : Suitable a s₀ x) :
      s.ttBest ≤ a.start x := by
    rw [start_eq]
    exact le_max_of_le_left (hbest.earliest x hx hsuits)
  constructor
  · exact fun h => ⟨Optimal.start_lt hres hhard h, fun pre q post hall h =>
      absurd h (hends pre q post hall)⟩
  · intro h
    obtain ⟨b, hb, htagb, hstartb⟩ := hbest.reached
    have havb := (hbest.tagged b hb htagb).2
    rw [chooseQueue_reservation hres]
    rcases foldl_betterQueue_hard s.tags hhard a.queues ⟨none, uint64Max, uint32Max⟩ with
      ⟨-, hlate⟩ | ⟨before, q, after, hall, hfold, htag, hlt, hbefore, hafter⟩
    · obtain ⟨x, hx, hsuits, hlt⟩ := h.before_end
      have hend : uint64Max ≤ a.start b := (hlate b hb htagb).trans_eq havb
      rw [hstartb] at hend
      exact absurd (hend.trans (hmin x hx hsuits)) hlt.not_ge
    · have hq : q ∈ a.queues := hall ▸ List.mem_append_right _ (.head _)
      obtain ⟨hsuits, hav⟩ := hbest.tagged q hq htag
      have hleb : a.start q ≤ s.ttBest := by
        rw [← hav, ← hstartb, ← havb]
        rw [hall] at hb
        rcases List.mem_append.mp hb with hb | hb
        · exact (hbefore b hb htagb).le
        · rcases List.mem_cons.mp hb with rfl | hb
          · exact le_rfl
          · exact hafter b hb htagb
      rw [hfold, hav]
      exact optimal_of_earliest hres hhard hpasses hq hsuits fun x hx hx' =>
        hleb.trans (hmin x hx hx')

include hhard in
/-- The first of the earliest tagged queue instances replaces what was there before. -/
theorem foldl_betterQueue_found {pre : List SequentialQueue} {T : ℕ} (htag : (tags q.qname).tag ≠ 0)
    (hav : (tags q.qname).availableAt = T) (hmax : T < uint64Max)
    (hpre : ∀ x ∈ pre, (tags x.qname).tag ≠ 0 → T < (tags x.qname).availableAt) :
    (pre ++ [q]).foldl (betterQueue a tags) ⟨none, uint64Max, uint32Max⟩ =
      ⟨some q, T, (tags q.qname).softViolation⟩ := by
  rw [List.foldl_append, List.foldl_cons, List.foldl_nil, ← hav]
  refine if_pos ⟨htag, Or.inl ?_⟩
  rw [hav]
  rcases foldl_betterQueue_hard tags hhard pre ⟨none, uint64Max, uint32Max⟩ with
    ⟨hfold, -⟩ | ⟨before, x, after, rfl, hfold, htagx, -⟩
  · rw [hfold]
    exact hmax
  · rw [hfold]
    exact hpre x (List.mem_append_right _ (.head _)) htagx

include hres hhard in
theorem optimal_hard_of_left (hpasses : a.globalTime.passes = true)
    {pre post : List SequentialQueue} (hall : a.queues = pre ++ q :: post)
    (hends : EndsSearch a s₀ pre q) (htag : (tags q.qname).tag ≠ 0)
    (hav : (tags q.qname).availableAt = a.start q) (hpre : ∀ x ∈ pre, (tags x.qname).tag ≠ 0 →
      Suitable a s₀ x ∧ (tags x.qname).availableAt = a.start x)
    (hpost : ∀ x ∈ post, (tags x.qname).tag = (s₀.tags x.qname).tag ∧
      (tags x.qname).availableAt = (s₀.tags x.qname).availableAt) :
    Optimal a s₀ (.ok, chooseQueue a tags) ↔ FindsHard a s₀ := by
  have hq : q ∈ a.queues := hall ▸ List.mem_append_right _ (.head _)
  have hstart : a.start q = a.globalTime.time := by
    rw [start_eq]
    exact max_eq_right hends.queueStart_le
  have hmin (x : SequentialQueue) : a.start q ≤ a.start x := by
    rw [hstart, start_eq]
    exact le_max_right _ _
  by_cases hmax : a.start q < uint64Max
  · have hlater : ∀ x ∈ pre, (tags x.qname).tag ≠ 0 → a.start q < (tags x.qname).availableAt := by
      intro x hx htagx
      obtain ⟨hsuits, havx⟩ := hpre x hx htagx
      rw [havx, hstart, start_eq]
      exact lt_max_of_lt_left (hends.before x hx hsuits)
    have hfound := foldl_betterQueue_found hhard htag hav hmax hlater
    have hfolds : a.queues.foldl (betterQueue a tags) ⟨none, uint64Max, uint32Max⟩ =
        post.foldl (betterQueue a tags) ⟨some q, a.start q, (tags q.qname).softViolation⟩ := by
      rw [hall, List.append_cons, List.foldl_append, hfound]
    rw [chooseQueue_reservation hres, hfolds]
    rcases foldl_betterQueue_hard tags hhard post
        ⟨some q, a.start q, (tags q.qname).softViolation⟩ with
      ⟨hfold, hle⟩ | ⟨before, x, after, rfl, hfold, htagx, hlt, -⟩
    · rw [hfold]
      refine iff_of_true
        (optimal_of_earliest hres hhard hpasses hq hends.suits fun x _ _ => hmin x)
        ⟨⟨q, hq, hends.suits, hmax⟩, fun pre' q' post' hall' hends' x hx htagx => ?_⟩
      obtain ⟨rfl, rfl, rfl⟩ := hends.unique hends' (hall.symm.trans hall')
      obtain ⟨heqtag, heqav⟩ := hpost x hx
      rw [← hstart, ← heqav]
      exact hle x hx (heqtag ▸ htagx)
    · rw [hfold]
      have hx : x ∈ before ++ x :: after := List.mem_append_right _ (.head _)
      refine iff_of_false ?_ fun h => ?_
      · rintro ⟨q', start, heq, -, -, -, hbest⟩
        have hpair := Prod.mk.inj (Option.some.inj (congrArg Prod.snd heq))
        have hstartq' : (tags x.qname).availableAt = a.start q' := hpair.2.trans (hbest hres).1
        exact (hmin q').not_gt (hstartq' ▸ hlt)
      · have hle := h.tags pre q _ hall hends x hx ((hpost x hx).1 ▸ htagx)
        rw [← hstart, ← (hpost x hx).2] at hle
        exact hle.not_gt hlt
  · refine iff_of_false (fun h => ?_) fun h => ?_
    · obtain ⟨x, -, -, hlt⟩ := Optimal.start_lt hres hhard h
      exact hmax ((hmin x).trans_lt hlt)
    · obtain ⟨x, -, -, hlt⟩ := h.before_end
      exact hmax ((hmin x).trans_lt hlt)

end Hard

theorem optimal_hard (hpasses : a.globalTime.passes = true)
    (hsome : ∃ q ∈ a.queues, Suitable a s₀ q) (hres : a.isReservation = true)
    (hhard : a.isSoft = false) : Optimal a s₀ (sgeSequentialAssignment a s₀) ↔ FindsHard a s₀ := by
  have hrule : BestRule a s₀ (BestHard a s₀) := BestHard.rule hres hhard
  rcases hrule.loop with hend | ⟨pre, q, post, s, s', hall, hinv, haccepts, hfound, heq⟩
  · have hgot := hend.gotSolution hsome
    rw [optimal_choose hpasses (hend.searched.skip.result hgot)]
    exact optimal_hard_of_end hres hhard hpasses (hend.some hgot)
  · have hok : (visitQueueList a (.init s₀) a.queues).bestQueueResult = .ok := by
      rw [heq, untagBest_bestQueueResult]
      rfl
    have hnew := qname_notMem hall
    have hne := haccepts.bestQep_ne hnew fun _ => hinv.bestQep_mem hrule
    have hnone : s.bestQep = none := by
      cases hgot : s.gotSolution with
      | false => exact (hinv.none hgot).bestQep
      | true => exact (hinv.some hgot).bestQep
    have htag (name : String) (hname : name ≠ q.qname) :
        ((acceptTags a s' q).untagBest.tags name).tag = (s.tags name).tag := by
      rw [left_tag_of_ne haccepts hname, hnone]
      exact if_neg nofun
    have hav (name : String) (hname : name ≠ q.qname) :
        ((acceptTags a s' q).untagBest.tags name).availableAt = (s.tags name).availableAt := by
      rw [untagBest_availableAt, acceptTags_availableAt hres, if_neg hname,
        haccepts.same.availableAt, setTag_availableAt]
    have hends : EndsSearch a s₀ pre q := by
      rw [foundQueue_hard hres hhard] at hfound
      refine ⟨haccepts.suits, of_decide_eq_true hfound, fun x hx hsuits => ?_⟩
      · cases hgot : s.gotSolution with
        | false => exact absurd hsuits ((hinv.none hgot).unsuitable x hx)
        | true =>
          have hbest := hinv.some hgot
          exact hbest.global_lt.trans_le (hbest.earliest x hx hsuits)
    rw [optimal_choose hpasses hok, heq]
    refine optimal_hard_of_left hres hhard hpasses hall hends ?_ ?_ (fun x hx htagx => ?_)
      fun x hx => ?_
    · rw [left_tag hne]
      exact Nat.one_ne_zero
    · rw [untagBest_availableAt, acceptTags_availableAt hres, if_pos rfl]
    · have hname := ne_of_notMem hnew hx
      rw [htag _ hname] at htagx
      rw [hav _ hname]
      cases hgot : s.gotSolution with
      | false => exact absurd ((hinv.none hgot).tag x hx) htagx
      | true => exact (hinv.some hgot).tagged x hx htagx
    · have hnodup := a.qnames_nodup
      rw [hall, List.map_append, List.map_cons] at hnodup
      have hxname : x.qname ∈ post.map (·.qname) := List.mem_map_of_mem hx
      have hname : x.qname ≠ q.qname := fun heqname =>
        (List.nodup_cons.mp (List.nodup_append.mp hnodup).2.1).1 (heqname ▸ hxname)
      have hnotpre : x.qname ∉ pre.map (·.qname) := fun hmem =>
        (List.nodup_append.mp hnodup).2.2 _ hmem _ (.tail _ hxname) rfl
      rw [htag _ hname, hav _ hname]
      exact hinv.searched.untouched x.qname hnotpre

theorem optimal_soft (hpasses : a.globalTime.passes = true)
    (hsome : ∃ q ∈ a.queues, Suitable a s₀ q) (hres : a.isReservation = true)
    (hsoft : a.isSoft = true) : Optimal a s₀ (sgeSequentialAssignment a s₀) ↔ FindsSoft a s₀ := by
  have hrule : BestRule a s₀ (BestSoft a s₀) := BestSoft.rule hres hsoft
  rcases hrule.loop with hend | ⟨pre, q, post, s, s', hall, hinv, haccepts, hfound, heq⟩
  · have hgot := hend.gotSolution hsome
    obtain ⟨before, first, after, b, hall, hfirst, honly, hcompared, -, hle⟩ := hend.some hgot
    obtain ⟨start, hchoose, hstart⟩ := honly.choose hsoft
    rw [optimal_choose hpasses (hend.searched.skip.result hgot), hchoose, hstart hres]
    constructor
    · rintro ⟨b', start', heq, -, -, -, hbest⟩ before' first' after' hall' hfirst' q hq hsuits
        hstartq
      obtain ⟨rfl, -⟩ := Prod.mk.inj (Option.some.inj (congrArg Prod.snd heq))
      obtain ⟨-, rfl, -⟩ := hfirst.unique hfirst' (hall.symm.trans hall')
      have hviolations := ((hbest hres).2 q hq ⟨hpasses, hsuits⟩).2
        (hstartq.trans hcompared.start_eq.symm)
      exact ⟨b, honly.mem, hcompared, hviolations⟩
    · intro hfew
      refine ⟨b, a.start b, rfl, honly.mem, ⟨hpasses, honly.suits⟩, fun hnow => ?_, fun _ =>
        ⟨rfl, fun q hq hrun => ⟨?_, fun hstartq => ?_⟩⟩⟩
      · exact absurd (hnow.symm.trans hres) Bool.false_ne_true
      · rw [hcompared.start_eq]
        exact hfirst.start_le hall hq hrun.2
      · obtain ⟨q', hq', hother, hviolations⟩ := hfew before first after hall hfirst q hq hrun.2
          (hstartq.trans hcompared.start_eq)
        exact (hle q' hq' hother).trans hviolations
  · simp [foundQueue, hres, hsoft] at hfound

/-- When there is a suitable queue instance, the search finds the best one, except that a
reservation can miss it. -/
theorem optimal_iff (hsome : ∃ q ∈ a.queues, CanRun a s₀ q) :
    Optimal a s₀ (sgeSequentialAssignment a s₀) ↔
      (a.isReservation = true → a.isSoft = false → FindsHard a s₀) ∧
      (a.isReservation = true → a.isSoft = true → FindsSoft a s₀) := by
  obtain ⟨q, hq, hpasses, hsuits⟩ := hsome
  have hsome : ∃ q ∈ a.queues, Suitable a s₀ q := ⟨q, hq, hsuits⟩
  cases hres : a.isReservation with
  | false =>
    exact iff_of_true (optimal_now hpasses hsome hres) ⟨nofun, nofun⟩
  | true =>
    cases hsoft : a.isSoft with
    | false =>
      rw [optimal_hard hpasses hsome hres hsoft]
      exact ⟨fun h => ⟨fun _ _ => h, nofun⟩, fun h => h.1 rfl rfl⟩
    | true =>
      rw [optimal_soft hpasses hsome hres hsoft]
      exact ⟨fun h => ⟨nofun, fun _ _ => h⟩, fun h => h.2 rfl rfl⟩

/-- Two queue instances with the same start, where the host of the second one is as late as
the queue instance. -/
def twoQueues : SequentialAssignment where
  isReservation := true
  isSoft := true
  queues := [⟨"all.q@a", "all.q", "a"⟩, ⟨"all.q@b", "all.q", "b"⟩]
  globalTime := ⟨.ok, 0, 0⟩
  hostTime := fun _ => ⟨.ok, 100, 0⟩
  queueTime := fun qname => ⟨.ok, 100, if qname = "all.q@a" then 5 else 3⟩
  cqueueMatchStatic := fun _ => true
  hostKnown := fun _ => true
  ehRejected := fun _ => false
  hostMatchStatic := fun _ => .ok
  queueMatchStatic := fun _ => true
  qnames_nodup := by decide
  host_violations := fun _ => le_rfl
  queue_violations := fun _ _ => Nat.zero_le _
  violations_lt := fun qname => by split <;> decide
  violations_hard := nofun
  global_le := by decide
  host_le := fun _ => by decide
  queue_le := fun _ => show 100 ≤ uint64Max by decide
  hostMatch_ne := fun _ => nofun
  host_ne := fun _ => nofun
  queue_ne := fun _ => nofun

def noTags : SequentialStart := ⟨[], [], fun _ => ⟨0, 0, 0⟩⟩

theorem canRun_twoQueues (q : SequentialQueue) : CanRun twoQueues noTags q :=
  ⟨rfl, nofun, nofun, rfl, rfl, rfl, rfl, rfl, rfl, rfl⟩

theorem optimal_iff_twoQueues : (∃ q ∈ twoQueues.queues, CanRun twoQueues noTags q) ∧
    (Optimal twoQueues noTags (sgeSequentialAssignment twoQueues noTags) ↔
      (twoQueues.isReservation = true → twoQueues.isSoft = false → FindsHard twoQueues noTags) ∧
      (twoQueues.isReservation = true → twoQueues.isSoft = true →
        FindsSoft twoQueues noTags)) :=
  ⟨⟨_, .head _, canRun_twoQueues _⟩,
    optimal_iff ⟨_, .head _, canRun_twoQueues _⟩⟩

/-- The second queue instance has fewer soft violations, and is cut at its host. -/
theorem not_optimal_twoQueues :
    ¬ ∀ (a : SequentialAssignment) (s₀ : SequentialStart),
      (∃ q ∈ a.queues, CanRun a s₀ q) → Optimal a s₀ (sgeSequentialAssignment a s₀) := by
  intro h
  obtain ⟨q, start, heq, -, -, -, hbest⟩ :=
    h twoQueues noTags ⟨_, .head _, canRun_twoQueues _⟩
  have hrun : sgeSequentialAssignment twoQueues noTags =
      (.ok, some (⟨"all.q@a", "all.q", "a"⟩, 100)) := by decide +kernel
  obtain ⟨rfl, rfl⟩ := Prod.mk.inj (Option.some.inj (congrArg Prod.snd (hrun.symm.trans heq)))
  have hfew := ((hbest rfl).2 ⟨"all.q@b", "all.q", "b"⟩ (by decide) (canRun_twoQueues _)).2 rfl
  exact absurd hfew (by decide)

end Optimum

end ClusterScheduler.Sched
