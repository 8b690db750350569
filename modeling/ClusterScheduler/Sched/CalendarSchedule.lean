import ClusterScheduler.Consumables.Usage
import ClusterScheduler.Sgeobj.Calendars

/-!
# Calendars in the schedule

A queue instance that its calendar closes takes no job. The scheduler is told by the
diagram of the slots: over every closed period it is overwritten with all slots of the
queue instance.

* `setUtilization` — overwrite a diagram on one interval.
* `OverwritesInterval`, `Overwritable` — what a call should do, and the diagrams on
  which it does.
* `setUtilization_overwrites_iff` — it does so exactly on these.
-/

namespace ClusterScheduler.Sched

open Foundation Consumables Sgeobj.Calendar

/-! ## Functions of the source -/

def newResourceElem (time : ℕ) (amount : ℚ) : Rde where
  time := time
  amount := amount
  resourceMapList := []
  bindingInuse := none

/-- The search for the endpoint. Entries on the way are removed, `pastUti` is the
amount of the last of them. -/
def searchEndpoint (till : ℕ) (pastUti : ℚ) : List Rde → List Rde
  | [] => [newResourceElem till 0]
  | e :: rest =>
    if till < e.time then newResourceElem till pastUti :: e :: rest
    else if e.time = till then e :: rest
    else searchEndpoint till e.amount rest

/-- The search for the starting point. The search for the endpoint goes on with the
entry found: with the one behind a new entry, and with one that is modified itself. -/
def searchStart (from_ till : ℕ) (uti : ℚ) : List Rde → List Rde
  | [] => [newResourceElem from_ uti, newResourceElem till 0]
  | e :: rest =>
    if from_ < e.time then
      newResourceElem from_ uti :: searchEndpoint till e.amount (e :: rest)
    else if e.time = from_ then
      searchEndpoint till e.amount ({ e with amount := uti } :: rest)
    else e :: searchStart from_ till uti rest

/-- `DISPATCH_TIME_QUEUE_END` stands for a period that does not end. -/
def tillTime (till : ℕ) : ℕ := if till = 0 then uint64Max else till

def setUtilization (utiList : List Rde) (from_ till : ℕ) (uti : ℚ) : List Rde :=
  if 0 < uti then searchStart from_ (tillTime till) uti utiList else utiList

/-! ## What a call should do -/

/-- The times increase, and the last entry has no amount. -/
structure EndsIdle (d : List Rde) : Prop where
  increasing : Spaced 1 Rde.time d
  last : ∀ e, d.getLast? = some e → e.amount = 0

/-- The new diagram says `uti` from `from_` until `till` and what the old one says
everywhere else. -/
structure OverwritesInterval (d d' : List Rde) (from_ till : ℕ) (uti : ℚ) : Prop where
  increasing : Spaced 1 Rde.time d'
  inside : ∀ t, from_ ≤ t → t < till → amountAt (some d') t = uti
  outside : ∀ t, (t < from_ ∨ till ≤ t) → amountAt (some d') t = amountAt (some d) t

def amountBefore (from_ : ℕ) (d : List Rde) : ℚ :=
  amountAt (some (d.takeWhile fun e => decide (e.time < from_))) from_

/-- Where an entry begins at `from_`, it is overwritten already but for this entry, and
the entry has the amount as well if the next one begins behind `till`. Where none
does, the next entry begins until `till` or has the amount in force. -/
def Overwritable (d : List Rde) (from_ till : ℕ) (uti : ℚ) : Prop :=
  match d.dropWhile fun e => decide (e.time < from_) with
  | [] => True
  | e :: rest =>
    if e.time = from_ then
      amountBefore from_ d = uti ∧
        ∀ n, rest.head? = some n → till < n.time → e.amount = uti
    else till < e.time → e.amount = amountBefore from_ d

/-! ## The search for the endpoint -/

section Endpoint

variable {from_ till : ℕ} {uti : ℚ}

theorem searchEndpoint_begins : ∀ {d : List Rde} (pastUti : ℚ), Spaced 1 Rde.time d →
    ∃ x rest, searchEndpoint till pastUti d = x :: rest ∧ x.time = till ∧
      Spaced 1 Rde.time (x :: rest)
  | [], pastUti, _ => ⟨newResourceElem till 0, [], rfl, rfl, List.pairwise_singleton _ _⟩
  | e :: rest, pastUti, hd => by
      obtain ⟨he, hrest⟩ := List.pairwise_cons.mp hd
      rw [searchEndpoint]
      split_ifs with hlater htill
      · refine ⟨_, _, rfl, rfl, List.pairwise_cons.mpr ⟨fun y hy => ?_, hd⟩⟩
        rcases List.mem_cons.mp hy with rfl | hy
        · exact hlater
        · exact le_trans (Nat.succ_le_succ (le_of_lt hlater)) (he y hy)
      · exact ⟨e, rest, rfl, htill, hd⟩
      · exact searchEndpoint_begins e.amount hrest

theorem searchEndpoint_later {d : List Rde} {pastUti : ℚ} (hd : Spaced 1 Rde.time d) :
    ∀ y ∈ searchEndpoint till pastUti d, till ≤ y.time := by
  obtain ⟨x, rest, heq, hx, hspaced⟩ := searchEndpoint_begins pastUti hd
  intro y hy
  rw [heq] at hy
  rcases List.mem_cons.mp hy with rfl | hy
  · exact le_of_eq hx.symm
  · have := (List.pairwise_cons.mp hspaced).1 y hy
    omega

/-- Behind the interval the entries that are left say what all of them did, given the
amount of the last one removed. -/
theorem valueAt_searchEndpoint {t : ℕ} (ht : till ≤ t) :
    ∀ {d : List Rde} {b pastUti : ℚ}, Spaced 1 Rde.time d →
      (∀ e, d.getLast? = some e → e.amount = 0) → (d = [] → pastUti = 0) →
      valueAt Rde.time Rde.amount b (searchEndpoint till pastUti d) t =
        valueAt Rde.time Rde.amount pastUti d t
  | [], b, pastUti, _, _, hpast => by
      rw [searchEndpoint, valueAt_cons, valueAt_nil, valueAt_nil, hpast rfl]
      exact if_pos ht
  | e :: rest, b, pastUti, hd, hlast, _ => by
      obtain ⟨he, hrest⟩ := List.pairwise_cons.mp hd
      rw [searchEndpoint]
      split_ifs with hlater htill
      · rw [valueAt_cons]
        exact congrArg (valueAt Rde.time Rde.amount · (e :: rest) t) (if_pos ht)
      · rw [valueAt_cons, valueAt_cons, if_pos (htill ▸ ht), if_pos (htill ▸ ht)]
      · have hbegun : e.time ≤ t := by omega
        rw [valueAt_cons, if_pos hbegun]
        apply valueAt_searchEndpoint ht hrest
        · intro x hx
          apply hlast
          cases rest with
          | nil => cases hx
          | cons y ys => rwa [List.getLast?_cons_cons]
        · rintro rfl
          exact hlast e rfl

end Endpoint

/-! ## The search for the starting point -/

section Start

variable {from_ till : ℕ} {uti : ℚ}

variable {d : List Rde}

theorem searchStart_append {pre : List Rde} (hpre : ∀ e ∈ pre, e.time < from_) :
    searchStart from_ till uti (pre ++ d) = pre ++ searchStart from_ till uti d := by
  induction pre with
  | nil => rfl
  | cons e pre ih =>
    have he := hpre e (.head _)
    rw [List.cons_append, searchStart, if_neg (by omega), if_neg (by omega),
      ih fun x hx => hpre x (.tail _ hx)]
    rfl

/-- Where no entry begins at `from_`, one is added, and the search for the endpoint begins
with the amount of the next one. -/
theorem searchStart_of_later (hlater : ∀ e ∈ d, from_ < e.time) :
    searchStart from_ till uti d = newResourceElem from_ uti ::
        searchEndpoint till ((d.head?.map (·.amount)).getD 0) d := by
  cases d with
  | nil => rfl
  | cons e rest =>
    rw [searchStart, if_pos (hlater e List.mem_cons_self)]
    rfl

/-- An entry that begins at `from_` is modified and then removed. -/
theorem searchStart_of_hit {e : Rde} {rest : List Rde} (hlt : from_ < till) (he : e.time = from_) :
    searchStart from_ till uti (e :: rest) = searchEndpoint till uti rest := by
  rw [searchStart, if_neg (by omega), if_pos he, searchEndpoint]
  rw [if_neg (by dsimp only; omega), if_neg (by dsimp only; omega)]

theorem later_of_not_hit (hd : Spaced 1 Rde.time d) (hle : ∀ e ∈ d, from_ ≤ e.time)
    (hhit : ¬ ∃ e rest, d = e :: rest ∧ e.time = from_) : ∀ e ∈ d, from_ < e.time := by
  cases d with
  | nil => exact List.forall_mem_nil _
  | cons e rest =>
    have he : from_ < e.time := lt_of_le_of_ne (hle e (.head _)) fun h => hhit ⟨e, rest, rfl, h.symm⟩
    intro y hy
    rcases List.mem_cons.mp hy with rfl | hy
    · exact he
    · have := (List.pairwise_cons.mp hd).1 y hy
      omega

theorem mem_searchStart_later (hd : Spaced 1 Rde.time d)
    (hlater : ∀ e ∈ d, from_ ≤ e.time) (hlt : from_ < till) :
    Spaced 1 Rde.time (searchStart from_ till uti d) ∧
      ∀ y ∈ searchStart from_ till uti d, from_ ≤ y.time := by
  have hend : ∀ {l : List Rde} {b : ℚ}, Spaced 1 Rde.time l →
      Spaced 1 Rde.time (searchEndpoint till b l) := by
    intro l b hl
    obtain ⟨x, rest, heq, -, hspaced⟩ := searchEndpoint_begins b hl
    rw [heq]
    exact hspaced
  by_cases hhit : ∃ e rest, d = e :: rest ∧ e.time = from_
  · obtain ⟨e, rest, rfl, he⟩ := hhit
    have hrest := (List.pairwise_cons.mp hd).2
    rw [searchStart_of_hit hlt he]
    refine ⟨hend hrest, fun y hy => ?_⟩
    exact le_trans (le_of_lt hlt) (searchEndpoint_later hrest y hy)
  · rw [searchStart_of_later (later_of_not_hit hd hlater hhit)]
    have htail : ∀ b, ∀ y ∈ searchEndpoint till b d, till ≤ y.time :=
      fun b => searchEndpoint_later hd
    refine ⟨List.pairwise_cons.mpr ⟨fun y hy => ?_, hend hd⟩, fun y hy => ?_⟩
    · exact le_trans (Nat.succ_le_of_lt hlt) (htail _ y hy)
    · rcases List.mem_cons.mp hy with rfl | hy
      · exact le_refl from_
      · exact le_trans (le_of_lt hlt) (htail _ y hy)

end Start

/-! ## The exact condition -/

section Overwrite

variable {from_ till : ℕ} {uti : ℚ}

variable {rest : List Rde}

/-- Two defaults are told apart behind `till` only before the first entry. -/
theorem forall_valueAt_eq_iff {n : Rde} (hd : Spaced 1 Rde.time (n :: rest)) (till : ℕ) (b c : ℚ) :
    (∀ t, till ≤ t → valueAt Rde.time Rde.amount b (n :: rest) t =
      valueAt Rde.time Rde.amount c (n :: rest) t) ↔ (till < n.time → b = c) := by
  constructor
  · intro h hlater
    have hall : ∀ y ∈ n :: rest, till < y.time := by
      intro y hy
      rcases List.mem_cons.mp hy with rfl | hy
      · exact hlater
      · have := (List.pairwise_cons.mp hd).1 y hy
        omega
    have htill := h till (le_refl till)
    rwa [valueAt_of_later hall, valueAt_of_later hall] at htill
  · intro h t ht
    by_cases hlater : till < n.time
    · rw [h hlater]
    · rw [valueAt_cons, valueAt_cons, if_pos (by omega), if_pos (by omega)]

/-- In a diagram `new` the interval is overwritten, `b` being the amount in force before
the entries of `d` and `new`. -/
def Overwritten (b : ℚ) (d new : List Rde) (from_ till : ℕ) (uti : ℚ) : Prop :=
  (∀ t, from_ ≤ t → t < till → valueAt Rde.time Rde.amount b new t = uti) ∧
    ∀ t, till ≤ t →
      valueAt Rde.time Rde.amount b new t = valueAt Rde.time Rde.amount b d t

variable {b : ℚ}

/-- The entry at `from_` is removed, and with it what the call has written. -/
theorem overwritten_of_hit {e : Rde} (hd : Spaced 1 Rde.time (e :: rest))
    (hlast : ∀ x, (e :: rest).getLast? = some x → x.amount = 0) (hhit : e.time = from_)
    (hlt : from_ < till) :
    Overwritten b (e :: rest) (searchEndpoint till uti rest) from_ till uti ↔
      b = uti ∧ ∀ n, rest.head? = some n → till < n.time → e.amount = uti := by
  obtain ⟨he, hrest⟩ := List.pairwise_cons.mp hd
  have hinside : (∀ t, from_ ≤ t → t < till →
      valueAt Rde.time Rde.amount b (searchEndpoint till uti rest) t = uti) ↔ b = uti := by
    have hb : ∀ t, t < till →
        valueAt Rde.time Rde.amount b (searchEndpoint till uti rest) t = b :=
      fun t ht => valueAt_of_later fun y hy =>
        lt_of_lt_of_le ht (searchEndpoint_later hrest y hy)
    constructor
    · exact fun h => (hb from_ hlt).symm.trans (h from_ (le_refl _) hlt)
    · exact fun h t _ ht => (hb t ht).trans h
  unfold Overwritten
  rw [hinside]
  apply and_congr_right
  rintro rfl
  have hold : ∀ t, till ≤ t → valueAt Rde.time Rde.amount b (e :: rest) t =
      valueAt Rde.time Rde.amount e.amount rest t := by
    intro t ht
    rw [valueAt_cons, if_pos (by omega)]
  cases rest with
  | nil =>
    refine iff_of_true (fun t ht => ?_) nofun
    rw [hold t ht, valueAt_nil, hlast e rfl]
    exact if_pos ht
  | cons n rest =>
    have hlast' : ∀ x, (n :: rest).getLast? = some x → x.amount = 0 := by
      intro x hx
      exact hlast x (by rwa [List.getLast?_cons_cons])
    have hnew : ∀ t, till ≤ t →
        valueAt Rde.time Rde.amount b (searchEndpoint till b (n :: rest)) t =
          valueAt Rde.time Rde.amount b (n :: rest) t :=
      fun t ht => valueAt_searchEndpoint ht hrest hlast' nofun
    have hiff := forall_valueAt_eq_iff hrest till b e.amount
    constructor
    · rintro h x ⟨rfl⟩ hx
      refine (hiff.mp (fun t ht => ?_) hx).symm
      rw [← hnew t ht, h t ht, hold t ht]
    · intro h t ht
      rw [hnew t ht, hold t ht]
      exact hiff.mpr (fun hx => (h n rfl hx).symm) t ht

variable {d : List Rde}

/-- Behind a new entry at `from_`, the amount of the next one is taken for the one in
force. -/
theorem overwritten_of_gap (hd : Spaced 1 Rde.time d)
    (hlast : ∀ e, d.getLast? = some e → e.amount = 0) (hempty : d = [] → b = 0)
    (hlater : ∀ e ∈ d, from_ < e.time) :
    Overwritten b d (newResourceElem from_ uti ::
        searchEndpoint till ((d.head?.map (·.amount)).getD 0) d) from_ till uti ↔
      ∀ n, d.head? = some n → till < n.time → n.amount = b := by
  have hinside : ∀ past t, from_ ≤ t → t < till →
      valueAt Rde.time Rde.amount b
        (newResourceElem from_ uti :: searchEndpoint till past d) t = uti := by
    intro past t hfrom ht
    rw [valueAt_cons, valueAt_of_later fun y hy =>
      lt_of_lt_of_le ht (searchEndpoint_later hd y hy)]
    exact if_pos hfrom
  have hbehind : ∀ past, (d = [] → past = 0) → ∀ t, till ≤ t →
      valueAt Rde.time Rde.amount b
        (newResourceElem from_ uti :: searchEndpoint till past d) t =
        valueAt Rde.time Rde.amount past d t := by
    intro past hpast t ht
    rw [valueAt_cons]
    exact valueAt_searchEndpoint ht hd hlast hpast
  cases d with
  | nil =>
    refine iff_of_true ⟨hinside _, fun t ht => ?_⟩ nofun
    obtain rfl : b = 0 := hempty rfl
    exact hbehind 0 (fun _ => rfl) t ht
  | cons n rest =>
    have hiff := forall_valueAt_eq_iff hd till n.amount b
    constructor
    · rintro h x ⟨rfl⟩ hx
      refine hiff.mp (fun t ht => ?_) hx
      rw [← h.2 t ht]
      exact (hbehind _ nofun t ht).symm
    · intro h
      refine ⟨hinside _, fun t ht => (hbehind _ nofun t ht).trans ?_⟩
      exact hiff.mpr (h n rfl) t ht

/-- Before `from_` the entries that begin earlier count, behind it they are a default. -/
theorem amountAt_split {new : List Rde} (hnew : ∀ y ∈ new, from_ ≤ y.time) :
    let pre := d.takeWhile fun e => decide (e.time < from_)
    (∀ t, t < from_ → amountAt (some (pre ++ new)) t = amountAt (some pre) t) ∧
      ∀ t, from_ ≤ t → amountAt (some (pre ++ new)) t =
        valueAt Rde.time Rde.amount (amountBefore from_ d) new t := by
  intro pre
  have hpre : ∀ e ∈ pre, e.time < from_ := fun e he => by
    simpa using List.mem_takeWhile_imp he
  refine ⟨fun t ht => ?_, fun t ht => ?_⟩
  · rw [amountAt, Option.getD_some, valueAt_append]
    exact valueAt_of_later fun y hy => lt_of_lt_of_le ht (hnew y hy)
  · rw [amountAt, Option.getD_some, valueAt_append]
    congr 1
    refine valueAt_congr fun e he => ?_
    have := hpre e he
    omega

/-- What is left of a diagram without the entries before `from_`. -/
structure LeftFrom (d post : List Rde) (from_ : ℕ) (b : ℚ) : Prop where
  split : d = (d.takeWhile fun e => decide (e.time < from_)) ++ post
  increasing : Spaced 1 Rde.time post
  begun : ∀ e ∈ post, from_ ≤ e.time
  last : ∀ e, post.getLast? = some e → e.amount = 0
  empty : post = [] → b = 0

theorem EndsIdle.leftFrom (hd : EndsIdle d) (from_ : ℕ) :
    LeftFrom d (d.dropWhile fun e => decide (e.time < from_)) from_ (amountBefore from_ d) := by
  have hsplit : d = (d.takeWhile fun e => decide (e.time < from_)) ++
      d.dropWhile fun e => decide (e.time < from_) := List.takeWhile_append_dropWhile.symm
  have hspaced : Spaced 1 Rde.time (d.dropWhile fun e => decide (e.time < from_)) :=
    hd.increasing.sublist (List.dropWhile_sublist _)
  refine ⟨hsplit, hspaced, fun e he => ?_, fun e he => ?_, fun hnil => ?_⟩
  · cases hp : d.dropWhile fun e => decide (e.time < from_) with
    | nil => exact absurd (hp ▸ he) List.not_mem_nil
    | cons x rest =>
      have hx : from_ ≤ x.time := by
        have := List.head?_dropWhile_not (fun e : Rde => decide (e.time < from_)) d
        rw [hp] at this
        simpa using this
      rw [hp] at he hspaced
      rcases List.mem_cons.mp he with rfl | he
      · exact hx
      · have := (List.pairwise_cons.mp hspaced).1 e he
        omega
  · apply hd.last
    rw [hsplit, List.getLast?_append, he]
    rfl
  · have hall : d.takeWhile (fun e => decide (e.time < from_)) = d := by
      conv_rhs => rw [hsplit, hnil, List.append_nil]
    have hbefore : ∀ x ∈ d, x.time ≤ from_ := by
      intro x hx
      rw [← hall] at hx
      exact le_of_lt (by simpa using List.mem_takeWhile_imp hx)
    rw [amountBefore, hall, amountAt, Option.getD_some]
    cases he : d.getLast? with
    | none =>
      rw [List.getLast?_eq_none_iff.mp he]
      rfl
    | some e => rw [valueAt_getLast hbefore he, hd.last e he]

/-- Late enough, a diagram that ends idle says nothing. -/
theorem EndsIdle.eventually_zero (hd : EndsIdle d) {t : ℕ}
    (ht : ∀ e ∈ d, e.time ≤ t) : amountAt (some d) t = 0 := by
  rw [amountAt, Option.getD_some]
  cases he : d.getLast? with
  | none =>
    rw [List.getLast?_eq_none_iff.mp he]
    rfl
  | some e => rw [valueAt_getLast ht he, hd.last e he]

theorem overwritesInterval_iff {post : List Rde} (hd : EndsIdle d)
    (hpost : LeftFrom d post from_ (amountBefore from_ d)) (hlt : from_ < till) :
    OverwritesInterval d (searchStart from_ till uti d) from_ till uti ↔
      Overwritten (amountBefore from_ d) post (searchStart from_ till uti post) from_ till uti := by
  have hpre : ∀ e ∈ d.takeWhile fun e => decide (e.time < from_), e.time < from_ :=
    fun e he => by simpa using List.mem_takeWhile_imp he
  obtain ⟨hnewSpaced, hnewGe⟩ :=
    mem_searchStart_later hpost.increasing hpost.begun hlt
  obtain ⟨hnewEarly, hnewLate⟩ := amountAt_split (d := d) hnewGe
  obtain ⟨holdEarly, holdLate⟩ := amountAt_split (d := d) hpost.begun
  have hresult : searchStart from_ till uti d =
      (d.takeWhile fun e => decide (e.time < from_)) ++ searchStart from_ till uti post := by
    rw [← searchStart_append hpre, ← hpost.split]
  rw [← hresult] at hnewEarly hnewLate
  rw [← hpost.split] at holdEarly holdLate
  constructor
  · rintro ⟨-, hinside, houtside⟩
    refine ⟨fun t hfrom ht => ?_, fun t ht => ?_⟩
    · rw [← hnewLate t hfrom]
      exact hinside t hfrom ht
    · rw [← hnewLate t (by omega), ← holdLate t (by omega)]
      exact houtside t (Or.inr ht)
  · rintro ⟨hinside, hbehind⟩
    refine ⟨?_, fun t hfrom ht => ?_, fun t ht => ?_⟩
    · rw [hresult]
      refine List.pairwise_append.mpr
        ⟨hd.increasing.sublist (List.takeWhile_sublist _), hnewSpaced, fun x hx y hy => ?_⟩
      have hxlt := hpre x hx
      have hyge := hnewGe y hy
      omega
    · rw [hnewLate t hfrom]
      exact hinside t hfrom ht
    · by_cases hearly : t < from_
      · rw [hnewEarly t hearly, holdEarly t hearly]
      · rw [hnewLate t (by omega), holdLate t (by omega)]
        exact hbehind t (by omega)

theorem searchStart_overwrites_iff (hd : EndsIdle d) (hlt : from_ < till) :
    OverwritesInterval d (searchStart from_ till uti d) from_ till uti ↔
      Overwritable d from_ till uti := by
  have hpost := hd.leftFrom from_
  rw [overwritesInterval_iff hd hpost hlt, Overwritable]
  generalize d.dropWhile (fun e => decide (e.time < from_)) = post at hpost ⊢
  by_cases hhit : ∃ e rest, post = e :: rest ∧ e.time = from_
  · obtain ⟨e, rest, rfl, hhit⟩ := hhit
    simp only [if_pos hhit]
    rw [searchStart_of_hit hlt hhit]
    exact overwritten_of_hit hpost.increasing hpost.last hhit hlt
  · have hlater := later_of_not_hit hpost.increasing hpost.begun hhit
    rw [searchStart_of_later hlater,
      overwritten_of_gap hpost.increasing hpost.last hpost.empty hlater]
    cases post with
    | nil => exact iff_of_true nofun trivial
    | cons e rest => simp [show e.time ≠ from_ from fun h => hhit ⟨e, rest, rfl, h⟩]

/-- **A call overwrites the interval exactly on the overwritable diagrams.** -/
theorem setUtilization_overwrites_iff (utiList : List Rde) (hd : EndsIdle utiList)
    (from_ till : ℕ) (uti : ℚ) (hlt : from_ < tillTime till) (huti : 0 < uti) :
    OverwritesInterval utiList (setUtilization utiList from_ till uti) from_ (tillTime till)
      uti ↔ Overwritable utiList from_ (tillTime till) uti := by
  rw [setUtilization, if_pos huti]
  exact searchStart_overwrites_iff hd hlt

def bookedSlots : List Rde := [newResourceElem 100 3, newResourceElem 200 0]

theorem bookedSlots_endsIdle : EndsIdle bookedSlots where
  increasing := by simp [Spaced, bookedSlots, newResourceElem]
  last := by
    rintro e ⟨rfl⟩
    rfl

/-- A queue instance that is closed for ever from 150 on. -/
theorem setUtilization_overwrites_iff_closed :
    OverwritesInterval bookedSlots (setUtilization bookedSlots 150 0 10) 150 uint64Max 10 :=
  (setUtilization_overwrites_iff bookedSlots bookedSlots_endsIdle 150 0 10 (by decide)
    (by decide)).mpr
      (by simp [Overwritable, bookedSlots, newResourceElem, tillTime, uint64Max])

/-- Closed on `[120, 150)`, three booked slots are free from 150 on. -/
theorem setUtilization_loses_bookings :
    EndsIdle bookedSlots ∧ 120 < tillTime 150 ∧
      ¬ OverwritesInterval bookedSlots (setUtilization bookedSlots 120 150 10) 120 (tillTime 150)
        10 := by
  refine ⟨bookedSlots_endsIdle, by decide, fun h => ?_⟩
  have houtside := h.outside 160 (Or.inr (by decide))
  revert houtside
  decide

/-- Closed from 100 on, where an entry begins, the queue instance seems to be free. -/
example : amountAt (some (setUtilization bookedSlots 100 150 10)) 120 = 0 := by decide

end Overwrite

end ClusterScheduler.Sched
