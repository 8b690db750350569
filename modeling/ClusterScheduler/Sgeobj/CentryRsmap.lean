import Mathlib

/-!
# Instances of a resource map

A resource map holds instances, each with an identifier, an amount and
characteristics. The scheduler counts what a request could get
(`centryRsmapFree`, `centryRsmapBestFreeGroup`) and later takes it
(`centryRsmapSelectInstances`, `centryRsmapSelectGroupInstances`).

* `ResourceMap` — instances with distinct identifiers.
* `Serves` — a choice of instances a request may be granted.
* `rsmap_count_select` — counting and taking agree.
-/

namespace ClusterScheduler.Sgeobj

/-! ## Data -/

inductive CEntryType where
  | none | int | str | time | mem | bool | cstr | host | double | restr | rsmap
  | typeAcc | typeLog
  deriving DecidableEq

inductive Relop where
  | eq | ge | gt | lt | le | ne | excl
  deriving DecidableEq

/-- A characteristic of an instance, or a requirement on one. -/
structure CEntry where
  name : String
  valtype : CEntryType
  relop : Relop
  stringval : Option String
  doubleval : ℚ

/-- An entry of a list of instances: of a map, of what is taken, or of what was
selected. An absent list is an empty one. -/
structure Instance where
  value : String
  amount : ℕ
  properties : List CEntry

/-- The comparisons of expressions and of host names. They return zero for a
match. -/
structure Comparisons where
  evalExpression : CEntryType → String → String → ℤ
  hostcmp : String → String → ℤ

/-- What a request asks of every instance. -/
structure Request where
  idExpr : Option String
  requiredProps : List CEntry

def rsmapRequestParamId : String := "id"

def strcasecmp (a b : String) : ℤ := if a.toLower = b.toLower then 0 else 1

/-! ## Matching an instance -/

def centryRsmapInstanceKey (definedEp : Instance) (keyName : Option String) :
    Option String :=
  match keyName with
  | none => some definedEp.value
  | some name =>
    if name = rsmapRequestParamId then some definedEp.value
    else (definedEp.properties.find? (·.name = name)).bind (·.stringval)

/-- The configured amount less what is taken of it. -/
def centryRsmapInstanceFree (definedEp : Instance) (taken : List Instance) : ℕ :=
  match taken.find? (·.value = definedEp.value) with
  | none => definedEp.amount
  | some used =>
    if definedEp.amount ≤ used.amount then 0 else definedEp.amount - used.amount

/-- The result of comparing a requested value with an offered one; nothing if a
string is missing. -/
def compareValues (cmp : Comparisons) (type : CEntryType) (request offer : CEntry) :
    Option ℤ :=
  match type with
  | .str | .cstr | .host | .restr =>
    match request.stringval, offer.stringval with
    | some req, some off =>
      some (match type with
        | .restr => cmp.evalExpression .restr req off
        | .cstr => if strcasecmp req off = 0 then 0 else 1
        | .host => if cmp.hostcmp req off = 0 then 0 else 1
        | _ => if req = off then 0 else 1)
    | _, _ => none
  | _ =>
    some (if request.doubleval < offer.doubleval then -1
      else if offer.doubleval < request.doubleval then 1 else 0)

def centryRsmapValueMatches (cmp : Comparisons) (type : CEntryType) (relop : Relop)
    (request offer : CEntry) : Bool :=
  match compareValues cmp type request offer with
  | none => false
  | some c =>
    match relop with
    | .eq => c = 0
    | .ne => c ≠ 0
    | .le => c ≤ 0
    | .lt => c < 0
    | .ge => 0 ≤ c
    | .gt => 0 < c
    | .excl => false

def centryRsmapInstanceMatchesProperties (cmp : Comparisons) (definedEp : Instance)
    (required : List CEntry) : Bool :=
  required.all fun reqEp =>
    match definedEp.properties.find? (·.name = reqEp.name) with
    | none => false
    | some offer => centryRsmapValueMatches cmp reqEp.valtype reqEp.relop reqEp offer

def centryRsmapInstanceMatchesId (cmp : Comparisons) (definedEp : Instance)
    (idExpr : Option String) : Bool :=
  match idExpr with
  | none => true
  | some expr => cmp.evalExpression .cstr expr definedEp.value = 0

def isUsable (cmp : Comparisons) (req : Request) (definedEp : Instance) : Bool :=
  centryRsmapInstanceMatchesId cmp definedEp req.idExpr &&
    centryRsmapInstanceMatchesProperties cmp definedEp req.requiredProps

/-! ## Counting -/

def addFree (free : Instance → ℕ) (acc : ℕ) (e : Instance) : ℕ := (acc + free e) % 2 ^ 32

def centryRsmapFree (cmp : Comparisons) (definition : Option (List Instance))
    (taken : List Instance) (req : Request) : ℕ :=
  match definition with
  | none => 0
  | some map =>
    (map.filter (isUsable cmp req)).foldl
      (addFree (centryRsmapInstanceFree · taken)) 0

def addKey (keys : List String) : Option String → List String
  | none => keys
  | some key => if key ∈ keys then keys else keys ++ [key]

def centryRsmapGroupKeys (definition : Option (List Instance)) (keyName : Option String) :
    List String :=
  (definition.getD []).foldl (fun keys e => addKey keys (centryRsmapInstanceKey e keyName)) []

/-- The first of the pairs with the greatest amount. -/
def keepBest (best : Option (String × ℕ)) (c : String × ℕ) : Option (String × ℕ) :=
  match best with
  | none => some c
  | some b => if b.2 < c.2 then some c else some b

def report (best : Option (String × ℕ)) : Option String × ℕ :=
  (best.map (·.1), (best.map (·.2)).getD 0)

def centryRsmapBestFreeId (cmp : Comparisons) (definition : Option (List Instance))
    (taken : List Instance) (req : Request) : Option String × ℕ :=
  match definition with
  | none => (none, 0)
  | some map =>
    report <| (map.filter (isUsable cmp req)).foldl
      (fun best e => keepBest best (e.value, centryRsmapInstanceFree e taken)) none

def addToGroup (key : String) (free : ℕ) : List (String × ℕ) → List (String × ℕ)
  | [] => [(key, free)]
  | g :: groups =>
    if g.1 = key then (g.1, (g.2 + free) % 2 ^ 32) :: groups
    else g :: addToGroup key free groups

/-- The usable instances summed up by key. -/
def sumGroups (free : Instance → ℕ) (keyName : Option String) (groups : List (String × ℕ))
    (e : Instance) : List (String × ℕ) :=
  match centryRsmapInstanceKey e keyName with
  | none => groups
  | some key => addToGroup key (free e) groups

def centryRsmapBestFreeGroup (cmp : Comparisons) (definition : Option (List Instance))
    (taken : List Instance) (keyName : Option String) (req : Request) :
    Option String × ℕ :=
  match definition with
  | none => (none, 0)
  | some map =>
    if keyName = none ∨ keyName = some rsmapRequestParamId then
      centryRsmapBestFreeId cmp definition taken req
    else
      report <| ((map.filter (isUsable cmp req)).foldl
        (sumGroups (centryRsmapInstanceFree · taken) keyName) []).foldl keepBest none

/-! ## Taking -/

/-- Free instances less those the job already holds. -/
def freeBesides (taken already : List Instance) (e : Instance) : ℕ :=
  let free := centryRsmapInstanceFree e taken
  match already.find? (·.value = e.value) with
  | none => free
  | some mine => if free ≤ mine.amount then 0 else free - mine.amount

/-- Fill one instance before the next; what could not be taken remains. -/
def takeLoop (isWanted : Instance → Bool) (free : Instance → ℕ) :
    List Instance → ℕ → List Instance × ℕ
  | [], remaining => ([], remaining)
  | e :: rest, remaining =>
    if remaining = 0 then ([], 0)
    else if isWanted e = false ∨ free e = 0 then takeLoop isWanted free rest remaining
    else
      let take := min remaining (free e)
      let others := takeLoop isWanted free rest (remaining - take)
      (⟨e.value, take, []⟩ :: others.1, others.2)

def inGroup (keyName key : Option String) (e : Instance) : Bool :=
  match key with
  | none => true
  | some k => centryRsmapInstanceKey e keyName = some k

/-- What the usable instances of one group have free between them. -/
def centryRsmapGroupFree (cmp : Comparisons) (definition : Option (List Instance))
    (taken : List Instance) (keyName key : Option String) (req : Request) : ℕ :=
  match definition, key with
  | some map, some key =>
    ((map.filter (isUsable cmp req)).filter (inGroup keyName (some key))).foldl
      (addFree (centryRsmapInstanceFree · taken)) 0
  | _, _ => 0

/-- Success, and what `selected` is afterwards. -/
def centryRsmapTakeInstances (cmp : Comparisons) (map taken already : List Instance)
    (keyName key : Option String) (amount : ℕ) (selected : List Instance)
    (req : Request) : Bool × List Instance :=
  let (chosen, remaining) := takeLoop
    (fun e => inGroup keyName key e && isUsable cmp req e) (freeBesides taken already)
    map amount
  if 0 < remaining then (false, selected) else (true, chosen)

def centryRsmapSelectInstances (cmp : Comparisons) (definition : Option (List Instance))
    (taken already : List Instance) (amount : ℕ) (selected : List Instance)
    (req : Request) : Bool × List Instance :=
  match definition with
  | none => (false, selected)
  | some map =>
    if amount = 0 then (false, selected)
    else centryRsmapTakeInstances cmp map taken already none none amount selected req

/-- The group to take from: the one of what the job already holds, the one it is
bound to, or the one with the most free instances. -/
def chooseKey (cmp : Comparisons) (map taken already : List Instance)
    (keyName : Option String) (req : Request) (requiredKey : Option String) :
    Option String :=
  match already with
  | held :: _ =>
    (map.find? (·.value = held.value)).bind (centryRsmapInstanceKey · keyName)
  | [] =>
    match requiredKey with
    | some key => some key
    | none => (centryRsmapBestFreeGroup cmp (some map) taken keyName req).1

def centryRsmapSelectGroupInstances (cmp : Comparisons)
    (definition : Option (List Instance)) (taken already : List Instance)
    (keyName : Option String) (amount : ℕ) (selected : List Instance) (req : Request)
    (requiredKey : Option String) : Bool × List Instance :=
  match definition with
  | none => (false, selected)
  | some map =>
    if amount = 0 then (false, selected)
    else
      match chooseKey cmp map taken already keyName req requiredKey with
      | none => (false, selected)
      | some key =>
        centryRsmapTakeInstances cmp map taken already keyName (some key) amount
          selected req

/-! ## What taking does -/

def freeSum (isWanted : Instance → Bool) (free : Instance → ℕ) (l : List Instance) : ℕ :=
  ((l.filter isWanted).map free).sum

section

variable (isWanted : Instance → Bool) (free : Instance → ℕ)

theorem freeSum_cons (e : Instance) (l : List Instance) :
    freeSum isWanted free (e :: l) =
      (if isWanted e then free e else 0) + freeSum isWanted free l := by
  by_cases h : isWanted e = true <;> simp [freeSum, h]

theorem takeLoop_remaining :
    ∀ (l : List Instance) (amount : ℕ),
      (takeLoop isWanted free l amount).2 = amount - freeSum isWanted free l
  | [], amount => by simp [takeLoop, freeSum]
  | e :: l, amount => by
      rw [takeLoop, freeSum_cons]
      by_cases hzero : amount = 0
      · rw [if_pos hzero, hzero, Nat.zero_sub]
      rw [if_neg hzero]
      by_cases hskip : isWanted e = false ∨ free e = 0
      · rw [if_pos hskip, takeLoop_remaining l]
        rcases hskip with hskip | hskip <;> simp [hskip]
      · obtain ⟨hwanted, -⟩ := not_or.mp hskip
        rw [if_neg hskip, if_pos (by simpa using hwanted)]
        show (takeLoop isWanted free l _).2 = _
        rw [takeLoop_remaining l]
        omega

theorem takeLoop_total :
    ∀ (l : List Instance) (amount : ℕ),
      ((takeLoop isWanted free l amount).1.map (·.amount)).sum +
        (takeLoop isWanted free l amount).2 = amount
  | [], amount => by simp [takeLoop]
  | e :: l, amount => by
      rw [takeLoop]
      split_ifs with hzero hskip
      · simp [hzero]
      · exact takeLoop_total l amount
      · have := takeLoop_total l (amount - min amount (free e))
        simp only [List.map_cons, List.sum_cons]
        omega

theorem takeLoop_chosen :
    ∀ (l : List Instance) (amount : ℕ), ∀ c ∈ (takeLoop isWanted free l amount).1,
      ∃ e ∈ l, e.value = c.value ∧ isWanted e = true ∧ 0 < c.amount ∧ c.amount ≤ free e
  | [], amount => by simp [takeLoop]
  | e :: l, amount => by
      intro c hc
      rw [takeLoop] at hc
      split_ifs at hc with hzero hskip
      · simp at hc
      · obtain ⟨e', he', h⟩ := takeLoop_chosen l amount c hc
        exact ⟨e', .tail _ he', h⟩
      · obtain ⟨hwanted, hfree⟩ := not_or.mp hskip
        rcases List.mem_cons.mp hc with rfl | hc
        · refine ⟨e, .head _, rfl, by simpa using hwanted, ?_, ?_⟩
          · show 0 < min amount (free e)
            omega
          · exact Nat.min_le_right amount (free e)
        · obtain ⟨e', he', h⟩ := takeLoop_chosen l _ c hc
          exact ⟨e', .tail _ he', h⟩

theorem takeLoop_sublist :
    ∀ (l : List Instance) (amount : ℕ),
      ((takeLoop isWanted free l amount).1.map (·.value)).Sublist (l.map (·.value))
  | [], amount => by simp [takeLoop]
  | e :: l, amount => by
      rw [takeLoop]
      split_ifs with hzero hskip
      · simp
      · exact (takeLoop_sublist l amount).cons _
      · exact (takeLoop_sublist l _).cons_cons _

end

/-! ## What counting does -/

theorem foldl_addFree (free : Instance → ℕ) :
    ∀ (l : List Instance) (acc : ℕ), acc + (l.map free).sum < 2 ^ 32 →
      l.foldl (addFree free) acc = acc + (l.map free).sum
  | [], acc, _ => by simp
  | e :: l, acc, h => by
      rw [List.map_cons, List.sum_cons] at h ⊢
      have hadd : addFree free acc e = acc + free e := Nat.mod_eq_of_lt (by omega)
      rw [List.foldl_cons, hadd, foldl_addFree free l _ (by omega), Nat.add_assoc]

variable {key : String}

theorem mem_addKey {keys : List String} {new : Option String} :
    key ∈ addKey keys new ↔ key ∈ keys ∨ new = some key := by
  cases new with
  | none => simp [addKey]
  | some k =>
    rw [addKey]
    split_ifs with h
    · exact ⟨Or.inl, fun hor => hor.elim id fun heq => Option.some.inj heq ▸ h⟩
    · rw [List.mem_append, List.mem_singleton, Option.some.injEq, eq_comm (a := key)]

variable {keyName : Option String}

theorem mem_centryRsmapGroupKeys {map : List Instance} :
    key ∈ centryRsmapGroupKeys (some map) keyName ↔
      ∃ e ∈ map, centryRsmapInstanceKey e keyName = some key := by
  have hfold : ∀ (l : List Instance) (keys : List String),
      key ∈ l.foldl (fun keys e => addKey keys (centryRsmapInstanceKey e keyName)) keys ↔
        key ∈ keys ∨ ∃ e ∈ l, centryRsmapInstanceKey e keyName = some key := by
    intro l
    induction l with
    | nil => simp
    | cons e l ih => simp [ih, mem_addKey, or_assoc]
  rw [centryRsmapGroupKeys, Option.getD_some, hfold]
  simp

/-- The best pair is one of the pairs, if there are any. -/
theorem foldl_keepBest_mem :
    ∀ (l : List (String × ℕ)) (best : Option (String × ℕ)) {c : String × ℕ},
      l.foldl keepBest best = some c → c ∈ l ∨ best = some c
  | [], best, c, h => Or.inr h
  | x :: l, best, c, h => by
      rcases foldl_keepBest_mem l _ h with hmem | heq
      · exact Or.inl (.tail _ hmem)
      · cases best with
        | none => exact Or.inl (by simp_all [keepBest])
        | some b =>
          rw [keepBest] at heq
          split_ifs at heq with hlt
          · exact Or.inl (by simp_all)
          · exact Or.inr heq

theorem map_fst_addToGroup (key : String) (free : ℕ) :
    ∀ (groups : List (String × ℕ)),
      (addToGroup key free groups).map (·.1) =
        if key ∈ groups.map (·.1) then groups.map (·.1) else groups.map (·.1) ++ [key]
  | [] => by simp [addToGroup]
  | g :: groups => by
      rw [addToGroup]
      by_cases h : g.1 = key
      · simp [h]
      · have hne : key ≠ g.1 := Ne.symm h
        rw [if_neg h, List.map_cons, map_fst_addToGroup key free groups]
        by_cases hmem : key ∈ groups.map (·.1)
        · simp only [List.map_cons, List.mem_cons, hmem, or_true, if_true]
        · simp only [List.map_cons, List.mem_cons, hmem, hne, or_false, if_false, List.cons_append]

theorem mem_addToGroup {free : ℕ} {g : String × ℕ} :
    ∀ {groups : List (String × ℕ)}, (groups.map (·.1)).Nodup →
      g ∈ addToGroup key free groups →
      (∃ n, (key, n) ∈ groups ∧ g = (key, (n + free) % 2 ^ 32)) ∨
        (key ∉ groups.map (·.1) ∧ g = (key, free)) ∨ (g.1 ≠ key ∧ g ∈ groups)
  | [], _, h => by
      simp only [addToGroup, List.mem_singleton] at h
      simp [h]
  | x :: groups, hnodup, h => by
      obtain ⟨hx, hnodup'⟩ := List.nodup_cons.mp hnodup
      rw [addToGroup] at h
      split_ifs at h with heq
      · subst heq
        rcases List.mem_cons.mp h with rfl | hg
        · exact Or.inl ⟨x.2, .head _, rfl⟩
        · refine Or.inr (Or.inr ⟨?_, .tail _ hg⟩)
          rintro hkey
          exact hx (List.mem_map.mpr ⟨g, hg, hkey⟩)
      · rcases List.mem_cons.mp h with rfl | hg
        · exact Or.inr (Or.inr ⟨heq, .head _⟩)
        · rcases mem_addToGroup hnodup' hg with ⟨n, hn, rfl⟩ | ⟨hnew, rfl⟩ | ⟨hne, hmem⟩
          · exact Or.inl ⟨n, .tail _ hn, rfl⟩
          · refine Or.inr (Or.inl ⟨?_, rfl⟩)
            rw [List.map_cons, List.mem_cons, not_or]
            exact ⟨Ne.symm heq, hnew⟩
          · exact Or.inr (Or.inr ⟨hne, .tail _ hmem⟩)

def hasKey (keyName : Option String) (key : String) (e : Instance) : Bool :=
  centryRsmapInstanceKey e keyName = some key

/-- The groups are the sums of the instances seen so far. -/
structure GroupsOf (free : Instance → ℕ) (keyName : Option String) (seen : List Instance)
    (groups : List (String × ℕ)) : Prop where
  nodup : (groups.map (·.1)).Nodup
  sum : ∀ g ∈ groups, g.2 = freeSum (hasKey keyName g.1) free seen
  all : ∀ e ∈ seen, ∀ key, centryRsmapInstanceKey e keyName = some key →
    key ∈ groups.map (·.1)

theorem freeSum_append (isWanted : Instance → Bool) (free : Instance → ℕ) (l l' : List Instance) :
    freeSum isWanted free (l ++ l') = freeSum isWanted free l + freeSum isWanted free l' := by
  simp [freeSum]

theorem freeSum_le (isWanted : Instance → Bool) (free : Instance → ℕ) :
    ∀ (l : List Instance), freeSum isWanted free l ≤ (l.map free).sum
  | [] => by simp [freeSum]
  | e :: l => by
      have := freeSum_le isWanted free l
      rw [freeSum_cons, List.map_cons, List.sum_cons]
      split_ifs <;> omega

variable {free : Instance → ℕ}

theorem freeSum_eq_zero {isWanted : Instance → Bool}
    {l : List Instance} (h : ∀ e ∈ l, isWanted e = false) : freeSum isWanted free l = 0 := by
  have : l.filter isWanted = [] := List.filter_eq_nil_iff.mpr fun e he => by simp [h e he]
  simp [freeSum, this]

theorem GroupsOf.step {seen : List Instance} {groups : List (String × ℕ)}
    (h : GroupsOf free keyName seen groups) (e : Instance)
    (hlt : (seen.map free).sum + free e < 2 ^ 32) :
    GroupsOf free keyName (seen ++ [e]) (sumGroups free keyName groups e) := by
  unfold sumGroups
  cases hkey : centryRsmapInstanceKey e keyName with
  | none =>
    refine ⟨h.nodup, ?_, ?_⟩
    · intro g hg
      rw [freeSum_append, ← h.sum g hg]
      simp [freeSum, hasKey, hkey]
    · intro x hx key hk
      rcases List.mem_append.mp hx with hx | hx
      · exact h.all x hx key hk
      · rw [List.mem_singleton.mp hx, hkey] at hk
        simp at hk
  | some key =>
    have hself : freeSum (hasKey keyName key) free [e] = free e := by
      simp [freeSum, hasKey, hkey]
    have hother : ∀ k, k ≠ key → freeSum (hasKey keyName k) free [e] = 0 := by
      intro k hk
      simp [freeSum, hasKey, hkey, Ne.symm hk]
    have hbound := freeSum_le (hasKey keyName key) free seen
    refine ⟨?_, ?_, ?_⟩
    · rw [map_fst_addToGroup]
      split_ifs with hmem
      · exact h.nodup
      · exact List.nodup_append.mpr ⟨h.nodup, by simp, by
          intro a ha b hb
          rw [List.mem_singleton.mp hb]
          rintro rfl
          exact hmem ha⟩
    · intro g hg
      rcases mem_addToGroup h.nodup hg with ⟨n, hn, rfl⟩ | ⟨hnew, rfl⟩ | ⟨hne, hmem⟩
      · have hsum : n = freeSum (hasKey keyName key) free seen := h.sum _ hn
        rw [freeSum_append, hself, ← hsum]
        exact Nat.mod_eq_of_lt (by omega)
      · have hzero : freeSum (hasKey keyName key) free seen = 0 := by
          refine freeSum_eq_zero fun x hx => ?_
          rw [hasKey, decide_eq_false_iff_not]
          exact fun hk => hnew (h.all x hx key hk)
        rw [freeSum_append, hself, hzero, Nat.zero_add]
      · rw [freeSum_append, hother g.1 hne, h.sum g hmem, Nat.add_zero]
    · intro x hx k hk
      rw [map_fst_addToGroup]
      rcases List.mem_append.mp hx with hx | hx
      · have := h.all x hx k hk
        split_ifs
        · exact this
        · exact List.mem_append_left _ this
      · rw [List.mem_singleton.mp hx, hkey, Option.some.injEq] at hk
        subst hk
        split_ifs with hmem
        · exact hmem
        · simp

theorem GroupsOf.foldl :
    ∀ (l : List Instance) {seen : List Instance} {groups : List (String × ℕ)},
      GroupsOf free keyName seen groups → (seen.map free).sum + (l.map free).sum < 2 ^ 32 →
      GroupsOf free keyName (seen ++ l) (l.foldl (sumGroups free keyName) groups)
  | [], seen, _, h, _ => by simpa using h
  | e :: l, seen, groups, h, hlt => by
      rw [List.map_cons, List.sum_cons] at hlt
      have hstep := h.step e (by omega)
      have := GroupsOf.foldl l hstep (by simp; omega)
      simpa using this

/-! ## Counting and taking agree -/

structure ResourceMap where
  instances : List Instance
  distinct : (instances.map (·.value)).Nodup
  total : (instances.map (·.amount)).sum < 2 ^ 32

def takenAmount (taken : List Instance) (id : String) : ℕ :=
  ((taken.find? (·.value = id)).map (·.amount)).getD 0

theorem instanceFree_eq (e : Instance) (taken : List Instance) :
    centryRsmapInstanceFree e taken = e.amount - takenAmount taken e.value := by
  unfold centryRsmapInstanceFree takenAmount
  cases taken.find? (·.value = e.value) with
  | none => simp
  | some used =>
    dsimp only [Option.map_some, Option.getD_some]
    split_ifs <;> omega

/-- A choice a request may be granted: a part of each instance chosen, of
instances that are wanted, the amount in all. -/
structure Serves (map : ResourceMap) (taken : List Instance) (isWanted : Instance → Prop)
    (amount : ℕ) (chosen : List Instance) : Prop where
  total : (chosen.map (·.amount)).sum = amount
  once : (chosen.map (·.value)).Nodup
  part : ∀ c ∈ chosen, ∃ e ∈ map.instances, e.value = c.value ∧ isWanted e ∧
    0 < c.amount ∧ c.amount ≤ e.amount - takenAmount taken e.value

/-- Success, its condition, and what is selected. -/
structure Selects (map : ResourceMap) (taken : List Instance)
    (isWanted : Instance → Prop) (amount count : ℕ) (selected : List Instance)
    (result : Bool × List Instance) : Prop where
  iff_count : result.1 = true ↔ amount ≤ count
  serves : result.1 = true → Serves map taken isWanted amount result.2
  unchanged : result.1 = false → result.2 = selected

section

variable (cmp : Comparisons) (map : ResourceMap) (taken : List Instance) (req : Request)

theorem ResourceMap.sum_free_lt (isWanted : Instance → Bool) :
    ((map.instances.filter isWanted).map (centryRsmapInstanceFree · taken)).sum < 2 ^ 32 := by
  have hfree : (map.instances.map (centryRsmapInstanceFree · taken)).sum ≤
      (map.instances.map (·.amount)).sum := by
    refine List.sum_le_sum fun e _ => ?_
    rw [instanceFree_eq]
    exact Nat.sub_le _ _
  have hle := freeSum_le isWanted (centryRsmapInstanceFree · taken) map.instances
  have := map.total
  unfold freeSum at hle
  omega

/-- With nothing held yet, taking succeeds if there is enough of what is wanted. -/
theorem takeInstances_selects (keyName key : Option String) (amount : ℕ)
    (selected : List Instance) :
    Selects map taken (fun e => inGroup keyName key e = true ∧ isUsable cmp req e = true)
      amount
      (freeSum (fun e => inGroup keyName key e && isUsable cmp req e)
        (centryRsmapInstanceFree · taken) map.instances) selected
      (centryRsmapTakeInstances cmp map.instances taken [] keyName key amount selected req) := by
  have hbesides : freeBesides taken [] = (centryRsmapInstanceFree · taken) := rfl
  unfold centryRsmapTakeInstances
  rw [hbesides]
  have hrem := takeLoop_remaining (fun e => inGroup keyName key e && isUsable cmp req e)
    (centryRsmapInstanceFree · taken) map.instances amount
  have htotal := takeLoop_total (fun e => inGroup keyName key e && isUsable cmp req e)
    (centryRsmapInstanceFree · taken) map.instances amount
  have hchosen := takeLoop_chosen (fun e => inGroup keyName key e && isUsable cmp req e)
    (centryRsmapInstanceFree · taken) map.instances amount
  have hsub := takeLoop_sublist (fun e => inGroup keyName key e && isUsable cmp req e)
    (centryRsmapInstanceFree · taken) map.instances amount
  dsimp only
  split_ifs with hleft
  · exact ⟨by simp; omega, by simp, fun _ => rfl⟩
  · refine ⟨by simp; omega, fun _ => ⟨?_, map.distinct.sublist hsub, ?_⟩, by simp⟩
    · show ((takeLoop _ _ _ _).1.map (·.amount)).sum = amount
      omega
    · intro c hc
      obtain ⟨e, he, hvalue, hwanted, hpos, hle⟩ := hchosen c hc
      rw [instanceFree_eq] at hle
      rw [Bool.and_eq_true] at hwanted
      exact ⟨e, he, hvalue, hwanted, hpos, hle⟩

theorem centryRsmapFree_eq :
    centryRsmapFree cmp (some map.instances) taken req =
      freeSum (isUsable cmp req) (centryRsmapInstanceFree · taken) map.instances := by
  rw [centryRsmapFree, foldl_addFree _ _ _ (by simpa using map.sum_free_lt taken _), Nat.zero_add]
  rfl

theorem centryRsmapGroupFree_eq (keyName : Option String) (key : String) :
    centryRsmapGroupFree cmp (some map.instances) taken keyName (some key) req =
      freeSum (fun e => inGroup keyName (some key) e && isUsable cmp req e)
        (centryRsmapInstanceFree · taken) map.instances := by
  rw [centryRsmapGroupFree, List.filter_filter, foldl_addFree _ _ _ (by
    simpa using map.sum_free_lt taken _), Nat.zero_add]
  rfl

theorem freeSum_value (isWanted : Instance → Bool) (free : Instance → ℕ) {e : Instance}
    (hwanted : isWanted e = true) :
    ∀ {l : List Instance}, (l.map (·.value)).Nodup → e ∈ l →
      freeSum (fun x => decide (x.value = e.value) && isWanted x) free l = free e
  | x :: l, hdistinct, he => by
      obtain ⟨hx, hdistinct'⟩ := List.nodup_cons.mp hdistinct
      rw [freeSum_cons]
      rcases List.mem_cons.mp he with rfl | he
      · have hrest : freeSum (fun x => decide (x.value = e.value) && isWanted x) free l = 0 := by
          refine freeSum_eq_zero fun y hy => ?_
          have hne : y.value ≠ e.value := fun heq => hx (List.mem_map.mpr ⟨y, hy, heq⟩)
          simp [hne]
        simp [hrest, hwanted]
      · have hne : x.value ≠ e.value := fun heq => hx (List.mem_map.mpr ⟨e, he, heq.symm⟩)
        rw [freeSum_value isWanted free hwanted hdistinct' he]
        simp [hne]

variable {count : ℕ}

variable {best : Option (String × ℕ)}

theorem report_some {key : String}
    (h : report best = (some key, count)) : best = some (key, count) := by
  cases best with
  | none => simp [report] at h
  | some b => simpa [report, Prod.ext_iff] using h

theorem report_none (h : report best = (none, count)) : count = 0 := by
  cases best with
  | none => simpa [report] using h.symm
  | some b => simp [report] at h

/-- **The best group.** The amount reported is what the usable instances with the
key reported have free between them. -/
theorem bestFreeGroup_sum {keyName : Option String} {key : String}
    (h : centryRsmapBestFreeGroup cmp (some map.instances) taken keyName req = (some key, count)) :
    count = freeSum (fun e => inGroup keyName (some key) e && isUsable cmp req e)
      (centryRsmapInstanceFree · taken) map.instances := by
  rw [centryRsmapBestFreeGroup] at h
  split_ifs at h with hid
  · -- by identifier, there is one instance
    have hfold := report_some h
    rw [← List.foldl_map (f := fun e : Instance =>
      (e.value, centryRsmapInstanceFree e taken)) (g := keepBest)] at hfold
    have hmem := (foldl_keepBest_mem _ _ hfold).resolve_right (by simp)
    obtain ⟨e, he, heq⟩ := List.mem_map.mp hmem
    obtain ⟨he, husable⟩ := List.mem_filter.mp he
    cases heq
    have hkey : ∀ x : Instance,
        inGroup keyName (some e.value) x = decide (x.value = e.value) := by
      intro x
      rcases hid with rfl | rfl <;> simp [inGroup, centryRsmapInstanceKey]
    simp only [hkey]
    exact (freeSum_value _ (centryRsmapInstanceFree · taken) husable map.distinct he).symm
  · -- by characteristic, the group is summed up
    have hfold := report_some h
    have hmem := (foldl_keepBest_mem _ _ hfold).resolve_right (by simp)
    have hempty : GroupsOf (centryRsmapInstanceFree · taken) keyName [] [] :=
      ⟨by simp, by simp, by simp⟩
    have hgroups := hempty.foldl (map.instances.filter (isUsable cmp req))
      (by simpa using map.sum_free_lt taken _)
    have hsum := hgroups.sum _ hmem
    rw [List.nil_append] at hsum
    simpa [freeSum, List.filter_filter, inGroup, hasKey] using hsum

theorem bestFreeGroup_none {keyName : Option String}
    (h : centryRsmapBestFreeGroup cmp (some map.instances) taken keyName req = (none, count)) :
    count = 0 := by
  rw [centryRsmapBestFreeGroup] at h
  split_ifs at h
  · exact report_none h
  · exact report_none h

variable {amount : ℕ}

theorem selectInstances_selects (hamount : 0 < amount) (selected : List Instance) :
    Selects map taken (fun e => isUsable cmp req e = true) amount
      (centryRsmapFree cmp (some map.instances) taken req) selected
      (centryRsmapSelectInstances cmp (some map.instances) taken [] amount selected req) := by
  have h := takeInstances_selects cmp map taken req none none amount selected
  rw [centryRsmapSelectInstances]
  simp only [Nat.ne_of_gt hamount, if_false]
  rw [centryRsmapFree_eq]
  simpa [inGroup] using h

theorem selectGroupInstances_selects (keyName : Option String)
    (hamount : 0 < amount) (selected : List Instance) :
    ∃ key : String, Selects map taken
        (fun e => isUsable cmp req e = true ∧ centryRsmapInstanceKey e keyName = some key)
        amount (centryRsmapBestFreeGroup cmp (some map.instances) taken keyName req).2 selected
        (centryRsmapSelectGroupInstances cmp (some map.instances) taken [] keyName amount
          selected req none) := by
  rw [centryRsmapSelectGroupInstances]
  simp only [Nat.ne_of_gt hamount, if_false, chooseKey]
  rcases hbest : centryRsmapBestFreeGroup cmp (some map.instances) taken keyName req with
    ⟨_ | key, count⟩
  · -- no group at all, any key will do
    have hcount := bestFreeGroup_none cmp map taken req hbest
    exact ⟨"", ⟨by simp; omega, by simp, fun _ => rfl⟩⟩
  · have hcount := bestFreeGroup_sum cmp map taken req hbest
    have h := takeInstances_selects cmp map taken req keyName (some key) amount selected
    refine ⟨key, ?_⟩
    rw [← hcount] at h
    simpa [inGroup, and_comm] using h

end

/-- **Counting and taking agree.** For every map, taken list, request and amount,
with nothing held yet: taking succeeds exactly when the count is enough, what is
selected then serves the request, from one group where one is asked for, and a
failure leaves `selected` as it was. -/
theorem rsmap_count_select (cmp : Comparisons) (map : ResourceMap) (taken : List Instance)
    (req : Request) (keyName : Option String) (amount : ℕ) (hamount : 0 < amount)
    (selected : List Instance) :
    Selects map taken (fun e => isUsable cmp req e = true) amount
      (centryRsmapFree cmp (some map.instances) taken req) selected
      (centryRsmapSelectInstances cmp (some map.instances) taken [] amount selected req) ∧
    ∃ key : String, Selects map taken
        (fun e => isUsable cmp req e = true ∧ centryRsmapInstanceKey e keyName = some key)
        amount (centryRsmapBestFreeGroup cmp (some map.instances) taken keyName req).2 selected
        (centryRsmapSelectGroupInstances cmp (some map.instances) taken [] keyName amount
          selected req none) :=
  ⟨selectInstances_selects cmp map taken req hamount selected,
    selectGroupInstances_selects cmp map taken req keyName hamount selected⟩

def literalComparisons : Comparisons where
  evalExpression := fun _ expr value => if expr = value then 0 else 1
  hostcmp := fun a b => if a = b then 0 else 1

/-- Two cards on each of two boards. -/
def boards : ResourceMap where
  instances :=
    [⟨"0", 2, [⟨"board", .str, .eq, some "a", 0⟩]⟩,
      ⟨"1", 2, [⟨"board", .str, .eq, some "b", 0⟩]⟩,
      ⟨"2", 1, [⟨"board", .str, .eq, some "b", 0⟩]⟩]
  distinct := by decide
  total := by decide

/-- Three cards of one board while one card of the other is taken. -/
theorem rsmap_count_select_boards :
    (centryRsmapSelectGroupInstances literalComparisons (some boards.instances)
      [⟨"0", 1, []⟩] [] (some "board") 3 [] ⟨none, []⟩ none).1 = true := by
  obtain ⟨-, key, h⟩ := rsmap_count_select literalComparisons boards [⟨"0", 1, []⟩]
    ⟨none, []⟩ (some "board") 3 (by decide) []
  exact h.iff_count.mpr (by decide +kernel)

end ClusterScheduler.Sgeobj
