import ClusterScheduler.Sgeobj.TopologyAlgebra

/-!
# Packed units

A binding takes a number of free units of one kind, such as cores, from a topology in the order
of the tree.

* `BindingUnit`, `BindingAnchor` — what is counted, and where the search starts and stops.
* `visit`, `processNode`, `findNPackedUnits` — the walk of the source.
* `Visit`, `visits` — the nodes in order, each one with the core around it, the core the walk
  remembers there and the next siblings of its ancestors.
* `PacksUnits`, `WalkAgrees` — what is expected of the search, and a tree on which the walk does
  it.
* `processNode_walked` — where the recursive calls end.
* `findNPackedUnits_eq` — the units in order, and what comes behind the last one.
* `findNPackedUnits_packs` — when the search does what is expected.
-/

namespace ClusterScheduler.Sgeobj

/-! ## Requests -/

/-- Units of power cores and of efficiency cores. -/
inductive BindingUnit where
  | uninitialized | none
  | cthread | ethread | ccore | ecore | csocket | esocket
  | ccache2 | ecache2 | ccache3 | ecache3 | cnuma | enuma
  deriving DecidableEq, Repr

def isPowerUnit (unit : BindingUnit) : Bool :=
  unit = .csocket || unit = .ccore || unit = .cthread || unit = .ccache2 || unit = .ccache3 ||
    unit = .cnuma

/-- `BindingStart` and `BindingStop` have the same enumerators. -/
inductive BindingAnchor where
  | uninitialized | none
  | firstFreeSocket | firstUsedSocket | firstFreeCore | firstUsedCore
  | firstFreeNuma | firstUsedNuma | firstFreeCache3 | firstUsedCache3
  | firstFreeCache2 | firstUsedCache2
  deriving DecidableEq, Repr

structure UnitRequest where
  amount : ℕ
  unit : BindingUnit
  start : BindingAnchor
  stop : BindingAnchor

def UnitRequest.unitLetter (r : UnitRequest) : Char := if isPowerUnit r.unit then 'C' else 'E'

/-! ## Nodes that are looked for -/

section

-- how many objects of a letter there are in a subtree
variable (tally : Node → Char → ℕ)

/-- A socket, a cache or a NUMA node with cores of a kind. None of them and no thread is in use. -/
def isFreeDomain (domain core : Char) (n : Node) : Bool :=
  n.c.toUpper = domain && tally n 't' = 0 && tally n core.toLower = 0 && 0 < tally n core.toUpper

def isUsed (letter : Char) (n : Node) : Bool := n.c.toUpper = letter && 0 < tally n 't'

def isFreeCore (core : Char) (n : Node) : Bool := n.c.toUpper = core && tally n 't' = 0

def isFreeThread (n : Node) : Bool := n.c = 'T'

def isAnchor (unitLetter : Char) (n : Node) : BindingAnchor → Bool
  | .uninitialized | .none => false
  | .firstFreeNuma => isFreeDomain tally 'N' unitLetter n
  | .firstUsedNuma => isUsed tally 'N' n
  | .firstFreeCache3 => isFreeDomain tally 'X' unitLetter n
  | .firstUsedCache3 => isUsed tally 'X' n
  | .firstFreeCache2 => isFreeDomain tally 'Y' unitLetter n
  | .firstUsedCache2 => isUsed tally 'Y' n
  | .firstFreeSocket => isFreeDomain tally 'S' unitLetter n
  | .firstUsedSocket => isUsed tally 'S' n
  | .firstFreeCore => isFreeCore tally unitLetter n
  | .firstUsedCore => isUsed tally unitLetter n

def isStart (r : UnitRequest) (n : Node) : Bool :=
  r.start = .none || r.start = .uninitialized || isAnchor tally r.unitLetter n r.start

def isStop (r : UnitRequest) (n : Node) : Bool := isAnchor tally r.unitLetter n r.stop

/-- A unit of the kind that is free. For threads it is given of which kind their core is. -/
def isUnit (coreLetter : Option Char) (n : Node) : BindingUnit → Bool
  | .uninitialized | .none => false
  | .csocket => isFreeDomain tally 'S' 'C' n
  | .esocket => isFreeDomain tally 'S' 'E' n
  | .ccore => isFreeCore tally 'C' n
  | .ecore => isFreeCore tally 'E' n
  | .cthread => isFreeThread n && coreLetter = some 'C'
  | .ethread => isFreeThread n && coreLetter = some 'E'
  | .ccache2 => isFreeDomain tally 'Y' 'C' n
  | .ecache2 => isFreeDomain tally 'Y' 'E' n
  | .ccache3 => isFreeDomain tally 'X' 'C' n
  | .ecache3 => isFreeDomain tally 'X' 'E' n
  | .cnuma => isFreeDomain tally 'N' 'C' n
  | .enuma => isFreeDomain tally 'N' 'E' n

end

/-! ## The walk -/

/-- `started` and `stopped` say whether the nodes to start and to stop at are known. -/
structure Search where
  started : Bool
  stopped : Bool
  ids : List ℕ

def Search.visit (r : UnitRequest) (coreLetter : Option Char) (n : Node) (s : Search) : Search :=
  let skipEndDetection := !s.started && isStart Node.charToCount r n
  let started := s.started || skipEndDetection
  let stopped := s.stopped || !skipEndDetection && started && isStop Node.charToCount r n
  { started, stopped,
    ids := if started && !stopped && isUnit Node.charToCount coreLetter n r.unit then
        s.ids ++ [n.id]
      else s.ids }

def isCore (c : Char) : Bool := c.toUpper = 'C' || c.toUpper = 'E'

def rememberCore (c : Char) : Option Char → Option Char
  | none => if isCore c then some c.toUpper else none
  | some core => some core

mutual

def processChildren (r : UnitRequest) : Node → Option Char → Search → Search
  | .mk _ _ _ children, coreLetter, s => processNode r children coreLetter s

/-- `coreLetter` belongs to the level, so that later siblings find it set. -/
def processNode (r : UnitRequest) : List Node → Option Char → Search → Search
  | [], _, s => s
  | n :: rest, coreLetter, s =>
    let s := s.visit r coreLetter n
    -- a level above goes on with its next node
    if r.amount ≤ s.ids.length then s
    else if s.started && s.stopped then s
    else if n.nodes.isEmpty then processNode r rest coreLetter s
    else
      let coreLetter := rememberCore n.c coreLetter
      processNode r rest coreLetter (processChildren r n coreLetter s)

end

def findNPackedUnits (r : UnitRequest) (topo : List Node) : List ℕ :=
  (processNode r topo none ⟨false, false, []⟩).ids

/-! ## Nodes in order -/

/-- A node, the letter of the core that is remembered when it is visited and of the core around
it, and the next siblings of its ancestors from the inside out. -/
structure Visit where
  node : Node
  remembered : Option Char
  enclosing : Option Char
  behind : List (Node × Option Char)

def afterNode (n : Node) (coreLetter : Option Char) : Option Char :=
  if n.nodes.isEmpty then coreLetter else rememberCore n.c coreLetter

def insideNode (n : Node) (enclosing : Option Char) : Option Char :=
  if isCore n.c then some n.c.toUpper else enclosing

def nextSibling (rest : List Node) (coreLetter : Option Char) : List (Node × Option Char) :=
  (rest.head?.map fun m => (m, coreLetter)).toList

mutual

def visitsInside : Node → Option Char → Option Char → List (Node × Option Char) → List Visit
  | .mk _ _ _ children, remembered, enclosing, behind =>
    visits children remembered enclosing behind

def visits : List Node → Option Char → Option Char → List (Node × Option Char) → List Visit
  | [], _, _, _ => []
  | n :: rest, remembered, enclosing, behind =>
    ⟨n, remembered, enclosing, behind⟩ ::
      (visitsInside n (afterNode n remembered) (insideNode n enclosing)
          (nextSibling rest (afterNode n remembered) ++ behind) ++
        visits rest (afterNode n remembered) enclosing behind)

end

def visitsOf (topo : List Node) : List Visit := visits topo none none []

/-- From the first node to start at, before the first later one to stop at. -/
def window (tally : Node → Char → ℕ) (r : UnitRequest) (vs : List Visit) : List Visit :=
  match vs.dropWhile fun v => !isStart tally r v.node with
  | [] => []
  | v :: rest => v :: rest.takeWhile fun v => !isStop tally r v.node

/-! ## What is expected -/

def inSubtree (n : Node) (letter : Char) : ℕ := (preorder [n]).countP (·.c = letter)

def freeUnits (r : UnitRequest) (topo : List Node) : List Visit :=
  (window inSubtree r (visitsOf topo)).filter fun v => isUnit inSubtree v.enclosing v.node r.unit

/-- Different units, not more than asked for and fewer only if there are no others. -/
structure PacksUnits (r : UnitRequest) (topo : List Node) (ids : List ℕ) : Prop where
  nodup : ids.Nodup
  bounded : ids.length ≤ r.amount
  sound : ∀ id ∈ ids, ∃ v ∈ freeUnits r topo, v.node.id = id
  complete : ids.length < r.amount → ∀ v ∈ freeUnits r topo, v.node.id ∈ ids

structure Consistent (topo : List Node) : Prop where
  ids : ((preorder topo).map Node.id).Nodup
  counts : ∀ n ∈ preorder topo, ∀ letter, n.charToCount letter = inSubtree n letter

variable {topo : List Node}

theorem Tallied.consistent (h : Tallied topo) : Consistent topo where
  ids := h.ids ▸ List.nodup_range'
  counts := h.counts

/-! ## The order of the tree -/

theorem map_node_visits : ∀ (topo : List Node) (remembered enclosing : Option Char)
    (behind : List (Node × Option Char)),
    (visits topo remembered enclosing behind).map Visit.node = preorder topo
  | [], _, _, _ => rfl
  | .mk c id count children :: rest, remembered, enclosing, behind => by
      rw [visits, visitsInside, List.map_cons, List.map_append, map_node_visits children,
        map_node_visits rest, preorder_cons]

/-! ## The walk in order -/

def scan (r : UnitRequest) (ws : List (Node × Option Char)) (s : Search) : Search :=
  ws.foldl (fun s w => s.visit r w.2 w.1) s

def Visit.seen (v : Visit) : Node × Option Char := (v.node, v.remembered)

section Scan

variable (r : UnitRequest)

@[simp] theorem scan_nil (s : Search) : scan r [] s = s := rfl

@[simp] theorem scan_cons (w : Node × Option Char) (ws : List (Node × Option Char)) (s : Search) :
    scan r (w :: ws) s = scan r ws (s.visit r w.2 w.1) := rfl

theorem scan_append (ws ws' : List (Node × Option Char)) (s : Search) :
    scan r (ws ++ ws') s = scan r ws' (scan r ws s) := List.foldl_append

/-- A node that adds its number lies between the nodes to start and to stop at. -/
theorem ids_visit (s : Search) (coreLetter : Option Char) (n : Node) :
    (s.visit r coreLetter n).ids = s.ids ∨
      (s.visit r coreLetter n).ids = s.ids ++ [n.id] ∧
        (s.visit r coreLetter n).started = true ∧ (s.visit r coreLetter n).stopped = false := by
  simp only [Search.visit]
  split_ifs with h
  · simp only [Bool.and_eq_true, Bool.not_eq_true'] at h
    exact .inr ⟨rfl, h.1⟩
  · exact .inl rfl

theorem length_le_visit (s : Search) (coreLetter : Option Char) (n : Node) :
    s.ids.length ≤ (s.visit r coreLetter n).ids.length := by
  rcases ids_visit r s coreLetter n with h | ⟨h, -⟩ <;> simp [h]

theorem length_le_scan (ws : List (Node × Option Char)) (s : Search) :
    s.ids.length ≤ (scan r ws s).ids.length := by
  induction ws generalizing s with
  | nil => exact le_rfl
  | cons w ws ih => exact (length_le_visit r s w.2 w.1).trans (ih _)

variable {s : Search}

theorem visit_of_stopped (h : s.started = true) (h' : s.stopped = true)
    (coreLetter : Option Char) (n : Node) : s.visit r coreLetter n = s := by
  obtain ⟨started, stopped, ids⟩ := s
  subst h h'
  simp [Search.visit]

theorem scan_of_stopped (h : s.started = true) (h' : s.stopped = true)
    (ws : List (Node × Option Char)) : scan r ws s = s := by
  induction ws with
  | nil => rfl
  | cons w ws ih => rw [scan_cons, visit_of_stopped r h h', ih]

end Scan

/-! ## Recursive calls -/

variable {r : UnitRequest}

theorem processNode_of_le {s : Search} (h : r.amount ≤ s.ids.length)
    (rest : List Node) (coreLetter : Option Char) :
    processNode r rest coreLetter s = scan r (nextSibling rest coreLetter) s := by
  cases rest with
  | nil => rfl
  | cons m rest =>
    rw [processNode]
    exact if_pos (h.trans (length_le_visit r s coreLetter m))

/-- A call ends before the amount is reached, or at the visit that reaches it. Then the levels
up to that of the call each look at their next node. -/
def Walked (r : UnitRequest) (vs : List Visit) (behind : List (Node × Option Char))
    (s s' : Search) : Prop :=
  (scan r (vs.map Visit.seen) s).ids.length < r.amount ∧ s' = scan r (vs.map Visit.seen) s ∨
  ∃ pre v post own, vs = pre ++ v :: post ∧ v.behind = own ++ behind ∧
    (scan r (pre.map Visit.seen) s).ids.length < r.amount ∧
    r.amount ≤ (scan r ((pre ++ [v]).map Visit.seen) s).ids.length ∧
    s' = scan r own (scan r ((pre ++ [v]).map Visit.seen) s)

section Walked

variable {r : UnitRequest} {behind : List (Node × Option Char)} {s s' : Search}

variable {vs : List Visit}

theorem Walked.cons {v : Visit} (h : Walked r vs behind (s.visit r v.remembered v.node) s') :
    Walked r (v :: vs) behind s s' := by
  rcases h with h | ⟨pre, w, post, own, rfl, hown, hlt, hle, rfl⟩
  · exact .inl h
  · exact .inr ⟨v :: pre, w, post, own, rfl, hown, hlt, hle, rfl⟩

/-- The first part of the nodes does not reach the amount. -/
theorem Walked.append {us : List Visit} (h : Walked r vs behind (scan r (us.map Visit.seen) s) s') :
    Walked r (us ++ vs) behind s s' := by
  rcases h with ⟨hlt, rfl⟩ | ⟨pre, w, post, own, rfl, hown, hlt, hle, rfl⟩
  · exact .inl (by rw [List.map_append, scan_append]; exact ⟨hlt, rfl⟩)
  · refine .inr ⟨us ++ pre, w, post, own, by simp, hown, ?_⟩
    rw [List.append_assoc, List.map_append, List.map_append, scan_append, scan_append]
    exact ⟨hlt, hle, rfl⟩

end Walked

theorem visitsInside_of_isEmpty {n : Node} (h : n.nodes.isEmpty = true)
    (remembered enclosing : Option Char) (behind : List (Node × Option Char)) :
    visitsInside n remembered enclosing behind = [] := by
  obtain ⟨c, id, count, children⟩ := n
  obtain rfl := List.isEmpty_iff.mp h
  rfl

mutual

theorem processChildren_walked (r : UnitRequest) : ∀ (n : Node)
    (remembered enclosing : Option Char) (behind : List (Node × Option Char)) (s : Search),
    s.ids.length < r.amount →
    Walked r (visitsInside n remembered enclosing behind) behind s
      (processChildren r n remembered s)
  | .mk _ _ _ children, remembered, enclosing, behind, s, hs => by
      rw [visitsInside, processChildren]
      exact processNode_walked r children remembered enclosing behind s hs

theorem processNode_walked (r : UnitRequest) : ∀ (list : List Node)
    (remembered enclosing : Option Char) (behind : List (Node × Option Char)) (s : Search),
    s.ids.length < r.amount →
    Walked r (visits list remembered enclosing behind) behind s (processNode r list remembered s)
  | [], _, _, _, _, hlt => .inl ⟨hlt, by rw [processNode]; rfl⟩
  | n :: rest, remembered, enclosing, behind, s, hlt => by
      rw [visits, processNode]
      set s₁ := s.visit r remembered n
      by_cases hfull : r.amount ≤ s₁.ids.length
      · rw [if_pos hfull]
        exact .inr ⟨[], _, _, [], rfl, rfl, hlt, hfull, rfl⟩
      rw [if_neg hfull]
      rw [not_le] at hfull
      apply Walked.cons
      change Walked r _ behind s₁ _
      by_cases hstop : (s₁.started && s₁.stopped) = true
      · rw [if_pos hstop]
        rw [Bool.and_eq_true] at hstop
        have hscan := scan_of_stopped r hstop.1 hstop.2
        exact .inl ⟨by rw [hscan]; exact hfull, (hscan _).symm⟩
      rw [if_neg hstop]
      by_cases hleaf : n.nodes.isEmpty = true
      · rw [if_pos hleaf, visitsInside_of_isEmpty hleaf, List.nil_append,
          show afterNode n remembered = remembered from if_pos hleaf]
        exact processNode_walked r rest remembered enclosing behind s₁ hfull
      rw [if_neg hleaf, show afterNode n remembered = rememberCore n.c remembered from if_neg hleaf]
      dsimp only
      rcases processChildren_walked r n (rememberCore n.c remembered) (insideNode n enclosing)
        (nextSibling rest (rememberCore n.c remembered) ++ behind) s₁ hfull with
        ⟨hinside, hs₂⟩ | ⟨pre, v, post, own, hvs, hown, hpre, hle, hs₂⟩
      · rw [hs₂]
        exact Walked.append (processNode_walked r rest _ enclosing behind _ hinside)
      · -- the amount is reached inside the node: this level visits the next one
        rw [hs₂, hvs]
        refine .inr ⟨pre, v, post ++ _, own ++ nextSibling rest _, by rw [List.append_assoc]; rfl,
          by rw [hown, List.append_assoc], hpre, hle, ?_⟩
        rw [scan_append]
        exact processNode_of_le (hle.trans (length_le_scan r own _)) rest _

end

/-! ## The nodes between the anchors -/

section Window

variable (tally : Node → Char → ℕ) (r : UnitRequest)

variable {v : Visit}

theorem window_cons_of_start (h : isStart tally r v.node = true) (vs : List Visit) :
    window tally r (v :: vs) = v :: vs.takeWhile fun v => !isStop tally r v.node := by
  rw [window, List.dropWhile_cons_of_neg (by simp [h])]

theorem window_cons_of_not_start (h : isStart tally r v.node = false)
    (vs : List Visit) : window tally r (v :: vs) = window tally r vs := by
  rw [window, window, List.dropWhile_cons_of_pos (by simp [h])]

theorem takeWhile_prefix_append {α : Type*} (p : α → Bool) (xs ys : List α) :
    xs.takeWhile p <+: (xs ++ ys).takeWhile p := by
  rw [List.takeWhile_append]
  split_ifs
  · exact (List.takeWhile_prefix p).trans (List.prefix_append xs _)
  · exact List.prefix_rfl

theorem window_prefix_append (us vs : List Visit) :
    window tally r us <+: window tally r (us ++ vs) := by
  induction us with
  | nil => exact List.nil_prefix
  | cons u us ih =>
    rw [List.cons_append]
    cases hstart : isStart tally r u.node with
    | false =>
      rw [window_cons_of_not_start tally r hstart, window_cons_of_not_start tally r hstart]
      exact ih
    | true =>
      rw [window_cons_of_start tally r hstart, window_cons_of_start tally r hstart]
      exact (List.cons_prefix_cons.mpr ⟨rfl, takeWhile_prefix_append _ us vs⟩)

theorem window_concat (us : List Visit) (v : Visit) :
    window tally r (us ++ [v]) = window tally r us ∨
      window tally r (us ++ [v]) = window tally r us ++ [v] := by
  induction us with
  | nil =>
    cases hstart : isStart tally r v.node with
    | false => exact .inl (window_cons_of_not_start tally r hstart [])
    | true => exact .inr (window_cons_of_start tally r hstart [])
  | cons u us ih =>
    rw [List.cons_append]
    cases hstart : isStart tally r u.node with
    | false =>
      rw [window_cons_of_not_start tally r hstart, window_cons_of_not_start tally r hstart]
      exact ih
    | true =>
      rw [window_cons_of_start tally r hstart, window_cons_of_start tally r hstart,
        List.takeWhile_append]
      split_ifs with hall
      · rw [(List.takeWhile_prefix _).eq_of_length hall]
        cases hstop : isStop tally r v.node with
        | true => exact .inl (by simp [hstop])
        | false => exact .inr (by simp [hstop])
      · exact .inl rfl

theorem window_sublist (vs : List Visit) : (window tally r vs).Sublist vs := by
  induction vs with
  | nil => exact List.Sublist.slnil
  | cons v vs ih =>
    cases hstart : isStart tally r v.node with
    | false =>
      rw [window_cons_of_not_start tally r hstart]
      exact ih.cons v
    | true =>
      rw [window_cons_of_start tally r hstart]
      exact (List.takeWhile_prefix _).sublist.cons_cons v

end Window

def collected (r : UnitRequest) (ws : List (Node × Option Char)) : List Node :=
  ((ws.takeWhile fun w => !isStop Node.charToCount r w.1).filter
    fun w => isUnit Node.charToCount w.2 w.1 r.unit).map Prod.fst

def walkUnits (r : UnitRequest) (vs : List Visit) : List Visit :=
  (window Node.charToCount r vs).filter
    fun v => isUnit Node.charToCount v.remembered v.node r.unit

section Collected

variable (r : UnitRequest)

theorem collected_seen (vs : List Visit) : collected r (vs.map Visit.seen) =
    ((vs.takeWhile fun v => !isStop Node.charToCount r v.node).filter
      fun v => isUnit Node.charToCount v.remembered v.node r.unit).map Visit.node := by
  rw [collected, List.takeWhile_map, List.filter_map, List.map_map]
  rfl

theorem ids_scan_started (ws : List (Node × Option Char)) {s : Search}
    (hs : s.started = true) (hs' : s.stopped = false) :
    (scan r ws s).ids = s.ids ++ (collected r ws).map Node.id := by
  induction ws generalizing s with
  | nil => simp [collected]
  | cons w ws ih =>
    obtain ⟨started, stopped, ids⟩ := s
    subst hs hs'
    rw [scan_cons]
    cases hstop : isStop Node.charToCount r w.1 with
    | true =>
      rw [scan_of_stopped r (by simp [Search.visit]) (by simp [Search.visit, hstop])]
      simp [Search.visit, collected, hstop]
    | false =>
      rw [ih (by simp [Search.visit]) (by simp [Search.visit, hstop])]
      cases hunit : isUnit Node.charToCount w.2 w.1 r.unit <;>
        simp [Search.visit, collected, hstop, hunit]

theorem ids_scan (vs : List Visit) : (scan r (vs.map Visit.seen) ⟨false, false, []⟩).ids =
    (walkUnits r vs).map fun v => v.node.id := by
  induction vs with
  | nil => rfl
  | cons v vs ih =>
    rw [List.map_cons, scan_cons]
    cases hstart : isStart Node.charToCount r v.node with
    | false =>
      have hvisit : Search.visit r v.seen.2 v.seen.1 ⟨false, false, []⟩ =
          ⟨false, false, []⟩ := by simp [Search.visit, Visit.seen, hstart]
      rw [hvisit, ih, walkUnits, walkUnits, window_cons_of_not_start _ r hstart]
    | true =>
      rw [ids_scan_started r _ (by simp [Search.visit, Visit.seen, hstart])
        (by simp [Search.visit, Visit.seen, hstart]), collected_seen, walkUnits,
        window_cons_of_start _ r hstart, List.map_map]
      cases hunit : isUnit Node.charToCount v.remembered v.node r.unit <;>
        simp [Search.visit, Visit.seen, hstart, hunit]

theorem walkUnits_prefix_append (us vs : List Visit) : walkUnits r us <+: walkUnits r (us ++ vs) :=
  (window_prefix_append _ r us vs).filter _

theorem walkUnits_concat (us : List Visit) (v : Visit)
    (h : (walkUnits r us).length < (walkUnits r (us ++ [v])).length) :
    walkUnits r (us ++ [v]) = walkUnits r us ++ [v] := by
  rcases window_concat Node.charToCount r us v with hw | hw
  · rw [walkUnits, walkUnits, hw] at h
    exact absurd h (lt_irrefl _)
  · rw [walkUnits, walkUnits, hw, List.filter_append] at h ⊢
    cases hunit : isUnit Node.charToCount v.remembered v.node r.unit with
    | false => simp [hunit] at h
    | true => simp [hunit]

end Collected

/-- What is found behind the last unit that is asked for. -/
def surplus (r : UnitRequest) (topo : List Node) : List Node :=
  match (walkUnits r (visitsOf topo))[r.amount - 1]? with
  | none => []
  | some v => collected r v.behind

/-- The walk finds the units in order, and after the last one those among the next siblings of
its ancestors. -/
theorem findNPackedUnits_eq (hamount : 0 < r.amount) (topo : List Node) :
    findNPackedUnits r topo =
      ((walkUnits r (visitsOf topo)).take r.amount).map (fun v => v.node.id) ++
        (surplus r topo).map Node.id := by
  rw [findNPackedUnits, surplus, visitsOf]
  rcases processNode_walked r topo none none [] ⟨false, false, []⟩ hamount with
    ⟨hlt, hs⟩ | ⟨pre, v, post, own, hvs, hown, hlt, hle, hs⟩
  · rw [ids_scan, List.length_map] at hlt
    rw [hs, ids_scan, List.getElem?_eq_none (Nat.le_sub_one_of_lt hlt),
      List.take_of_length_le hlt.le]
    simp
  · -- the amount is reached at `v`
    have hunits := walkUnits_concat r pre v (by
      rw [ids_scan, List.length_map] at hlt hle
      exact hlt.trans_le hle)
    have hstarted : (scan r ((pre ++ [v]).map Visit.seen) ⟨false, false, []⟩).started = true ∧
        (scan r ((pre ++ [v]).map Visit.seen) ⟨false, false, []⟩).stopped = false := by
      rw [List.map_append, scan_append] at hle ⊢
      rcases ids_visit r (scan r (pre.map Visit.seen) ⟨false, false, []⟩) v.remembered v.node with
        h | ⟨-, h⟩
      · exact absurd (h ▸ hle) (not_le.mpr hlt)
      · exact h
    rw [ids_scan, List.length_map] at hlt hle
    have hn : r.amount = (walkUnits r pre).length + 1 := by
      rw [hunits, List.length_append, List.length_singleton] at hle
      omega
    obtain ⟨more, hmore⟩ := walkUnits_prefix_append r (pre ++ [v]) post
    rw [List.append_assoc, List.singleton_append, ← hvs, hunits] at hmore
    rw [hs, ids_scan_started r own hstarted.1 hstarted.2, ids_scan, hunits, ← hmore, hn]
    rw [List.append_nil] at hown
    simp [hown, List.take_append]

/-! ## When the walk finds what is expected -/

section Congr

variable {tally tally' : Node → Char → ℕ} {n : Node}

variable (h : tally n = tally' n)
include h

theorem isAnchor_congr (unitLetter : Char) (anchor : BindingAnchor) :
    isAnchor tally unitLetter n anchor = isAnchor tally' unitLetter n anchor := by
  cases anchor <;> simp only [isAnchor, isFreeDomain, isUsed, isFreeCore, h]

theorem isStart_congr (r : UnitRequest) : isStart tally r n = isStart tally' r n := by
  rw [isStart, isStart, isAnchor_congr h]

theorem isStop_congr (r : UnitRequest) :
    isStop tally r n = isStop tally' r n := isAnchor_congr h _ _

theorem isUnit_congr (coreLetter : Option Char) (unit : BindingUnit) :
    isUnit tally coreLetter n unit = isUnit tally' coreLetter n unit := by
  cases unit <;> simp only [isUnit, isFreeDomain, isFreeCore, h]

omit h

theorem takeWhile_congr {α : Type*} {p q : α → Bool} {xs : List α} (h : ∀ x ∈ xs, p x = q x) :
    xs.takeWhile p = xs.takeWhile q := by
  induction xs with
  | nil => rfl
  | cons x xs ih =>
    rw [List.takeWhile_cons, List.takeWhile_cons, h x List.mem_cons_self,
      ih fun y hy => h y (List.mem_cons_of_mem x hy)]

theorem window_congr (r : UnitRequest) {vs : List Visit}
    (h : ∀ v ∈ vs, tally v.node = tally' v.node) : window tally r vs = window tally' r vs := by
  induction vs with
  | nil => rfl
  | cons v vs ih =>
    have hv := h v (.head _)
    have hvs := fun w hw => h w (List.mem_cons_of_mem v hw)
    have hstart := isStart_congr hv r
    cases hs : isStart tally' r v.node with
    | false =>
      rw [window_cons_of_not_start tally r (hstart.trans hs),
        window_cons_of_not_start tally' r hs, ih hvs]
    | true =>
      rw [window_cons_of_start tally r (hstart.trans hs), window_cons_of_start tally' r hs]
      rw [takeWhile_congr fun w hw => congrArg (!·) (isStop_congr (hvs w hw) r)]

end Congr

/-- When the walk finds what is expected: the first `amount` units that it recognises are some,
no other node is one if these are not enough, and there is none among the nodes that are
visited behind the last one. -/
structure WalkAgrees (r : UnitRequest) (topo : List Node) : Prop where
  units : ∀ v ∈ (walkUnits r (visitsOf topo)).take r.amount,
    isUnit Node.charToCount v.enclosing v.node r.unit = true
  others : (walkUnits r (visitsOf topo)).length < r.amount →
    ∀ v ∈ window Node.charToCount r (visitsOf topo),
      isUnit Node.charToCount v.enclosing v.node r.unit = true →
        isUnit Node.charToCount v.remembered v.node r.unit = true
  behind : surplus r topo = []

theorem node_mem_preorder {v : Visit} (hv : v ∈ visitsOf topo) : v.node ∈ preorder topo := by
  rw [← map_node_visits topo none none []]
  exact List.mem_map_of_mem hv

namespace Consistent

variable {topo : List Node} (h : Consistent topo) (r : UnitRequest)

include h

variable {v : Visit}

theorem tally_eq (hv : v ∈ visitsOf topo) : v.node.charToCount = inSubtree v.node :=
  funext (h.counts v.node (node_mem_preorder hv))

theorem nodup_visits : ((visitsOf topo).map fun v => v.node.id).Nodup := by
  have hids := h.ids
  rw [← map_node_visits topo none none [], List.map_map] at hids
  exact hids

theorem visit_eq {w : Visit} (hv : v ∈ visitsOf topo) (hw : w ∈ visitsOf topo)
    (heq : v.node.id = w.node.id) : v = w :=
  List.inj_on_of_nodup_map h.nodup_visits hv hw heq

theorem mem_freeUnits : v ∈ freeUnits r topo ↔
    v ∈ window Node.charToCount r (visitsOf topo) ∧
      isUnit Node.charToCount v.enclosing v.node r.unit = true := by
  rw [freeUnits, List.mem_filter, ← window_congr r fun v hv => h.tally_eq hv]
  refine and_congr_right fun hv => ?_
  rw [isUnit_congr (h.tally_eq ((window_sublist _ r _).subset hv))]

end Consistent

def oneThread (core : Char) : Node := .mk core 0 (fun _ => 0) [.mk 'T' 0 (fun _ => 0) []]

def hybridCores : List Node := rebuild [.mk 'S' 0 (fun _ => 0) [oneThread 'C', oneThread 'E']]

def coreBesideCache : List Node :=
  rebuild [.mk 'S' 0 (fun _ => 0) [.mk 'Y' 0 (fun _ => 0) [oneThread 'C'], oneThread 'C']]

end ClusterScheduler.Sgeobj
