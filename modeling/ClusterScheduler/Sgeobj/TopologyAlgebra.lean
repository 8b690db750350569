import ClusterScheduler.Sgeobj.TopologyMarking

/-!
# Topology masks as sets of leaves

Marking works on every tree, whatever its letters are, and what it does is an operation on
the leaves in use.

* `isSameTopology` — the comparison of shapes of the source.
* `preorder`, `UsedLeaf`, `Tallied` — the nodes in order, the leaves in use by their
  positions, and trees with the right numbers and counters.
* `marks` — the leaves in use as a list of flags.
* `marking_algebra` — marking is union and difference.
-/

namespace ClusterScheduler.Sgeobj

/-! ## Trees -/

mutual
def isSameNode : Node → Node → Bool
  | .mk c _ _ cs, .mk d _ _ ds => c.toUpper = d.toUpper && isSameTopology cs ds

/-- The same letters, whatever their case is, in the same places. -/
def isSameTopology : List Node → List Node → Bool
  | [], [] => true
  | n :: ns, m :: ms => isSameNode n m && isSameTopology ns ms
  | _, _ => false
end

mutual
def preorderNode : Node → List Node
  | .mk c id count children => .mk c id count children :: preorder children

def preorder : List Node → List Node
  | [] => []
  | n :: rest => preorderNode n ++ preorder rest
end

def Lettered (topo : List Node) : Prop := ∀ n ∈ preorder topo, n.c.isAlpha = true

/-- The node at a position has nothing inside it and is in use. -/
def UsedLeaf (topo : List Node) (k : ℕ) : Prop :=
  ∃ n, (preorder topo)[k]? = some n ∧ n.nodes = [] ∧ n.c.isLower = true

/-- The numbers are the positions, and every counter has the number of nodes with its letter
in the subtree. -/
structure Tallied (topo : List Node) : Prop where
  ids : (preorder topo).map Node.id = List.range' 1 (preorder topo).length
  counts : ∀ n ∈ preorder topo, ∀ letter,
    n.charToCount letter = (preorder [n]).countP (·.c = letter)

def marks (topo : List Node) : List Bool :=
  (preorder topo).map fun n => n.nodes.isEmpty && n.c.isLower

def leaves (topo : List Node) : List Bool := (preorder topo).map fun n => n.nodes.isEmpty

section Unfolding

variable (c : Char) (id : ℕ) (count : Char → ℕ) (children rest : List Node)

theorem preorder_cons : preorder (.mk c id count children :: rest) =
    .mk c id count children :: (preorder children ++ preorder rest) := rfl

theorem marks_cons : marks (.mk c id count children :: rest) =
    (children.isEmpty && c.isLower) :: (marks children ++ marks rest) := by
  simp [marks, preorder_cons, Node.nodes, Node.c]

theorem leaves_cons : leaves (.mk c id count children :: rest) =
    children.isEmpty :: (leaves children ++ leaves rest) := by
  simp [leaves, preorder_cons, Node.nodes]

theorem lettered_cons : Lettered (.mk c id count children :: rest) ↔
    c.isAlpha = true ∧ Lettered children ∧ Lettered rest := by
  simp [Lettered, preorder_cons, Node.c, or_imp, forall_and]

@[simp] theorem preorder_nil : preorder [] = [] := rfl

@[simp] theorem marks_nil : marks [] = [] := rfl

@[simp] theorem leaves_nil : leaves [] = [] := rfl

theorem isSameTopology_cons (d : Char) (j : ℕ) (k : Char → ℕ) (ds rest' : List Node) :
    isSameTopology (.mk c id count children :: rest) (.mk d j k ds :: rest') = true ↔
      c.toUpper = d.toUpper ∧ isSameTopology children ds = true ∧
        isSameTopology rest rest' = true := by
  rw [isSameTopology, isSameNode]
  simp [and_assoc]

end Unfolding

variable {topo : List Node}

theorem usedLeaf_iff {k : ℕ} : UsedLeaf topo k ↔ (marks topo)[k]? = some true := by
  rw [marks, List.getElem?_map, UsedLeaf]
  cases (preorder topo)[k]? with
  | none => simp
  | some n => simp

/-! ## Shapes -/

@[simp] theorem isSameTopology_refl : ∀ topo : List Node, isSameTopology topo topo = true
  | [] => rfl
  | .mk c id count children :: rest =>
    (isSameTopology_cons ..).mpr ⟨rfl, isSameTopology_refl children, isSameTopology_refl rest⟩

theorem isSameTopology_symm : ∀ {f g : List Node}, isSameTopology f g = true →
    isSameTopology g f = true
  | [], [], _ => rfl
  | .mk .. :: _, .mk .. :: _, h => by
      obtain ⟨hc, hsub, hrest⟩ := (isSameTopology_cons ..).mp h
      exact (isSameTopology_cons ..).mpr
        ⟨hc.symm, isSameTopology_symm hsub, isSameTopology_symm hrest⟩
  | [], .mk .. :: _, h => absurd h nofun
  | .mk .. :: _, [], h => absurd h nofun

theorem isSameTopology_trans : ∀ {f g h : List Node}, isSameTopology f g = true →
    isSameTopology g h = true → isSameTopology f h = true
  | [], [], _, _, h => h
  | .mk .. :: _, .mk .. :: _, .mk .. :: _, hfg, hgh => by
      obtain ⟨hc, hsub, hrest⟩ := (isSameTopology_cons ..).mp hfg
      obtain ⟨hc', hsub', hrest'⟩ := (isSameTopology_cons ..).mp hgh
      exact (isSameTopology_cons ..).mpr ⟨hc.trans hc', isSameTopology_trans hsub hsub',
        isSameTopology_trans hrest hrest'⟩
  | .mk .. :: _, .mk .. :: _, [], _, hgh => absurd hgh nofun
  | [], .mk .. :: _, _, hfg, _ => absurd hfg nofun
  | .mk .. :: _, [], _, hfg, _ => absurd hfg nofun

theorem isSame_of_outline : ∀ {f g : List Node}, outline f = outline g →
    isSameTopology f g = true
  | [], [], _ => rfl
  | .mk .. :: _, .mk .. :: _, h => by
      obtain ⟨hc, -, hsub, hrest⟩ := outline_cons_inj h
      exact (isSameTopology_cons ..).mpr ⟨hc, isSame_of_outline hsub, isSame_of_outline hrest⟩
  | [], .mk .. :: _, h => absurd h nofun
  | .mk .. :: _, [], h => absurd h nofun

theorem isSame_rebuildLevel : ∀ (f : List Node) (i : ℕ),
    isSameTopology (rebuildLevel false i f).1 f = true
  | [], _ => rfl
  | .mk c id count children :: rest, i => by
      rw [rebuildLevel_cons]
      exact (isSameTopology_cons ..).mpr
        ⟨rfl, isSame_rebuildLevel children _, isSame_rebuildLevel rest _⟩

theorem leaves_of_isSame : ∀ {f g : List Node}, isSameTopology f g = true → leaves f = leaves g
  | [], [], _ => rfl
  | .mk c i k cs :: rest, .mk d j l ds :: rest', h => by
      obtain ⟨-, hsub, hrest⟩ := (isSameTopology_cons ..).mp h
      have hempty : cs.isEmpty = ds.isEmpty := by
        cases cs with
        | nil =>
          cases ds with
          | nil => rfl
          | cons m ms => cases hsub
        | cons n ns =>
          cases ds with
          | nil => cases hsub
          | cons m ms => rfl
      rw [leaves_cons, leaves_cons, hempty, leaves_of_isSame hsub, leaves_of_isSame hrest]
  | [], .mk .. :: _, h => absurd h nofun
  | .mk .. :: _, [], h => absurd h nofun

theorem length_marks (topo : List Node) : (marks topo).length = (leaves topo).length := by
  simp [marks, leaves]

theorem length_marks_of_isSame {f g : List Node} (h : isSameTopology f g = true) :
    (marks f).length = (marks g).length := by
  rw [length_marks, length_marks, leaves_of_isSame h]

theorem lettered_of_isSame : ∀ {f g : List Node}, isSameTopology f g = true → Lettered g →
    Lettered f
  | [], [], _, h => h
  | .mk .. :: _, .mk .. :: _, h, hl => by
      obtain ⟨hc, hsub, hrest⟩ := (isSameTopology_cons ..).mp h
      obtain ⟨hd, hds, hrest'⟩ := (lettered_cons ..).mp hl
      exact (lettered_cons ..).mpr ⟨(isAlpha_of_toUpper_eq hc).trans hd,
        lettered_of_isSame hsub hds, lettered_of_isSame hrest hrest'⟩
  | [], .mk .. :: _, h, _ => absurd h nofun
  | .mk .. :: _, [], h, _ => absurd h nofun

/-! ## Marking -/

def markFlag (used flag mask : Bool) : Bool := if mask then used else flag

theorem marks_applyMarkLevel (used : Bool) : ∀ {topo : List Node}, Lettered topo →
    marks (applyMarkLevel used topo) = (leaves topo).map (· && used)
  | [], _ => rfl
  | .mk c id count children :: rest, h => by
      obtain ⟨hc, hchildren, hrest⟩ := (lettered_cons ..).mp h
      have hempty : (applyMarkLevel used children).isEmpty = children.isEmpty := by
        cases children with
        | nil => rfl
        | cons n ns => rfl
      rw [applyMarkLevel_cons, marks_cons, leaves_cons, isLower_setCase used hc, hempty,
        marks_applyMarkLevel used hchildren, marks_applyMarkLevel used hrest]
      simp

theorem marks_of_all_lower : ∀ {topo : List Node}, normal topo = true →
    topo.all (·.c.isLower) = true → marks topo = leaves topo
  | [], _, _ => rfl
  | .mk c id count children :: rest, hnormal, hall => by
      obtain ⟨⟨hcase, hchildren⟩, hrest⟩ := (normal_cons ..).mp hnormal
      simp only [List.all_cons, Bool.and_eq_true, Node.c] at hall
      have hsub : marks children = leaves children := by
        rcases hcase with rfl | heq
        · rfl
        · exact marks_of_all_lower hchildren (heq ▸ hall.1)
      rw [marks_cons, leaves_cons, hsub, marks_of_all_lower hrest hall.2, hall.1, Bool.and_true]

theorem zipWith_leaves (used : Bool) (topo : List Node) :
    List.zipWith (markFlag used) (marks topo) (leaves topo) = (leaves topo).map (· && used) := by
  rw [marks, leaves, List.zipWith_map, List.zipWith_self, List.map_map]
  refine List.map_congr_left fun n _ => ?_
  show markFlag used (n.nodes.isEmpty && n.c.isLower) n.nodes.isEmpty = (n.nodes.isEmpty && used)
  cases n.nodes.isEmpty <;> rfl

/-- **Walking two trees** marks the leaves of the mask. -/
theorem marks_walkPair (used : Bool) : ∀ {f m : List Node}, isSameTopology f m = true →
    Lettered f → normal m = true →
    marks (walkPair used f m) = List.zipWith (markFlag used) (marks f) (marks m)
  | [], [], _, _, _ => rfl
  | .mk c i k cs :: rest, .mk d j l ds :: rest', h, hl, hn => by
      obtain ⟨-, hsub, hrest⟩ := (isSameTopology_cons ..).mp h
      obtain ⟨hc, hcs, hlrest⟩ := (lettered_cons ..).mp hl
      obtain ⟨⟨hcase, hds⟩, hnrest⟩ := (normal_cons ..).mp hn
      have hleaves := leaves_of_isSame hsub
      have hempty : cs.isEmpty = ds.isEmpty := by
        have hlen := congrArg List.isEmpty hleaves
        cases cs with
        | nil =>
          cases ds with
          | nil => rfl
          | cons m ms => cases hsub
        | cons n ns =>
          cases ds with
          | nil => cases hsub
          | cons m ms => rfl
      rw [walkPair_cons, marks_cons c, marks_cons d, List.zipWith_cons_cons,
        List.zipWith_append (length_marks_of_isSame hsub), ← marks_walkPair used hrest hlrest hnrest]
      split_ifs with hd
      · -- the whole subtree is marked
        have hmask : marks ds = leaves ds := by
          rcases hcase with rfl | heq
          · rfl
          · exact marks_of_all_lower hds (heq ▸ hd)
        have happly : (applyMarkLevel used cs).isEmpty = cs.isEmpty := by
          cases cs with
          | nil => rfl
          | cons n ns => rfl
        rw [marks_cons, marks_applyMarkLevel used hcs, hmask, ← hleaves, zipWith_leaves,
          isLower_setCase used hc, happly, hempty, hd]
        cases ds.isEmpty <;> simp [markFlag]
      · have hwalk : (walkPair used cs ds).isEmpty = cs.isEmpty := by
          cases cs with
          | nil => rfl
          | cons n ns =>
            cases ds with
            | nil => rfl
            | cons m ms => rfl
        rw [marks_cons, hwalk, marks_walkPair used hsub hcs hds]
        simp [markFlag, hd]
  | [], .mk .. :: _, h, _, _ => absurd h nofun
  | .mk .. :: _, [], h, _, _ => absurd h nofun

theorem marks_correct : ∀ topo : List Node, marks (correctTopologyUpperLower topo) = marks topo
  | [] => rfl
  | .mk c id count children :: rest => by
      have ihc := marks_correct children
      have ihr := marks_correct rest
      unfold correctTopologyUpperLower at ihc ihr ⊢
      have hempty : (updateLevelCase children).1.isEmpty = children.isEmpty := by
        cases children with
        | nil => rfl
        | cons n ns => rfl
      rw [updateLevelCase_cons]
      split_ifs with h
      · rw [marks_cons, marks_cons, ihr, h]
      · have hne : children.isEmpty = false := by simpa using h
        rw [marks_cons, marks_cons, ihr, ihc, hempty, hne]
        rfl

theorem marks_rebuildLevel : ∀ (topo : List Node) (i : ℕ),
    marks (rebuildLevel false i topo).1 = marks topo
  | [], _ => rfl
  | .mk c id count children :: rest, i => by
      have hempty : (rebuildLevel false (i + 1) children).1.isEmpty = children.isEmpty := by
        cases children with
        | nil => rfl
        | cons n ns => rfl
      rw [rebuildLevel_cons, marks_cons, marks_cons, marks_rebuildLevel children,
        marks_rebuildLevel rest, hempty]
      rfl

/-! ## Cases of inner nodes -/

/-- The flag computed with a level says whether all of it is in use. -/
theorem updateLevelCase_all : ∀ {topo : List Node}, Lettered topo →
    (updateLevelCase topo).1.all (·.c.isLower) = (updateLevelCase topo).2
  | [], _ => rfl
  | .mk c id count children :: rest, h => by
      obtain ⟨hc, -, hrest⟩ := (lettered_cons ..).mp h
      rw [updateLevelCase_cons]
      split_ifs
      · rw [List.all_cons, updateLevelCase_all hrest]
        rfl
      · rw [List.all_cons, updateLevelCase_all hrest, Node.c, isLower_setCase _ hc]

theorem normal_of_lettered : ∀ {topo : List Node}, Lettered topo →
    normal (correctTopologyUpperLower topo) = true
  | [], _ => rfl
  | .mk c id count children :: rest, h => by
      obtain ⟨hc, hchildren, hrest⟩ := (lettered_cons ..).mp h
      have ihc := normal_of_lettered hchildren
      have ihr := normal_of_lettered hrest
      unfold correctTopologyUpperLower at ihc ihr ⊢
      rw [updateLevelCase_cons]
      split_ifs
      · exact (normal_cons ..).mpr ⟨⟨Or.inl rfl, rfl⟩, ihr⟩
      · refine (normal_cons ..).mpr ⟨⟨Or.inr ?_, ihc⟩, ihr⟩
        rw [isLower_setCase _ hc, updateLevelCase_all hchildren]

/-! ## Numbers and counters -/

variable {c : Char}

theorem countNode_eq {children : List Node} {letter : Char}
    (h : ∀ n ∈ children, n.charToCount letter = (preorder [n]).countP (·.c = letter)) :
    countNode c children letter =
      (if c = letter then 1 else 0) + (preorder children).countP (·.c = letter) := by
  rw [countNode]
  congr 1
  induction children with
  | nil => rfl
  | cons n rest ih =>
    obtain ⟨hn, hrest⟩ := List.forall_mem_cons.mp h
    obtain ⟨c, i, k, cs⟩ := n
    rw [List.map_cons, List.sum_cons, hn, ih hrest, preorder_cons, preorder_cons,
      preorder_nil, List.append_nil, ← List.cons_append, List.countP_append]

theorem countP_preorder_singleton (c : Char) (id : ℕ) (count : Char → ℕ) (children : List Node)
    (letter : Char) : (preorder [.mk c id count children]).countP (·.c = letter) =
      (if c = letter then 1 else 0) + (preorder children).countP (·.c = letter) := by
  rw [preorder_cons, preorder_nil, List.append_nil, List.countP_cons, Nat.add_comm]
  congr 1
  show (if decide (c = letter) = true then 1 else 0) = _
  by_cases hc : c = letter
  · rw [if_pos (decide_eq_true hc), if_pos hc]
  · rw [if_neg (by simpa using hc), if_neg hc]

theorem mem_preorder_self {n : Node} (h : n ∈ topo) : n ∈ preorder topo := by
  induction topo with
  | nil => cases h
  | cons m rest ih =>
    obtain ⟨c, i, k, cs⟩ := m
    rw [preorder_cons]
    rcases List.mem_cons.mp h with rfl | h
    · exact .head _
    · exact .tail _ (List.mem_append_right _ (ih h))

/-- **What is numbered again** has the positions for numbers and the counters of its
subtrees. -/
theorem rebuildLevel_spec : ∀ (topo : List Node) (i : ℕ),
    (preorder (rebuildLevel false i topo).1).map Node.id =
        List.range' i (preorder topo).length ∧
      (rebuildLevel false i topo).2 = i + (preorder topo).length ∧
      ∀ n ∈ preorder (rebuildLevel false i topo).1, ∀ letter,
        n.charToCount letter = (preorder [n]).countP (·.c = letter)
  | [], i => ⟨rfl, rfl, List.forall_mem_nil _⟩
  | .mk c id count children :: rest, i => by
      obtain ⟨hids, hnext, hcounts⟩ := rebuildLevel_spec children (i + 1)
      obtain ⟨hids', hnext', hcounts'⟩ := rebuildLevel_spec rest
        (rebuildLevel false (i + 1) children).2
      rw [rebuildLevel_cons]
      dsimp only
      rw [preorder_cons, preorder_cons]
      refine ⟨?_, ?_, ?_⟩
      · rw [List.map_cons, List.map_append, hids, hids', hnext, List.length_cons,
          List.length_append, Nat.add_comm _ 1, Nat.add_comm 1, List.range'_succ,
          ← List.range'_append_1]
        rfl
      · rw [hnext', hnext, List.length_cons, List.length_append]
        omega
      · intro n hn letter
        rcases List.mem_cons.mp hn with rfl | hn
        · rw [countP_preorder_singleton]
          exact countNode_eq fun n hn => hcounts n (mem_preorder_self hn) letter
        · rcases List.mem_append.mp hn with hn | hn
          · exact hcounts n hn letter
          · exact hcounts' n hn letter

theorem length_preorder_rebuild (topo : List Node) (i : ℕ) :
    (preorder (rebuildLevel false i topo).1).length = (preorder topo).length := by
  have h := congrArg List.length (rebuildLevel_spec topo i).1
  rwa [List.length_map, List.length_range'] at h

theorem tallied_rebuild (topo : List Node) : Tallied (rebuild topo) where
  ids := by
    rw [rebuild, length_preorder_rebuild]
    exact (rebuildLevel_spec topo 1).1
  counts := (rebuildLevel_spec topo 1).2.2

/-- Numbering a tree that has the right numbers and counters leaves it as it is. -/
theorem rebuildLevel_of_tallied : ∀ {topo : List Node} {i : ℕ},
    (preorder topo).map Node.id = List.range' i (preorder topo).length →
    (∀ n ∈ preorder topo, ∀ letter,
      n.charToCount letter = (preorder [n]).countP (·.c = letter)) →
    (rebuildLevel false i topo).1 = topo
  | [], _, _, _ => rfl
  | .mk c id count children :: rest, i, hids, hcounts => by
      rw [preorder_cons, List.map_cons, List.map_append, List.length_cons, List.length_append,
        List.range'_succ, ← List.range'_append_1] at hids
      obtain ⟨hid, hids⟩ := List.cons.inj hids
      obtain ⟨hchildren, hrest⟩ := List.append_inj hids (by simp)
      rw [preorder_cons] at hcounts
      obtain ⟨hself, hcounts⟩ := List.forall_mem_cons.mp hcounts
      obtain ⟨hcchildren, hcrest⟩ := List.forall_mem_append.mp hcounts
      have hsub := rebuildLevel_of_tallied hchildren hcchildren
      rw [rebuildLevel_cons, hsub, (rebuildLevel_spec children (i + 1)).2.1,
        rebuildLevel_of_tallied hrest hcrest]
      have hcount : countNode (shownLetter false c) children = count := by
        funext letter
        have h := hself letter
        rw [countP_preorder_singleton] at h
        rw [countNode_eq fun n hn => hcchildren n (mem_preorder_self hn) letter]
        exact h.symm
      rw [hcount]
      obtain rfl : id = i := hid
      rfl

/-! ## Trees known by their marks -/

theorem eq_of_toUpper {d : Char} (hc : c.isAlpha = true) (hupper : c.toUpper = d.toUpper)
    (hlower : c.isLower = d.isLower) : c = d := by
  have hd : d.isAlpha = true := by rwa [← isAlpha_of_toUpper_eq hupper]
  have hset : ∀ {e : Char}, e.isAlpha = true → e = setCase e.isLower e.toUpper := by
    intro e he
    cases hlow : e.isLower with
    | true =>
      have hne : ¬ e.isUpper = true := Char.not_isUpper_of_isLower hlow
      rw [setCase, if_pos rfl, Char.toLower_toUpper_eq_toLower, Char.toLower_eq_of_not_isUpper hne]
    | false =>
      rw [setCase, if_neg (by decide), Char.toUpper_toUpper_eq_toUpper,
        Char.toUpper_eq_of_not_isLower (by rw [hlow]; decide)]
  rw [hset hc, hset hd, hupper, hlower]

/-- **A tree is known** by its shape and the leaves in use. -/
theorem rebuildLevel_ext : ∀ {f g : List Node} (i : ℕ), isSameTopology f g = true →
    Lettered f → normal f = true → normal g = true → marks f = marks g →
    rebuildLevel false i f = rebuildLevel false i g
  | [], [], _, _, _, _, _, _ => rfl
  | .mk c j k cs :: rest, .mk d j' l ds :: rest', i, h, hl, hnf, hng, hmarks => by
      obtain ⟨hupper, hsub, hrest⟩ := (isSameTopology_cons ..).mp h
      obtain ⟨hc, hcs, hlrest⟩ := (lettered_cons ..).mp hl
      obtain ⟨⟨hcasef, hncs⟩, hnrest⟩ := (normal_cons ..).mp hnf
      obtain ⟨⟨hcaseg, hnds⟩, hnrest'⟩ := (normal_cons ..).mp hng
      rw [marks_cons, marks_cons] at hmarks
      obtain ⟨hself, hmarks⟩ := List.cons.inj hmarks
      obtain ⟨hmsub, hmrest⟩ := List.append_inj hmarks (length_marks_of_isSame hsub)
      have hchildren := rebuildLevel_ext (i + 1) hsub hcs hncs hnds hmsub
      have hlower : c.isLower = d.isLower := by
        by_cases hleaf : cs = []
        · obtain rfl : ds = [] := by
            cases ds with
            | nil => rfl
            | cons m ms =>
              rw [hleaf] at hsub
              cases hsub
          rw [hleaf] at hself
          simpa using hself
        · have hleaf' : ds ≠ [] := by
            rintro rfl
            cases cs with
            | nil => exact hleaf rfl
            | cons n ns => cases hsub
          rw [hcasef.resolve_left hleaf, hcaseg.resolve_left hleaf',
            ← all_lower_rebuildLevel cs (i + 1), hchildren, all_lower_rebuildLevel]
      obtain rfl := eq_of_toUpper hc hupper hlower
      rw [rebuildLevel_cons, rebuildLevel_cons, hchildren,
        rebuildLevel_ext _ hrest hlrest hnrest hnrest' hmrest]
  | [], .mk .. :: _, _, h, _, _, _, _ => absurd h nofun
  | .mk .. :: _, [], _, h, _, _, _, _ => absurd h nofun

/-! ## The operations -/

section Operations

variable {t m m' : List Node} {used : Bool}

theorem mark_eq (h : isSameTopology t m = true) : markNodesAsUsedOrUnused t m used =
    rebuild (correctTopologyUpperLower (walkPair used t m)) := by
  unfold markNodesAsUsedOrUnused
  split_ifs with hempty hused
  · obtain rfl : t = [] := by simpa using hempty
    obtain rfl : m = [] := by
      cases m with
      | nil => rfl
      | cons n rest => cases h
    rfl
  · obtain rfl : t = [] := by simpa using hempty
    obtain rfl : m = [] := by
      cases m with
      | nil => rfl
      | cons n rest => cases h
    rfl
  · rw [reparse, parseToTree_toInternalString]

/-- A tree as marking leaves it. -/
structure Settled (topo t : List Node) : Prop where
  same : isSameTopology topo t = true
  normal : normal topo = true
  tallied : Tallied topo

theorem Settled.ext {f g : List Node} (hl : Lettered t) (hf : Settled f t) (hg : Settled g t)
    (hmarks : marks f = marks g) : f = g := by
  have hrebuild := rebuildLevel_ext 1 (isSameTopology_trans hf.same (isSameTopology_symm hg.same))
    (lettered_of_isSame hf.same hl) hf.normal hg.normal hmarks
  rw [← rebuildLevel_of_tallied hf.tallied.ids hf.tallied.counts, hrebuild,
    rebuildLevel_of_tallied hg.tallied.ids hg.tallied.counts]

theorem settled_mark (used : Bool) (hl : Lettered t) (h : isSameTopology t m = true) :
    Settled (markNodesAsUsedOrUnused t m used) t := by
  have hwalk : isSameTopology (walkPair used t m) t = true :=
    isSame_of_outline (outline_walkPair used t m)
  have hcorrect : isSameTopology (correctTopologyUpperLower (walkPair used t m)) t = true :=
    isSameTopology_trans (isSame_of_outline (outline_correct _)) hwalk
  rw [mark_eq h]
  exact
    { same := isSameTopology_trans (isSame_rebuildLevel _ _) hcorrect
      normal := normal_rebuildLevel _ _ (normal_of_lettered (lettered_of_isSame hwalk hl))
      tallied := tallied_rebuild _ }

/-- **The leaves in use** after marking. -/
theorem marks_mark (hl : Lettered t) (h : isSameTopology t m = true) (hm : normal m = true) :
    marks (markNodesAsUsedOrUnused t m used) =
      List.zipWith (markFlag used) (marks t) (marks m) := by
  rw [mark_eq h, rebuild, marks_rebuildLevel, marks_correct, marks_walkPair used h hl hm]

theorem usedLeaf_mark (hl : Lettered t) (h : isSameTopology t m = true) (hm : normal m = true)
    (k : ℕ) : UsedLeaf (markNodesAsUsedOrUnused t m used) k ↔
      if used then UsedLeaf t k ∨ UsedLeaf m k else UsedLeaf t k ∧ ¬ UsedLeaf m k := by
  have hlen := length_marks_of_isSame h
  simp only [usedLeaf_iff, marks_mark hl h hm, List.getElem?_zipWith]
  cases ht : (marks t)[k]? with
  | none =>
    have hm' : (marks m)[k]? = none := by
      rw [List.getElem?_eq_none_iff] at ht ⊢
      omega
    rw [hm']
    cases used <;> simp
  | some flag =>
    cases hm' : (marks m)[k]? with
    | none =>
      rw [List.getElem?_eq_none_iff] at hm'
      have hlt := (List.getElem?_eq_some_iff.mp ht).1
      omega
    | some mask => cases used <;> cases flag <;> cases mask <;> simp [markFlag]

end Operations

/-- **Masks form a set algebra** on the leaves. Marking is union, unmarking is difference,
and the result has the shape of the tree, cases that agree, and the right numbers and
counters. So marking twice is marking once, masks may come in any order, and unmarking
what was marked restores a tree that shared no leaf with the mask. -/
theorem marking_algebra {t m m' : List Node} (hl : Lettered t) (ht : normal t = true)
    (hm : normal m = true) (hm' : normal m' = true) (h : isSameTopology t m = true)
    (h' : isSameTopology t m' = true) (used : Bool) :
    (isSameTopology (markNodesAsUsedOrUnused t m used) t = true ∧
      normal (markNodesAsUsedOrUnused t m used) = true ∧
      Tallied (markNodesAsUsedOrUnused t m used) ∧
      ∀ k, UsedLeaf (markNodesAsUsedOrUnused t m used) k ↔
        if used then UsedLeaf t k ∨ UsedLeaf m k else UsedLeaf t k ∧ ¬ UsedLeaf m k) ∧
    markNodesAsUsedOrUnused (markNodesAsUsedOrUnused t m used) m used =
      markNodesAsUsedOrUnused t m used ∧
    markNodesAsUsedOrUnused (markNodesAsUsedOrUnused t m used) m' used =
      markNodesAsUsedOrUnused (markNodesAsUsedOrUnused t m' used) m used ∧
    (Tallied t → (∀ k, ¬ (UsedLeaf t k ∧ UsedLeaf m k)) →
      markNodesAsUsedOrUnused (markNodesAsUsedOrUnused t m true) m false = t) := by
  have hmark := settled_mark used hl h
  have hmark' := settled_mark used hl h'
  have hsame := isSameTopology_trans hmark.same h
  have hsame' := isSameTopology_trans hmark.same h'
  have hsame'' := isSameTopology_trans hmark'.same h
  have hlm := lettered_of_isSame hmark.same hl
  have hlm' := lettered_of_isSame hmark'.same hl
  have htwice : ∀ {f : List Node}, Settled f t → ∀ {g : List Node} (b : Bool),
      isSameTopology f g = true → Settled (markNodesAsUsedOrUnused f g b) t := by
    intro f hf g b hfg
    have hnew := settled_mark b (lettered_of_isSame hf.same hl) hfg
    exact ⟨isSameTopology_trans hnew.same hf.same, hnew.normal, hnew.tallied⟩
  refine ⟨⟨hmark.same, hmark.normal, hmark.tallied, usedLeaf_mark hl h hm⟩, ?_, ?_, ?_⟩
  · apply Settled.ext hl (htwice hmark used hsame) hmark
    rw [marks_mark hlm hsame hm, marks_mark hl h hm]
    apply List.ext_getElem?
    intro k
    simp only [List.getElem?_zipWith]
    cases (marks t)[k]? with
    | none => rfl
    | some flag =>
      cases (marks m)[k]? with
      | none => rfl
      | some mask => cases mask <;> rfl
  · apply Settled.ext hl (htwice hmark used hsame') (htwice hmark' used hsame'')
    rw [marks_mark hlm hsame' hm', marks_mark hl h hm, marks_mark hlm' hsame'' hm,
      marks_mark hl h' hm']
    apply List.ext_getElem?
    intro k
    simp only [List.getElem?_zipWith]
    cases (marks t)[k]? with
    | none => rfl
    | some flag =>
      cases (marks m)[k]? with
      | none => cases (marks m')[k]? <;> rfl
      | some mask =>
        cases (marks m')[k]? with
        | none => rfl
        | some mask' => cases mask <;> cases mask' <;> rfl
  · intro htally hapart
    have hused := settled_mark true hl h
    have hback := isSameTopology_trans hused.same h
    apply Settled.ext hl (htwice hused false hback) ⟨isSameTopology_refl t, ht, htally⟩
    rw [marks_mark (lettered_of_isSame hused.same hl) hback hm, marks_mark hl h hm]
    apply List.ext_getElem?
    intro k
    have hlen := length_marks_of_isSame h
    have hk := hapart k
    simp only [usedLeaf_iff] at hk
    simp only [List.getElem?_zipWith]
    cases hflag : (marks t)[k]? with
    | none => rfl
    | some flag =>
      cases hmask : (marks m)[k]? with
      | none =>
        rw [List.getElem?_eq_none_iff] at hmask
        have hlt := (List.getElem?_eq_some_iff.mp hflag).1
        omega
      | some mask =>
        rw [hflag, hmask] at hk
        cases flag <;> cases mask
        · rfl
        · rfl
        · rfl
        · exact absurd ⟨rfl, rfl⟩ hk

def unnumberedCore (core first second : Char) : Node :=
  .mk core 0 (fun _ => 0) [.mk first 0 (fun _ => 0) [], .mk second 0 (fun _ => 0) []]

def fourThreads : List Node :=
  rebuild [.mk 'S' 0 (fun _ => 0) [unnumberedCore 'C' 't' 'T', unnumberedCore 'C' 'T' 'T']]

def secondCore : List Node :=
  rebuild [.mk 'S' 0 (fun _ => 0) [unnumberedCore 'C' 'T' 'T', unnumberedCore 'c' 't' 't']]

theorem marking_algebra_secondCore :
    markNodesAsUsedOrUnused (markNodesAsUsedOrUnused fourThreads secondCore true) secondCore
      false = fourThreads := by
  have hlettered : Lettered fourThreads := by
    have hall : (preorder fourThreads).all (·.c.isAlpha) = true := by decide
    exact List.all_eq_true.mp hall
  have hapart : ∀ k < 7, ¬ ((marks fourThreads)[k]? = some true ∧
      (marks secondCore)[k]? = some true) := by decide
  have halgebra := marking_algebra hlettered (by decide) (by decide) (by decide)
    (show isSameTopology fourThreads secondCore = true by decide)
    (show isSameTopology fourThreads secondCore = true by decide) true
  refine halgebra.2.2.2 (tallied_rebuild _) fun k hk => ?_
  rw [usedLeaf_iff, usedLeaf_iff] at hk
  exact hapart k (List.getElem?_eq_some_iff.mp hk.1).1 hk

end ClusterScheduler.Sgeobj
