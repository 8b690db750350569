import ClusterScheduler.Sgeobj.TopologyString

/-!
# Marking topology strings

Marking takes a mask, a topology whose lower case objects are to be marked, and
applies it to another topology of the same host.

* `correctTopologyUpperLower` — an object is in use iff everything in it is.
* `markNodesAsUsedOrUnused` — walk two trees in step.
* `elemMarkNodesAsUsedOrUnused` — the same on the string of a list element.

The abstract view of a topology is its outline together with the set of threads
in use, and the results say that marking is union and difference of these sets.
-/

namespace ClusterScheduler.Sgeobj

def setCase (used : Bool) (c : Char) : Char := if used then c.toLower else c.toUpper

mutual
/-- Bring the case of a node in line with its children, and say whether it is
in use. Leaves keep their letter. -/
def updateNodeCase : Node → Node × Bool
  | .mk c id count children =>
    let sub := updateLevelCase children
    if children.isEmpty then (.mk c id count [], c.isLower)
    else (.mk (setCase sub.2 c) id count sub.1, sub.2)

def updateLevelCase : List Node → List Node × Bool
  | [] => ([], true)
  | n :: rest =>
    let n' := updateNodeCase n
    let rest' := updateLevelCase rest
    (n'.1 :: rest'.1, n'.2 && rest'.2)
end

def correctTopologyUpperLower (topo : List Node) : List Node :=
  (updateLevelCase topo).1

mutual
def applyMark (used : Bool) : Node → Node
  | .mk c id count children =>
    .mk (setCase used c) id count (applyMarkLevel used children)

def applyMarkLevel (used : Bool) : List Node → List Node
  | [] => []
  | n :: rest => applyMark used n :: applyMarkLevel used rest
end

mutual
/-- Apply a mask node: mark the whole subtree if it is lower case, descend
otherwise. -/
def walkPairNode (used : Bool) : Node → Node → Node
  | .mk c id count children, m =>
    if m.c.isLower then
      .mk (setCase used c) id count (applyMarkLevel used children)
    else .mk c id count (walkPair used children m.nodes)

/-- Apply a mask to a level, on the common prefix if the shapes differ. -/
def walkPair (used : Bool) : List Node → List Node → List Node
  | [], _ => []
  | n :: rest, [] => n :: rest
  | n :: rest, m :: ms => walkPairNode used n m :: walkPair used rest ms
end

def reparse (topo : List Node) : List Node := parseToTree (toInternalString topo)

def markNodesAsUsedOrUnused (topo mask : List Node) (used : Bool) : List Node :=
  if topo.isEmpty then
    if used then reparse mask
    else reparse (correctTopologyUpperLower (walkPair used (reparse mask) mask))
  else reparse (correctTopologyUpperLower (walkPair used topo mask))

/-- The string a list element carries after `toUse` is marked in it. `str` is
the string it has, `now` the topology the marking starts from. -/
def elemMarkNodesAsUsedOrUnused (str : Option (List Char)) (now toUse : List Node)
    (used : Bool) : Option (List Char) :=
  if toUse.isEmpty then str
  else if now.isEmpty then
    if used then some (toInternalString (reparse toUse))
    else some (toInternalString (parseToTree (toUnusedInternalTopologyString toUse)))
  else some (toInternalString (markNodesAsUsedOrUnused now toUse used))

/-! ## The abstract view -/

mutual
def threadsNode : Node → List ℕ
  | .mk c id _ children =>
    (if c.toUpper = 'T' then [id] else []) ++ threads children

def threads : List Node → List ℕ
  | [] => []
  | n :: rest => threadsNode n ++ threads rest
end

mutual
def usedThreadsNode : Node → List ℕ
  | .mk c id _ children =>
    (if c = 't' then [id] else []) ++ usedThreads children

def usedThreads : List Node → List ℕ
  | [] => []
  | n :: rest => usedThreadsNode n ++ usedThreads rest
end

mutual
/-- What does not change while objects are marked: letters regardless of case,
numbers and nesting. -/
def outlineNode : Node → Node
  | .mk c id _ children => .mk c.toUpper id (fun _ => 0) (outline children)

def outline : List Node → List Node
  | [] => []
  | n :: rest => outlineNode n :: outline rest
end

mutual
def sameOutlineNode : Node → Node → Bool
  | .mk c i _ cs, .mk d j _ ds =>
    c.toUpper = d.toUpper && i = j && sameOutline cs ds

def sameOutline : List Node → List Node → Bool
  | [], [] => true
  | n :: ns, m :: ms => sameOutlineNode n m && sameOutline ns ms
  | _, _ => false
end

mutual
def regularNode : Node → Bool
  | .mk c _ _ children =>
    c.isAlpha && (children.isEmpty || c.toUpper != 'T') && regular children

def regular : List Node → Bool
  | [] => true
  | n :: rest => regularNode n && regular rest
end

mutual
/-- An object with something inside it is in use iff all of that is. -/
def normalNode : Node → Bool
  | .mk c _ _ children =>
    (children.isEmpty || c.isLower == children.all (·.c.isLower)) &&
      normal children

def normal : List Node → Bool
  | [] => true
  | n :: rest => normalNode n && normal rest
end

section Unfolding

variable (c : Char) (id : ℕ) (count : Char → ℕ) (children rest : List Node)

@[simp] theorem updateLevelCase_nil : updateLevelCase [] = ([], true) := rfl

@[simp] theorem applyMarkLevel_cons (used : Bool) :
    applyMarkLevel used (.mk c id count children :: rest) =
      .mk (setCase used c) id count (applyMarkLevel used children) ::
        applyMarkLevel used rest := rfl

@[simp] theorem threads_nil : threads [] = [] := rfl

@[simp] theorem threads_cons :
    threads (.mk c id count children :: rest) =
      ((if c.toUpper = 'T' then [id] else []) ++ threads children) ++
        threads rest := rfl

@[simp] theorem usedThreads_nil : usedThreads [] = [] := rfl

@[simp] theorem usedThreads_cons :
    usedThreads (.mk c id count children :: rest) =
      ((if c = 't' then [id] else []) ++ usedThreads children) ++
        usedThreads rest := rfl

@[simp] theorem outline_nil : outline [] = [] := rfl

@[simp] theorem outline_cons :
    outline (.mk c id count children :: rest) =
      .mk c.toUpper id (fun _ => 0) (outline children) :: outline rest := rfl

@[simp] theorem regular_nil : regular [] = true := rfl

@[simp] theorem regular_cons :
    regular (.mk c id count children :: rest) = true ↔
      (c.isAlpha ∧ (children = [] ∨ c.toUpper ≠ 'T') ∧ regular children) ∧
        regular rest := by
  rw [regular, regularNode]
  simp [and_assoc]

@[simp] theorem normal_nil : normal [] = true := rfl

@[simp] theorem normal_cons :
    normal (.mk c id count children :: rest) = true ↔
      ((children = [] ∨ c.isLower = children.all (·.c.isLower)) ∧
        normal children) ∧ normal rest := by
  rw [normal, normalNode]
  simp

end Unfolding

/-! ## Cases of letters -/

theorem toUpper_setCase (used : Bool) (c : Char) : (setCase used c).toUpper = c.toUpper := by
  cases used <;> simp [setCase]

variable {c d : Char}

theorem isAlpha_of_toUpper_eq (h : c.toUpper = d.toUpper) : c.isAlpha = d.isAlpha := by
  rw [← Char.isAlpha_toUpper_eq_isAlpha c, h, Char.isAlpha_toUpper_eq_isAlpha]

theorem isLower_setCase (used : Bool) (h : c.isAlpha = true) : (setCase used c).isLower = used := by
  cases used <;> simp [setCase, h]

theorem eq_t_iff : c = 't' ↔ c.toUpper = 'T' ∧ c.isLower = true := by
  constructor
  · rintro rfl
    decide
  · rintro ⟨hT, hlow⟩
    have hne : ¬ c.isUpper = true := Char.not_isUpper_of_isLower hlow
    calc c = c.toLower := (Char.toLower_eq_of_not_isUpper hne).symm
      _ = c.toUpper.toLower := (Char.toLower_toUpper_eq_toLower c).symm
      _ = 't' := by rw [hT]; decide

/-! ## Threads and outlines -/

theorem self_used_subset (c : Char) (id : ℕ) :
    (if c = 't' then [id] else []) ⊆ if c.toUpper = 'T' then [id] else [] := by
  by_cases hc : c = 't'
  · rw [if_pos hc, if_pos (eq_t_iff.mp hc).1]
    exact List.Subset.refl _
  · rw [if_neg hc]
    exact List.nil_subset _

theorem usedThreads_subset :
    ∀ topo : List Node, usedThreads topo ⊆ threads topo
  | [] => List.Subset.refl _
  | .mk c id count children :: rest => by
      have h1 := usedThreads_subset children
      have h2 := usedThreads_subset rest
      rw [usedThreads_cons, threads_cons]
      intro x hx
      simp only [List.mem_append] at hx ⊢
      rcases hx with (hx | hx) | hx
      · exact Or.inl (Or.inl (self_used_subset c id hx))
      · exact Or.inl (Or.inr (h1 hx))
      · exact Or.inr (h2 hx)

theorem threads_outline : ∀ topo : List Node, threads (outline topo) = threads topo
  | [] => rfl
  | .mk c id count children :: rest => by
      rw [outline_cons, threads_cons, threads_cons, threads_outline children,
        threads_outline rest, Char.toUpper_toUpper_eq_toUpper]

variable {f g : List Node}

theorem threads_eq_of_outline (h : outline f = outline g) : threads f = threads g := by
  rw [← threads_outline f, h, threads_outline]

theorem outline_isEmpty (topo : List Node) : (outline topo).isEmpty = topo.isEmpty := by
  cases topo with
  | nil => rfl
  | cons n rest => rfl

theorem isEmpty_of_outline (h : outline f = outline g) : f.isEmpty = g.isEmpty := by
  rw [← outline_isEmpty f, h, outline_isEmpty]

theorem regular_outline : ∀ topo : List Node, regular (outline topo) = regular topo
  | [] => rfl
  | .mk c id count children :: rest => by
      rw [Bool.eq_iff_iff, outline_cons, regular_cons, regular_cons,
        regular_outline children, regular_outline rest,
        Char.isAlpha_toUpper_eq_isAlpha, Char.toUpper_toUpper_eq_toUpper]
      simp only [← List.isEmpty_iff, outline_isEmpty]

theorem regular_of_outline (h : outline f = outline g) : regular f = regular g := by
  rw [← regular_outline f, h, regular_outline]

theorem outline_cons_inj {i j : ℕ} {k l : Char → ℕ} {cs ds rest rest' : List Node}
    (h : outline (.mk c i k cs :: rest) = outline (.mk d j l ds :: rest')) :
    c.toUpper = d.toUpper ∧ i = j ∧ outline cs = outline ds ∧
      outline rest = outline rest' := by
  simpa [and_assoc] using h

theorem sameOutline_iff :
    ∀ f g : List Node, sameOutline f g = true ↔ outline f = outline g
  | [], [] => by simp [sameOutline]
  | [], .mk d j l ds :: rest' => by simp [sameOutline]
  | .mk c i k cs :: rest, [] => by simp [sameOutline]
  | .mk c i k cs :: rest, .mk d j l ds :: rest' => by
      rw [sameOutline, sameOutlineNode]
      simp only [Bool.and_eq_true, decide_eq_true_eq, sameOutline_iff cs ds,
        sameOutline_iff rest rest', outline_cons, List.cons.injEq, Node.mk.injEq,
        true_and, and_assoc]

instance (f g : List Node) : Decidable (outline f = outline g) :=
  decidable_of_iff _ (sameOutline_iff f g)

/-! ## Marking a whole subtree -/

theorem outline_applyMarkLevel (used : Bool) :
    ∀ topo : List Node, outline (applyMarkLevel used topo) = outline topo
  | [] => rfl
  | .mk c id count children :: rest => by
      rw [applyMarkLevel_cons, outline_cons, outline_cons, toUpper_setCase,
        outline_applyMarkLevel used children, outline_applyMarkLevel used rest]

theorem usedThreads_applyMarkLevel_false :
    ∀ topo : List Node, usedThreads (applyMarkLevel false topo) = []
  | [] => rfl
  | .mk c id count children :: rest => by
      have hc : ¬ setCase false c = 't' := by
        intro h
        have := (eq_t_iff.mp h).2
        simp [setCase] at this
      rw [applyMarkLevel_cons, usedThreads_cons, if_neg hc,
        usedThreads_applyMarkLevel_false children, usedThreads_applyMarkLevel_false rest]
      rfl

theorem setCase_true_eq_t : setCase true c = 't' ↔ c.toUpper = 'T' := by
  rw [eq_t_iff, toUpper_setCase]
  constructor
  · exact And.left
  · intro h
    refine ⟨h, ?_⟩
    have halpha : c.isAlpha = true := by
      rw [← Char.isAlpha_toUpper_eq_isAlpha, h]
      decide
    exact isLower_setCase true halpha

theorem usedThreads_applyMarkLevel_true :
    ∀ topo : List Node, usedThreads (applyMarkLevel true topo) = threads topo
  | [] => rfl
  | .mk c id count children :: rest => by
      rw [applyMarkLevel_cons, usedThreads_cons, threads_cons,
        usedThreads_applyMarkLevel_true children, usedThreads_applyMarkLevel_true rest]
      simp only [setCase_true_eq_t]

theorem usedThreads_of_all_lower :
    ∀ topo : List Node, normal topo = true →
      topo.all (·.c.isLower) = true → usedThreads topo = threads topo
  | [], _, _ => rfl
  | .mk c id count children :: rest, hn, hl => by
      obtain ⟨⟨hcase, hnc⟩, hnr⟩ := (normal_cons ..).mp hn
      simp only [List.all_cons, Bool.and_eq_true] at hl
      have hlow : c.isLower = true := hl.1
      have hsub : usedThreads children = threads children := by
        rcases hcase with rfl | hall
        · rfl
        · exact usedThreads_of_all_lower children hnc (hall ▸ hlow)
      rw [usedThreads_cons, threads_cons, hsub, usedThreads_of_all_lower rest hnr hl.2]
      simp only [eq_t_iff, hlow, and_true]

/-! ## Walking two trees in step -/

theorem walkPair_cons (used : Bool) (c d : Char) (i j : ℕ) (k l : Char → ℕ)
    (cs ds rest rest' : List Node) :
    walkPair used (.mk c i k cs :: rest) (.mk d j l ds :: rest') =
      (if d.isLower then .mk (setCase used c) i k (applyMarkLevel used cs)
      else .mk c i k (walkPair used cs ds)) :: walkPair used rest rest' := rfl

theorem outline_walkPair (used : Bool) :
    ∀ f m : List Node, outline (walkPair used f m) = outline f
  | [], _ => rfl
  | _ :: _, [] => rfl
  | .mk c i k cs :: rest, .mk d j l ds :: rest' => by
      rw [walkPair_cons]
      split_ifs with hd
      · rw [outline_cons, outline_cons, toUpper_setCase, outline_applyMarkLevel,
          outline_walkPair used rest rest']
      · rw [outline_cons, outline_cons, outline_walkPair used cs ds,
          outline_walkPair used rest rest']

theorem usedThreads_of_lower {j : ℕ} {l : Char → ℕ}
    {ds rest : List Node} (hn : normal (.mk d j l ds :: rest) = true)
    (hd : d.isLower = true) : usedThreads ds = threads ds := by
  obtain ⟨⟨hcase, hnc⟩, -⟩ := (normal_cons ..).mp hn
  rcases hcase with rfl | hall
  · rfl
  · exact usedThreads_of_all_lower ds hnc (hall ▸ hd)

theorem mem_usedThreads_walkPair_true {x : ℕ} :
    ∀ {f m : List Node}, outline f = outline m → normal m = true →
      (x ∈ usedThreads (walkPair true f m) ↔ x ∈ usedThreads f ∨ x ∈ usedThreads m)
  | [], m, h, _ => by
      obtain rfl : m = [] := by
        cases m with
        | nil => rfl
        | cons n rest => simpa using isEmpty_of_outline h
      simp [walkPair]
  | .mk c i k cs :: rest, [], h, _ => by simpa using isEmpty_of_outline h
  | .mk c i k cs :: rest, .mk d j l ds :: rest', h, hn => by
      obtain ⟨hc, rfl, hsub, hrest⟩ := outline_cons_inj h
      obtain ⟨⟨-, hnc⟩, hnr⟩ := (normal_cons ..).mp hn
      have ihr := mem_usedThreads_walkPair_true (x := x) hrest hnr
      rw [walkPair_cons]
      split_ifs with hd
      · -- the mask marks the whole subtree
        have hds := usedThreads_of_lower hn hd
        have hcs : x ∈ usedThreads cs → x ∈ threads ds := fun hx =>
          threads_eq_of_outline hsub ▸ usedThreads_subset cs hx
        have hself := @self_used_subset c i x
        have hdt : d = 't' ↔ c.toUpper = 'T' := by
          rw [eq_t_iff, hc]
          exact and_iff_left hd
        simp only [usedThreads_cons, usedThreads_applyMarkLevel_true,
          setCase_true_eq_t, threads_eq_of_outline hsub, List.mem_append, ihr, hds, hdt]
        grind
      · have ihc := mem_usedThreads_walkPair_true (x := x) hsub hnc
        have hdt : ¬ d = 't' := fun hdt => hd (eq_t_iff.mp hdt).2
        simp only [usedThreads_cons, List.mem_append, ihr, ihc, if_neg hdt, List.not_mem_nil]
        grind

/-- Marking as unused is difference. The numbers have to be distinct, or a mask
could clear a thread of the same number elsewhere. -/
theorem mem_usedThreads_walkPair_false {x : ℕ} :
    ∀ {f m : List Node}, outline f = outline m → normal m = true →
      (threads f).Nodup →
      (x ∈ usedThreads (walkPair false f m) ↔ x ∈ usedThreads f ∧ x ∉ usedThreads m)
  | [], m, _, _, _ => by simp [walkPair]
  | .mk c i k cs :: rest, [], h, _, _ => by simpa using isEmpty_of_outline h
  | .mk c i k cs :: rest, .mk d j l ds :: rest', h, hn, hnd => by
      obtain ⟨hc, rfl, hsub, hrest⟩ := outline_cons_inj h
      obtain ⟨⟨-, hnc⟩, hnr⟩ := (normal_cons ..).mp hn
      rw [threads_cons, List.nodup_append', List.nodup_append'] at hnd
      obtain ⟨⟨-, hndc, hd1⟩, hndr, hd2⟩ := hnd
      have ihr := mem_usedThreads_walkPair_false (x := x) hrest hnr hndr
      -- threads of one part are not threads of another
      have huc : x ∈ usedThreads cs → x ∈ threads cs := @usedThreads_subset cs x
      have hur : x ∈ usedThreads rest → x ∈ threads rest :=
        @usedThreads_subset rest x
      have hmc : x ∈ usedThreads ds → x ∈ threads cs := fun hx =>
        threads_eq_of_outline hsub ▸ usedThreads_subset ds hx
      have hmr : x ∈ usedThreads rest' → x ∈ threads rest := fun hx =>
        threads_eq_of_outline hrest ▸ usedThreads_subset rest' hx
      have hself := @self_used_subset c i x
      have hmself : (x ∈ if d = 't' then [i] else []) →
          x ∈ if c.toUpper = 'T' then [i] else [] := hc ▸ @self_used_subset d i x
      have hdis1 : (x ∈ if c.toUpper = 'T' then [i] else []) → x ∉ threads cs :=
        fun h1 h2 => hd1 h1 h2
      have hdis2 : (x ∈ if c.toUpper = 'T' then [i] else []) → x ∉ threads rest :=
        fun h1 h2 => hd2 (List.mem_append_left _ h1) h2
      have hdis3 : x ∈ threads cs → x ∉ threads rest :=
        fun h1 h2 => hd2 (List.mem_append_right _ h1) h2
      rw [walkPair_cons]
      split_ifs with hd
      · -- the mask clears the whole subtree
        have hds : usedThreads ds = threads cs :=
          (usedThreads_of_lower hn hd).trans (threads_eq_of_outline hsub).symm
        have hct : ¬ setCase false c = 't' := by
          intro hct
          have := (eq_t_iff.mp hct).2
          simp [setCase] at this
        have hdt : d = 't' ↔ c.toUpper = 'T' := by
          rw [eq_t_iff, hc]
          exact and_iff_left hd
        simp only [usedThreads_cons, usedThreads_applyMarkLevel_false, if_neg hct,
          List.nil_append, List.mem_append, ihr, hds, hdt]
        grind
      · have ihc := mem_usedThreads_walkPair_false (x := x) hsub hnc hndc
        have hdt : ¬ d = 't' := fun hdt => hd (eq_t_iff.mp hdt).2
        simp only [usedThreads_cons, List.mem_append, ihr, ihc, if_neg hdt, List.not_mem_nil]
        grind

/-! ## Bringing the cases in line -/

theorem updateLevelCase_cons (c : Char) (id : ℕ) (count : Char → ℕ) (children rest : List Node) :
    updateLevelCase (.mk c id count children :: rest) =
      if children = [] then
        (.mk c id count [] :: (updateLevelCase rest).1, c.isLower && (updateLevelCase rest).2)
      else (.mk (setCase (updateLevelCase children).2 c) id count
            (updateLevelCase children).1 :: (updateLevelCase rest).1,
          (updateLevelCase children).2 && (updateLevelCase rest).2) := by
  rw [updateLevelCase, updateNodeCase]
  cases children <;> simp

theorem outline_correct :
    ∀ topo : List Node, outline (correctTopologyUpperLower topo) = outline topo
  | [] => rfl
  | .mk c id count children :: rest => by
      have ihc := outline_correct children
      have ihr := outline_correct rest
      unfold correctTopologyUpperLower at ihc ihr ⊢
      rw [updateLevelCase_cons]
      split_ifs with h
      · rw [outline_cons, outline_cons, ihr, h]
      · rw [outline_cons, outline_cons, toUpper_setCase, ihc, ihr]

/-- Only objects with something inside change their letter, so no thread does. -/
theorem usedThreads_correct :
    ∀ topo : List Node, regular topo = true →
      usedThreads (correctTopologyUpperLower topo) = usedThreads topo
  | [], _ => rfl
  | .mk c id count children :: rest, hreg => by
      obtain ⟨⟨-, hT, hrc⟩, hrr⟩ := (regular_cons ..).mp hreg
      have ihc := usedThreads_correct children hrc
      have ihr := usedThreads_correct rest hrr
      unfold correctTopologyUpperLower at ihc ihr ⊢
      rw [updateLevelCase_cons]
      split_ifs with h
      · rw [usedThreads_cons, usedThreads_cons, ihr, h]
      · have hne := hT.resolve_left h
        have h1 : ¬ setCase (updateLevelCase children).2 c = 't' := fun ht =>
          hne (toUpper_setCase _ c ▸ (eq_t_iff.mp ht).1)
        have h2 : ¬ c = 't' := fun ht => hne (eq_t_iff.mp ht).1
        rw [usedThreads_cons, usedThreads_cons, ihc, ihr, if_neg h1, if_neg h2]

/-- The flag computed with a level says whether all of it is in use. -/
theorem updateLevelCase_flag :
    ∀ topo : List Node, regular topo = true →
      (updateLevelCase topo).1.all (·.c.isLower) = (updateLevelCase topo).2
  | [], _ => rfl
  | .mk c id count children :: rest, hreg => by
      obtain ⟨⟨halpha, -, -⟩, hrr⟩ := (regular_cons ..).mp hreg
      rw [updateLevelCase_cons]
      split_ifs with h
      · rw [List.all_cons, updateLevelCase_flag rest hrr]
        rfl
      · rw [List.all_cons, updateLevelCase_flag rest hrr, Node.c, isLower_setCase _ halpha]

theorem normal_correct :
    ∀ topo : List Node, regular topo = true →
      normal (correctTopologyUpperLower topo) = true
  | [], _ => rfl
  | .mk c id count children :: rest, hreg => by
      obtain ⟨⟨halpha, -, hrc⟩, hrr⟩ := (regular_cons ..).mp hreg
      have ihc := normal_correct children hrc
      have ihr := normal_correct rest hrr
      unfold correctTopologyUpperLower at ihc ihr ⊢
      rw [updateLevelCase_cons]
      split_ifs with h
      · exact (normal_cons ..).mpr ⟨⟨Or.inl rfl, rfl⟩, ihr⟩
      · refine (normal_cons ..).mpr ⟨⟨Or.inr ?_, ihc⟩, ihr⟩
        rw [isLower_setCase _ halpha, updateLevelCase_flag children hrc]

/-! ## Numbering again -/

theorem rebuildLevel_cons (unused : Bool) (i : ℕ) (c : Char) (id : ℕ)
    (count : Char → ℕ) (children rest : List Node) :
    rebuildLevel unused i (.mk c id count children :: rest) =
      (.mk (shownLetter unused c) i (countNode (shownLetter unused c)
            (rebuildLevel unused (i + 1) children).1) (rebuildLevel unused (i + 1) children).1 ::
        (rebuildLevel unused (rebuildLevel unused (i + 1) children).2 rest).1,
        (rebuildLevel unused (rebuildLevel unused (i + 1) children).2 rest).2) := rfl

theorem toUpper_shownLetter (unused : Bool) (c : Char) :
    (shownLetter unused c).toUpper = c.toUpper := by
  cases unused <;> simp [shownLetter]

theorem outline_rebuildLevel_congr {u v : Bool} :
    ∀ {f g : List Node} (i : ℕ), outline f = outline g →
      outline (rebuildLevel u i f).1 = outline (rebuildLevel v i g).1 ∧
        (rebuildLevel u i f).2 = (rebuildLevel v i g).2
  | [], g, i, h => by
      obtain rfl : g = [] := List.isEmpty_iff.mp (isEmpty_of_outline h).symm
      exact ⟨rfl, rfl⟩
  | .mk c id count children :: rest, [], i, h => by
      simpa using isEmpty_of_outline h
  | .mk c id count children :: rest, .mk d jd cnt ds :: rest', i, h => by
      obtain ⟨hc, -, hsub, hrest⟩ := outline_cons_inj h
      obtain ⟨hs1, hs2⟩ := outline_rebuildLevel_congr (u := u) (v := v) (i + 1) hsub
      obtain ⟨hr1, hr2⟩ := outline_rebuildLevel_congr (u := u) (v := v)
        (rebuildLevel v (i + 1) ds).2 hrest
      rw [rebuildLevel_cons, rebuildLevel_cons, hs2]
      refine ⟨?_, hr2⟩
      rw [outline_cons, outline_cons, toUpper_shownLetter, toUpper_shownLetter, hc, hs1, hr1]

/-- Numbers given out by one pass are distinct and lie in its range. -/
theorem threads_rebuildLevel {u : Bool} :
    ∀ (f : List Node) (i : ℕ), i ≤ (rebuildLevel u i f).2 ∧
      (∀ x ∈ threads (rebuildLevel u i f).1, i ≤ x ∧ x < (rebuildLevel u i f).2) ∧
      (threads (rebuildLevel u i f).1).Nodup
  | [], i => ⟨Nat.le_refl i, by simp [rebuildLevel], List.nodup_nil⟩
  | .mk c id count children :: rest, i => by
      obtain ⟨hs1, hs2, hs3⟩ := threads_rebuildLevel (u := u) children (i + 1)
      obtain ⟨hr1, hr2, hr3⟩ := threads_rebuildLevel (u := u) rest
        (rebuildLevel u (i + 1) children).2
      rw [rebuildLevel_cons]
      have hself : ∀ x ∈ (if (shownLetter u c).toUpper = 'T' then [i] else []),
          x = i := by
        intro x hx
        split_ifs at hx with hT
        · exact List.mem_singleton.mp hx
        · cases hx
      refine ⟨by omega, ?_, ?_⟩
      · intro x hx
        rw [threads_cons, List.mem_append, List.mem_append] at hx
        rcases hx with (hx | hx) | hx
        · have := hself x hx
          omega
        · have := hs2 x hx
          omega
        · have := hr2 x hx
          omega
      · rw [threads_cons, List.nodup_append', List.nodup_append']
        refine ⟨⟨by split_ifs <;> simp, hs3, ?_⟩, hr3, ?_⟩
        · intro x hx hx'
          have := hself x hx
          have := hs2 x hx'
          omega
        · intro x hx hx'
          have := hr2 x hx'
          rcases List.mem_append.mp hx with hx | hx
          · have := hself x hx
            omega
          · have := hs2 x hx
            omega

/-- Numbering a tree that is already numbered keeps its threads in use. -/
theorem usedThreads_rebuildLevel :
    ∀ (f : List Node) (i : ℕ), outline (rebuildLevel false i f).1 = outline f →
      usedThreads (rebuildLevel false i f).1 = usedThreads f
  | [], _, _ => rfl
  | .mk c id count children :: rest, i, h => by
      rw [rebuildLevel_cons] at h ⊢
      obtain ⟨-, rfl, hsub, hrest⟩ := outline_cons_inj h
      rw [usedThreads_cons, usedThreads_cons, usedThreads_rebuildLevel _ _ hsub,
        usedThreads_rebuildLevel _ _ hrest]
      rfl

theorem usedThreads_rebuildLevel_unused :
    ∀ (f : List Node) (i : ℕ), usedThreads (rebuildLevel true i f).1 = []
  | [], _ => rfl
  | .mk c id count children :: rest, i => by
      have hc : ¬ shownLetter true c = 't' := by
        intro h
        have := (eq_t_iff.mp h).2
        simp [shownLetter] at this
      rw [rebuildLevel_cons, usedThreads_cons, if_neg hc,
        usedThreads_rebuildLevel_unused, usedThreads_rebuildLevel_unused]
      rfl

theorem all_lower_rebuildLevel :
    ∀ (f : List Node) (i : ℕ), (rebuildLevel false i f).1.all (·.c.isLower) =
      f.all (·.c.isLower)
  | [], _ => rfl
  | .mk c id count children :: rest, i => by
      rw [rebuildLevel_cons, List.all_cons, List.all_cons, all_lower_rebuildLevel rest]
      rfl

theorem rebuildLevel_eq_nil_iff {u : Bool} {i : ℕ} : (rebuildLevel u i f).1 = [] ↔ f = [] := by
  cases f with
  | nil => simp [rebuildLevel]
  | cons n rest => simp [rebuildLevel]

theorem normal_rebuildLevel :
    ∀ (f : List Node) (i : ℕ), normal f = true →
      normal (rebuildLevel false i f).1 = true
  | [], _, _ => rfl
  | .mk c id count children :: rest, i, h => by
      obtain ⟨⟨hcase, hnc⟩, hnr⟩ := (normal_cons ..).mp h
      rw [rebuildLevel_cons]
      refine (normal_cons ..).mpr
        ⟨⟨?_, normal_rebuildLevel _ _ hnc⟩, normal_rebuildLevel _ _ hnr⟩
      rw [rebuildLevel_eq_nil_iff, all_lower_rebuildLevel]
      exact hcase

theorem normal_rebuildLevel_unused :
    ∀ (f : List Node) (i : ℕ), normal (rebuildLevel true i f).1 = true
  | [], _ => rfl
  | .mk c id count children :: rest, i => by
      rw [rebuildLevel_cons]
      refine (normal_cons ..).mpr
        ⟨⟨?_, normal_rebuildLevel_unused _ _⟩, normal_rebuildLevel_unused _ _⟩
      cases children with
      | nil => exact Or.inl rfl
      | cons n ns =>
        obtain ⟨d, j, l, ds⟩ := n
        right
        rw [rebuildLevel_cons, List.all_cons, Node.c]
        simp [shownLetter]

theorem outline_rebuild_parseNodes :
    ∀ (fuel : ℕ) (s : List Char) (i : ℕ), outline (rebuildLevel false i (parseNodes fuel s i).1).1 =
          outline (parseNodes fuel s i).1 ∧
        (rebuildLevel false i (parseNodes fuel s i).1).2 = (parseNodes fuel s i).2.2 := by
  intro fuel
  induction fuel with
  | zero => exact fun s i => ⟨rfl, rfl⟩
  | succ fuel ih =>
    intro s i
    cases s with
    | nil => exact ⟨rfl, rfl⟩
    | cons ch s =>
      simp only [parseNodes.eq_def (fuel + 1)]
      split
      · next letter s' =>
        obtain ⟨hs1, hs2⟩ := ih (skipCharacteristics s') (i + 1)
        obtain ⟨hr1, hr2⟩ := ih
          (parseNodes fuel (skipCharacteristics s') (i + 1)).2.1
          (parseNodes fuel (skipCharacteristics s') (i + 1)).2.2
        rw [rebuildLevel_cons, hs2, outline_cons, outline_cons, hs1, hr1]
        exact ⟨rfl, hr2⟩
      · exact ⟨rfl, rfl⟩
      · exact ih _ i

/-! ## Topologies of one host -/

/-- The topology of a host: regular and numbered in preorder, as the parser
leaves it. -/
structure HostTopology where
  nodes : List Node
  regular : regular nodes = true
  numbered : outline (rebuild nodes) = outline nodes

namespace HostTopology

variable (σ : HostTopology)

def ofString (topology : List Char)
    (h : Sgeobj.regular (parseToTree topology) = true) : HostTopology where
  nodes := parseToTree topology
  regular := h
  numbered := (outline_rebuild_parseNodes _ topology 1).1

theorem nodup_threads : (threads σ.nodes).Nodup := by
  rw [← threads_eq_of_outline σ.numbered]
  exact (threads_rebuildLevel σ.nodes 1).2.2

/-- A topology of this host with consistent cases. -/
structure Mask (topo : List Node) : Prop where
  outline : outline topo = outline σ.nodes
  normal : normal topo = true

variable {σ} {topo mask : List Node}

theorem outline_rebuildLevel {u : Bool} (h : Sgeobj.outline topo = Sgeobj.outline σ.nodes) :
    Sgeobj.outline (rebuildLevel u 1 topo).1 = Sgeobj.outline σ.nodes :=
  (outline_rebuildLevel_congr 1 h).1.trans σ.numbered

theorem Mask.reparse (h : σ.Mask topo) : σ.Mask (reparse topo) := by
  rw [Sgeobj.reparse, parseToTree_toInternalString]
  exact ⟨outline_rebuildLevel h.outline, normal_rebuildLevel _ _ h.normal⟩

theorem usedThreads_reparse (h : Sgeobj.outline topo = Sgeobj.outline σ.nodes) :
    usedThreads (Sgeobj.reparse topo) = usedThreads topo := by
  rw [Sgeobj.reparse, parseToTree_toInternalString, rebuild]
  exact usedThreads_rebuildLevel _ _ ((outline_rebuildLevel h).trans h.symm)

theorem usedThreads_eq_nil (h : σ.Mask topo) (hempty : σ.nodes = []) : usedThreads topo = [] := by
  have : topo.isEmpty = true := by rw [isEmpty_of_outline h.outline, hempty]; rfl
  rw [List.isEmpty_iff.mp this]
  rfl

theorem nodes_eq_nil (h : σ.Mask mask) (hempty : mask = []) : σ.nodes = [] := by
  rw [← List.isEmpty_iff, ← isEmpty_of_outline h.outline, hempty]
  rfl

/-! ## Marking is union and difference -/

/-- Both cases of `markNodesAsUsedOrUnused` that walk end the same way. -/
theorem Mask.walk (h : Sgeobj.outline topo = Sgeobj.outline σ.nodes) (used : Bool) :
    σ.Mask (Sgeobj.reparse (correctTopologyUpperLower (walkPair used topo mask))) := by
  have hw : Sgeobj.outline (walkPair used topo mask) = Sgeobj.outline σ.nodes :=
    (outline_walkPair used topo mask).trans h
  have hreg : Sgeobj.regular (walkPair used topo mask) = true :=
    (regular_of_outline hw).trans σ.regular
  exact Mask.reparse
    ⟨(outline_correct _).trans hw, normal_correct _ hreg⟩

theorem usedThreads_walk (h : Sgeobj.outline topo = Sgeobj.outline σ.nodes) (used : Bool) :
    usedThreads (Sgeobj.reparse (correctTopologyUpperLower (walkPair used topo mask))) =
      usedThreads (walkPair used topo mask) := by
  have hw : Sgeobj.outline (walkPair used topo mask) = Sgeobj.outline σ.nodes :=
    (outline_walkPair used topo mask).trans h
  rw [usedThreads_reparse ((outline_correct _).trans hw), usedThreads_correct]
  exact (regular_of_outline hw).trans σ.regular

theorem Mask.mark (h : topo = [] ∨ σ.Mask topo) (hm : σ.Mask mask) (used : Bool) :
    σ.Mask (markNodesAsUsedOrUnused topo mask used) := by
  unfold markNodesAsUsedOrUnused
  split_ifs with hempty hused
  · exact hm.reparse
  · exact Mask.walk hm.reparse.outline used
  · rcases h with rfl | h
    · exact absurd rfl hempty
    · exact Mask.walk h.outline used

theorem mem_usedThreads_mark_true (h : topo = [] ∨ σ.Mask topo) (hm : σ.Mask mask) {x : ℕ} :
    x ∈ usedThreads (markNodesAsUsedOrUnused topo mask true) ↔
      x ∈ usedThreads topo ∨ x ∈ usedThreads mask := by
  unfold markNodesAsUsedOrUnused
  by_cases hempty : topo = []
  · subst hempty
    rw [List.isEmpty_nil, if_pos rfl, if_pos rfl, usedThreads_reparse hm.outline]
    simp
  · have ht := h.resolve_left hempty
    rw [if_neg (by simpa using hempty), usedThreads_walk ht.outline]
    exact mem_usedThreads_walkPair_true (ht.outline.trans hm.outline.symm) hm.normal

theorem mem_usedThreads_mark_false (h : σ.Mask topo) (hm : σ.Mask mask) (hne : topo ≠ []) {x : ℕ} :
    x ∈ usedThreads (markNodesAsUsedOrUnused topo mask false) ↔
      x ∈ usedThreads topo ∧ x ∉ usedThreads mask := by
  unfold markNodesAsUsedOrUnused
  rw [if_neg (by simpa using hne), usedThreads_walk h.outline]
  refine mem_usedThreads_walkPair_false (h.outline.trans hm.outline.symm) hm.normal ?_
  rw [threads_eq_of_outline h.outline]
  exact σ.nodup_threads

end HostTopology

/-- The topology a string stands for, nothing when it is unset. -/
def bindingNow (str : Option (List Char)) : List Node :=
  match str with
  | none => []
  | some s => parseToTree s

def boundThreads (str : Option (List Char)) : List ℕ := usedThreads (bindingNow str)

namespace HostTopology

variable {σ : HostTopology} {str prev : Option (List Char)} {toUse : List Node}

def Holds (σ : HostTopology) (str : Option (List Char)) : Prop :=
  bindingNow str = [] ∨ σ.Mask (bindingNow str)

theorem Holds.boundThreads_eq_nil (h : σ.Holds str) (hempty : σ.nodes = []) :
    boundThreads str = [] := by
  rcases h with h | h
  · rw [boundThreads, h]
    rfl
  · exact usedThreads_eq_nil h hempty

theorem bindingNow_toInternalString (topo : List Node) :
    bindingNow (some (toInternalString topo)) = Sgeobj.reparse topo := rfl

theorem mask_rebuildUnused (h : σ.Mask toUse) :
    σ.Mask (parseToTree (toUnusedInternalTopologyString toUse)) := by
  rw [parseToTree_toUnusedInternalTopologyString]
  exact ⟨outline_rebuildLevel h.outline, normal_rebuildLevel_unused _ _⟩

/-- Marking keeps strings of this host strings of this host. -/
theorem Holds.elemMark (hstr : σ.Holds str) (hprev : σ.Holds prev)
    (hm : σ.Mask toUse) (used : Bool) :
    σ.Holds (elemMarkNodesAsUsedOrUnused str (bindingNow prev) toUse used) := by
  unfold elemMarkNodesAsUsedOrUnused
  split_ifs with h1 h2 h3
  · exact hstr
  · exact Or.inr hm.reparse.reparse
  · exact Or.inr (mask_rebuildUnused hm).reparse
  · exact Or.inr (Mask.mark hprev hm used).reparse

theorem mem_boundThreads_elemMark_true (hstr : σ.Holds str) (hprev : σ.Holds prev)
    (hm : σ.Mask toUse) {x : ℕ} :
    x ∈ boundThreads (elemMarkNodesAsUsedOrUnused str (bindingNow prev) toUse true) ↔
      x ∈ boundThreads prev ∨ x ∈ usedThreads toUse := by
  unfold elemMarkNodesAsUsedOrUnused
  by_cases h1 : toUse = []
  · have hσ := nodes_eq_nil hm h1
    rw [if_pos (by simpa using h1), hstr.boundThreads_eq_nil hσ, hprev.boundThreads_eq_nil hσ, h1]
    simp
  rw [if_neg (by simpa using h1)]
  by_cases h2 : bindingNow prev = []
  · rw [if_pos (by simpa using h2), if_pos rfl, boundThreads,
      bindingNow_toInternalString, usedThreads_reparse hm.reparse.outline,
      usedThreads_reparse hm.outline, boundThreads, h2]
    simp
  · rw [if_neg (by simpa using h2), boundThreads, bindingNow_toInternalString,
      usedThreads_reparse (Mask.mark hprev hm true).outline]
    exact mem_usedThreads_mark_true hprev hm

theorem mem_boundThreads_elemMark_false (hstr : σ.Holds str)
    (hprev : σ.Holds prev) (hm : σ.Mask toUse) {x : ℕ} :
    x ∈ boundThreads (elemMarkNodesAsUsedOrUnused str (bindingNow prev) toUse false) ↔
      x ∈ boundThreads prev ∧ x ∉ usedThreads toUse := by
  unfold elemMarkNodesAsUsedOrUnused
  by_cases h1 : toUse = []
  · have hσ := nodes_eq_nil hm h1
    rw [if_pos (by simpa using h1), hstr.boundThreads_eq_nil hσ, hprev.boundThreads_eq_nil hσ]
    simp
  rw [if_neg (by simpa using h1)]
  by_cases h2 : bindingNow prev = []
  · rw [if_pos (by simpa using h2), if_neg (by simp), boundThreads, bindingNow_toInternalString,
      usedThreads_reparse (mask_rebuildUnused hm).outline,
      parseToTree_toUnusedInternalTopologyString, rebuildUnused,
      usedThreads_rebuildLevel_unused, boundThreads, h2]
    simp
  · have hp := hprev.resolve_left h2
    rw [if_neg (by simpa using h2), boundThreads, bindingNow_toInternalString,
      usedThreads_reparse (Mask.mark hprev hm false).outline]
    exact mem_usedThreads_mark_false hp hm h2

end HostTopology

end ClusterScheduler.Sgeobj
