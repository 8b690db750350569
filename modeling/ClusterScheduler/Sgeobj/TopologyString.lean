import Mathlib

/-!
# Topology strings

The compute topology of a host is a tree of sockets, caches, cores and threads,
written as a structured string such as `(S(C(T)(T))(C(T)(T)))`. A letter in
lower case says that the object is in use. This module embeds the tree, its
parser and its printer.

* `Node`, `parseNodes`, `parseToTree` — the tree and the recursive descent
  parser that numbers and counts it.
* `PrintOptions`, `toChars` — the printer.
* `rebuild` — number and count a tree again.
* `parseToTree_internal` — parsing the structured form of a tree is `rebuild`.
-/

namespace ClusterScheduler.Sgeobj

/-- One object of the topology tree: its letter, its number in the tree, how
many objects of each letter its subtree holds, and the objects inside it. -/
inductive Node where
  | mk (c : Char) (id : ℕ) (charToCount : Char → ℕ) (nodes : List Node)

namespace Node

def c : Node → Char
  | mk c _ _ _ => c

def id : Node → ℕ
  | mk _ id _ _ => id

def charToCount : Node → Char → ℕ
  | mk _ _ count _ => count

def nodes : Node → List Node
  | mk _ _ _ nodes => nodes

end Node

def countNode (c : Char) (children : List Node) (letter : Char) : ℕ :=
  (if c = letter then 1 else 0) + (children.map (·.charToCount letter)).sum

/-! ## Parsing -/

def skipCharacteristics : List Char → List Char
  | '[' :: s => (s.dropWhile (· ≠ ']')).drop 1
  | s => s

/-- Parse the nodes of one level. The result is the level, the text left behind
its closing bracket and the next number to give out. -/
def parseNodes : ℕ → List Char → ℕ → List Node × List Char × ℕ
  | 0, s, i => ([], s, i)
  | _ + 1, [], i => ([], [], i)
  | fuel + 1, ch :: s, i =>
    match ch, s with
    | '(', letter :: s =>
      let sub := parseNodes fuel (skipCharacteristics s) (i + 1)
      let node := .mk letter i (countNode letter sub.1) sub.1
      let level := parseNodes fuel sub.2.1 sub.2.2
      (node :: level.1, level.2)
    | ')', s => ([], s, i)
    | _, s => parseNodes fuel s i

def parseToTree (topology : List Char) : List Node :=
  (parseNodes (topology.length + 1) topology 1).1

/-! ## Printing -/

def dataNodeCharacters : List Char :=
  ['N', 'A', 'B', 'U', 'V', 'W', 'X', 'Y', 'Z']

/-- What the printer shows. `showSingleThreads` is the value in effect: it is
forced whenever the structure is shown. -/
structure PrintOptions where
  withDataNodes : Bool
  withStructure : Bool
  showAsUnused : Bool
  showSingleThreads : Bool
  show2ndLevelWithOneNode : Bool

namespace PrintOptions

/-- Is a level left out because it is a lone thread? -/
def hides (o : PrintOptions) (level : List Node) : Bool :=
  match level with
  | [n] => n.c.toUpper = 'T' && !o.showSingleThreads
  | _ => false

def showsNode (o : PrintOptions) (c : Char) (children : List Node) : Bool :=
  !(!o.withDataNodes && dataNodeCharacters.contains c.toUpper) &&
    !(!o.show2ndLevelWithOneNode && c.toUpper = 'Y' && children.length = 1)

end PrintOptions

mutual
/-- One node with everything inside it. -/
def nodeToChars (o : PrintOptions) : Node → List Char
  | .mk c _ _ children =>
    (if o.withStructure && o.showsNode c children then ['('] else []) ++
    (if o.showsNode c children then [if o.showAsUnused then c.toUpper else c] else []) ++
    (if o.hides children then [] else levelToChars o children) ++
    (if o.withStructure && o.showsNode c children then [')'] else [])

def levelToChars (o : PrintOptions) : List Node → List Char
  | [] => []
  | n :: rest => nodeToChars o n ++ levelToChars o rest
end

def toChars (o : PrintOptions) (topo : List Node) : List Char :=
  if o.hides topo then [] else levelToChars o topo

/-- Structure and data nodes, every thread: the form topologies are stored in. -/
def internalOptions (showAsUnused : Bool) : PrintOptions where
  withDataNodes := true
  withStructure := true
  showAsUnused := showAsUnused
  showSingleThreads := true
  show2ndLevelWithOneNode := true

def toInternalString (topo : List Node) : List Char :=
  toChars (internalOptions false) topo

def toUnusedInternalTopologyString (topo : List Node) : List Char :=
  toChars (internalOptions true) topo

/-! ## The structured form -/

def shownLetter (unused : Bool) (c : Char) : Char :=
  if unused then c.toUpper else c

@[simp] theorem hides_internal (unused : Bool) (level : List Node) :
    (internalOptions unused).hides level = false := by
  unfold PrintOptions.hides
  split <;> simp [internalOptions]

@[simp] theorem showsNode_internal (unused : Bool) (c : Char) (children : List Node) :
    (internalOptions unused).showsNode c children = true := by
  simp [PrintOptions.showsNode, internalOptions]

@[simp] theorem nodeToChars_internal (unused : Bool) (c : Char) (id : ℕ)
    (count : Char → ℕ) (children : List Node) :
    nodeToChars (internalOptions unused) (.mk c id count children) =
      '(' :: shownLetter unused c ::
        (levelToChars (internalOptions unused) children ++ [')']) := by
  rw [nodeToChars, hides_internal, showsNode_internal]
  cases unused <;> simp [internalOptions, shownLetter]

theorem toInternalString_eq (topo : List Node) :
    toInternalString topo = levelToChars (internalOptions false) topo := by
  simp [toInternalString, toChars]

theorem toUnusedInternalTopologyString_eq (topo : List Node) :
    toUnusedInternalTopologyString topo = levelToChars (internalOptions true) topo := by
  simp [toUnusedInternalTopologyString, toChars]

/-! ## Numbering and counting again -/

mutual
/-- Number a tree in preorder from `i` and count it; `unused` shows every
letter in upper case. The second component is the next free number. -/
def rebuildNode (unused : Bool) (i : ℕ) : Node → Node × ℕ
  | .mk c _ _ children =>
    let sub := rebuildLevel unused (i + 1) children
    (.mk (shownLetter unused c) i (countNode (shownLetter unused c) sub.1) sub.1, sub.2)

def rebuildLevel (unused : Bool) (i : ℕ) : List Node → List Node × ℕ
  | [] => ([], i)
  | n :: rest =>
    let n' := rebuildNode unused i n
    let rest' := rebuildLevel unused n'.2 rest
    (n'.1 :: rest'.1, rest'.2)
end

def rebuild (topo : List Node) : List Node := (rebuildLevel false 1 topo).1

def rebuildUnused (topo : List Node) : List Node := (rebuildLevel true 1 topo).1

/-! ## Round trip -/

section RoundTrip

variable {unused : Bool}

/-- What may follow a printed level: nothing, or a closing bracket. -/
def Closes (rest : List Char) : Prop := rest = [] ∨ ∃ s, rest = ')' :: s

theorem parseNodes_closed {fuel i : ℕ} {rest : List Char} (h : Closes rest)
    (hfuel : rest.length < fuel) : parseNodes fuel rest i = ([], rest.drop 1, i) := by
  obtain ⟨n, rfl⟩ : ∃ n, fuel = n + 1 := ⟨fuel - 1, by omega⟩
  rcases h with rfl | ⟨s, rfl⟩
  · rfl
  · simp [parseNodes]

theorem skipCharacteristics_level (unused : Bool) (level : List Node) (s : List Char) :
    skipCharacteristics (levelToChars (internalOptions unused) level ++ ')' :: s) =
      levelToChars (internalOptions unused) level ++ ')' :: s := by
  cases level with
  | nil => simp [levelToChars, skipCharacteristics]
  | cons n rest =>
    obtain ⟨c, id, count, children⟩ := n
    simp [levelToChars, skipCharacteristics]

/-- Parsing a printed level rebuilds it and stops at the bracket that closes
it. The induction follows the tree: first child, then its siblings. -/
theorem parseNodes_level (unused : Bool) :
    ∀ (level : List Node) (fuel i : ℕ) (rest : List Char), Closes rest →
      (levelToChars (internalOptions unused) level ++ rest).length < fuel →
      parseNodes fuel (levelToChars (internalOptions unused) level ++ rest) i =
        ((rebuildLevel unused i level).1, rest.drop 1, (rebuildLevel unused i level).2)
  | [], fuel, i, rest, hr, hfuel => by
      simpa [levelToChars, rebuildLevel] using
        parseNodes_closed (i := i) hr (by simpa [levelToChars] using hfuel)
  | .mk c id count children :: siblings, fuel, i, rest, hr, hfuel => by
      obtain ⟨fuel, rfl⟩ : ∃ n, fuel = n + 1 := ⟨fuel - 1, by omega⟩
      have hsub := parseNodes_level unused children fuel (i + 1)
        (')' :: (levelToChars (internalOptions unused) siblings ++ rest))
        (Or.inr ⟨_, rfl⟩) (by
          simp [levelToChars] at hfuel ⊢
          omega)
      have hlevel := parseNodes_level unused siblings fuel
        (rebuildLevel unused (i + 1) children).2 rest hr (by
          simp [levelToChars] at hfuel ⊢
          omega)
      have hskip := skipCharacteristics_level unused children
        (levelToChars (internalOptions unused) siblings ++ rest)
      simp only [levelToChars, nodeToChars_internal, List.cons_append,
        List.append_assoc, List.nil_append]
      rw [parseNodes]
      simp only [hskip, hsub, List.drop_succ_cons, List.drop_zero, hlevel]
      simp [rebuildLevel, rebuildNode]

/-- **Round trip.** Parsing the structured form of a tree numbers and counts it
again and changes nothing else. -/
theorem parseToTree_internal (topo : List Node) :
    parseToTree (levelToChars (internalOptions unused) topo) = (rebuildLevel unused 1 topo).1 := by
  have h := parseNodes_level unused topo
    ((levelToChars (internalOptions unused) topo).length + 1) 1 [] (Or.inl rfl)
    (by simp)
  rw [List.append_nil] at h
  rw [parseToTree, h]

theorem parseToTree_toInternalString (topo : List Node) :
    parseToTree (toInternalString topo) = rebuild topo := by
  rw [toInternalString_eq, parseToTree_internal, rebuild]

theorem parseToTree_toUnusedInternalTopologyString (topo : List Node) :
    parseToTree (toUnusedInternalTopologyString topo) = rebuildUnused topo := by
  rw [toUnusedInternalTopologyString_eq, parseToTree_internal, rebuildUnused]

end RoundTrip

end ClusterScheduler.Sgeobj
