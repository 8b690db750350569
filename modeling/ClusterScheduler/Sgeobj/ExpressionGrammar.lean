import ClusterScheduler.Sgeobj.EvalExpression

/-!
# The grammar of expressions

    Or     := And {'|' And}
    And    := Simple {'&' Simple}
    Simple := '!' Simple | '(' Or ')' | atom

* `tokens` — the tokens of a string; atoms are as long as they can be.
* `Derives` — the sentences and their syntax trees.
* `evalExpression_decides` — the evaluation of a string: an error iff it is no
  sentence, else the value of the sentence.
-/

namespace ClusterScheduler.Sgeobj

inductive Tok where
  | not | or | and | braceOpen | braceClose
  | atom (s : List Char)
  deriving DecidableEq

def Tok.kind : Tok → TokenType
  | .not => .not
  | .or => .or
  | .and => .and
  | .braceOpen => .braceOpen
  | .braceClose => .braceClose
  | .atom _ => .exp

/-- A character in front of tokens: it begins a new atom unless the string goes on
with one. -/
def consAtom (c : Char) (rest : List Char) (ts : List Tok) : List Tok :=
  match ts with
  | .atom s :: ts =>
    if isAtomChar (peek rest) then .atom (c :: s) :: ts else .atom [c] :: .atom s :: ts
  | ts => .atom [c] :: ts

/-- The tokens of a string. Blanks separate tokens, a null character ends the
string. -/
def tokens : List Char → List Tok
  | [] => []
  | c :: rest =>
    match c with
    | '!' => .not :: tokens rest
    | '|' => .or :: tokens rest
    | '&' => .and :: tokens rest
    | '(' => .braceOpen :: tokens rest
    | ')' => .braceClose :: tokens rest
    | ' ' => tokens rest
    | '\x00' => []
    | c => consAtom c rest (tokens rest)

/-- Syntax trees. -/
inductive Expression where
  | atom (s : List Char)
  | not (a : Expression)
  | and (a b : Expression)
  | or (a b : Expression)

/-- The usual boolean value. -/
def Expression.eval (truth : List Char → Bool) : Expression → Bool
  | .atom s => truth s
  | .not a => !a.eval truth
  | .and a b => a.eval truth && b.eval truth
  | .or a b => a.eval truth || b.eval truth

/-- The symbols of the grammar. The tails are the repetitions `{'|' And}` and
`{'&' Simple}`; they go on from the tree of what is before them. -/
inductive Symbol where
  | or
  | orTail (a : Expression)
  | and
  | andTail (a : Expression)
  | simple

inductive Derives : Symbol → List Tok → Expression → Prop
  | or {ts us : List Tok} {a b : Expression} :
      Derives .and ts a → Derives (.orTail a) us b → Derives .or (ts ++ us) b
  | orNil {a : Expression} : Derives (.orTail a) [] a
  | orCons {ts us : List Tok} {a b c : Expression} :
      Derives .and ts b → Derives (.orTail (.or a b)) us c →
      Derives (.orTail a) (.or :: ts ++ us) c
  | and {ts us : List Tok} {a b : Expression} :
      Derives .simple ts a → Derives (.andTail a) us b → Derives .and (ts ++ us) b
  | andNil {a : Expression} : Derives (.andTail a) [] a
  | andCons {ts us : List Tok} {a b c : Expression} :
      Derives .simple ts b → Derives (.andTail (.and a b)) us c →
      Derives (.andTail a) (.and :: ts ++ us) c
  | not {ts : List Tok} {a : Expression} :
      Derives .simple ts a → Derives .simple (.not :: ts) (.not a)
  | brace {ts : List Tok} {a : Expression} :
      Derives .or ts a → Derives .simple (.braceOpen :: ts ++ [.braceClose]) a
  | atom {s : List Char} : Derives .simple [.atom s] (.atom s)

/-- A string is a sentence with a syntax tree. -/
def Sentence (expr : List Char) (a : Expression) : Prop := Derives .or (tokens expr) a

/-! ## Tokens -/

variable {c : Char}

theorem isAtomChar_iff : isAtomChar c = true ↔
    c ≠ '!' ∧ c ≠ '|' ∧ c ≠ '&' ∧ c ≠ '(' ∧ c ≠ ')' ∧ c ≠ ' ' ∧ c ≠ '\x00' := by
  unfold isAtomChar indexOfTerminal
  split <;> simp_all

/-- A character that is no terminal belongs to an atom. -/
theorem tokens_atomChar (hc : isAtomChar c = true) (rest : List Char) :
    tokens (c :: rest) = consAtom c rest (tokens rest) := by
  obtain ⟨h1, h2, h3, h4, h5, h6, h7⟩ := isAtomChar_iff.mp hc
  rw [tokens] <;> assumption

theorem tokens_terminal {tt : TokenType} (hc : indexOfTerminal c = some tt)
    (hend : tt ≠ .endOfExpression) (rest : List Char) :
    ∃ t : Tok, t.kind = tt ∧ (∀ s, t ≠ .atom s) ∧ tokens (c :: rest) = t :: tokens rest := by
  unfold indexOfTerminal at hc
  split at hc <;> first
    | (obtain rfl := Option.some.inj hc
       first
       | exact absurd rfl hend
       | exact ⟨.not, rfl, by simp, rfl⟩
       | exact ⟨.or, rfl, by simp, rfl⟩
       | exact ⟨.and, rfl, by simp, rfl⟩
       | exact ⟨.braceOpen, rfl, by simp, rfl⟩
       | exact ⟨.braceClose, rfl, by simp, rfl⟩)
    | exact absurd hc (by simp)

theorem tokens_dropBlanks (s : List Char) : tokens (s.dropWhile (· = ' ')) = tokens s := by
  induction s with
  | nil => rfl
  | cons c s ih =>
    by_cases hc : c = ' '
    · subst hc
      rw [List.dropWhile_cons_of_pos (by simp), ih]
      rfl
    · simp [hc]

variable {s : List Char}

theorem tokens_of_end (h : peek s = '\x00') : tokens s = [] := by
  cases s with
  | nil => rfl
  | cons c s =>
    obtain rfl : c = '\x00' := h
    rfl

theorem tokens_atom (hs : ∀ c ∈ s, isAtomChar c = true) (hne : s ≠ [])
    {rest : List Char} (hrest : isAtomChar (peek rest) = false) :
    tokens (s ++ rest) = .atom s :: tokens rest := by
  induction s with
  | nil => exact absurd rfl hne
  | cons c s ih =>
    have hc := hs c (.head _)
    rw [List.cons_append, tokens_atomChar hc]
    cases s with
    | nil =>
      unfold consAtom
      rw [List.nil_append]
      split
      next heq => rw [if_neg (by simp [hrest]), heq]
      next => rfl
    | cons d s =>
      have hd := hs d (by simp)
      rw [ih (fun x hx => hs x (List.mem_cons_of_mem c hx)) (by simp), consAtom,
        List.cons_append, peek, if_pos hd]

/-! ## What the evaluation looks at -/

section

variable {C : Comparison} {type : CEntryType} {value : List Char}

def truth (C : Comparison) (type : CEntryType) (value : List Char) (s : List Char) : Bool :=
  compareValue C type (foldCase type s) value (s.any isPattern) = 0

def headKind : List Tok → TokenType
  | [] => .endOfExpression
  | t :: _ => t.kind

theorem headKind_ne_error (ts : List Tok) : headKind ts ≠ .error := by
  rcases ts with _ | ⟨_ | _ | _ | _ | _ | _, _⟩ <;> simp [headKind, Tok.kind]

/-- The tokens that are left, the one that is looked at first. -/
structure At (type : CEntryType) (value : List Char) (t : Token) (ts : List Tok) : Prop where
  sameType : t.type = type
  sameValue : t.value = value
  kind : t.tt = headKind ts
  rest : tokens t.s = ts.tail
  ended : ts = [] → peek t.s = '\x00'

/-- The same, and outside of skip mode the pattern is known. -/
structure Looks (type : CEntryType) (value : List Char) (skip : Bool) (t : Token)
    (ts : List Tok) : Prop extends At type value t ts where
  pattern : skip = false → ∀ s us, ts = .atom s :: us →
    t.pattern = foldCase type s ∧ t.hasPatterns = s.any isPattern

theorem Looks.weaken {skip : Bool} {t : Token} {ts : List Tok}
    (h : Looks type value skip t ts) : Looks type value true t ts :=
  ⟨h.toAt, fun hskip => absurd hskip (by simp)⟩

variable {us : List Tok}

theorem Looks.match {t : Token} {s : List Char} (h : Looks type value false t (.atom s :: us)) :
    matchPattern C t false = if truth C type value s then 0 else 1 := by
  obtain ⟨hpattern, hhas⟩ := h.pattern rfl s us rfl
  simp [matchPattern, truth, h.sameType, h.sameValue, hpattern, hhas]

/-- **Reading on.** -/
theorem looks_nextToken {t : Token} (htype : t.type = type) (hvalue : t.value = value)
    (htt : t.tt ≠ .error) (skip : Bool) :
    Looks type value skip (nextToken t skip) (tokens t.s) := by
  rw [← tokens_dropBlanks]
  unfold nextToken
  dsimp only
  rw [if_neg htt]
  set s := t.s.dropWhile (· = ' ')
  split_ifs with hend
  · rw [tokens_of_end hend]
    exact ⟨⟨htype, hvalue, rfl, tokens_of_end hend, fun _ => hend⟩, by simp⟩
  obtain ⟨c, rest, hs⟩ : ∃ c rest, s = c :: rest := by
    cases hs : s with
    | nil =>
      rw [hs] at hend
      exact absurd rfl hend
    | cons c rest => exact ⟨c, rest, rfl⟩
  have hblank : c ≠ ' ' := by
    have hhead := List.head?_dropWhile_not (· = ' ') t.s
    rw [show t.s.dropWhile (· = ' ') = c :: rest from hs] at hhead
    simpa using hhead
  rw [hs] at hend ⊢
  cases hc : indexOfTerminal c with
  | some tt =>
    have hne : tt ≠ .endOfExpression := by
      rintro rfl
      have hcases : c = ' ' ∨ c = '\x00' := by
        unfold indexOfTerminal at hc
        split at hc <;> simp_all
      exact hcases.elim hblank hend
    obtain ⟨tok, hkind, hatom, htokens⟩ := tokens_terminal hc hne rest
    rw [htokens]
    simp only [parseTerminal, peek, hc, Option.map_some, Option.getD_some]
    refine ⟨⟨htype, hvalue, hkind.symm, rfl, by simp⟩, fun _ s us heq => ?_⟩
    exact absurd (List.cons.inj heq).1 (hatom s)
  | none =>
    have hatom : isAtomChar c = true := by simp [isAtomChar, hc]
    have hsplit : tokens (c :: rest) =
        .atom (c :: rest.takeWhile isAtomChar) :: tokens (rest.dropWhile isAtomChar) := by
      have hrest : isAtomChar (peek (rest.dropWhile isAtomChar)) = false := by
        have hhead := List.head?_dropWhile_not isAtomChar rest
        cases hd : rest.dropWhile isAtomChar with
        | nil => rfl
        | cons d rest' =>
          rw [hd] at hhead
          exact hhead
      have htake : ∀ x ∈ c :: rest.takeWhile isAtomChar, isAtomChar x = true := by
        intro x hx
        rcases List.mem_cons.mp hx with rfl | hx
        · exact hatom
        · exact List.mem_takeWhile_imp hx
      have := tokens_atom htake (by simp) hrest
      rwa [List.cons_append, List.takeWhile_append_dropWhile] at this
    rw [hsplit]
    simp only [parseTerminal, peek, hc, Option.map_none, Option.getD_none, parseNonTerminal]
    cases skip with
    | true =>
      refine ⟨⟨htype, hvalue, rfl, ?_, by simp⟩, by simp⟩
      simp [hatom]
    | false =>
      refine ⟨⟨htype, hvalue, rfl, rfl, by simp⟩, fun _ s us heq => ?_⟩
      obtain ⟨rfl⟩ := Tok.atom.inj (List.cons.inj heq).1
      exact ⟨by rw [← htype]; rfl, rfl⟩

/-! ## What is read is a sentence -/

variable (type value) in
/-- A part of the tokens was read, or there was an error. -/
def Parsed (sym : Symbol) (ts : List Tok) (t : Token) : Prop :=
  t.tt = .error ∨ ∃ us a rest, ts = us ++ rest ∧ Derives sym us a ∧ At type value t rest

theorem raiseError_tt (t : Token) (expected : TokenType) :
    (raiseError t expected).2.tt = .error := by
  unfold raiseError
  split_ifs with h
  · rfl
  · simpa using h

/-- One of the two operators, with its operands and the loop over them. A result is `known`
when the operands that follow cannot change it; these are skipped. -/
structure Operator (C : Comparison) where
  tok : Tok
  known : ℤ → Bool
  operand : ℕ → Token → Bool → Option (ℤ × Token)
  loop : ℕ → ℤ → Token → Bool → Option (ℤ × Token)
  sym : Symbol
  tail : Expression → Symbol
  node : Expression → Expression → Expression
  notAtom : ∀ s, tok ≠ .atom s
  reads : sym = .simple ∨ sym = .and ∨ sym = .or
  loop_zero : ∀ m t skip, loop 0 m t skip = none
  loop_succ : ∀ fuel m t skip, loop (fuel + 1) m t skip =
    if t.tt = tok.kind then
      (operand fuel (nextToken t skip) (known m || skip)).bind fun res =>
        loop fuel (if known m then m else res.1) res.2 skip
    else some (m, t)
  nil : ∀ a, Derives (tail a) [] a
  cons : ∀ {ts us a b c}, Derives sym ts b → Derives (tail (node a b)) us c →
    Derives (tail a) (tok :: ts ++ us) c

variable (C) in
def andOperator : Operator C where
  tok := .and
  known m := decide (m ≠ 0)
  operand := simpleExpression C
  loop := andLoop C
  sym := .simple
  tail := .andTail
  node := .and
  notAtom := by simp
  reads := Or.inl rfl
  loop_zero _ _ _ := rfl
  loop_succ fuel m t skip := by
    rw [andLoop]
    by_cases hm : m = 0 <;> simp [hm, Tok.kind]
  nil _ := .andNil
  cons := .andCons

variable (C) in
def orOperator : Operator C where
  tok := .or
  known m := decide (m = 0)
  operand := andExpression C
  loop := orLoop C
  sym := .and
  tail := .orTail
  node := .or
  notAtom := by simp
  reads := Or.inr (Or.inl rfl)
  loop_zero _ _ _ := rfl
  loop_succ fuel m t skip := by
    rw [orLoop]
    by_cases hm : m = 0 <;> simp [hm, Tok.kind]
  nil _ := .orNil
  cons := .orCons

variable {m : ℤ}

theorem Operator.loop_stop (op : Operator C) {fuel : ℕ} {t : Token} {skip : Bool}
    {res : ℤ × Token} (h : t.tt ≠ op.tok.kind) (hres : op.loop fuel m t skip = some res) :
    res = (m, t) := by
  cases fuel with
  | zero => exact absurd hres (by simp [op.loop_zero])
  | succ fuel =>
    rw [op.loop_succ, if_neg h] at hres
    exact (Option.some.inj hres).symm

theorem Operator.kind_ne_error (op : Operator C) : op.tok.kind ≠ .error := by
  cases op.tok <;> simp [Tok.kind]

theorem At.cons {t : Token} {ts : List Tok} (h : At type value t ts) (tok : Tok)
    (hkind : t.tt = tok.kind) (hatom : ∀ s, tok ≠ .atom s) : ts = tok :: tokens t.s := by
  rw [h.rest]
  rw [h.kind] at hkind
  rcases ts with _ | ⟨tok', ts⟩
  · cases tok <;> simp [headKind, Tok.kind] at hkind
  · cases tok <;> cases tok' <;> simp_all [headKind, Tok.kind]

variable (C type value) in
/-- What the functions read, for one amount of fuel. -/
structure Sound (fuel : ℕ) : Prop where
  or : ∀ t skip res, t.type = type → t.value = value → t.tt ≠ .error →
    orExpression C fuel t skip = some res → Parsed type value .or (tokens t.s) res.2
  orLoop : ∀ a m t skip ts res, At type value t ts →
    orLoop C fuel m t skip = some res → Parsed type value (.orTail a) ts res.2
  and : ∀ t skip ts res, At type value t ts →
    andExpression C fuel t skip = some res → Parsed type value .and ts res.2
  andLoop : ∀ a m t skip ts res, At type value t ts →
    andLoop C fuel m t skip = some res → Parsed type value (.andTail a) ts res.2
  simple : ∀ t skip ts res, At type value t ts →
    simpleExpression C fuel t skip = some res → Parsed type value .simple ts res.2

theorem At.ne_error {t : Token} {ts : List Tok} (h : At type value t ts) : t.tt ≠ .error := by
  rw [h.kind]
  exact headKind_ne_error ts

theorem At.next {t : Token} {ts : List Tok} (h : At type value t ts) (skip : Bool) :
    Looks type value skip (nextToken t skip) (tokens t.s) :=
  looks_nextToken h.sameType h.sameValue h.ne_error skip

theorem Operator.parsed_operand (op : Operator C) {fuel : ℕ} {t : Token} {skip : Bool}
    {ts : List Tok} {res : ℤ × Token} (tree : Expression → Expression)
    (ih : ∀ a m t skip ts res, At type value t ts → op.loop fuel m t skip = some res →
      Parsed type value (op.tail a) ts res.2)
    (hfirst : Parsed type value op.sym ts t) (hloop : op.loop fuel m t skip = some res) :
    res.2.tt = .error ∨ ∃ us b vs c rest, ts = us ++ (vs ++ rest) ∧ Derives op.sym us b ∧
      Derives (op.tail (tree b)) vs c ∧ At type value res.2 rest := by
  rcases hfirst with herror | ⟨us, b, rest, rfl, hb, hat⟩
  · rw [op.loop_stop (by rw [herror]; exact op.kind_ne_error.symm) hloop]
    exact Or.inl herror
  · rcases ih (tree b) m t skip rest res hat hloop with herror | ⟨vs, c, rest', rfl, hc, hat'⟩
    · exact Or.inl herror
    · exact Or.inr ⟨us, b, vs, c, rest', rfl, hb, hc, hat'⟩

theorem Operator.sound_loop (op : Operator C) {fuel : ℕ}
    (ihFirst : ∀ t skip ts res, At type value t ts → op.operand fuel t skip = some res →
      Parsed type value op.sym ts res.2)
    (ih : ∀ a m t skip ts res, At type value t ts → op.loop fuel m t skip = some res →
      Parsed type value (op.tail a) ts res.2) {t : Token} {skip : Bool} {ts : List Tok}
    {res : ℤ × Token} (a : Expression) (h : At type value t ts)
    (hres : op.loop (fuel + 1) m t skip = some res) : Parsed type value (op.tail a) ts res.2 := by
  by_cases hop : t.tt = op.tok.kind
  · rw [op.loop_succ, if_pos hop] at hres
    obtain ⟨first, hfirst, hloop⟩ := Option.bind_eq_some_iff.mp hres
    have hread := ihFirst _ _ _ _ (h.next skip).toAt hfirst
    rcases op.parsed_operand (op.node a) ih hread hloop with
      herror | ⟨us, b, vs, c, rest, hts, hb, hc, hat⟩
    · exact Or.inl herror
    · refine Or.inr ⟨op.tok :: us ++ vs, c, rest, ?_, op.cons hb hc, hat⟩
      rw [h.cons op.tok hop op.notAtom, hts]
      simp
  · rw [op.loop_stop hop hres]
    exact Or.inr ⟨[], a, ts, rfl, op.nil a, h⟩

theorem sound_and {fuel : ℕ} (ih : Sound C type value fuel) {t : Token} {skip : Bool}
    {ts : List Tok} {res : ℤ × Token} (h : At type value t ts)
    (hres : andExpression C (fuel + 1) t skip = some res) : Parsed type value .and ts res.2 := by
  rw [andExpression] at hres
  obtain ⟨first, hfirst, hloop⟩ := Option.bind_eq_some_iff.mp hres
  rcases (andOperator C).parsed_operand id ih.andLoop (ih.simple t skip ts first h hfirst)
    hloop with herror | ⟨us, a, vs, b, rest, rfl, ha, hb, hat⟩
  · exact Or.inl herror
  · exact Or.inr ⟨us ++ vs, b, rest, by simp, .and ha hb, hat⟩

theorem sound_or {fuel : ℕ} (ih : Sound C type value fuel) {t : Token} {skip : Bool}
    {res : ℤ × Token} (htype : t.type = type) (hvalue : t.value = value)
    (htt : t.tt ≠ .error) (hres : orExpression C (fuel + 1) t skip = some res) :
    Parsed type value .or (tokens t.s) res.2 := by
  rw [orExpression] at hres
  obtain ⟨first, hfirst, hloop⟩ := Option.bind_eq_some_iff.mp hres
  have hnext := (looks_nextToken htype hvalue htt skip).toAt
  rcases (orOperator C).parsed_operand id ih.orLoop (ih.and _ skip _ first hnext hfirst)
    hloop with herror | ⟨us, a, vs, b, rest, heq, ha, hb, hat⟩
  · exact Or.inl herror
  · exact Or.inr ⟨us ++ vs, b, rest, by rw [heq, List.append_assoc], .or ha hb, hat⟩

theorem sound_simple {fuel : ℕ} (ih : Sound C type value fuel) {t : Token} {skip : Bool}
    {ts : List Tok} {res : ℤ × Token} (h : At type value t ts)
    (hres : simpleExpression C (fuel + 1) t skip = some res) :
    Parsed type value .simple ts res.2 := by
  rw [simpleExpression] at hres
  rcases ts with _ | ⟨tok, ts⟩
  · rw [h.kind] at hres
    cases hres
    exact Or.inl (raiseError_tt t _)
  have hrest : tokens t.s = ts := h.rest
  have hkind : t.tt = tok.kind := h.kind
  rw [hkind] at hres
  cases tok with
  | or | and | braceClose =>
    cases hres
    exact Or.inl (raiseError_tt t _)
  | atom s =>
    cases hres
    have hnext := (h.next skip).toAt
    rw [hrest] at hnext
    exact Or.inr ⟨[.atom s], .atom s, ts, rfl, .atom, hnext⟩
  | not =>
    obtain ⟨inner, hinner, rfl⟩ := Option.map_eq_some_iff.mp hres
    have hnext := (h.next skip).toAt
    rw [hrest] at hnext
    rcases ih.simple _ skip ts inner hnext hinner with herror | ⟨us, a, rest, rfl, ha, hat⟩
    · exact Or.inl herror
    · exact Or.inr ⟨.not :: us, .not a, rest, rfl, .not ha, hat⟩
  | braceOpen =>
    obtain ⟨inner, hinner, hout⟩ := Option.map_eq_some_iff.mp hres
    have hor := ih.or t skip inner h.sameType h.sameValue h.ne_error hinner
    by_cases hclose : inner.2.tt = .braceClose
    · rw [if_neg (by simp [hclose])] at hout
      subst hout
      rcases hor with herror | ⟨us, a, rest, heq, ha, hat⟩
      · rw [herror] at hclose
        exact absurd hclose (by simp)
      · rw [hat.cons .braceClose hclose (by simp)] at heq
        refine Or.inr ⟨.braceOpen :: us ++ [.braceClose], a, tokens inner.2.s, ?_,
          .brace ha, (hat.next skip).toAt⟩
        rw [← hrest, heq]
        simp
    · rw [if_pos hclose] at hout
      subst hout
      exact Or.inl (raiseError_tt _ _)

theorem sound (fuel : ℕ) : Sound C type value fuel := by
  induction fuel with
  | zero =>
    constructor <;> intros <;>
      simp_all [orExpression, orLoop, andExpression, andLoop, simpleExpression]
  | succ fuel ih =>
    exact ⟨fun _ _ _ h1 h2 h3 h4 => sound_or ih h1 h2 h3 h4,
      fun a _ _ _ _ _ h1 h2 => (orOperator C).sound_loop ih.and ih.orLoop a h1 h2,
      fun _ _ _ _ h1 h2 => sound_and ih h1 h2,
      fun a _ _ _ _ _ h1 h2 => (andOperator C).sound_loop ih.simple ih.andLoop a h1 h2,
      fun _ _ _ _ h1 h2 => sound_simple ih h1 h2⟩

/-! ## The reading ends -/

theorem Derives.ne_nil {sym : Symbol} {ts : List Tok} {a : Expression}
    (h : Derives sym ts a) : (sym = .simple ∨ sym = .and ∨ sym = .or) → ts ≠ [] := by
  induction h with
  | or _ _ ih _ => exact fun _ => by simp [ih (by simp)]
  | and _ _ ih _ => exact fun _ => by simp [ih (by simp)]
  | orNil | andNil => simp
  | orCons | andCons | not | brace | atom => simp

theorem Parsed.shorter {sym : Symbol} {ts : List Tok} {t : Token}
    (h : Parsed type value sym ts t) (hsym : sym = .simple ∨ sym = .and ∨ sym = .or) :
    t.tt = .error ∨ ∃ rest, At type value t rest ∧ rest.length < ts.length := by
  rcases h with herror | ⟨us, a, rest, rfl, ha, hat⟩
  · exact Or.inl herror
  · have := List.length_pos_of_ne_nil (ha.ne_nil hsym)
    exact Or.inr ⟨rest, hat, by rw [List.length_append]; omega⟩

variable (C type value) in
/-- Each function needs an amount of fuel that depends on the number of tokens. -/
structure Total (fuel : ℕ) : Prop where
  or : ∀ t skip, t.type = type → t.value = value → t.tt ≠ .error →
    3 * (tokens t.s).length + 3 ≤ fuel → ∃ res, orExpression C fuel t skip = some res
  orLoop : ∀ m t skip, (t.tt = .error ∨ ∃ ts, At type value t ts ∧ 3 * ts.length + 1 ≤ fuel) →
    1 ≤ fuel → ∃ res, orLoop C fuel m t skip = some res
  and : ∀ t skip ts, At type value t ts → 3 * ts.length + 2 ≤ fuel →
    ∃ res, andExpression C fuel t skip = some res
  andLoop : ∀ m t skip, (t.tt = .error ∨ ∃ ts, At type value t ts ∧ 3 * ts.length + 1 ≤ fuel) →
    1 ≤ fuel → ∃ res, andLoop C fuel m t skip = some res
  simple : ∀ t skip ts, At type value t ts → 3 * ts.length + 1 ≤ fuel →
    ∃ res, simpleExpression C fuel t skip = some res

/-- From a function that reads something to the loop behind it. -/
theorem Total.bind {fuel n : ℕ} {sym : Symbol} {ts : List Tok} {t : Token}
    (h : Parsed type value sym ts t) (hsym : sym = .simple ∨ sym = .and ∨ sym = .or)
    (hn : 3 * ts.length ≤ n + 2) (hfuel : n ≤ fuel) :
    t.tt = .error ∨ ∃ rest, At type value t rest ∧ 3 * rest.length + 1 ≤ fuel := by
  rcases h.shorter hsym with herror | ⟨rest, hat, hlt⟩
  · exact Or.inl herror
  · exact Or.inr ⟨rest, hat, by omega⟩

theorem Operator.total_loop (op : Operator C) {fuel : ℕ}
    (hsound : ∀ t skip ts res, At type value t ts → op.operand fuel t skip = some res →
      Parsed type value op.sym ts res.2)
    (ihFirst : ∀ t skip ts, At type value t ts → 3 * ts.length + 2 ≤ fuel →
      ∃ res, op.operand fuel t skip = some res) (ih : ∀ m t skip,
      (t.tt = .error ∨ ∃ ts, At type value t ts ∧ 3 * ts.length + 1 ≤ fuel) → 1 ≤ fuel →
      ∃ res, op.loop fuel m t skip = some res) (m : ℤ) (t : Token) (skip : Bool)
    (h : t.tt = .error ∨ ∃ ts, At type value t ts ∧ 3 * ts.length + 1 ≤ fuel + 1) :
    ∃ res, op.loop (fuel + 1) m t skip = some res := by
  rw [op.loop_succ]
  by_cases hop : t.tt = op.tok.kind
  · obtain ⟨ts, hat, hlen⟩ := h.resolve_left (by rw [hop]; exact op.kind_ne_error)
    rw [hat.cons op.tok hop op.notAtom, List.length_cons] at hlen
    have hnext := (hat.next skip).toAt
    obtain ⟨first, hfirst⟩ := ihFirst _ (op.known m || skip) _ hnext (by omega)
    have hleft := Total.bind (hsound _ _ _ _ hnext hfirst) op.reads (n := fuel) (by omega) le_rfl
    obtain ⟨res, hres⟩ := ih (if op.known m then m else first.1) first.2 skip hleft (by omega)
    exact ⟨res, by rw [if_pos hop, hfirst, Option.bind_some, hres]⟩
  · exact ⟨_, if_neg hop⟩

theorem total_and {fuel : ℕ} (ih : Total C type value fuel) {t : Token} (skip : Bool)
    {ts : List Tok} (h : At type value t ts) (hfuel : 3 * ts.length + 2 ≤ fuel + 1) :
    ∃ res, andExpression C (fuel + 1) t skip = some res := by
  obtain ⟨first, hfirst⟩ := ih.simple t skip ts h (by omega)
  have hleft := Total.bind ((sound fuel).simple t skip ts first h hfirst) (by simp)
    (n := fuel) (by omega) le_rfl
  obtain ⟨res, hres⟩ := ih.andLoop first.1 first.2 skip hleft (by omega)
  exact ⟨res, by rw [andExpression, hfirst, Option.bind_some, hres]⟩

theorem total_or {fuel : ℕ} (ih : Total C type value fuel) {t : Token} (skip : Bool)
    (htype : t.type = type) (hvalue : t.value = value) (htt : t.tt ≠ .error)
    (hfuel : 3 * (tokens t.s).length + 3 ≤ fuel + 1) :
    ∃ res, orExpression C (fuel + 1) t skip = some res := by
  have hnext := (looks_nextToken htype hvalue htt skip).toAt
  obtain ⟨first, hfirst⟩ := ih.and _ skip _ hnext (by omega)
  have hleft := Total.bind ((sound fuel).and _ skip _ first hnext hfirst) (by simp)
    (n := fuel) (by omega) le_rfl
  obtain ⟨res, hres⟩ := ih.orLoop first.1 first.2 skip hleft (by omega)
  exact ⟨res, by rw [orExpression, hfirst, Option.bind_some, hres]⟩

theorem total_simple {fuel : ℕ} (ih : Total C type value fuel) {t : Token} (skip : Bool)
    {ts : List Tok} (h : At type value t ts) (hfuel : 3 * ts.length + 1 ≤ fuel + 1) :
    ∃ res, simpleExpression C (fuel + 1) t skip = some res := by
  rw [simpleExpression]
  rcases ts with _ | ⟨tok, ts⟩
  · rw [h.kind]
    exact ⟨_, rfl⟩
  have hrest : tokens t.s = ts := h.rest
  have hkind : t.tt = tok.kind := h.kind
  rw [List.length_cons] at hfuel
  rw [hkind]
  cases tok with
  | or | and | braceClose | atom => exact ⟨_, rfl⟩
  | not =>
    have hnext := (h.next skip).toAt
    rw [hrest] at hnext
    obtain ⟨inner, hinner⟩ := ih.simple _ skip ts hnext (by omega)
    dsimp only [Tok.kind]
    rw [hinner]
    exact ⟨_, rfl⟩
  | braceOpen =>
    obtain ⟨inner, hinner⟩ := ih.or t skip h.sameType h.sameValue h.ne_error
      (by rw [hrest]; omega)
    dsimp only [Tok.kind]
    rw [hinner]
    exact ⟨_, rfl⟩

theorem total (fuel : ℕ) : Total C type value fuel := by
  induction fuel with
  | zero => constructor <;> intros <;> omega
  | succ fuel ih =>
    exact ⟨fun _ skip h1 h2 h3 h4 => total_or ih skip h1 h2 h3 h4,
      fun m t skip h _ => (orOperator C).total_loop (sound fuel).and ih.and ih.orLoop m t skip h,
      fun _ skip _ h1 h2 => total_and ih skip h1 h2,
      fun m t skip h _ => (andOperator C).total_loop (sound fuel).simple
        (fun t skip ts hat hlen => ih.simple t skip ts hat (by omega)) ih.andLoop m t skip h,
      fun _ skip _ h1 h2 => total_simple ih skip h1 h2⟩

/-! ## A sentence is read as it should be -/

variable (C type value) in
def verdict (a : Expression) : ℤ := if a.eval (truth C type value) then 0 else 1

variable (C type value) in
/-- The tokens of a tree were read and, outside of skip mode, the tree was
evaluated. -/
def Evaluated (skip : Bool) (a : Expression) (rest : List Tok) (res : ℤ × Token) : Prop :=
  At type value res.2 rest ∧ (skip = false → res.1 = verdict C type value a)

variable (C type value) in
/-- What is read of the tokens of a symbol, whatever follows them. A repetition
goes on as long as it can, so its operator may not follow. -/
def Complete (sym : Symbol) (ts : List Tok) (a : Expression) : Prop :=
  ∀ (rest : List Tok) (fuel : ℕ) (t : Token) (skip : Bool) (res : ℤ × Token),
    match sym with
    | .simple => Looks type value skip t (ts ++ rest) →
        simpleExpression C fuel t skip = some res → Evaluated C type value skip a rest res
    | .and => headKind rest ≠ .and → Looks type value skip t (ts ++ rest) →
        andExpression C fuel t skip = some res → Evaluated C type value skip a rest res
    | .andTail b => ∀ m, headKind rest ≠ .and → At type value t (ts ++ rest) →
        (skip = false → m = verdict C type value b) →
        andLoop C fuel m t skip = some res → Evaluated C type value skip a rest res
    | .or => headKind rest ≠ .and → headKind rest ≠ .or → t.type = type → t.value = value →
        t.tt ≠ .error → tokens t.s = ts ++ rest →
        orExpression C fuel t skip = some res → Evaluated C type value skip a rest res
    | .orTail b => ∀ m, headKind rest ≠ .and → headKind rest ≠ .or →
        At type value t (ts ++ rest) → (skip = false → m = verdict C type value b) →
        orLoop C fuel m t skip = some res → Evaluated C type value skip a rest res

theorem headKind_tail {sym : Symbol} {ts : List Tok} {a : Expression} (h : Derives sym ts a)
    {rest : List Tok} {op : TokenType} (hrest : headKind rest ≠ op) :
    (∀ b, sym = .orTail b → op ≠ .or → headKind (ts ++ rest) ≠ op) ∧
      (∀ b, sym = .andTail b → op ≠ .and → headKind (ts ++ rest) ≠ op) := by
  cases h <;> simp_all [headKind, Tok.kind, eq_comm]

theorem complete_atom (s : List Char) : Complete C type value .simple [.atom s] (.atom s) := by
  intro rest fuel t skip res h hres
  cases fuel with
  | zero => exact absurd hres (by simp [simpleExpression])
  | succ fuel =>
    have hkind : t.tt = .exp := h.kind
    have hrest : tokens t.s = rest := h.rest
    rw [simpleExpression, hkind] at hres
    cases hres
    refine ⟨hrest ▸ (h.toAt.next skip).toAt, ?_⟩
    rintro rfl
    exact h.match

theorem complete_not {ts : List Tok} {a : Expression} (ih : Complete C type value .simple ts a) :
    Complete C type value .simple (.not :: ts) (.not a) := by
  intro rest fuel t skip res h hres
  cases fuel with
  | zero => exact absurd hres (by simp [simpleExpression])
  | succ fuel =>
    have hkind : t.tt = .not := h.kind
    have hrest : tokens t.s = ts ++ rest := h.rest
    rw [simpleExpression, hkind] at hres
    obtain ⟨inner, hinner, rfl⟩ := Option.map_eq_some_iff.mp hres
    obtain ⟨hat, hval⟩ := ih rest fuel _ skip inner (hrest ▸ h.toAt.next skip) hinner
    refine ⟨hat, fun hskip => ?_⟩
    rw [hval hskip]
    simp only [verdict, Expression.eval]
    by_cases ha : a.eval (truth C type value) = true <;> simp [ha]

theorem complete_brace {ts : List Tok} {a : Expression} (ih : Complete C type value .or ts a) :
    Complete C type value .simple (.braceOpen :: ts ++ [.braceClose]) a := by
  intro rest fuel t skip res h hres
  cases fuel with
  | zero => exact absurd hres (by simp [simpleExpression])
  | succ fuel =>
    have hkind : t.tt = .braceOpen := h.kind
    have hrest : tokens t.s = ts ++ (.braceClose :: rest) := by
      rw [h.rest]
      simp
    rw [simpleExpression, hkind] at hres
    obtain ⟨inner, hinner, hout⟩ := Option.map_eq_some_iff.mp hres
    obtain ⟨hat, hval⟩ := ih (.braceClose :: rest) fuel t skip inner (by simp [headKind, Tok.kind])
      (by simp [headKind, Tok.kind]) h.sameType h.sameValue h.toAt.ne_error hrest hinner
    have hclose : inner.2.tt = .braceClose := hat.kind
    rw [if_neg (by simp [hclose])] at hout
    subst hout
    have hnext := (hat.next skip).toAt
    rw [hat.rest] at hnext
    exact ⟨hnext, hval⟩

variable {b : Expression}

theorem Operator.round (op : Operator C) {a : Expression} (hnode : ∀ m, m = verdict C type value a →
      verdict C type value (op.node a b) = if op.known m then m else verdict C type value b)
    {fuel : ℕ} {t : Token} {skip : Bool} {res : ℤ × Token} {ts left : List Tok}
    (hb : ∀ skip' res', Looks type value skip' (nextToken t skip) ts →
      op.operand fuel (nextToken t skip) skip' = some res' →
      Evaluated C type value skip' b left res') (h : At type value t (op.tok :: ts))
    (hm : skip = false → m = verdict C type value a)
    (hres : op.loop (fuel + 1) m t skip = some res) :
    ∃ m' t', op.loop fuel m' t' skip = some res ∧ At type value t' left ∧
      (skip = false → m' = verdict C type value (op.node a b)) := by
  rw [op.loop_succ, if_pos (show t.tt = op.tok.kind from h.kind)] at hres
  obtain ⟨first, hfirst, hloop⟩ := Option.bind_eq_some_iff.mp hres
  have hnext : Looks type value skip (nextToken t skip) ts := by
    have hnext := h.next skip
    rwa [h.rest] at hnext
  refine ⟨_, first.2, hloop, ?_⟩
  cases hknown : op.known m with
  | true =>
    rw [hknown, Bool.true_or] at hfirst
    refine ⟨(hb true first hnext.weaken hfirst).1, fun hskip => ?_⟩
    rw [hnode m (hm hskip), hknown]
    rfl
  | false =>
    rw [hknown, Bool.false_or] at hfirst
    obtain ⟨hat, hval⟩ := hb skip first hnext hfirst
    refine ⟨hat, fun hskip => ?_⟩
    rw [hnode m (hm hskip), hknown]
    exact hval hskip

theorem complete_and {ts : List Tok} {a : Expression}
    (ha : Complete C type value .simple ts a) (hb : Complete C type value (.andTail a) us b) :
    Complete C type value .and (ts ++ us) b := by
  intro rest fuel t skip res hfollow h hres
  cases fuel with
  | zero => exact absurd hres (by simp [andExpression])
  | succ fuel =>
    rw [andExpression] at hres
    obtain ⟨first, hfirst, hloop⟩ := Option.bind_eq_some_iff.mp hres
    rw [List.append_assoc] at h
    obtain ⟨hat, hval⟩ := ha (us ++ rest) fuel t skip first h hfirst
    exact hb rest fuel first.2 skip res first.1 hfollow hat hval hloop

theorem complete_or {ts : List Tok} {a : Expression}
    (ha : Complete C type value .and ts a) (hb : Complete C type value (.orTail a) us b)
    (htail : Derives (.orTail a) us b) : Complete C type value .or (ts ++ us) b := by
  intro rest fuel t skip res hand hor htype hvalue htt htokens hres
  cases fuel with
  | zero => exact absurd hres (by simp [orExpression])
  | succ fuel =>
    rw [orExpression] at hres
    obtain ⟨first, hfirst, hloop⟩ := Option.bind_eq_some_iff.mp hres
    have hnext := looks_nextToken htype hvalue htt skip
    rw [htokens, List.append_assoc] at hnext
    have hfollow := (headKind_tail htail hand).1 a rfl (by simp)
    obtain ⟨hat, hval⟩ := ha (us ++ rest) fuel _ skip first hfollow hnext hfirst
    exact hb rest fuel first.2 skip res first.1 hand hor hat hval hloop

theorem verdict_and (a b : Expression) (m : ℤ) (hm : m = verdict C type value a) :
    verdict C type value ((andOperator C).node a b) =
      if (andOperator C).known m then m else verdict C type value b := by
  subst hm
  simp only [andOperator, verdict, Expression.eval]
  by_cases ha : a.eval (truth C type value) = true <;> simp [ha]

theorem verdict_or (a b : Expression) (m : ℤ) (hm : m = verdict C type value a) :
    verdict C type value ((orOperator C).node a b) =
      if (orOperator C).known m then m else verdict C type value b := by
  subst hm
  simp only [orOperator, verdict, Expression.eval]
  by_cases ha : a.eval (truth C type value) = true <;> simp [ha]

theorem complete_andNil (a : Expression) : Complete C type value (.andTail a) [] a := by
  intro rest fuel t skip res m hfollow h hm hres
  rw [(andOperator C).loop_stop (by rw [h.kind]; exact hfollow) hres]
  exact ⟨h, hm⟩

theorem complete_orNil (a : Expression) : Complete C type value (.orTail a) [] a := by
  intro rest fuel t skip res m _ hfollow h hm hres
  rw [(orOperator C).loop_stop (by rw [h.kind]; exact hfollow) hres]
  exact ⟨h, hm⟩

theorem complete_andCons {ts : List Tok} {a c : Expression}
    (hb : Complete C type value .simple ts b)
    (hc : Complete C type value (.andTail (.and a b)) us c) :
    Complete C type value (.andTail a) (.and :: ts ++ us) c := by
  intro rest fuel t skip res m hfollow h hm hres
  cases fuel with
  | zero => exact absurd hres (by simp [andLoop])
  | succ fuel =>
    rw [List.append_assoc, List.cons_append] at h
    obtain ⟨m', t', hloop, hat, hval⟩ := (andOperator C).round (verdict_and a b)
      (fun skip' res' => hb (us ++ rest) fuel _ skip' res') h hm hres
    exact hc rest fuel t' skip res m' hfollow hat hval hloop

theorem complete_orCons {ts : List Tok} {a c : Expression} (hb : Complete C type value .and ts b)
    (hc : Complete C type value (.orTail (.or a b)) us c)
    (htail : Derives (.orTail (.or a b)) us c) :
    Complete C type value (.orTail a) (.or :: ts ++ us) c := by
  intro rest fuel t skip res m hand hor h hm hres
  cases fuel with
  | zero => exact absurd hres (by simp [orLoop])
  | succ fuel =>
    have hfollow := (headKind_tail htail hand).1 _ rfl (by simp)
    rw [List.append_assoc, List.cons_append] at h
    obtain ⟨m', t', hloop, hat, hval⟩ := (orOperator C).round (verdict_or a b)
      (fun skip' res' => hb (us ++ rest) fuel _ skip' res' hfollow) h hm hres
    exact hc rest fuel t' skip res m' hand hor hat hval hloop

theorem complete {sym : Symbol} {ts : List Tok} {a : Expression} (h : Derives sym ts a) :
    Complete C type value sym ts a := by
  induction h with
  | or _ htail iha ihb => exact complete_or iha ihb htail
  | orNil => exact complete_orNil _
  | orCons _ htail ihb ihc => exact complete_orCons ihb ihc htail
  | and _ _ iha ihb => exact complete_and iha ihb
  | andNil => exact complete_andNil _
  | andCons _ _ ihb ihc => exact complete_andCons ihb ihc
  | not _ ih => exact complete_not ih
  | brace _ ih => exact complete_brace ih
  | atom => exact complete_atom _

end

/-! ## The evaluation of a string -/

theorem tokens_length_le (s : List Char) : (tokens s).length ≤ s.length := by
  induction s with
  | nil => exact le_rfl
  | cons c s ih =>
    rw [List.length_cons]
    by_cases hc : isAtomChar c = true
    · rw [tokens_atomChar hc]
      unfold consAtom
      split
      next heq =>
        rw [heq, List.length_cons] at ih
        split_ifs <;> simp only [List.length_cons] <;> omega
      next => exact Nat.succ_le_succ ih
    · rw [tokens.eq_def]
      dsimp only
      split <;> first
        | exact Nat.succ_le_succ ih
        | exact Nat.le_succ_of_le ih
        | exact Nat.zero_le _
        | (exfalso; exact hc (isAtomChar_iff.mpr (by simp_all)))

theorem raiseError_fst (t : Token) (expected : TokenType) : (raiseError t expected).1 = -1 := by
  unfold raiseError
  split_ifs <;> rfl

theorem verdict_ne_error (C : Comparison) (type : CEntryType) (value : List Char)
    (a : Expression) : verdict C type value a ≠ -1 := by
  unfold verdict
  split_ifs <;> simp

theorem evalOnPath_eq (C : Comparison) (t : Token) (htt : t.tt = .endOfExpression)
    (hs : t.s = t.expr) :
    ∃ r answers, evalOnPath C t = some (r, answers) ∧
      (r = -1 ↔ ¬ ∃ a, Sentence t.expr a) ∧
      ∀ a, Sentence t.expr a → r = verdict C t.type (foldCase t.type t.value) a := by
  have htt' : (uncaseValue t).tt ≠ .error := by
    rw [show (uncaseValue t).tt = t.tt from rfl, htt]
    simp
  have htokens : tokens (uncaseValue t).s = tokens t.expr := by
    rw [show (uncaseValue t).s = t.s from rfl, hs]
  obtain ⟨res, hres⟩ := (total (C := C) (3 * t.expr.length + 3)).or (uncaseValue t) false rfl
    rfl htt' (by rw [htokens]; have := tokens_length_le t.expr; omega)
  have hparsed := (sound _).or (uncaseValue t) false res rfl rfl htt' hres
  rw [htokens] at hparsed
  unfold evalOnPath
  rw [hres, Option.map_some]
  by_cases hsentence : ∃ a, Sentence t.expr a
  · -- it is read to the end
    have hread : ∀ a, Sentence t.expr a →
        Evaluated C t.type (foldCase t.type t.value) false a [] res := by
      intro a ha
      refine complete ha [] _ (uncaseValue t) false res (by simp [headKind])
        (by simp [headKind]) rfl rfl htt' ?_ hres
      rw [htokens, List.append_nil]
    obtain ⟨a, ha⟩ := hsentence
    obtain ⟨hat, hval⟩ := hread a ha
    have hend : res.2.tt = .endOfExpression := hat.kind
    rw [if_neg (by simp [hend]), if_neg (by simp [hat.ended rfl])]
    refine ⟨res.1, res.2.answerList, rfl, ?_, fun b hb => (hread b hb).2 rfl⟩
    rw [hval rfl]
    exact iff_of_false (verdict_ne_error C _ _ a) (not_not.mpr ⟨a, ha⟩)
  · -- something is left, or there was an error
    have hleft : res.2.tt ≠ .endOfExpression := by
      rcases hparsed with herror | ⟨us, a, rest, heq, ha, hat⟩
      · rw [herror]
        simp
      · rcases rest with _ | ⟨tok, rest⟩
        · rw [List.append_nil] at heq
          exact absurd ⟨a, by unfold Sentence; rw [heq]; exact ha⟩ hsentence
        · rw [hat.kind]
          cases tok <;> simp [headKind, Tok.kind]
    rw [if_pos hleft]
    refine ⟨_, _, rfl, ?_, fun a ha => absurd ⟨a, ha⟩ hsentence⟩
    exact iff_of_true (raiseError_fst _ _) hsentence

/-- **Evaluating an expression.** For a string on the expression path and a value,
both short enough for the buffers, the result is `-1` iff the string is no
sentence. Otherwise it is `0` or `1` according to the value of the sentence, where
an atom is true iff the value matches it. -/
theorem evalExpression_decides (C : Comparison) (type : CEntryType) (expr value : List Char)
    (useIsExpression isExpr : Bool) (hexpr : expr.length < maxStringSize)
    (hvalue : value.length < maxStringSize)
    (hpath : (if useIsExpression then isExpr else isExpression expr) = true) :
    ∃ r answers, sgeEvalExpression C type (some expr) (some value) useIsExpression isExpr =
        some (r, answers) ∧
      (r = -1 ↔ ¬ ∃ a, Sentence expr a) ∧
      ∀ a, Sentence expr a →
        r = if a.eval (truth C type (foldCase type value)) then 0 else 1 := by
  unfold sgeEvalExpression
  dsimp only
  rw [if_neg (by omega), if_neg (by omega), if_pos hpath]
  exact evalOnPath_eq C _ rfl rfl

/-- Strings are compared as they are. -/
def plainComparison : Comparison where
  fnmatch p v := if p = ['*'] ∨ p = v then 0 else 1
  strcmp p v := if p = v then 0 else 1
  strcasecmp p v := if p.map Char.toLower = v.map Char.toLower then 0 else 1
  hostmatch p v := if p = ['*'] ∨ p = v then 0 else 1
  hostcmp p v := if p = v then 0 else 1

/-- `!a|b` is true of `b`. -/
theorem evalExpression_decides_or :
    (∃ a, Sentence "!a|b".toList a) ∧ ∃ r answers,
      sgeEvalExpression plainComparison .str (some "!a|b".toList) (some ['b']) false false =
        some (r, answers) ∧
      (r = -1 ↔ ¬ ∃ a, Sentence "!a|b".toList a) ∧
      ∀ a, Sentence "!a|b".toList a →
        r = if a.eval (truth plainComparison .str (foldCase .str ['b'])) then 0 else 1 := by
  refine ⟨⟨.or (.not (.atom ['a'])) (.atom ['b']), ?_⟩, evalExpression_decides plainComparison
    .str "!a|b".toList ['b'] false false (by decide) (by decide) (by decide)⟩
  have hnot : Derives .and [.not, .atom ['a']] (.not (.atom ['a'])) := .and (.not .atom) .andNil
  have hb : Derives .and [.atom ['b']] (.atom ['b']) := .and .atom .andNil
  exact .or hnot (.orCons hb .orNil)

/-- A value that is too long is an error, whatever the expression. -/
theorem evalExpression_long_value :
    ¬ ∀ (C : Comparison) (type : CEntryType) (expr value : List Char),
      expr.length < maxStringSize → isExpression expr = true →
      ∃ r answers, sgeEvalExpression C type (some expr) (some value) false false =
        some (r, answers) ∧ (r = -1 ↔ ¬ ∃ a, Sentence expr a) := by
  intro hclaim
  obtain ⟨r, answers, heval, hiff⟩ := hclaim plainComparison .str ['*']
    (List.replicate maxStringSize 'x') (by decide) (by decide)
  have hlong : sgeEvalExpression plainComparison .str (some ['*'])
      (some (List.replicate maxStringSize 'x')) false false = some (-1, [.longValue]) := by
    unfold sgeEvalExpression
    dsimp only
    rw [if_pos (by rw [List.length_replicate])]
  obtain rfl : r = -1 := (Prod.mk.inj (Option.some.inj (heval.symm.trans hlong))).1
  refine hiff.mp rfl ⟨.atom ['*'], ?_⟩
  exact .or (.and .atom .andNil) .orNil

end ClusterScheduler.Sgeobj
