import ClusterScheduler.Sgeobj.HostAttributes
import ClusterScheduler.Sgeobj.RangeText

/-!
# Profiles as text

An administrator writes the profiles of an attribute as the default value, with the values of host
groups and hosts behind it in brackets. The text is cut at the opening brackets, and each piece
loses the comma and the bracket at its end.

* `attrListAppendToDstring`, `attrListParseFromString` — printing and parsing.
* `attrListAppendToDstring_eq` — what is printed, as one join.
* `parseLoop_pieces` — the pieces of such a text are parsed to its entries.
* `attrList_roundTrip` — parsing gives back what was printed, in another order.

What a parse leaves in the list when it fails is left out.
-/

namespace ClusterScheduler.Sgeobj

/-- A profile of an `ASTR_Type` list. -/
abbrev StrAttr := HostAttr (List Char)

/-! ## Printing -/

structure AttrText where
  string : List Char
  hostString : List Char
  foundGroup : Bool
  foundHost : Bool

/-- A profile in brackets, without the first one. -/
def body (attr : StrAttr) : List Char := attr.href ++ '=' :: attr.value ++ [']']

def bracketed (attr : StrAttr) : List Char := '[' :: body attr

def appendAttr (foundDefault : Bool) (s : AttrText) (attr : StrAttr) : AttrText :=
  if foundDefault ∧ attr.href = hostrefDefault then s
  else if isHgroupName attr.href then
    { s with
      string := s.string ++ (if s.foundGroup || foundDefault then [','] else []) ++ bracketed attr
      foundGroup := true }
  else
    { s with
      hostString := s.hostString ++ (if s.foundHost then [','] else []) ++ bracketed attr
      foundHost := true }

/-- What follows the loop. -/
def AttrText.finish (foundDefault : Bool) (s : AttrText) : List Char :=
  if s.foundHost then
    s.string ++ (if foundDefault || s.foundGroup then [','] else []) ++ s.hostString
  else if !foundDefault && !s.foundGroup then "NONE".toList
  else s.string

def attrListAppendToDstring (B : Bootstrap) (thisList : List StrAttr) : List Char :=
  let default := attrListLocate B thisList hostrefDefault
  (thisList.foldl (appendAttr default.isSome)
    ⟨(default.map (·.value)).getD [], [], false, false⟩).finish default.isSome

/-! ## Parsing -/

inductive AttrError where
  | noValueGiven
  | missingComma
  | trailingComma
  | missingBracket
  | equalSignExpected
  | valueMulDefined (href : Name)
deriving DecidableEq

/-- The calls of `sge_strtok_r()` with one delimiter: empty tokens are skipped. -/
def strtok (delimitor : Char) (s : List Char) : List (List Char) :=
  (s.splitOn delimitor).filter (· ≠ [])

def isBlank (c : Char) : Bool := c = ' ' || c = '\t'

/-- The loop stops only at a character that is no blank, so that a text of blanks is left at its
front: `none`. -/
def sgeStripTrailingBlanks (s : List Char) : Option (List Char) :=
  if s ≠ [] ∧ s.all isBlank then none else some (s.rdropWhile isBlank)

def stripComma (isLast : Bool) (token : List Char) : Except AttrError (List Char) :=
  if !isLast then
    if token.getLast? = some ',' then .ok token.dropLast else .error .missingComma
  else if token.getLast? = some ',' then .error .trailingComma
  else .ok token

/-- The bracket is taken off, and the reference is told from the value. The last character of an
empty text is read in front of it: `none`. -/
def parseEntry (isFirst : Bool) (token : List Char) : Option (Except AttrError StrAttr) :=
  if token = [] then none
  else if token.getLast? = some ']' then
    match token.dropLast.span (· ≠ '=') with
    | (href, _ :: value) => some (.ok ⟨href, value⟩)
    | (_, []) => some (.error .equalSignExpected)
  else if isFirst then some (.ok ⟨hostrefDefault, token⟩)
  else some (.error .missingBracket)

/-- One turn of the loop, up to the new element. -/
def parsePiece (isFirst isLast : Bool) (token : List Char) : Option (Except AttrError StrAttr) :=
  (sgeStripTrailingBlanks token).bind fun token =>
    if token = [] then some (.error .noValueGiven)
    else
      match stripComma isLast token with
      | .error e => some (.error e)
      | .ok token => (sgeStripTrailingBlanks token).bind (parseEntry isFirst)

/-- `attr_list_add()` without a list for ambiguous references. -/
def attrListAdd (B : Bootstrap) (overwrite : Bool) (thisList : List StrAttr) (attr : StrAttr) :
    Except AttrError (List StrAttr) :=
  if (attrListLocate B thisList attr.href).isSome then
    if overwrite then
      .ok (thisList.modify (thisList.findIdx fun a => hostKey B a.href = hostKey B attr.href)
        fun a => { a with value := attr.value })
    else .error (.valueMulDefined attr.href)
  else .ok (thisList ++ [attr])

def parseLoop (B : Bootstrap) (overwrite : Bool) :
    Bool → List (List Char) → List StrAttr → Option (Except AttrError (List StrAttr))
  | _, [], thisList => some (.ok thisList)
  | isFirst, token :: rest, thisList =>
    (parsePiece isFirst rest.isEmpty token).bind fun
      | .error e => some (.error e)
      | .ok attr =>
        match attrListAdd B overwrite thisList attr with
        | .error e => some (.error e)
        | .ok thisList => parseLoop B overwrite false rest thisList

def attrListParseFromString (B : Bootstrap) (overwrite : Bool) (string : List Char) :
    Option (Except AttrError (List StrAttr)) :=
  parseLoop B overwrite true (strtok '[' string) []

/-! ## Lists that can be printed -/

/-- The characters that end a reference, or a piece. -/
structure PrintableAttr (attr : StrAttr) : Prop where
  href : ∀ c ∈ ['=', '[', ']', ' ', '\t'], c ∉ attr.href
  value : ∀ c ∈ ['[', ']'], c ∉ attr.value
  nonempty : attr.value ≠ []
  leading : ∀ c ∈ attr.value.head?, isBlank c = false
  trailing : ∀ c ∈ attr.value.getLast?, isBlank c = false ∧ c ≠ ','

/-- References that are equal as host fields are spelled alike. -/
structure PrintableList (B : Bootstrap) (thisList : List StrAttr) : Prop where
  nonempty : thisList ≠ []
  distinct : (thisList.map (·.href)).Nodup
  canonical : ∀ a ∈ thisList, ∀ b ∈ thisList, hostKey B a.href = hostKey B b.href → a.href = b.href
  printable : ∀ attr ∈ thisList, PrintableAttr attr

theorem PrintableList.nodup_keys {B : Bootstrap} {l : List StrAttr} (h : PrintableList B l) :
    (l.map fun attr => hostKey B attr.href).Nodup :=
  (List.Nodup.of_map _ h.distinct).map_on fun a ha b hb heq =>
    List.inj_on_of_nodup_map h.distinct ha hb (h.canonical a ha b hb heq)

/-! ## What is printed -/

variable {B : Bootstrap} {thisList l : List StrAttr} {attr : StrAttr} {foundDefault : Bool}
  {ps qs : List (List Char)} {s : AttrText}

theorem hostKey_default {h : Name} (hkey : hostKey B h = hostKey B hostrefDefault) :
    h = hostrefDefault := by
  have hgroup : isHgroupName h = true := (isHgroupName_of_hostKey hkey).trans (by decide)
  rw [hostKey_group B hgroup, hostKey_group B (by decide)] at hkey
  have hkey : (foldName h).take 255 = ['@', '/'] := hkey
  have hfold : foldName h = ['@', '/'] := by
    have hlen := congrArg List.length hkey
    simp only [List.length_take, List.length_cons, List.length_nil] at hlen
    rwa [List.take_of_length_le (by omega)] at hkey
  obtain ⟨a, b, rfl⟩ : ∃ a b, h = [a, b] :=
    List.length_eq_two.mp (by simpa [foldName] using congrArg List.length hfold)
  simp only [foldName, List.map_cons, List.map_nil, List.cons.injEq, and_true] at hfold
  rw [(toUpper_iff_of_lt (by decide)).mp hfold.1, (toUpper_iff_of_lt (by decide)).mp hfold.2]
  rfl

theorem intercalate_concat (ps : List (List Char)) (p : List Char) :
    [','].intercalate (ps ++ [p]) =
      [','].intercalate ps ++ (if ps = [] then [] else [',']) ++ p := by
  by_cases h : ps = []
  · simp [h]
  · rw [intercalate_append h (List.cons_ne_nil _ _), if_neg h]
    simp

/-- The two texts are joins, and the flags tell whether something is in them. -/
structure AttrText.Joins (s : AttrText) (foundDefault : Bool) (ps qs : List (List Char)) :
    Prop where
  string : s.string = [','].intercalate ps
  hostString : s.hostString = [','].intercalate qs
  group : (s.foundGroup || foundDefault) = decide (ps ≠ [])
  host : s.foundHost = decide (qs ≠ [])

variable (h : s.Joins foundDefault ps qs)
include h

theorem AttrText.Joins.addGroup (p : List Char) :
    AttrText.Joins { s with
      string := s.string ++ (if s.foundGroup || foundDefault then [','] else []) ++ p
      foundGroup := true } foundDefault (ps ++ [p]) qs where
  string := by
    rw [intercalate_concat, h.group, h.string]
    by_cases hps : ps = [] <;> simp [hps]
  hostString := h.hostString
  group := by simp
  host := h.host

theorem AttrText.Joins.addHost (p : List Char) :
    AttrText.Joins { s with
      hostString := s.hostString ++ (if s.foundHost then [','] else []) ++ p
      foundHost := true } foundDefault ps (qs ++ [p]) where
  string := h.string
  hostString := by
    rw [intercalate_concat, h.host, h.hostString]
    by_cases hqs : qs = [] <;> simp [hqs]
  group := h.group
  host := by simp

theorem AttrText.Joins.finish_eq (hne : ps ++ qs ≠ []) :
    s.finish foundDefault = [','].intercalate (ps ++ qs) := by
  have hgroup : (foundDefault || s.foundGroup) = decide (ps ≠ []) := by rw [Bool.or_comm, h.group]
  rw [finish, ← Bool.not_or, hgroup, h.host, h.string, h.hostString]
  by_cases hqs : qs = []
  · have hps : ps ≠ [] := by simpa [hqs] using hne
    simp [hqs, hps]
  · by_cases hps : ps = []
    · simp [hqs, hps]
    · simp [intercalate_append hps hqs, hqs, hps]

omit h

def groupAttrs (l : List StrAttr) : List StrAttr :=
  l.filter fun attr => isHgroupName attr.href ∧ attr.href ≠ hostrefDefault

def hostAttrs (l : List StrAttr) : List StrAttr := l.filter fun attr => ¬ isHgroupName attr.href

theorem joins_foldl (foundDefault : Bool) :
    ∀ (l : List StrAttr) (s : AttrText) (ps qs : List (List Char)),
    (foundDefault = false → ∀ attr ∈ l, attr.href ≠ hostrefDefault) →
    s.Joins foundDefault ps qs →
    (l.foldl (appendAttr foundDefault) s).Joins foundDefault
      (ps ++ (groupAttrs l).map bracketed) (qs ++ (hostAttrs l).map bracketed)
  | [], s, ps, qs, _, h => by simpa [groupAttrs, hostAttrs] using h
  | attr :: l, s, ps, qs, hnone, h => by
    have ih := fun s' ps' qs' => joins_foldl foundDefault l s' ps' qs'
      fun hfalse a ha => hnone hfalse a (.tail _ ha)
    rw [List.foldl_cons, appendAttr]
    by_cases hdefault : attr.href = hostrefDefault
    · have hfound : foundDefault = true := by
        by_contra hfalse
        exact hnone (by simpa using hfalse) attr (.head _) hdefault
      have hgroup : isHgroupName hostrefDefault = true := by decide
      simpa [hfound, hdefault, groupAttrs, hostAttrs, hgroup] using ih s ps qs h
    · rw [if_neg fun h => hdefault h.2]
      by_cases hgroup : isHgroupName attr.href = true
      · rw [if_pos hgroup]
        simpa [groupAttrs, hostAttrs, hgroup, hdefault] using ih _ _ _ (h.addGroup (bracketed attr))
      · rw [if_neg hgroup]
        simpa [groupAttrs, hostAttrs, hgroup] using ih _ _ _ (h.addHost (bracketed attr))

theorem toList_locate : ∀ l : List StrAttr, (l.map fun attr => hostKey B attr.href).Nodup →
    (attrListLocate B l hostrefDefault).toList = l.filter (·.href = hostrefDefault)
  | [], _ => rfl
  | attr :: l, hnodup => by
    obtain ⟨hattr, hl⟩ := List.nodup_cons.mp hnodup
    by_cases hdefault : attr.href = hostrefDefault
    · -- no other entry has this reference
      have hnone : l.filter (·.href = hostrefDefault) = [] := by
        refine List.filter_eq_nil_iff.mpr fun a ha heq => hattr (List.mem_map.mpr ⟨a, ha, ?_⟩)
        simp [of_decide_eq_true heq, hdefault]
      rw [List.filter_cons_of_pos (by simpa using hdefault), hnone, attrListLocate,
        List.find?_cons_of_pos (by simp [hdefault])]
      rfl
    · rw [List.filter_cons_of_neg (by simpa using hdefault), ← toList_locate l hl, attrListLocate,
        List.find?_cons_of_neg (by simpa using mt hostKey_default hdefault)]
      rfl

def printedOrder (B : Bootstrap) (l : List StrAttr) : List StrAttr :=
  (attrListLocate B l hostrefDefault).toList ++ (groupAttrs l ++ hostAttrs l)

theorem printedOrder_perm (hnodup : (l.map fun attr => hostKey B attr.href).Nodup) :
    (printedOrder B l).Perm l := by
  have hrest : (groupAttrs l ++ hostAttrs l).Perm
      (l.filter fun attr => !decide (attr.href = hostrefDefault)) := by
    refine .trans (.of_eq ?_) (List.filter_append_perm (fun attr => isHgroupName attr.href) _)
    rw [List.filter_filter, List.filter_filter, groupAttrs, hostAttrs]
    congr 1
    · exact List.filter_congr fun attr _ => by simp
    · refine List.filter_congr fun attr _ => ?_
      by_cases hdefault : attr.href = hostrefDefault
      · have hgroup : isHgroupName hostrefDefault = true := by decide
        simp [hdefault, hgroup]
      · simp [hdefault]
  rw [printedOrder, toList_locate l hnodup]
  exact (hrest.append_left _).trans (List.filter_append_perm _ l)

/-- **What is printed**: the default value, and the other profiles in brackets. -/
theorem attrListAppendToDstring_eq (hne : l ≠ [])
    (hnodup : (l.map fun attr => hostKey B attr.href).Nodup) :
    attrListAppendToDstring B l =
      [','].intercalate ((attrListLocate B l hostrefDefault).toList.map (·.value) ++
        (groupAttrs l ++ hostAttrs l).map bracketed) := by
  have hparts : printedOrder B l ≠ [] := fun hnil =>
    hne (List.perm_nil.mp (hnil ▸ (printedOrder_perm hnodup).symm))
  have hstart : AttrText.Joins
      ⟨((attrListLocate B l hostrefDefault).map (·.value)).getD [], [], false, false⟩
      (attrListLocate B l hostrefDefault).isSome
      ((attrListLocate B l hostrefDefault).toList.map (·.value)) [] := by
    cases attrListLocate B l hostrefDefault <;> exact ⟨by simp, rfl, by simp, rfl⟩
  have hjoins := joins_foldl _ l _ _ _ (fun hnone attr hattr heq => by
    have hfilter := toList_locate l hnodup
    rw [Option.isNone_iff_eq_none.mp (Option.isSome_eq_false_iff.mp hnone)] at hfilter
    exact List.filter_eq_nil_iff.mp hfilter.symm attr hattr (by simpa using heq)) hstart
  rw [attrListAppendToDstring, hjoins.finish_eq (by simpa [printedOrder] using hparts)]
  simp

/-! ## The pieces -/

variable {a : List Char} {es : List StrAttr} {overwrite isFirst : Bool}

/-- What stands between the opening brackets. -/
def pieces : List Char → List StrAttr → List (List Char)
  | a, [] => [a]
  | a, attr :: es => (a ++ [',']) :: pieces (body attr) es

theorem intercalate_pieces : ∀ (es : List StrAttr) (a : List Char),
    [','].intercalate (a :: es.map bracketed) = ['['].intercalate (pieces a es)
  | [], a => by simp [pieces]
  | [attr], a => by simp [pieces, bracketed]
  | attr :: attr' :: es, a => by
    have ih := intercalate_pieces (attr' :: es) (body attr)
    simp only [List.map_cons, pieces, List.intercalate_cons_cons] at ih ⊢
    rw [← ih]
    simp [bracketed]

/-- A piece without brackets inside, and without what is stripped. -/
structure PieceOk (a : List Char) : Prop where
  bracket : '[' ∉ a
  nonempty : a ≠ []
  last : ∀ c ∈ a.getLast?, isBlank c = false ∧ c ≠ ','

theorem getLast?_body (attr : StrAttr) : (body attr).getLast? = some ']' := List.getLast?_concat

theorem pieceOk_body (h : PrintableAttr attr) : PieceOk (body attr) where
  bracket := by
    have hhref := h.href '[' (by decide)
    have hvalue := h.value '[' (by decide)
    simp [body, hhref, hvalue]
  nonempty := by simp [body]
  last := by
    rintro c hc
    obtain rfl : ']' = c := Option.some.inj ((getLast?_body attr).symm.trans hc)
    exact ⟨by decide, by decide⟩

theorem PrintableAttr.pieceOk (h : PrintableAttr attr) : PieceOk attr.value where
  bracket := h.value '[' (by decide)
  nonempty := h.nonempty
  last := h.trailing

theorem pieces_ok (ha : PieceOk a) (hes : ∀ attr ∈ es, PrintableAttr attr) :
    ∀ p ∈ pieces a es, '[' ∉ p ∧ p ≠ [] := by
  induction es generalizing a with
  | nil => simpa [pieces] using ⟨ha.bracket, ha.nonempty⟩
  | cons attr es ih =>
    rw [pieces]
    refine List.forall_mem_cons.mpr ⟨⟨?_, by simp⟩, ih (pieceOk_body (hes attr (.head _)))
      fun b hb => hes b (.tail _ hb)⟩
    simpa using ha.bracket

theorem strtok_pieces (ha : PieceOk a) (hes : ∀ attr ∈ es, PrintableAttr attr) :
    strtok '[' ([','].intercalate (a :: es.map bracketed)) = pieces a es := by
  have hok := pieces_ok ha hes
  have hne : pieces a es ≠ [] := by cases es <;> simp [pieces]
  rw [intercalate_pieces, strtok, List.splitOn_intercalate '[' (fun p hp => (hok p hp).1) hne]
  exact List.filter_eq_self.mpr fun p hp => by simpa using (hok p hp).2

theorem strtok_bracket (t : List Char) : strtok '[' ('[' :: t) = strtok '[' t := by
  rw [strtok, ← List.nil_append ('[' :: t), List.splitOn_append_cons_self]
  rfl

/-! ## Parsing a piece -/

theorem strip_of_last (h : ∀ c ∈ a.getLast?, isBlank c = false) :
    sgeStripTrailingBlanks a = some a := by
  rcases List.eq_nil_or_concat' a with rfl | ⟨b, c, rfl⟩
  · rfl
  · have hc : isBlank c = false := h c (by simp)
    rw [sgeStripTrailingBlanks, if_neg (by simp [hc]),
      List.rdropWhile_concat_neg _ _ _ (by simp [hc])]

theorem parsePiece_pieces (ha : PieceOk a) (isFirst isLast : Bool) :
    parsePiece isFirst isLast (if isLast then a else a ++ [',']) = parseEntry isFirst a := by
  have hstrip := strip_of_last fun c hc => (ha.last c hc).1
  cases isLast with
  | true =>
    have hcomma : a.getLast? ≠ some ',' := fun h => (ha.last ',' h).2 rfl
    rw [if_pos rfl, parsePiece, hstrip]
    simp [ha.nonempty, stripComma, hcomma, hstrip]
  | false =>
    have hcomma : sgeStripTrailingBlanks (a ++ [',']) = some (a ++ [',']) :=
      strip_of_last (by simp [isBlank])
    rw [if_neg (by decide), parsePiece, hcomma]
    simp [stripComma, hstrip]

theorem parseEntry_body (h : PrintableAttr attr) (isFirst : Bool) :
    parseEntry isFirst (body attr) = some (.ok attr) := by
  have hhref : ∀ c ∈ attr.href, decide (c ≠ '=') = true := fun c hc => by
    have := h.href '=' (by decide)
    grind
  have hspan : (attr.href ++ '=' :: attr.value).span (· ≠ '=') = (attr.href, '=' :: attr.value) := by
    rw [List.span_eq_takeWhile_dropWhile, List.takeWhile_append_of_pos hhref,
      List.dropWhile_append_of_pos hhref]
    simp
  have hdrop : (body attr).dropLast = attr.href ++ '=' :: attr.value := List.dropLast_concat
  rw [parseEntry, if_neg (pieceOk_body h).nonempty, if_pos (getLast?_body attr), hdrop, hspan]

theorem parseEntry_default (h : PrintableAttr attr) (hdefault : attr.href = hostrefDefault) :
    parseEntry true attr.value = some (.ok attr) := by
  have hlast : attr.value.getLast? ≠ some ']' := fun hlast =>
    h.value ']' (by decide) (List.mem_of_getLast? hlast)
  rw [parseEntry, if_neg h.nonempty, if_neg hlast, if_pos rfl, ← hdefault]

/-! ## Parsing the text -/

theorem attrListAdd_new (h : hostKey B attr.href ∉ l.map fun a => hostKey B a.href)
    (overwrite : Bool) : attrListAdd B overwrite l attr = .ok (l ++ [attr]) := by
  have hnone : attrListLocate B l attr.href = none := by
    refine List.find?_eq_none.mpr fun a ha heq => h (List.mem_map.mpr ⟨a, ha, ?_⟩)
    simpa using heq
  rw [attrListAdd, hnone]
  rfl

/-- **The loop.** Each piece becomes the next entry. -/
theorem parseLoop_pieces : ∀ (es : List StrAttr) (a : List Char) (attr : StrAttr) (isFirst : Bool)
    (l : List StrAttr), PieceOk a → parseEntry isFirst a = some (.ok attr) →
    (∀ e ∈ es, PrintableAttr e) → ((l ++ attr :: es).map fun e => hostKey B e.href).Nodup →
    parseLoop B overwrite isFirst (pieces a es) l = some (.ok (l ++ attr :: es))
  | es, a, attr, isFirst, l, ha, hentry, hes, hnodup => by
    have hnew : hostKey B attr.href ∉ l.map fun e => hostKey B e.href := by
      intro hmem
      rw [List.map_append, List.map_cons] at hnodup
      exact (List.nodup_append.mp hnodup).2.2 _ hmem _ (.head _) rfl
    cases es with
    | nil =>
      have hpiece := parsePiece_pieces ha isFirst true
      rw [if_pos rfl, hentry] at hpiece
      rw [pieces, parseLoop, List.isEmpty_nil, hpiece]
      simp [attrListAdd_new hnew, parseLoop]
    | cons e es =>
      have hpiece := parsePiece_pieces ha isFirst false
      rw [if_neg (by decide), hentry] at hpiece
      have hrest : (pieces (body e) es).isEmpty = false := by cases es <;> rfl
      have he := hes e (.head _)
      have ih := parseLoop_pieces es (body e) e false (l ++ [attr]) (pieceOk_body he)
        (parseEntry_body he false) (fun b hb => hes b (.tail _ hb)) (by simpa using hnodup)
      rw [pieces, parseLoop, hrest, hpiece]
      simpa [attrListAdd_new hnew] using ih

theorem parseLoop_strtok (ha : PieceOk a) (hentry : parseEntry true a = some (.ok attr))
    (hes : ∀ e ∈ es, PrintableAttr e)
    (hnodup : ((attr :: es).map fun e => hostKey B e.href).Nodup) :
    parseLoop B overwrite true (strtok '[' ([','].intercalate (a :: es.map bracketed))) [] =
      some (.ok (attr :: es)) := by
  rw [strtok_pieces ha hes]
  exact parseLoop_pieces es a attr true [] ha hentry hes hnodup

/-- **Profiles survive printing**: the text of a list is parsed to the same profiles, with the
default first, then the host groups and the hosts. -/
theorem attrList_roundTrip (B : Bootstrap) (l : List StrAttr) (h : PrintableList B l) :
    ∃ l', attrListParseFromString B false (attrListAppendToDstring B l) = some (.ok l') ∧
      l'.Perm l := by
  have hperm := printedOrder_perm h.nodup_keys
  refine ⟨printedOrder B l, ?_, hperm⟩
  have hprintable : ∀ attr ∈ printedOrder B l, PrintableAttr attr := fun attr hattr =>
    h.printable attr (hperm.subset hattr)
  have hnodup : ((printedOrder B l).map fun attr => hostKey B attr.href).Nodup :=
    (hperm.map _).nodup_iff.mpr h.nodup_keys
  rw [attrListParseFromString, attrListAppendToDstring_eq h.nonempty h.nodup_keys]
  have hne : printedOrder B l ≠ [] := fun hnil =>
    h.nonempty (List.perm_nil.mp (hnil ▸ hperm.symm))
  unfold printedOrder at hprintable hnodup hne ⊢
  generalize groupAttrs l ++ hostAttrs l = rest at hprintable hnodup hne ⊢
  cases hdefault : attrListLocate B l hostrefDefault with
  | none =>
    rw [hdefault] at hprintable hnodup hne
    obtain ⟨attr, es, rfl⟩ := List.exists_cons_of_ne_nil hne
    have hattr := hprintable attr (.head _)
    have hopen : [','].intercalate ((attr :: es).map bracketed) =
        '[' :: [','].intercalate (body attr :: es.map bracketed) := by
      cases es <;> simp [bracketed, List.intercalate_cons_cons]
    rw [Option.toList_none, List.map_nil, List.nil_append, hopen, strtok_bracket]
    exact parseLoop_strtok (pieceOk_body hattr) (parseEntry_body hattr true)
      (fun e he => hprintable e (.tail _ he)) hnodup
  | some attr =>
    rw [hdefault] at hprintable hnodup
    have hattr := hprintable attr (.head _)
    have hkey := List.find?_some hdefault
    have hhref : attr.href = hostrefDefault := hostKey_default (of_decide_eq_true hkey)
    exact parseLoop_strtok hattr.pieceOk (parseEntry_default hattr hhref)
      (fun e he => hprintable e (.tail _ he)) hnodup

/-- A default without a host, and a host group before a host. -/
theorem attrList_roundTrip_three : ∃ l',
    attrListParseFromString ⟨false, none⟩ false (attrListAppendToDstring ⟨false, none⟩
      [⟨['h'], ['b', '=', '0']⟩, ⟨['@', 'g'], ['2', ',', 'a']⟩, ⟨['@', '/'], ['1']⟩]) =
        some (.ok l') ∧
      l'.Perm [⟨['h'], ['b', '=', '0']⟩, ⟨['@', 'g'], ['2', ',', 'a']⟩, ⟨['@', '/'], ['1']⟩] :=
  attrList_roundTrip _ _
    { nonempty := by decide
      distinct := by decide
      canonical := by decide
      printable := by
        simp only [List.forall_mem_cons]
        exact ⟨⟨by simp, by simp, by simp, by simp [isBlank], by simp [isBlank]⟩,
          ⟨by simp, by simp, by simp, by simp [isBlank], by simp [isBlank]⟩,
          ⟨by simp, by simp, by simp, by simp [isBlank], by simp [isBlank]⟩, nofun⟩ }

end ClusterScheduler.Sgeobj
