import ClusterScheduler.Foundation.NumberText
import ClusterScheduler.Sgeobj.Range

/-!
# Reading a range

* `rangeParseFromString` — the parser of the source for one range, with the texts of its
  errors.
* `Documented` — the forms a range may have.
* `Differs` — the texts that are not read as documented.
* `rangeParse_documented` — the parser follows its documentation on all other texts, and on
  no text of these.
-/

namespace ClusterScheduler.Sgeobj

open Foundation

/-! ## Functions of the source -/

def rangeInfinity : ℕ := 9999999

def toUint32 (z : ℤ) : ℕ := (z % 2 ^ 32).toNat

/-- What is added to the answer list. -/
inductive RangeError where
  | initialPortion (string : List Char)
  | unknownTrailer (string trailer : List Char)
  | negativeStep
  deriving DecidableEq

def quoted (s : List Char) : List Char := '"' :: s.take 100 ++ ['"']

def RangeError.text : RangeError → List Char
  | .initialPortion s =>
    "Numerical value invalid!\nThe initial portion of string ".toList ++ quoted s ++
      " contains no decimal number".toList
  | .unknownTrailer s trailer =>
    "Range specifier ".toList ++ quoted s ++ " has unknown trailer ".toList ++ quoted trailer
  | .negativeStep => "Negative or zero step in range is not allowed".toList

def orderedRange (rmin rmax step : ℕ) : Range :=
  if rmax < rmin then ⟨rmax, rmin, step⟩ else ⟨rmin, rmax, step⟩

/-- The constant `1.0E-12` as a binary64 number. -/
def epsilon : ℚ := 4951760157141521 / 2 ^ 92

/-- The step behind the colon. A step from `2 ^ 32` on differs from its conversion to 32 bits by
more than `epsilon`, whatever the conversion yields. -/
def parseStep (s : List Char) : Except (Option RangeError) ℕ :=
  match strtod s with
  | none => .error (some (.initialPortion s))
  | some (.finite q, rest) =>
    if 0 < q then
      if epsilon < q - toUint32 ⌊q⌋ then .error (some (.initialPortion s))
      else if rest ≠ [] then .error (some (.unknownTrailer s rest))
      else .ok (toUint32 ⌊q⌋)
    else .error (some .negativeStep)
  | some (.infinite negative, _) =>
    if negative then .error (some .negativeStep) else .error (some (.initialPortion s))
  | some (.nan, _) => .error (some .negativeStep)

/-- What follows the first number and the character behind it. -/
def parseUpper (stepAllowed : Bool) (rmin : ℕ) (s : List Char) :
    Except (Option RangeError) Range :=
  match strtol s with
  | none => .error (some (.initialPortion s))
  | some (rmax, []) => .ok (orderedRange rmin (toUint32 rmax) 1)
  | some (rmax, c :: t) =>
    if stepAllowed ∧ c = ':' then
      (parseStep t).map fun step => orderedRange rmin (toUint32 rmax) step
    else .error (some (.unknownTrailer s (c :: t)))

def isSeparator (stepAllowed : Bool) (c : Char) (rest : List Char) : Bool :=
  c = '-' || rest.head?.any Char.isDigit || rest.isEmpty || (stepAllowed && c = ':')

/-- A range that begins with a minus. -/
def parseLeading (stepAllowed infAllowed : Bool) (s : List Char) :
    Except (Option RangeError) Range :=
  if s.isEmpty then
    -- the step of the new element is not set
    if infAllowed then .ok ⟨1, rangeInfinity, 0⟩ else .error none
  else
    match strtol s with
    | none => .error (some (.initialPortion s))
    | some (rmax, rest) =>
      if rest ≠ [] ∨ (stepAllowed ∧ rest.head? ≠ some ':') then
        .error (some (.unknownTrailer ('-' :: s) s))
      else .ok (orderedRange 1 (toUint32 rmax) 1)

def parseNumber (stepAllowed infAllowed : Bool) (s : List Char) :
    Except (Option RangeError) Range :=
  match strtol s with
  | none => .error (some (.initialPortion s))
  | some (rmin, []) => .ok (orderedRange (toUint32 rmin) (toUint32 rmin) 1)
  | some (rmin, c :: rest) =>
    if !isSeparator stepAllowed c rest then .error (some (.unknownTrailer s (c :: rest)))
    else if rest.isEmpty then
      if infAllowed then .ok (orderedRange (toUint32 rmin) rangeInfinity 1) else .error none
    else parseUpper stepAllowed (toUint32 rmin) rest

/-- The element that is created. An error without a text is one without an answer. -/
def rangeParseFromString (stepAllowed infAllowed : Bool) (s : List Char) :
    Except (Option RangeError) Range :=
  if s.map Char.toLower = "undefined".toList then .error none
  else
    match s with
    | '-' :: rest => parseLeading stepAllowed infAllowed rest
    | s => parseNumber stepAllowed infAllowed s

/-! ## The documented forms -/

section Forms

variable (stepAllowed infAllowed : Bool)

/-- An unsigned decimal number below `2 ^ 31`, and what follows it. -/
def Number (s : List Char) (n : ℕ) (rest : List Char) : Prop := StartsWith s n rest ∧ n < 2 ^ 31

/-- The text of a positive integer. -/
def WholeStep (s : List Char) (n : ℕ) : Prop := 0 < n ∧ strtod s = some (.finite n, [])

def between (a b step : ℕ) : Range := ⟨min a b, max a b, step⟩

/-- The forms of a range and what they mean. -/
inductive Documented : List Char → Range → Prop
  | single {s n} : Number s n [] → Documented s (between n n 1)
  | span {s t m n} : Number s m ('-' :: t) → Number t n [] → Documented s (between m n 1)
  | upTo {s n} : Number s n [] → Documented ('-' :: s) (between 1 n 1)
  | onward {s n} : infAllowed → Number s n ['-'] → Documented s (between n rangeInfinity 1)
  | all : infAllowed → Documented ['-'] ⟨1, rangeInfinity, 1⟩
  | stepped {s t u m n d} : stepAllowed → Number s m ('-' :: t) → Number t n (':' :: u) →
      WholeStep u d → Documented s (between m n d)

/-! ## What differs -/

/-- Some number is read from the text. -/
def Reads (s rest : List Char) : Prop := ∃ value, strtol s = some (value, rest)

/-- The text starts with a blank or a sign, or with a number that is too great. -/
def Odd (s : List Char) : Prop :=
  (∃ c ∈ s.head?, isSpace c = true ∨ isSign c = true) ∨
    ∃ n rest, StartsWith s n rest ∧ 2 ^ 31 ≤ n

/-- A step that is read although it need not be whole. -/
def NearlyWhole (s : List Char) (q : ℚ) : Prop :=
  strtod s = some (.finite q, []) ∧ 0 < q ∧ q < 2 ^ 32 ∧ q - ⌊q⌋ ≤ epsilon

/-- The texts that are not read as they are documented. -/
inductive Differs : List Char → Prop
  /-- The step stays zero. -/
  | dash : infAllowed → Differs ['-']
  /-- The form is refused where a step is allowed. -/
  | upTo {s n} : stepAllowed → Number s n [] → Differs ('-' :: s)
  | oddUpTo {s} : stepAllowed = false → Odd s → Reads s [] → Differs ('-' :: s)
  | odd {s} : s.head? ≠ some '-' → Odd s → Reads s [] → Differs s
  /-- Any character is taken for the minus at the end. -/
  | anyEnd {s c} : s.head? ≠ some '-' → infAllowed → Reads s [c] → Odd s ∨ c ≠ '-' → Differs s
  /-- Any character is taken for the minus in front of a digit, and a colon where a step is
  allowed. -/
  | anySpan {s c t} : s.head? ≠ some '-' → t ≠ [] → isSeparator stepAllowed c t → Reads s (c :: t) →
      Reads t [] → Odd s ∨ c ≠ '-' ∨ Odd t → Differs s
  | anyStepped {s c t u q} : s.head? ≠ some '-' → stepAllowed → t ≠ [] →
      isSeparator stepAllowed c t → Reads s (c :: t) → Reads t (':' :: u) → NearlyWhole u q →
      Odd s ∨ c ≠ '-' ∨ Odd t ∨ q ≠ ⌊q⌋ → Differs s
  /-- A step that does not fit 32 bits. -/
  | greatStep {s t u m n d} : stepAllowed → Number s m ('-' :: t) → Number t n (':' :: u) →
      WholeStep u d → 2 ^ 32 ≤ d → Differs s

end Forms

/-! ## Numbers -/

variable {stepAllowed infAllowed : Bool} {s t rest : List Char} {n d : ℕ} {r : Range}

theorem orderedRange_eq (a b step : ℕ) : orderedRange a b step = between a b step := by
  unfold orderedRange between
  split_ifs with h
  · rw [Nat.min_eq_right (Nat.le_of_lt h), Nat.max_eq_left (Nat.le_of_lt h)]
  · rw [Nat.min_eq_left (Nat.not_lt.mp h), Nat.max_eq_right (Nat.not_lt.mp h)]

theorem toUint32_natCast (h : n < 2 ^ 32) : toUint32 n = n := by
  unfold toUint32
  omega

variable (h : Number s n rest)
include h

theorem Number.strtol : strtol s = some ((n : ℤ), rest) := by
  rw [strtol_eq h.1]
  have := h.2
  simp only [Option.some.injEq, Prod.mk.injEq, and_true]
  omega

theorem Number.toUint32 : toUint32 n = n :=
  toUint32_natCast (Nat.lt_trans h.2 (by decide))

theorem Number.head : s.head? ≠ some '-' := by
  intro hhead
  exact absurd (h.1.head '-' hhead) (by decide)

theorem Number.not_odd : ¬ Odd s := by
  rintro (⟨c, hc, hspace | hsign⟩ | ⟨m, rest', hm, hle⟩)
  · rw [isSpace_digit (h.1.head c hc)] at hspace
    exact absurd hspace (by decide)
  · rw [isSign_digit (h.1.head c hc)] at hsign
    exact absurd hsign (by decide)
  · have := (h.1.unique hm).1
    have := h.2
    omega

omit h

variable {value : ℤ}

theorem number_of_reads (h : Foundation.strtol s = some (value, rest))
    (hodd : ¬ Odd s) : ∃ n, Number s n rest ∧ value = n := by
  rcases strtol_cases h with ⟨n, hn, rfl⟩ | hhead
  · have hlt : n < 2 ^ 31 := by
      by_contra hge
      exact hodd (Or.inr ⟨n, rest, hn, Nat.not_lt.mp hge⟩)
    refine ⟨n, ⟨hn, hlt⟩, ?_⟩
    omega
  · exact absurd (Or.inl hhead) hodd

theorem Number.eq_of_reads (h : Number s n rest) {rest' : List Char} (h' : Reads s rest') :
    rest = rest' := by
  obtain ⟨value, hvalue⟩ := h'
  rw [h.strtol] at hvalue
  exact congrArg Prod.snd (Option.some.inj hvalue)

/-! ## What the parser accepts -/

variable {q : ℚ}

theorem toUint32_floor (hq : 0 < q) (hlt : q < 2 ^ 32) : ((toUint32 ⌊q⌋ : ℕ) : ℤ) = ⌊q⌋ := by
  have hpos : 0 ≤ ⌊q⌋ := Int.floor_nonneg.mpr hq.le
  have hsmall : ⌊q⌋ < 2 ^ 32 := Int.floor_lt.mpr (by exact_mod_cast hlt)
  unfold toUint32
  omega

/-- The conversion is exact below `2 ^ 32`, and off by at least that much otherwise. -/
theorem not_epsilon_lt (hq : 0 < q) :
    ¬ epsilon < q - toUint32 ⌊q⌋ ↔ q < 2 ^ 32 ∧ q - ⌊q⌋ ≤ epsilon := by
  rcases lt_or_ge q (2 ^ 32) with hlt | hge
  · have hcast : ((toUint32 ⌊q⌋ : ℕ) : ℚ) = (⌊q⌋ : ℚ) := by exact_mod_cast toUint32_floor hq hlt
    rw [hcast, not_lt]
    exact ⟨fun h => ⟨hlt, h⟩, fun h => h.2⟩
  · have hpos : 0 ≤ ⌊q⌋ := Int.floor_nonneg.mpr hq.le
    have hbig : (2 : ℤ) ^ 32 ≤ ⌊q⌋ := Int.le_floor.mpr (by exact_mod_cast hge)
    have hconv : ((toUint32 ⌊q⌋ : ℕ) : ℤ) + 2 ^ 32 ≤ ⌊q⌋ := by
      unfold toUint32
      omega
    have hcast : ((toUint32 ⌊q⌋ : ℕ) : ℚ) + 2 ^ 32 ≤ (⌊q⌋ : ℚ) := by exact_mod_cast hconv
    have heps : epsilon < 1 := by norm_num [epsilon]
    have hfloor : (⌊q⌋ : ℚ) ≤ q := Int.floor_le q
    constructor
    · intro h
      linarith
    · rintro ⟨h, -⟩
      linarith

theorem parseStep_ok : parseStep s = .ok d ↔ ∃ q, NearlyWhole s q ∧ (d : ℤ) = ⌊q⌋ := by
  unfold parseStep NearlyWhole
  split
  · next h => simp [h]
  · next q rest h =>
      rw [h]
      by_cases hq : 0 < q
      · rw [if_pos hq]
        by_cases hclose : epsilon < q - toUint32 ⌊q⌋
        · rw [if_pos hclose]
          have hnot := mt (not_epsilon_lt hq).mpr (not_not.mpr hclose)
          constructor
          · exact nofun
          · rintro ⟨q', ⟨heq, -, hlt, hle⟩, -⟩
            simp only [Option.some.injEq, Prod.mk.injEq, Binary64.finite.injEq] at heq
            obtain ⟨rfl, -⟩ := heq
            exact absurd ⟨hlt, hle⟩ hnot
        · rw [if_neg hclose]
          obtain ⟨hlt, hle⟩ := (not_epsilon_lt hq).mp hclose
          have hconv := toUint32_floor hq hlt
          by_cases hrest : rest = []
          · subst hrest
            rw [if_neg (by simp)]
            constructor
            · intro heq
              exact ⟨q, ⟨rfl, hq, hlt, hle⟩, by rw [← hconv, Except.ok.inj heq]⟩
            · rintro ⟨q', ⟨heq, -⟩, hd⟩
              simp only [Option.some.injEq, Prod.mk.injEq, Binary64.finite.injEq, and_true] at heq
              subst heq
              rw [Except.ok.injEq]
              omega
          · rw [if_pos hrest]
            simp [hrest]
      · rw [if_neg hq]
        constructor
        · exact nofun
        · rintro ⟨q', ⟨heq, hpos, -⟩, -⟩
          simp only [Option.some.injEq, Prod.mk.injEq, Binary64.finite.injEq] at heq
          exact absurd (heq.1 ▸ hpos) hq
  · next negative rest h => cases negative <;> simp [h]
  · next rest h => simp [h]

theorem parseUpper_ok {m : ℕ} : parseUpper stepAllowed m s = .ok r ↔
    (∃ value, strtol s = some (value, []) ∧ r = between m (toUint32 value) 1) ∨
      ∃ value u d, stepAllowed ∧ strtol s = some (value, ':' :: u) ∧ parseStep u = .ok d ∧
        r = between m (toUint32 value) d := by
  unfold parseUpper
  split
  · next h => simp [h]
  · next value h => simp [h, orderedRange_eq, eq_comm]
  · next value c t h =>
      by_cases hcolon : stepAllowed ∧ c = ':'
      · obtain ⟨hstep, rfl⟩ := hcolon
        rw [if_pos ⟨hstep, rfl⟩]
        cases hparse : parseStep t with
        | error e => simp [h, hparse, Except.map]
        | ok d => simp [h, hstep, hparse, Except.map, orderedRange_eq, eq_comm]
      · rw [if_neg hcolon]
        constructor
        · exact nofun
        · rintro (⟨value', heq, -⟩ | ⟨value', u, d, hstep, heq, -⟩)
          · simp [h] at heq
          · simp only [h, Option.some.injEq, Prod.mk.injEq, List.cons.injEq] at heq
            exact absurd ⟨hstep, heq.2.1⟩ hcolon

theorem parseNumber_ok : parseNumber stepAllowed infAllowed s = .ok r ↔
    (∃ value, strtol s = some (value, []) ∧ r = between (toUint32 value) (toUint32 value) 1) ∨
      (∃ value c, infAllowed ∧ strtol s = some (value, [c]) ∧
        r = between (toUint32 value) rangeInfinity 1) ∨
      ∃ value c t, t ≠ [] ∧ isSeparator stepAllowed c t ∧ strtol s = some (value, c :: t) ∧
        parseUpper stepAllowed (toUint32 value) t = .ok r := by
  unfold parseNumber
  simp only [orderedRange_eq]
  cases h : strtol s with
  | none => simp
  | some read =>
    obtain ⟨value, rest⟩ := read
    cases rest with
    | nil =>
      simp only [Except.ok.injEq, Option.some.injEq, Prod.mk.injEq, and_true,
        reduceCtorEq, and_false, false_and, exists_false, or_false, exists_eq_left']
      exact eq_comm
    | cons c t =>
      cases t with
      | nil =>
        have hsep : isSeparator stepAllowed c [] = true := by simp [isSeparator]
        cases infAllowed
        · simp [hsep]
        · dsimp only
          rw [hsep]
          show Except.ok (between (toUint32 value) rangeInfinity 1) = Except.ok r ↔ _
          rw [Except.ok.injEq]
          constructor
          · rintro rfl
            exact Or.inr (Or.inl ⟨value, c, rfl, rfl, rfl⟩)
          · rintro (⟨_, h, -⟩ | ⟨_, _, -, h, rfl⟩ | ⟨_, _, t, ht, -, h, -⟩)
            · simp at h
            · simp only [Option.some.injEq, Prod.mk.injEq] at h
              rw [h.1]
            · simp only [Option.some.injEq, Prod.mk.injEq, List.cons.injEq] at h
              exact absurd h.2.2.symm ht
      | cons c' t =>
        by_cases hsep : isSeparator stepAllowed c (c' :: t)
        · simp [hsep]
        · simp [hsep]

variable {c : Char}

/-- The first character of the word that is not a range. -/
theorem head_undefined (h : (c :: s).map Char.toLower = "undefined".toList) : c.toLower = 'u' := by
  have hhead := congrArg List.head? h
  rw [List.map_cons, List.head?_cons] at hhead
  exact Option.some.inj hhead

theorem rangeParse_leading :
    rangeParseFromString stepAllowed infAllowed ('-' :: s) =
      parseLeading stepAllowed infAllowed s :=
  if_neg fun h => absurd (head_undefined h) (by decide)

theorem rangeParse_number (hhead : s.head? ≠ some '-') :
    rangeParseFromString stepAllowed infAllowed s = .ok r ↔
      parseNumber stepAllowed infAllowed s = .ok r := by
  unfold rangeParseFromString
  split_ifs with hword
  · -- no number is read from the word
    have hnone : strtol s = none := by
      by_contra hsome
      obtain ⟨read, hread⟩ := Option.ne_none_iff_exists'.mp hsome
      cases s with
      | nil => exact absurd (congrArg List.length hword) (by decide)
      | cons c s =>
        obtain ⟨hlower, halpha⟩ := toLower_head_of_strtol hread c rfl
        obtain rfl : c = 'u' := hlower ▸ head_undefined hword
        exact absurd halpha (by decide)
    simp [parseNumber, hnone]
  · split
    · exact absurd rfl hhead
    · exact Iff.rfl

theorem parseLeading_ok : parseLeading stepAllowed infAllowed s = .ok r ↔
    (s = [] ∧ infAllowed ∧ r = ⟨1, rangeInfinity, 0⟩) ∨
      ∃ value, stepAllowed = false ∧ strtol s = some (value, []) ∧
        r = between 1 (toUint32 value) 1 := by
  unfold parseLeading
  cases s with
  | nil =>
    have hnone : strtol [] = none := rfl
    cases infAllowed <;> simp [hnone, eq_comm]
  | cons c s =>
    rw [if_neg (by simp)]
    split
    · next h => simp [h]
    · next value rest h =>
        cases rest with
        | nil => cases stepAllowed <;> simp [h, orderedRange_eq, eq_comm]
        | cons c' rest => simp [h]

/-! ## Documentation and parser -/

theorem parseStep_whole {d' : ℕ} (h : WholeStep s d') (hlt : d' < 2 ^ 32) :
    parseStep s = .ok d ↔ d = d' := by
  rw [parseStep_ok]
  have heps : (0 : ℚ) ≤ epsilon := by norm_num [epsilon]
  constructor
  · rintro ⟨q, ⟨hread, -⟩, hd⟩
    rw [h.2] at hread
    simp only [Option.some.injEq, Prod.mk.injEq, Binary64.finite.injEq, and_true] at hread
    rw [← hread, Int.floor_natCast] at hd
    exact_mod_cast hd
  · rintro rfl
    refine ⟨d, ⟨h.2, by exact_mod_cast h.1, by exact_mod_cast hlt, ?_⟩, ?_⟩
    · rw [Int.floor_natCast, Int.cast_natCast, sub_self]
      exact heps
    · rw [Int.floor_natCast]

/-- A text of a documented form that does not begin with a minus begins with a number. -/
theorem Documented.number (h : Documented stepAllowed infAllowed s r) (hhead : s.head? ≠ some '-') :
    ∃ n rest, Number s n rest ∧
      (rest = [] ∨ rest = ['-'] ∨ ∃ t m rest', rest = '-' :: t ∧ Number t m rest' ∧
        (rest' = [] ∨ ∃ u d, rest' = ':' :: u ∧ WholeStep u d)) := by
  cases h with
  | single h => exact ⟨_, _, h, Or.inl rfl⟩
  | span h h' => exact ⟨_, _, h, Or.inr (Or.inr ⟨_, _, _, rfl, h', Or.inl rfl⟩)⟩
  | upTo => exact absurd rfl hhead
  | onward _ h => exact ⟨_, _, h, Or.inr (Or.inl rfl)⟩
  | all => exact absurd rfl hhead
  | stepped _ h h' hd =>
    exact ⟨_, _, h, Or.inr (Or.inr ⟨_, _, _, rfl, h', Or.inr ⟨_, _, rfl, hd⟩⟩)⟩

theorem Documented.numbers (h : Documented stepAllowed infAllowed s r)
    (hhead : s.head? ≠ some '-') (hread : strtol s = some (value, c :: t)) (ht : t ≠ []) :
    ¬ Odd s ∧ c = '-' ∧ ∃ m rest, Number t m rest ∧
      (rest = [] ∨ ∃ u d, rest = ':' :: u ∧ WholeStep u d) := by
  obtain ⟨n, rest, hn, hrest⟩ := h.number hhead
  obtain rfl := hn.eq_of_reads ⟨value, hread⟩
  rcases hrest with hrest | hrest | ⟨t', m, rest', hrest, hm, hstep⟩
  · exact absurd hrest (List.cons_ne_nil _ _)
  · exact absurd (List.cons.inj hrest).2 ht
  · obtain ⟨hc, rfl⟩ := List.cons.inj hrest
    exact ⟨hn.not_odd, hc, m, rest', hm, hstep⟩

theorem Documented.leading (h : Documented stepAllowed infAllowed ('-' :: s) r) :
    s = [] ∨ ∃ n, Number s n [] := by
  cases h with
  | single h => exact absurd rfl h.head
  | span h => exact absurd rfl h.head
  | upTo h => exact Or.inr ⟨_, h⟩
  | onward _ h => exact absurd rfl h.head
  | all => exact Or.inl rfl
  | stepped _ h => exact absurd rfl h.head

section

variable (hsame : ¬ Differs stepAllowed infAllowed s)
include hsame

theorem documented_of_parse (h : rangeParseFromString stepAllowed infAllowed s = .ok r) :
    Documented stepAllowed infAllowed s r := by
  by_cases hhead : s.head? = some '-'
  · obtain ⟨t, rfl⟩ : ∃ t, s = '-' :: t := by
      cases s with
      | nil => cases hhead
      | cons c t => exact ⟨t, by rw [Option.some.inj hhead]⟩
    rw [rangeParse_leading, parseLeading_ok] at h
    rcases h with ⟨rfl, hinf, rfl⟩ | ⟨value, hstep, hread, rfl⟩
    · exact absurd (.dash hinf) hsame
    · obtain ⟨n, hn, rfl⟩ := number_of_reads hread fun hodd =>
        hsame (.oddUpTo hstep hodd ⟨value, hread⟩)
      rw [hn.toUint32]
      exact .upTo hn
  · rw [rangeParse_number hhead, parseNumber_ok] at h
    rcases h with ⟨value, hread, rfl⟩ | ⟨value, c, hinf, hread, rfl⟩ |
      ⟨value, c, t, ht, hsep, hread, hupper⟩
    · obtain ⟨n, hn, rfl⟩ := number_of_reads hread fun hodd =>
        hsame (.odd hhead hodd ⟨value, hread⟩)
      rw [hn.toUint32]
      exact .single hn
    · have hplain := not_or.mp fun hodd => hsame (.anyEnd hhead hinf ⟨value, hread⟩ hodd)
      obtain ⟨n, hn, rfl⟩ := number_of_reads hread hplain.1
      rw [hn.toUint32]
      rw [not_not.mp hplain.2] at hn
      exact .onward hinf hn
    · rcases parseUpper_ok.mp hupper with ⟨upper, hread', rfl⟩ | ⟨upper, u, d, hstep, hread', hd, rfl⟩
      · have hplain := fun hodd =>
          hsame (.anySpan hhead ht hsep ⟨value, hread⟩ ⟨upper, hread'⟩ hodd)
        obtain ⟨m, hm, rfl⟩ := number_of_reads hread fun hodd => hplain (Or.inl hodd)
        obtain ⟨n, hn, rfl⟩ := number_of_reads hread' fun hodd => hplain (Or.inr (Or.inr hodd))
        have hc : c = '-' := not_not.mp fun hne => hplain (Or.inr (Or.inl hne))
        rw [hm.toUint32, hn.toUint32]
        subst hc
        exact .span hm hn
      · obtain ⟨q, hq, hfloor⟩ := parseStep_ok.mp hd
        have hplain := fun hodd =>
          hsame (.anyStepped hhead hstep ht hsep ⟨value, hread⟩ ⟨upper, hread'⟩ hq hodd)
        obtain ⟨m, hm, rfl⟩ := number_of_reads hread fun hodd => hplain (Or.inl hodd)
        obtain ⟨n, hn, rfl⟩ := number_of_reads hread' fun hodd =>
          hplain (Or.inr (Or.inr (Or.inl hodd)))
        have hc : c = '-' := not_not.mp fun hne => hplain (Or.inr (Or.inl hne))
        have hwhole : q = ⌊q⌋ := not_not.mp fun hne => hplain (Or.inr (Or.inr (Or.inr hne)))
        have hqd : q = (d : ℚ) := by
          rw [hwhole, ← hfloor]
          rfl
        rw [hm.toUint32, hn.toUint32]
        subst hc
        refine .stepped hstep hm hn ⟨?_, hqd ▸ hq.1⟩
        have := hq.2.1
        rw [hqd] at this
        exact_mod_cast this

theorem parse_of_documented (h : Documented stepAllowed infAllowed s r) :
    rangeParseFromString stepAllowed infAllowed s = .ok r := by
  cases h with
  | single h =>
    rw [rangeParse_number h.head, parseNumber_ok]
    exact Or.inl ⟨_, h.strtol, by rw [h.toUint32]⟩
  | @span s t m n h h' =>
    have ht : t ≠ [] := by
      rintro rfl
      exact absurd h'.strtol nofun
    rw [rangeParse_number h.head, parseNumber_ok]
    refine Or.inr (Or.inr ⟨_, _, _, ht, by simp [isSeparator], h.strtol, ?_⟩)
    exact parseUpper_ok.mpr (Or.inl ⟨_, h'.strtol, by rw [h.toUint32, h'.toUint32]⟩)
  | upTo h =>
    rw [rangeParse_leading, parseLeading_ok]
    have hstep : stepAllowed = false := by
      by_contra hstep
      exact hsame (.upTo (Bool.eq_true_of_not_eq_false hstep) h)
    exact Or.inr ⟨_, hstep, h.strtol, by rw [h.toUint32]⟩
  | onward hinf h =>
    rw [rangeParse_number h.head, parseNumber_ok]
    exact Or.inr (Or.inl ⟨_, _, hinf, h.strtol, by rw [h.toUint32]⟩)
  | all hinf => exact absurd (.dash hinf) hsame
  | @stepped s t u m n d hstep h h' hd =>
    have ht : t ≠ [] := by
      rintro rfl
      exact absurd h'.strtol nofun
    have hlt : d < 2 ^ 32 := by
      by_contra hge
      exact hsame (.greatStep hstep h h' hd (Nat.not_lt.mp hge))
    rw [rangeParse_number h.head, parseNumber_ok]
    refine Or.inr (Or.inr ⟨_, _, _, ht, by simp [isSeparator], h.strtol, ?_⟩)
    exact parseUpper_ok.mpr (Or.inr ⟨_, _, _, hstep, h'.strtol, (parseStep_whole hd hlt).mpr rfl,
      by rw [h.toUint32, h'.toUint32]⟩)

end

/-- A text that is read in another way is not documented, or documented with another meaning. -/
theorem differs_false (h : Differs stepAllowed infAllowed s)
    (hdoc : ∀ r, rangeParseFromString stepAllowed infAllowed s = .ok r ↔
      Documented stepAllowed infAllowed s r) : False := by
  cases h with
  | dash hinf =>
    have hread := (hdoc _).mpr (.all hinf)
    rw [rangeParse_leading, parseLeading_ok] at hread
    rcases hread with ⟨-, -, heq⟩ | ⟨value, -, hnone, -⟩
    · exact absurd heq (by decide)
    · cases hnone
  | upTo hstep h =>
    have hread := (hdoc _).mpr (.upTo h)
    rw [rangeParse_leading, parseLeading_ok] at hread
    rcases hread with ⟨rfl, -⟩ | ⟨value, hfalse, -⟩
    · exact absurd h.strtol nofun
    · rw [hstep] at hfalse
      exact absurd hfalse (by decide)
  | @oddUpTo t hstep hodd hreads =>
    obtain ⟨value, hvalue⟩ := hreads
    have hok : rangeParseFromString stepAllowed infAllowed ('-' :: t) =
        .ok (between 1 (toUint32 value) 1) := by
      rw [rangeParse_leading, parseLeading_ok]
      exact Or.inr ⟨value, hstep, hvalue, rfl⟩
    rcases ((hdoc _).mp hok).leading with rfl | ⟨n, hn⟩
    · cases hvalue
    · exact hn.not_odd hodd
  | odd hhead hodd hreads =>
    obtain ⟨value, hvalue⟩ := hreads
    have hok := (hdoc (between (toUint32 value) (toUint32 value) 1)).mp
      ((rangeParse_number hhead).mpr (parseNumber_ok.mpr (Or.inl ⟨value, hvalue, rfl⟩)))
    obtain ⟨n, rest, hn, -⟩ := hok.number hhead
    exact hn.not_odd hodd
  | @anyEnd s c hhead hinf hreads hodd =>
    obtain ⟨value, hvalue⟩ := hreads
    have hok := (hdoc (between (toUint32 value) rangeInfinity 1)).mp
      ((rangeParse_number hhead).mpr
        (parseNumber_ok.mpr (Or.inr (Or.inl ⟨value, c, hinf, hvalue, rfl⟩))))
    obtain ⟨n, rest, hn, hrest⟩ := hok.number hhead
    obtain rfl := hn.eq_of_reads ⟨value, hvalue⟩
    rcases hodd with hodd | hc
    · exact hn.not_odd hodd
    · rcases hrest with hrest | hrest | ⟨t, m, rest', hrest, hm, -⟩
      · exact absurd hrest (List.cons_ne_nil _ _)
      · exact hc (List.cons.inj hrest).1
      · exact hc (List.cons.inj hrest).1
  | @anySpan s c t hhead ht hsep hreads hreads' hodd =>
    obtain ⟨value, hvalue⟩ := hreads
    obtain ⟨upper, hupper⟩ := hreads'
    have hok := (hdoc (between (toUint32 value) (toUint32 upper) 1)).mp
      ((rangeParse_number hhead).mpr (parseNumber_ok.mpr (Or.inr (Or.inr
        ⟨value, c, t, ht, hsep, hvalue, parseUpper_ok.mpr (Or.inl ⟨upper, hupper, rfl⟩)⟩))))
    obtain ⟨hplain, hc, m, rest, hm, -⟩ := hok.numbers hhead hvalue ht
    rcases hodd with hodd | hne | hodd
    · exact hplain hodd
    · exact hne hc
    · exact hm.not_odd hodd
  | @anyStepped s c t u q hhead hstep ht hsep hreads hreads' hq hodd =>
    obtain ⟨value, hvalue⟩ := hreads
    obtain ⟨upper, hupper⟩ := hreads'
    have hstepped : parseStep u = .ok (toUint32 ⌊q⌋) :=
      parseStep_ok.mpr ⟨q, hq, toUint32_floor hq.2.1 hq.2.2.1⟩
    have hok := (hdoc (between (toUint32 value) (toUint32 upper) (toUint32 ⌊q⌋))).mp
      ((rangeParse_number hhead).mpr (parseNumber_ok.mpr (Or.inr (Or.inr
        ⟨value, c, t, ht, hsep, hvalue,
          parseUpper_ok.mpr (Or.inr ⟨upper, u, _, hstep, hupper, hstepped, rfl⟩)⟩))))
    obtain ⟨hplain, hc, m, rest, hm, hrest⟩ := hok.numbers hhead hvalue ht
    rcases hodd with hodd | hne | hodd | hfraction
    · exact hplain hodd
    · exact hne hc
    · exact hm.not_odd hodd
    · obtain rfl := hm.eq_of_reads ⟨upper, hupper⟩
      rcases hrest with hrest | ⟨u', d, hrest, hd⟩
      · exact absurd hrest (List.cons_ne_nil _ _)
      · obtain ⟨-, rfl⟩ := List.cons.inj hrest
        have hqd := hq.1
        rw [hd.2] at hqd
        simp only [Option.some.injEq, Prod.mk.injEq, Binary64.finite.injEq, and_true] at hqd
        rw [← hqd, Int.floor_natCast] at hfraction
        exact hfraction rfl
  | @greatStep s t u m n d hstep h h' hd hge =>
    have hread := (hdoc _).mpr (.stepped hstep h h' hd)
    rw [rangeParse_number h.head, parseNumber_ok] at hread
    rcases hread with ⟨value, hvalue, -⟩ | ⟨value, c, -, hvalue, -⟩ |
      ⟨value, c, t', -, -, hvalue, hupper⟩
    · exact absurd (h.eq_of_reads ⟨value, hvalue⟩) (List.cons_ne_nil _ _)
    · obtain ⟨-, rfl⟩ := List.cons.inj (h.eq_of_reads ⟨value, hvalue⟩)
      exact absurd h'.strtol nofun
    · obtain ⟨-, rfl⟩ := List.cons.inj (h.eq_of_reads ⟨value, hvalue⟩)
      rcases parseUpper_ok.mp hupper with ⟨upper, hrest, -⟩ | ⟨upper, u', d', -, hrest, hd', -⟩
      · exact absurd (h'.eq_of_reads ⟨upper, hrest⟩) (List.cons_ne_nil _ _)
      · obtain ⟨-, rfl⟩ := List.cons.inj (h'.eq_of_reads ⟨upper, hrest⟩)
        obtain ⟨q, ⟨hq, -, hlt, -⟩, -⟩ := parseStep_ok.mp hd'
        rw [hd.2] at hq
        simp only [Option.some.injEq, Prod.mk.injEq, Binary64.finite.injEq, and_true] at hq
        rw [← hq] at hlt
        exact absurd (by exact_mod_cast hlt) (Nat.not_lt.mpr hge)

/-- **The parser follows its documentation** on all texts but those of the kinds listed. -/
theorem rangeParse_documented (stepAllowed infAllowed : Bool) (s : List Char) :
    (∀ r, rangeParseFromString stepAllowed infAllowed s = .ok r ↔
      Documented stepAllowed infAllowed s r) ↔ ¬ Differs stepAllowed infAllowed s :=
  ⟨fun hdoc h => differs_false h hdoc,
    fun hsame _ => ⟨documented_of_parse hsame, parse_of_documented hsame⟩⟩

/-- `-5` is refused where a step is allowed. -/
theorem rangeParse_upTo_false :
    Documented true false ['-', '5'] ⟨1, 5, 1⟩ ∧
      rangeParseFromString true false ['-', '5'] ≠ .ok ⟨1, 5, 1⟩ := by
  have hfive : Number ['5'] 5 [] := by
    refine ⟨⟨['5'], List.cons_ne_nil _ _, ?_, rfl, rfl, nofun⟩, by norm_num⟩
    simp only [List.mem_singleton, forall_eq]
    decide
  refine ⟨.upTo hfive, ?_⟩
  rw [rangeParse_leading]
  exact nofun

end ClusterScheduler.Sgeobj
