import Mathlib

/-!
# Numbers at the beginning of a text

* `strtol` — what the C function reads with base ten, in the default locale.
* `strtod` — what it reads as a binary64 number.
* `StartsWith` — a text starts with a number that nothing precedes; `strtol_eq`, `strtod_eq`
  read it.
* `strtol_cases` — otherwise it starts with a blank or a sign.
-/

namespace ClusterScheduler.Foundation

/-! ## `strtol()` -/

/-- `isspace()` -/
def isSpace (c : Char) : Bool := c = ' ' || ('\t' ≤ c && c ≤ '\r')

def isSign (c : Char) : Bool := c = '-' || c = '+'

def numberOf (digits : List Char) : ℕ := Nat.ofDigitChars 10 digits 0

/-- Whether there is a minus sign, and what follows the sign. -/
def readSign : List Char → Bool × List Char
  | '-' :: s => (true, s)
  | '+' :: s => (false, s)
  | s => (false, s)

def withSign (negative : Bool) (n : ℕ) : ℤ := if negative then -n else n

/-- `strtol()` with base ten: the value, a 64 bit number, and what follows it. There is none
without a digit. -/
def strtol (s : List Char) : Option (ℤ × List Char) :=
  let (negative, s) := readSign (s.dropWhile isSpace)
  let digits := s.takeWhile Char.isDigit
  if digits = [] then none
  else
    some (max (-2 ^ 63) (min (withSign negative (numberOf digits)) (2 ^ 63 - 1)),
      s.dropWhile Char.isDigit)

/-! ## `strtod()` -/

/-- The binary64 numbers. Zero has one sign only. -/
inductive Binary64 where
  | finite (q : ℚ)
  | infinite (negative : Bool)
  | nan
  deriving DecidableEq

def roundToEven (q : ℚ) : ℤ :=
  if q - ⌊q⌋ < 1 / 2 ∨ (q - ⌊q⌋ = 1 / 2 ∧ ⌊q⌋ % 2 = 0) then ⌊q⌋ else ⌊q⌋ + 1

/-- The number nearest to one that is not negative. The least exponent is that of the subnormal
numbers. -/
def nearestBinary64 (q : ℚ) : Binary64 :=
  let exponent := max (Int.log 2 q - 52) (-1074)
  let rounded := roundToEven (q / 2 ^ exponent) * (2 : ℚ) ^ exponent
  if rounded < 2 ^ 1024 then .finite rounded else .infinite false

def Binary64.neg : Binary64 → Binary64
  | .finite q => .finite (-q)
  | .infinite negative => .infinite !negative
  | .nan => .nan

/-- Digits with a point among them or at an end. -/
def readMantissa (base : ℕ) (isDigit : Char → Bool) (digit : Char → ℕ) (s : List Char) :
    Option (ℚ × List Char) :=
  let whole := s.takeWhile isDigit
  let (fraction, rest) :=
    match s.dropWhile isDigit with
    | '.' :: t =>
      if whole = [] ∧ t.takeWhile isDigit = [] then ([], '.' :: t)
      else (t.takeWhile isDigit, t.dropWhile isDigit)
    | t => ([], t)
  if whole = [] ∧ fraction = [] then none
  else
    some (((whole ++ fraction).foldl (fun n c => base * n + digit c) 0 : ℕ) /
      (base : ℚ) ^ fraction.length, rest)

/-- An exponent. Its mark belongs to the number only if digits follow. -/
def readExponent (mark : Char) : List Char → ℤ × List Char
  | [] => (0, [])
  | c :: s =>
    let (negative, t) := readSign s
    if c.toLower = mark ∧ t.takeWhile Char.isDigit ≠ [] then
      (withSign negative (numberOf (t.takeWhile Char.isDigit)), t.dropWhile Char.isDigit)
    else (0, c :: s)

def isHexDigit (c : Char) : Bool := c.isDigit || ('a' ≤ c.toLower && c.toLower ≤ 'f')

def hexDigit (c : Char) : ℕ := if c.isDigit then c.toNat - 48 else c.toLower.toNat - 87

def readDecimal (s : List Char) : Option (Binary64 × List Char) :=
  (readMantissa 10 Char.isDigit (fun c => c.toNat - 48) s).map fun (mantissa, rest) =>
    let (exponent, rest) := readExponent 'e' rest
    (nearestBinary64 (mantissa * (10 : ℚ) ^ exponent), rest)

/-- A hexadecimal number. Without a digit behind `0x` only the zero is read. -/
def readHex (s : List Char) : Option (Binary64 × List Char) :=
  (readMantissa 16 isHexDigit hexDigit (s.drop 2)).map fun (mantissa, rest) =>
    let (exponent, rest) := readExponent 'p' rest
    (nearestBinary64 (mantissa * (2 : ℚ) ^ exponent), rest)

/-- The characters in parentheses that may follow `nan`. -/
def readNanText (s : List Char) : List Char :=
  match s with
  | '(' :: t =>
    match t.dropWhile fun c => c.isAlphanum || c = '_' with
    | ')' :: rest => rest
    | _ => s
  | _ => s

def startsWith (word : String) (s : List Char) : Bool :=
  word.toList.isPrefixOf (s.map Char.toLower)

def strtod (s : List Char) : Option (Binary64 × List Char) :=
  let (negative, s) := readSign (s.dropWhile isSpace)
  let unsigned :=
    if startsWith "infinity" s then some (.infinite false, s.drop 8)
    else if startsWith "inf" s then some (.infinite false, s.drop 3)
    else if startsWith "nan" s then some (.nan, readNanText (s.drop 3))
    else if startsWith "0x" s then (readHex s).or (readDecimal s)
    else readDecimal s
  unsigned.map fun (value, rest) => (if negative then value.neg else value, rest)

/-! ## A number at the beginning -/

/-- Nothing that continues a number. -/
def Ends (rest : List Char) : Prop := ∀ c ∈ rest.head?, c.isDigit = false

def StartsWith (s : List Char) (n : ℕ) (rest : List Char) : Prop :=
  ∃ digits : List Char, digits ≠ [] ∧ (∀ c ∈ digits, c.isDigit = true) ∧ numberOf digits = n ∧
    s = digits ++ rest ∧ Ends rest

variable {s rest digits : List Char} {n : ℕ} {c : Char}

theorem isSpace_digit (h : c.isDigit = true) : isSpace c = false := by
  simp only [Char.isDigit, Bool.and_eq_true, decide_eq_true_eq, ge_iff_le] at h
  have h48 : 48 ≤ c.val.toNat := by simpa [UInt32.le_iff_toNat_le] using h.1
  have hne : c ≠ ' ' := by
    rintro rfl
    simp at h48
  simp only [isSpace, hne, decide_false, Bool.false_or, Bool.and_eq_false_iff,
    decide_eq_false_iff_not, Char.le_def]
  right
  intro hle
  have : c.val.toNat ≤ 13 := by simpa [UInt32.le_iff_toNat_le] using hle
  omega

theorem isSign_digit (h : c.isDigit = true) : isSign c = false := by
  have h1 : c ≠ '-' := by
    rintro rfl
    exact absurd h (by decide)
  have h2 : c ≠ '+' := by
    rintro rfl
    exact absurd h (by decide)
  simp [isSign, h1, h2]

theorem readSign_of_not (h : ∀ c ∈ s.head?, isSign c = false) : readSign s = (false, s) := by
  unfold readSign
  split
  · exact absurd (h _ rfl) (by decide)
  · exact absurd (h _ rfl) (by decide)
  · rfl

theorem takeWhile_digits (h : ∀ c ∈ digits, c.isDigit = true) (hrest : Ends rest) :
    (digits ++ rest).takeWhile Char.isDigit = digits ∧
      (digits ++ rest).dropWhile Char.isDigit = rest := by
  rw [List.takeWhile_append_of_pos h, List.dropWhile_append_of_pos h]
  cases rest with
  | nil => simp
  | cons c rest =>
    have hc : c.isDigit = false := hrest c rfl
    simp [hc]

theorem dropWhile_of_head {p : Char → Bool} (h : ∀ c ∈ s.head?, p c = false) :
    s.dropWhile p = s := by
  cases s with
  | nil => rfl
  | cons c s => rw [List.dropWhile_cons, h c rfl, if_neg (by decide)]

theorem StartsWith.head (h : StartsWith s n rest) : ∀ c ∈ s.head?, c.isDigit = true := by
  obtain ⟨digits, hne, hdigits, -, rfl, -⟩ := h
  cases digits with
  | nil => exact absurd rfl hne
  | cons d digits =>
    rintro c ⟨rfl⟩
    exact hdigits d (.head _)

theorem StartsWith.unique {n' : ℕ} {rest' : List Char} (h : StartsWith s n rest)
    (h' : StartsWith s n' rest') : n = n' ∧ rest = rest' := by
  obtain ⟨digits, -, hdigits, rfl, rfl, hrest⟩ := h
  obtain ⟨digits', -, hdigits', rfl, heq, hrest'⟩ := h'
  obtain ⟨h1, h2⟩ := takeWhile_digits hdigits hrest
  obtain ⟨h1', h2'⟩ := takeWhile_digits hdigits' hrest'
  rw [heq] at h1 h2
  exact ⟨by rw [← h1, h1'], by rw [← h2, h2']⟩

/-- A number is read as it is, up to the greatest 64 bit number. -/
theorem strtol_eq (h : StartsWith s n rest) : strtol s = some (min (n : ℤ) (2 ^ 63 - 1), rest) := by
  have hspace : s.dropWhile isSpace = s :=
    dropWhile_of_head fun c hc => isSpace_digit (h.head c hc)
  have hsign : readSign s = (false, s) :=
    readSign_of_not fun c hc => isSign_digit (h.head c hc)
  obtain ⟨digits, hne, hdigits, rfl, rfl, hrest⟩ := h
  obtain ⟨htake, hdrop⟩ := takeWhile_digits hdigits hrest
  rw [strtol, hspace, hsign]
  dsimp only
  rw [htake, hdrop, if_neg hne]
  simp only [withSign, Bool.false_eq_true, if_false, Option.some.injEq, Prod.mk.injEq, and_true]
  omega

/-- What is read is a number at the beginning, or there is a blank or a sign. -/
theorem strtol_cases {value : ℤ} (h : strtol s = some (value, rest)) :
    (∃ n : ℕ, StartsWith s n rest ∧ value = min (n : ℤ) (2 ^ 63 - 1)) ∨
      ∃ c ∈ s.head?, isSpace c = true ∨ isSign c = true := by
  by_cases hhead : ∃ c ∈ s.head?, isSpace c = true ∨ isSign c = true
  · exact Or.inr hhead
  · left
    push Not at hhead
    have hspace : s.dropWhile isSpace = s :=
      dropWhile_of_head fun c hc => by simpa using (hhead c hc).1
    have hsign : readSign s = (false, s) :=
      readSign_of_not fun c hc => by simpa using (hhead c hc).2
    have hread := h
    rw [strtol, hspace, hsign] at hread
    dsimp only at hread
    split_ifs at hread with hne
    have hrest : s.dropWhile Char.isDigit = rest := congrArg Prod.snd (Option.some.inj hread)
    have hends : Ends rest := by
      intro c hc
      rw [← hrest] at hc
      by_contra hdigit
      have := List.head?_dropWhile_not Char.isDigit s
      rw [hc] at this
      simp_all
    have hstarts : StartsWith s (numberOf (s.takeWhile Char.isDigit)) rest :=
      ⟨_, hne, fun c hc => List.mem_takeWhile_imp hc, rfl,
        by rw [← hrest, List.takeWhile_append_dropWhile], hends⟩
    refine ⟨_, hstarts, ?_⟩
    rw [strtol_eq hstarts] at h
    exact (congrArg Prod.fst (Option.some.inj h)).symm

/-! ## Whole numbers as binary64 numbers -/

theorem roundToEven_intCast (z : ℤ) : roundToEven (z : ℚ) = z := by
  simp [roundToEven]

/-- Below `2 ^ 53` nothing is rounded. -/
theorem nearestBinary64_natCast (h : n < 2 ^ 53) : nearestBinary64 (n : ℚ) = .finite n := by
  have hlog : Nat.log 2 n ≤ 52 := by
    rcases Nat.eq_zero_or_pos n with rfl | hpos
    · simp
    · exact Nat.lt_succ_iff.mp (Nat.log_lt_of_lt_pow hpos.ne' h)
  obtain ⟨k, hk⟩ : ∃ k : ℕ, max (Int.log 2 (n : ℚ) - 52) (-1074) = -k := by
    refine ⟨(-max (Int.log 2 (n : ℚ) - 52) (-1074)).toNat, ?_⟩
    rw [Int.log_natCast]
    omega
  have hscale : (n : ℚ) / 2 ^ (-(k : ℤ)) = ((n * 2 ^ k : ℕ) : ℤ) := by
    rw [zpow_neg, div_inv_eq_mul, zpow_natCast]
    push_cast
    rfl
  have hround : ((n * 2 ^ k : ℕ) : ℤ) * (2 : ℚ) ^ (-(k : ℤ)) = n := by
    rw [zpow_neg, zpow_natCast]
    push_cast
    rw [mul_assoc, mul_inv_cancel₀ (by positivity), mul_one]
  rw [nearestBinary64, hk, hscale, roundToEven_intCast, hround, if_pos]
  calc (n : ℚ) < 2 ^ 53 := by exact_mod_cast h
    _ ≤ 2 ^ 1024 := pow_le_pow_right₀ (by norm_num) (by norm_num)

theorem toLower_of_lt (h : c.val.toNat < 65) : c.toLower = c := by
  rw [Char.toLower, dif_neg]
  rintro ⟨hge, -⟩
  have : 65 ≤ c.val.toNat := by simpa [UInt32.le_iff_toNat_le] using hge
  omega

theorem toLower_digit (h : c.isDigit = true) : c.toLower = c := by
  simp only [Char.isDigit, Bool.and_eq_true, decide_eq_true_eq] at h
  have hle : c.val.toNat ≤ 57 := by simpa [UInt32.le_iff_toNat_le] using h.2
  exact toLower_of_lt (Nat.lt_of_le_of_lt hle (by decide))

/-- A text from which a number is read does not start with a letter. -/
theorem toLower_head_of_strtol {read : ℤ × List Char} (h : strtol s = some read) :
    ∀ c ∈ s.head?, c.toLower = c ∧ c.isAlpha = false := by
  have hsmall : ∀ c : Char, c.val.toNat < 65 → c.toLower = c ∧ c.isAlpha = false := by
    intro c hc
    refine ⟨toLower_of_lt hc, ?_⟩
    simp only [Char.isAlpha, Char.isUpper, Char.isLower, Bool.or_eq_false_iff,
      Bool.and_eq_false_iff, decide_eq_false_iff_not, ge_iff_le, UInt32.le_iff_toNat_le]
    have h1 : 'A'.val.toNat = 65 := rfl
    have h2 : 'a'.val.toNat = 97 := rfl
    omega
  intro c hc
  apply hsmall
  rcases strtol_cases h with ⟨n, hn, -⟩ | ⟨c', hc', hspace | hsign⟩
  · have hdigit := hn.head c hc
    simp only [Char.isDigit, Bool.and_eq_true, decide_eq_true_eq] at hdigit
    have : c.val.toNat ≤ 57 := by simpa [UInt32.le_iff_toNat_le] using hdigit.2
    omega
  · obtain rfl := Option.mem_unique hc hc'
    simp only [isSpace, Bool.or_eq_true, Bool.and_eq_true, decide_eq_true_eq] at hspace
    rcases hspace with rfl | ⟨-, hle⟩
    · decide
    · have : c.val.toNat ≤ 13 := by simpa [Char.le_def, UInt32.le_iff_toNat_le] using hle
      omega
  · obtain rfl := Option.mem_unique hc hc'
    simp only [isSign, Bool.or_eq_true, decide_eq_true_eq] at hsign
    rcases hsign with rfl | rfl <;> decide

theorem startsWith_digits {word : String} (h : ∀ c ∈ s, c.isDigit = true)
    (hword : ∃ c ∈ word.toList, c.isDigit = false) : startsWith word s = false := by
  by_contra hstarts
  obtain ⟨c, hc, hno⟩ := hword
  have hpre := List.isPrefixOf_iff_prefix.mp (Bool.eq_true_of_not_eq_false hstarts)
  obtain ⟨d, hd, rfl⟩ := List.mem_map.mp (hpre.subset hc)
  rw [toLower_digit (h d hd), h d hd] at hno
  exact absurd hno (by decide)

/-- A number below `2 ^ 53` is read as it is. -/
theorem strtod_eq (h : StartsWith s n []) (hn : n < 2 ^ 53) : strtod s = some (.finite n, []) := by
  have hspace : s.dropWhile isSpace = s :=
    dropWhile_of_head fun c hc => isSpace_digit (h.head c hc)
  have hsign : readSign s = (false, s) :=
    readSign_of_not fun c hc => isSign_digit (h.head c hc)
  obtain ⟨digits, hne, hdigits, rfl, rfl, hends⟩ := h
  obtain ⟨htake, hdrop⟩ := takeWhile_digits hdigits hends
  have hword : ∀ word : String, (∃ c ∈ word.toList, c.isDigit = false) →
      startsWith word (digits ++ []) = false :=
    fun word => startsWith_digits (by simpa using hdigits)
  have hmantissa : readMantissa 10 Char.isDigit (fun c => c.toNat - 48) (digits ++ []) =
      some ((numberOf digits : ℚ), []) := by
    rw [readMantissa]
    dsimp only
    rw [htake, hdrop]
    simp [hne, numberOf, Nat.ofDigitChars_eq_foldl]
  rw [strtod, hspace, hsign]
  dsimp only
  rw [hword "infinity" ⟨'i', by decide, rfl⟩, hword "inf" ⟨'i', by decide, rfl⟩,
    hword "nan" ⟨'n', by decide, rfl⟩, hword "0x" ⟨'x', by decide, rfl⟩, readDecimal, hmantissa]
  simp [readExponent, nearestBinary64_natCast hn]

end ClusterScheduler.Foundation
