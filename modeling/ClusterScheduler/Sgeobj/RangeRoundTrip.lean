import ClusterScheduler.Sgeobj.RangeListParser
import ClusterScheduler.Sgeobj.RangeText

/-!
# Printing a range list and reading it

* `printedPieces` — what is printed of a range, one or two ranges of the parser.
* `rangeListPrint_pieces` — the pieces of all ranges, separated by commas.
* `rangeList_survives` — when the ids survive; those of a list in order do.
-/

namespace ClusterScheduler.Sgeobj

open Foundation

/-- The text between commas, and the range it stands for. -/
def printedPieces (always : Bool) (r : Range) : List (List Char × Range) :=
  if r.min = r.max then
    if always then [(decimal r.min ++ '-' :: decimal r.max, ⟨r.min, r.max, 1⟩)]
    else [(decimal r.min, ⟨r.min, r.min, 1⟩)]
  else if add32 r.min r.step = r.max then
    [(decimal r.min, ⟨r.min, r.min, 1⟩), (decimal r.max, ⟨r.max, r.max, 1⟩)]
  else [(decimal r.min ++ '-' :: decimal r.max ++ ':' :: decimal r.step, r)]

/-- A range as the printer expects it: with its end on the grid, and below `2 ^ 31`. -/
structure Printable (r : Range) : Prop where
  le : r.min ≤ r.max
  step : 0 < r.step
  dvd : r.step ∣ r.max - r.min
  lt : r.max < 2 ^ 31

def piecesOf (always : Bool) (l : List Range) : List Range :=
  (l.flatMap (printedPieces always)).map Prod.snd

/-- The text that is printed is read as a list with the same ids. -/
structure Survives (always infAllowed : Bool) (l : List Range) : Prop where
  ok : (rangeListParseFromString false true infAllowed none
    (rangeListPrintToString (some l) false false always)).ok = true
  ids : ∀ id, rangeListIsIdWithin ((rangeListParseFromString false true infAllowed none
      (rangeListPrintToString (some l) false false always)).list.getD []) id = true ↔
    rangeListIsIdWithin l id = true

variable {always infAllowed : Bool} {l : List Range} {r : Range} {n x : ℕ}

/-! ## Texts of numbers -/

theorem numberOf_decimal (n : ℕ) : numberOf (decimal n) = n := by
  rw [numberOf, decimal, Nat.toList_repr]
  exact Nat.ofDigitChars_toDigits (by decide) (by decide)

theorem digits_decimal (h : n < 2 ^ 31) : Digits (decimal n) :=
  ⟨decimal_ne_nil n, List.all_eq_true.mpr fun _ hc => isDigit_of_mem_decimal hc,
    (numberOf_decimal n).symm ▸ h⟩

theorem plainRange_single (h : n < 2 ^ 31) : PlainRange (decimal n) ⟨n, n, 1⟩ := by
  have hplain := (digits_decimal h).single
  rwa [numberOf_decimal] at hplain

theorem printedPieces_plain (h : Printable r) :
    ∀ p ∈ printedPieces always r, PlainRange p.1 p.2 := by
  have hlt := h.lt
  have hle := h.le
  have hmin : r.min < 2 ^ 31 := Nat.lt_of_le_of_lt hle hlt
  unfold printedPieces
  split_ifs with hsame _ hpair
  · have hplain := (digits_decimal hmin).span (digits_decimal hlt)
      (by rw [numberOf_decimal, numberOf_decimal]; exact hle)
    rw [numberOf_decimal, numberOf_decimal] at hplain
    simpa using hplain
  · simpa using plainRange_single hmin
  · simpa using ⟨plainRange_single hmin, plainRange_single hlt⟩
  · have hstep : r.step < 2 ^ 31 :=
      Nat.lt_of_le_of_lt (Nat.le_of_dvd (by omega) h.dvd) (by omega)
    have hends : ∀ t : List Char, Ends (':' :: t) := fun t c hc => by
      rw [← Option.some.inj hc]
      rfl
    have hends' : ∀ t : List Char, Ends ('-' :: t) := fun t c hc => by
      rw [← Option.some.inj hc]
      rfl
    have hlast : Number (decimal r.step ++ []) r.step [] := by
      have := (digits_decimal hstep).number (t := []) (by simp [Ends])
      rwa [numberOf_decimal] at this
    have hmax := (digits_decimal hlt).number (hends (decimal r.step))
    have hfirst := (digits_decimal hmin).number (hends' (decimal r.max ++ ':' :: decimal r.step))
    rw [numberOf_decimal] at hmax hfirst
    rw [List.append_nil] at hlast
    have hplain := PlainRange.stepped hfirst hmax hlast h.step hle
    simpa using hplain

theorem printedPieces_has (h : Printable r) :
    Has ((printedPieces always r).map Prod.snd) x ↔ OnGrid r.min r.max r.step x := by
  have hle := h.le
  have hlt := h.lt
  unfold printedPieces
  split_ifs with hsame halways hpair
  · rw [hsame]
    simp [onGrid_self]
  · rw [hsame]
    simp [onGrid_self]
  · have hstep : r.step ≤ r.max - r.min := Nat.le_of_dvd (by omega) h.dvd
    have hsum : r.max - r.min = r.step := by
      unfold add32 at hpair
      omega
    rw [← hsum, onGrid_pair (by omega)]
    simp [onGrid_self]
  · simp

theorem has_piecesOf (h : ∀ r ∈ l, Printable r) : Has (piecesOf always l) x ↔ Has l x := by
  induction l with
  | nil => rfl
  | cons r l ih =>
    obtain ⟨hr, hl⟩ := List.forall_mem_cons.mp h
    have hsplit : piecesOf always (r :: l) =
        (printedPieces always r).map Prod.snd ++ piecesOf always l := by
      rw [piecesOf, List.flatMap_cons, List.map_append]
      rfl
    rw [hsplit, has_append, printedPieces_has hr, ih hl, has_cons]

/-! ## The printed text -/

theorem printedPieces_ne_nil (always : Bool) (r : Range) : printedPieces always r ≠ [] := by
  unfold printedPieces
  split_ifs <;> exact List.cons_ne_nil _ _

theorem rangeToDstring_pieces (r : Range) (str : List Char) (always : Bool) :
    rangeToDstring r str false false always = (if str.isEmpty then str else str ++ [',']) ++
        [','].intercalate ((printedPieces always r).map Prod.fst) := by
  unfold rangeToDstring printedPieces
  by_cases hsame : r.min = r.max
  · cases always <;> simp [hsame]
  · by_cases hpair : add32 r.min r.step = r.max
    · simp [hsame, hpair]
    · simp [hsame, hpair]

variable (h : ∀ r ∈ l, Printable r)
include h

/-- The pieces of all ranges are printed with commas between them. -/
theorem rangeListPrint_pieces :
    rangeListPrintToString (some l) false false always =
      [','].intercalate ((l.flatMap (printedPieces always)).map Prod.fst) := by
  have hfold : ∀ (l : List Range), (∀ r ∈ l, Printable r) → ∀ texts : List (List Char),
      (∀ s ∈ texts, s ≠ []) →
      l.foldl (fun str r => rangeToDstring r str false false always) ([','].intercalate texts) =
        [','].intercalate (texts ++ (l.flatMap (printedPieces always)).map Prod.fst) := by
    intro l
    induction l with
    | nil => simp
    | cons r l ih =>
      intro h texts htexts
      obtain ⟨hr, hl⟩ := List.forall_mem_cons.mp h
      have hne : (printedPieces always r).map Prod.fst ≠ [] := by
        simpa using printedPieces_ne_nil always r
      have hpieces : ∀ s ∈ (printedPieces always r).map Prod.fst, s ≠ [] := by
        intro s hs
        obtain ⟨p, hp, rfl⟩ := List.mem_map.mp hs
        exact (printedPieces_plain hr p hp).ne_nil
      have hone : rangeToDstring r ([','].intercalate texts) false false always =
          [','].intercalate (texts ++ (printedPieces always r).map Prod.fst) := by
        rw [rangeToDstring_pieces]
        cases texts with
        | nil => rfl
        | cons s texts =>
          have hstr : [','].intercalate (s :: texts) ≠ [] :=
            intercalate_ne_nil (List.cons_ne_nil s texts) htexts
          rw [if_neg (by simpa using hstr), intercalate_append (List.cons_ne_nil s texts) hne,
            List.append_assoc]
          rfl
      rw [List.foldl_cons, hone, ih hl _ (List.forall_mem_append.mpr ⟨htexts, hpieces⟩),
        List.flatMap_cons, List.map_append, List.append_assoc]
  exact hfold l h [] (by simp)

theorem pieces_plain :
    List.Forall₂ PlainRange ((l.flatMap (printedPieces always)).map Prod.fst)
      (piecesOf always l) := by
  rw [piecesOf, List.forall₂_map_left_iff, List.forall₂_map_right_iff]
  refine List.forall₂_same.mpr fun p hp => ?_
  obtain ⟨r, hr, hp⟩ := List.mem_flatMap.mp hp
  exact printedPieces_plain (h r hr) p hp

/-! ## Printing and reading -/

theorem rangeListParse_printed (always infAllowed : Bool) :
    ∃ l', rangeListParseFromString false true infAllowed none
        (rangeListPrintToString (some l) false false always) = ⟨true, l', []⟩ ∧
      l'.getD [] = expandAll (piecesOf always l) := by
  rw [rangeListPrint_pieces h]
  exact rangeListParse_plain (pieces_plain h) infAllowed

theorem survives_of_covered (always infAllowed : Bool)
    (hcovered : Steps Covered (piecesOf always l)) : Survives always infAllowed l := by
  obtain ⟨l', hparse, hlist⟩ := rangeListParse_printed h always infAllowed
  have hbounds := inBounds_of_plain (@pieces_plain always _ h)
  refine ⟨by rw [hparse], fun id => ?_⟩
  rw [hparse, hlist, ← has_iff, expandAll_has hbounds hcovered, has_piecesOf h, has_iff]

omit h

/-! ## Lists in order -/

/-- Ranges that ascend are put at the head one after the other. -/
theorem expandAll_ascending {rs : List Range} (h : rs.Pairwise fun a b => a.max < b.min) :
    expandAll rs = rs.reverse ∧ Steps Covered rs := by
  induction rs using List.reverseRecOn with
  | nil => exact ⟨rfl, steps_nil _⟩
  | append_singleton rs r ih =>
    obtain ⟨hrs, -, hlt⟩ := List.pairwise_append.mp h
    obtain ⟨hlist, hsteps⟩ := ih hrs
    have hbelow : ∀ ep ∈ expandAll rs, ep.max < r.min := fun ep hep => by
      rw [hlist] at hep
      exact hlt ep (List.mem_reverse.mp hep) r (List.mem_singleton_self r)
    rw [expandAll_snoc, List.reverse_append, ← hlist, steps_snoc]
    cases hcases : expandAll rs with
    | nil => exact ⟨rfl, hsteps, trivial⟩
    | cons ep rest =>
      have hfront : (unlike r ep || decide (ep.max < r.min)) = true := by
        simp [hbelow ep (by simp [hcases])]
      refine ⟨if_pos hfront, hsteps, ?_⟩
      rw [Covered, if_pos hfront]
      trivial

theorem printedPieces_within (h : Printable r) : ∀ p ∈ (printedPieces always r).map Prod.snd,
    r.min ≤ p.min ∧ p.max ≤ r.max := by
  have hle := h.le
  unfold printedPieces
  split_ifs with hsame <;> simp <;> omega

theorem pairwise_piecesOf (hl : Canonical l) (h : ∀ r ∈ l, Printable r) :
    (piecesOf always l).Pairwise fun a b => a.max < b.min := by
  induction l with
  | nil => exact List.Pairwise.nil
  | cons r l ih =>
    obtain ⟨hr, hrest⟩ := List.forall_mem_cons.mp h
    have hle := hr.le
    have hsplit : piecesOf always (r :: l) =
        (printedPieces always r).map Prod.snd ++ piecesOf always l := by
      rw [piecesOf, List.flatMap_cons, List.map_append]
      rfl
    rw [hsplit, List.pairwise_append]
    refine ⟨?_, ih hl.tail hrest, fun p hp p' hp' => ?_⟩
    · unfold printedPieces
      split_ifs with hsame
      · simp
      · simp
      · simp; omega
      · simp
    · obtain ⟨q, hq, rfl⟩ := List.mem_map.mp hp'
      obtain ⟨r', hr', hq⟩ := List.mem_flatMap.mp hq
      have hin := printedPieces_within hr p hp
      have hin' := printedPieces_within (hrest r' hr') q.2 (List.mem_map_of_mem hq)
      have hlt := hl.head_lt r' hr'
      omega

/-- **The ids of a list survive** if no piece that is added extends a range over others that are
lost. In a list in order none is. -/
theorem rangeList_survives (h : ∀ r ∈ l, Printable r) (always infAllowed : Bool) :
    (Steps Covered (piecesOf always l) → Survives always infAllowed l) ∧
      (Canonical l → Steps Covered (piecesOf always l)) :=
  ⟨survives_of_covered h always infAllowed,
    fun hl => (expandAll_ascending (pairwise_piecesOf hl h)).2⟩

/-- `7-9:2` between two ranges without steps: printed as `10-12:1,7,9,3-5:1`. -/
theorem rangeList_survives_descending :
    Survives false false [⟨10, 12, 1⟩, ⟨7, 9, 2⟩, ⟨3, 5, 1⟩] := by
  have hprintable : ∀ r ∈ [(⟨10, 12, 1⟩ : Range), ⟨7, 9, 2⟩, ⟨3, 5, 1⟩], Printable r := by
    intro r hr
    simp only [List.mem_cons, List.not_mem_nil, or_false] at hr
    rcases hr with rfl | rfl | rfl <;> exact ⟨by decide, by decide, by decide, by decide⟩
  have hone : Steps Covered ([] ++ [⟨10, 12, 1⟩]) := steps_snoc.mpr ⟨steps_nil _, trivial⟩
  have htwo : Steps Covered ([⟨10, 12, 1⟩] ++ [⟨7, 7, 1⟩]) := steps_snoc.mpr ⟨hone, trivial⟩
  have hthree : Steps Covered ([⟨10, 12, 1⟩, ⟨7, 7, 1⟩] ++ [⟨9, 9, 1⟩]) :=
    steps_snoc.mpr ⟨htwo, trivial⟩
  have hall : Steps Covered ([⟨10, 12, 1⟩, ⟨7, 7, 1⟩, ⟨9, 9, 1⟩] ++ [⟨3, 5, 1⟩]) :=
    steps_snoc.mpr ⟨hthree, trivial⟩
  exact (rangeList_survives hprintable false false).1 hall

/-- `1-3,10-12,5-7,4-6`: the last range takes `10-12` out of the list that is read. -/
theorem rangeList_ids_lost :
    (∀ r ∈ [(⟨1, 3, 1⟩ : Range), ⟨10, 12, 1⟩, ⟨5, 7, 1⟩, ⟨4, 6, 1⟩], Printable r) ∧
      ¬ Survives false false [⟨1, 3, 1⟩, ⟨10, 12, 1⟩, ⟨5, 7, 1⟩, ⟨4, 6, 1⟩] := by
  have hprintable : ∀ r ∈ [(⟨1, 3, 1⟩ : Range), ⟨10, 12, 1⟩, ⟨5, 7, 1⟩, ⟨4, 6, 1⟩], Printable r := by
    intro r hr
    simp only [List.mem_cons, List.not_mem_nil, or_false] at hr
    rcases hr with rfl | rfl | rfl | rfl <;> exact ⟨by decide, by decide, by decide, by decide⟩
  refine ⟨hprintable, fun h => ?_⟩
  obtain ⟨l', hparse, hlist⟩ := rangeListParse_printed hprintable false false
  have hten := (h.ids 10).mpr (by decide)
  have hpieces : piecesOf false [⟨1, 3, 1⟩, ⟨10, 12, 1⟩, ⟨5, 7, 1⟩, ⟨4, 6, 1⟩] =
      [⟨1, 3, 1⟩, ⟨10, 12, 1⟩, ⟨5, 7, 1⟩, ⟨4, 6, 1⟩] := rfl
  rw [hparse, hlist, hpieces] at hten
  exact absurd hten (by decide)

end ClusterScheduler.Sgeobj
