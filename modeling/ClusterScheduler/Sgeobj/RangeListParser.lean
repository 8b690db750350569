import ClusterScheduler.Sgeobj.IdLists
import ClusterScheduler.Sgeobj.RangeParser

/-!
# Reading a list of ranges

Ranges are read one by one and put into a list. A list of ranges without steps is meant to be
kept in descending order, ranges that overlap are joined.

* `expandRangeList`, `rangeListParseFromString` — the functions of the source.
* `Covered`, `expandRangeList_has` — when a range is added without a loss.
* `Placeable`, `expandRangeList_descending` — when a list in order stays in order.
* `parseRangeList_readsAs` — the list that is read from a text.
-/

namespace ClusterScheduler.Sgeobj

open Foundation

/-! ## Functions of the source -/

/-- The loop over the ranges behind one that was extended down to `rmin`. A range that begins
above `rmin` is taken out, and the loop then passes over the one behind it. One that holds `rmin`
is taken out as well; its first id is the first component of the result. -/
def absorb (rmin : ℕ) : List Range → Option ℕ × List Range
  | [] => (none, [])
  | ep :: rest =>
    if rmin < ep.min then
      match rest with
      | [] => (none, [])
      | next :: rest => ((absorb rmin rest).1, next :: (absorb rmin rest).2)
    else if rmin ≤ ep.max then (some ep.min, rest)
    else (none, ep :: rest)

def unlike (r ep : Range) : Bool := r.step ≠ ep.step || 1 < r.step || 1 < ep.step

/-- The loop of `expand_range_list()`. `passed` are the ranges that begin behind the new one. -/
def expandFrom (r : Range) (passed : List Range) : List Range → List Range
  | [] => passed ++ [r]
  | ep :: rest =>
    -- a new range is always inserted in front of the whole list
    if unlike r ep || ep.max < r.min then r :: (passed ++ ep :: rest)
    else if r.max < ep.min then expandFrom r (passed ++ [ep]) rest
    else if r.max ≤ ep.max ∧ ep.min ≤ r.min then passed ++ ep :: rest
    else if r.min < ep.min then
      let max := if ep.max < r.max then r.max else ep.max
      passed ++ ⟨(absorb r.min rest).1.getD r.min, max, ep.step⟩ :: (absorb r.min rest).2
    else passed ++ ⟨ep.min, r.max, ep.step⟩ :: rest

def expandRangeList (r : Range) (l : List Range) : List Range := expandFrom r [] l

/-- The result of the parser, with the texts of the answer list. -/
structure ParsedList where
  ok : Bool
  list : Option (List Range)
  answers : List (List Char)

section Parser

variable (justParse stepAllowed infAllowed : Bool)

/-- The loop over the texts between the commas. -/
def parseTexts : List (List Char) → Bool → Bool → Option (List Range) → List (List Char) →
    ParsedList
  | [], _, _, l, answers => ⟨true, l, answers⟩
  | s :: rest, first, undefined, l, answers =>
    if !first && undefined then
      ⟨false, none, answers ++ ["unexpected range following \"UNDEFINED\"".toList]⟩
    else
      match rangeParseFromString stepAllowed infAllowed s with
      | .error error =>
        let answers := answers ++ (error.map RangeError.text).toList
        if first then parseTexts rest false true l answers
        else ⟨false, none, answers ++ ["unexpected \"UNDEFINED\" following range".toList]⟩
      | .ok range =>
        parseTexts rest false undefined
          (if justParse then l else some (expandRangeList range (l.getD []))) answers

def rangeListParseFromString (l : Option (List Range)) (s : List Char) : ParsedList :=
  parseTexts justParse stepAllowed infAllowed ((s.splitOn ',').filter (!·.isEmpty)) true false l []

end Parser

/-! ## Adding a range without a loss -/

variable {r ep : Range} {l passed rest : List Range} {rmin top x : ℕ}

/-- What the loop takes out lies within the extended range, that is from `rmin` to `top`; or it
extends the range further down, and every id from its first one on is its own. -/
def Absorbed (rmin top : ℕ) : List Range → Prop
  | [] => True
  | ep :: rest =>
    if rmin < ep.min then
      ep.max ≤ top ∧
        match rest with
        | [] => True
        | _ :: rest => Absorbed rmin top rest
    else if rmin ≤ ep.max then ep.max ≤ top ∧ (ep.step = 1 ∨ ep.min = rmin)
    else True

/-- The new range extends no range down over others that are lost in this way. -/
def Covered (r : Range) : List Range → Prop
  | [] => True
  | ep :: rest =>
    if unlike r ep || ep.max < r.min then True
    else if r.max < ep.min then Covered r rest
    else if r.min < ep.min then Absorbed r.min (max r.max ep.max) rest
    else True

theorem onGrid_one {lo hi : ℕ} : OnGrid lo hi 1 x ↔ lo ≤ x ∧ x ≤ hi := by simp [OnGrid]

/-- A range that is taken out above `rmin` has its ids in the extended one. -/
theorem taken_in (hbelow : rmin < ep.min) (htop : ep.max ≤ top)
    (hx : OnGrid ep.min ep.max ep.step x) : rmin ≤ x ∧ x ≤ top :=
  ⟨(Nat.le_of_lt hbelow).trans hx.1, hx.2.1.trans htop⟩

/-- The range that holds `rmin` and the extended one are made one. -/
theorem glued_iff (hle : ep.min ≤ rmin) (hholds : rmin ≤ ep.max) (htop : ep.max ≤ top)
    (hstep : ep.step = 1 ∨ ep.min = rmin) :
    (ep.min ≤ x ∧ x ≤ top) ↔ (rmin ≤ x ∧ x ≤ top) ∨ OnGrid ep.min ep.max ep.step x := by
  rcases hstep with hone | rfl
  · rw [hone, onGrid_one]
    omega
  · exact ⟨Or.inl, fun h => h.elim id fun hx => ⟨hx.1, hx.2.1.trans htop⟩⟩

theorem absorb_has : ∀ {rest : List Range}, Absorbed rmin top rest → ∀ x,
    (((absorb rmin rest).1.getD rmin ≤ x ∧ x ≤ top) ∨ Has (absorb rmin rest).2 x ↔
      (rmin ≤ x ∧ x ≤ top) ∨ Has rest x)
  | [], _, x => by simp [absorb]
  | [ep], h, x => by
      rw [Absorbed] at h
      rw [absorb]
      split_ifs at h ⊢ with hbelow hholds
      · simpa using taken_in hbelow h.1
      · simp [glued_iff (Nat.not_lt.mp hbelow) hholds h.1 h.2]
      · rfl
  | ep :: next :: rest, h, x => by
      rw [Absorbed] at h
      rw [absorb]
      split_ifs at h ⊢ with hbelow hholds
      · have hin := taken_in (x := x) hbelow h.1
        have hrest := absorb_has h.2 x
        dsimp only
        rw [has_cons, has_cons, has_cons]
        tauto
      · rw [Option.getD_some, glued_iff (Nat.not_lt.mp hbelow) hholds h.1 h.2, has_cons ep, or_assoc]
      · rfl

theorem like_steps (hr : 0 < r.step) (h : unlike r ep = false) : r.step = 1 ∧ ep.step = 1 := by
  simp only [unlike, Bool.or_eq_false_iff, decide_eq_false_iff_not] at h
  omega

theorem extended_has (hlike : r.step = 1 ∧ ep.step = 1) (hafter : ¬ r.max < ep.min)
    (hdown : r.min < ep.min) (h : Absorbed r.min (max r.max ep.max) rest) (x : ℕ) :
    OnGrid ((absorb r.min rest).1.getD r.min) (if ep.max < r.max then r.max else ep.max) ep.step x ∨
        Has (absorb r.min rest).2 x ↔
      OnGrid r.min r.max r.step x ∨ OnGrid ep.min ep.max ep.step x ∨ Has rest x := by
  have hmax : (if ep.max < r.max then r.max else ep.max) = max r.max ep.max := by
    split_ifs <;> omega
  have hunion : (r.min ≤ x ∧ x ≤ max r.max ep.max) ↔
      (r.min ≤ x ∧ x ≤ r.max) ∨ ep.min ≤ x ∧ x ≤ ep.max := by omega
  rw [hmax, hlike.1, hlike.2, onGrid_one, onGrid_one, onGrid_one, absorb_has h, hunion, or_assoc]

theorem expandFrom_has (hle : r.min ≤ r.max) (hr : 0 < r.step) : ∀ {l passed : List Range},
    Covered r l → ∀ x,
      (Has (expandFrom r passed l) x ↔ Has passed x ∨ Has l x ∨ OnGrid r.min r.max r.step x)
  | [], passed, _, x => by simp [expandFrom]
  | ep :: rest, passed, h, x => by
      rw [Covered] at h
      rw [expandFrom, has_cons ep rest]
      by_cases hfront : unlike r ep || ep.max < r.min
      · rw [if_pos hfront, has_cons, has_append, has_cons]
        simp only [or_comm, or_assoc]
      · rw [if_neg hfront] at h ⊢
        simp only [Bool.or_eq_true, decide_eq_true_eq, not_or, Bool.not_eq_true] at hfront
        obtain ⟨hlike, hnot⟩ := hfront
        obtain ⟨hone, hone'⟩ := like_steps hr hlike
        by_cases hafter : r.max < ep.min
        · rw [if_pos hafter] at h ⊢
          rw [expandFrom_has hle hr h, has_append, has_cons]
          simp only [has_nil, or_false, or_assoc]
        · rw [if_neg hafter] at h ⊢
          by_cases hin : r.max ≤ ep.max ∧ ep.min ≤ r.min
          · have hheld : OnGrid ep.min ep.max ep.step x ↔
                OnGrid ep.min ep.max ep.step x ∨ OnGrid r.min r.max r.step x := by
              rw [hone, hone', onGrid_one, onGrid_one]
              omega
            rw [if_pos hin, has_append, has_cons]
            conv_lhs => rw [hheld]
            simp only [or_comm, or_assoc]
          · rw [if_neg hin]
            by_cases hdown : r.min < ep.min
            · rw [if_pos hdown] at h ⊢
              rw [has_append, has_cons, extended_has ⟨hone, hone'⟩ hafter hdown h,
                or_comm (a := OnGrid r.min r.max r.step x)]
            · have hunion : OnGrid ep.min r.max ep.step x ↔
                  OnGrid ep.min ep.max ep.step x ∨ OnGrid r.min r.max r.step x := by
                rw [hone, hone', onGrid_one, onGrid_one, onGrid_one]
                omega
              rw [if_neg hdown, has_append, has_cons, hunion]
              simp only [or_comm, or_assoc]

theorem expandRangeList_has (hle : r.min ≤ r.max) (hr : 0 < r.step) (h : Covered r l) (x : ℕ) :
    Has (expandRangeList r l) x ↔ Has l x ∨ OnGrid r.min r.max r.step x := by
  rw [expandRangeList, expandFrom_has hle hr h]
  simp

/-! ## Lists in descending order -/

structure Descending (l : List Range) : Prop where
  le : ∀ r ∈ l, r.min ≤ r.max
  apart : l.Pairwise fun a b => b.max < a.min

/-- The ranges have no steps. -/
def Stepless (l : List Range) : Prop := ∀ r ∈ l, r.step = 1

instance (l : List Range) : Decidable (Stepless l) :=
  inferInstanceAs (Decidable (∀ r ∈ l, r.step = 1))

def meets (r ep : Range) : Bool := ep.min ≤ r.max && r.min ≤ ep.max

/-- The new range joins at most two ranges, and it does not belong between two. -/
def Placeable (r : Range) (l : List Range) : Prop :=
  l.countP (meets r) ≤ 2 ∧
    (l.countP (meets r) = 0 → (∀ ep ∈ l, ep.max < r.min) ∨ ∀ ep ∈ l, r.max < ep.min)

instance (r : Range) (l : List Range) : Decidable (Placeable r l) :=
  inferInstanceAs (Decidable (_ ∧ _))

theorem descending_cons :
    Descending (ep :: l) ↔ ep.min ≤ ep.max ∧ (∀ e ∈ l, e.max < ep.min) ∧ Descending l := by
  constructor
  · rintro ⟨hle, hpair⟩
    obtain ⟨hep, hl⟩ := List.forall_mem_cons.mp hle
    obtain ⟨hlt, hpair⟩ := List.pairwise_cons.mp hpair
    exact ⟨hep, hlt, hl, hpair⟩
  · rintro ⟨hep, hlt, hl⟩
    exact ⟨List.forall_mem_cons.mpr ⟨hep, hl.le⟩, List.pairwise_cons.mpr ⟨hlt, hl.apart⟩⟩

theorem descending_append : Descending (passed ++ l) ↔
    Descending passed ∧ Descending l ∧ ∀ p ∈ passed, ∀ e ∈ l, e.max < p.min := by
  constructor
  · rintro ⟨hle, hpair⟩
    obtain ⟨hp, hl⟩ := List.forall_mem_append.mp hle
    obtain ⟨hpair, hpair', hlt⟩ := List.pairwise_append.mp hpair
    exact ⟨⟨hp, hpair⟩, ⟨hl, hpair'⟩, hlt⟩
  · rintro ⟨hp, hl, hlt⟩
    exact ⟨List.forall_mem_append.mpr ⟨hp.le, hl.le⟩,
      List.pairwise_append.mpr ⟨hp.apart, hl.apart, hlt⟩⟩

/-! What the loop does with the first range. -/

theorem absorb_last (h : rmin < ep.min) : absorb rmin [ep] = (none, []) := by
  rw [absorb, if_pos h]

theorem absorb_taken {next : Range} (h : rmin < ep.min) :
    absorb rmin (ep :: next :: rest) = ((absorb rmin rest).1, next :: (absorb rmin rest).2) := by
  rw [absorb, if_pos h]

theorem absorb_held (h : ep.min ≤ rmin) (h' : rmin ≤ ep.max) :
    absorb rmin (ep :: rest) = (some ep.min, rest) := by
  rw [absorb.eq_def]
  exact (if_neg (Nat.not_lt.mpr h)).trans (if_pos h')

theorem absorb_apart (h : ep.min ≤ rmin) (h' : ep.max < rmin) :
    absorb rmin (ep :: rest) = (none, ep :: rest) := by
  rw [absorb.eq_def]
  exact (if_neg (Nat.not_lt.mpr h)).trans (if_neg (Nat.not_le.mpr h'))

theorem absorb_sublist (rmin : ℕ) : ∀ rest : List Range, (absorb rmin rest).2.Sublist rest
  | [] => List.Sublist.refl _
  | [ep] => by
      rw [absorb]
      split_ifs
      · exact List.nil_sublist _
      · exact List.nil_sublist _
      · exact List.Sublist.refl _
  | ep :: next :: rest => by
      rw [absorb]
      split_ifs
      · exact ((absorb_sublist rmin rest).cons_cons next).cons ep
      · exact List.sublist_cons_self _ _
      · exact List.Sublist.refl _

theorem absorb_min_le (rmin : ℕ) : ∀ rest : List Range, (absorb rmin rest).1.getD rmin ≤ rmin
  | [] => Nat.le_refl _
  | [ep] => by
      rw [absorb]
      split_ifs with hbelow hholds
      · exact Nat.le_refl _
      · exact Nat.not_lt.mp hbelow
      · exact Nat.le_refl _
  | ep :: next :: rest => by
      rw [absorb]
      split_ifs with hbelow hholds
      · exact absorb_min_le rmin rest
      · exact Nat.not_lt.mp hbelow
      · exact Nat.le_refl _

/-- Ranges that end below `rmin` stay. -/
theorem absorb_below (hrest : Descending rest) (h : ∀ e ∈ rest, e.max < rmin) :
    absorb rmin rest = (none, rest) := by
  cases rest with
  | nil => rfl
  | cons ep rest =>
    have hlt := h ep (.head _)
    have hle := hrest.le ep (.head _)
    exact absorb_apart (by omega) hlt

theorem countP_below (h : ∀ e ∈ l, e.max < rmin) : l.countP (fun e => decide (rmin ≤ e.max)) = 0 :=
  List.countP_eq_zero.mpr fun e he => by simpa using h e he

/-- An extended range that reaches more than one of those behind it meets one that is passed
over. -/
theorem absorb_descending (hrest : Descending rest) (htop : rmin ≤ top) (step : ℕ) :
    Descending (⟨(absorb rmin rest).1.getD rmin, top, step⟩ :: (absorb rmin rest).2) ↔
      rest.countP (fun e => decide (rmin ≤ e.max)) ≤ 1 := by
  have hnil : Descending [] := ⟨by simp, List.Pairwise.nil⟩
  rw [descending_cons]
  cases rest with
  | nil => simp [absorb, htop, hnil]
  | cons ep rest =>
    obtain ⟨hep, hlt, hrest⟩ := descending_cons.mp hrest
    rw [List.countP_cons]
    by_cases hbelow : rmin < ep.min
    · rw [if_pos (decide_eq_true (by omega))]
      cases rest with
      | nil => simp [absorb_last hbelow, htop, hnil]
      | cons next rest =>
        obtain ⟨hnext, hlt', hrest⟩ := descending_cons.mp hrest
        rw [absorb_taken hbelow, List.countP_cons]
        by_cases hreach : rmin ≤ next.max
        · -- the range passed over is met
          rw [if_pos (decide_eq_true hreach)]
          have hmin := absorb_min_le rmin rest
          constructor
          · rintro ⟨-, hbehind, -⟩
            have := hbehind next (.head _)
            dsimp only at this
            omega
          · intro h
            omega
        · have hbehind : ∀ e ∈ rest, e.max < rmin := fun e he => by
            have := hlt' e he
            omega
          rw [absorb_below hrest hbehind, if_neg (by simpa using hreach), countP_below hbehind]
          have hall : ∀ e ∈ next :: rest, e.max < rmin :=
            List.forall_mem_cons.mpr ⟨Nat.not_le.mp hreach, hbehind⟩
          exact ⟨fun _ => Nat.le_refl _,
            fun _ => ⟨htop, hall, descending_cons.mpr ⟨hnext, hlt', hrest⟩⟩⟩
    · by_cases hholds : rmin ≤ ep.max
      · have hzero := @countP_below _ rmin fun e he => by
          have := hlt e he
          omega
        rw [absorb_held (Nat.not_lt.mp hbelow) hholds, if_pos (decide_eq_true hholds), hzero]
        refine ⟨fun _ => Nat.le_refl _, fun _ => ⟨?_, hlt, hrest⟩⟩
        show ep.min ≤ top
        omega
      · have hall : ∀ e ∈ ep :: rest, e.max < rmin := by
          refine List.forall_mem_cons.mpr ⟨Nat.not_le.mp hholds, fun e he => ?_⟩
          have := hlt e he
          omega
        rw [absorb_apart (Nat.not_lt.mp hbelow) (Nat.not_le.mp hholds),
          if_neg (by simpa using hholds), countP_below (List.forall_mem_cons.mp hall).2]
        exact ⟨fun _ => Nat.zero_le _,
          fun _ => ⟨htop, hall, descending_cons.mpr ⟨hep, hlt, hrest⟩⟩⟩

theorem meets_above (h : r.max < ep.min) : meets r ep = false := by
  simp [meets, h]

theorem meets_below (h : ep.max < r.min) : meets r ep = false := by
  simp [meets, h]

theorem countP_meets_above (h : ∀ p ∈ passed, r.max < p.min) :
    (passed ++ l).countP (meets r) = l.countP (meets r) := by
  rw [List.countP_append, List.countP_eq_zero.mpr fun p hp => by simp [meets_above (h p hp)],
    Nat.zero_add]

theorem countP_meets_below (h : ∀ e ∈ l, e.max < r.min) : l.countP (meets r) = 0 :=
  List.countP_eq_zero.mpr fun e he => by simp [meets_below (h e he)]

/-- **A list in descending order stays in order** if the new range has its place, and only
then. -/
theorem expandFrom_descending (hle : r.min ≤ r.max) (hr : r.step = 1) :
    ∀ {l passed : List Range}, Descending (passed ++ l) → Stepless l →
      (∀ p ∈ passed, r.max < p.min) →
      (Descending (expandFrom r passed l) ↔ Placeable r (passed ++ l))
  | [], passed, hdesc, _, hpassed => by
      have hzero : (passed ++ []).countP (meets r) = 0 :=
        List.countP_eq_zero.mpr fun e he => by
          simp [meets_above (hpassed e (by simpa using he))]
      rw [List.append_nil] at hdesc hzero ⊢
      rw [expandFrom, descending_append, descending_cons, Placeable, hzero]
      refine ⟨fun _ => ⟨Nat.zero_le _, fun _ => Or.inr hpassed⟩, fun _ => ⟨hdesc, ?_, ?_⟩⟩
      · exact ⟨hle, by simp, by simp, List.Pairwise.nil⟩
      · intro p hp e he
        rw [List.mem_singleton.mp he]
        exact hpassed p hp
  | ep :: rest, passed, hdesc, hsteps, hpassed => by
      obtain ⟨hone, hrestSteps⟩ := List.forall_mem_cons.mp hsteps
      obtain ⟨hdescPassed, hdescRest, hlt⟩ := descending_append.mp hdesc
      obtain ⟨hep, hbelow, hrest⟩ := descending_cons.mp hdescRest
      have hlike : unlike r ep = false := by simp [unlike, hr, hone]
      rw [Placeable, countP_meets_above hpassed, expandFrom, hlike, Bool.false_or]
      by_cases hfront : ep.max < r.min
      · -- the range is inserted at the head, in front of those that are passed
        have hzero : (ep :: rest).countP (meets r) = 0 := by
          refine countP_meets_below (List.forall_mem_cons.mpr ⟨hfront, fun e he => ?_⟩)
          have := hbelow e he
          omega
        have hnot : ¬ ∀ e ∈ passed ++ ep :: rest, r.max < e.min := by
          intro h
          have := h ep (by simp)
          omega
        rw [if_pos (decide_eq_true hfront), descending_cons, hzero]
        exact ⟨fun h => ⟨Nat.zero_le _, fun _ => Or.inl h.2.1⟩,
          fun h => ⟨hle, (h.2 rfl).resolve_right hnot, hdesc⟩⟩
      · rw [if_neg (by simpa using hfront)]
        by_cases hafter : r.max < ep.min
        · have hpassed' : ∀ p ∈ passed ++ [ep], r.max < p.min :=
            List.forall_mem_append.mpr ⟨hpassed, by simpa using hafter⟩
          have hsplit : passed ++ ep :: rest = passed ++ [ep] ++ rest := List.append_cons _ _ _
          rw [if_pos hafter, ← countP_meets_above hpassed, hsplit]
          rw [hsplit] at hdesc
          exact expandFrom_descending hle hr hdesc hrestSteps hpassed'
        · rw [if_neg hafter]
          have hmeets : meets r ep = true := by
            simp only [meets, Bool.and_eq_true, decide_eq_true_eq]
            omega
          rw [List.countP_cons, hmeets]
          by_cases hin : r.max ≤ ep.max ∧ ep.min ≤ r.min
          · have hzero := countP_meets_below (r := r) fun e he => by
              have := hbelow e he
              omega
            rw [if_pos hin, hzero]
            exact ⟨fun _ => ⟨by decide, by simp⟩, fun _ => hdesc⟩
          · rw [if_neg hin]
            by_cases hdown : r.min < ep.min
            · have hcount : rest.countP (meets r) = rest.countP fun e => decide (r.min ≤ e.max) := by
                refine List.countP_congr fun e he => ?_
                have := hbelow e he
                have := hrest.le e he
                simp only [meets, Bool.and_eq_true, decide_eq_true_eq]
                omega
              have htop : r.min ≤ if ep.max < r.max then r.max else ep.max := by
                split_ifs <;> omega
              have habsorb := absorb_descending hrest htop ep.step
              rw [if_pos hdown, hcount]
              dsimp only
              rw [descending_append, habsorb]
              constructor
              · rintro ⟨-, h, -⟩
                exact ⟨by simpa using h, by simp⟩
              · rintro ⟨h, -⟩
                refine ⟨hdescPassed, by simpa using h, fun p hp e he => ?_⟩
                have hpr := hpassed p hp
                have hpe := hlt p hp
                rcases List.mem_cons.mp he with rfl | he
                · dsimp only
                  split_ifs
                  · exact hpr
                  · exact hpe ep (.head _)
                · exact hpe e (.tail _ ((absorb_sublist _ _).subset he))
            · have hzero := countP_meets_below (r := r) fun e he => by
                have := hbelow e he
                omega
              rw [if_neg hdown, hzero, descending_append, descending_cons]
              refine ⟨fun _ => ⟨by decide, by simp⟩, fun _ => ⟨hdescPassed, ?_, fun p hp e he => ?_⟩⟩
              · exact ⟨by dsimp only; omega, hbelow, hrest⟩
              · rcases List.mem_cons.mp he with rfl | he
                · exact hpassed p hp
                · exact hlt p hp e (.tail _ he)

theorem expandRangeList_descending (hle : r.min ≤ r.max) (hr : r.step = 1) (hl : Descending l)
    (hsteps : Stepless l) : Descending (expandRangeList r l) ↔ Placeable r l :=
  @expandFrom_descending r hle hr _ [] hl hsteps (by simp)

theorem expandFrom_stepless (hr : r.step = 1) : ∀ {l passed : List Range}, Stepless l →
    Stepless passed → Stepless (expandFrom r passed l)
  | [], passed, _, hpassed => List.forall_mem_append.mpr ⟨hpassed, by simpa using hr⟩
  | ep :: rest, passed, hl, hpassed => by
      obtain ⟨hone, hrest⟩ := List.forall_mem_cons.mp hl
      rw [expandFrom]
      dsimp only
      generalize (if ep.max < r.max then r.max else ep.max) = top
      split_ifs
      · exact List.forall_mem_cons.mpr ⟨hr, List.forall_mem_append.mpr ⟨hpassed, hl⟩⟩
      · exact expandFrom_stepless hr hrest (List.forall_mem_append.mpr ⟨hpassed, by simpa using hone⟩)
      · exact List.forall_mem_append.mpr ⟨hpassed, hl⟩
      · exact List.forall_mem_append.mpr ⟨hpassed, List.forall_mem_cons.mpr
          ⟨hone, fun e he => hrest e ((absorb_sublist _ _).subset he)⟩⟩
      · exact List.forall_mem_append.mpr ⟨hpassed, List.forall_mem_cons.mpr ⟨hone, hrest⟩⟩

theorem absorbed_of_le : ∀ {rest : List Range}, (∀ e ∈ rest, e.max ≤ top) → Stepless rest →
    Absorbed rmin top rest
  | [], _, _ => trivial
  | [ep], h, hsteps => by
      obtain ⟨hep, -⟩ := List.forall_mem_cons.mp h
      rw [Absorbed]
      split_ifs
      · exact ⟨hep, trivial⟩
      · exact ⟨hep, Or.inl (hsteps ep (.head _))⟩
  | ep :: next :: rest, h, hsteps => by
      obtain ⟨hep, hrest⟩ := List.forall_mem_cons.mp h
      rw [Absorbed]
      split_ifs
      · exact ⟨hep, absorbed_of_le (List.forall_mem_cons.mp hrest).2 fun e he =>
          hsteps e (.tail _ (.tail _ he))⟩
      · exact ⟨hep, Or.inl (hsteps ep (.head _))⟩

theorem covered_of_descending : ∀ {l : List Range}, Descending l → Stepless l → Covered r l
  | [], _, _ => trivial
  | ep :: rest, hl, hsteps => by
      obtain ⟨hep, hbelow, hrest⟩ := descending_cons.mp hl
      obtain ⟨-, hrestSteps⟩ := List.forall_mem_cons.mp hsteps
      rw [Covered]
      split_ifs
      · exact covered_of_descending hrest hrestSteps
      · refine absorbed_of_le (fun e he => ?_) hrestSteps
        have := hbelow e he
        omega

/-! ## The texts of ranges -/

/-- A range with its bounds in order, and a step or none. -/
inductive PlainRange : List Char → Range → Prop
  | single {s n} : Number s n [] → PlainRange s ⟨n, n, 1⟩
  | span {s t m n} : Number s m ('-' :: t) → Number t n [] → m ≤ n → PlainRange s ⟨m, n, 1⟩
  | stepped {s t u m n d} : Number s m ('-' :: t) → Number t n (':' :: u) → Number u d [] →
      0 < d → m ≤ n → PlainRange s ⟨m, n, d⟩

variable {s t : List Char} {c : Char} {n : ℕ} {infAllowed : Bool}

theorem notMem_number (h : Number s n t) (hc : c.isDigit = false) (ht : c ∉ t) : c ∉ s := by
  obtain ⟨⟨digits, -, hdigits, -, rfl, -⟩, -⟩ := h
  intro hmem
  rcases List.mem_append.mp hmem with hmem | hmem
  · rw [hdigits c hmem] at hc
    exact absurd hc (by decide)
  · exact ht hmem

theorem Number.ne_nil (h : Number s n t) : s ≠ [] := by
  rintro rfl
  exact absurd h.strtol nofun

def Digits (a : List Char) : Prop :=
  a ≠ [] ∧ a.all Char.isDigit = true ∧ numberOf a < 2 ^ 31

instance (a : List Char) : Decidable (Digits a) := inferInstanceAs (Decidable (_ ∧ _))

variable {a : List Char}

theorem Digits.number (h : Digits a) (ht : Ends t) : Number (a ++ t) (numberOf a) t :=
  ⟨⟨a, h.1, List.all_eq_true.mp h.2.1, rfl, rfl, ht⟩, h.2.2⟩

theorem Digits.single (h : Digits a) : PlainRange a ⟨numberOf a, numberOf a, 1⟩ := by
  have hnumber : Number (a ++ []) (numberOf a) [] := h.number (by simp [Ends])
  rw [List.append_nil] at hnumber
  exact .single hnumber

theorem Digits.span {b : List Char} (h : Digits a) (h' : Digits b) (hle : numberOf a ≤ numberOf b) :
    PlainRange (a ++ '-' :: b) ⟨numberOf a, numberOf b, 1⟩ := by
  have hnumber : Number (b ++ []) (numberOf b) [] := h'.number (by simp [Ends])
  rw [List.append_nil] at hnumber
  refine .span (h.number fun c hc => ?_) hnumber hle
  rw [← Option.some.inj hc]
  rfl

theorem PlainRange.ne_nil (h : PlainRange s r) : s ≠ [] := by
  cases h with
  | single h => exact h.ne_nil
  | span h => exact h.ne_nil
  | stepped h => exact h.ne_nil

theorem PlainRange.comma_notMem (h : PlainRange s r) : ',' ∉ s := by
  have hcons : ∀ {c t}, c ≠ ',' → ',' ∉ t → ',' ∉ c :: t := fun hc ht hmem =>
    (List.mem_cons.mp hmem).elim (fun h => hc h.symm) ht
  cases h with
  | single h => exact notMem_number h rfl List.not_mem_nil
  | span h h' =>
    exact notMem_number h rfl (hcons (by decide) (notMem_number h' rfl List.not_mem_nil))
  | stepped h h' hd =>
    exact notMem_number h rfl (hcons (by decide)
      (notMem_number h' rfl (hcons (by decide) (notMem_number hd rfl List.not_mem_nil))))

/-- What holds of the ranges of these texts. -/
structure InBounds (r : Range) : Prop where
  le : r.min ≤ r.max
  step : 0 < r.step
  lt : r.max < 2 ^ 31

theorem PlainRange.inBounds (h : PlainRange s r) : InBounds r := by
  cases h with
  | single h => exact ⟨Nat.le_refl _, Nat.one_pos, h.2⟩
  | span _ h' hle => exact ⟨hle, Nat.one_pos, h'.2⟩
  | stepped _ h' _ hd hle => exact ⟨hle, hd, h'.2⟩

theorem between_of_le {a b step : ℕ} (h : a ≤ b) : between a b step = ⟨a, b, step⟩ := by
  rw [between, Nat.min_eq_left h, Nat.max_eq_right h]

theorem rangeParse_plain (h : PlainRange s r) : rangeParseFromString true infAllowed s = .ok r := by
  cases h with
  | single h =>
    rw [rangeParse_number h.head, parseNumber_ok]
    exact Or.inl ⟨_, h.strtol, by rw [h.toUint32, between_of_le (Nat.le_refl _)]⟩
  | span h h' hle =>
    rw [rangeParse_number h.head, parseNumber_ok]
    refine Or.inr (Or.inr ⟨_, _, _, h'.ne_nil, by simp [isSeparator], h.strtol, ?_⟩)
    exact parseUpper_ok.mpr (Or.inl
      ⟨_, h'.strtol, by rw [h.toUint32, h'.toUint32, between_of_le hle]⟩)
  | @stepped t u m n d h h' hd hpos hle =>
    have hlt : d < 2 ^ 53 := Nat.lt_trans hd.2 (by decide)
    have hwhole : WholeStep u d := ⟨hpos, strtod_eq hd.1 hlt⟩
    have hstep := (parseStep_whole hwhole (Nat.lt_trans hd.2 (by decide))).mpr rfl
    rw [rangeParse_number h.head, parseNumber_ok]
    refine Or.inr (Or.inr ⟨_, _, _, h'.ne_nil, by simp [isSeparator], h.strtol, ?_⟩)
    exact parseUpper_ok.mpr (Or.inr ⟨_, _, _, rfl, h'.strtol, hstep,
      by rw [h.toUint32, h'.toUint32, between_of_le hle]⟩)

/-! ## The list of a text -/

def expandAll (rs : List Range) : List Range := rs.foldl (fun l r => expandRangeList r l) []

theorem expandAll_snoc (rs : List Range) (r : Range) :
    expandAll (rs ++ [r]) = expandRangeList r (expandAll rs) := by
  rw [expandAll, List.foldl_append]
  rfl

variable {texts : List (List Char)} {rs : List Range}

theorem parseTexts_plain
    (h : List.Forall₂ PlainRange texts rs) (first : Bool) (l : Option (List Range)) :
    ∃ l', parseTexts false true infAllowed texts first false l [] = ⟨true, l', []⟩ ∧
      l'.getD [] = rs.foldl (fun l r => expandRangeList r l) (l.getD []) := by
  induction h generalizing first l with
  | nil => exact ⟨l, rfl, rfl⟩
  | @cons s r texts rs hs _ ih =>
    obtain ⟨l', hparse, hlist⟩ := ih false (some (expandRangeList r (l.getD [])))
    refine ⟨l', ?_, hlist⟩
    rw [parseTexts, Bool.and_false, if_neg (by decide), rangeParse_plain hs]
    exact hparse

theorem filter_splitOn (hcomma : ∀ s ∈ texts, ',' ∉ s) (hne : ∀ s ∈ texts, s ≠ []) :
    (([','].intercalate texts).splitOn ',').filter (!·.isEmpty) = texts := by
  cases texts with
  | nil => rfl
  | cons s texts =>
    rw [List.splitOn_intercalate ',' hcomma (List.cons_ne_nil _ _)]
    exact List.filter_eq_self.mpr fun s hs => by simpa using hne s hs

theorem rangeListParse_plain (h : List.Forall₂ PlainRange texts rs) (infAllowed : Bool) :
    ∃ l, rangeListParseFromString false true infAllowed none ([','].intercalate texts) =
      ⟨true, l, []⟩ ∧ l.getD [] = expandAll rs := by
  have hmem : ∀ s ∈ texts, ∃ r, PlainRange s r := fun s hs => by
    obtain ⟨i, hi, rfl⟩ := List.getElem_of_mem hs
    exact ⟨_, h.get hi (h.length_eq ▸ hi)⟩
  rw [rangeListParseFromString, filter_splitOn]
  · exact parseTexts_plain h true none
  · intro s hs
    obtain ⟨r, hr⟩ := hmem s hs
    exact hr.comma_notMem
  · intro s hs
    obtain ⟨r, hr⟩ := hmem s hs
    exact hr.ne_nil

/-! ## One range after the other -/

/-- `P` holds whenever a range is added to the list of those before it. -/
def Steps (P : Range → List Range → Prop) (rs : List Range) : Prop :=
  ∀ pre r post, rs = pre ++ r :: post → P r (expandAll pre)

theorem steps_nil (P : Range → List Range → Prop) : Steps P [] := by
  intro pre r post h
  exact absurd h.symm (List.append_ne_nil_of_right_ne_nil _ (List.cons_ne_nil _ _))

theorem steps_snoc {P : Range → List Range → Prop} :
    Steps P (rs ++ [r]) ↔ Steps P rs ∧ P r (expandAll rs) := by
  constructor
  · intro h
    refine ⟨fun pre r' post heq => h pre r' (post ++ [r]) ?_, h rs r [] rfl⟩
    rw [heq, List.append_assoc, List.cons_append]
  · rintro ⟨h, hlast⟩ pre r' post heq
    rcases List.eq_nil_or_concat post with rfl | ⟨post, last, rfl⟩
    · obtain ⟨rfl, hr⟩ := List.append_inj' heq rfl
      rw [← (List.cons.inj hr).1]
      exact hlast
    · rw [List.concat_eq_append, ← List.cons_append, ← List.append_assoc] at heq
      exact h pre r' post (List.append_inj' heq rfl).1

theorem expandAll_has (hrs : ∀ r ∈ rs, InBounds r) (h : Steps Covered rs) (x : ℕ) :
    Has (expandAll rs) x ↔ Has rs x := by
  induction rs using List.reverseRecOn with
  | nil => rfl
  | append_singleton rs r ih =>
    obtain ⟨hrs, hr⟩ := List.forall_mem_append.mp hrs
    have hr := hr r (List.mem_singleton_self r)
    obtain ⟨hsteps, hcovered⟩ := steps_snoc.mp h
    rw [expandAll_snoc, expandRangeList_has hr.le hr.step hcovered, ih hrs hsteps, has_append]
    simp

theorem expandAll_stepless (h : Stepless rs) : Stepless (expandAll rs) := by
  induction rs using List.reverseRecOn with
  | nil => exact h
  | append_singleton rs r ih =>
    obtain ⟨hrs, hr⟩ := List.forall_mem_append.mp h
    rw [expandAll_snoc]
    exact expandFrom_stepless (hr r (List.mem_singleton_self r)) (ih hrs) (by simp [Stepless])

/-- Ranges without steps are kept in order as long as each has its place. -/
theorem expandAll_descending (hrs : ∀ r ∈ rs, InBounds r) (hsteps : Stepless rs)
    (h : Steps Placeable rs) : Descending (expandAll rs) ∧ Steps Covered rs := by
  induction rs using List.reverseRecOn with
  | nil => exact ⟨⟨by simp [expandAll], List.Pairwise.nil⟩, steps_nil _⟩
  | append_singleton rs r ih =>
    obtain ⟨hrs, hr⟩ := List.forall_mem_append.mp hrs
    obtain ⟨hone, hlast⟩ := List.forall_mem_append.mp hsteps
    have hr := hr r (List.mem_singleton_self r)
    obtain ⟨hplaced, hplace⟩ := steps_snoc.mp h
    obtain ⟨hdesc, hcovered⟩ := ih hrs hone hplaced
    have hsame := expandAll_stepless hone
    refine ⟨?_, steps_snoc.mpr ⟨hcovered, covered_of_descending hdesc hsame⟩⟩
    rw [expandAll_snoc]
    exact (expandRangeList_descending hr.le (hlast r (List.mem_singleton_self r)) hdesc hsame).mpr
      hplace

theorem Descending.canonical_reverse (h : Descending l) (hsteps : Stepless l)
    (hlt : ∀ x, Has l x → x < 2 ^ 31) : Canonical l.reverse where
  aligned := by
    intro r hr
    have hr := List.mem_reverse.mp hr
    have hle := h.le r hr
    have hone := hsteps r hr
    have hmax : r.max < 2 ^ 31 := hlt r.max ⟨r, hr, hle, Nat.le_refl _, by simp [hone]⟩
    exact ⟨hle, by omega, by omega, by simp [hone], by omega⟩
  apart := List.pairwise_reverse.mpr h.apart

theorem Descending.count (h : Descending l) (hsteps : Stepless l)
    (hlt : ∀ x, Has l x → x < 2 ^ 31) : rangeListGetNumberOfIds l = (idSet l).ncard := by
  have hhas : ∀ x, Has l.reverse x ↔ Has l x := fun x => by simp [Has]
  have hcomm : RightCommutative fun ret range => add32 ret (rangeGetNumberOfIds range) := by
    refine ⟨fun n a b => ?_⟩
    unfold add32
    omega
  have hreverse : rangeListGetNumberOfIds l = rangeListGetNumberOfIds l.reverse :=
    (List.reverse_perm l).symm.foldl_eq 0
  rw [hreverse, (h.canonical_reverse hsteps hlt).count fun x hx => hlt x ((hhas x).mp hx)]
  exact congrArg Set.ncard (Set.ext hhas)

/-! ## What is read -/

/-- The list that is read from the texts denotes the union of the ranges `rs`; without steps it is
in descending order and can be counted. -/
structure ReadsAs (infAllowed : Bool) (texts : List (List Char)) (rs : List Range) : Prop where
  ok : (rangeListParseFromString false true infAllowed none ([','].intercalate texts)).ok = true
  ids : ∀ id, rangeListIsIdWithin ((rangeListParseFromString false true infAllowed none
      ([','].intercalate texts)).list.getD []) id = true ↔ ∃ r ∈ rs, rangeIsIdWithin r id = true
  ordered : Stepless rs →
    Descending ((rangeListParseFromString false true infAllowed none
        ([','].intercalate texts)).list.getD []) ∧
      rangeListGetNumberOfIds ((rangeListParseFromString false true infAllowed none
          ([','].intercalate texts)).list.getD []) =
        {id | ∃ r ∈ rs, rangeIsIdWithin r id = true}.ncard

/-- Each range has its place when it is added: between no two ranges without steps, and joined to
at most two; among ranges with steps it extends none over ranges that are lost. -/
def Joins (rs : List Range) : Prop :=
  (Stepless rs → Steps Placeable rs) ∧ (¬ Stepless rs → Steps Covered rs)

theorem has_iff_within {id : ℕ} : Has rs id ↔ ∃ r ∈ rs, rangeIsIdWithin r id = true := by
  simp only [Has, within_iff]

theorem inBounds_of_plain (h : List.Forall₂ PlainRange texts rs) : ∀ r ∈ rs, InBounds r := by
  intro r hr
  obtain ⟨i, hi, rfl⟩ := List.getElem_of_mem hr
  exact (h.get (h.length_eq.symm ▸ hi) hi).inBounds

theorem readsAs_of_joins
    (h : List.Forall₂ PlainRange texts rs) (hjoins : Joins rs) : ReadsAs infAllowed texts rs := by
  have hrs := inBounds_of_plain h
  obtain ⟨l, hparse, hlist⟩ := rangeListParse_plain h infAllowed
  have hcovered : Steps Covered rs := by
    by_cases hsteps : Stepless rs
    · exact (expandAll_descending hrs hsteps (hjoins.1 hsteps)).2
    · exact hjoins.2 hsteps
  have hids : ∀ id, Has (expandAll rs) id ↔ ∃ r ∈ rs, rangeIsIdWithin r id = true := fun id =>
    (expandAll_has hrs hcovered id).trans has_iff_within
  refine ⟨by rw [hparse], fun id => ?_, fun hsteps => ?_⟩
  · rw [hparse, hlist, ← has_iff, hids]
  · obtain ⟨hdesc, -⟩ := expandAll_descending hrs hsteps (hjoins.1 hsteps)
    have hlt : ∀ x, Has (expandAll rs) x → x < 2 ^ 31 := by
      intro x hx
      obtain ⟨r, hr, -, hmax, -⟩ := (expandAll_has hrs hcovered x).mp hx
      exact Nat.lt_of_le_of_lt hmax (hrs r hr).lt
    rw [hparse, hlist]
    refine ⟨hdesc, (hdesc.count (expandAll_stepless hsteps) hlt).trans ?_⟩
    exact congrArg Set.ncard (Set.ext hids)

theorem joins_take (hsteps : Stepless rs) (h : Joins rs) (k : ℕ) : Joins (rs.take k) := by
  have htake : Stepless (rs.take k) := fun r hr => hsteps r (List.mem_of_mem_take hr)
  refine ⟨fun _ pre r post heq => h.1 hsteps pre r (post ++ rs.drop k) ?_,
    fun hnot => absurd htake hnot⟩
  rw [← List.cons_append, ← List.append_assoc, ← heq, List.take_append_drop]

/-- A step that finds no place shows in the list that is read so far. -/
theorem joins_of_readsAs (h : List.Forall₂ PlainRange texts rs) (hsteps : Stepless rs)
    (hreads : ∀ k, ReadsAs infAllowed (texts.take k) (rs.take k)) : Joins rs := by
  have hdesc : ∀ k, Descending (expandAll (rs.take k)) := fun k => by
    obtain ⟨l, hparse, hlist⟩ := rangeListParse_plain (List.forall₂_take k h) infAllowed
    have hordered := ((hreads k).ordered fun r hr => hsteps r (List.mem_of_mem_take hr)).1
    rwa [hparse, hlist] at hordered
  refine ⟨fun _ pre r post heq => ?_, fun hnot => absurd hsteps hnot⟩
  have hr : r ∈ rs := by simp [heq]
  have hbounds := inBounds_of_plain h r hr
  have hpre : rs.take pre.length = pre := by rw [heq, List.take_left]
  have hnext : rs.take (pre.length + 1) = pre ++ [r] := by
    rw [heq, List.take_append, List.take_of_length_le (Nat.le_succ _)]
    simp
  have hbefore := hdesc pre.length
  have hafter := hdesc (pre.length + 1)
  rw [hpre] at hbefore
  rw [hnext, expandAll_snoc] at hafter
  refine (expandRangeList_descending hbounds.le (hsteps r hr) hbefore ?_).mp hafter
  exact expandAll_stepless fun r' hr' => hsteps r' (by simp [heq, hr'])

/-- **A text of ranges** is read as their union if each range finds its place. Without steps the
places are found whenever all beginnings of the text are read as they should. -/
theorem parseRangeList_readsAs {texts : List (List Char)} {rs : List Range}
    (h : List.Forall₂ PlainRange texts rs) (infAllowed : Bool) :
    (Joins rs → ReadsAs infAllowed texts rs) ∧
      (Stepless rs →
        ((∀ k, ReadsAs infAllowed (texts.take k) (rs.take k)) ↔ Joins rs)) :=
  ⟨readsAs_of_joins h, fun hsteps => ⟨joins_of_readsAs h hsteps, fun hjoins k =>
    readsAs_of_joins (List.forall₂_take k h) (joins_take hsteps hjoins k)⟩⟩

/-- `5,1-3,2-6`: the last range joins the two before it. -/
theorem parseRangeList_readsAs_joined :
    ReadsAs false [['5'], ['1', '-', '3'], ['2', '-', '6']] [⟨5, 5, 1⟩, ⟨1, 3, 1⟩, ⟨2, 6, 1⟩] := by
  have hfirst : PlainRange ['5'] ⟨5, 5, 1⟩ := Digits.single (by decide)
  have hsecond : PlainRange (['1'] ++ '-' :: ['3']) ⟨1, 3, 1⟩ :=
    Digits.span (by decide) (by decide) (by decide)
  have hthird : PlainRange (['2'] ++ '-' :: ['6']) ⟨2, 6, 1⟩ :=
    Digits.span (by decide) (by decide) (by decide)
  have hone : Steps Placeable ([] ++ [⟨5, 5, 1⟩]) := steps_snoc.mpr ⟨steps_nil _, by decide⟩
  have htwo : Steps Placeable ([⟨5, 5, 1⟩] ++ [⟨1, 3, 1⟩]) := steps_snoc.mpr ⟨hone, by decide⟩
  have hall : Steps Placeable ([⟨5, 5, 1⟩, ⟨1, 3, 1⟩] ++ [⟨2, 6, 1⟩]) :=
    steps_snoc.mpr ⟨htwo, by decide⟩
  exact (parseRangeList_readsAs (.cons hfirst (.cons hsecond (.cons hthird .nil))) false).1
    ⟨fun _ => hall, fun h => absurd (by decide) h⟩

/-- `1-3,10-12,5-7,4-5`: the third range is put at the head, and the last one then takes `10-12`
out. -/
theorem parseRangeList_ids_lost :
    List.Forall₂ PlainRange
        [['1', '-', '3'], ['1', '0', '-', '1', '2'], ['5', '-', '7'], ['4', '-', '5']]
        [⟨1, 3, 1⟩, ⟨10, 12, 1⟩, ⟨5, 7, 1⟩, ⟨4, 5, 1⟩] ∧
      ¬ ReadsAs false [['1', '-', '3'], ['1', '0', '-', '1', '2'], ['5', '-', '7'], ['4', '-', '5']]
        [⟨1, 3, 1⟩, ⟨10, 12, 1⟩, ⟨5, 7, 1⟩, ⟨4, 5, 1⟩] := by
  have hspan : ∀ a b : List Char, Digits a → Digits b → numberOf a ≤ numberOf b →
      PlainRange (a ++ '-' :: b) ⟨numberOf a, numberOf b, 1⟩ := fun a b ha hb hle => ha.span hb hle
  have hplain : List.Forall₂ PlainRange
      [['1', '-', '3'], ['1', '0', '-', '1', '2'], ['5', '-', '7'], ['4', '-', '5']]
      [⟨1, 3, 1⟩, ⟨10, 12, 1⟩, ⟨5, 7, 1⟩, ⟨4, 5, 1⟩] :=
    .cons (hspan ['1'] ['3'] (by decide) (by decide) (by decide))
      (.cons (hspan ['1', '0'] ['1', '2'] (by decide) (by decide) (by decide))
        (.cons (hspan ['5'] ['7'] (by decide) (by decide) (by decide))
          (.cons (hspan ['4'] ['5'] (by decide) (by decide) (by decide)) .nil)))
  refine ⟨hplain, fun h => ?_⟩
  obtain ⟨l, hparse, hlist⟩ := rangeListParse_plain hplain false
  have hten := (h.ids 10).mpr (by decide)
  rw [hparse, hlist] at hten
  exact absurd hten (by decide)

end ClusterScheduler.Sgeobj
