import Mathlib

/-!
# The parameters of a resource map request

A request for a resource map may carry parameters in brackets behind the amount, as in
`4[same=id,memory=40G]`. One reader splits the list for the check of a request, another one
looks a single parameter up.

* `centryRsmapFindParams`, `centryRsmapSplitParams` — the list, and its parameters.
* `centryRsmapGetRequestParam` — the value of one parameter.
* `Inside` — text in which every bracket that is closed was opened before.
* `getRequestParam_iff` — what is looked up is what splitting finds.

A parameter may have brackets of its own, as `id=gpu[01]*` has.
-/

namespace ClusterScheduler.Sgeobj

/-! ## Functions of the source -/

def strchr (c : Char) (s : List Char) : Option (List Char) :=
  match s.dropWhile (· ≠ c) with
  | [] => none
  | found => some found

def depthAfter (depth : ℤ) (c : Char) : ℤ :=
  if c = '[' then depth + 1 else if c = ']' then depth - 1 else depth

/-- The text up to the bracket that ends the list, and the text behind it. -/
def findClose (depth : ℤ) : List Char → Option (List Char × List Char)
  | [] => none
  | c :: s =>
    if c = ']' ∧ depth - 1 = 0 then some ([], s)
    else (findClose (depthAfter depth c) s).map fun r => (c :: r.1, r.2)

/-- The text between the brackets of the list, and the text behind them. -/
def centryRsmapFindParams (value : Option (List Char)) : Option (List Char × List Char) :=
  match value.bind (strchr '[') with
  | none => none
  | some opening => (findClose 0 opening).map fun r => (r.1.tail, r.2)

/-- The parameters, with the depth the first one has been read to. A comma at depth zero
begins the next one. -/
def splitFrom (depth : ℤ) : List Char → List (List Char)
  | [] => [[]]
  | c :: s =>
    if depth = 0 ∧ c = ',' then [] :: splitFrom 0 s
    else (splitFrom (depthAfter depth c) s).modifyHead (c :: ·)

def centryRsmapSplitParams (params : List Char) : List (List Char) := splitFrom 0 params

def stripParam (param p : List Char) : Option (List Char) :=
  if (param ++ ['=']).isPrefixOf p then some (p.drop (param.length + 1)) else none

/-- A value ends before a comma or a closing bracket at depth zero. -/
def valueText (depth : ℤ) : List Char → List Char
  | [] => []
  | c :: s =>
    if depth = 0 ∧ (c = ',' ∨ c = ']') then [] else c :: valueText (depthAfter depth c) s

/-- The text behind the opening bracket is gone through. `atStart` says that an entry of the
list begins. -/
def getRequestParamLoop (param : List Char) : Bool → ℤ → List Char → Option (List Char)
  | _, _, [] => none
  | atStart, depth, c :: s =>
    match if atStart ∧ depth = 0 then stripParam param (c :: s) else none with
    | some v => some (valueText 0 v)
    | none =>
      if depth = 0 ∧ c = ',' then getRequestParamLoop param true depth s
      else if c = ']' ∧ depth - 1 < 0 then none
      else getRequestParamLoop param false (depthAfter depth c) s

def centryRsmapGetRequestParam (stringval : Option (List Char)) (param : List Char) :
    Option (List Char) :=
  match stringval.bind (strchr '[') with
  | none => none
  | some opening => getRequestParamLoop param true 0 opening.tail

def paramName (param : List Char) : List Char := param.takeWhile (· ≠ '=')

/-! ## Text inside the list -/

/-- Text that begins at a depth inside the list and is back at its own level at the end. -/
def Inside : ℕ → List Char → Prop
  | d, [] => d = 0
  | d, c :: s =>
    if c = '[' then Inside (d + 1) s
    else if c = ']' then 0 < d ∧ Inside (d - 1) s
    else Inside d s

variable {d : ℕ} {c : Char} {s params param v : List Char}

theorem Inside.tail (h : Inside d (c :: s)) :
    ¬ (d = 0 ∧ c = ']') ∧ ∃ d' : ℕ, depthAfter d c = d' ∧ Inside d' s := by
  rw [Inside] at h
  unfold depthAfter
  split_ifs at h ⊢ with hopen hclose
  · rw [hopen]
    exact ⟨fun hd => absurd hd.2 (by decide), d + 1, rfl, h⟩
  · exact ⟨fun hd => by omega, d - 1, by omega, h.2⟩
  · exact ⟨fun hd => hclose hd.2, d, rfl, h⟩

/-- What the first reader finds is closed by the bracket behind it. -/
theorem inside_of_findClose (hfind : findClose (d + 1) s = some (params, [])) :
    s = params ++ [']'] ∧ Inside d params := by
  induction s generalizing d params with
  | nil => cases hfind
  | cons c s ih =>
    rw [findClose] at hfind
    split_ifs at hfind with hclose
    · cases hfind
      obtain ⟨rfl, hd⟩ := hclose
      exact ⟨rfl, by rw [Inside]; omega⟩
    · obtain ⟨⟨text, rest⟩, hrest, heq⟩ := Option.map_eq_some_iff.mp hfind
      cases heq
      -- the depth stays above zero
      have hdepth : ∀ d' : ℕ, depthAfter (d + 1) c = d' + 1 →
          c :: s = c :: text ++ [']'] ∧ Inside d' text := by
        intro d' hd'
        rw [hd'] at hrest
        obtain ⟨rfl, hinside⟩ := ih hrest
        exact ⟨rfl, hinside⟩
      unfold depthAfter at hdepth
      rw [Inside]
      split_ifs at hdepth ⊢ with hc hc'
      · exact hdepth (d + 1) (by omega)
      · have hpos : 0 < d := by
          by_contra hd
          exact hclose ⟨hc', by omega⟩
        obtain ⟨htext, hinside⟩ := hdepth (d - 1) (by omega)
        exact ⟨htext, hpos, hinside⟩
      · exact hdepth d rfl

theorem splitFrom_ne_nil (depth : ℤ) (s : List Char) : splitFrom depth s ≠ [] := by
  induction s generalizing depth with
  | nil => exact List.cons_ne_nil _ _
  | cons c s ih =>
    rw [splitFrom]
    split_ifs
    · exact List.cons_ne_nil _ _
    · simpa using ih _

/-- **A value ends** where the parameter it belongs to is cut. -/
theorem head_splitFrom (h : Inside d params) :
    (splitFrom d params).head? = some (valueText d (params ++ [']'])) := by
  induction params generalizing d with
  | nil =>
    rw [Inside] at h
    rw [h]
    rfl
  | cons c s ih =>
    obtain ⟨hclose, d', hd', hs⟩ := h.tail
    rw [splitFrom, List.cons_append, valueText, hd']
    by_cases hcomma : (d : ℤ) = 0 ∧ c = ','
    · rw [if_pos hcomma, if_pos ⟨hcomma.1, Or.inl hcomma.2⟩]
      rfl
    · have hend : ¬ ((d : ℤ) = 0 ∧ (c = ',' ∨ c = ']')) := by
        rintro ⟨hd, hc | hc⟩
        · exact hcomma ⟨hd, hc⟩
        · exact hclose ⟨by omega, hc⟩
      rw [if_neg hcomma, if_neg hend, List.head?_modifyHead, ih hs]
      rfl

/-! ## One parameter -/

variable {p : List Char}

theorem stripParam_eq_some : stripParam param p = some v ↔ p = param ++ '=' :: v := by
  rw [stripParam]
  split_ifs with hprefix
  · obtain ⟨rest, rfl⟩ := List.isPrefixOf_iff_prefix.mp hprefix
    rw [List.drop_append_of_le_length (by simp), List.drop_of_length_le (by simp)]
    simp [eq_comm]
  · refine iff_of_false nofun ?_
    rintro rfl
    exact hprefix (List.isPrefixOf_iff_prefix.mpr ⟨v, by simp⟩)

/-- The name of a parameter has no signs that the list uses. -/
def PlainName (param : List Char) : Prop := '=' ∉ param ∧ ',' ∉ param ∧ '[' ∉ param ∧ ']' ∉ param

variable {text : List Char}

/-- Text without these signs is read at one depth, and is not cut. -/
theorem splitFrom_append (h : ',' ∉ text ∧ '[' ∉ text ∧ ']' ∉ text)
    (s : List Char) : splitFrom 0 (text ++ s) = (splitFrom 0 s).modifyHead (text ++ ·) := by
  induction text with
  | nil =>
    cases hs : splitFrom 0 s with
    | nil => exact absurd hs (splitFrom_ne_nil 0 s)
    | cons e l => simp [hs]
  | cons c text ih =>
    simp only [List.mem_cons, not_or] at h
    have hdepth : depthAfter 0 c = 0 := by
      rw [depthAfter, if_neg (Ne.symm h.2.1.1), if_neg (Ne.symm h.2.2.1)]
    rw [List.cons_append, splitFrom, if_neg fun hc => h.1.1 hc.2.symm, hdepth,
      ih ⟨h.1.2, h.2.1.2, h.2.2.2⟩, List.modifyHead_modifyHead]
    rfl

theorem inside_append (h : '[' ∉ text ∧ ']' ∉ text) : Inside d (text ++ s) ↔ Inside d s := by
  induction text with
  | nil => rfl
  | cons c text ih =>
    simp only [List.mem_cons, not_or] at h
    rw [List.cons_append, Inside, if_neg (Ne.symm h.1.1), if_neg (Ne.symm h.2.1), ih ⟨h.1.2, h.2.2⟩]

variable {depth : ℤ}

theorem prefix_of_head_splitFrom (h : (splitFrom depth s).head? = some p) : p <+: s := by
  induction s generalizing depth p with
  | nil =>
    cases h
    exact List.prefix_refl _
  | cons c s ih =>
    rw [splitFrom] at h
    split_ifs at h
    · cases h
      exact List.nil_prefix
    · rw [List.head?_modifyHead, Option.map_eq_some_iff] at h
      obtain ⟨p, hp, rfl⟩ := h
      exact List.cons_prefix_cons.mpr ⟨rfl, ih hp⟩

/-- **The entry** that begins at the list's own level is the first parameter. -/
theorem stripParam_inside (hparam : PlainName param) (h : Inside 0 params) :
    (stripParam param (params ++ [']'])).map (valueText 0) =
      (splitFrom 0 params).head?.bind (stripParam param) := by
  obtain ⟨-, hcomma, hopen, hclose⟩ := hparam
  by_cases hbegin : param ++ ['='] <+: params
  · obtain ⟨rest, rfl⟩ := hbegin
    have hplain : ',' ∉ param ++ ['='] ∧ '[' ∉ param ++ ['='] ∧ ']' ∉ param ++ ['='] := by
      simp [hcomma, hopen, hclose]
    have hrest : Inside 0 rest := (inside_append hplain.2).mp h
    have hleft : stripParam param (param ++ ['='] ++ rest ++ [']']) = some (rest ++ [']']) :=
      stripParam_eq_some.mpr (by simp)
    have hright : stripParam param (param ++ ['='] ++ valueText 0 (rest ++ [']'])) =
        some (valueText 0 (rest ++ [']'])) := stripParam_eq_some.mpr (by simp)
    rw [hleft, splitFrom_append hplain, List.head?_modifyHead]
    show _ = (((splitFrom (0 : ℕ) rest).head?).map _).bind _
    rw [head_splitFrom hrest]
    exact hright.symm
  · have hleft : stripParam param (params ++ [']']) = none := by
      rw [stripParam, if_neg]
      intro hprefix
      rcases List.prefix_concat_iff.mp (List.isPrefixOf_iff_prefix.mp hprefix) with heq | hprefix
      · have := (List.append_inj' heq rfl).2
        exact absurd this (by decide)
      · exact hbegin hprefix
    rw [hleft]
    cases hhead : (splitFrom 0 params).head? with
    | none => rfl
    | some p =>
      show none = stripParam param p
      rw [stripParam, if_neg]
      exact fun hprefix => hbegin
        ((List.isPrefixOf_iff_prefix.mp hprefix).trans (prefix_of_head_splitFrom hhead))

/-! ## The two readers -/

theorem findSome_splitFrom (f : List Char → Option (List Char)) (s : List Char) :
    (splitFrom depth s).findSome? f =
      ((splitFrom depth s).head?.bind f).or ((splitFrom depth s).tail.findSome? f) := by
  cases hs : splitFrom depth s with
  | nil => exact absurd hs (splitFrom_ne_nil depth s)
  | cons p l =>
    rw [List.findSome?_cons]
    show _ = (f p).or _
    cases f p <;> rfl

/-- **The search** finds the first parameter of the name. From within an entry, the
parameters behind it are searched. -/
theorem getRequestParamLoop_inside (hparam : PlainName param) (h : Inside d params) :
    getRequestParamLoop param false d (params ++ [']']) =
        (splitFrom d params).tail.findSome? (stripParam param) ∧
      (d = 0 → getRequestParamLoop param true d (params ++ [']']) =
        (splitFrom d params).findSome? (stripParam param)) := by
  have hstart : ∀ params, Inside 0 params →
      getRequestParamLoop param false (0 : ℕ) (params ++ [']']) =
        (splitFrom (0 : ℕ) params).tail.findSome? (stripParam param) →
      getRequestParamLoop param true (0 : ℕ) (params ++ [']']) =
        (splitFrom (0 : ℕ) params).findSome? (stripParam param) := by
    intro params hinside hbehind
    have hentry := stripParam_inside hparam hinside
    rw [findSome_splitFrom, ← hbehind]
    show _ = ((splitFrom 0 params).head?.bind _).or _
    rw [← hentry]
    obtain ⟨c, s, hcs⟩ := List.exists_cons_of_ne_nil (List.concat_ne_nil ']' params)
    rw [hcs, getRequestParamLoop, getRequestParamLoop, if_pos ⟨rfl, rfl⟩]
    cases stripParam param (c :: s) with
    | none => rfl
    | some v => rfl
  induction params generalizing d with
  | nil =>
    rw [Inside] at h
    subst h
    have hend : getRequestParamLoop param false (0 : ℕ) ([] ++ [']']) =
        (splitFrom (0 : ℕ) []).tail.findSome? (stripParam param) := rfl
    exact ⟨hend, fun _ => hstart [] rfl hend⟩
  | cons c s ih =>
    obtain ⟨hclose, d', hd', hs⟩ := h.tail
    have hbehind : getRequestParamLoop param false d (c :: s ++ [']']) =
        (splitFrom d (c :: s)).tail.findSome? (stripParam param) := by
      rw [List.cons_append, getRequestParamLoop, splitFrom, hd']
      by_cases hcomma : (d : ℤ) = 0 ∧ c = ','
      · have hzero : d' = 0 := by
          rw [hcomma.1, hcomma.2] at hd'
          exact (Int.ofNat_inj.mp hd').symm
        subst hzero
        rw [if_pos hcomma, if_pos hcomma, hcomma.1]
        exact (ih hs).2 rfl
      · have hinside : ¬ (c = ']' ∧ (d : ℤ) - 1 < 0) := by
          rintro ⟨hc, hd⟩
          exact hclose ⟨by omega, hc⟩
        rw [if_neg hcomma, if_neg hcomma, if_neg hinside, List.tail_modifyHead]
        exact (ih hs).1
    refine ⟨hbehind, ?_⟩
    rintro rfl
    exact hstart (c :: s) h hbehind

/-- **The two readers agree.** Where the list is closed by the last character and no two of
its parameters have the same name, a parameter is found with a value if and only if it is
one of those the list is split into. -/
theorem getRequestParam_iff {value : Option (List Char)}
    (hclosed : centryRsmapFindParams value = some (params, []))
    (hnames : ((centryRsmapSplitParams params).map paramName).Nodup) (hparam : PlainName param) :
    centryRsmapGetRequestParam value param = some v ↔
      param ++ '=' :: v ∈ centryRsmapSplitParams params := by
  have hname : ∀ v, paramName (param ++ '=' :: v) = param := by
    intro v
    have hall : ∀ c ∈ param, decide (c ≠ '=') = true := by
      intro c hc
      exact decide_eq_true fun heq => hparam.1 (heq ▸ hc)
    rw [paramName, List.takeWhile_append_of_pos hall]
    simp
  have hget : centryRsmapGetRequestParam value param =
      (centryRsmapSplitParams params).findSome? (stripParam param) := by
    unfold centryRsmapFindParams at hclosed
    unfold centryRsmapGetRequestParam
    cases hopen : value.bind (strchr '[') with
    | none =>
      rw [hopen] at hclosed
      exact absurd hclosed nofun
    | some opening =>
      rw [hopen] at hclosed
      obtain ⟨⟨text, rest⟩, hfind, heq⟩ := Option.map_eq_some_iff.mp hclosed
      obtain ⟨htail, rfl⟩ := Prod.mk.inj heq
      -- the text begins with the bracket that opens the list
      obtain ⟨s, rfl⟩ : ∃ s, opening = '[' :: s := by
        obtain ⟨str, -, hstr⟩ := Option.bind_eq_some_iff.mp hopen
        rw [strchr] at hstr
        split at hstr
        · exact absurd hstr nofun
        · rename_i found hfound
          obtain rfl := Option.some.inj hstr
          cases hdrop : str.dropWhile (· ≠ '[') with
          | nil => exact absurd hdrop hfound
          | cons c s =>
            have hc := List.head_dropWhile_not (fun c => decide (c ≠ '[')) (l := str)
              (by rw [hdrop]; exact List.cons_ne_nil c s)
            simp only [hdrop, List.head_cons] at hc
            obtain rfl : c = '[' := by simpa using hc
            exact ⟨s, rfl⟩
      rw [findClose, if_neg (by decide)] at hfind
      obtain ⟨⟨text', rest'⟩, hfind', heq'⟩ := Option.map_eq_some_iff.mp hfind
      obtain ⟨rfl, rfl⟩ := Prod.mk.inj heq'
      obtain rfl : text' = params := htail
      obtain ⟨rfl, hinside⟩ := inside_of_findClose (d := 0) hfind'
      exact (getRequestParamLoop_inside hparam hinside).2 rfl
  rw [hget]
  constructor
  · intro h
    obtain ⟨p, hp, hstrip⟩ := List.exists_of_findSome?_eq_some h
    rwa [← stripParam_eq_some.mp hstrip]
  · intro hmem
    cases h : (centryRsmapSplitParams params).findSome? (stripParam param) with
    | none =>
      have hnone := List.findSome?_eq_none_iff.mp h _ hmem
      rw [stripParam_eq_some.mpr rfl] at hnone
      exact absurd hnone nofun
    | some v' =>
      obtain ⟨p, hp, hstrip⟩ := List.exists_of_findSome?_eq_some h
      obtain rfl := stripParam_eq_some.mp hstrip
      have heq := List.inj_on_of_nodup_map hnames hp hmem (by rw [hname, hname])
      rw [(List.cons.inj (List.append_cancel_left heq)).2]

/-- A character class has brackets of its own, and a value may have an equals sign. -/
theorem getRequestParam_iff_nested :
    centryRsmapGetRequestParam (some "4[id=gpu[0,1]*,mode=a=b]".toList) "id".toList =
        some "gpu[0,1]*".toList ↔
      "id=gpu[0,1]*".toList ∈ centryRsmapSplitParams "id=gpu[0,1]*,mode=a=b".toList :=
  getRequestParam_iff (by decide) (by decide) (by unfold PlainName; decide)

end ClusterScheduler.Sgeobj
