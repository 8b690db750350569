import ClusterScheduler.Sgeobj.RangeSets

/-!
# Range lists as text

* `rangeListPrintToString` — a range list as it is printed.
* `decimal` — a number in a range.
* `intercalate_append` — a joined list goes on behind a separator.
-/

namespace ClusterScheduler.Sgeobj

open Foundation

/-! ## Functions of the source -/

def decimal (n : ℕ) : List Char := n.repr.toList

/-- `range_to_dstring()` appends a range to the text so far. -/
def rangeToDstring (r : Range) (str : List Char) (ignoreStep useComma printAlways : Bool) :
    List Char :=
  let toChar := if useComma then ',' else '-'
  let stepChar := if useComma then ',' else ':'
  let str := if str.isEmpty then str else str ++ [',']
  if r.min = r.max ∧ !printAlways then str ++ decimal r.min
  else if r.min = r.max ∧ printAlways then str ++ (decimal r.min ++ toChar :: decimal r.max)
  else if add32 r.min r.step = r.max then str ++ (decimal r.min ++ ',' :: decimal r.max)
  else if ignoreStep then str ++ (decimal r.min ++ toChar :: decimal r.max)
  else str ++ (decimal r.min ++ toChar :: decimal r.max ++ stepChar :: decimal r.step)

def rangeListPrintToString (l : Option (List Range)) (ignoreStep useComma printAlways : Bool) :
    List Char :=
  match l with
  | none => "UNDEFINED".toList
  | some l => l.foldl (fun str r => rangeToDstring r str ignoreStep useComma printAlways) []

/-! ## Numbers -/

theorem isDigit_of_mem_decimal {n : ℕ} {c : Char} (h : c ∈ decimal n) : c.isDigit = true := by
  rw [decimal, Nat.toList_repr] at h
  exact Nat.isDigit_of_mem_toDigits (by decide) (by decide) h

theorem decimal_ne_nil (n : ℕ) : decimal n ≠ [] := by
  rw [decimal, Nat.toList_repr]
  exact Nat.toDigits_ne_nil

/-! ## Texts with a separator -/

theorem intercalate_append {α : Type*} {sep : α} {us vs : List (List α)} (hus : us ≠ [])
    (hvs : vs ≠ []) :
    [sep].intercalate (us ++ vs) = [sep].intercalate us ++ sep :: [sep].intercalate vs := by
  induction us with
  | nil => exact absurd rfl hus
  | cons u us ih =>
    cases us with
    | nil =>
      rw [List.singleton_append, List.intercalate_cons_of_ne_nil hvs,
        List.intercalate_singleton, List.append_assoc]
      rfl
    | cons u' us =>
      rw [List.cons_append, List.intercalate_cons_of_ne_nil (by simp),
        ih (List.cons_ne_nil _ _), List.intercalate_cons_cons]
      simp only [List.append_assoc]

theorem intercalate_ne_nil {α : Type*} {sep : α} {us : List (List α)} (hne : us ≠ [])
    (hus : ∀ u ∈ us, u ≠ []) : [sep].intercalate us ≠ [] := by
  cases us with
  | nil => exact absurd rfl hne
  | cons u us =>
    have hu := hus u (.head _)
    cases us with
    | nil => simpa using hu
    | cons u' us =>
      rw [List.intercalate_cons_cons, List.append_assoc]
      exact List.append_ne_nil_of_left_ne_nil hu _

end ClusterScheduler.Sgeobj
