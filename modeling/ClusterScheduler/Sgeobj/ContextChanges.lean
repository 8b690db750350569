import Mathlib

/-!
# Changing the context of a job

A request to change the context is a list in groups. A group starts with an element that tells
whether its names are added, removed, or replace the context. The function keeps its own handle on
the list of the job, and removing the last name frees this list.

* `setContext` — the function, with a handle that is null, current or freed.
* `groupsOf`, `Group.apply` — the groups of a request, and what each makes of a context.
* `NamesKept` — no name is set while the handle is freed.
* `foldsGroups_iff` — the function folds the groups if and only if this holds.
-/

namespace ClusterScheduler.Sgeobj

/-! ## Functions of the source -/

/-- An element of a `VA_Type` list. -/
structure Va where
  vaVariable : String
  vaValue : Option String
deriving DecidableEq, Repr

inductive Marker where
  | plus
  | minus
  | equal
deriving DecidableEq, Repr

def markerOf (e : Va) : Option Marker :=
  match e.vaVariable.toList.head? with
  | some '+' => some .plus
  | some '-' => some .minus
  | some '=' => some .equal
  | _ => none

/-- The handle `newjbctx` on the list of the job. -/
inductive ListHandle where
  | null
  | current
  | freed
deriving DecidableEq, Repr

structure ContextState where
  jbContext : Option (List Va)
  newjbctx : ListHandle
  mode : Marker

/-- The value of the first element of this name is set, or the element is appended. -/
def setVa : List Va → Va → List Va
  | [], e => [e]
  | x :: rest, e =>
    if x.vaVariable = e.vaVariable then { x with vaValue := e.vaValue } :: rest
    else x :: setVa rest e

/-- `lDelElemStr()` on the list of the job. A list that gets empty is freed. -/
def delSubStr (s : ContextState) (name : String) : ContextState :=
  match s.jbContext with
  | none => s
  | some l =>
    if l.any (·.vaVariable = name) then
      match l.eraseP (·.vaVariable = name) with
      | [] => { s with
          jbContext := none
          newjbctx := if s.newjbctx = .current then .freed else s.newjbctx }
      | x :: rest => { s with jbContext := some (x :: rest) }
    else s

/-- The list behind the handle, which is created when there is none. A freed list must not be
read. -/
def ContextState.list (s : ContextState) : Option (List Va) :=
  match s.newjbctx with
  | .null => some []
  | .current => s.jbContext
  | .freed => none

/-- One turn of the loop. -/
def contextStep (s : ContextState) (e : Va) : Option ContextState :=
  match markerOf e with
  | some .plus => some { s with mode := .plus }
  | some .minus => some { s with mode := .minus }
  | some .equal => some ⟨none, .null, .plus⟩
  | none =>
    if s.mode = .minus then some (delSubStr s e.vaVariable)
    else s.list.map fun l => { s with jbContext := some (setVa l e), newjbctx := .current }

/-- What is done before the loop. -/
def startContext (jbctx : List Va) (jbContext : Option (List Va)) : ContextState :=
  match jbctx.head?.bind markerOf with
  | none => ⟨none, .null, .plus⟩
  | some _ => ⟨jbContext, if jbContext.isSome then .current else .null, .plus⟩

def setContext (jbctx : List Va) (jbContext : Option (List Va)) : Option (Option (List Va)) :=
  (jbctx.foldlM contextStep (startContext jbctx jbContext)).map (·.jbContext)

/-! ## Groups -/

abbrev ContextMap := String → Option (Option String)

abbrev noNames : ContextMap := fun _ => none

/-- The values by name. -/
def contextMap (jbContext : Option (List Va)) : ContextMap := fun name =>
  ((jbContext.getD []).find? (·.vaVariable = name)).map (·.vaValue)

/-- A name that is set, or removed. -/
def applyVa (marker : Marker) (m : ContextMap) (e : Va) : ContextMap :=
  Function.update m e.vaVariable (if marker = .minus then none else some e.vaValue)

structure Group where
  marker : Marker
  entries : List Va

def Group.apply (m : ContextMap) (g : Group) : ContextMap :=
  g.entries.foldl (applyVa g.marker) (if g.marker = .equal then noNames else m)

/-- The elements before the first marker, and the groups. -/
def splitGroups : List Va → List Va × List Group
  | [] => ([], [])
  | e :: rest =>
    match markerOf e with
    | none => (e :: (splitGroups rest).1, (splitGroups rest).2)
    | some marker => ([], ⟨marker, (splitGroups rest).1⟩ :: (splitGroups rest).2)

/-- What stands before the first marker replaces the context, and so does the empty request. -/
def groupsOf (jbctx : List Va) : List Group :=
  match jbctx.head?.bind markerOf with
  | none => ⟨.equal, (splitGroups jbctx).1⟩ :: (splitGroups jbctx).2
  | some _ => (splitGroups jbctx).2

/-- The names of a context are distinct. -/
def ContextOk (jbContext : Option (List Va)) : Prop :=
  ((jbContext.getD []).map (·.vaVariable)).Nodup

def FoldsGroups (jbctx : List Va) (jbContext : Option (List Va)) : Prop :=
  ∃ after, setContext jbctx jbContext = some after ∧ ContextOk after ∧
    contextMap after = (groupsOf jbctx).foldl Group.apply (contextMap jbContext)

/-! ## When the handle is freed -/

/-- From this place on no name is set after a removal has emptied the context and no `=` has
followed it. `emptied` says that a removal did. -/
def KeptFrom : Marker → Prop → ContextMap → List Va → Prop
  | _, _, _, [] => True
  | marker, emptied, m, e :: rest =>
    match markerOf e with
    | some .equal => KeptFrom .equal False noNames rest
    | some other => KeptFrom other emptied m rest
    | none =>
      if marker = .minus then
        KeptFrom marker (emptied ∨ m ≠ noNames ∧ applyVa marker m e = noNames)
          (applyVa marker m e) rest
      else ¬ emptied ∧ KeptFrom marker emptied (applyVa marker m e) rest

/-- No name is set after a removal has emptied the context, unless an `=` stands between. -/
def NamesKept (jbctx : List Va) (jbContext : Option (List Va)) : Prop :=
  match jbctx.head?.bind markerOf with
  | none => KeptFrom .equal False noNames jbctx
  | some _ => KeptFrom .plus False (contextMap jbContext) jbctx

/-! ## One element -/

variable {l : List Va} {e : Va} {s s' : ContextState} {marker : Marker} {emptied : Prop}
  {m : ContextMap}

@[simp] theorem contextMap_none : contextMap none = noNames := rfl

theorem contextMap_cons (x : Va) (l : List Va) :
    contextMap (some (x :: l)) =
      Function.update (contextMap (some l)) x.vaVariable (some x.vaValue) := by
  funext name
  by_cases h : x.vaVariable = name
  · simp [contextMap, h]
  · simp [contextMap, h, Function.update_of_ne (Ne.symm h)]

theorem contextMap_eq_noNames : contextMap (some l) = noNames ↔ l = [] := by
  cases l with
  | nil => exact iff_of_true rfl rfl
  | cons x l =>
    simp only [reduceCtorEq, iff_false, contextMap_cons]
    intro h
    simpa using congrFun h x.vaVariable

theorem contextMap_setVa : ∀ l : List Va, contextMap (some (setVa l e)) =
    Function.update (contextMap (some l)) e.vaVariable (some e.vaValue)
  | [] => contextMap_cons e []
  | x :: rest => by
    unfold setVa
    split
    · rename_i heq
      rw [contextMap_cons, contextMap_cons]
      simp [heq]
    · rename_i hne
      rw [contextMap_cons, contextMap_setVa rest, contextMap_cons,
        Function.update_comm (Ne.symm hne)]

theorem names_setVa : ∀ l : List Va, (setVa l e).map (·.vaVariable) =
    if e.vaVariable ∈ l.map (·.vaVariable) then l.map (·.vaVariable)
    else l.map (·.vaVariable) ++ [e.vaVariable]
  | [] => rfl
  | x :: rest => by
    unfold setVa
    split
    · rename_i heq
      simp [heq]
    · rename_i hne
      simp only [List.map_cons, names_setVa rest, List.mem_cons, Ne.symm hne, false_or]
      split <;> simp

theorem contextMap_eraseP (name : String) : ∀ l : List Va, (l.map (·.vaVariable)).Nodup →
    contextMap (some (l.eraseP (·.vaVariable = name))) =
      Function.update (contextMap (some l)) name none
  | [], _ => by simp [contextMap]
  | x :: rest, hnodup => by
    obtain ⟨hx, hrest⟩ := List.nodup_cons.mp hnodup
    by_cases h : x.vaVariable = name
    · -- the other elements have other names
      have hnone : rest.find? (·.vaVariable = name) = none := by
        refine List.find?_eq_none.mpr fun y hy heq => hx (List.mem_map.mpr ⟨y, hy, ?_⟩)
        simpa [h] using heq
      rw [List.eraseP_cons_of_pos (by simpa using h), contextMap_cons, h, Function.update_idem]
      exact (Function.update_eq_self_iff.mpr (by simp [contextMap, hnone])).symm
    · rw [List.eraseP_cons_of_neg (by simpa using h), contextMap_cons, contextMap_cons,
        contextMap_eraseP name rest hrest, Function.update_comm h]

/-- The state of the loop stands for a map, and the handle is freed if `emptied` holds. -/
structure Agrees (s : ContextState) (marker : Marker) (emptied : Prop) (m : ContextMap) : Prop where
  mode : s.mode = .minus ↔ marker = .minus
  map : contextMap s.jbContext = m
  nodup : ContextOk s.jbContext
  freed : s.newjbctx = .freed ↔ emptied
  current : s.newjbctx = .current ↔ s.jbContext.isSome

theorem Agrees.delSubStr (h : Agrees s .minus emptied m) :
    Agrees (delSubStr s e.vaVariable) .minus
      (emptied ∨ m ≠ noNames ∧ applyVa .minus m e = noNames) (applyVa .minus m e) := by
  obtain ⟨hmode, rfl, hnodup, hfreed, hcurrent⟩ := h
  simp only [applyVa, ↓reduceIte]
  rcases hl : s.jbContext with - | l
  · have hdel : Sgeobj.delSubStr s e.vaVariable = s := by simp [Sgeobj.delSubStr, hl]
    rw [hdel]
    exact ⟨hmode, by simp [hl], hnodup, by simpa using hfreed, hcurrent⟩
  · rw [hl] at hnodup hcurrent
    have hmap := contextMap_eraseP e.vaVariable l hnodup
    rw [← hmap, contextMap_eq_noNames, Ne, contextMap_eq_noNames]
    unfold Sgeobj.delSubStr
    rw [hl]
    by_cases hfound : l.any (·.vaVariable = e.vaVariable)
    · simp only [hfound, ↓reduceIte]
      split
      · -- the last name is removed
        rename_i herase
        have hne : l ≠ [] := by
          rintro rfl
          simp at hfound
        exact ⟨hmode, by rw [herase]; rfl, List.nodup_nil, by simp [hcurrent, hne, herase], by
          simp [hcurrent]⟩
      · rename_i x rest herase
        refine ⟨hmode, by rw [herase], ?_, by simpa [herase] using hfreed, by simpa using hcurrent⟩
        exact (herase ▸ (List.eraseP_sublist.map _).nodup hnodup :)
    · have hsame : l.eraseP (·.vaVariable = e.vaVariable) = l :=
        List.eraseP_of_forall_not (by simpa using hfound)
      simp only [hfound, Bool.false_eq_true, ↓reduceIte]
      rw [hsame]
      exact ⟨hmode, by rw [hl], by simpa [hl] using hnodup, by simpa using hfreed, by
        simpa [hl] using hcurrent⟩

variable (h : Agrees s marker emptied m)
include h

/-- The handle is null, and there is no list, or it stands for the list of the job. -/
theorem Agrees.of_list (hlist : s.list = some l) :
    contextMap s.jbContext = contextMap (some l) ∧ (l.map (·.vaVariable)).Nodup ∧ ¬ emptied := by
  obtain ⟨-, -, hnodup, hfreed, hcurrent⟩ := h
  unfold ContextState.list at hlist
  split at hlist
  · rename_i hnull
    cases hlist
    have hnone : s.jbContext = none := by simpa [hnull] using hcurrent
    exact ⟨by rw [hnone]; rfl, List.nodup_nil, by simpa [hnull] using hfreed⟩
  · rename_i hcur
    rw [hlist] at hnodup
    exact ⟨by rw [hlist], hnodup, by simpa [hcur] using hfreed⟩
  · cases hlist

theorem Agrees.of_list_none (hlist : s.list = none) : emptied := by
  refine h.freed.mp ?_
  unfold ContextState.list at hlist
  split at hlist
  · cases hlist
  · rename_i hcur
    have hsome := h.current.mp hcur
    simp [hlist] at hsome
  · assumption

theorem Agrees.setVa (hmarker : marker ≠ .minus) (hlist : s.list = some l) :
    Agrees { s with jbContext := some (setVa l e), newjbctx := .current } marker emptied
      (applyVa marker m e) := by
  obtain ⟨hl, hnodup, hnot⟩ := h.of_list hlist
  refine ⟨h.mode, ?_, ?_, by simp [hnot], by simp⟩
  · rw [contextMap_setVa, ← hl, h.map, applyVa, if_neg hmarker]
  · rw [ContextOk, Option.getD_some, names_setVa]
    split
    · exact hnodup
    · rename_i hnew
      exact List.nodup_append.mpr ⟨hnodup, List.nodup_singleton _, by grind⟩

/-- A marker changes the mode, and `=` drops the list and the handle. -/
theorem Agrees.setMode {other : Marker} (he : markerOf e = some other) (hother : other ≠ .equal) :
    ∃ s', contextStep s e = some s' ∧ Agrees s' other emptied m := by
  obtain ⟨-, hmap, hnodup, hfreed, hcurrent⟩ := h
  refine ⟨{ s with mode := other }, ?_, Iff.rfl, hmap, hnodup, hfreed, hcurrent⟩
  cases other with
  | plus => rw [contextStep, he]
  | minus => rw [contextStep, he]
  | equal => exact absurd rfl hother

omit h

theorem agrees_cleared (hmarker : marker ≠ .minus) :
    Agrees ⟨none, .null, .plus⟩ marker False noNames :=
  ⟨by simp [hmarker], rfl, List.nodup_nil, by simp, by simp⟩

/-- **The run.** From a state that agrees, the loop goes on to fold the groups if and only if no
name is set while the handle is freed. -/
theorem foldlM_contextStep_iff : ∀ (jbctx : List Va) (s : ContextState) (marker : Marker)
    (emptied : Prop) (m : ContextMap), Agrees s marker emptied m →
    ((∃ s', jbctx.foldlM contextStep s = some s' ∧ ContextOk s'.jbContext ∧
        contextMap s'.jbContext = (splitGroups jbctx).2.foldl Group.apply
          ((splitGroups jbctx).1.foldl (applyVa marker) m)) ↔ KeptFrom marker emptied m jbctx)
  | [], s, marker, emptied, m, h => by
    simp [KeptFrom, splitGroups, h.map, h.nodup]
  | e :: rest, s, marker, emptied, m, h => by
    simp only [List.foldlM_cons, splitGroups, KeptFrom]
    rcases he : markerOf e with - | other
    · simp only [List.foldl_cons]
      by_cases hmarker : marker = .minus
      · subst hmarker
        have hstep : contextStep s e = some (Sgeobj.delSubStr s e.vaVariable) := by
          rw [contextStep, he, if_pos (h.mode.mpr rfl)]
        rw [hstep, if_pos rfl]
        exact foldlM_contextStep_iff rest _ _ _ _ h.delSubStr
      · have hmode : s.mode ≠ .minus := mt h.mode.mp hmarker
        rw [contextStep, he, if_neg hmode, if_neg hmarker]
        rcases hlist : s.list with - | l
        · simp [h.of_list_none hlist]
        · have hnot : ¬ emptied := (h.of_list hlist).2.2
          exact (foldlM_contextStep_iff rest _ _ _ _ (h.setVa hmarker hlist)).trans
            (and_iff_right hnot).symm
    · simp only [List.foldl_nil, List.foldl_cons, Group.apply]
      by_cases hequal : other = .equal
      · subst hequal
        rw [contextStep, he, if_pos rfl]
        exact foldlM_contextStep_iff rest _ _ _ _ (agrees_cleared (by simp))
      · obtain ⟨s', hstep, hs'⟩ := h.setMode he hequal
        rw [hstep, if_neg hequal]
        refine (foldlM_contextStep_iff rest _ _ _ _ hs').trans ?_
        cases other with
        | equal => exact absurd rfl hequal
        | plus => rfl
        | minus => rfl

/-- **A request is the fold of its groups if and only if** no name is set after a removal has
emptied the context, unless an `=` stands between. -/
theorem foldsGroups_iff (jbctx : List Va) (jbContext : Option (List Va))
    (hnodup : ContextOk jbContext) : FoldsGroups jbctx jbContext ↔ NamesKept jbctx jbContext := by
  simp only [FoldsGroups, setContext, Option.map_eq_some_iff, exists_exists_and_eq_and,
    startContext, NamesKept, groupsOf]
  rcases hhead : jbctx.head?.bind markerOf with - | marker
  · exact foldlM_contextStep_iff jbctx _ _ _ _ (agrees_cleared (by simp))
  · have hstart : Agrees ⟨jbContext, if jbContext.isSome then .current else .null, .plus⟩ .plus
        False (contextMap jbContext) :=
      ⟨by simp, rfl, hnodup, by simp; split <;> simp,
        by cases jbContext <;> simp⟩
    have hfirst : (splitGroups jbctx).1 = [] := by
      cases jbctx with
      | nil => rfl
      | cons e rest =>
        have he : markerOf e = some marker := hhead
        simp [splitGroups, he]
    have hrun := foldlM_contextStep_iff jbctx _ _ _ _ hstart
    rw [hfirst] at hrun
    exact hrun

/-! ## A request that sets a name in a list that is gone -/

/-- `-sc A=2` for a job with the only name `A`. -/
theorem foldsGroups_iff_replace :
    ContextOk (some [⟨"A", some "1"⟩]) ∧
      (FoldsGroups [⟨"=", none⟩, ⟨"A", some "2"⟩] (some [⟨"A", some "1"⟩]) ↔
        NamesKept [⟨"=", none⟩, ⟨"A", some "2"⟩] (some [⟨"A", some "1"⟩])) :=
  ⟨List.nodup_singleton _, foldsGroups_iff _ _ (List.nodup_singleton _)⟩

/-- `-dc A -ac A=2` for a job with the only name `A`. -/
theorem foldsGroups_false :
    ¬ FoldsGroups [⟨"-", none⟩, ⟨"A", none⟩, ⟨"+", none⟩, ⟨"A", some "2"⟩]
      (some [⟨"A", some "1"⟩]) := by
  rintro ⟨after, hafter, -⟩
  have hnone : setContext [⟨"-", none⟩, ⟨"A", none⟩, ⟨"+", none⟩, ⟨"A", some "2"⟩]
      (some [⟨"A", some "1"⟩]) = none := by decide +kernel
  rw [hnone] at hafter
  cases hafter

end ClusterScheduler.Sgeobj
