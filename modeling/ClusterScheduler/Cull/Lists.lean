import ClusterScheduler.Cull.Hash

/-!
# Lists with hash tables

Elements are free or bound in one list. A list keeps the tables of its fields up
to date while elements come, go and change. A table is built by the first search
that finds the list long enough.

* `World` — all lists and elements.
* `Op`, `exec` — the operations; `exec` gives no world where the source aborts.
* `lGetElemFirst`, `lGetElemNext`, `lGetElems` — searching.
-/

namespace ClusterScheduler.Cull

open Foundation

variable {S : Setting}

abbrev ListId := ℕ

/-- The attributes of a field. -/
structure Field where
  hash : Bool
  unique : Bool

/-- Fields are known by position. A list that is not hashable never has a table. -/
structure CullList (S : Setting) where
  descr : ℕ → Field
  hashable : Bool
  elems : List ElemId
  tables : ℕ → Option (CullHtable S)

/-- An element that is bound has an owner. -/
structure Elem where
  cont : ℕ → Value
  owner : Option ListId

structure World (S : Setting) where
  list : ListId → CullList S
  elem : ElemId → Elem

namespace World

def key (w : World S) (pos : ℕ) (e : ElemId) : Option Key :=
  cullHashKey S ((w.elem e).cont pos)

def setList (w : World S) (l : ListId) (lp : CullList S) : World S :=
  { w with list := Function.update w.list l lp }

def setElem (w : World S) (e : ElemId) (ep : Elem) : World S :=
  { w with elem := Function.update w.elem e ep }

def setOwner (w : World S) (e : ElemId) (owner : Option ListId) : World S :=
  w.setElem e { w.elem e with owner := owner }

end World

/-! ## The tables of a list -/

def cullHashElem (w : World S) (lp : CullList S) (e : ElemId) : CullList S :=
  { lp with tables := fun pos =>
      (lp.tables pos).map fun t => cullHashInsert t e (w.key pos e) }

def cullHashRemoveElem (w : World S) (lp : CullList S) (e : ElemId) : CullList S :=
  { lp with tables := fun pos =>
      (lp.tables pos).map fun t => cullHashRemove t e (w.key pos e) }

/-- A table that counted a taken key is built again from the list. -/
def cullHashRebuildUnique (w : World S) (lp : CullList S) (pos : ℕ) (t : CullHtable S) :
    CullHtable S :=
  match t with
  | .unique ht dupCount =>
    if dupCount = 0 then .unique ht dupCount
    else cullHashBuild true lp.elems (w.key pos)
  | t => t

def cullHashRepair (w : World S) (lp : CullList S) : CullList S :=
  { lp with tables := fun pos => (lp.tables pos).map (cullHashRebuildUnique w lp pos) }

def cullHashFreeTables (lp : CullList S) : CullList S := { lp with tables := fun _ => none }

def dropChained : CullHtable S → Option (CullHtable S)
  | .unique ht dupCount => some (.unique ht dupCount)
  | .chained _ _ _ _ => none

def cullHashRecreateAfterSort (lp : CullList S) : CullList S :=
  { lp with tables := fun pos => (lp.tables pos).bind dropChained }

/-! ## Changing lists -/

def bindElem (w : World S) (l : ListId) (elems : List ElemId) (e : ElemId) : World S :=
  (w.setList l (cullHashElem w { w.list l with elems := elems } e)).setOwner e (some l)

def lAppendElem (w : World S) (l : ListId) (e : ElemId) : World S :=
  bindElem w l ((w.list l).elems ++ [e]) e

/-- Insert behind an element, or in front of all. -/
def insertBehind (ep : Option ElemId) (e : ElemId) (elems : List ElemId) : List ElemId :=
  match ep with
  | none => e :: elems
  | some p => (elems.takeWhile (· ≠ p)) ++ p :: e :: (elems.dropWhile (· ≠ p)).tail

def lInsertElem (w : World S) (l : ListId) (ep : Option ElemId) (e : ElemId) : World S :=
  bindElem w l (insertBehind ep e (w.list l).elems) e

def lDechainElem (w : World S) (l : ListId) (e : ElemId) : World S :=
  let lp := { w.list l with elems := (w.list l).elems.erase e }
  (w.setList l (cullHashRepair w (cullHashRemoveElem w lp e))).setOwner e none

def lRemoveElem (w : World S) (l : ListId) (e : ElemId) : World S := lDechainElem w l e

/-- Move an element and all behind it to the end of another list. -/
def lDechainList (w : World S) (source target : ListId) (e : ElemId) : World S :=
  let elems := (w.list source).elems
  let front := elems.takeWhile (· ≠ e)
  let moved := elems.dropWhile (· ≠ e)
  let w := w.setList source (cullHashFreeTables { w.list source with elems := front })
  let tp := w.list target
  let w := w.setList target (cullHashFreeTables { tp with elems := tp.elems ++ moved })
  moved.foldl (fun w e => w.setOwner e (some target)) w

def lAppendList (w : World S) (l0 l1 : ListId) : World S :=
  (w.list l1).elems.foldl (fun w e => lAppendElem (lDechainElem w l1 e) l0 e) w

def lSortList (w : World S) (l : ListId) (order : List ElemId) : World S :=
  if (w.list l).elems.length < 2 then w
  else w.setList l (cullHashRecreateAfterSort { w.list l with elems := order })

def storeValue (w : World S) (e : ElemId) (pos : ℕ) (value : Value) : World S :=
  w.setElem e { w.elem e with cont := Function.update (w.elem e).cont pos value }

/-- The tables of a list when the key of an element in one field changes. -/
def rekeyTables (lp : CullList S) (e : ElemId) (pos : ℕ) (old new : Option Key) :
    ℕ → Option (CullHtable S) :=
  Function.update lp.tables pos
    ((lp.tables pos).map fun t => cullHashInsert (cullHashRemove t e old) e new)

/-- Set a field. A bound element leaves the table of the field with its old key
and comes back with the new one. -/
def lSetValue (w : World S) (e : ElemId) (pos : ℕ) (value : Value) : World S :=
  if (w.elem e).cont pos = value then w
  else
    let w' := storeValue w e pos value
    match (w.elem e).owner with
    | none => w'
    | some l =>
      let tables := rekeyTables (w.list l) e pos (w.key pos e) (w'.key pos e)
      w'.setList l { w.list l with tables := tables }

/-! ## Searching -/

/-- The table of a field, built if the list is long enough. -/
def cullHashLookupTable (w : World S) (l : ListId) (pos minElems : ℕ) :
    World S × Option (CullHtable S) :=
  let lp := w.list l
  if lp.hashable = false ∨ (lp.descr pos).hash = false then (w, none)
  else
    match lp.tables pos with
    | some t => (w, some t)
    | none =>
      if lp.elems.length < minElems then (w, none)
      else
        let fresh := cullHashBuild (lp.descr pos).unique lp.elems (w.key pos)
        (w.setList l { lp with tables := Function.update lp.tables pos (some fresh) }, some fresh)

/-- The first element of a list part that matches. -/
def seek (w : World S) (pos : ℕ) (q : Value) (elems : List ElemId) :
    Option ElemId × Iterator :=
  match elems.find? fun e => fieldEquals S ((w.elem e).cont pos) q with
  | none => (none, .null)
  | some e => (some e, .elem e)

def lGetElemFirst (w : World S) (l : ListId) (pos minElems : ℕ) (q : Value) :
    World S × Option ElemId × Iterator :=
  match cullHashKey S q with
  | none => (w, none, .null)
  | some k =>
    match cullHashLookupTable w l pos minElems with
    | (w, some t) => (w, cullHashFirst t k)
    | (w, none) => (w, seek w pos q (w.list l).elems)

/-- The next match. There is none where the iterator is not one of the search
that is under way: the source then reads memory of another kind. -/
def lGetElemNext (w : World S) (l : ListId) (pos : ℕ) (q : Value) (it : Iterator) :
    Option (Option ElemId × Iterator) :=
  if it = .null then some (none, .null)
  else
    match (w.list l).tables pos with
    | some t => cullHashNext t it
    | none =>
      match it with
      | .elem e => some (seek w pos q ((w.list l).elems.dropWhile (· ≠ e)).tail)
      | _ => none

/-- Ask for the next match until there is none; `fuel` bounds the number of
questions. -/
def collect (w : World S) (l : ListId) (pos : ℕ) (q : Value) :
    ℕ → Iterator → Option (List ElemId)
  | 0, _ => none
  | fuel + 1, it =>
    match lGetElemNext w l pos q it with
    | none => none
    | some (none, _) => some []
    | some (some e, it) => (collect w l pos q fuel it).map (e :: ·)

/-- All matches, in the order in which they are found. -/
def lGetElems (w : World S) (l : ListId) (pos minElems : ℕ) (q : Value) (fuel : ℕ) :
    Option (List ElemId) :=
  match lGetElemFirst w l pos minElems q with
  | (_, none, _) => some []
  | (w, some e, it) => (collect w l pos q fuel it).map (e :: ·)

/-! ## Runs -/

/-- The operations. A search counts, because it may build a table. -/
inductive Op where
  | create (e : ElemId) (cont : ℕ → Value)
  | append (l : ListId) (e : ElemId)
  | insert (l : ListId) (ep : Option ElemId) (e : ElemId)
  | remove (l : ListId) (e : ElemId)
  | dechain (l : ListId) (e : ElemId)
  | dechainList (source target : ListId) (e : ElemId)
  | appendList (l0 l1 : ListId)
  | sort (l : ListId) (order : List ElemId)
  | set (e : ElemId) (pos : ℕ) (value : Value)
  | search (l : ListId) (pos minElems : ℕ) (q : Value)

/-- Two values of one type. -/
def Value.sameType : Value → Value → Bool
  | .string _, .string _ => true
  | .host _, .host _ => true
  | .ulong _, .ulong _ => true
  | .ulong64 _, .ulong64 _ => true
  | _, _ => false

/-- Nothing comes of an operation that aborts or does not end: binding a bound
element, taking an element out of a list that does not hold it, setting a field
of another type, appending a list to itself. -/
def exec (w : World S) : Op → Option (World S)
  | .create e cont =>
    if (w.elem e).owner = none then some (w.setElem e ⟨cont, none⟩) else none
  | .append l e => if (w.elem e).owner = none then some (lAppendElem w l e) else none
  | .insert l ep e =>
    if (w.elem e).owner = none ∧ ∀ p ∈ ep, p ∈ (w.list l).elems then
      some (lInsertElem w l ep e)
    else none
  | .remove l e => if (w.elem e).owner = some l then some (lRemoveElem w l e) else none
  | .dechain l e => if (w.elem e).owner = some l then some (lDechainElem w l e) else none
  | .dechainList source target e =>
    if (w.elem e).owner = some source then some (lDechainList w source target e)
    else none
  | .appendList l0 l1 => if l0 = l1 then none else some (lAppendList w l0 l1)
  | .sort l order =>
    if order.isPerm (w.list l).elems then some (lSortList w l order) else none
  | .set e pos value =>
    if ((w.elem e).cont pos).sameType value then some (lSetValue w e pos value) else none
  | .search l pos minElems q => some (lGetElemFirst w l pos minElems q).1

end ClusterScheduler.Cull
