import ClusterScheduler.Cull.PackBuffer
import ClusterScheduler.Cull.GrownTypes

/-!
# Packing lists and elements

A list is packed with its descriptor, the values of its elements follow in field order. A
static descriptor is packed as a reference to its type. A counted one enters the table of the
buffer, and is an index into the table from then on.

* `MultiType`, `CullItem` — values, and what is packed at a time.
* `packSharedDescr`, `cullPackCont`, `cullPackSwitch`, `cullPackItem` — without flags.
* `cullUnpackDescr`, `cullUnpackCont`, `cullUnpackSwitch`, `cullUnpackItem` — their
  counterparts. The fuel bounds the nesting.

The parts of values are packed through a list of packers, one for each slot.
-/

namespace ClusterScheduler.Cull

open Foundation

/-! ## Values -/

/-- The value of a field. `D` is how the descriptor of a list or a sub-object is held, and the
elements of a list are their values by slot. -/
inductive MultiType (D : Type) where
  | bool (b : Bool)
  | ulong (ul : BitVec 32)
  | ulong64 (ul64 : BitVec 64)
  | long (l : BitVec 64)
  | int (i : BitVec 32)
  | double (db : BitVec 64)
  | string (str : Option CString)
  | host (host : Option CString)
  | ref (ref : Option ℕ)
  | nullList
  | list (listname : Option CString) (descr : D) (elems : List (List (MultiType D)))
  | nullObject
  | object (descr : D) (cont : List (MultiType D))

def MultiType.type {D : Type} : MultiType D → CullType
  | .bool _ => .bool
  | .ulong _ => .ulong
  | .ulong64 _ => .ulong64
  | .long _ => .long
  | .int _ => .int
  | .double _ => .double
  | .string _ => .string
  | .host _ => .host
  | .ref _ => .ref
  | .nullList | .list .. => .list
  | .nullObject | .object .. => .object

/-- The value of a field in a new element. -/
def initialValue {D : Type} : CullType → MultiType D
  | .bool => .bool false
  | .ulong => .ulong 0
  | .ulong64 => .ulong64 0
  | .long => .long 0
  | .int => .int 0
  | .double => .double 0
  | .string => .string none
  | .host => .host none
  | .ref => .ref none
  | .list => .nullList
  | .object => .nullObject

/-- What is handed to `cull_pack_list()` or `cull_pack_elem()`, and what is read back. -/
inductive CullItem (D : Type) where
  | nullList
  | list (listname : Option CString) (descr : D) (elems : List (List (MultiType D)))
  | freeElem (descr : D) (cont : List (MultiType D))

/-! ## The states of an element on the wire -/

inductive ElemKind where
  | free | bound | object | transBound
  deriving DecidableEq, Repr

def elemKindToWire : ElemKind → ℕ
  | .free => 1
  | .bound => 2
  | .transBound => 4
  | .object => 8

def elemKindFromWire (wire : ℕ) : Option ElemKind :=
  if wire = 1 then some .free
  else if wire = 2 then some .bound
  else if wire = 4 then some .transBound
  else if wire = 8 then some .object
  else none

/-! ## Packing -/

def cullPackDescrTypeRef : ℕ := 0xFFFFFF00

def cullPackDescrTableDef : ℕ := 0xFFFFFF01

def cullPackDescrTableRef : ℕ := 0xFFFFFF02

def cullPackDescrByIndex : ℕ := 0

def cullPackDescrByField : ℕ := 1

/-- The sender's table holds the addresses of counted descriptors. -/
abbrev PackM := WriteM (List ℕ) PackError

section

variable {ns : NameSpace} (heap : ℕ → Reduction ns)

def indexIn (ns : NameSpace) (type : ObjectType) (f : PresentField) : Option ℕ := do
  let (type', p) ← ocsCullDescrStaticContaining ns f.nm
  if type' = type ∧ type.fields[p]?.map mtGetType = some (mtGetType f.mt) then some p else none

/-- The type of the first field, and the positions of the fields in it if all of them belong to
it. -/
def fieldIndices (ns : NameSpace) (dp : List DescrEntry) : Option (ObjectType × List ℕ) := do
  let first ← if presentFields dp = [] then none else dp.head?
  let (type, _) ← ocsCullDescrStaticContaining ns first.nm
  let idx ← (presentFields dp).mapM (indexIn ns type)
  return (type, idx)

def packSharedDescr : HeldDescr ns → PackM (List Byte)
  | .static t _ =>
    return packint cullPackDescrTypeRef ++ packint t.lower ++ packint t.fields.length
  | .counted h => do
    let tab ← get
    match tab.idxOf? h with
    | some k => return packint cullPackDescrTableRef ++ packint k
    | none =>
      set (tab ++ [h])
      let dp := (heap h).entries
      let n := (presentFields dp).length
      match fieldIndices ns dp with
      | some (type, idx) =>
        return packint cullPackDescrTableDef ++ packint cullPackDescrByIndex ++
          packint type.lower ++ packint n ++ idx.flatMap packint
      | none =>
        return packint cullPackDescrTableDef ++ packint cullPackDescrByField ++
          packint n ++ (presentFields dp).flatMap fun f =>
            packint (BitVec.ofInt 32 f.nm).toNat ++
              packint (f.mt &&& ~~~cullDescrInterned).toNat

/-- A value without parts. Signed numbers are not implemented. -/
def packLeaf {D : Type} : MultiType D → PackM (List Byte)
  | .bool b => return packint b.toNat
  | .ulong ul => return packint ul.toNat
  | .ulong64 ul64 => return packint64 ul64
  | .string str => return packstr str
  | .host host => return packstr host
  | .double db => return packdouble db
  | .ref _ => return []
  | .nullList | .nullObject => return packint 0
  | .int _ | .long _ | .list .. | .object .. => throw .format

/-- A packer for a value, by the data type of its field. -/
abbrev Packer := Option CullType → PackM (List Byte)

def packAs (type : CullType) (w : PackM (List Byte)) : Packer := fun fieldType =>
  if fieldType = some type then w else throw .format

/-- A field that is not transferred goes out with the value of a new element. -/
def packField (ns : NameSpace) (cont : List Packer) (f : PresentField) : PackM (List Byte) :=
  if mtDoTransfer f.mt then
    match cont[f.slot]? with
    | some packer => packer (mtType f.mt)
    | none => throw .format
  else
    match mtType f.mt with
    | some type => packLeaf (D := HeldDescr ns) (initialValue type)
    | none => throw .format

def cullPackCont (ns : NameSpace) (dp : List DescrEntry) (cont : List Packer) :
    PackM (List Byte) :=
  writeAll ((presentFields dp).map (packField ns cont))

/-- Only a free element carries its descriptor. -/
def cullPackElemPartial (kind : ElemKind) (descr : HeldDescr ns) (cont : List Packer) :
    PackM (List Byte) :=
  let values := cullPackCont ns (descr.entries heap) cont
  writeAll (pure (packint (elemKindToWire kind)) ::
    if kind = .free then [packSharedDescr heap descr, values] else [values])

def cullPackObject (descr : HeldDescr ns) (cont : List Packer) : PackM (List Byte) :=
  writeAll [pure (packint 1), packSharedDescr heap descr,
    cullPackElemPartial heap .object descr cont]

def cullPackListPartial (listname : Option CString) (descr : HeldDescr ns)
    (elems : List (List Packer)) : PackM (List Byte) :=
  writeAll [pure (packint 1), pure (packstr listname), packSharedDescr heap descr,
    writeMarked (packint 1) (packint 0) (elems.map (cullPackElemPartial heap .bound descr))]

mutual

def cullPackSwitch : MultiType (HeldDescr ns) → Packer
  | .list listname descr elems =>
    packAs .list (cullPackListPartial heap listname descr (elemPackers elems))
  | .object descr cont => packAs .object (cullPackObject heap descr (packers cont))
  | v => packAs v.type (packLeaf v)

def packers : List (MultiType (HeldDescr ns)) → List Packer
  | [] => []
  | v :: cont => cullPackSwitch v :: packers cont

def elemPackers : List (List (MultiType (HeldDescr ns))) → List (List Packer)
  | [] => []
  | cont :: elems => packers cont :: elemPackers elems

end

def cullPackItem : CullItem (HeldDescr ns) → PackM (List Byte)
  | .nullList => return packint 0
  | .list listname descr elems => cullPackListPartial heap listname descr (elemPackers heap elems)
  | .freeElem descr cont => cullPackElemPartial heap .free descr (packers heap cont)

end

/-! ## Unpacking -/

/-- The receiver's table holds descriptors. -/
abbrev UnpackM := ReadM Byte (List (List DescrEntry)) PackError

def maxDescrSize : ℕ := 200

section

variable (ns : NameSpace)

/-- A field count that does not fit a signed number passes the check. -/
def unpackTypeRef : UnpackM (List DescrEntry × ℕ) := do
  let firstNm ← unpackint
  let count ← unpackint
  match ocsCullDescrStaticFor ns (BitVec.ofNat 32 firstNm).toInt with
  | some block =>
    if count = 0 ∨ block.fields.length < (BitVec.ofNat 32 count).toInt then throw .format
    else return (block.entries, count)
  | none => throw .format

def unpackTableRef : UnpackM (List DescrEntry × ℕ) := do
  let index ← unpackint
  let b ← get
  match b.2[index]? with
  | some dp => return (dp, (presentFields dp).length)
  | none => throw .format

def enterTable (dp : List DescrEntry) : UnpackM Unit :=
  modify fun b => (b.1, b.2 ++ [dp])

/-- Indices below the length of the type, each one above the one before. -/
def unpackIndices (typeN : ℕ) : ℕ → ℤ → UnpackM (List ℕ)
  | 0, _ => return []
  | count + 1, last => do
    let temp ← unpackint
    if typeN ≤ temp ∨ (temp : ℤ) ≤ last then throw .format
    else
      let idx ← unpackIndices typeN count temp
      return temp :: idx

def unpackByIndex : UnpackM (List DescrEntry × ℕ) := do
  let typeNm ← unpackint
  let count ← unpackint
  match ocsCullDescrStaticFor ns (BitVec.ofNat 32 typeNm).toInt with
  | none => throw .format
  | some type =>
    if type.fields.length < count then throw .format
    else
      let idx ← unpackIndices type.fields.length count (-1)
      if count = 0 then throw .format
      else
        match ocsCullDescrBuild type.entries
            ((List.range type.fields.length).map fun p => decide (p ∈ idx)) with
        | none => throw .noMem
        | some shared =>
          enterTable shared
          return (shared, count)

/-- Field numbers and types, in the order of the field numbers. -/
def unpackFields : ℕ → Option ℤ → UnpackM (List (ℤ × BitVec 32))
  | 0, _ => return []
  | n + 1, last => do
    let temp ← unpackint
    let nm := (BitVec.ofNat 32 temp).toInt
    if last.any (nm ≤ ·) then throw .format
    else
      let mt ← unpackint
      let fields ← unpackFields n nm
      return (nm, BitVec.ofNat 32 mt &&& ~~~cullDescrInterned) :: fields

/-- The static type of which the fields are leading ones. -/
def ocsCullUnpackPrefixType (dp : List (ℤ × BitVec 32)) : Except PackError (Option ObjectType) :=
  match dp.head?.bind fun first => ocsCullDescrStaticContaining ns first.1 with
  | some (type, 0) =>
    if (dp.zip type.entries).all fun (d, e) => d.1 = e.nm ∧ mtGetType d.2 = mtGetType e.mt then
      if type.fields.length < dp.length then .error .format else .ok (some type)
    else .ok none
  | _ => .ok none

def heldFields (dp : List (ℤ × BitVec 32)) : Option (ObjectType × List Bool) := do
  let first ← dp.head?
  let (type, _) ← ocsCullDescrStaticContaining ns first.1
  if dp.all fun d => type.entries.any fun e => d.1 = e.nm ∧ mtGetType d.2 = mtGetType e.mt then
    some (type, type.entries.map fun e => dp.any fun d => d.1 = e.nm)
  else none

def unpackByField (n : ℕ) (enter : Bool) : UnpackM (List DescrEntry × ℕ) := do
  if maxDescrSize - 1 < n then throw .noMem
  else
    let dp ← unpackFields n none
    let wireReduced := dp.any fun d => d.2 &&& cullIsReduced ≠ 0
    let type ← if enter ∨ wireReduced then pure none
      else liftM (ocsCullUnpackPrefixType ns dp)
    match type with
    | some type => return (type.entries, n)
    | none =>
      match heldFields ns dp with
      | none => throw .format
      | some (type, keep) =>
        match ocsCullDescrBuild type.entries keep with
        | none => throw .noMem
        | some shared =>
          if enter then enterTable shared
          return (shared, n)

/-- The descriptor, and the number of fields whose values follow for each element. -/
def cullUnpackDescr : UnpackM (List DescrEntry × ℕ) := do
  let n ← unpackint
  if n = cullPackDescrTypeRef then unpackTypeRef ns
  else if n = cullPackDescrTableRef then unpackTableRef
  else if n = cullPackDescrTableDef then
    let kind ← unpackint
    if kind = cullPackDescrByIndex then unpackByIndex ns
    else if kind = cullPackDescrByField then
      let n ← unpackint
      unpackByField ns n true
    else throw .format
  else unpackByField ns n false

/-- A value as the receiver holds it. -/
abbrev Received := MultiType (List DescrEntry)

/-- Reads a value of a data type. -/
abbrev Unpacker := Option CullType → UnpackM Received

def unreadValue {D : Type} (mt : BitVec 32) : MultiType D :=
  ((mtType mt).map initialValue).getD (.ref none)

/-- The values of the leading fields go to their slots, the others are as in a new element. -/
def cullUnpackCont (switch : Unpacker) (dp : List DescrEntry) (wireN : ℕ) :
    UnpackM (List Received) := do
  let present := presentFields dp
  if present.length < wireN then throw .format
  else
    let values ← (present.take wireN).mapM fun f => switch (mtType f.mt)
    return ((present.take wireN).zip values).foldl (fun cp (f, v) => cp.set f.slot v)
      (present.map fun f => unreadValue f.mt)

/-- An element that is not free needs a descriptor from outside. -/
def ocsCullUnpackElem (switch : Unpacker) (dp : Option (List DescrEntry)) (wireN : ℕ) :
    UnpackM (List DescrEntry × List Received) := do
  let wire ← unpackint
  match elemKindFromWire wire, dp with
  | none, _ => throw .format
  | some .free, _ =>
    let (descr, n) ← cullUnpackDescr ns
    let cont ← cullUnpackCont switch descr n
    return (descr, cont)
  | some _, none => throw .badArg
  | some _, some descr =>
    let cont ← cullUnpackCont switch descr wireN
    return (descr, cont)

/-- An appended element takes over the descriptor of the list. -/
def cullUnpackListPartial (switch : Unpacker) : UnpackM (CullItem (List DescrEntry)) := do
  let i ← unpackint
  if i = 0 then return .nullList
  else
    let listname ← unpackstr
    let (descr, wireN) ← cullUnpackDescr ns
    let elems ← readMarked unpackint (fun more => decide (more ≠ 0)) do
      let ep ← ocsCullUnpackElem ns switch (some descr) wireN
      return ep.2
    return .list listname descr elems

def cullUnpackObject (switch : Unpacker) : UnpackM Received := do
  let i ← unpackint
  if i = 0 then return .nullObject
  else
    let (descr, wireN) ← cullUnpackDescr ns
    let ep ← ocsCullUnpackElem ns switch (some descr) wireN
    return .object ep.1 ep.2

def CullItem.asValue {D : Type} : CullItem D → MultiType D
  | .list listname descr elems => .list listname descr elems
  | _ => .nullList

/-- Lists and objects are read with `nested` for their parts. -/
def unpackSwitchWith (nested : Unpacker) : Unpacker
  | some .bool => do return .bool (decide ((← unpackint) ≠ 0))
  | some .ulong => do return .ulong (BitVec.ofNat 32 (← unpackint))
  | some .ulong64 => do return .ulong64 (← unpackint64)
  | some .string => do return .string (← unpackstr)
  | some .host => do return .host (← unpackstr)
  | some .list => do return (← cullUnpackListPartial ns nested).asValue
  | some .object => cullUnpackObject ns nested
  | some .double => do return .double (← unpackdouble)
  | some .ref => return .ref none
  | some .int | some .long | none => throw .format

def cullUnpackSwitch : ℕ → Unpacker
  | 0 => unpackSwitchWith ns fun _ => throw .format
  | fuel + 1 => unpackSwitchWith ns (cullUnpackSwitch fuel)

def withFuel {α : Type} (p : ℕ → UnpackM α) : UnpackM α := do
  let b ← get
  p b.1.length

def cullUnpackList : UnpackM (CullItem (List DescrEntry)) :=
  withFuel fun fuel => cullUnpackListPartial ns (cullUnpackSwitch ns fuel)

/-- A free element takes its descriptor from the buffer. -/
def cullUnpackElem : UnpackM (CullItem (List DescrEntry)) :=
  withFuel fun fuel => do
    let ep ← ocsCullUnpackElem ns (cullUnpackSwitch ns fuel) none 0
    return .freeElem ep.1 ep.2

end

end ClusterScheduler.Cull
