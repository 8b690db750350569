import ClusterScheduler.Cull.PackLists
import ClusterScheduler.Foundation.CheckedMemory

/-!
# Unpacking in memory

The readers of lists and elements on a buffer that is a block of memory with a position in it,
with the arrays they fill. What they read is said in `PackLists`, without memory.

* `SgePackBuffer`, `memcpy`, `memchr`, `strdup` — the buffer, and accesses at its position.
* `unpackint`, `unpackstr` and the others — a check of the bytes left, then the access.
* `cullUnpackDescr`, `cullUnpackCont`, `cullUnpackListPartial` — the arrays have as many slots
  as the source allocates.
* `cullUnpackSwitch` — no more nested calls than the fuel, which only stands for the stack.

Allocations succeed. No flags are given. What is freed when a list is not read to its end is left
out.
-/

namespace ClusterScheduler.Cull.InMemory

open Foundation

/-- The memory from `head_ptr` on. Positions are counted from there. -/
structure SgePackBuffer where
  headPtr : List Byte
  curPtr : ℕ
  memSize : ℕ
  bytesUsed : ℕ
  dtab : Option (List (List DescrEntry))

abbrev MemM := CheckedM SgePackBuffer PackError

/-! ## Accesses at the position -/

def memcpy (size : ℕ) : MemM (List Byte) := do
  let pb ← get
  if pb.headPtr.length < pb.curPtr + size then throw .outside
  else return (pb.headPtr.drop pb.curPtr).take size

/-- The offset of the first NUL byte among the next ones. No byte behind it is looked at. -/
def memchr (remaining : ℕ) : MemM (Option ℕ) := do
  let pb ← get
  let bytes := (pb.headPtr.drop pb.curPtr).take remaining
  if 0 ∈ bytes then return some (bytes.takeWhile (· ≠ 0)).length
  else if pb.headPtr.length < pb.curPtr + remaining then throw .outside
  else return none

/-- All bytes up to the first NUL byte, wherever it is. -/
def strdup : MemM CString := do
  let pb ← get
  let bytes := pb.headPtr.drop pb.curPtr
  if 0 ∈ bytes then return ⟨bytes.takeWhile (· ≠ 0), zero_notMem_takeWhile bytes⟩
  else throw .outside

def SgePackBuffer.forward (pb : SgePackBuffer) (size : ℕ) : SgePackBuffer :=
  { pb with curPtr := pb.curPtr + size, bytesUsed := pb.bytesUsed + size }

def advance (size : ℕ) : MemM Unit := modify fun pb => pb.forward size

/-! ## Numbers and strings -/

/-- Are there enough bytes? -/
def unpackNumber (size : ℕ) : MemM ℕ := do
  let pb ← get
  if pb.memSize < pb.bytesUsed + size then throw (.code .format)
  else
    let bs ← memcpy size
    advance size
    return ofBeBytes bs

def unpackint : MemM ℕ := unpackNumber 4

def unpackint64 : MemM (BitVec 64) := do
  let i ← unpackNumber 8
  return BitVec.ofNat 64 i

def unpackdouble : MemM (BitVec 64) := do
  let storage ← unpackNumber 8
  return BitVec.ofNat 64 storage

def unpackstr : MemM (Option CString) := do
  let pb ← get
  let remaining := pb.memSize - pb.bytesUsed
  if remaining < 1 then throw (.code .format)
  else
    let first ← memcpy 1
    if first = [0] then
      advance 1
      return none
    else
      match ← memchr remaining with
      | none => throw (.code .format)
      | some n =>
        let str ← strdup
        advance (n + 1)
        return some str

/-! ## Descriptors -/

section

variable (ns : NameSpace)

def unpackTypeRef : MemM (List DescrEntry × ℕ) := do
  let firstNm ← unpackint
  let count ← unpackint
  match ocsCullDescrStaticFor ns (BitVec.ofNat 32 firstNm).toInt with
  | some block =>
    if count = 0 ∨ block.fields.length < (BitVec.ofNat 32 count).toInt then throw (.code .format)
    else return (block.entries, count)
  | none => throw (.code .format)

def unpackTableRef : MemM (List DescrEntry × ℕ) := do
  let index ← unpackint
  let pb ← get
  match pb.dtab.bind (·[index]?) with
  | some dp => return (dp, (presentFields dp).length)
  | none => throw (.code .format)

def enterTable (dp : List DescrEntry) : MemM Unit :=
  modify fun pb => { pb with dtab := some (pb.dtab.getD [] ++ [dp]) }

/-- Marks the fields that are listed in `keep`. -/
def unpackKeep (typeN : ℕ) : ℕ → ℤ → List Bool → MemM (List Bool)
  | 0, _, keep => return keep
  | count + 1, last, keep => do
    let temp ← unpackint
    if typeN ≤ temp ∨ (temp : ℤ) ≤ last then throw (.code .format)
    else
      let keep ← store keep temp fun _ => true
      unpackKeep typeN count temp keep

def unpackByIndex : MemM (List DescrEntry × ℕ) := do
  let typeNm ← unpackint
  let count ← unpackint
  match ocsCullDescrStaticFor ns (BitVec.ofNat 32 typeNm).toInt with
  | none => throw (.code .format)
  | some type =>
    if type.fields.length < count then throw (.code .format)
    else
      let keep ← unpackKeep type.fields.length count (-1)
        (List.replicate type.fields.length false)
      if count = 0 then throw (.code .format)
      else
        match ocsCullDescrBuild type.entries keep with
        | none => throw (.code .noMem)
        | some shared =>
          enterTable shared
          return (shared, count)

def nmAt (dp : List (ℤ × BitVec 32)) (i : ℕ) : ℤ := (dp[i]?.map (·.1)).getD 0

def unpackFields : ℕ → ℕ → List (ℤ × BitVec 32) → MemM (List (ℤ × BitVec 32))
  | 0, _, dp => return dp
  | n + 1, i, dp => do
    let temp ← unpackint
    let dp ← store dp i fun d => ((BitVec.ofNat 32 temp).toInt, d.2)
    if 0 < i ∧ nmAt dp i ≤ nmAt dp (i - 1) then throw (.code .format)
    else
      let temp ← unpackint
      let dp ← store dp i fun d => (d.1, BitVec.ofNat 32 temp &&& ~~~cullDescrInterned)
      unpackFields n (i + 1) dp

/-- A position in the type with this field number and data type. -/
def isFieldAt (type : ObjectType) (pos : ℤ) (d : ℤ × BitVec 32) : Prop :=
  0 ≤ pos ∧ pos < type.fields.length ∧
    type.entries[pos.toNat]?.any fun e => e.nm = d.1 ∧ mtGetType e.mt = mtGetType d.2

instance (type : ObjectType) (pos : ℤ) (d : ℤ × BitVec 32) : Decidable (isFieldAt type pos d) :=
  inferInstanceAs (Decidable (_ ∧ _ ∧ _))

/-- Marks the fields of the type in `keep`, unless a field is none of it. -/
def markKnown (type : ObjectType) : List (ℤ × BitVec 32) → List Bool → MemM (Option (List Bool))
  | [], keep => return some keep
  | d :: dp, keep => do
    let pos := d.1 - type.lower
    if isFieldAt type pos d then
      let keep ← store keep pos.toNat fun _ => true
      markKnown type dp keep
    else return none

/-- A descriptor of the type that all fields belong to. -/
def shareFields (n : ℕ) (enter : Bool) (fields : List (ℤ × BitVec 32)) :
    MemM (List DescrEntry × ℕ) :=
  match fields.head?.bind fun first => ocsCullDescrStaticContaining ns first.1 with
  | none => throw (.code .format)
  | some (type, _) => do
    match ← markKnown type fields (List.replicate type.fields.length false) with
    | none => throw (.code .format)
    | some keep =>
      match ocsCullDescrBuild type.entries keep with
      | none => throw (.code .noMem)
      | some shared =>
        if enter then enterTable shared
        return (shared, n)

/-- The end mark is behind the `n` fields. -/
def unpackByField (n : ℕ) (enter : Bool) : MemM (List DescrEntry × ℕ) := do
  if maxDescrSize - 1 < n then throw (.code .noMem)
  else
    let fields ← List.take n <$> unpackFields n 0 (List.replicate n (0, 0) ++ [(-1, 0)])
    let wireReduced := fields.any fun d => d.2 &&& cullIsReduced ≠ 0
    if enter ∨ wireReduced then shareFields ns n enter fields
    else
      match ocsCullUnpackPrefixType ns fields with
      | .ok (some type) => return (type.entries, n)
      | .ok none => shareFields ns n enter fields
      | .error e => throw (.code e)

def cullUnpackDescr : MemM (List DescrEntry × ℕ) := do
  let n ← unpackint
  if n = cullPackDescrTypeRef then unpackTypeRef ns
  else if n = cullPackDescrTableRef then unpackTableRef
  else if n = cullPackDescrTableDef then
    let kind ← unpackint
    if kind = cullPackDescrByIndex then unpackByIndex ns
    else if kind = cullPackDescrByField then
      let n ← unpackint
      unpackByField ns n true
    else throw (.code .format)
  else unpackByField ns n false

/-! ## Values, elements and lists -/

/-- Reads a value of a data type. -/
abbrev Unpacker := Option CullType → MemM Received

/-- Each value goes directly into its slot. -/
def unpackValues (switch : Unpacker) : List PresentField → List Received → MemM (List Received)
  | [], cp => return cp
  | f :: fs, cp => do
    let cp ← storing cp f.slot (switch (mtType f.mt))
    unpackValues switch fs cp

/-- One slot more than the fields have is allocated. -/
def cullUnpackCont (switch : Unpacker) (dp : List DescrEntry) (wireN : ℕ) :
    MemM (List Received) := do
  let present := presentFields dp
  if present.length < wireN then throw (.code .format)
  else
    let cp ← unpackValues switch (present.take wireN)
      (present.map (fun f => unreadValue f.mt) ++ [.ref none])
    return cp.take present.length

def ocsCullUnpackElem (switch : Unpacker) (dp : Option (List DescrEntry)) (wireN : ℕ) :
    MemM (List DescrEntry × List Received) := do
  let wire ← unpackint
  match elemKindFromWire wire, dp with
  | none, _ => throw (.code .format)
  | some .free, _ =>
    let (descr, n) ← cullUnpackDescr ns
    let cont ← cullUnpackCont switch descr n
    return (descr, cont)
  | some _, none => throw (.code .badArg)
  | some _, some descr =>
    let cont ← cullUnpackCont switch descr wireN
    return (descr, cont)

/-- As long as a number other than zero comes, an element follows. -/
def unpackElems (switch : Unpacker) (descr : List DescrEntry) (wireN : ℕ) :
    ℕ → MemM (List (List Received))
  | 0 => throw .endless
  | fuel + 1 => do
    let hasMoreElements ← unpackint
    if hasMoreElements ≠ 0 then
      let ep ← ocsCullUnpackElem ns switch (some descr) wireN
      let elems ← unpackElems switch descr wireN fuel
      return ep.2 :: elems
    else return []

def cullUnpackListPartial (switch : Unpacker) (fuel : ℕ) : MemM (CullItem (List DescrEntry)) := do
  let i ← unpackint
  if i = 0 then return .nullList
  else
    let listname ← unpackstr
    let (descr, wireN) ← cullUnpackDescr ns
    let elems ← unpackElems ns switch descr wireN fuel
    return .list listname descr elems

def cullUnpackObject (switch : Unpacker) : MemM Received := do
  let i ← unpackint
  if i = 0 then return .nullObject
  else
    let (descr, wireN) ← cullUnpackDescr ns
    let ep ← ocsCullUnpackElem ns switch (some descr) wireN
    return .object ep.1 ep.2

def cullUnpackSwitch : ℕ → Unpacker
  | 0 => fun _ => throw .endless
  | fuel + 1 => fun type =>
    match type with
    | some .bool => do return .bool (decide ((← unpackint) ≠ 0))
    | some .ulong => do return .ulong (BitVec.ofNat 32 (← unpackint))
    | some .ulong64 => do return .ulong64 (← unpackint64)
    | some .string => do return .string (← unpackstr)
    | some .host => do return .host (← unpackstr)
    | some .list => do return (← cullUnpackListPartial ns (cullUnpackSwitch fuel) fuel).asValue
    | some .object => cullUnpackObject ns (cullUnpackSwitch fuel)
    | some .double => do return .double (← unpackdouble)
    | some .ref => return .ref none
    | some .int | some .long | none => throw (.code .format)

/-! ## What a caller gets -/

end

/-- The call does not come back, or it returns a code and what the pointer of the caller is
then. -/
inductive Call (α : Type) where
  | fault
  | returns (ret : Option PackError) (pointer : Option α)

/-- The pointer is set to nullptr first, and to what was read last. -/
def callWith {α : Type} (body : MemM (Option α)) (pb : SgePackBuffer) : Call α :=
  match body.run pb with
  | .ok (read, _) => .returns none read
  | .error (.code e) => .returns (some e) none
  | .error _ => .fault

end ClusterScheduler.Cull.InMemory
