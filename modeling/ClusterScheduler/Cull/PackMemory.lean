import ClusterScheduler.Cull.PackBuffer
import ClusterScheduler.Foundation.CheckedMemory

/-!
# Packing in memory

A buffer is a block of memory that grows, with a position behind the last byte written.
What each function appends is said in `PackBuffer`, without memory.

* `Block`, `realloc`, `memcpy` — the memory, and what is done with it.
* `packint`, `packint64`, `packdouble`, `packstr`, `packbuf` — a check of the bytes left,
  each with its own rule how the block grows, then the copy.
* `initPackbuffer` — a block with the header in it.
* `Kept` — the position is behind the bytes used, and these are the bytes packed so far.
* `PackCall.Fits` — the room `packbuf` makes is enough.
* `packAll_iff` — exactly in these runs no byte is copied to outside of the block.

Whether memory is granted is part of a call.
-/

namespace ClusterScheduler.Cull.Writing

open Foundation

/-! ## Memory -/

/-- Allocated memory. What was not written yet can be anything. -/
structure Block where
  size : ℕ
  bytes : ℕ → Byte

/-- `curPtr` counts from `headPtr`. A null pointer is a block without bytes. -/
structure SgePackBuffer where
  headPtr : Block
  curPtr : ℕ
  memSize : ℕ
  bytesUsed : ℕ
  justCount : Bool

abbrev PackM := CheckedM SgePackBuffer PackError

def ptrdiffMax : ℕ := 2 ^ 63 - 1

def chunk : ℕ := 1024 * 1024

def intSize : ℕ := 4

def add64 (a b : ℕ) : ℕ := (a + b) % 2 ^ 64

def add32 (a b : ℕ) : ℕ := (a + b) % 2 ^ 32

def Block.write (block : Block) (pos : ℕ) (bs : List Byte) : Block :=
  { block with
    bytes := fun i => if pos ≤ i then (bs[i - pos]?).getD (block.bytes i) else block.bytes i }

/-- The new size is stored, the block is moved, and the position with it. -/
def realloc (granted : Bool) (size : ℕ) : PackM Unit := do
  let pb ← get
  if granted ∧ size ≤ ptrdiffMax then
    set { pb with
      headPtr := { pb.headPtr with size := size }, memSize := size, curPtr := pb.bytesUsed }
  else throw (.code .noMem)

/-- Copy to the position and go behind the copy. -/
def memcpy (bs : List Byte) : PackM Unit := do
  let pb ← get
  if pb.headPtr.size < pb.curPtr + bs.length then throw .outside
  else set { pb with
    headPtr := pb.headPtr.write pb.curPtr bs, curPtr := pb.curPtr + bs.length }

/-! ## How the block grows -/

def growByChunk (granted : Bool) (n : ℕ) : PackM Unit := do
  let pb ← get
  if pb.memSize < add64 pb.bytesUsed n then realloc granted (add64 pb.memSize chunk)
  else return ()

/-- The loop of `packstr`: chunk by chunk up to `needed`. A loop with more rounds has come
back to a size it had. -/
def sizeLoop (needed : ℕ) : ℕ → ℕ → PackM ℕ
  | 0, _ => throw .endless
  | fuel + 1, size =>
    if size < needed then sizeLoop needed fuel (add64 size chunk) else return size

/-- By as many chunks as a string needs. -/
def growForString (granted : Bool) (n : ℕ) : PackM Unit := do
  let pb ← get
  if pb.memSize < add64 pb.bytesUsed n then do
    let size ← sizeLoop (add64 pb.bytesUsed n) (2 ^ 44 + 1) pb.memSize
    realloc granted size
  else return ()

/-- What `packbuf` asks, in 32 bits. -/
def asksForRoom (pb : SgePackBuffer) (bufSize : ℕ) : Prop :=
  pb.memSize % 2 ^ 32 < add32 bufSize (pb.bytesUsed % 2 ^ 32)

instance (pb : SgePackBuffer) (bufSize : ℕ) : Decidable (asksForRoom pb bufSize) :=
  inferInstanceAs (Decidable (_ < _))

def growForBlock (granted : Bool) (bufSize : ℕ) : PackM Unit := do
  let pb ← get
  if asksForRoom pb bufSize then realloc granted (add64 pb.memSize chunk) else return ()

/-! ## Functions of the source -/

/-- Write bytes, unless the buffer only counts. -/
def write (grow : PackM Unit) (bs : List Byte) : PackM Unit := do
  let pb ← get
  if pb.justCount then return ()
  else do
    grow
    memcpy bs

def count (n : ℕ) : PackM Unit := modify fun pb => { pb with bytesUsed := add64 pb.bytesUsed n }

def append (grow : PackM Unit) (bs : List Byte) : PackM Unit := do
  write grow bs
  count bs.length

def packint (granted : Bool) (i : ℕ) : PackM Unit :=
  append (growByChunk granted intSize) (Cull.packint i)

def packint64 (granted : Bool) (i : BitVec 64) : PackM Unit :=
  append (growByChunk granted (intSize * 2)) (Cull.packint64 i)

def packdouble (granted : Bool) (bits : BitVec 64) : PackM Unit :=
  append (growByChunk granted 8) (Cull.packdouble bits)

def packstr (granted : Bool) : Option CString → PackM Unit
  | none => append (growByChunk granted 1) (Cull.packstr none)
  | some s => append (growForString granted (s.val.length + 1)) (Cull.packstr (some s))

def packbuf (granted : Bool) (buf : List Byte) : PackM Unit :=
  append (growForBlock granted buf.length) buf

def cullVersion : ℕ := 0x10023000

/-- What a buffer begins with. -/
def packHeader (granted : Bool) (authInfo : Option CString) : PackM Unit := do
  packint granted 0
  packint granted cullVersion
  packstr granted authInfo

def firstSize (initialSize : ℕ) (authInfo : Option CString) : ℕ :=
  let size := if initialSize = 0 then chunk else add64 initialSize (2 * intSize)
  match authInfo with
  | some s => add64 size (s.val.length + 1)
  | none => add64 size 1

/-- `authInfo` is what was found, or none where none is asked for. In the source the codes
of the header are not looked at; with memory granted they are all good. -/
def initPackbuffer (granted : Bool) (uninitialized : ℕ → Byte) (initialSize : ℕ)
    (justCount : Bool) (authInfo : Option CString) : Except (Stop PackError) SgePackBuffer :=
  if justCount then .ok ⟨⟨0, uninitialized⟩, 0, 0, 0, true⟩
  else
    let size := firstSize initialSize authInfo
    if granted ∧ size ≠ 0 ∧ size ≤ ptrdiffMax then
      ((packHeader granted authInfo).run ⟨⟨size, uninitialized⟩, 0, size, 0, false⟩).map Prod.snd
    else .error (.code .noMem)

/-! ## Calls -/

inductive PackCall where
  | packint (i : ℕ)
  | packint64 (i : BitVec 64)
  | packdouble (bits : BitVec 64)
  | packstr (s : Option CString)
  | packbuf (buf : List Byte)

/-- The call is made, with memory if it needs some or without. -/
def PackCall.run (granted : Bool) : PackCall → PackM Unit
  | .packint i => Writing.packint granted i
  | .packint64 i => Writing.packint64 granted i
  | .packdouble bits => Writing.packdouble granted bits
  | .packstr s => Writing.packstr granted s
  | .packbuf buf => Writing.packbuf granted buf

/-- What the argument is encoded as. -/
def PackCall.bytes : PackCall → List Byte
  | .packint i => Cull.packint i
  | .packint64 i => Cull.packint64 i
  | .packdouble bits => Cull.packdouble bits
  | .packstr s => Cull.packstr s
  | .packbuf buf => buf

/-- The argument lies in memory beside the block, and the size of a block is a number of
32 bits. -/
def PackCall.InMemory : PackCall → Prop
  | .packstr (some s) => s.val.length + 1 + chunk ≤ ptrdiffMax
  | .packbuf buf => buf.length < 2 ^ 32
  | _ => True

/-- The calls one after the other, up to the first that reports an error. -/
def packAll : List (PackCall × Bool) → PackM Unit
  | [] => return ()
  | (call, granted) :: calls => do
    call.run granted
    packAll calls

/-! ## The bytes in the block -/

/-- The block holds what was written, and the position is behind it. -/
structure Holds (pb : SgePackBuffer) (written : List Byte) : Prop where
  writes : pb.justCount = false
  cur : pb.curPtr = pb.bytesUsed
  used : pb.bytesUsed = written.length
  size : pb.headPtr.size = pb.memSize
  room : pb.bytesUsed ≤ pb.memSize
  max : pb.memSize ≤ ptrdiffMax
  bytes : ∀ i, i < written.length → some (pb.headPtr.bytes i) = written[i]?

/-- A buffer that only counts has the number of bytes, the others have the bytes. -/
def Kept (pb : SgePackBuffer) (written : List Byte) : Prop :=
  Holds pb written ∨ pb.justCount = true ∧ pb.bytesUsed = written.length % 2 ^ 64

variable {pb pb' : SgePackBuffer} {written bs : List Byte} {granted : Bool} {size n : ℕ}
  {grow : PackM Unit}

def SgePackBuffer.grown (pb : SgePackBuffer) (size : ℕ) : SgePackBuffer :=
  { pb with headPtr := { pb.headPtr with size := size }, memSize := size, curPtr := pb.bytesUsed }

def SgePackBuffer.appended (pb : SgePackBuffer) (bs : List Byte) : SgePackBuffer :=
  { pb with
    headPtr := pb.headPtr.write pb.curPtr bs
    curPtr := pb.curPtr + bs.length
    bytesUsed := add64 pb.bytesUsed bs.length }

theorem add64_eq {a b : ℕ} (h : a + b < 2 ^ 64) : add64 a b = a + b := Nat.mod_eq_of_lt h

theorem Holds.grown (h : Holds pb written) (hroom : pb.bytesUsed ≤ size)
    (hmax : size ≤ ptrdiffMax) : Holds (pb.grown size) written where
  writes := h.writes
  cur := rfl
  used := h.used
  size := rfl
  room := hroom
  max := hmax
  bytes := h.bytes

theorem Holds.appended (h : Holds pb written) (hroom : pb.bytesUsed + bs.length ≤ pb.memSize) :
    Holds (pb.appended bs) (written ++ bs) := by
  have hmax := h.max
  have hused := h.used
  simp only [ptrdiffMax] at hmax
  have hadd : add64 pb.bytesUsed bs.length = pb.bytesUsed + bs.length := add64_eq (by omega)
  refine ⟨h.writes, ?_, ?_, h.size, ?_, h.max, fun i hi => ?_⟩
  · exact (congrArg (· + bs.length) h.cur).trans hadd.symm
  · exact hadd.trans (by rw [List.length_append, hused])
  · exact hadd.trans_le hroom
  · -- the copy is behind what was written before
    simp only [SgePackBuffer.appended, Block.write, h.cur, hused]
    split
    · next hge =>
      rw [List.length_append] at hi
      have hlt : i - written.length < bs.length := by omega
      rw [List.getElem?_append_right hge, List.getElem?_eq_getElem hlt, Option.getD_some]
    · next hlt =>
      rw [not_le] at hlt
      rw [List.getElem?_append_left hlt]
      exact h.bytes i hlt

theorem run_memcpy :
    (memcpy bs).run pb = if pb.headPtr.size < pb.curPtr + bs.length then .error .outside
      else .ok ((), { pb with
        headPtr := pb.headPtr.write pb.curPtr bs, curPtr := pb.curPtr + bs.length }) := by
  show (if pb.headPtr.size < pb.curPtr + bs.length then _ else _ : PackM Unit).run pb = _
  split <;> rfl

theorem run_write (hj : pb.justCount = false) :
    (write grow bs).run pb = (grow >>= fun _ => memcpy bs).run pb := by
  show (if pb.justCount = true then _ else _ : PackM Unit).run pb = _
  rw [hj]
  rfl

theorem run_append (hj : pb.justCount = false) (hgrow : grow.run pb = .ok ((), pb')) :
    (append grow bs).run pb =
      if pb'.headPtr.size < pb'.curPtr + bs.length then .error .outside
      else .ok ((), pb'.appended bs) := by
  have hwrite : (write grow bs).run pb = (memcpy bs).run pb' :=
    (run_write hj).trans (run_bind_of_ok hgrow)
  rw [run_memcpy] at hwrite
  split at hwrite
  · next hout =>
    rw [if_pos hout, append]
    exact run_bind_of_error hwrite
  · next hin =>
    rw [if_neg hin, append, run_bind_of_ok hwrite]
    rfl

theorem run_append_error {stop : Stop PackError} (hj : pb.justCount = false)
    (hgrow : grow.run pb = .error stop) : (append grow bs).run pb = .error stop := by
  rw [append]
  apply run_bind_of_error
  rw [run_write hj]
  exact run_bind_of_error hgrow

theorem run_append_counting (hj : pb.justCount = true) :
    (append grow bs).run pb =
      .ok ((), { pb with bytesUsed := add64 pb.bytesUsed bs.length }) := by
  have hwrite : (write grow bs).run pb = .ok ((), pb) := by
    show (if pb.justCount = true then _ else _ : PackM Unit).run pb = _
    rw [hj]
    rfl
  rw [append, run_bind_of_ok hwrite]
  rfl

/-! ## One call -/

/-- Where the growth makes room, the bytes are appended. -/
theorem safe_append (h : Holds pb written) (hgrow : Safe grow pb (fun _ pb' => Holds pb' written ∧
      pb'.bytesUsed + bs.length ≤ pb'.memSize) (· = .noMem)) :
    Safe (append grow bs) pb (fun _ pb' => Kept pb' (written ++ bs)) (· = .noMem) := by
  rcases safe_iff.mp hgrow with ⟨u, pb', hrun, hpb', hroom⟩ | ⟨e, hrun, rfl⟩
  · apply safe_iff.mpr
    refine .inl ⟨(), pb'.appended bs, ?_, .inl (hpb'.appended hroom)⟩
    rw [run_append h.writes hrun, hpb'.size, hpb'.cur, if_neg (Nat.not_lt.mpr hroom)]
  · exact safe_iff.mpr (.inr ⟨_, run_append_error h.writes hrun, rfl⟩)

/-- Where it does not, a byte would be copied to outside. -/
theorem append_outside (h : Holds pb written) (hrun : grow.run pb = .ok ((), pb'))
    (hpb' : Holds pb' written) (hroom : pb'.memSize < pb'.bytesUsed + bs.length) :
    (append grow bs).run pb = .error .outside := by
  rw [run_append h.writes hrun, hpb'.size, hpb'.cur, if_pos hroom]

theorem kept_append_counting (hj : pb.justCount = true)
    (hused : pb.bytesUsed = written.length % 2 ^ 64) :
    Safe (append grow bs) pb (fun _ pb' => Kept pb' (written ++ bs)) (· = .noMem) := by
  apply safe_iff.mpr
  refine .inl ⟨(), _, run_append_counting hj, .inr ⟨hj, ?_⟩⟩
  show add64 pb.bytesUsed bs.length = (written ++ bs).length % 2 ^ 64
  rw [hused, add64, List.length_append, Nat.mod_add_mod]

/-- A block that is granted makes room, else there is no memory. -/
theorem safe_realloc (h : Holds pb written) (hroom : pb.bytesUsed + n ≤ size) :
    Safe (realloc granted size) pb (fun _ pb' => Holds pb' written ∧
      pb'.bytesUsed + n ≤ pb'.memSize) (· = .noMem) := by
  apply Safe.get_bind
  split
  · next hgranted =>
    exact ⟨h.grown (by omega) hgranted.2, hroom⟩
  · exact Safe.code rfl

/-- The rule of one chunk is enough for an argument smaller than a chunk. -/
theorem safe_growByChunk (h : Holds pb written) (hn : n ≤ chunk) :
    Safe (growByChunk granted n) pb (fun _ pb' => Holds pb' written ∧
      pb'.bytesUsed + n ≤ pb'.memSize) (· = .noMem) := by
  have hmax := h.max
  have hroom := h.room
  simp only [ptrdiffMax] at hmax
  simp only [chunk] at hn
  have hused : add64 pb.bytesUsed n = pb.bytesUsed + n := add64_eq (by omega)
  have hsize : add64 pb.memSize chunk = pb.memSize + chunk := add64_eq (by simp only [chunk]; omega)
  apply Safe.get_bind
  rw [hused, hsize]
  split
  · apply safe_realloc h
    simp only [chunk]
    omega
  · next hfits =>
    exact Safe.pure ⟨h, Nat.not_lt.mp hfits⟩

theorem safe_sizeLoop {needed : ℕ} (hneeded : needed + chunk ≤ 2 ^ 64) :
    ∀ fuel size, needed ≤ size + fuel * chunk →
      Safe (sizeLoop needed (fuel + 1) size) pb
        (fun size' pb' => pb' = pb ∧ needed ≤ size') (· = .noMem)
  | fuel, size, hfuel => by
      rw [sizeLoop]
      split
      · next hlt =>
        have hadd : add64 size chunk = size + chunk := add64_eq (by omega)
        cases fuel with
        | zero => omega
        | succ fuel =>
          rw [hadd]
          apply safe_sizeLoop hneeded
          rw [Nat.add_mul, Nat.one_mul] at hfuel
          omega
      · next hge => exact Safe.pure ⟨rfl, Nat.not_lt.mp hge⟩

theorem safe_growForString (h : Holds pb written) (hn : n + chunk ≤ ptrdiffMax) :
    Safe (growForString granted n) pb (fun _ pb' => Holds pb' written ∧
      pb'.bytesUsed + n ≤ pb'.memSize) (· = .noMem) := by
  have hmax := h.max
  have hroom := h.room
  simp only [ptrdiffMax, chunk] at hmax hn
  have hused : add64 pb.bytesUsed n = pb.bytesUsed + n := add64_eq (by omega)
  apply Safe.get_bind
  rw [hused]
  split
  · apply (safe_sizeLoop (by simp only [chunk]; omega) _ _ (by simp only [chunk]; omega)).bind
    rintro size pb' ⟨rfl, hsize⟩
    exact safe_realloc h hsize
  · next hfits =>
    exact Safe.pure ⟨h, Nat.not_lt.mp hfits⟩

/-- The room there is when `packbuf` copies, or no copy. -/
def PackCall.Fits (pb : SgePackBuffer) (granted : Bool) : PackCall → Prop
  | .packbuf buf =>
    pb.justCount = false →
      if asksForRoom pb buf.length then
        granted = true ∧ pb.memSize + chunk ≤ ptrdiffMax →
          buf.length ≤ pb.memSize - pb.bytesUsed + chunk
      else buf.length ≤ pb.memSize - pb.bytesUsed
  | _ => True

/-- The rule of `packbuf`. -/
theorem run_growForBlock (h : Holds pb written) (n : ℕ) :
    (growForBlock granted n).run pb =
      if asksForRoom pb n then
        if granted = true ∧ pb.memSize + chunk ≤ ptrdiffMax then
          .ok ((), pb.grown (pb.memSize + chunk))
        else .error (.code .noMem)
      else .ok ((), pb) := by
  have hmax := h.max
  simp only [ptrdiffMax] at hmax
  have hsize : add64 pb.memSize chunk = pb.memSize + chunk := add64_eq (by simp only [chunk]; omega)
  show (if asksForRoom pb n then _ else _ : PackM Unit).run pb = _
  split
  · rw [hsize]
    show (if _ then _ else _ : PackM Unit).run pb = _
    split <;> rfl
  · rfl

variable {buf : List Byte}

theorem safe_packbuf (h : Holds pb written) (hfits : (PackCall.packbuf buf).Fits pb granted) :
    Safe (packbuf granted buf) pb (fun _ pb' => Kept pb' (written ++ buf)) (· = .noMem) := by
  have hroom := h.room
  have hgrow : (growForBlock granted buf.length).run pb = _ := run_growForBlock h _
  have hfits := hfits h.writes
  apply safe_append h
  apply safe_iff.mpr
  split at hfits
  · next hasks =>
    rw [if_pos hasks] at hgrow
    split at hgrow
    · next hgranted =>
      refine .inl ⟨(), _, hgrow, h.grown (by omega) hgranted.2, ?_⟩
      have := hfits hgranted
      simp only [SgePackBuffer.grown]
      omega
    · exact .inr ⟨_, hgrow, rfl⟩
  · next hasks =>
    rw [if_neg hasks] at hgrow
    exact .inl ⟨(), _, hgrow, h, by omega⟩

theorem packbuf_outside (h : Holds pb written) (hfits : ¬ (PackCall.packbuf buf).Fits pb granted) :
    (packbuf granted buf).run pb = .error .outside := by
  have hroom := h.room
  have hgrow : (growForBlock granted buf.length).run pb = _ := run_growForBlock h _
  simp only [PackCall.Fits, h.writes, forall_const] at hfits
  split at hfits
  · next hasks =>
    rw [Classical.not_imp] at hfits
    obtain ⟨hgranted, hsmall⟩ := hfits
    rw [if_pos hasks, if_pos hgranted] at hgrow
    apply append_outside h hgrow (h.grown (by omega) hgranted.2)
    simp only [SgePackBuffer.grown]
    omega
  · next hasks =>
    rw [if_neg hasks] at hgrow
    exact append_outside h hgrow h (by omega)

variable {call : PackCall}

/-- **One call.** Where it fits, it appends its bytes or reports that there is no memory. -/
theorem safe_call (h : Kept pb written) (hmem : call.InMemory) (hfits : call.Fits pb granted) :
    Safe (call.run granted) pb (fun _ pb' => Kept pb' (written ++ call.bytes)) (· = .noMem) := by
  rcases h with h | ⟨hj, hused⟩
  · cases call with
    | packint i => exact safe_append h (safe_growByChunk h (by decide))
    | packint64 i => exact safe_append h (safe_growByChunk h (by decide))
    | packdouble bits => exact safe_append h (safe_growByChunk h (by decide))
    | packstr s =>
      cases s with
      | none => exact safe_append h (safe_growByChunk h (by decide))
      | some s =>
        have hlen : (Cull.packstr (some s)).length = s.val.length + 1 := by
          simp [Cull.packstr]
        apply safe_append h
        rw [hlen]
        exact safe_growForString h hmem
    | packbuf buf => exact safe_packbuf h hfits
  · cases call with
    | packstr s =>
      cases s <;> exact kept_append_counting hj hused
    | _ => exact kept_append_counting hj hused

theorem call_outside (h : Kept pb written) (hfits : ¬ call.Fits pb granted) :
    (call.run granted).run pb = .error .outside := by
  cases call with
  | packbuf buf =>
    rcases h with h | ⟨hj, -⟩
    · exact packbuf_outside h hfits
    · exact absurd (fun hj' => absurd hj (by simp [hj'])) hfits
  | packint i => exact absurd trivial hfits
  | packint64 i => exact absurd trivial hfits
  | packdouble bits => exact absurd trivial hfits
  | packstr s => exact absurd trivial hfits

/-! ## Runs -/

def encoded (calls : List (PackCall × Bool)) : List Byte := calls.flatMap fun c => c.1.bytes

def AllFit (calls : List (PackCall × Bool)) (pb : SgePackBuffer) : Prop :=
  ∀ pre call granted, pre ++ [(call, granted)] <+: calls →
    ∀ pb', (packAll pre).run pb = .ok ((), pb') → call.Fits pb' granted

/-- No call copies to outside of the block, and after each the bytes packed so far are
kept. -/
def NeverOverruns (calls : List (PackCall × Bool)) (pb : SgePackBuffer) (written : List Byte) :
    Prop :=
  ∀ pre, pre <+: calls →
    Safe (packAll pre) pb (fun _ pb' => Kept pb' (written ++ encoded pre)) (· = .noMem)

theorem packAll_append (calls calls' : List (PackCall × Bool)) :
    packAll (calls ++ calls') = packAll calls >>= fun _ => packAll calls' := by
  induction calls with
  | nil => rfl
  | cons c calls ih =>
    rw [List.cons_append, packAll, packAll, ih, bind_assoc]

theorem packAll_singleton (call : PackCall) (granted : Bool) :
    packAll [(call, granted)] = call.run granted := by
  show (call.run granted >>= fun _ => pure ()) = _
  exact bind_pure _

variable {calls : List (PackCall × Bool)}

theorem safe_packAll (h : Kept pb written)
    (hmem : ∀ c ∈ calls, c.1.InMemory) (hfit : AllFit calls pb) :
    Safe (packAll calls) pb (fun _ pb' => Kept pb' (written ++ encoded calls)) (· = .noMem) := by
  induction calls using List.reverseRecOn with
  | nil => exact Safe.pure (by simpa [encoded] using h)
  | append_singleton calls c ih =>
    have hcalls := ih (fun c hc => hmem c (List.mem_append_left _ hc))
      fun pre call granted hpre => hfit pre call granted (hpre.trans (List.prefix_append _ _))
    rw [packAll_append]
    rcases safe_iff.mp hcalls with ⟨u, pb', hrun, hkept⟩ | ⟨e, hrun, rfl⟩
    · rw [Safe, run_bind_of_ok hrun, packAll_singleton, ← Safe]
      have hcall := safe_call hkept (hmem c (by simp))
        (hfit calls c.1 c.2 (List.prefix_refl _) pb' hrun)
      apply hcall.imp (fun u pb'' hkept' => ?_) fun _ h => h
      simpa [encoded, List.append_assoc] using hkept'
    · rw [Safe, run_bind_of_error hrun]

theorem neverOverruns_iff (h : Kept pb written)
    (hmem : ∀ c ∈ calls, c.1.InMemory) : NeverOverruns calls pb written ↔ AllFit calls pb := by
  constructor
  · intro hsafe pre call granted hpre pb' hrun
    have hkept := hsafe pre ((List.prefix_append _ _).trans hpre)
    rw [Safe, hrun] at hkept
    by_contra hfits
    -- the copy of this call is the first that goes to outside
    have hcall := hsafe _ hpre
    rw [Safe, packAll_append, run_bind_of_ok hrun, packAll_singleton,
      call_outside hkept hfits] at hcall
    exact hcall
  · intro hfit pre hpre
    exact safe_packAll h (fun c hc => hmem c (hpre.subset hc))
      fun pre' call granted hpre' => hfit pre' call granted (hpre'.trans hpre)

/-! ## From the initialization on -/

def header (justCount : Bool) (authInfo : Option CString) : List Byte :=
  if justCount then []
  else Cull.packint 0 ++ Cull.packint cullVersion ++ Cull.packstr authInfo

theorem kept_init {uninitialized : ℕ → Byte} {initialSize : ℕ} {justCount : Bool}
    {authInfo : Option CString} (hauth : (PackCall.packstr authInfo).InMemory)
    (hinit : initPackbuffer granted uninitialized initialSize justCount authInfo = .ok pb) :
    Kept pb (header justCount authInfo) := by
  cases justCount with
  | true =>
    obtain rfl := Except.ok.inj hinit
    exact .inr ⟨rfl, rfl⟩
  | false =>
    simp only [initPackbuffer, Bool.false_eq_true, if_false] at hinit
    split at hinit
    · next hgranted =>
      generalize hnew : (⟨⟨firstSize initialSize authInfo, uninitialized⟩, 0,
        firstSize initialSize authInfo, 0, false⟩ : SgePackBuffer) = new at hinit
      have hholds : Kept new [] := by
        rw [← hnew]
        exact .inl ⟨rfl, rfl, rfl, rfl, Nat.zero_le _, hgranted.2.2, by simp⟩
      have hheader : Safe (packHeader granted authInfo) new
          (fun _ pb' => Kept pb' (header false authInfo)) (· = .noMem) := by
        have hzero : Safe ((PackCall.packint 0).run granted) new _ _ :=
          safe_call hholds trivial trivial
        refine hzero.bind fun _ pb1 h1 => ?_
        have hversion : Safe ((PackCall.packint cullVersion).run granted) pb1 _ _ :=
          safe_call h1 trivial trivial
        refine hversion.bind fun _ pb2 h2 => ?_
        have hinfo : Safe ((PackCall.packstr authInfo).run granted) pb2 _ _ :=
          safe_call h2 hauth trivial
        exact hinfo.imp (fun _ pb3 h3 => h3) fun _ h => h
      rcases safe_iff.mp hheader with ⟨u, pb', hrun, hkept⟩ | ⟨e, hrun, -⟩
      · rw [hrun] at hinit
        rw [← Except.ok.inj hinit]
        exact hkept
      · rw [hrun] at hinit
        exact absurd hinit (by simp [Except.map])
    · exact absurd hinit (by simp)

/-- **No overrun.** On a buffer that was initialized no call copies to outside of the block,
and what is written is what was packed, exactly if every call fits. -/
theorem packAll_iff {uninitialized : ℕ → Byte} {initialSize : ℕ} {justCount : Bool}
    {authInfo : Option CString} {calls : List (PackCall × Bool)}
    (hauth : (PackCall.packstr authInfo).InMemory)
    (hinit : initPackbuffer granted uninitialized initialSize justCount authInfo = .ok pb)
    (hmem : ∀ c ∈ calls, c.1.InMemory) :
    NeverOverruns calls pb (header justCount authInfo) ↔ AllFit calls pb :=
  neverOverruns_iff (kept_init hauth hinit) hmem

theorem init_default : ∃ pb, initPackbuffer true (fun _ => 0) 0 false none = .ok pb ∧
    pb.memSize = chunk + 1 ∧ pb.bytesUsed = 9 ∧ pb.justCount = false :=
  ⟨_, rfl, rfl, rfl, rfl⟩

theorem packAll_iff_numbers : ∃ pb, initPackbuffer true (fun _ => 0) 0 false none = .ok pb ∧
    NeverOverruns [(.packint 7, true), (.packdouble 1, false)] pb (header false none) := by
  obtain ⟨pb, hinit, -⟩ := init_default
  have hnone : (PackCall.packstr none).InMemory := trivial
  refine ⟨pb, hinit, (packAll_iff hnone hinit (by simp [PackCall.InMemory])).mpr ?_⟩
  intro pre call granted hpre pb' hrun
  have hmem := hpre.subset (List.mem_append_right pre (.head _))
  simp only [List.mem_cons, List.not_mem_nil, or_false] at hmem
  rcases hmem with heq | heq <;> (rw [(Prod.mk.inj heq).1]; trivial)

/-- Three chunks in one call: the block grows by one. -/
theorem packbuf_overruns : ¬ ∀ calls : List (PackCall × Bool), (∀ c ∈ calls, c.1.InMemory) →
    ∀ pb, initPackbuffer true (fun _ => 0) 0 false none = .ok pb →
      NeverOverruns calls pb (header false none) := by
  intro h
  obtain ⟨pb, hinit, hsize, hused, hcount⟩ := init_default
  obtain ⟨buf, hlen⟩ : ∃ buf : List Byte, buf.length = 3 * chunk :=
    ⟨List.replicate (3 * chunk) 0, List.length_replicate⟩
  have hsafe := h [(.packbuf buf, true)]
    (List.forall_mem_singleton.mpr (by rw [PackCall.InMemory, hlen]; decide)) pb hinit _
    (List.prefix_refl _)
  have hasks : asksForRoom pb (3 * chunk) := by
    rw [asksForRoom, hsize, hused]
    decide
  have hfits : ¬ (PackCall.packbuf buf).Fits pb true := by
    intro hfits
    have hroom := hfits hcount
    rw [hlen, if_pos hasks, hsize, hused] at hroom
    have hsmall := hroom (by decide)
    simp only [chunk] at hsmall
    omega
  have hnone : (PackCall.packstr none).InMemory := trivial
  rw [Safe, packAll_singleton, call_outside (kept_init hnone hinit) hfits] at hsafe
  exact hsafe

end ClusterScheduler.Cull.Writing
