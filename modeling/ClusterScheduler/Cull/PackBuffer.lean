import ClusterScheduler.Foundation.WireFormat

/-!
# Pack buffers

What is packed is a stream of numbers in network byte order and of strings that end with a
NUL byte.

* `PackError` — the error codes of packing and unpacking.
* `packint`, `packint64`, `packdouble`, `packstr` — the bytes appended.
* `unpackint`, `unpackint64`, `unpackdouble`, `unpackstr` — taken from the front. An empty
  string is one NUL byte like no string at all, and is read as none.
-/

namespace ClusterScheduler.Cull

open Foundation

inductive PackError where
  | noMem
  | format
  | badArg
  deriving DecidableEq, Repr

/-- A string of C, without the NUL byte that ends it. -/
abbrev CString := { s : List Byte // 0 ∉ s }

def unsetEmpty (s : Option CString) : Option CString := s.filter fun s => s.val ≠ []

/-! ## Packing -/

def packint (i : ℕ) : List Byte := beBytes 4 i

def packint64 (i : BitVec 64) : List Byte := beBytes 8 i.toNat

def packdouble (bits : BitVec 64) : List Byte := beBytes 8 bits.toNat

def packstr : Option CString → List Byte
  | none => [0]
  | some s => s.val ++ [0]

/-! ## Unpacking -/

section

variable {τ : Type}

def unpackint : ReadM Byte τ PackError ℕ := takeBe .format 4

def unpackint64 : ReadM Byte τ PackError (BitVec 64) := do
  let i ← takeBe .format 8
  return BitVec.ofNat 64 i

def unpackdouble : ReadM Byte τ PackError (BitVec 64) := do
  let storage ← takeBe .format 8
  return BitVec.ofNat 64 storage

theorem zero_notMem_takeWhile (bs : List Byte) : 0 ∉ bs.takeWhile (· ≠ 0) := fun h => by
  simpa using List.mem_takeWhile_imp h

/-- Without a NUL byte in the rest of the buffer nothing is read. -/
def unpackstr : ReadM Byte τ PackError (Option CString) := do
  let b ← get
  if 0 ∈ b.1 then
    let s : CString := ⟨b.1.takeWhile (· ≠ 0), zero_notMem_takeWhile b.1⟩
    set (b.1.drop (s.val.length + 1), b.2)
    return unsetEmpty (some s)
  else throw .format

/-! ## What is packed is read -/

variable {t : τ}

theorem reads_unpackint {i : ℕ} (h : i < 2 ^ 32) : Reads unpackint (packint i) t i t :=
  reads_takeBe (by omega)

theorem reads_unpackint64 (i : BitVec 64) : Reads unpackint64 (packint64 i) t i t := by
  refine (reads_takeBe (by have := i.isLt; omega)).bind_nil ?_
  rw [BitVec.ofNat_toNat, BitVec.setWidth_eq]
  exact reads_pure

theorem takeWhile_packed (s : CString) (rest : List Byte) :
    (s.val ++ 0 :: rest).takeWhile (· ≠ 0) = s.val := by
  rw [List.takeWhile_append_of_pos]
  · simp
  · intro b hb
    exact decide_eq_true fun h => s.property (h ▸ hb)

theorem reads_unpackstr_some (s : CString) :
    Reads unpackstr (s.val ++ [0]) t (unsetEmpty (some s)) t := by
  refine Reads.get_bind fun rest => ?_
  have htext : (⟨(s.val ++ [0] ++ rest).takeWhile (· ≠ 0), zero_notMem_takeWhile _⟩ : CString) =
      s := Subtype.ext (by rw [List.append_assoc]; exact takeWhile_packed s rest)
  have hdrop : (s.val ++ [0] ++ rest).drop (s.val.length + 1) = rest :=
    List.drop_left' (by rw [List.length_append, List.length_singleton])
  rw [if_pos (by simp)]
  refine run_bind_eq_ok.mpr ⟨(), (rest, t), ?_, ?_⟩
  · rw [htext, hdrop]
    rfl
  · rw [htext]
    rfl

theorem reads_unpackstr (s : Option CString) : Reads unpackstr (packstr s) t (unsetEmpty s) t := by
  cases s with
  | none => exact reads_unpackstr_some ⟨[], List.not_mem_nil⟩
  | some s => exact reads_unpackstr_some s

end

end ClusterScheduler.Cull
