import ClusterScheduler.Cull.UnpackMemory
import ClusterScheduler.Cull.OlderReleases

/-!
# Unpacking in memory reads what the bytes say

The readers on a buffer in memory do what the readers of `PackLists` do on the bytes behind the
position. On the way they touch no byte outside of the buffer and no slot outside of an array.

* `SgePackBuffer.Sound` — the position is in the buffer, and the table holds descriptors.
* `ReadsAs` — a reader in memory and one without, and how many bytes a success takes at least.
* `readsAs_cullUnpackDescr`, `readsAs_cullUnpackCont` — arrays are filled within their bounds.
* `readsAs_cullUnpackSwitch` — more fuel than bytes are left is enough.
-/

namespace ClusterScheduler.Cull.InMemory

open Foundation

/-! ## Sound buffers -/

def SgePackBuffer.rest (pb : SgePackBuffer) : List Byte := pb.headPtr.drop pb.curPtr

def SgePackBuffer.table (pb : SgePackBuffer) : List (List DescrEntry) := pb.dtab.getD []

def SgePackBuffer.view (pb : SgePackBuffer) : List Byte × List (List DescrEntry) :=
  (pb.rest, pb.table)

structure SgePackBuffer.Sound (pb : SgePackBuffer) : Prop where
  memSize : pb.memSize = pb.headPtr.length
  curPtr : pb.curPtr = pb.bytesUsed
  within : pb.bytesUsed ≤ pb.memSize
  table : ∀ dp ∈ pb.table, InOrder dp

section

variable {pb : SgePackBuffer}

theorem SgePackBuffer.Sound.length_rest (h : pb.Sound) :
    pb.rest.length = pb.memSize - pb.bytesUsed := by
  rw [SgePackBuffer.rest, List.length_drop, h.memSize, h.curPtr]

theorem SgePackBuffer.Sound.forward (h : pb.Sound) {size : ℕ} (hsize : size ≤ pb.rest.length) :
    (pb.forward size).Sound where
  memSize := h.memSize
  curPtr := congrArg (· + size) h.curPtr
  within := by
    have hle := h.within
    have hlen := h.length_rest
    change pb.bytesUsed + size ≤ pb.memSize
    omega
  table := h.table

/-- A buffer of these bytes that was read up to the position. No descriptor is shared so far. -/
def SgePackBuffer.ofBytes (bytes : List Byte) (position : ℕ) : SgePackBuffer where
  headPtr := bytes
  curPtr := position
  memSize := bytes.length
  bytesUsed := position
  dtab := none

theorem SgePackBuffer.sound_ofBytes {bytes : List Byte} {position : ℕ}
    (h : position ≤ bytes.length) : (ofBytes bytes position).Sound where
  memSize := rfl
  curPtr := rfl
  within := h
  table := List.forall_mem_nil _

theorem rest_forward (pb : SgePackBuffer) (size : ℕ) :
    (pb.forward size).rest = pb.rest.drop size := by
  rw [SgePackBuffer.rest, SgePackBuffer.rest, List.drop_drop]
  rfl

theorem view_forward (pb : SgePackBuffer) (size : ℕ) :
    (pb.forward size).view = (pb.rest.drop size, pb.table) :=
  congrArg (·, pb.table) (rest_forward pb size)

end

/-! ## Readers in step -/

section

variable {α β : Type}

/-- On a sound buffer with at most `L` bytes left the reader in memory reads what `p` reads. A
success takes `d` bytes at least, and `Q` holds of what was read. -/
def ReadsAs (L d : ℕ) (Q : α → Prop) (m : MemM α) (p : UnpackM α) : Prop :=
  ∀ pb : SgePackBuffer, pb.Sound → pb.rest.length ≤ L →
    Follows SgePackBuffer.view m p pb fun a pb' =>
      pb'.Sound ∧ pb'.rest.length + d ≤ pb.rest.length ∧ Q a

variable {L d c : ℕ} {Q : α → Prop} {R : β → Prop} {m : MemM α} {p : UnpackM α}
  {f : α → MemM β} {g : α → UnpackM β} {a : α} {e : PackError}

theorem ReadsAs.pure (h : Q a) : ReadsAs L 0 Q (pure a) (pure a) :=
  fun _ hpb _ => Follows.pure ⟨hpb, le_rfl, h⟩

theorem ReadsAs.code : ReadsAs L d Q (throw (.code e)) (throw e) := fun _ _ _ => Follows.code

theorem ReadsAs.bind (h : ReadsAs L d Q m p)
    (hf : ∀ a, Q a → d ≤ L → ReadsAs (L - d) c R (f a) (g a)) :
    ReadsAs L (d + c) R (m >>= f) (p >>= g) := by
  intro pb hpb hL
  refine (h pb hpb hL).bind fun a pb' ⟨hpb', hlen, hQ⟩ => ?_
  refine (hf a hQ (by omega) pb' hpb' (by omega)).imp fun b pb'' ⟨hpb'', hlen', hR⟩ => ?_
  exact ⟨hpb'', by omega, hR⟩

theorem ReadsAs.imp {Q₀ : α → Prop} (h : ReadsAs L d Q₀ m p) (hd : c ≤ d)
    (hQ : ∀ a, Q₀ a → Q a) : ReadsAs L c Q m p := fun pb hpb hL =>
  (h pb hpb hL).imp fun a _ ⟨hpb', hlen, ha⟩ => ⟨hpb', by omega, hQ a ha⟩

theorem ReadsAs.le {L' : ℕ} (h : ReadsAs L' d Q m p) (hL : L ≤ L') : ReadsAs L d Q m p :=
  fun pb hpb hle => h pb hpb (hle.trans hL)

theorem ReadsAs.map (h : ReadsAs L d Q m p) (hf : ∀ a, Q a → d ≤ L →
    ReadsAs (L - d) 0 R (f a) (g a)) : ReadsAs L d R (m >>= f) (p >>= g) := h.bind hf

/-- The reader without memory reads the parts of what is built in memory. -/
theorem ReadsAs.bind_map {γ : Type} {p : UnpackM γ} {k : γ → α} (h : ReadsAs L d Q m (k <$> p))
    (hf : ∀ a, Q a → d ≤ L → ReadsAs (L - d) c R (f a) (g a)) :
    ReadsAs L (d + c) R (m >>= f) (p >>= fun x => g (k x)) := by
  rw [← bind_map_left k p g]
  exact h.bind hf

end

/-! ## Numbers and strings -/

section

variable {L : ℕ}

variable {size : ℕ} {b : List Byte × List (List DescrEntry)}

theorem run_takeBe_short
    (h : b.1.length < size) : (takeBe PackError.format size).run b = .error .format := by
  have htake : (takeBytes PackError.format size).run b = .error .format := by
    change (ite (b.1.length < size) (throw .format) _ : UnpackM (List Byte)).run b = _
    rw [if_pos h]
    rfl
  rw [takeBe, StateT.run_bind, htake]
  rfl

theorem run_takeBe (h : size ≤ b.1.length) :
    (takeBe PackError.format size).run b = .ok (ofBeBytes (b.1.take size), b.1.drop size, b.2) := by
  have htake : (takeBytes PackError.format size).run b =
      .ok (b.1.take size, b.1.drop size, b.2) := by
    change (ite (b.1.length < size) (throw .format) _ : UnpackM (List Byte)).run b = _
    rw [if_neg (by omega)]
    rfl
  rw [takeBe, StateT.run_bind, htake]
  rfl

variable {pb : SgePackBuffer}

theorem run_memcpy (hpb : pb.Sound)
    (h : size ≤ pb.rest.length) : (memcpy size).run pb = .ok (pb.rest.take size, pb) := by
  have hlen := hpb.length_rest
  have hwithin := hpb.within
  have hinside : ¬ pb.headPtr.length < pb.curPtr + size := by
    rw [← hpb.memSize, hpb.curPtr]
    omega
  change (ite (pb.headPtr.length < pb.curPtr + size) (throw .outside) _ :
    MemM (List Byte)).run pb = _
  rw [if_neg hinside]
  rfl

theorem readsAs_unpackNumber (size : ℕ) :
    ReadsAs L size (fun _ => True) (unpackNumber size) (takeBe .format size) := by
  intro pb hpb _
  have hlen := hpb.length_rest
  have hwithin := hpb.within
  apply Safe.get_bind
  by_cases hshort : pb.rest.length < size
  · rw [if_pos (by omega)]
    apply Safe.code
    exact run_takeBe_short hshort
  · rw [if_neg (by omega)]
    have hrun : (do let bs ← memcpy size; advance size; return ofBeBytes bs : MemM ℕ).run pb =
        .ok (ofBeBytes (pb.rest.take size), pb.forward size) := by
      rw [run_bind_of_ok (run_memcpy hpb (not_lt.mp hshort))]
      rfl
    rw [Safe, hrun]
    refine ⟨?_, hpb.forward (not_lt.mp hshort), ?_, trivial⟩
    · rw [view_forward]
      exact run_takeBe (not_lt.mp hshort)
    · rw [rest_forward, List.length_drop]
      omega

theorem readsAs_unpackint : ReadsAs L 4 (fun _ => True) unpackint Cull.unpackint :=
  readsAs_unpackNumber 4

theorem readsAs_unpackint64 : ReadsAs L 8 (fun _ => True) unpackint64 Cull.unpackint64 :=
  (readsAs_unpackNumber 8).map fun _ _ _ => ReadsAs.pure trivial

/-- The search for the end of a string stays within the bytes that are left. -/
theorem run_memchr (hpb : pb.Sound) :
    (memchr (pb.memSize - pb.bytesUsed)).run pb =
      .ok (if 0 ∈ pb.rest then some (pb.rest.takeWhile (· ≠ 0)).length else none, pb) := by
  have hlen := hpb.length_rest
  have hinside : ¬ pb.headPtr.length < pb.curPtr + (pb.memSize - pb.bytesUsed) := by
    have hwithin := hpb.within
    rw [← hpb.memSize, hpb.curPtr]
    omega
  have hall : (pb.headPtr.drop pb.curPtr).take (pb.memSize - pb.bytesUsed) = pb.rest := by
    rw [← hlen]
    exact List.take_length
  change (ite (0 ∈ (pb.headPtr.drop pb.curPtr).take (pb.memSize - pb.bytesUsed)) _
    (ite _ (throw .outside) _) : MemM (Option ℕ)).run pb = _
  rw [hall, if_neg hinside]
  split <;> rfl

theorem run_strdup (h : 0 ∈ pb.rest) : strdup.run pb =
    .ok (⟨pb.rest.takeWhile (· ≠ 0), zero_notMem_takeWhile pb.rest⟩, pb) := by
  change (ite (0 ∈ pb.rest) _ (throw .outside) : MemM CString).run pb = _
  rw [if_pos h]
  rfl

theorem length_takeWhile_lt {bs : List Byte} (h : 0 ∈ bs) :
    (bs.takeWhile (· ≠ 0)).length < bs.length := by
  refine lt_of_le_of_ne (List.takeWhile_sublist _).length_le fun heq => ?_
  have hall := (List.takeWhile_sublist (l := bs) (· ≠ 0)).eq_of_length heq
  exact zero_notMem_takeWhile bs (hall.symm ▸ h)

theorem run_unpackstr (h : 0 ∈ b.1) :
    Cull.unpackstr.run b =
      .ok (unsetEmpty (some ⟨b.1.takeWhile (· ≠ 0), zero_notMem_takeWhile b.1⟩),
        b.1.drop ((b.1.takeWhile (· ≠ 0)).length + 1), b.2) := by
  change (ite (0 ∈ b.1) _ (throw .format) : UnpackM (Option CString)).run b = _
  rw [if_pos h]
  rfl

theorem run_unpackstr_open (h : 0 ∉ b.1) : Cull.unpackstr.run b = .error .format := by
  change (ite (0 ∈ b.1) _ (throw .format) : UnpackM (Option CString)).run b = _
  rw [if_neg h]
  rfl

theorem readsAs_unpackstr : ReadsAs L 1 (fun _ => True) unpackstr Cull.unpackstr := by
  intro pb hpb _
  have hlen := hpb.length_rest
  apply Safe.get_bind
  by_cases hempty : pb.rest = []
  · have hzero : pb.memSize - pb.bytesUsed < 1 := by rw [← hlen, hempty]; exact Nat.one_pos
    rw [if_pos hzero]
    apply Safe.code
    exact run_unpackstr_open (by rw [SgePackBuffer.view, hempty]; exact List.not_mem_nil)
  · obtain ⟨b, bs, hrest⟩ := List.exists_cons_of_ne_nil hempty
    have hpos : 1 ≤ pb.rest.length := by rw [hrest]; simp
    rw [if_neg (by omega), Safe, run_bind_of_ok (run_memcpy hpb hpos)]
    by_cases hfirst : b = 0
    · -- the NUL byte alone is no string
      have hmem : 0 ∈ pb.view.1 := by rw [SgePackBuffer.view, hrest, hfirst]; simp
      have hnone : pb.rest.takeWhile (· ≠ 0) = [] := by rw [hrest, hfirst]; simp
      rw [if_pos (by rw [hrest, hfirst]; rfl)]
      refine ⟨?_, hpb.forward hpos, ?_, trivial⟩
      · rw [run_unpackstr hmem, view_forward]
        simp only [SgePackBuffer.view, hnone]
        rfl
      · rw [rest_forward, List.length_drop]
        omega
    · rw [if_neg (by rw [hrest]; simpa using hfirst), run_bind_of_ok (run_memchr hpb)]
      by_cases hmem : 0 ∈ pb.rest
      · have hlt := length_takeWhile_lt hmem
        have hsome : unsetEmpty (some ⟨pb.rest.takeWhile (· ≠ 0), zero_notMem_takeWhile pb.rest⟩) =
              some ⟨pb.rest.takeWhile (· ≠ 0), zero_notMem_takeWhile pb.rest⟩ := by
          rw [unsetEmpty, Option.filter_some, if_pos]
          rw [hrest]
          simpa using hfirst
        have hcopy : (do let str ← strdup
                         advance ((pb.rest.takeWhile (· ≠ 0)).length + 1)
                         return some str : MemM (Option CString)).run pb =
            .ok (some ⟨pb.rest.takeWhile (· ≠ 0), zero_notMem_takeWhile pb.rest⟩,
              pb.forward ((pb.rest.takeWhile (· ≠ 0)).length + 1)) := by
          rw [run_bind_of_ok (run_strdup hmem)]
          rfl
        rw [if_pos hmem]
        dsimp only
        rw [hcopy]
        refine ⟨?_, hpb.forward (by omega), ?_, trivial⟩
        · rw [run_unpackstr hmem, view_forward]
          simp only [SgePackBuffer.view, hsome]
        · rw [rest_forward, List.length_drop]
          omega
      · rw [if_neg hmem]
        exact run_unpackstr_open hmem

end

/-! ## Descriptors -/

section

variable {ns : NameSpace} {L : ℕ}

theorem readsAs_unpackTypeRef : ReadsAs L 8 (fun r : List DescrEntry × ℕ => InOrder r.1)
    (unpackTypeRef ns) (Cull.unpackTypeRef ns) := by
  refine readsAs_unpackint.bind (c := 4) fun firstNm _ _ => ?_
  refine readsAs_unpackint.map fun count _ _ => ?_
  cases ocsCullDescrStaticFor ns (BitVec.ofNat 32 firstNm).toInt with
  | none => exact ReadsAs.code
  | some block =>
    dsimp only
    split
    · exact ReadsAs.code
    · exact ReadsAs.pure block.inOrder

def tableRef : Option (List DescrEntry) → UnpackM (List DescrEntry × ℕ)
  | some dp => pure (dp, (presentFields dp).length)
  | none => throw .format

theorem readsAs_unpackTableRef : ReadsAs L 4 (fun r : List DescrEntry × ℕ => InOrder r.1)
    unpackTableRef Cull.unpackTableRef := by
  refine readsAs_unpackint.map fun index _ _ => ?_
  intro pb hpb _
  have hentry : pb.dtab.bind (·[index]?) = pb.view.2[index]? := by
    rw [SgePackBuffer.view, SgePackBuffer.table]
    cases pb.dtab <;> rfl
  apply Safe.get_bind
  rw [hentry]
  change Safe _ pb (fun a s' => (tableRef pb.view.2[index]?).run pb.view = _ ∧ _)
    fun e => (tableRef pb.view.2[index]?).run pb.view = _
  cases hdp : pb.view.2[index]? with
  | none => exact Safe.code rfl
  | some dp => exact Safe.pure ⟨rfl, hpb, le_rfl, hpb.table dp (List.mem_of_getElem? hdp)⟩

theorem readsAs_enterTable {dp : List DescrEntry} (h : InOrder dp) :
    ReadsAs L 0 (fun _ => True) (enterTable dp) (Cull.enterTable dp) := by
  intro pb hpb _
  rw [Follows, Safe]
  refine ⟨rfl, ⟨hpb.memSize, hpb.curPtr, hpb.within, fun dp' hdp' => ?_⟩, le_rfl, trivial⟩
  rcases List.mem_append.mp hdp' with hdp' | hdp'
  · exact hpb.table dp' hdp'
  · exact List.mem_singleton.mp hdp' ▸ h

def marked (keep : List Bool) (idx : List ℕ) : List Bool :=
  idx.foldl (fun keep p => keep.set p true) keep

variable {keep : List Bool}

theorem readsAs_unpackKeep {typeN : ℕ} (count : ℕ) (last : ℤ) (hlen : keep.length = typeN) :
    ReadsAs L 0 (fun keep' => keep'.length = typeN) (unpackKeep typeN count last keep)
      (marked keep <$> unpackIndices typeN count last) := by
  induction count generalizing L last keep with
  | zero => exact ReadsAs.pure hlen
  | succ count ih =>
    rw [unpackKeep, unpackIndices, map_bind]
    refine (readsAs_unpackint.bind (c := 0) fun temp _ _ => ?_).imp (Nat.zero_le 4)
      fun _ h => h
    split
    · exact fun _ _ _ => Safe.code rfl
    · case isFalse hbound =>
        have htemp : temp < keep.length := by omega
        rw [store_eq htemp, pure_bind, bind_pure_comp, Functor.map_map]
        exact ih temp (by rw [List.length_set, hlen])

theorem length_marked (keep : List Bool) (idx : List ℕ) :
    (marked keep idx).length = keep.length := by
  induction idx generalizing keep with
  | nil => rfl
  | cons p idx ih => exact (ih _).trans List.length_set

theorem getElem?_marked (keep : List Bool) (idx : List ℕ) (p : ℕ) :
    (marked keep idx)[p]? = if p ∈ idx ∧ p < keep.length then some true else keep[p]? := by
  induction idx generalizing keep with
  | nil => simp [marked]
  | cons q idx ih =>
    change (marked (keep.set q true) idx)[p]? = _
    rw [ih, List.length_set, List.getElem?_set]
    by_cases hpq : q = p <;> by_cases hp : p ∈ idx <;> by_cases hlen : p < keep.length <;>
      simp [hpq, hp, hlen, List.mem_cons, Ne.symm]

theorem marked_replicate (n : ℕ) (idx : List ℕ) :
    marked (List.replicate n false) idx = (List.range n).map fun p => decide (p ∈ idx) := by
  refine List.ext_getElem? fun p => ?_
  rw [getElem?_marked, List.length_replicate, List.getElem?_map]
  by_cases hp : p < n
  · by_cases hidx : p ∈ idx <;> simp [hp, hidx]
  · simp [hp]

variable {type : ObjectType}

theorem inOrder_of_build {shared : List DescrEntry} (hlen : keep.length = type.fields.length)
    (h : ocsCullDescrBuild type.entries keep = some shared) : InOrder shared := by
  obtain ⟨out, hout, hpresent⟩ := layout_entries type hlen
  rw [ocsCullDescrBuild, hout, Option.bind_some] at h
  dsimp only at h
  split at h
  · exact absurd h (by simp)
  · split at h
    · exact Option.some.inj h ▸ type.inOrder
    · exact Option.some.inj h ▸ inOrder_of_keptFields hlen hpresent

def buildKept (type : ObjectType) (count : ℕ) (keep : List Bool) :
    UnpackM (List DescrEntry × ℕ) :=
  if count = 0 then throw .format else
    match ocsCullDescrBuild type.entries keep with
    | none => throw .noMem
    | some shared => do
      Cull.enterTable shared
      return (shared, count)

theorem readsAs_unpackByIndex : ReadsAs L 8 (fun r : List DescrEntry × ℕ => InOrder r.1)
    (unpackByIndex ns) (Cull.unpackByIndex ns) := by
  refine readsAs_unpackint.bind (c := 4) fun typeNm _ _ => ?_
  refine readsAs_unpackint.map fun count _ _ => ?_
  cases ocsCullDescrStaticFor ns (BitVec.ofNat 32 typeNm).toInt with
  | none => exact ReadsAs.code
  | some type =>
    dsimp only
    split
    · exact ReadsAs.code
    · simp only [← marked_replicate]
      refine (readsAs_unpackKeep count (-1) List.length_replicate).bind_map
        (g := buildKept type count) (c := 0) fun keep hkeep _ => ?_
      unfold buildKept
      split
      · exact ReadsAs.code
      · cases hshared : ocsCullDescrBuild type.entries keep with
        | none => exact ReadsAs.code
        | some shared =>
          have hshared := inOrder_of_build hkeep hshared
          exact (readsAs_enterTable hshared).map fun _ _ _ => ReadsAs.pure hshared

variable {dp : List (ℤ × BitVec 32)} {i : ℕ}

theorem nmAt_set (hi : i < dp.length) (d : ℤ × BitVec 32) : nmAt (dp.set i d) i = d.1 := by
  rw [nmAt, List.getElem?_set_self hi]
  rfl

theorem nmAt_set_ne {j : ℕ} (h : i ≠ j) (d : ℤ × BitVec 32) : nmAt (dp.set i d) j = nmAt dp j := by
  rw [nmAt, List.getElem?_set_ne h, nmAt]

/-- The field in front of the `i`-th one. -/
def lastNm (dp : List (ℤ × BitVec 32)) (i : ℕ) : Option ℤ :=
  if 0 < i then some (nmAt dp (i - 1)) else none

variable {nm : ℤ}

theorem lastNm_any : (lastNm dp i).any (nm ≤ ·) = true ↔ 0 < i ∧ nm ≤ nmAt dp (i - 1) := by
  by_cases hi : 0 < i <;> simp [lastNm, hi]

theorem take_set_drop {α : Type} (dp fs : List α) {n : ℕ} (hi : i + (n + 1) ≤ dp.length)
    (d : α) : (dp.set i d).take (i + 1) ++ fs ++ (dp.set i d).drop (i + 1 + n) =
      dp.take i ++ (d :: fs) ++ dp.drop (i + (n + 1)) := by
  have hset : dp.set i d = dp.take i ++ d :: dp.drop (i + 1) :=
    List.set_eq_take_append_cons_drop.trans (if_pos (by omega))
  have hlen : (dp.take i).length = i := List.length_take_of_le (by omega)
  have hfront : (dp.set i d).take (i + 1) = dp.take i ++ [d] := by
    rw [hset, List.append_cons]
    exact List.take_left' (by rw [List.length_append, hlen, List.length_singleton])
  rw [hfront, List.drop_set_of_lt (by omega), List.append_assoc _ [d], List.singleton_append,
    Nat.add_assoc, Nat.add_comm 1 n]

theorem readsAs_unpackFields (n i : ℕ) (dp : List (ℤ × BitVec 32)) (hi : i + n ≤ dp.length) :
    ReadsAs L 0 (fun _ => True) (unpackFields n i dp)
      ((fun fs => dp.take i ++ fs ++ dp.drop (i + n)) <$>
        Cull.unpackFields n (lastNm dp i)) := by
  induction n generalizing L i dp with
  | zero =>
    rw [unpackFields, Cull.unpackFields, map_pure, List.append_nil, Nat.add_zero,
      List.take_append_drop]
    exact ReadsAs.pure trivial
  | succ n ih =>
    have hslot : i < dp.length := by omega
    rw [unpackFields, Cull.unpackFields, map_bind]
    refine (readsAs_unpackint.bind (c := 4) fun temp _ _ => ?_).imp (Nat.zero_le _)
      fun _ h => h
    rw [store_eq hslot, pure_bind]
    dsimp only
    have hordered : (0 < i ∧ nmAt (dp.set i ((BitVec.ofNat 32 temp).toInt,
        (dp.get ⟨i, hslot⟩).2)) i ≤ nmAt (dp.set i ((BitVec.ofNat 32 temp).toInt,
        (dp.get ⟨i, hslot⟩).2)) (i - 1)) ↔
        (lastNm dp i).any ((BitVec.ofNat 32 temp).toInt ≤ ·) = true := by
      rw [lastNm_any, nmAt_set hslot]
      refine and_congr_right fun hpos => ?_
      rw [nmAt_set_ne (by omega)]
    by_cases hbad : (lastNm dp i).any ((BitVec.ofNat 32 temp).toInt ≤ ·) = true
    · rw [if_pos (hordered.mpr hbad), if_pos hbad]
      exact fun _ _ _ => Safe.code rfl
    · rw [if_neg (mt hordered.mp hbad), if_neg hbad, map_bind]
      refine readsAs_unpackint.map fun mt _ _ => ?_
      rw [store_eq (by rw [List.length_set]; exact hslot), pure_bind, List.set_set,
        bind_pure_comp, Functor.map_map]
      have hnm : ((dp.set i ((BitVec.ofNat 32 temp).toInt, (dp.get ⟨i, hslot⟩).2)).get
          ⟨i, by rw [List.length_set]; exact hslot⟩).1 = (BitVec.ofNat 32 temp).toInt := by
        rw [List.get_eq_getElem, List.getElem_set_self]
      have hlast : ∀ d : ℤ × BitVec 32, lastNm (dp.set i d) (i + 1) = some d.1 := fun d => by
        rw [lastNm, if_pos (Nat.succ_pos i), Nat.add_sub_cancel, nmAt_set hslot]
      have hrest := ih (L := L - 4 - 4) (i + 1) (dp.set i ((BitVec.ofNat 32 temp).toInt,
        BitVec.ofNat 32 mt &&& ~~~cullDescrInterned)) (by rw [List.length_set]; omega)
      simp only [take_set_drop dp _ hi, hlast] at hrest
      rw [hnm]
      exact hrest
theorem nm_entriesFrom {mts : List (BitVec 32)} {p : ℕ} {e : DescrEntry}
    (h : (entriesFrom nm mts)[p]? = some e) : e.nm = nm + p := by
  induction mts generalizing nm p with
  | nil => exact absurd h (by simp [entriesFrom])
  | cons mt mts ih =>
    cases p with
    | zero =>
      cases h
      exact (add_zero nm).symm
    | succ p =>
      rw [ih h]
      push_cast
      ring

theorem isFieldAt_iff {d : ℤ × BitVec 32} :
    isFieldAt type (d.1 - type.lower) d ↔
      (type.entries.any fun e => d.1 = e.nm ∧ mtGetType d.2 = mtGetType e.mt) = true := by
  constructor
  · rintro ⟨-, -, hany⟩
    obtain ⟨e, he, hsame⟩ := (Option.any_eq_true _ _).mp hany
    obtain ⟨hnm, hmt⟩ := of_decide_eq_true hsame
    exact List.any_eq_true.mpr ⟨e, List.mem_of_getElem? he, decide_eq_true ⟨hnm.symm, hmt.symm⟩⟩
  · intro h
    obtain ⟨e, he, hsame⟩ := List.any_eq_true.mp h
    obtain ⟨p, hp⟩ := List.mem_iff_getElem?.mp he
    obtain ⟨hnm, hmt⟩ := of_decide_eq_true hsame
    have hpos : d.1 - type.lower = p := by rw [hnm, nm_entriesFrom hp]; ring
    have hlt : p < type.fields.length := by
      rw [← type.length_entries]
      exact (List.getElem?_eq_some_iff.mp hp).1
    refine ⟨by omega, by omega, ?_⟩
    rw [hpos, Int.toNat_natCast, hp]
    simp [hnm, hmt]

/-- The marks that are set in memory. -/
def knownMarks (type : ObjectType) (dp : List (ℤ × BitVec 32)) (keep : List Bool) :
    Option (List Bool) :=
  if dp.all fun d => type.entries.any fun e => d.1 = e.nm ∧ mtGetType d.2 = mtGetType e.mt then
    some (marked keep (dp.map fun d : ℤ × BitVec 32 => (d.1 - type.lower).toNat))
  else none

theorem readsAs_markKnown (type : ObjectType) (dp : List (ℤ × BitVec 32))
    (hlen : keep.length = type.fields.length) :
    ReadsAs L 0 (· = knownMarks type dp keep) (markKnown type dp keep)
      (pure (knownMarks type dp keep)) := by
  induction dp generalizing keep with
  | nil => exact ReadsAs.pure rfl
  | cons d dp ih =>
    rw [markKnown]
    by_cases hd : isFieldAt type (d.1 - type.lower) d
    · have hslot : (d.1 - type.lower).toNat < keep.length := by
        have hlow := hd.1
        have hhigh := hd.2.1
        omega
      have hmarks : knownMarks type (d :: dp) keep =
          knownMarks type dp (keep.set (d.1 - type.lower).toNat true) := by
        rw [knownMarks, knownMarks, List.all_cons, isFieldAt_iff.mp hd, Bool.true_and]
        rfl
      rw [hmarks, if_pos hd, store_eq hslot, pure_bind]
      exact ih (by rw [List.length_set, hlen])
    · have hmarks : knownMarks type (d :: dp) keep = none := by
        rw [knownMarks, List.all_cons, Bool.eq_false_iff.mpr (mt isFieldAt_iff.mpr hd),
          Bool.false_and, if_neg Bool.false_ne_true]
      rw [hmarks, if_neg hd]
      exact ReadsAs.pure rfl

theorem knownMarks_replicate (type : ObjectType) (dp : List (ℤ × BitVec 32)) :
    knownMarks type dp (List.replicate type.fields.length false) =
      if dp.all fun d => type.entries.any fun e => d.1 = e.nm ∧ mtGetType d.2 = mtGetType e.mt then
        some (type.entries.map fun e => dp.any fun d => d.1 = e.nm)
      else none := by
  rw [knownMarks]
  split
  · case isTrue hall =>
      congr 1
      rw [marked_replicate]
      refine List.ext_getElem (by simp) fun p hp _ => ?_
      have hp' : p < type.entries.length := by simpa using hp
      have hnm : type.entries[p].nm = type.lower + p :=
        nm_entriesFrom (List.getElem?_eq_getElem hp')
      rw [List.getElem_map, List.getElem_map, List.getElem_range, Bool.eq_iff_iff,
        decide_eq_true_iff, List.mem_map, List.any_eq_true]
      refine exists_congr fun d => and_congr_right fun hd => ?_
      have hlow := (isFieldAt_iff.mpr (List.all_eq_true.mp hall d hd)).1
      rw [decide_eq_true_iff, hnm]
      omega
  · rfl

theorem heldFields_eq {fields : List (ℤ × BitVec 32)} : heldFields ns fields =
    (fields.head?.bind fun first => ocsCullDescrStaticContaining ns first.1).bind
      fun (type, _) => (knownMarks type fields (List.replicate type.fields.length false)).map
        (type, ·) := by
  rw [heldFields]
  cases fields.head? with
  | none => rfl
  | some first =>
    change (ocsCullDescrStaticContaining ns first.1).bind _ =
      (ocsCullDescrStaticContaining ns first.1).bind _
    refine congrArg _ (funext fun (type, _) => ?_)
    dsimp only
    rw [knownMarks_replicate]
    split <;> rfl

theorem take_unpackFields (n : ℕ) (last : Option ℤ) (more : List (ℤ × BitVec 32)) :
    (fun fs => (fs ++ more).take n) <$> Cull.unpackFields n last = Cull.unpackFields n last := by
  induction n generalizing last with
  | zero => rfl
  | succ n ih =>
    rw [Cull.unpackFields, map_bind]
    refine congrArg _ (funext fun temp => ?_)
    dsimp only
    split
    · rfl
    · rw [map_bind]
      refine congrArg _ (funext fun mt => ?_)
      rw [bind_pure_comp, Functor.map_map]
      conv_rhs => rw [← ih, Functor.map_map]
      rfl

theorem readsAs_fields (n : ℕ) : ReadsAs L 0 (fun _ => True)
    (List.take n <$> unpackFields n 0 (List.replicate n (0, 0) ++ [(-1, 0)]))
    (Cull.unpackFields n none) := by
  let dp : List (ℤ × BitVec 32) := List.replicate n (0, 0) ++ [(-1, 0)]
  have hread := readsAs_unpackFields (L := L) n 0 dp (by simp [dp])
  have hcut := hread.bind_map (c := 0) (R := fun _ => True) (f := fun dp => pure (dp.take n))
    (g := fun dp => pure (dp.take n)) fun dp _ _ => ReadsAs.pure trivial
  rw [← bind_pure_comp, ← take_unpackFields n none (dp.drop (0 + n)), ← bind_pure_comp]
  exact hcut

theorem readsAs_shareFields (ns : NameSpace) (n : ℕ) (enter : Bool)
    (fields : List (ℤ × BitVec 32)) :
    ReadsAs L 0 (fun r : List DescrEntry × ℕ => InOrder r.1) (shareFields ns n enter fields)
      (match heldFields ns fields with
        | none => throw .format
        | some (type, keep) =>
          match ocsCullDescrBuild type.entries keep with
          | none => throw .noMem
          | some shared => do
            if enter then Cull.enterTable shared
            return (shared, n)) := by
  rw [shareFields, heldFields_eq]
  rcases fields.head?.bind fun first => ocsCullDescrStaticContaining ns first.1 with
    _ | ⟨type, pos⟩
  · exact ReadsAs.code
  · dsimp only [Option.bind_some]
    rw [← pure_bind (knownMarks type fields (List.replicate type.fields.length false))
      fun known => (match known.map (type, ·) with
        | none => throw .format
        | some (type, keep) =>
          match ocsCullDescrBuild type.entries keep with
          | none => throw .noMem
          | some shared => do
            if enter then Cull.enterTable shared
            return (shared, n) : UnpackM (List DescrEntry × ℕ))]
    refine (readsAs_markKnown type fields List.length_replicate).map fun known hknown _ => ?_
    cases known with
    | none => exact ReadsAs.code
    | some keep =>
      dsimp only [Option.map_some]
      cases hshared : ocsCullDescrBuild type.entries keep with
      | none => exact ReadsAs.code
      | some shared =>
        have hlen : keep.length = type.fields.length := by
          rw [knownMarks] at hknown
          split at hknown
          · rw [Option.some.inj hknown, length_marked, List.length_replicate]
          · exact absurd hknown (by simp)
        have hshared := inOrder_of_build hlen hshared
        cases enter with
        | true => exact (readsAs_enterTable hshared).map fun _ _ _ => ReadsAs.pure hshared
        | false => exact ReadsAs.pure hshared

theorem readsAs_unpackByField (n : ℕ) (enter : Bool) :
    ReadsAs L 0 (fun r : List DescrEntry × ℕ => InOrder r.1)
      (unpackByField ns n enter) (Cull.unpackByField ns n enter) := by
  rw [unpackByField, Cull.unpackByField]
  split
  · exact ReadsAs.code
  · refine (readsAs_fields n).map fun fields _ _ => ?_
    dsimp only
    have hshare := readsAs_shareFields (L := L - 0) ns n enter fields
    split
    · rw [pure_bind]
      exact hshare
    · rcases ocsCullUnpackPrefixType ns fields with e | _ | type
      · exact fun pb hpb _ => Safe.code rfl
      · exact hshare
      · exact ReadsAs.pure type.inOrder

theorem readsAs_cullUnpackDescr : ReadsAs L 4 (fun r : List DescrEntry × ℕ => InOrder r.1)
    (cullUnpackDescr ns) (Cull.cullUnpackDescr ns) := by
  refine readsAs_unpackint.map fun n _ _ => ?_
  split
  · exact readsAs_unpackTypeRef.imp (Nat.zero_le 8) fun _ h => h
  split
  · exact readsAs_unpackTableRef.imp (Nat.zero_le 4) fun _ h => h
  split
  · refine (readsAs_unpackint.bind (c := 0) fun kind _ _ => ?_).imp (Nat.zero_le 4) fun _ h => h
    split
    · exact readsAs_unpackByIndex.imp (Nat.zero_le 8) fun _ h => h
    split
    · exact (readsAs_unpackint.bind fun n _ _ => readsAs_unpackByField n true).imp
        (Nat.zero_le 4) fun _ h => h
    · exact ReadsAs.code
  · exact readsAs_unpackByField n false

end

/-! ## Values, elements and lists -/

section

variable {ns : NameSpace} {L : ℕ} {switch : Unpacker} {switch' : Cull.Unpacker}

def setSlots (cp : List Received) (fvs : List (PresentField × Received)) : List Received :=
  fvs.foldl (fun cp x => cp.set x.1.slot x.2) cp

theorem take_setSlots {fvs : List (PresentField × Received)} (cp : List Received)
    {more : List Received} (h : ∀ x ∈ fvs, x.1.slot < cp.length) :
    (setSlots (cp ++ more) fvs).take cp.length = setSlots cp fvs := by
  induction fvs generalizing cp with
  | nil => exact List.take_left
  | cons x fvs ih =>
    obtain ⟨hx, hfvs⟩ := List.forall_mem_cons.mp h
    have hrest := ih (cp.set x.1.slot x.2) (by simpa using hfvs)
    rw [List.length_set, ← List.set_append_left _ _ hx] at hrest
    exact hrest

theorem readsAs_unpackValues (hswitch : ∀ type, ReadsAs L 0 (fun _ => True) (switch type)
    (switch' type)) {fs : List PresentField} (cp : List Received)
    (hslots : ∀ f ∈ fs, f.slot < cp.length) :
    ReadsAs L 0 (fun _ => True) (unpackValues switch fs cp)
      ((fun values => setSlots cp (fs.zip values)) <$>
        fs.mapM fun f => switch' (mtType f.mt)) := by
  induction fs generalizing L cp with
  | nil => exact ReadsAs.pure trivial
  | cons f fs ih =>
    obtain ⟨hf, hfs⟩ := List.forall_mem_cons.mp hslots
    rw [unpackValues, storing, if_pos hf, List.mapM_cons, map_bind, bind_assoc]
    refine (hswitch (mtType f.mt)).map fun v _ _ => ?_
    rw [pure_bind, bind_pure_comp, Functor.map_map]
    exact ih hswitch _ (by simpa using hfs)

/-- The values in memory are those of the element, in slots that are there. -/
theorem readsAs_cullUnpackCont (hswitch : ∀ type, ReadsAs L 0 (fun _ => True) (switch type)
    (switch' type)) {dp : List DescrEntry} (hdp : InOrder dp) (wireN : ℕ) :
    ReadsAs L 0 (fun _ => True) (cullUnpackCont switch dp wireN)
      (Cull.cullUnpackCont switch' dp wireN) := by
  rw [cullUnpackCont, Cull.cullUnpackCont]
  dsimp only
  split
  · exact ReadsAs.code
  · let cp : List Received := (presentFields dp).map fun f => unreadValue f.mt
    have hlen : cp.length = (presentFields dp).length := List.length_map _
    have hslot : ∀ f ∈ (presentFields dp).take wireN, f.slot < cp.length := fun f hf => by
      have hmem : f.slot ∈ (presentFields dp).map (·.slot) :=
        List.mem_map_of_mem (List.mem_of_mem_take hf)
      rw [hdp.slots, List.mem_range'_1] at hmem
      omega
    have hvalues := readsAs_unpackValues hswitch (cp ++ [.ref none]) fun f hf => by
      rw [List.length_append]
      exact Nat.lt_add_right _ (hslot f hf)
    have hcut := hvalues.bind_map (c := 0) (R := fun _ => True)
      (f := fun cp => pure (cp.take (presentFields dp).length))
      (g := fun cp => pure (cp.take (presentFields dp).length)) fun _ _ _ => ReadsAs.pure trivial
    have hspare : ∀ values, (setSlots (cp ++ [.ref none])
        (((presentFields dp).take wireN).zip values)).take (presentFields dp).length =
          setSlots cp (((presentFields dp).take wireN).zip values) := fun values => by
      rw [← hlen]
      exact take_setSlots cp fun x hx => hslot x.1 (List.of_mem_zip hx).1
    simp only [hspare] at hcut
    exact hcut

theorem readsAs_ocsCullUnpackElem (hswitch : ∀ type, 4 ≤ L → ReadsAs (L - 4) 0 (fun _ => True)
    (switch type) (switch' type)) {dp : Option (List DescrEntry)} (hdp : ∀ d ∈ dp, InOrder d)
    (wireN : ℕ) : ReadsAs L 4 (fun _ => True) (ocsCullUnpackElem ns switch dp wireN)
      (Cull.ocsCullUnpackElem ns switch' dp wireN) := by
  refine readsAs_unpackint.map fun wire _ hL => ?_
  have hvalues := fun {descr} (hdescr : InOrder descr) (n d : ℕ) =>
    readsAs_cullUnpackCont (fun type => (hswitch type hL).le (Nat.sub_le _ d)) hdescr n
  rcases elemKindFromWire wire with _ | kind
  · exact ReadsAs.code
  by_cases hfree : kind = .free
  · subst hfree
    refine (readsAs_cullUnpackDescr.bind (c := 0) fun r hr _ => ?_).imp (Nat.zero_le _)
      fun _ h => h
    exact (hvalues hr r.2 4).map fun _ _ _ => ReadsAs.pure trivial
  · rcases dp with _ | descr
    · cases kind <;> first | exact absurd rfl hfree | exact ReadsAs.code
    · have hbound := (hvalues (hdp descr rfl) wireN 0).map (R := fun _ => True)
        (f := fun cont => pure (descr, cont)) (g := fun cont => pure (descr, cont))
        fun _ _ _ => ReadsAs.pure trivial
      cases kind <;> first | exact absurd rfl hfree | exact hbound

variable {fuel : ℕ}

variable {descr : List DescrEntry} {fuel' : ℕ}

variable (hswitch : ∀ type L', L' + 4 ≤ L → ReadsAs L' 0 (fun _ => True) (switch type) (switch' type))
include hswitch

/-- Each element takes bytes, so that the loop comes to its end. -/
theorem readsAs_unpackElems
    (hdescr : InOrder descr) (wireN : ℕ) (hfuel : L < fuel) (hfuel' : L ≤ fuel') :
    ReadsAs L 4 (fun _ => True) (unpackElems ns switch descr wireN fuel)
      (readWhile Cull.unpackint (fun more => decide (more ≠ 0)) (do
        let ep ← Cull.ocsCullUnpackElem ns switch' (some descr) wireN
        return ep.2) fuel') := by
  induction fuel generalizing L fuel' with
  | zero => exact absurd hfuel (Nat.not_lt_zero L)
  | succ fuel ih =>
    rw [unpackElems]
    cases fuel' with
    | zero =>
      refine readsAs_unpackint.map fun more _ hL => ?_
      omega
    | succ fuel' =>
      rw [readWhile]
      refine readsAs_unpackint.map fun more _ hL => ?_
      by_cases hmore : more ≠ 0
      · rw [if_pos hmore, if_pos (decide_eq_true hmore), bind_assoc]
        refine ((readsAs_ocsCullUnpackElem (fun type hL' => hswitch type _ (by omega))
          (fun d hd => Option.mem_some.mp hd ▸ hdescr) wireN).bind (c := 4)
            fun ep _ hL' => ?_).imp (Nat.zero_le _) fun _ h => h
        rw [pure_bind]
        exact (ih (fun type L' hL'' => hswitch type L' (by omega)) (by omega)
          (by omega)).map fun _ _ _ => ReadsAs.pure trivial
      · rw [if_neg hmore, if_neg (by simpa using hmore)]
        exact ReadsAs.pure trivial

/-- The loop without memory has as much fuel as there are bytes. -/
theorem readsAs_elems
    (hdescr : InOrder descr) (wireN : ℕ) (hfuel : L < fuel) :
    ReadsAs L 4 (fun _ => True) (unpackElems ns switch descr wireN fuel)
      (readMarked Cull.unpackint (fun more => decide (more ≠ 0)) do
        let ep ← Cull.ocsCullUnpackElem ns switch' (some descr) wireN
        return ep.2) := fun pb hpb hL =>
  readsAs_unpackElems (L := pb.rest.length) (fun type L' hL' => hswitch type L' (by omega)) hdescr
    wireN (by omega) le_rfl pb hpb le_rfl

omit hswitch

theorem readsAs_cullUnpackListPartial (ns : NameSpace) (hswitch : ∀ type L', L' + 4 ≤ L →
    ReadsAs L' 0 (fun _ => True) (switch type) (switch' type)) (hfuel : L ≤ fuel) :
    ReadsAs L 4 (fun _ => True) (cullUnpackListPartial ns switch fuel)
      (Cull.cullUnpackListPartial ns switch') := by
  refine readsAs_unpackint.map fun i _ hL => ?_
  split
  · exact ReadsAs.pure trivial
  · refine (readsAs_unpackstr.bind (c := 0) fun listname _ _ => ?_).imp (Nat.zero_le _)
      fun _ h => h
    refine (readsAs_cullUnpackDescr.bind (c := 0) fun r hr _ => ?_).imp (Nat.zero_le _)
      fun _ h => h
    refine ((readsAs_elems (fun type L' hL' => hswitch type L' (by omega)) hr r.2
      (by omega)).map fun elems _ _ => ?_).imp (Nat.zero_le _) fun _ h => h
    exact ReadsAs.pure trivial

theorem readsAs_cullUnpackObject (ns : NameSpace) (hswitch : ∀ type L', L' + 4 ≤ L →
    ReadsAs L' 0 (fun _ => True) (switch type) (switch' type)) :
    ReadsAs L 4 (fun _ => True) (cullUnpackObject ns switch)
      (Cull.cullUnpackObject ns switch') := by
  refine readsAs_unpackint.map fun i _ hL => ?_
  split
  · exact ReadsAs.pure trivial
  · refine (readsAs_cullUnpackDescr.bind (c := 0) fun r hr _ => ?_).imp (Nat.zero_le _)
      fun _ h => h
    refine ((readsAs_ocsCullUnpackElem (fun type hL' => hswitch type _ (by omega))
      (fun d hd => Option.mem_some.mp hd ▸ hr) r.2).map fun ep _ _ => ?_).imp (Nat.zero_le _)
        fun _ h => h
    exact ReadsAs.pure trivial

theorem readsAs_switch_succ (hswitch : ∀ type L', L' + 4 ≤ L →
    ReadsAs L' 0 (fun _ => True) (cullUnpackSwitch ns fuel type) (switch' type))
    (hfuel : L ≤ fuel) (type : Option CullType) :
    ReadsAs L 0 (fun _ => True) (cullUnpackSwitch ns (fuel + 1) type)
      (unpackSwitchWith ns switch' type) := by
  have hint := readsAs_unpackint (L := L)
  have hstr := readsAs_unpackstr (L := L)
  have hlist := readsAs_cullUnpackListPartial ns hswitch hfuel
  have hobject := readsAs_cullUnpackObject ns hswitch
  rcases type with _ | type
  · exact ReadsAs.code
  cases type with
  | double =>
    refine (readsAs_unpackint64.map fun v _ _ => ?_).imp (Nat.zero_le 8) fun _ h => h
    exact ReadsAs.pure trivial
  | ulong64 =>
    refine (readsAs_unpackint64.map fun v _ _ => ?_).imp (Nat.zero_le 8) fun _ h => h
    exact ReadsAs.pure trivial
  | ulong | bool =>
    refine (hint.map fun v _ _ => ?_).imp (Nat.zero_le 4) fun _ h => h
    exact ReadsAs.pure trivial
  | string | host =>
    refine (hstr.map fun v _ _ => ?_).imp (Nat.zero_le 1) fun _ h => h
    exact ReadsAs.pure trivial
  | list =>
    refine (hlist.map fun v _ _ => ?_).imp (Nat.zero_le 4) fun _ h => h
    exact ReadsAs.pure trivial
  | object => exact hobject.imp (Nat.zero_le 4) fun _ h => h
  | ref => exact ReadsAs.pure trivial
  | int | long => exact ReadsAs.code

/-- Fuel for every byte that is left is enough, in memory one more. -/
theorem readsAs_cullUnpackSwitch (ns : NameSpace) (hfuel : L < fuel) (hfuel' : L ≤ fuel')
    (type : Option CullType) : ReadsAs L 0 (fun _ => True) (cullUnpackSwitch ns fuel type)
      (Cull.cullUnpackSwitch ns fuel' type) := by
  induction fuel generalizing L fuel' type with
  | zero => exact absurd hfuel (Nat.not_lt_zero L)
  | succ fuel ih =>
    cases fuel' with
    | zero => exact readsAs_switch_succ (fun type L' hL' => by omega) (by omega) type
    | succ fuel' =>
      exact readsAs_switch_succ (fun type L' hL' => ih (by omega) (by omega) type) (by omega)
        type

end

/-! ## Calls -/

section

variable {α : Type} {pb : SgePackBuffer}

def Call.Tolerated (c : Call α) : Prop :=
  ∃ ret pointer, c = .returns ret pointer ∧ (ret ≠ none → pointer = none)

theorem tolerated_iff {body : MemM (Option α)} : (callWith body pb).Tolerated ↔
    Safe body pb (fun _ _ => True) fun _ => True := by
  rw [callWith, Safe]
  rcases body.run pb with (_ | _ | e) | ⟨read, pb'⟩
  · refine iff_of_false ?_ id
    rintro ⟨_, _, h, _⟩
    cases h
  · refine iff_of_false ?_ id
    rintro ⟨_, _, h, _⟩
    cases h
  · exact iff_of_true ⟨some e, none, rfl, fun _ => rfl⟩ trivial
  · exact iff_of_true ⟨none, read, rfl, fun h => absurd rfl h⟩ trivial

end

end ClusterScheduler.Cull.InMemory
