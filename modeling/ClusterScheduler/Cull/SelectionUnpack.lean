import ClusterScheduler.Cull.UnpackRefinement

/-!
# Unpacking field selections and conditions

A field selection is an array that a count from the wire gives the size of, and a condition is a
tree. Both are read from a buffer in memory.

* `lFreeWhat` — goes through an array up to its end mark, wherever that is.
* `cullUnpackEnum`, `cullUnpackCond` — the selection and the condition.
* `WhatBytes`, `CountWraps` — complete selections as bytes, and bytes of which a count is the
  largest 32 bit number.
* `takesWhat` — the selection is read within its arrays, or such a count is met.
* `selection_tolerated_iff` — bytes are tolerated unless such a count is met.
-/

namespace ClusterScheduler.Cull.InMemory

open Foundation

/-! ## Field selections -/

/-- A field, with the selection for its elements. No name and no data type mark the end. -/
structure LEnumeration where
  pos : ℤ
  mt : BitVec 32
  nm : ℤ
  ep : Option (List LEnumeration)

def LEnumeration.zeroed : LEnumeration := ⟨0, 0, 0, none⟩

mutual

def LEnumeration.epFreed : LEnumeration → Bool
  | ⟨_, _, _, none⟩ => true
  | ⟨_, _, _, some enp⟩ => freed enp

def freed : List LEnumeration → Bool
  | [] => false
  | e :: enp => mtGetType e.mt = 0 || e.epFreed && freed enp

end

def lFreeWhat (enp : List LEnumeration) : MemM Unit :=
  if freed enp then return () else throw .outside

/-- An array that was not filled is freed before the error is returned. -/
def orFree {α : Type} (enp : List LEnumeration) (m : MemM α) : MemM α :=
  tryCatch m fun stop =>
    match stop with
    | .code e => do
      lFreeWhat enp
      throw (.code e)
    | stop => throw stop

def packWhatAll : ℕ := 0

def packWhatNone : ℕ := 1

def packWhatArray : ℕ := 2

def whatPos (flag : ℕ) : ℤ :=
  if flag = packWhatAll then -1 else if flag = packWhatNone then -2 else 0

section

variable (ns : NameSpace)

/-- The position, the type and the flags are those of the local type. -/
def LEnumeration.named (nm : ℤ) (e : LEnumeration) : LEnumeration :=
  match ocsCullDescrStaticContaining ns nm with
  | some (type, pos) => { e with pos := pos, mt := type.fields.getD pos 0, nm := nm }
  | none => { e with nm := nm }

/-- `i` fields of the array are filled in. -/
def unpackEnumFields (unpackEnum : MemM (Option (List LEnumeration))) :
    ℕ → ℕ → List LEnumeration → MemM (List LEnumeration)
  | 0, _, enp => return enp
  | n + 1, i, enp => do
    let temp ← orFree enp unpackint
    let enp ← store enp i fun e => { e with pos := (BitVec.ofNat 32 temp).toInt }
    let temp ← orFree enp unpackint
    let enp ← store enp i fun e => { e with mt := BitVec.ofNat 32 temp }
    let temp ← orFree enp unpackint
    let enp ← store enp i fun e => e.named ns (BitVec.ofNat 32 temp).toInt
    let temp ← orFree enp unpackint
    let ep ← if temp = 1 then orFree enp unpackEnum else pure none
    let enp ← store enp i fun e => { e with ep := ep }
    unpackEnumFields unpackEnum n (i + 1) enp

/-- The sum of the count and one is a 32 bit number. -/
def cullUnpackEnumFrom : ℕ → MemM (Option (List LEnumeration))
  | 0 => throw .endless
  | fuel + 1 => do
    let i ← unpackint
    if i = 0 then return none
    else
      let flag ← unpackint
      if flag ≠ packWhatArray then
        return some [⟨whatPos flag, -99, -99, none⟩, ⟨0, 0, -1, none⟩]
      else
        let n ← unpackint
        if maxDescrSize < (n + 1) % 2 ^ 32 then throw (.code .noMem)
        else
          let enp ← unpackEnumFields ns (cullUnpackEnumFrom fuel) n 0
            (List.replicate ((n + 1) % 2 ^ 32) LEnumeration.zeroed)
          let enp ← store enp n fun e => { e with nm := -1, mt := 0, ep := none }
          return some enp

def cullUnpackEnum (fuel : ℕ) : SgePackBuffer → Call (List LEnumeration) :=
  callWith (cullUnpackEnumFrom ns fuel)

/-! ## Conditions -/

def opSubscope : ℕ := 3

/-- EQUAL, NOT_EQUAL, LOWER_EQUAL, LOWER, GREATER_EQUAL, GREATER, BITMASK, STRCASECMP, PATTERNCMP
and HOSTNAMECMP in this order. -/
def opEqual : ℕ := 18

def opHostnamecmp : ℕ := 27

def opAnd : ℕ := 28

def opOr : ℕ := 29

def opNeg : ℕ := 30

def isComparison (op : ℕ) : Prop := op = opSubscope ∨ opEqual ≤ op ∧ op ≤ opHostnamecmp

instance (op : ℕ) : Decidable (isComparison op) := inferInstanceAs (Decidable (_ ∨ _))

end

/-- A comparison of a field with a value or, for lists, a condition, or what is made of other
conditions. `D` is how a value holds descriptors. -/
inductive Condition (D : Type) where
  | cmp (op : ℕ) (pos mt nm : BitVec 32) (val : MultiType D)
  | cmpList (op : ℕ) (pos mt nm : BitVec 32) (cp : Option (Condition D))
  | neg (first : Option (Condition D))
  | log (op : ℕ) (first second : Option (Condition D))

/-- A condition as the receiver holds it. -/
abbrev LCondition := Condition (List DescrEntry)

section

variable (ns : NameSpace)

def cullUnpackCondFrom : ℕ → MemM (Option LCondition)
  | 0 => throw .endless
  | fuel + 1 => do
    let i ← unpackint
    if i = 0 then return none
    else
      let op ← unpackint
      if isComparison op then
        let pos ← unpackint
        let mt ← unpackint
        let nm ← unpackint
        if mtType (BitVec.ofNat 32 mt) = some .list then
          let cp ← cullUnpackCondFrom fuel
          return some (.cmpList op (BitVec.ofNat 32 pos) (BitVec.ofNat 32 mt)
            (BitVec.ofNat 32 nm) cp)
        else
          let val ← cullUnpackSwitch ns fuel (mtType (BitVec.ofNat 32 mt))
          return some (.cmp op (BitVec.ofNat 32 pos) (BitVec.ofNat 32 mt) (BitVec.ofNat 32 nm) val)
      else if op = opNeg then
        let first ← cullUnpackCondFrom fuel
        return some (.neg first)
      else if op = opAnd ∨ op = opOr then
        let first ← cullUnpackCondFrom fuel
        let second ← cullUnpackCondFrom fuel
        return some (.log op first second)
      else throw (.code .format)

def cullUnpackCond (fuel : ℕ) : SgePackBuffer → Call LCondition :=
  callWith (cullUnpackCondFrom ns fuel)

end

/-! ## Selections as bytes -/

def num (i : BitVec 32) : List Byte := packint i.toNat

mutual

/-- A complete selection: none, all or no fields, or a list of them. -/
inductive WhatBytes : List Byte → Prop
  | null : WhatBytes (num 0)
  | whole {i flag : BitVec 32} (hi : i ≠ 0) (hflag : flag ≠ 2) : WhatBytes (num i ++ num flag)
  | array {i : BitVec 32} {n : ℕ} {bs : List Byte} (hi : i ≠ 0) (hn : n < 200)
      (fields : FieldBytes n bs) : WhatBytes (num i ++ num 2 ++ num (BitVec.ofNat 32 n) ++ bs)

/-- Complete fields, each one with a selection behind it if the mark says so. -/
inductive FieldBytes : ℕ → List Byte → Prop
  | nil : FieldBytes 0 []
  | leaf {n : ℕ} {pos mt nm mark : BitVec 32} {bs : List Byte} (hmark : mark ≠ 1)
      (fields : FieldBytes n bs) :
      FieldBytes (n + 1) (num pos ++ num mt ++ num nm ++ num mark ++ bs)
  | nested {n : ℕ} {pos mt nm : BitVec 32} {what bs : List Byte} (sub : WhatBytes what)
      (fields : FieldBytes n bs) :
      FieldBytes (n + 1) (num pos ++ num mt ++ num nm ++ num 1 ++ what ++ bs)

end

mutual

/-- Bytes that are read up to a count that gives zero with one more. -/
inductive CountWraps : List Byte → Prop
  | here {i : BitVec 32} {rest : List Byte} (hi : i ≠ 0) :
      CountWraps (num i ++ num 2 ++ num (BitVec.allOnes 32) ++ rest)
  | inside {i : BitVec 32} {n : ℕ} {bs : List Byte} (hi : i ≠ 0) (hn : n < 200)
      (fields : FieldWraps n bs) :
      CountWraps (num i ++ num 2 ++ num (BitVec.ofNat 32 n) ++ bs)

/-- It is met in the first field, or in a later one behind a complete one. -/
inductive FieldWraps : ℕ → List Byte → Prop
  | sub {n : ℕ} {pos mt nm : BitVec 32} {bs : List Byte} (sub : CountWraps bs) :
      FieldWraps (n + 1) (num pos ++ num mt ++ num nm ++ num 1 ++ bs)
  | behindLeaf {n : ℕ} {pos mt nm mark : BitVec 32} {bs : List Byte} (hmark : mark ≠ 1)
      (fields : FieldWraps n bs) :
      FieldWraps (n + 1) (num pos ++ num mt ++ num nm ++ num mark ++ bs)
  | behindNested {n : ℕ} {pos mt nm : BitVec 32} {what bs : List Byte} (sub : WhatBytes what)
      (fields : FieldWraps n bs) :
      FieldWraps (n + 1) (num pos ++ num mt ++ num nm ++ num 1 ++ what ++ bs)

end

/-! ## Numbers at the position -/

section

variable {pb : SgePackBuffer}

theorem length_num (i : BitVec 32) : (num i).length = 4 := length_beBytes 4 _

theorem run_unpackint_num (hpb : pb.Sound) {i : BitVec 32} {r : List Byte}
    (h : pb.rest = num i ++ r) :
    ∃ pb', unpackint.run pb = .ok (i.toNat, pb') ∧ pb'.Sound ∧ pb'.rest = r := by
  have hread : Cull.unpackint.run pb.view = .ok (i.toNat, r, pb.table) := by
    rw [SgePackBuffer.view, h]
    exact reads_unpackint i.isLt r
  rcases safe_iff.mp (readsAs_unpackint pb hpb le_rfl) with
    ⟨a, pb', hrun, hp, hpb', -⟩ | ⟨e, -, hp⟩
  · obtain ⟨rfl, hview⟩ := Prod.mk.inj (Except.ok.inj (hread.symm.trans hp))
    exact ⟨pb', hrun, hpb', (Prod.mk.inj hview).1.symm⟩
  · exact absurd (hread.symm.trans hp) (by simp)

theorem unpackint_cases (hpb : pb.Sound) : unpackint.run pb = .error (.code .format) ∨
    ∃ (i : BitVec 32) (r : List Byte), pb.rest = num i ++ r := by
  by_cases hshort : pb.rest.length < 4
  · have hread : Cull.unpackint.run pb.view = .error .format := run_takeBe_short hshort
    rcases safe_iff.mp (readsAs_unpackint pb hpb le_rfl) with
      ⟨a, pb', -, hp, -⟩ | ⟨e, hrun, hp⟩
    · exact absurd (hread.symm.trans hp) (by simp)
    · obtain rfl := Except.error.inj (hread.symm.trans hp)
      exact Or.inl hrun
  · have hlen : (pb.rest.take 4).length = 4 := List.length_take_of_le (by omega)
    have hlt : ofBeBytes (pb.rest.take 4) < 2 ^ 32 := by
      have hbytes := ofBeBytes_lt (pb.rest.take 4)
      rwa [hlen] at hbytes
    refine Or.inr ⟨BitVec.ofNat 32 (ofBeBytes (pb.rest.take 4)), pb.rest.drop 4, ?_⟩
    have hnum := beBytes_ofBeBytes (pb.rest.take 4)
    rw [hlen] at hnum
    rw [num, BitVec.toNat_ofNat, Nat.mod_eq_of_lt hlt, packint, hnum, List.take_append_drop]

end

/-! ## Arrays that are being filled -/

section

variable {σ : Type} {done : List LEnumeration} {e : LEnumeration} {enp : List LEnumeration}

theorem store_at (change : LEnumeration → LEnumeration) :
    (store (done ++ e :: enp) done.length change : MemM (List LEnumeration)) =
      pure (done ++ change e :: enp) := by
  have hi : done.length < (done ++ e :: enp).length := by simp
  rw [store_eq hi]
  simp

theorem freed_append (hdone : ∀ e ∈ done, e.epFreed = true) (he : mtGetType e.mt = 0) :
    freed (done ++ e :: enp) = true := by
  induction done with
  | nil =>
    rw [List.nil_append, freed, he]
    rfl
  | cons d done ih =>
    obtain ⟨hd, hdone⟩ := List.forall_mem_cons.mp hdone
    rw [List.cons_append, freed, hd, ih hdone]
    simp

/-- Freeing such an array does nothing that can be seen. -/
theorem orFree_eq {α : Type} {m : MemM α} (h : freed enp = true) : orFree enp m = m := by
  funext pb
  change Except.tryCatch (m pb) _ = m pb
  rcases m pb with (_ | _ | e) | r
  · rfl
  · rfl
  · change (lFreeWhat enp >>= fun _ => throw (.code e) : MemM α) pb = _
    rw [lFreeWhat, if_pos h]
    rfl
  · rfl

/-- The selections that are returned can be freed. -/
def FreedResult (enp : Option (List LEnumeration)) : Prop := ∀ e ∈ enp, freed e = true

theorem epFreed_of_result (h : FreedResult e.ep) : e.epFreed = true := by
  obtain ⟨pos, mt, nm, ep⟩ := e
  cases ep with
  | none => rw [LEnumeration.epFreed]
  | some enp =>
    rw [LEnumeration.epFreed]
    exact h enp rfl

end

/-! ## Runs on the bytes of a selection -/

section

variable {ns : NameSpace} {pb : SgePackBuffer}

theorem freedResult_none : FreedResult none := fun e he => absurd he (Option.not_mem_none e)

theorem freedResult_whole (flag : BitVec 32) :
    FreedResult (some [⟨whatPos flag.toNat, -99, -99, none⟩, ⟨0, 0, -1, none⟩]) := fun e he => by
  obtain rfl := Option.mem_some.mp he
  have hfirst : ∀ d ∈ [(⟨whatPos flag.toNat, -99, -99, none⟩ : LEnumeration)],
      d.epFreed = true := by
    intro d hd
    rw [List.mem_singleton.mp hd]
    exact epFreed_of_result freedResult_none
  exact freed_append hfirst rfl

theorem freedResult_array {done : List LEnumeration} (hdone : ∀ e ∈ done, e.epFreed = true) :
    FreedResult (some (done ++ [⟨0, 0, -1, none⟩])) := fun e he => by
  obtain rfl := Option.mem_some.mp he
  exact freed_append hdone rfl

def namedEntry (ns : NameSpace) (pos mt nm : BitVec 32) (ep : Option (List LEnumeration)) :
    LEnumeration :=
  (⟨pos.toInt, mt, 0, ep⟩ : LEnumeration).named ns nm.toInt

theorem named_ep (nm : ℤ) (e : LEnumeration) : (e.named ns nm).ep = e.ep := by
  rw [LEnumeration.named]
  split <;> rfl

theorem namedEntry_ep (pos mt nm : BitVec 32) (ep : Option (List LEnumeration)) :
    { namedEntry ns pos mt nm none with ep := ep } = namedEntry ns pos mt nm ep := by
  rw [namedEntry, namedEntry, LEnumeration.named, LEnumeration.named]
  split <;> rfl

variable {sub : MemM (Option (List LEnumeration))} {done : List LEnumeration}

def filled (done : List LEnumeration) (n : ℕ) : List LEnumeration :=
  done ++ List.replicate (n + 1) LEnumeration.zeroed

theorem unpackEnumFields_succ (n : ℕ) (hdone : ∀ e ∈ done, e.epFreed = true) :
    unpackEnumFields ns sub (n + 1) done.length (filled done (n + 1)) = (do
      let pos ← unpackint
      let mt ← unpackint
      let nm ← unpackint
      let mark ← unpackint
      let ep ← if mark = 1 then sub else pure none
      unpackEnumFields ns sub n (done.length + 1)
        (filled (done ++ [namedEntry ns (BitVec.ofNat 32 pos) (BitVec.ofNat 32 mt)
          (BitVec.ofNat 32 nm) ep]) n)) := by
  have hfree : ∀ e, e.epFreed = true →
      freed (done ++ e :: List.replicate (n + 1) LEnumeration.zeroed) = true := fun e he => by
    rw [List.append_cons, List.replicate_succ]
    refine freed_append (fun d hd => ?_) rfl
    rcases List.mem_append.mp hd with hd | hd
    · exact hdone d hd
    · exact List.mem_singleton.mp hd ▸ he
  have hnamed : ∀ pos mt nm : BitVec 32, (namedEntry ns pos mt nm none).epFreed = true :=
    fun pos mt nm => epFreed_of_result (by rw [namedEntry, named_ep]; exact freedResult_none)
  have hstore : ∀ (pos mt nm : BitVec 32) ep,
      (store (done ++ namedEntry ns pos mt nm none :: List.replicate (n + 1) LEnumeration.zeroed)
        done.length fun e => { e with ep := ep } : MemM (List LEnumeration)) =
      pure (filled (done ++ [namedEntry ns pos mt nm ep]) n) := fun pos mt nm ep => by
    rw [store_at, filled, List.append_assoc, List.singleton_append, namedEntry_ep]
  rw [unpackEnumFields, filled, List.replicate_succ,
    orFree_eq (hfree _ (epFreed_of_result freedResult_none))]
  refine congrArg _ (funext fun pos => ?_)
  rw [store_at, pure_bind, orFree_eq (hfree _ (epFreed_of_result ?_))]
  swap
  · exact freedResult_none
  refine congrArg _ (funext fun mt => ?_)
  rw [store_at, pure_bind, orFree_eq (hfree _ (epFreed_of_result ?_))]
  swap
  · exact freedResult_none
  refine congrArg _ (funext fun nm => ?_)
  rw [store_at, pure_bind]
  change (orFree (done ++ namedEntry ns (BitVec.ofNat 32 pos) (BitVec.ofNat 32 mt)
    (BitVec.ofNat 32 nm) none :: List.replicate (n + 1) LEnumeration.zeroed) unpackint >>=
      fun temp => (do
        let ep ← if temp = 1 then
            orFree (done ++ namedEntry ns (BitVec.ofNat 32 pos) (BitVec.ofNat 32 mt)
              (BitVec.ofNat 32 nm) none :: List.replicate (n + 1) LEnumeration.zeroed) sub
          else pure none
        let enp ← store (done ++ namedEntry ns (BitVec.ofNat 32 pos) (BitVec.ofNat 32 mt)
          (BitVec.ofNat 32 nm) none :: List.replicate (n + 1) LEnumeration.zeroed) done.length
            fun e => { e with ep := ep }
        unpackEnumFields ns sub n (done.length + 1) enp)) = _
  simp only [orFree_eq (hfree _ (hnamed _ _ _)), hstore, pure_bind]

/-! ### Complete selections -/

/-- The reader takes these bytes from the front, and what it returns can be freed. -/
def TakesWhat (m : MemM (Option (List LEnumeration))) (bs : List Byte) : Prop :=
  ∀ (pb : SgePackBuffer) r, pb.Sound → pb.rest = bs ++ r →
    ∃ a pb', m.run pb = .ok (a, pb') ∧ pb'.Sound ∧ pb'.rest = r ∧ FreedResult a

variable {r : List Byte}

/-- The numbers of a field are read, whatever is done with them. -/
theorem run_field {α : Type} {pos mt nm mark : BitVec 32} {f : ℕ → ℕ → ℕ → ℕ → MemM α}
    (hpb : pb.Sound) (h : pb.rest = num pos ++ num mt ++ num nm ++ num mark ++ r) :
    ∃ pb', (do
      let pos ← unpackint
      let mt ← unpackint
      let nm ← unpackint
      let mark ← unpackint
      f pos mt nm mark : MemM α).run pb =
        (f pos.toNat mt.toNat nm.toNat mark.toNat).run pb' ∧ pb'.Sound ∧ pb'.rest = r := by
  simp only [List.append_assoc] at h
  obtain ⟨pb₁, hrun₁, hpb₁, h₁⟩ := run_unpackint_num hpb h
  obtain ⟨pb₂, hrun₂, hpb₂, h₂⟩ := run_unpackint_num hpb₁ h₁
  obtain ⟨pb₃, hrun₃, hpb₃, h₃⟩ := run_unpackint_num hpb₂ h₂
  obtain ⟨pb₄, hrun₄, hpb₄, h₄⟩ := run_unpackint_num hpb₃ h₃
  refine ⟨pb₄, ?_, hpb₄, h₄⟩
  rw [run_bind_of_ok hrun₁, run_bind_of_ok hrun₂, run_bind_of_ok hrun₃, run_bind_of_ok hrun₄]

theorem toNat_eq_one {mark : BitVec 32} : mark.toNat = 1 ↔ mark = 1 :=
  ⟨fun h => BitVec.eq_of_toNat_eq h, fun h => h ▸ rfl⟩

/-- `i` entries of the array are filled, `n` are not, and the one for the end mark is left. -/
def PartFilled (i n : ℕ) (enp : List LEnumeration) : Prop :=
  ∃ done, enp = filled done n ∧ done.length = i ∧ ∀ e ∈ done, e.epFreed = true

theorem partFilled_zero (n : ℕ) : PartFilled 0 n (List.replicate (n + 1) LEnumeration.zeroed) :=
  ⟨[], rfl, rfl, by simp⟩

theorem store_filled (done : List LEnumeration) (change : LEnumeration → LEnumeration) :
    (store (filled done 0) done.length change : MemM (List LEnumeration)) =
      pure (done ++ [change .zeroed]) := store_at change

variable {i n : ℕ} {enp : List LEnumeration}

/-- Four numbers and maybe a selection for the next entry. -/
theorem PartFilled.unpack (ns : NameSpace) (sub : MemM (Option (List LEnumeration)))
    (h : PartFilled i (n + 1) enp) :
    ∃ next : ℕ → ℕ → ℕ → Option (List LEnumeration) → List LEnumeration,
      (∀ pos mt nm ep, FreedResult ep → PartFilled (i + 1) n (next pos mt nm ep)) ∧
      unpackEnumFields ns sub (n + 1) i enp = (do
        let pos ← unpackint
        let mt ← unpackint
        let nm ← unpackint
        let mark ← unpackint
        let ep ← if mark = 1 then sub else pure none
        unpackEnumFields ns sub n (i + 1) (next pos mt nm ep)) := by
  obtain ⟨done, rfl, rfl, hdone⟩ := h
  refine ⟨_, fun pos mt nm ep hep => ⟨_, rfl, by simp, fun e he => ?_⟩,
    unpackEnumFields_succ n hdone⟩
  rcases List.mem_append.mp he with he | he
  · exact hdone e he
  · rw [List.mem_singleton.mp he]
    exact epFreed_of_result (by rw [namedEntry, named_ep]; exact hep)

variable {bs : List Byte}

theorem run_fieldBytes (hbs : FieldBytes n bs)
    (hsub : ∀ what, what.length < bs.length → WhatBytes what → TakesWhat sub what)
    (henp : PartFilled i n enp) (hpb : pb.Sound) (h : pb.rest = bs ++ r) :
    ∃ enp' pb', (unpackEnumFields ns sub n i enp).run pb = .ok (enp', pb') ∧ pb'.Sound ∧
      pb'.rest = r ∧ PartFilled (i + n) 0 enp' := by
  induction n generalizing i enp bs pb with
  | zero =>
    cases hbs
    exact ⟨enp, pb, rfl, hpb, h, henp⟩
  | succ n ih =>
    obtain ⟨next, hnext, hunpack⟩ := henp.unpack ns sub
    rw [hunpack, ← Nat.add_assoc, Nat.add_right_comm]
    cases hbs with
    | leaf hmark fields =>
      rw [List.append_assoc _ _ r] at h
      obtain ⟨pb', hrun, hpb', h'⟩ := run_field hpb h
      rw [hrun, if_neg (toNat_eq_one.not.mpr hmark), pure_bind]
      refine ih fields (fun what hlen => hsub what ?_) (hnext _ _ _ _ freedResult_none) hpb' h'
      simp only [List.length_append, length_num]
      omega
    | @nested _ pos mt nm what bs hwhat fields =>
      have hlong : what.length < (num pos ++ num mt ++ num nm ++ num 1 ++ what ++ bs).length ∧
          bs.length < (num pos ++ num mt ++ num nm ++ num 1 ++ what ++ bs).length := by
        simp only [List.length_append, length_num]
        omega
      rw [List.append_assoc _ _ r, List.append_assoc _ what] at h
      obtain ⟨pb', hrun, hpb', h'⟩ := run_field hpb h
      obtain ⟨ep, pb₁, hrun₁, hpb₁, h₁, hep⟩ :=
        hsub what hlong.1 hwhat pb' (bs ++ r) hpb' h'
      rw [hrun, if_pos (toNat_eq_one.mpr rfl), run_bind_of_ok hrun₁]
      exact ih fields (fun what hlen => hsub what (hlen.trans hlong.2)) (hnext _ _ _ _ hep)
        hpb₁ h₁

theorem toNat_eq_array {flag : BitVec 32} : flag.toNat = packWhatArray ↔ flag = 2 :=
  ⟨fun h => BitVec.eq_of_toNat_eq h, fun h => h ▸ rfl⟩

theorem toNat_eq_zero {i : BitVec 32} : i.toNat = 0 ↔ i = 0 :=
  ⟨fun h => BitVec.eq_of_toNat_eq h, fun h => h ▸ rfl⟩

theorem toNat_count (hn : n < 200) : (BitVec.ofNat 32 n).toNat = n := by
  rw [BitVec.toNat_ofNat]
  exact Nat.mod_eq_of_lt (by omega)

theorem run_arrayHead (ns : NameSpace) (fuel : ℕ) {i n : BitVec 32} (hpb : pb.Sound) (hi : i ≠ 0)
    (h : pb.rest = num i ++ num 2 ++ num n ++ r) :
    ∃ pb', pb'.Sound ∧ pb'.rest = r ∧ (cullUnpackEnumFrom ns (fuel + 1)).run pb = (
      if maxDescrSize < (n.toNat + 1) % 2 ^ 32 then throw (.code .noMem)
      else do
        let enp ← unpackEnumFields ns (cullUnpackEnumFrom ns fuel) n.toNat 0
          (List.replicate ((n.toNat + 1) % 2 ^ 32) LEnumeration.zeroed)
        let enp ← store enp n.toNat fun e => { e with nm := -1, mt := 0, ep := none }
        return some enp : MemM (Option (List LEnumeration))).run pb' := by
  simp only [List.append_assoc] at h
  obtain ⟨pb₁, hrun₁, hpb₁, h₁⟩ := run_unpackint_num hpb h
  obtain ⟨pb₂, hrun₂, hpb₂, h₂⟩ := run_unpackint_num hpb₁ h₁
  obtain ⟨pb₃, hrun₃, hpb₃, h₃⟩ := run_unpackint_num hpb₂ h₂
  refine ⟨pb₃, hpb₃, h₃, ?_⟩
  rw [cullUnpackEnumFrom, run_bind_of_ok hrun₁, if_neg (mt toNat_eq_zero.mp hi),
    run_bind_of_ok hrun₂, if_neg (not_not.mpr (toNat_eq_array.mpr rfl)), run_bind_of_ok hrun₃]

variable {fuel : ℕ}

theorem takesWhat (ns : NameSpace) (hbs : WhatBytes bs) (hfuel : bs.length < fuel) :
    TakesWhat (cullUnpackEnumFrom ns fuel) bs := by
  induction fuel generalizing bs with
  | zero => exact absurd hfuel (Nat.not_lt_zero _)
  | succ fuel ih =>
    intro pb r hpb h
    cases hbs with
    | null =>
      obtain ⟨pb₁, hrun₁, hpb₁, h₁⟩ := run_unpackint_num hpb h
      refine ⟨none, pb₁, ?_, hpb₁, h₁, freedResult_none⟩
      rw [cullUnpackEnumFrom, run_bind_of_ok hrun₁]
      rfl
    | @whole i flag hi hflag =>
      rw [List.append_assoc] at h
      obtain ⟨pb₁, hrun₁, hpb₁, h₁⟩ := run_unpackint_num hpb h
      obtain ⟨pb₂, hrun₂, hpb₂, h₂⟩ := run_unpackint_num hpb₁ h₁
      refine ⟨some [⟨whatPos flag.toNat, -99, -99, none⟩, ⟨0, 0, -1, none⟩], pb₂, ?_, hpb₂, h₂, ?_⟩
      · rw [cullUnpackEnumFrom, run_bind_of_ok hrun₁, if_neg (mt toNat_eq_zero.mp hi),
          run_bind_of_ok hrun₂, if_pos (mt toNat_eq_array.mp hflag)]
        rfl
      · exact freedResult_whole flag
    | @array i n bs hi hn fields =>
      rw [List.append_assoc _ bs] at h
      obtain ⟨pb', hpb', h', hhead⟩ := run_arrayHead ns fuel hpb hi h
      obtain ⟨enp, pb'', hrun, hpb'', h'', done, rfl, hlen, hdone⟩ :=
        run_fieldBytes fields
          (fun what hlen hwhat => ih hwhat (by
            simp only [List.length_append, length_num] at hfuel
            omega)) (partFilled_zero n) hpb' h'
      rw [Nat.zero_add] at hlen
      refine ⟨some (done ++ [⟨0, 0, -1, none⟩]), pb'', ?_, hpb'', h'', ?_⟩
      · rw [hhead, toNat_count hn, if_neg (by rw [maxDescrSize]; omega),
          Nat.mod_eq_of_lt (by omega : n + 1 < 2 ^ 32)]
        rw [run_bind_of_ok hrun, ← hlen, store_filled]
        rfl
      · exact freedResult_array hdone

/-! ### Counts that wrap -/

/-- The reader leaves the memory if such a count is among the bytes. -/
def LeavesAt (m : MemM (Option (List LEnumeration))) (bs : List Byte) : Prop :=
  ∀ pb : SgePackBuffer, pb.Sound → pb.rest = bs → m.run pb = .error .outside

theorem run_fieldWraps (hbs : FieldWraps n bs)
    (htakes : ∀ what, what.length < bs.length → WhatBytes what → TakesWhat sub what)
    (hleaves : ∀ what, what.length < bs.length → CountWraps what → LeavesAt sub what)
    (henp : PartFilled i n enp) (hpb : pb.Sound) (h : pb.rest = bs) :
    (unpackEnumFields ns sub n i enp).run pb = .error .outside := by
  induction n generalizing i enp bs pb with
  | zero => exact nomatch hbs
  | succ n ih =>
    obtain ⟨next, hnext, hunpack⟩ := henp.unpack ns sub
    rw [hunpack]
    cases hbs with
    | @sub _ pos mt nm bs hwraps =>
      obtain ⟨pb', hrun, hpb', h'⟩ := run_field hpb h
      rw [hrun, if_pos (toNat_eq_one.mpr rfl)]
      refine run_bind_of_error (hleaves bs ?_ hwraps pb' hpb' h')
      simp only [List.length_append, length_num]
      omega
    | @behindLeaf _ pos mt nm mark bs hmark fields =>
      have hlong : bs.length < (num pos ++ num mt ++ num nm ++ num mark ++ bs).length := by
        simp only [List.length_append, length_num]
        omega
      obtain ⟨pb', hrun, hpb', h'⟩ := run_field hpb h
      rw [hrun, if_neg (toNat_eq_one.not.mpr hmark), pure_bind]
      exact ih fields (fun what hlen => htakes what (hlen.trans hlong))
        (fun what hlen => hleaves what (hlen.trans hlong)) (hnext _ _ _ _ freedResult_none)
        hpb' h'
    | @behindNested _ pos mt nm what bs hwhat fields =>
      have hlong : what.length < (num pos ++ num mt ++ num nm ++ num 1 ++ what ++ bs).length ∧
          bs.length < (num pos ++ num mt ++ num nm ++ num 1 ++ what ++ bs).length := by
        simp only [List.length_append, length_num]
        omega
      rw [List.append_assoc _ what] at h
      obtain ⟨pb', hrun, hpb', h'⟩ := run_field hpb h
      obtain ⟨ep, pb₁, hrun₁, hpb₁, h₁, hep⟩ := htakes what hlong.1 hwhat pb' bs hpb' h'
      rw [hrun, if_pos (toNat_eq_one.mpr rfl), run_bind_of_ok hrun₁]
      exact ih fields (fun what hlen => htakes what (hlen.trans hlong.2))
        (fun what hlen => hleaves what (hlen.trans hlong.2)) (hnext _ _ _ _ hep) hpb₁ h₁

/-- An array without entries: the first number is stored outside, or the array is freed. -/
theorem run_noEntries (hpb : pb.Sound) (n : ℕ) :
    (unpackEnumFields ns sub (n + 1) 0 []).run pb = .error .outside := by
  have hread : (orFree [] unpackint).run pb = .error .outside ∨
      ∃ a pb', (orFree [] unpackint).run pb = .ok (a, pb') := by
    change Except.tryCatch (unpackint pb) _ = _ ∨ ∃ a pb', Except.tryCatch (unpackint pb) _ = _
    rcases safe_iff.mp (readsAs_unpackint pb hpb le_rfl) with ⟨a, pb', hrun, -⟩ | ⟨e, hrun, -⟩
    · exact Or.inr ⟨a, pb', by rw [show unpackint pb = _ from hrun]; rfl⟩
    · exact Or.inl (by rw [show unpackint pb = _ from hrun]; rfl)
  rw [unpackEnumFields]
  rcases hread with hrun | ⟨a, pb', hrun⟩
  · exact run_bind_of_error hrun
  · rw [run_bind_of_ok hrun]
    rfl

theorem leavesAt (ns : NameSpace) (hbs : CountWraps bs) (hfuel : bs.length < fuel) :
    LeavesAt (cullUnpackEnumFrom ns fuel) bs := by
  induction fuel generalizing bs with
  | zero => exact absurd hfuel (Nat.not_lt_zero _)
  | succ fuel ih =>
    intro pb hpb h
    cases hbs with
    | here hi =>
      obtain ⟨pb', hpb', -, hhead⟩ := run_arrayHead ns fuel hpb hi h
      rw [hhead, if_neg (by decide)]
      exact run_bind_of_error (run_noEntries hpb' _)
    | @inside i n bs hi hn fields =>
      obtain ⟨pb', hpb', h', hhead⟩ := run_arrayHead ns fuel hpb hi h
      have hshort : bs.length < fuel := by
        simp only [List.length_append, length_num] at hfuel
        omega
      rw [hhead, toNat_count hn, if_neg (by rw [maxDescrSize]; omega),
        Nat.mod_eq_of_lt (by omega : n + 1 < 2 ^ 32)]
      exact run_bind_of_error (run_fieldWraps fields
        (fun what hlen hwhat => takesWhat ns hwhat (hlen.trans hshort))
        (fun what hlen hwraps => ih hwraps (hlen.trans hshort)) (partFilled_zero n) hpb' h')

/-! ### Whatever the bytes are -/

/-- The reader comes to its end, or it leaves the memory and `W` holds. -/
def SafeUnless {α : Type} (W : Prop) (m : MemM α) (pb : SgePackBuffer)
    (post : α → SgePackBuffer → Prop) : Prop :=
  Safe m pb post (fun _ => True) ∨ m.run pb = .error .outside ∧ W

section

variable {α β : Type} {W : Prop} {m : MemM α} {f : α → MemM β} {mid : α → SgePackBuffer → Prop}
  {post : β → SgePackBuffer → Prop}

theorem SafeUnless.bind (h : SafeUnless W m pb mid)
    (hf : ∀ a pb', mid a pb' → SafeUnless W (f a) pb' post) : SafeUnless W (m >>= f) pb post := by
  rcases h with h | ⟨hrun, hW⟩
  · rcases safe_iff.mp h with ⟨a, pb', hrun, hmid⟩ | ⟨e, hrun, -⟩
    · rw [SafeUnless, Safe, run_bind_of_ok hrun]
      exact hf a pb' hmid
    · rw [SafeUnless, Safe, run_bind_of_error hrun]
      exact Or.inl trivial
  · exact Or.inr ⟨run_bind_of_error hrun, hW⟩

theorem SafeUnless.imp {W' : Prop} {mid' : α → SgePackBuffer → Prop} {pb : SgePackBuffer}
    (h : SafeUnless W m pb mid) (hW : W → W') (hmid : ∀ a pb', mid a pb' → mid' a pb') :
    SafeUnless W' m pb mid' :=
  Or.imp (fun h => Safe.imp h hmid fun _ _ => trivial) (And.imp_right hW) h

theorem SafeUnless.unpackint_bind {f : ℕ → MemM β} (hpb : pb.Sound)
    (hf : ∀ (i : BitVec 32) pb', pb'.Sound → pb.rest = num i ++ pb'.rest →
      SafeUnless W (f i.toNat) pb' post) : SafeUnless W (unpackint >>= f) pb post := by
  rcases unpackint_cases hpb with hrun | ⟨i, r, h⟩
  · left
    rw [Safe, run_bind_of_error hrun]
    trivial
  · obtain ⟨pb', hrun, hpb', h'⟩ := run_unpackint_num hpb h
    rw [SafeUnless, Safe, run_bind_of_ok hrun]
    exact hf i pb' hpb' (h'.symm ▸ h)

end

/-- What holds after a selection was read. -/
def AfterWhat (pb : SgePackBuffer) (enp : Option (List LEnumeration)) (pb' : SgePackBuffer) :
    Prop :=
  pb'.Sound ∧ (∃ bs, WhatBytes bs ∧ pb.rest = bs ++ pb'.rest) ∧ FreedResult enp

theorem safeUnless_fields (ns : NameSpace) {L : ℕ}
    (hsub : ∀ pb : SgePackBuffer, pb.Sound → pb.rest.length ≤ L →
      SafeUnless (CountWraps pb.rest) sub pb (AfterWhat pb))
    (henp : PartFilled i n enp) (hpb : pb.Sound) (hL : pb.rest.length ≤ L) :
    SafeUnless (FieldWraps n pb.rest) (unpackEnumFields ns sub n i enp) pb fun enp' pb' =>
      pb'.Sound ∧ (∃ bs, FieldBytes n bs ∧ pb.rest = bs ++ pb'.rest) ∧
        PartFilled (i + n) 0 enp' := by
  induction n generalizing i enp pb with
  | zero => exact Or.inl (Safe.pure ⟨hpb, ⟨[], .nil, rfl⟩, henp⟩)
  | succ n ih =>
    obtain ⟨next, hnext, hunpack⟩ := henp.unpack ns sub
    rw [hunpack, ← Nat.add_assoc, Nat.add_right_comm]
    refine SafeUnless.unpackint_bind hpb fun pos pb₁ hpb₁ h₁ => ?_
    refine SafeUnless.unpackint_bind hpb₁ fun type pb₂ hpb₂ h₂ => ?_
    refine SafeUnless.unpackint_bind hpb₂ fun nm pb₃ hpb₃ h₃ => ?_
    refine SafeUnless.unpackint_bind hpb₃ fun mark pb₄ hpb₄ h₄ => ?_
    have hbytes : pb.rest = num pos ++ num type ++ num nm ++ num mark ++ pb₄.rest := by
      simp only [List.append_assoc, h₁, h₂, h₃, h₄]
    have hlen : pb₄.rest.length ≤ L := by
      rw [hbytes] at hL
      simp only [List.length_append] at hL
      omega
    by_cases hmark : mark = 1
    · subst hmark
      rw [if_pos (toNat_eq_one.mpr rfl)]
      have hwhat := (hsub pb₄ hpb₄ hlen).imp
        (fun hwraps => (hbytes ▸ .sub hwraps : FieldWraps (n + 1) pb.rest)) fun _ _ h => h
      refine hwhat.bind fun ep pb₅ ⟨hpb₅, ⟨what, hwhat, h₅⟩, hep⟩ => ?_
      have hbytes' : pb.rest = num pos ++ num type ++ num nm ++ num 1 ++ what ++ pb₅.rest := by
        rw [hbytes, h₅, ← List.append_assoc _ what]
      refine (ih (hnext _ _ _ _ hep) hpb₅ ?_).imp ?_ ?_
      · rw [h₅, List.length_append] at hlen
        omega
      · exact fun hwraps => hbytes' ▸ .behindNested hwhat hwraps
      · rintro enp' pb' ⟨hpb', ⟨bs, hbs, h'⟩, henp'⟩
        refine ⟨hpb', ⟨num pos ++ num type ++ num nm ++ num 1 ++ what ++ bs,
          .nested hwhat hbs, ?_⟩, henp'⟩
        rw [hbytes', h', List.append_assoc _ bs]
    · rw [if_neg (toNat_eq_one.not.mpr hmark), pure_bind]
      refine (ih (hnext _ _ _ _ freedResult_none) hpb₄ hlen).imp ?_ ?_
      · exact fun hwraps => hbytes ▸ .behindLeaf hmark hwraps
      · rintro enp' pb' ⟨hpb', ⟨bs, hbs, h'⟩, henp'⟩
        refine ⟨hpb', ⟨num pos ++ num type ++ num nm ++ num mark ++ bs, .leaf hmark hbs, ?_⟩, henp'⟩
        rw [hbytes, h', List.append_assoc _ bs]

theorem safeUnless_what (ns : NameSpace) (hpb : pb.Sound) (hfuel : pb.rest.length < fuel) :
    SafeUnless (CountWraps pb.rest) (cullUnpackEnumFrom ns fuel) pb (AfterWhat pb) := by
  induction fuel generalizing pb with
  | zero => exact absurd hfuel (Nat.not_lt_zero _)
  | succ fuel ih =>
    refine SafeUnless.unpackint_bind hpb fun i pb₁ hpb₁ h₁ => ?_
    by_cases hi : i = 0
    · subst hi
      exact Or.inl (Safe.pure ⟨hpb₁, ⟨num 0, .null, h₁⟩, freedResult_none⟩)
    rw [if_neg (toNat_eq_zero.not.mpr hi)]
    refine SafeUnless.unpackint_bind hpb₁ fun flag pb₂ hpb₂ h₂ => ?_
    by_cases hflag : flag = 2
    swap
    · rw [if_pos (toNat_eq_array.not.mpr hflag)]
      refine Or.inl (Safe.pure ⟨hpb₂, ⟨num i ++ num flag, .whole hi hflag, ?_⟩, ?_⟩)
      · rw [h₁, h₂, List.append_assoc]
      · exact freedResult_whole flag
    subst hflag
    rw [if_neg (not_not.mpr (toNat_eq_array.mpr rfl))]
    refine SafeUnless.unpackint_bind hpb₂ fun n pb₃ hpb₃ h₃ => ?_
    have hbytes : pb.rest = num i ++ num 2 ++ num n ++ pb₃.rest := by
      simp only [List.append_assoc, h₁, h₂, h₃]
    have hlen : pb₃.rest.length < fuel := by
      rw [hbytes] at hfuel
      simp only [List.length_append, length_num] at hfuel
      omega
    by_cases hwraps : n = BitVec.allOnes 32
    · -- an array for no entries
      subst hwraps
      refine Or.inr ⟨?_, hbytes ▸ .here hi⟩
      rw [if_neg (by decide)]
      exact run_bind_of_error (run_noEntries hpb₃ _)
    · have hsum : (n.toNat + 1) % 2 ^ 32 = n.toNat + 1 := by
        have hlt := n.isLt
        have hne : n.toNat ≠ 2 ^ 32 - 1 := fun h => hwraps (BitVec.eq_of_toNat_eq h)
        exact Nat.mod_eq_of_lt (by omega)
      rw [hsum]
      split
      · exact Or.inl trivial
      · case isFalse hmax =>
          have hn : n.toNat < 200 := by rw [maxDescrSize] at hmax; omega
          have hcount : pb.rest = num i ++ num 2 ++ num (BitVec.ofNat 32 n.toNat) ++ pb₃.rest := by
            rw [BitVec.ofNat_toNat, BitVec.setWidth_eq]
            exact hbytes
          have hfields := safeUnless_fields ns (L := pb₃.rest.length)
            (fun pb hpb hL => ih hpb (hL.trans_lt hlen)) (partFilled_zero n.toNat) hpb₃ le_rfl
          have hinside : FieldWraps n.toNat pb₃.rest → CountWraps pb.rest :=
            fun hfields => hcount ▸ .inside hi hn hfields
          refine (hfields.imp hinside fun _ _ h => h).bind fun enp pb'
            ⟨hpb', ⟨bs, hbs, h'⟩, done, hdone, hlen, hfreed⟩ => ?_
          rw [Nat.zero_add] at hlen
          subst hdone
          rw [← hlen, store_filled]
          refine Or.inl (Safe.pure ⟨hpb', ⟨_, .array hi hn hbs, ?_⟩, ?_⟩)
          · rw [hcount, h', ← List.append_assoc]
          · exact freedResult_array hfreed

/-- **Selections from any bytes.** A selection is read within its arrays and within the buffer, and
on an error the pointer is nullptr, unless a count that is reached wraps. -/
theorem selection_tolerated_iff (hpb : pb.Sound) (hfuel : pb.rest.length < fuel) :
    (cullUnpackEnum ns fuel pb).Tolerated ↔ ¬ CountWraps pb.rest := by
  rw [cullUnpackEnum, tolerated_iff]
  constructor
  · intro hsafe hwraps
    rw [Safe, leavesAt ns hwraps hfuel pb hpb rfl] at hsafe
    exact hsafe
  · intro hwraps
    rcases safeUnless_what ns hpb hfuel with hsafe | ⟨-, hcount⟩
    · exact hsafe.imp (fun _ _ _ => trivial) fun _ _ => trivial
    · exact absurd hcount hwraps

end

/-- A selection that is there as a whole has no such count. -/
theorem WhatBytes.not_countWraps {bs r : List Byte} (h : WhatBytes bs) :
    ¬ CountWraps (bs ++ r) := fun hwraps => by
  have hsound := SgePackBuffer.sound_ofBytes (Nat.zero_le (bs ++ r).length)
  obtain ⟨a, pb', hrun, -⟩ := takesWhat ⟨[], .nil⟩ h
    (show bs.length < (bs ++ r).length + 1 by rw [List.length_append]; omega) _ r hsound rfl
  have hleaves := leavesAt ⟨[], .nil⟩ hwraps (Nat.lt_succ_self _) _ hsound rfl
  exact absurd (hrun.symm.trans hleaves) (by simp)

def oneFieldBuffer : SgePackBuffer :=
  .ofBytes (num 1 ++ num 2 ++ num 1 ++ (num 0 ++ num 4 ++ num 7 ++ num 0 ++ [])) 0

theorem selection_tolerated_oneField :
    (cullUnpackEnum (oneType olderCounter) 29 oneFieldBuffer).Tolerated := by
  have hsound : oneFieldBuffer.Sound := SgePackBuffer.sound_ofBytes (Nat.zero_le _)
  have hwhat : WhatBytes (num 1 ++ num 2 ++ num (BitVec.ofNat 32 1) ++
      (num 0 ++ num 4 ++ num 7 ++ num 0 ++ [])) :=
    .array (by decide) (by decide) (.leaf (by decide) .nil)
  have hnone : ¬ CountWraps oneFieldBuffer.rest := by
    have hnone := hwhat.not_countWraps (r := [])
    rwa [List.append_nil] at hnone
  exact (selection_tolerated_iff hsound (Nat.lt_succ_self 28)).mpr hnone

def wrappingBuffer : SgePackBuffer :=
  .ofBytes (num 1 ++ num 2 ++ num (BitVec.allOnes 32) ++ num 0) 0

/-- The first field would go behind the end of an array without entries. -/
example : cullUnpackEnum (oneType olderCounter) 17 wrappingBuffer = .fault := by
  have hsound : wrappingBuffer.Sound := SgePackBuffer.sound_ofBytes (Nat.zero_le _)
  have hwraps : CountWraps wrappingBuffer.rest := .here (by decide)
  rw [cullUnpackEnum, callWith, leavesAt _ hwraps (Nat.lt_succ_self 16) _ hsound rfl]

end ClusterScheduler.Cull.InMemory
