import Mathlib

/-!
# Writers and readers of a wire format

A writer appends to a buffer, a reader takes from the front of it, and each side keeps a state
that both fill in step.

* `WriteM`, `ReadM` — both can fail.
* `Reads` — a reader takes exactly these bytes, whatever follows them.
* `Inverts` — a reader takes what a writer wrote, and its state follows the writer's.
* `Succeeds` — a writer that does not fail.
* `writeAll`, `writeMarked`, `readMarked` — sequences, and items with a mark in front of each.
* `takeBytes`, `beBytes`, `takeBe` — bytes, and numbers in network byte order.
-/

namespace ClusterScheduler.Foundation

/-! ## Writers and readers -/

universe u

/-- A writer gives the bytes to append. -/
abbrev WriteM (σ ε : Type u) := StateT σ (Except ε)

/-- A reader takes a value from the front of what is left of a buffer. -/
abbrev ReadM (β τ ε : Type u) := StateT (List β × τ) (Except ε)

section

variable {β σ τ ε ε' α α' γ : Type u} {ι : Type*}

variable {b : α'}

/-- On the success of the first part the second one runs. -/
theorem bind_eq_ok {x : Except ε α} {f : α → Except ε α'} :
    x >>= f = .ok b ↔ ∃ a, x = .ok a ∧ f a = .ok b := by
  cases x with
  | error e => exact ⟨nofun, fun ⟨_, h, _⟩ => nomatch h⟩
  | ok a => exact ⟨fun h => ⟨a, rfl, h⟩, fun ⟨_, h, hf⟩ => Except.ok.inj h ▸ hf⟩

variable {s : σ}

theorem run_bind_eq_ok {x : StateT σ (Except ε) α} {f : α → StateT σ (Except ε) α'} {r : α' × σ} :
    (x >>= f).run s = .ok r ↔ ∃ a s', x.run s = .ok (a, s') ∧ (f a).run s' = .ok r := by
  rw [StateT.run_bind, bind_eq_ok, Prod.exists]

theorem run_pure_eq_ok {a : α} {r : α × σ} :
    (pure a : StateT σ (Except ε) α).run s = .ok r ↔ (a, s) = r := by
  exact ⟨fun h => Except.ok.inj h, fun h => congrArg Except.ok h⟩

/-- The reader takes exactly these bytes. -/
def Reads (p : ReadM β τ ε α) (bs : List β) (t : τ) (a : α) (t' : τ) : Prop :=
  ∀ rest, p.run (bs ++ rest, t) = .ok (a, rest, t')

variable {p : ReadM β τ ε α} {bs cs : List β} {t t' t'' : τ} {a : α}

theorem reads_pure : Reads (pure a : ReadM β τ ε α) [] t a t := fun _ => rfl

theorem Reads.bind {f : α → ReadM β τ ε α'} (h : Reads p bs t a t')
    (hf : Reads (f a) cs t' b t'') : Reads (p >>= f) (bs ++ cs) t b t'' := by
  intro rest
  rw [List.append_assoc]
  exact run_bind_eq_ok.mpr ⟨a, _, h (cs ++ rest), hf rest⟩

theorem Reads.bind_nil {f : α → ReadM β τ ε α'} (h : Reads p bs t a t')
    (hf : Reads (f a) [] t' b t'') : Reads (p >>= f) bs t b t'' := by
  have hbind := h.bind hf
  rwa [List.append_nil] at hbind

theorem Reads.get_bind {f : List β × τ → ReadM β τ ε α}
    (h : ∀ rest, (f (bs ++ rest, t)).run (bs ++ rest, t) = .ok (a, rest, t')) :
    Reads (get >>= f) bs t a t' := by
  intro rest
  exact run_bind_eq_ok.mpr ⟨(bs ++ rest, t), _, rfl, h rest⟩

/-! ## Readers that undo writers -/

/-- What the writer wrote is read as `a`, and `T` takes the writer's state to the reader's
before and after. At most `n` bytes are written, and the state left is within the bound `B`, so
that the state before is. -/
def Inverts (n : ℕ) (B : σ → Prop) (T : σ → τ) (w : WriteM σ ε (List β)) (p : ReadM β τ ε' α)
    (a : α) : Prop :=
  ∀ s bs s', w.run s = .ok (bs, s') → bs.length ≤ n → B s' →
    B s ∧ Reads p bs (T s) a (T s')

/-- One after the other. -/
def writeAll : List (WriteM σ ε (List β)) → WriteM σ ε (List β)
  | [] => return []
  | w :: ws => do
    let bs ← w
    let cs ← writeAll ws
    return bs ++ cs

variable {n : ℕ} {B : σ → Prop} {T : σ → τ}

theorem Inverts.mono {w : WriteM σ ε (List β)} {p : ReadM β τ ε' α} {m : ℕ}
    (h : Inverts n B T w p a) (hm : m ≤ n) : Inverts m B T w p a :=
  fun s bs s' hw hlen => h s bs s' hw (hlen.trans hm)

theorem inverts_pure {bs : List β} {p : ReadM β τ ε' α} (h : ∀ t, Reads p bs t a t) :
    Inverts n B T (pure bs : WriteM σ ε (List β)) p a := by
  intro s bs' s' hw _ hB
  obtain ⟨rfl, rfl⟩ := Prod.mk.inj (run_pure_eq_ok.mp hw)
  exact ⟨hB, h (T s)⟩

variable {e : ε}

theorem inverts_throw {p : ReadM β τ ε' α} :
    Inverts n B T (throw e : WriteM σ ε (List β)) p a := nofun

theorem Inverts.nil : Inverts n B T (writeAll [] : WriteM σ ε (List β))
    (pure a : ReadM β τ ε' α) a :=
  inverts_pure fun _ => reads_pure

variable {ws : List (WriteM σ ε (List β))} {f : α → ReadM β τ ε' α'}

theorem Inverts.cons {w : WriteM σ ε (List β)} {p : ReadM β τ ε' α} (hw : Inverts n B T w p a)
    (hws : Inverts n B T (writeAll ws) (f a) b) :
    Inverts n B T (writeAll (w :: ws)) (p >>= f) b := by
  intro s out s' hrun hlen hB
  obtain ⟨bs, s₁, hbs, hrun⟩ := run_bind_eq_ok.mp hrun
  obtain ⟨cs, s₂, hcs, hrun⟩ := run_bind_eq_ok.mp hrun
  obtain ⟨rfl, rfl⟩ := Prod.mk.inj (run_pure_eq_ok.mp hrun)
  rw [List.length_append] at hlen
  obtain ⟨hB₁, hcs⟩ := hws s₁ cs s₂ hcs (by omega) hB
  obtain ⟨hB₀, hbs⟩ := hw s bs s₁ hbs (by omega) hB₁
  exact ⟨hB₀, hbs.bind hcs⟩

/-- Constant bytes in front. What follows has as much less to go. -/
theorem Inverts.emit {p : ReadM β τ ε' α} {pre : List β} (hp : ∀ t, Reads p pre t a t)
    (hws : pre.length ≤ n → Inverts (n - pre.length) B T (writeAll ws) (f a) b) :
    Inverts n B T (writeAll (pure pre :: ws)) (p >>= f) b := by
  intro s out s' hrun hlen hB
  obtain ⟨bs, s₁, hpre, htail⟩ := run_bind_eq_ok.mp hrun
  obtain ⟨rfl, rfl⟩ := Prod.mk.inj (run_pure_eq_ok.mp hpre)
  obtain ⟨cs, s₂, hcs, hout⟩ := run_bind_eq_ok.mp htail
  obtain ⟨rfl, rfl⟩ := Prod.mk.inj (run_pure_eq_ok.mp hout)
  rw [List.length_append] at hlen
  obtain ⟨hB₀, hcs⟩ := hws (by omega) s cs s₂ hcs (by omega) hB
  exact ⟨hB₀, (hp (T s)).bind hcs⟩

theorem Inverts.map {w : WriteM σ ε (List β)} {p : ReadM β τ ε' α} (h : Inverts n B T w p a)
    (hf : ∀ t, Reads (f a) [] t b t) : Inverts n B T w (p >>= f) b := by
  intro s bs s' hw hlen hB
  obtain ⟨hB₀, hbs⟩ := h s bs s' hw hlen hB
  exact ⟨hB₀, hbs.bind_nil (hf (T s'))⟩

theorem inverts_writeAll {κ : Type*} {w : ι → WriteM σ ε (List β)} {p : κ → ReadM β τ ε' α}
    {val : ι → α} {l : List ι} {k : List κ}
    (h : List.Forall₂ (fun x y => Inverts n B T (w x) (p y) (val x)) l k) :
    Inverts n B T (writeAll (l.map w)) (k.mapM p) (l.map val) := by
  induction h with
  | nil => exact inverts_pure fun _ => reads_pure
  | cons hx _ ih =>
    rw [List.mapM_cons]
    exact hx.cons (ih.map fun _ => reads_pure)

/-! ## Items behind marks -/

/-- Items as long as the mark in front says that there is one more. -/
def readWhile (mark : ReadM β τ ε γ) (more : γ → Bool) (item : ReadM β τ ε α) :
    ℕ → ReadM β τ ε (List α)
  | 0 => mark >>= fun _ => return []
  | fuel + 1 => do
    if more (← mark) then
      let x ← item
      let xs ← readWhile mark more item fuel
      return x :: xs
    else return []

/-- A buffer holds no more marks than bytes. -/
def readMarked (mark : ReadM β τ ε γ) (more : γ → Bool) (item : ReadM β τ ε α) :
    ReadM β τ ε (List α) := do
  let b ← get
  readWhile mark more item b.1.length

def writeMarked (yes no : List β) (ws : List (WriteM σ ε (List β))) : WriteM σ ε (List β) := do
  let bs ← writeAll (ws.map fun w => do let cs ← w; return yes ++ cs)
  return bs ++ no

variable {mark : ReadM β τ ε' γ} {more : γ → Bool} {m₁ m₀ : γ} {yes no : List β}
  {w : ι → WriteM σ ε (List β)} {item : ReadM β τ ε' α} {val : ι → α} {l : List ι}

variable {s' : σ}

theorem length_le_of_writeAll {bs : List β} (hyes : yes ≠ [])
    (h : (writeAll (ws.map fun w => do let cs ← w; return yes ++ cs)).run s = .ok (bs, s')) :
    ws.length ≤ bs.length := by
  induction ws generalizing s bs with
  | nil => exact Nat.zero_le _
  | cons w ws ih =>
    obtain ⟨cs, s₁, hcs, htail⟩ := run_bind_eq_ok.mp h
    obtain ⟨es, s₃, hes, hpure⟩ := run_bind_eq_ok.mp hcs
    obtain ⟨rfl, rfl⟩ := Prod.mk.inj (run_pure_eq_ok.mp hpure)
    obtain ⟨ds, s₂, hds, hout⟩ := run_bind_eq_ok.mp htail
    obtain ⟨rfl, rfl⟩ := Prod.mk.inj (run_pure_eq_ok.mp hout)
    have hpos : 0 < yes.length := List.length_pos_iff.mpr hyes
    have hrest := ih hds
    simp only [List.length_cons, List.length_append]
    omega

theorem reads_readWhile (hmore : more m₁ = true) (hless : more m₀ = false)
    (hyes : ∀ t, Reads mark yes t m₁ t) (hno : ∀ t, Reads mark no t m₀ t)
    (h : ∀ x ∈ l, Inverts n B T (w x) item (val x)) {fuel : ℕ} (hfuel : l.length ≤ fuel)
    {bs : List β} (hlen : bs.length ≤ n) (hB : B s')
    (hw : (writeAll ((l.map w).map fun w => do let cs ← w; return yes ++ cs)).run s =
      .ok (bs, s')) :
    B s ∧ Reads (readWhile mark more item fuel) (bs ++ no) (T s) (l.map val) (T s') := by
  induction l generalizing fuel s bs with
  | nil =>
    obtain ⟨rfl, rfl⟩ := Prod.mk.inj (run_pure_eq_ok.mp hw)
    refine ⟨hB, ?_⟩
    cases fuel with
    | zero => exact (hno (T s)).bind_nil reads_pure
    | succ fuel =>
      refine (hno (T s)).bind_nil ?_
      rw [hless]
      exact reads_pure
  | cons x l ih =>
    obtain ⟨hx, hl⟩ := List.forall_mem_cons.mp h
    cases fuel with
    | zero => exact absurd hfuel (by simp)
    | succ fuel =>
      obtain ⟨cs, s₁, hcs, htail⟩ := run_bind_eq_ok.mp hw
      obtain ⟨es, s₃, hes, hpure⟩ := run_bind_eq_ok.mp hcs
      obtain ⟨rfl, rfl⟩ := Prod.mk.inj (run_pure_eq_ok.mp hpure)
      obtain ⟨ds, s₂, hds, hout⟩ := run_bind_eq_ok.mp htail
      obtain ⟨rfl, rfl⟩ := Prod.mk.inj (run_pure_eq_ok.mp hout)
      simp only [List.length_append] at hlen
      obtain ⟨hB₃, hrest⟩ := ih hl (Nat.le_of_succ_le_succ hfuel) (by omega) hds
      obtain ⟨hB₀, hitem⟩ := hx s es s₃ hes (by omega) hB₃
      rw [List.append_assoc, List.append_assoc]
      refine ⟨hB₀, (hyes (T s)).bind ?_⟩
      rw [if_pos hmore]
      exact hitem.bind (hrest.bind_nil reads_pure)

/-- A mark in front of each item and another one behind the last. -/
theorem inverts_readMarked (hne : yes ≠ []) (hmore : more m₁ = true) (hless : more m₀ = false)
    (hyes : ∀ t, Reads mark yes t m₁ t) (hno : ∀ t, Reads mark no t m₀ t)
    (h : ∀ x ∈ l, Inverts n B T (w x) item (val x)) :
    Inverts n B T (writeMarked yes no (l.map w)) (readMarked mark more item) (l.map val) := by
  intro s out s' hw hlen hB
  obtain ⟨bs, s₁, hbs, hw⟩ := run_bind_eq_ok.mp hw
  obtain ⟨rfl, rfl⟩ := Prod.mk.inj (run_pure_eq_ok.mp hw)
  rw [List.length_append] at hlen
  have hmarks : l.length ≤ bs.length := by
    have hle := length_le_of_writeAll hne hbs
    rwa [List.length_map] at hle
  have hloop : ∀ rest : List β, B s ∧
      Reads (readWhile mark more item (bs ++ no ++ rest).length) (bs ++ no) (T s) (l.map val)
        (T s₁) := fun rest =>
    reads_readWhile hmore hless hyes hno h (by simp only [List.length_append]; omega)
      (by omega) hB hbs
  exact ⟨(hloop []).1, Reads.get_bind fun rest => (hloop rest).2 rest⟩

/-! ## Bytes -/

/-- A number of bytes, or the error if there are not enough. -/
def takeBytes (e : ε) (n : ℕ) : ReadM β τ ε (List β) := do
  let b ← get
  if b.1.length < n then throw e
  else
    set (b.1.drop n, b.2)
    return b.1.take n

theorem reads_takeBytes (h : bs.length = n) :
    Reads (takeBytes e n : ReadM β τ ε (List β)) bs t bs t := by
  subst h
  refine Reads.get_bind fun rest => ?_
  rw [if_neg (by simp), List.take_left', List.drop_left']
  · rfl
  · rfl
  · rfl

end

/-! ## Numbers in network byte order -/

abbrev Byte := BitVec 8

instance : LawfulBEq Byte := inferInstance

def beBytes : ℕ → ℕ → List Byte
  | 0, _ => []
  | n + 1, x => BitVec.ofNat 8 (x / 256 ^ n) :: beBytes n x

def ofBeBytes (bs : List Byte) : ℕ := bs.foldl (fun acc b => acc * 256 + b.toNat) 0

@[simp] theorem length_beBytes (n x : ℕ) : (beBytes n x).length = n := by
  induction n with
  | zero => rfl
  | succ n ih => rw [beBytes, List.length_cons, ih]

theorem foldl_beBytes (n x acc : ℕ) :
    (beBytes n x).foldl (fun acc b => acc * 256 + b.toNat) acc =
      acc * 256 ^ n + x % 256 ^ n := by
  induction n generalizing acc with
  | zero => simp [beBytes, Nat.mod_one]
  | succ n ih =>
    have hmod : x % 256 ^ (n + 1) = x % 256 ^ n + 256 ^ n * (x / 256 ^ n % 2 ^ 8) := by
      rw [pow_succ, Nat.mod_mul, show (2 : ℕ) ^ 8 = 256 from rfl]
    rw [beBytes, List.foldl_cons, ih, BitVec.toNat_ofNat, hmod, Nat.pow_succ 256]
    ring

variable {n x : ℕ}

theorem ofBeBytes_beBytes (hx : x < 256 ^ n) : ofBeBytes (beBytes n x) = x := by
  rw [ofBeBytes, foldl_beBytes, Nat.mod_eq_of_lt hx, zero_mul, zero_add]

theorem ofBeBytes_cons (b : Byte) (bs : List Byte) :
    ofBeBytes (b :: bs) = b.toNat * 256 ^ bs.length + ofBeBytes bs := by
  have hfold : ∀ acc, bs.foldl (fun acc b => acc * 256 + b.toNat) acc =
      acc * 256 ^ bs.length + ofBeBytes bs := by
    induction bs with
    | nil => simp [ofBeBytes]
    | cons c bs ih =>
      intro acc
      rw [ofBeBytes, List.foldl_cons, List.foldl_cons, ih, ih, List.length_cons, pow_succ]
      ring
  rw [ofBeBytes, List.foldl_cons, hfold, zero_mul, zero_add]

theorem ofBeBytes_lt (bs : List Byte) : ofBeBytes bs < 256 ^ bs.length := by
  induction bs with
  | nil => exact Nat.one_pos
  | cons b bs ih =>
    have hb : b.toNat + 1 ≤ 256 := b.isLt
    calc ofBeBytes (b :: bs) < (b.toNat + 1) * 256 ^ bs.length := by
          rw [ofBeBytes_cons, add_mul, one_mul]
          exact Nat.add_lt_add_left ih _
      _ ≤ 256 * 256 ^ bs.length := Nat.mul_le_mul_right _ hb
      _ = 256 ^ (b :: bs).length := by rw [List.length_cons, pow_succ, mul_comm]

theorem beBytes_add (n a x : ℕ) : beBytes n (a * 256 ^ n + x) = beBytes n x := by
  induction n generalizing a with
  | zero => rfl
  | succ n ih =>
    have hshift : a * 256 ^ (n + 1) + x = a * 256 * 256 ^ n + x := by ring
    have hbyte : BitVec.ofNat 8 ((a * 256 * 256 ^ n + x) / 256 ^ n) =
        BitVec.ofNat 8 (x / 256 ^ n) := by
      apply BitVec.eq_of_toNat_eq
      rw [add_comm, Nat.add_mul_div_right _ _ (by positivity), BitVec.toNat_ofNat,
        BitVec.toNat_ofNat]
      omega
    rw [beBytes, beBytes, hshift, hbyte, ih]

theorem beBytes_ofBeBytes (bs : List Byte) : beBytes bs.length (ofBeBytes bs) = bs := by
  induction bs with
  | nil => rfl
  | cons b bs ih =>
    have hhead : (b.toNat * 256 ^ bs.length + ofBeBytes bs) / 256 ^ bs.length = b.toNat := by
      rw [add_comm, Nat.add_mul_div_right _ _ (by positivity),
        Nat.div_eq_of_lt (ofBeBytes_lt bs), zero_add]
    rw [ofBeBytes_cons, List.length_cons, beBytes, hhead, beBytes_add, ih, BitVec.ofNat_toNat,
      BitVec.setWidth_eq]

def takeBe {τ ε : Type} (e : ε) (n : ℕ) : ReadM Byte τ ε ℕ := do
  let bs ← takeBytes e n
  return ofBeBytes bs

theorem reads_takeBe {τ ε : Type} {e : ε} {t : τ} (hx : x < 256 ^ n) :
    Reads (takeBe e n) (beBytes n x) t x t := by
  refine (reads_takeBytes (length_beBytes n x)).bind_nil ?_
  rw [ofBeBytes_beBytes hx]
  exact reads_pure

/-! ## Writers that never fail -/

section

variable {σ ε α β : Type u}

/-- The writer never fails. -/
def Succeeds (w : WriteM σ ε α) : Prop := ∀ s, ∃ a s', w.run s = .ok (a, s')

theorem succeeds_pure (a : α) : Succeeds (pure a : WriteM σ ε α) := fun s => ⟨a, s, rfl⟩

theorem Succeeds.bind {w : WriteM σ ε α} {f : α → WriteM σ ε β} (hw : Succeeds w)
    (hf : ∀ a, Succeeds (f a)) : Succeeds (w >>= f) := by
  intro s
  obtain ⟨a, s₁, ha⟩ := hw s
  obtain ⟨b, s₂, hb⟩ := hf a s₁
  exact ⟨b, s₂, run_bind_eq_ok.mpr ⟨a, s₁, ha, hb⟩⟩

theorem succeeds_writeAll {ws : List (WriteM σ ε (List β))} (h : ∀ w ∈ ws, Succeeds w) :
    Succeeds (writeAll ws) := by
  induction ws with
  | nil => exact succeeds_pure []
  | cons w ws ih =>
    obtain ⟨hw, hws⟩ := List.forall_mem_cons.mp h
    exact hw.bind fun bs => (ih hws).bind fun cs => succeeds_pure _

theorem succeeds_writeMarked {yes no : List β} {ws : List (WriteM σ ε (List β))}
    (h : ∀ w ∈ ws, Succeeds w) : Succeeds (writeMarked yes no ws) := by
  refine Succeeds.bind (succeeds_writeAll (List.forall_mem_map.mpr fun w hw => ?_))
    fun bs => succeeds_pure _
  exact (h w hw).bind fun cs => succeeds_pure _

end

end ClusterScheduler.Foundation
