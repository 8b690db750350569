import ClusterScheduler.Foundation.WrappingIds

/-!
# Categories of jobs

Jobs with the same category string share a category, which counts them.

* `attachJob`, `detachJob` — a job joins the category of its string, or leaves the one it names.
* `gdiAddJob`, `gdiModJob`, `buryJob`, `reattachAllJobs` — the operations that call them.
* `CategoriesExact` — the categories stand for the ids that the jobs hold.
* `Written` — nothing fails to be written after a category has changed.
* `references_exact` — in a run without such a failure the categories are exact.

How the string is built is a parameter. Spooling is modelled by its results.
-/

namespace ClusterScheduler.Qmaster

open Foundation

/-! ## Data -/

structure Category where
  id : BitVec 32
  str : String
  refcount : ℕ
  deriving DecidableEq

/-- A job of the master list, as far as categories are concerned. -/
structure CategoryJob (D : Type) where
  number : ℕ
  request : D
  categoryId : BitVec 32
  deriving DecidableEq

structure CategoryState (C D : Type) where
  config : C
  jobs : List (CategoryJob D)
  categories : List Category
  nextId : BitVec 32
  deriving DecidableEq

/-- The results of the verification and of the spooling calls of a submission. Without a
script to write `writesScript` is true. -/
structure Submission where
  verified : Bool
  begins : Bool
  writesScript : Bool
  writes : Bool

/-- A modification of one job. No request when it is refused, and `changesJob` for one of
`PRIO_EVENT` and `MOD_EVENT`. -/
structure Modification (D : Type) where
  number : ℕ
  request : Option D
  verifyOnly : Bool
  changesJob : Bool
  begins : Bool
  writes : Bool

/-! ## Functions of the source -/

def idTaken (categories : List Category) (id : BitVec 32) : Bool :=
  id == 0 || categories.any (·.id == id)

/-- `Category::get_next_id()`. There is no result when no id is left. -/
def getNextId (categories : List Category) (nextId : BitVec 32) :
    Option (BitVec 32 × BitVec 32) :=
  nextFree (idTaken categories) (2 ^ 32) nextId

/-- Replaces the first element that `p` accepts. -/
def replaceFirst {α : Type} (p : α → Bool) (f : α → α) (l : List α) : List α :=
  l.replaceF fun a => if p a then some (f a) else none

/-- Gives the id of the category of a string, which is created when there is none. -/
def attachJob (categories : List Category) (nextId : BitVec 32) (str : String) :
    Option (BitVec 32 × List Category × BitVec 32) :=
  match categories.find? (·.str == str) with
  | some category =>
    some (category.id, replaceFirst (·.str == str)
      (fun c => { c with refcount := c.refcount + 1 }) categories, nextId)
  | none => do
    let (id, nextId) ← getNextId categories nextId
    some (id, categories ++ [⟨id, str, 1⟩], nextId)

/-- There is no result when the assertion that the category exists fails. -/
def detachJob (categories : List Category) (id : BitVec 32) : Option (List Category) :=
  match categories.find? (·.id == id) with
  | none => none
  | some category =>
    if 1 < category.refcount then
      some (replaceFirst (·.id == id) (fun c => { c with refcount := c.refcount - 1 }) categories)
    else some (categories.eraseP (·.id == id))

def reattachJob (categories : List Category) (nextId : BitVec 32) (id : BitVec 32)
    (str : String) : Option (BitVec 32 × List Category × BitVec 32) := do
  let categories ← detachJob categories id
  attachJob categories nextId str

section
variable {C D : Type} (buildString : C → D → String)

/-- The category is changed before the job is written, and stays changed when the job cannot
be written. -/
def gdiAddJob (s : CategoryState C D) (number : ℕ) (request : D) (o : Submission) :
    Option (CategoryState C D) :=
  if !o.verified || !o.begins || !o.writesScript then some s
  else do
    let (id, categories, nextId) ←
      attachJob s.categories s.nextId (buildString s.config request)
    if o.writes then
      some ⟨s.config, s.jobs ++ [⟨number, request, id⟩], categories, nextId⟩
    else some ⟨s.config, s.jobs, categories, nextId⟩

/-- The category of a modified job, and the list of categories. There is no result when the
category of the job does not exist, as its string is read. -/
def modifyCategory (s : CategoryState C D) (job : CategoryJob D) (request : D)
    (changesJob : Bool) : Option (BitVec 32 × List Category × BitVec 32) :=
  if !changesJob then some (job.categoryId, s.categories, s.nextId)
  else
    match s.categories.find? (·.id == job.categoryId) with
    | none => none
    | some old =>
      if old.str ≠ buildString s.config request then
        reattachJob s.categories s.nextId job.categoryId (buildString s.config request)
      else some (job.categoryId, s.categories, s.nextId)

/-- The changes are made to a copy of the job, which replaces it in the end. The list of
categories has no copy. -/
def gdiModJob (s : CategoryState C D) (m : Modification D) : Option (CategoryState C D) :=
  match s.jobs.find? (·.number == m.number), m.request with
  | some job, some request =>
    if m.verifyOnly || !m.begins then some s
    else do
      let (id, categories, nextId) ← modifyCategory buildString s job request m.changesJob
      if m.writes then
        some ⟨s.config, replaceFirst (·.number == m.number)
          (fun job => ⟨job.number, request, id⟩) s.jobs, categories, nextId⟩
      else some ⟨s.config, s.jobs, categories, nextId⟩
  | _, _ => some s

/-- The job leaves the master list. -/
def buryJob (s : CategoryState C D) (number : ℕ) : Option (CategoryState C D) :=
  match s.jobs.find? (·.number == number) with
  | none => some s
  | some job => do
    let categories ← detachJob s.categories job.categoryId
    some { s with jobs := s.jobs.eraseP (·.number == number), categories := categories }

def reattachJobs (config : C) : List (CategoryJob D) → List Category → BitVec 32 →
    Option (List (CategoryJob D) × List Category × BitVec 32)
  | [], categories, nextId => some ([], categories, nextId)
  | job :: jobs, categories, nextId => do
    let (id, categories, nextId) ←
      reattachJob categories nextId job.categoryId (buildString config job.request)
    let (jobs, categories, nextId) ← reattachJobs config jobs categories nextId
    some ({ job with categoryId := id } :: jobs, categories, nextId)

def reattachAllJobs (s : CategoryState C D) : Option (CategoryState C D) := do
  let (jobs, categories, nextId) ← reattachJobs buildString s.config s.jobs s.categories s.nextId
  some ⟨s.config, jobs, categories, nextId⟩

/-! ## Runs -/

inductive CategoryOp (C D : Type) where
  | submit (number : ℕ) (request : D) (o : Submission)
  | modify (m : Modification D)
  | bury (number : ℕ)
  | configure (config : C)
  | reattachAll

def CategoryOp.perform (s : CategoryState C D) : CategoryOp C D → Option (CategoryState C D)
  | submit number request o => gdiAddJob buildString s number request o
  | modify m => gdiModJob buildString s m
  | bury number => buryJob s number
  | configure config => some { s with config := config }
  | reattachAll => reattachAllJobs buildString s

def CategoryOp.Numbered (s : CategoryState C D) : CategoryOp C D → Prop
  | submit number _ _ => 0 < number ∧ number < 2 ^ 32 ∧ ∀ job ∈ s.jobs, job.number ≠ number
  | _ => True

/-- Nothing fails to be written after a category has changed. -/
def CategoryOp.Written (s : CategoryState C D) : CategoryOp C D → Prop
  | submit _ _ o => o.verified = true → o.begins = true → o.writesScript = true → o.writes = true
  | modify m => ∀ job, s.jobs.find? (·.number == m.number) = some job →
      ∀ request, m.request = some request → m.verifyOnly = false → m.begins = true →
      m.changesJob = true → ∀ old, s.categories.find? (·.id == job.categoryId) = some old →
      old.str ≠ buildString s.config request → m.writes = true
  | _ => True

/-- The states of the runs that start without jobs, with `none` for an aborted run. The steps
meet the condition `P`. -/
inductive CategoryRun (P : CategoryState C D → CategoryOp C D → Prop) :
    Option (CategoryState C D) → Prop
  | start (config : C) : CategoryRun P (some ⟨config, [], [], 0⟩)
  | step {s : CategoryState C D} (h : CategoryRun P (some s)) (op : CategoryOp C D)
      (hnumber : op.Numbered s) (hop : P s op) : CategoryRun P (op.perform buildString s)

end

/-! ## Categories and the ids that are held -/

/-- The categories stand for the ids that the jobs hold. -/
structure CategoriesExact (refs : List (BitVec 32)) (categories : List Category) : Prop where
  ids : (categories.map Category.id).Nodup
  strs : (categories.map Category.str).Nodup
  nonzero : ∀ c ∈ categories, c.id ≠ 0
  refcount : ∀ c ∈ categories, c.refcount = refs.count c.id
  pos : ∀ c ∈ categories, 0 < c.refcount
  attached : ∀ id ∈ refs, ∃ c ∈ categories, c.id = id

namespace CategoriesExact

variable {refs refs' : List (BitVec 32)} {categories categories' rest : List Category}
  {c : Category} {n : ℕ} {id : BitVec 32} {str : String}

theorem nil : CategoriesExact [] [] := by
  constructor <;> simp

theorem perm (h : CategoriesExact refs categories) (hrefs : refs.Perm refs')
    (hcategories : categories.Perm categories') : CategoriesExact refs' categories' where
  ids := (hcategories.map _).nodup_iff.mp h.ids
  strs := (hcategories.map _).nodup_iff.mp h.strs
  nonzero := fun c hc => h.nonzero c (hcategories.mem_iff.mpr hc)
  refcount := fun c hc => (h.refcount c (hcategories.mem_iff.mpr hc)).trans (hrefs.count_eq c.id)
  pos := fun c hc => h.pos c (hcategories.mem_iff.mpr hc)
  attached := by
    intro id hid
    obtain ⟨c, hc, hcid⟩ := h.attached id (hrefs.mem_iff.mpr hid)
    exact ⟨c, hcategories.mem_iff.mp hc, hcid⟩

/-- There are no more categories than ids that are held. -/
theorem length_le (h : CategoriesExact refs categories) : categories.length ≤ refs.length := by
  have hsub : categories.map Category.id ⊆ refs := by
    intro id hid
    obtain ⟨c, hc, rfl⟩ := List.mem_map.mp hid
    apply List.count_pos_iff.mp
    rw [← h.refcount c hc]
    exact h.pos c hc
  have hle := (h.ids.subperm hsub).length_le
  rwa [List.length_map] at hle

theorem tail_id_ne (h : CategoriesExact refs (c :: rest)) : ∀ c' ∈ rest, c'.id ≠ c.id := by
  intro c' hc' heq
  have hnodup := List.nodup_cons.mp h.ids
  exact hnodup.1 (heq ▸ List.mem_map_of_mem hc')

/-- The count of one category changes with the number of jobs that hold its id. -/
theorem recount (h : CategoriesExact refs (c :: rest))
    (hother : ∀ id, id ≠ c.id → refs'.count id = refs.count id)
    (hn : refs'.count c.id = n) (hpos : 0 < n) :
    CategoriesExact refs' ({ c with refcount := n } :: rest) where
  ids := h.ids
  strs := h.strs
  nonzero := by
    intro c' hc'
    rcases List.mem_cons.mp hc' with rfl | hc'
    · exact h.nonzero c (.head _)
    · exact h.nonzero c' (.tail _ hc')
  refcount := by
    intro c' hc'
    rcases List.mem_cons.mp hc' with rfl | hc'
    · exact hn.symm
    · rw [hother c'.id (h.tail_id_ne c' hc')]
      exact h.refcount c' (.tail _ hc')
  pos := by
    intro c' hc'
    rcases List.mem_cons.mp hc' with rfl | hc'
    · exact hpos
    · exact h.pos c' (.tail _ hc')
  attached := by
    intro id hid
    by_cases heq : id = c.id
    · exact ⟨_, .head _, heq.symm⟩
    · have hmem : id ∈ refs := by
        apply List.count_pos_iff.mp
        rw [← hother id heq]
        exact List.count_pos_iff.mpr hid
      obtain ⟨c', hc', hcid⟩ := h.attached id hmem
      rcases List.mem_cons.mp hc' with rfl | hc'
      · exact absurd hcid.symm heq
      · exact ⟨c', .tail _ hc', hcid⟩

theorem drop (h : CategoriesExact (c.id :: refs) (c :: rest)) (hn : ¬ 1 < c.refcount) :
    CategoriesExact refs rest := by
  have hzero : refs.count c.id = 0 := by
    have hcount := h.refcount c (.head _)
    rw [List.count_cons_self] at hcount
    omega
  constructor
  · exact (List.nodup_cons.mp h.ids).2
  · exact (List.nodup_cons.mp h.strs).2
  · exact fun c' hc' => h.nonzero c' (.tail _ hc')
  · intro c' hc'
    rw [h.refcount c' (.tail _ hc'),
      List.count_cons_of_ne (h.tail_id_ne c' hc').symm]
  · exact fun c' hc' => h.pos c' (.tail _ hc')
  · intro id hid
    obtain ⟨c', hc', hcid⟩ := h.attached id (.tail _ hid)
    rcases List.mem_cons.mp hc' with rfl | hc'
    · exact absurd (hcid ▸ hid) (List.count_eq_zero.mp hzero)
    · exact ⟨c', hc', hcid⟩

theorem create (h : CategoriesExact refs categories) (hzero : id ≠ 0)
    (hid : id ∉ categories.map Category.id) (hstr : str ∉ categories.map Category.str) :
    CategoriesExact (id :: refs) (⟨id, str, 1⟩ :: categories) := by
  have hnot : id ∉ refs := by
    intro hmem
    obtain ⟨c, hc, rfl⟩ := h.attached id hmem
    exact hid (List.mem_map_of_mem hc)
  constructor
  · exact List.nodup_cons.mpr ⟨hid, h.ids⟩
  · exact List.nodup_cons.mpr ⟨hstr, h.strs⟩
  · intro c hc
    rcases List.mem_cons.mp hc with rfl | hc
    · exact hzero
    · exact h.nonzero c hc
  · intro c hc
    rcases List.mem_cons.mp hc with rfl | hc
    · rw [List.count_cons_self, List.count_eq_zero.mpr hnot]
    · have hne : id ≠ c.id := fun heq => hid (heq ▸ List.mem_map_of_mem hc)
      rw [List.count_cons_of_ne hne]
      exact h.refcount c hc
  · intro c hc
    rcases List.mem_cons.mp hc with rfl | hc
    · exact Nat.one_pos
    · exact h.pos c hc
  · intro id' hid'
    rcases List.mem_cons.mp hid' with rfl | hid'
    · exact ⟨_, .head _, rfl⟩
    · obtain ⟨c, hc, hcid⟩ := h.attached id' hid'
      exact ⟨c, .tail _ hc, hcid⟩

end CategoriesExact

/-! ## Attaching and detaching -/

/-- The first element that `p` accepts, and what it is replaced or removed in. -/
theorem exists_split_of_find {α : Type} {p : α → Bool} {l : List α} {a : α}
    (h : l.find? p = some a) : ∃ as bs, l = as ++ a :: bs ∧ p a = true ∧
      (∀ f, replaceFirst p f l = as ++ f a :: bs) ∧ l.eraseP p = as ++ bs := by
  induction l with
  | nil => exact absurd h (by simp)
  | cons b l ih =>
    cases hb : p b with
    | true =>
      rw [List.find?_cons_of_pos hb] at h
      cases h
      exact ⟨[], l, rfl, hb, by simp [replaceFirst, hb], by simp [hb]⟩
    | false =>
      rw [List.find?_cons_of_neg (Bool.eq_false_iff.mp hb)] at h
      obtain ⟨as, bs, rfl, hp, hreplace, herase⟩ := ih h
      refine ⟨b :: as, bs, rfl, hp, fun f => ?_, ?_⟩
      · rw [List.cons_append, ← hreplace f]
        simp [replaceFirst, hb]
      · rw [List.cons_append, List.eraseP_cons_of_neg (Bool.eq_false_iff.mp hb), herase]

variable {refs : List (BitVec 32)} {categories : List Category}

theorem getNextId_exact (h : CategoriesExact refs categories) (hlen : refs.length + 1 < 2 ^ 32)
    (nextId : BitVec 32) : ∃ r, getNextId categories nextId = some r ∧ r.1 ≠ 0 ∧
      r.1 ∉ categories.map Category.id := by
  have hused : (0 :: categories.map Category.id).length < 2 ^ 32 := by
    rw [List.length_cons, List.length_map]
    have hle := h.length_le
    omega
  obtain ⟨id, hid⟩ := exists_free hused
  have hfree : ∀ id : BitVec 32, idTaken categories id = false ↔
      id ∉ 0 :: categories.map Category.id := by
    intro id
    rw [idTaken, ← Bool.not_eq_true, not_iff_not, List.mem_cons, List.mem_map, Bool.or_eq_true,
      List.any_eq_true]
    simp only [beq_iff_eq]
  obtain ⟨r, hr⟩ := nextFree_of_free nextId ((hfree id).mpr hid)
  have hnot := (hfree r.1).mp (not_taken_of_nextFree hr)
  rw [List.mem_cons, not_or] at hnot
  exact ⟨r, hr, hnot⟩

/-- **Attaching** a job gives it the id of a category that counts it. -/
theorem attachJob_exact (h : CategoriesExact refs categories) (hlen : refs.length + 1 < 2 ^ 32)
    (nextId : BitVec 32) (str : String) : ∃ id categories' nextId',
      attachJob categories nextId str = some (id, categories', nextId') ∧
        CategoriesExact (id :: refs) categories' := by
  unfold attachJob
  cases hfind : categories.find? (·.str == str) with
  | some category =>
    obtain ⟨as, bs, hsplit, -, hreplace, -⟩ := exists_split_of_find hfind
    refine ⟨_, _, _, rfl, ?_⟩
    rw [hreplace]
    rw [hsplit] at h
    have hcons := h.perm (List.Perm.refl _) List.perm_middle
    apply CategoriesExact.perm _ (List.Perm.refl _) List.perm_middle.symm
    apply hcons.recount
    · exact fun id hne => List.count_cons_of_ne hne.symm
    · rw [List.count_cons_self, ← hcons.refcount category List.mem_cons_self]
    · exact Nat.succ_pos _
  | none =>
    obtain ⟨r, hr, hzero, hid⟩ := getNextId_exact h hlen nextId
    refine ⟨r.1, categories ++ [⟨r.1, str, 1⟩], r.2, ?_, ?_⟩
    · simp only [hr, Option.bind_eq_bind, Option.bind_some]
    · apply CategoriesExact.perm _ (List.Perm.refl _) (List.perm_append_singleton _ _).symm
      apply h.create hzero hid
      intro hstr
      obtain ⟨c, hc, hcstr⟩ := List.mem_map.mp hstr
      exact absurd (beq_iff_eq.mpr hcstr) (List.find?_eq_none.mp hfind c hc)

variable {id : BitVec 32}

/-- **Detaching** finds the category of a job that is counted. -/
theorem detachJob_exact (h : CategoriesExact (id :: refs) categories) :
    ∃ categories', detachJob categories id = some categories' ∧ CategoriesExact refs categories' := by
  unfold detachJob
  cases hfind : categories.find? (·.id == id) with
  | none =>
    obtain ⟨c, hc, hcid⟩ := h.attached id (.head _)
    exact absurd (beq_iff_eq.mpr hcid) (List.find?_eq_none.mp hfind c hc)
  | some category =>
    obtain ⟨as, bs, hsplit, hid, hreplace, herase⟩ := exists_split_of_find hfind
    obtain rfl := beq_iff_eq.mp hid
    rw [hsplit] at h
    have hcons := h.perm (List.Perm.refl _) List.perm_middle
    dsimp only
    split
    next hmany =>
      refine ⟨_, rfl, ?_⟩
      rw [hreplace]
      apply CategoriesExact.perm _ (List.Perm.refl _) List.perm_middle.symm
      apply hcons.recount
      · exact fun id hne => (List.count_cons_of_ne hne.symm).symm
      · rw [hcons.refcount category List.mem_cons_self, List.count_cons_self, Nat.add_sub_cancel]
      · exact Nat.sub_pos_of_lt hmany
    next hone =>
      rw [herase]
      exact ⟨_, rfl, hcons.drop hone⟩

theorem reattachJob_exact (h : CategoriesExact (id :: refs) categories)
    (hlen : refs.length + 1 < 2 ^ 32) (nextId : BitVec 32) (str : String) :
    ∃ id' categories' nextId',
      reattachJob categories nextId id str = some (id', categories', nextId') ∧
        CategoriesExact (id' :: refs) categories' := by
  obtain ⟨categories', hdetach, hexact⟩ := detachJob_exact h
  obtain ⟨id', categories'', nextId', hattach, hexact'⟩ :=
    attachJob_exact hexact hlen nextId str
  refine ⟨id', categories'', nextId', ?_, hexact'⟩
  rw [reattachJob, hdetach, Option.bind_eq_bind, Option.bind_some, hattach]

def refsOf (categories : List Category) (str : String) : ℕ :=
  ((categories.filter (·.str == str)).map (·.refcount)).sum

theorem refsOf_split (as bs : List Category) (c : Category) (str : String) :
    refsOf (as ++ c :: bs) str = refsOf (as ++ bs) str + if c.str = str then c.refcount else 0 := by
  unfold refsOf
  rw [List.filter_append, List.filter_cons, List.filter_append]
  by_cases hstr : c.str = str
  · rw [if_pos (by simpa using hstr), if_pos hstr]
    simp only [List.map_append, List.map_cons, List.sum_append, List.sum_cons]
    omega
  · rw [if_neg (by simpa using hstr), if_neg hstr, Nat.add_zero]

variable {categories' : List Category}

variable {str : String}

theorem refsOf_detachJob {old : Category} (hfind : categories.find? (·.id == id) = some old)
    (hne : old.str ≠ str) (h : detachJob categories id = some categories') :
    refsOf categories' str = refsOf categories str := by
  obtain ⟨as, bs, hsplit, -, hreplace, herase⟩ := exists_split_of_find hfind
  rw [detachJob, hfind] at h
  dsimp only at h
  rw [hreplace, herase] at h
  rw [hsplit, refsOf_split, if_neg hne, Nat.add_zero]
  split_ifs at h with hmany
  · cases h
    rw [refsOf_split, if_neg hne, Nat.add_zero]
  · cases h
    rfl

variable {nextId : BitVec 32}

theorem refsOf_attachJob {nextId' : BitVec 32}
    (h : attachJob categories nextId str = some (id, categories', nextId')) :
    refsOf categories' str = refsOf categories str + 1 := by
  unfold attachJob at h
  cases hfind : categories.find? (·.str == str) with
  | some c =>
    obtain ⟨as, bs, hsplit, hstr, hreplace, -⟩ := exists_split_of_find hfind
    have hstr : c.str = str := by simpa using hstr
    rw [hfind] at h
    obtain ⟨-, hrest⟩ := Prod.mk.inj (Option.some.inj h)
    obtain ⟨rfl, -⟩ := Prod.mk.inj hrest
    rw [hreplace, hsplit, refsOf_split, refsOf_split, if_pos hstr, if_pos hstr, Nat.add_assoc]
  | none =>
    rw [hfind] at h
    obtain ⟨next, -, hrest⟩ := Option.bind_eq_some_iff.mp h
    obtain ⟨-, hrest⟩ := Prod.mk.inj (Option.some.inj hrest)
    obtain ⟨rfl, -⟩ := Prod.mk.inj hrest
    rw [refsOf_split, List.append_nil, if_pos rfl]

/-- **A modification keeps the list of categories** only if the string stays the same. -/
theorem modifyCategory_eq_iff {C D : Type} {buildString : C → D → String} {s : CategoryState C D}
    {job : CategoryJob D} {request : D} {changesJob : Bool}
    (h : modifyCategory buildString s job request changesJob = some (id, categories', nextId)) :
    categories' = s.categories ↔ (changesJob = true → ∀ old,
      s.categories.find? (·.id == job.categoryId) = some old →
        old.str = buildString s.config request) := by
  unfold modifyCategory at h
  cases changesJob with
  | false =>
    obtain ⟨-, hrest⟩ := Prod.mk.inj (Option.some.inj h)
    obtain ⟨rfl, -⟩ := Prod.mk.inj hrest
    exact iff_of_true rfl nofun
  | true =>
    cases hfind : s.categories.find? (·.id == job.categoryId) with
    | none => simp [hfind] at h
    | some old =>
      simp only [hfind, Bool.not_true, Bool.false_eq_true, if_false] at h
      split_ifs at h with hstr
      · refine iff_of_false ?_ fun hsame => hstr (hsame rfl old rfl)
        rintro rfl
        obtain ⟨detached, hdetach, hattach⟩ := Option.bind_eq_some_iff.mp h
        have hcount := refsOf_attachJob hattach
        rw [refsOf_detachJob hfind hstr hdetach] at hcount
        omega
      · obtain ⟨-, hrest⟩ := Prod.mk.inj (Option.some.inj h)
        obtain ⟨rfl, -⟩ := Prod.mk.inj hrest
        refine iff_of_true rfl fun _ old' hold => ?_
        cases hold
        exact not_not.mp hstr

/-! ## The operations -/

variable {C D : Type} {s : CategoryState C D} {op : CategoryOp C D}

/-- The numbers of the jobs are different and have 32 bits, and the categories are exact. -/
structure CategoryInv (s : CategoryState C D) : Prop where
  numbers : (s.jobs.map CategoryJob.number).Nodup
  range : ∀ job ∈ s.jobs, 0 < job.number ∧ job.number < 2 ^ 32
  exact : CategoriesExact (s.jobs.map CategoryJob.categoryId) s.categories

/-- Different positive numbers below a bound are fewer than the bound. -/
theorem length_lt_of_nodup {l : List ℕ} {n : ℕ} (hn : 0 < n) (hl : l.Nodup)
    (h : ∀ x ∈ l, 0 < x ∧ x < n) : l.length < n := by
  have hnodup : (0 :: l).Nodup :=
    List.nodup_cons.mpr ⟨fun hzero => (h 0 hzero).1.ne rfl, hl⟩
  have hsub : 0 :: l ⊆ List.range n := by
    intro x hx
    rcases List.mem_cons.mp hx with rfl | hx
    · exact List.mem_range.mpr hn
    · exact List.mem_range.mpr (h x hx).2
  have hle := (hnodup.subperm hsub).length_le
  rwa [List.length_cons, List.length_range] at hle

theorem CategoryInv.length_lt (h : CategoryInv s) : s.jobs.length < 2 ^ 32 := by
  rw [← List.length_map CategoryJob.number]
  apply length_lt_of_nodup (Nat.two_pow_pos 32) h.numbers
  intro x hx
  obtain ⟨job, hjob, rfl⟩ := List.mem_map.mp hx
  exact h.range job hjob

section
variable (build : C → D → String)

theorem gdiAddJob_inv (h : CategoryInv s) {number : ℕ} {request : D} {o : Submission}
    (hnumber : (CategoryOp.submit number request o : CategoryOp C D).Numbered s)
    (hwritten : (CategoryOp.submit number request o).Written build s) :
    ∃ s', gdiAddJob build s number request o = some s' ∧ CategoryInv s' := by
  unfold gdiAddJob
  split
  next => exact ⟨s, rfl, h⟩
  next hgo =>
    simp only [Bool.or_eq_true, Bool.not_eq_true', not_or, Bool.not_eq_false] at hgo
    obtain ⟨hpos, hlt, hfresh⟩ := hnumber
    have hnumbers : (number :: s.jobs.map CategoryJob.number).Nodup := by
      refine List.nodup_cons.mpr ⟨fun hmem => ?_, h.numbers⟩
      obtain ⟨job, hjob, heq⟩ := List.mem_map.mp hmem
      exact hfresh job hjob heq
    have hlen : (s.jobs.map CategoryJob.categoryId).length + 1 < 2 ^ 32 := by
      rw [List.length_map, ← List.length_map CategoryJob.number, ← List.length_cons]
      apply length_lt_of_nodup (Nat.two_pow_pos 32) hnumbers
      intro x hx
      rcases List.mem_cons.mp hx with rfl | hx
      · exact ⟨hpos, hlt⟩
      · obtain ⟨job, hjob, rfl⟩ := List.mem_map.mp hx
        exact h.range job hjob
    obtain ⟨id, categories, nextId, hattach, hexact⟩ :=
      attachJob_exact h.exact hlen s.nextId (build s.config request)
    rw [hattach, hwritten hgo.1.1 hgo.1.2 hgo.2]
    refine ⟨_, rfl, ?_, ?_, ?_⟩
    · rw [List.map_append]
      exact (List.perm_append_singleton _ _).nodup_iff.mpr hnumbers
    · intro job hjob
      rcases List.mem_append.mp hjob with hjob | hjob
      · exact h.range job hjob
      · obtain rfl := List.mem_singleton.mp hjob
        exact ⟨hpos, hlt⟩
    · rw [List.map_append]
      exact hexact.perm (List.perm_append_singleton _ _).symm (List.Perm.refl _)

variable {job : CategoryJob D}

theorem CategoryInv.split {as bs : List (CategoryJob D)}
    (h : CategoryInv s) (hsplit : s.jobs = as ++ job :: bs) :
    CategoriesExact (job.categoryId :: (as ++ bs).map CategoryJob.categoryId) s.categories ∧
      ((as ++ bs).map CategoryJob.categoryId).length + 1 < 2 ^ 32 := by
  constructor
  · have hexact := h.exact
    rw [hsplit] at hexact
    rw [← List.map_cons]
    exact hexact.perm (List.perm_middle.map _) (List.Perm.refl _)
  · have hlen := h.length_lt
    rw [hsplit, List.length_append, List.length_cons, ← Nat.add_assoc, ← List.length_append]
      at hlen
    rwa [List.length_map]

theorem modifyCategory_exact {others : List (BitVec 32)}
    (h : CategoriesExact (job.categoryId :: others) s.categories)
    (hlen : others.length + 1 < 2 ^ 32) (request : D) (changesJob : Bool) : ∃ id categories nextId,
      modifyCategory build s job request changesJob = some (id, categories, nextId) ∧
        CategoriesExact (id :: others) categories ∧
        ((changesJob = true → ∀ old, s.categories.find? (·.id == job.categoryId) = some old →
          old.str = build s.config request) → categories = s.categories) := by
  unfold modifyCategory
  split
  next => exact ⟨_, _, _, rfl, h, fun _ => rfl⟩
  next hchanges =>
    rw [Bool.not_eq_true', Bool.not_eq_false] at hchanges
    cases hfind : s.categories.find? (·.id == job.categoryId) with
    | none =>
      obtain ⟨c, hc, hcid⟩ := h.attached _ (.head _)
      exact absurd (beq_iff_eq.mpr hcid) (List.find?_eq_none.mp hfind c hc)
    | some old =>
      dsimp only
      split
      next hne =>
        obtain ⟨id, categories, nextId, hreattach, hexact⟩ :=
          reattachJob_exact h hlen s.nextId (build s.config request)
        exact ⟨id, categories, nextId, hreattach, hexact,
          fun hsame => absurd (hsame hchanges old rfl) hne⟩
      next => exact ⟨_, _, _, rfl, h, fun _ => rfl⟩

theorem gdiModJob_inv (h : CategoryInv s) {m : Modification D}
    (hwritten : (CategoryOp.modify m).Written build s) :
    ∃ s', gdiModJob build s m = some s' ∧ CategoryInv s' := by
  unfold gdiModJob
  split
  next job request hfind hrequest =>
    split
    next => exact ⟨s, rfl, h⟩
    next hgo =>
      simp only [Bool.or_eq_true, Bool.not_eq_true', not_or, Bool.not_eq_false,
        Bool.not_eq_true] at hgo
      obtain ⟨as, bs, hsplit, hnumber, hreplace, -⟩ := exists_split_of_find hfind
      obtain ⟨hexact, hlen⟩ := h.split hsplit
      obtain ⟨id, categories, nextId, hmodify, hexact', hsame⟩ :=
        modifyCategory_exact build hexact hlen request m.changesJob
      rw [hmodify]
      by_cases hwrites : m.writes = true
      · have hjobs := hreplace fun job => ⟨job.number, request, id⟩
        refine ⟨_, if_pos hwrites, ?_, ?_, ?_⟩
        · have hnumbers := h.numbers
          rw [hsplit] at hnumbers
          rw [hjobs]
          simpa only [List.map_append, List.map_cons] using hnumbers
        · intro job' hjob'
          rw [hjobs] at hjob'
          rcases List.mem_append.mp hjob' with has | hbs
          · exact h.range job' (hsplit ▸ List.mem_append_left _ has)
          rcases List.mem_cons.mp hbs with rfl | hbs
          · exact h.range job (hsplit ▸ List.mem_append_right _ (.head _))
          · exact h.range job' (hsplit ▸ List.mem_append_right _ (.tail _ hbs))
        · rw [hjobs]
          have hmoved : (id :: (as ++ bs).map CategoryJob.categoryId).Perm
              ((as ++ ⟨job.number, request, id⟩ :: bs).map CategoryJob.categoryId) := by
            rw [List.map_append, List.map_append]
            exact List.perm_middle.symm
          exact hexact'.perm hmoved (List.Perm.refl _)
      · refine ⟨_, if_neg hwrites, h.numbers, h.range, ?_⟩
        have hkept : categories = s.categories := by
          apply hsame
          intro hchanges old hold
          by_contra hne
          exact hwrites (hwritten job hfind request hrequest hgo.1 hgo.2 hchanges old hold hne)
        rw [hkept]
        exact h.exact
  next => exact ⟨s, rfl, h⟩

theorem buryJob_inv (h : CategoryInv s) (number : ℕ) :
    ∃ s', buryJob s number = some s' ∧ CategoryInv s' := by
  unfold buryJob
  cases hfind : s.jobs.find? (·.number == number) with
  | none => exact ⟨s, rfl, h⟩
  | some job =>
    obtain ⟨as, bs, hsplit, -, -, herase⟩ := exists_split_of_find hfind
    obtain ⟨categories, hdetach, hexact⟩ := detachJob_exact (h.split hsplit).1
    dsimp only
    rw [hdetach, herase]
    refine ⟨_, rfl, ?_, ?_, hexact⟩
    · have hnumbers := h.numbers
      rw [hsplit] at hnumbers
      exact hnumbers.sublist ((List.sublist_cons_self job bs).append_left as |>.map _)
    · intro job' hjob'
      apply h.range
      rw [hsplit]
      exact ((List.sublist_cons_self job bs).append_left as).subset hjob'

theorem reattachJobs_exact (config : C) (jobs : List (CategoryJob D)) (others : List (BitVec 32))
    {categories : List Category} (nextId : BitVec 32)
    (h : CategoriesExact (jobs.map CategoryJob.categoryId ++ others) categories)
    (hlen : jobs.length + others.length < 2 ^ 32) : ∃ jobs' categories' nextId',
      reattachJobs build config jobs categories nextId = some (jobs', categories', nextId') ∧
        jobs'.map CategoryJob.number = jobs.map CategoryJob.number ∧
        CategoriesExact (jobs'.map CategoryJob.categoryId ++ others) categories' := by
  induction jobs generalizing categories nextId others with
  | nil => exact ⟨_, _, _, rfl, rfl, h⟩
  | cons job jobs ih =>
    rw [List.length_cons] at hlen
    have hlen' : (jobs.map CategoryJob.categoryId ++ others).length + 1 < 2 ^ 32 := by
      rw [List.length_append, List.length_map]
      omega
    obtain ⟨id, categories', nextId', hreattach, hexact⟩ :=
      reattachJob_exact h hlen' nextId
        (build config job.request)
    obtain ⟨jobs', categories'', nextId'', hrest, hnumbers, hexact'⟩ :=
      ih _ nextId' (hexact.perm List.perm_middle.symm (List.Perm.refl _))
        (by rw [List.length_cons]; omega)
    refine ⟨{ job with categoryId := id } :: jobs', categories'', nextId'', ?_, ?_, ?_⟩
    · simp only [reattachJobs, hreattach, hrest, Option.bind_eq_bind, Option.bind_some]
    · rw [List.map_cons, List.map_cons, hnumbers]
    · exact hexact'.perm List.perm_middle (List.Perm.refl _)

theorem reattachAllJobs_inv (h : CategoryInv s) :
    ∃ s', reattachAllJobs build s = some s' ∧ CategoryInv s' := by
  obtain ⟨jobs, categories, nextId, hreattach, hnumbers, hexact⟩ :=
    reattachJobs_exact build s.config s.jobs [] s.nextId
      (by rw [List.append_nil]; exact h.exact) h.length_lt
  rw [List.append_nil] at hexact
  rw [reattachAllJobs, hreattach]
  refine ⟨_, rfl, ?_, ?_, hexact⟩
  · rw [hnumbers]
    exact h.numbers
  · intro job hjob
    have hmem := List.mem_map_of_mem (f := CategoryJob.number) hjob
    rw [hnumbers] at hmem
    obtain ⟨job', hjob', heq⟩ := List.mem_map.mp hmem
    rw [← heq]
    exact h.range job' hjob'

/-- **One step** that is written keeps the categories exact. -/
theorem perform_inv (h : CategoryInv s) (hnumber : op.Numbered s) (hwritten : op.Written build s) :
    ∃ s', op.perform build s = some s' ∧ CategoryInv s' := by
  cases op with
  | submit number request o => exact gdiAddJob_inv build h hnumber hwritten
  | modify m => exact gdiModJob_inv build h hwritten
  | bury number => exact buryJob_inv h number
  | configure config => exact ⟨_, rfl, h.numbers, h.range, h.exact⟩
  | reattachAll => exact reattachAllJobs_inv build h

/-- In a run without a failure to write after a change of a category, no step aborts, and the
categories are exact in every state. -/
theorem references_exact {o : Option (CategoryState C D)}
    (h : CategoryRun build (fun s op => op.Written build s) o) :
    ∃ s, o = some s ∧ CategoriesExact (s.jobs.map CategoryJob.categoryId) s.categories := by
  have hinv : ∃ s, o = some s ∧ CategoryInv s := by
    induction h with
    | start config => exact ⟨_, rfl, List.nodup_nil, by simp, CategoriesExact.nil⟩
    | step h op hnumber hwritten ih =>
      obtain ⟨s, hs, hinv⟩ := ih
      obtain rfl := Option.some.inj hs
      exact perform_inv build hinv hnumber hwritten
  obtain ⟨s, hs, hinv⟩ := hinv
  exact ⟨s, hs, hinv.exact⟩

end

/-! ## A modification that is not written -/

def requestString (_ : Unit) (request : String) : String := request

def submitted : Submission := ⟨true, true, true, true⟩

def oneJob : CategoryState Unit String :=
  ⟨(), [⟨1, "-l mem=1", 1⟩], [⟨1, "-l mem=1", 1⟩], 2⟩

def notWritten : CategoryState Unit String :=
  ⟨(), [⟨1, "-l mem=1", 1⟩], [⟨2, "-l mem=2", 1⟩], 3⟩

theorem oneJob_reached (P : CategoryState Unit String → CategoryOp Unit String → Prop)
    (hP : P ⟨(), [], [], 0⟩ (.submit 1 "-l mem=1" submitted)) :
    CategoryRun requestString P (some oneJob) := by
  have hstart : CategoryRun requestString P (some ⟨(), [], [], 0⟩) := CategoryRun.start ()
  have hstep := hstart.step (.submit 1 "-l mem=1" submitted)
    ⟨by decide, by decide, by simp⟩ hP
  have hone : CategoryOp.perform requestString ⟨(), [], [], 0⟩
      (.submit 1 "-l mem=1" submitted) = some oneJob := by decide +kernel
  rwa [hone] at hstep

/-- A modification that is written, and the end of the job. -/
theorem references_exact_oneJob : ∃ s, (some ⟨(), [], [], 3⟩ : Option (CategoryState Unit String)) =
    some s ∧ CategoriesExact (s.jobs.map CategoryJob.categoryId) s.categories := by
  apply references_exact requestString
  have hmodify := (oneJob_reached (fun s op => op.Written requestString s)
    fun _ _ _ => rfl).step (.modify ⟨1, some "-l mem=2", false, true, true, true⟩) trivial
    fun _ _ _ _ _ _ _ _ _ _ => rfl
  have htwo : CategoryOp.perform requestString oneJob
      (.modify ⟨1, some "-l mem=2", false, true, true, true⟩) =
        some ⟨(), [⟨1, "-l mem=2", 2⟩], [⟨2, "-l mem=2", 1⟩], 3⟩ := by decide +kernel
  rw [htwo] at hmodify
  have hbury := hmodify.step (.bury 1) trivial trivial
  have hend : CategoryOp.perform requestString
      ⟨(), [⟨1, "-l mem=2", 2⟩], [⟨2, "-l mem=2", 1⟩], 3⟩ (.bury 1) =
        some ⟨(), [], [], 3⟩ := by decide +kernel
  rwa [hend] at hbury

/-- **The assertion fails** at the end of a job whose modification could not be written. -/
theorem not_references_exact : ¬ ∀ o : Option (CategoryState Unit String),
    CategoryRun requestString (fun _ _ => True) o →
      ∃ s, o = some s ∧ CategoriesExact (s.jobs.map CategoryJob.categoryId) s.categories := by
  intro h
  have hmodify := (oneJob_reached (fun _ _ => True) trivial).step
    (.modify ⟨1, some "-l mem=2", false, true, true, false⟩) trivial trivial
  have hlost : CategoryOp.perform requestString oneJob
      (.modify ⟨1, some "-l mem=2", false, true, true, false⟩) = some notWritten := by
    decide +kernel
  rw [hlost] at hmodify
  have hbury := hmodify.step (.bury 1) trivial trivial
  have habort : CategoryOp.perform requestString notWritten (.bury 1) = none := by
    decide +kernel
  rw [habort] at hbury
  obtain ⟨s, hs, -⟩ := h none hbury
  exact absurd hs.symm (Option.some_ne_none s)

end ClusterScheduler.Qmaster
