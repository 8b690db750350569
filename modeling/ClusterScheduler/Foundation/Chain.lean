import Mathlib.Data.List.Nodup
import Mathlib.Logic.Function.Basic

/-!
# Doubly linked chains in a heap of nodes

A chain is known by its first and last node; nodes point to both neighbours.

* `Seg` — nodes linked one to the next, with what is before and behind them.
* `IsChain` — a header and the nodes of its chain.
* `isChain_create`, `isChain_append`, `isChain_unlink` — what the operations do;
  `*_frame` — which nodes they leave alone.
-/

namespace ClusterScheduler.Foundation

variable {α : Type*}

structure ChainNode (α : Type*) where
  prev : Option ℕ
  next : Option ℕ
  data : α

structure Header where
  first : Option ℕ
  last : Option ℕ

abbrev Heap (α : Type*) := ℕ → Option (ChainNode α)

/-! ## Operations -/

/-- Change a node, if there is one. -/
def modifyAt (heap : Heap α) (pointer : Option ℕ) (f : ChainNode α → ChainNode α) : Heap α :=
  match pointer with
  | none => heap
  | some n => Function.update heap n ((heap n).map f)

def setNext (heap : Heap α) (pointer next : Option ℕ) : Heap α :=
  modifyAt heap pointer fun node => { node with next := next }

def setPrev (heap : Heap α) (pointer prev : Option ℕ) : Heap α :=
  modifyAt heap pointer fun node => { node with prev := prev }

def chainCreate (heap : Heap α) (n : ℕ) (data : α) : Heap α × Header :=
  (Function.update heap n (some ⟨none, none, data⟩), ⟨some n, some n⟩)

def chainAppend (heap : Heap α) (h : Header) (n : ℕ) (data : α) : Heap α × Header :=
  (setNext (Function.update heap n (some ⟨h.last, none, data⟩)) h.last (some n), ⟨h.first, some n⟩)

/-- Take a node out; the first, the last and an inner one are cases of their own. -/
def chainUnlink (heap : Heap α) (h : Header) (n : ℕ) (node : ChainNode α) :
    Heap α × Header :=
  if h.first = some n then
    if h.last = some n then (heap, ⟨node.next, none⟩)
    else (setPrev heap node.next none, ⟨node.next, h.last⟩)
  else if h.last = some n then (setNext heap node.prev none, ⟨h.first, node.prev⟩)
  else (setPrev (setNext heap node.prev node.next) node.next node.prev, h)

/-! ## Segments -/

/-- The nodes of a list are linked, `p` is before the first and `q` behind the
last of them. -/
def Seg (heap : Heap α) : Option ℕ → List ℕ → Option ℕ → Prop
  | _, [], _ => True
  | p, n :: rest, q =>
    (∃ data, heap n = some ⟨p, rest.head?.or q, data⟩) ∧ Seg heap (some n) rest q

variable {heap heap' : Heap α}

@[simp] theorem modifyAt_none (f : ChainNode α → ChainNode α) :
    modifyAt heap none f = heap := rfl

variable {n : ℕ} {node : ChainNode α}

theorem modifyAt_self (f : ChainNode α → ChainNode α)
    (h : heap n = some node) : modifyAt heap (some n) f n = some (f node) := by
  simp [modifyAt, h]

variable {m : ℕ}

theorem modifyAt_of_ne {pointer : Option ℕ} (f : ChainNode α → ChainNode α)
    (h : pointer ≠ some m) : modifyAt heap pointer f m = heap m := by
  cases pointer with
  | none => rfl
  | some n =>
    refine Function.update_of_ne ?_ _ _
    rintro rfl
    exact h rfl

theorem seg_congr : ∀ {l : List ℕ} {p q : Option ℕ}, (∀ n ∈ l, heap' n = heap n) →
    Seg heap p l q → Seg heap' p l q
  | [], _, _, _, _ => trivial
  | n :: _, _, _, hsame, ⟨⟨data, hn⟩, hrest⟩ =>
    ⟨⟨data, (hsame n (.head _)).trans hn⟩,
      seg_congr (fun m hm => hsame m (.tail _ hm)) hrest⟩

theorem seg_append : ∀ {l l' : List ℕ} {p q : Option ℕ},
    Seg heap p (l ++ l') q ↔
      Seg heap p l (l'.head?.or q) ∧ Seg heap (l.getLast?.or p) l' q
  | [], l', p, q => by simp [Seg]
  | n :: rest, l', p, q => by
      have hhead : (rest ++ l').head?.or q = rest.head?.or (l'.head?.or q) := by
        rw [List.head?_append, Option.or_assoc]
      have hlast : (n :: rest).getLast?.or p = rest.getLast?.or (some n) := by
        cases h : rest.getLast? with
        | none => simp [List.getLast?_eq_none_iff.mp h]
        | some m => simp [List.getLast?_cons, h]
      rw [List.cons_append, Seg, Seg, seg_append, hhead, hlast, and_assoc]

variable {l l' : List ℕ} {p q : Option ℕ}

theorem seg_append_cons :
    Seg heap p (l ++ n :: l') q ↔
      Seg heap p l (some n) ∧
        (∃ data, heap n = some ⟨l.getLast?.or p, l'.head?.or q, data⟩) ∧
        Seg heap (some n) l' q := by
  rw [seg_append, Seg]
  simp

theorem getLast?_ne (hm : m ∉ l) : l.getLast? ≠ some m :=
  fun h => hm (List.mem_of_getLast? h)

theorem head?_ne (hm : m ∉ l) : l.head? ≠ some m :=
  fun h => hm (List.mem_of_head? h)

theorem seg_setNext_last (q' : Option ℕ) (hnodup : l.Nodup)
    (h : Seg heap p l q) : Seg (setNext heap l.getLast? q') p l q' := by
  rcases List.eq_nil_or_concat l with rfl | ⟨front, n, rfl⟩
  · trivial
  · rw [List.concat_eq_append] at h hnodup ⊢
    obtain ⟨hfront, ⟨data, hn⟩, -⟩ := seg_append_cons.mp h
    have hnotin : n ∉ front := fun hmem =>
      (List.nodup_append.mp hnodup).2.2 n hmem n (List.mem_singleton_self n) rfl
    have hlast : (front ++ [n]).getLast? = some n := by simp
    rw [hlast]
    refine seg_append_cons.mpr ⟨seg_congr (fun m hm => ?_) hfront, ⟨data, ?_⟩, trivial⟩
    · refine modifyAt_of_ne _ ?_
      rintro ⟨rfl⟩
      exact hnotin hm
    · rw [setNext, modifyAt_self _ hn]
      simp

theorem seg_setPrev_head (p' : Option ℕ) (hnodup : l.Nodup)
    (h : Seg heap p l q) : Seg (setPrev heap l.head? p') p' l q := by
  cases l with
  | nil => trivial
  | cons n rest =>
    obtain ⟨⟨data, hn⟩, hrest⟩ := h
    have hnotin := (List.nodup_cons.mp hnodup).1
    refine ⟨⟨data, modifyAt_self _ hn⟩, seg_congr (fun m hm => ?_) hrest⟩
    refine modifyAt_of_ne _ ?_
    rintro ⟨rfl⟩
    exact hnotin hm

/-! ## Data of the nodes -/

def dataAt (heap : Heap α) (n : ℕ) : Option α := (heap n).map (·.data)

theorem dataAt_modifyAt (pointer : Option ℕ) {f : ChainNode α → ChainNode α}
    (hf : ∀ node, (f node).data = node.data) (n : ℕ) :
    dataAt (modifyAt heap pointer f) n = dataAt heap n := by
  by_cases h : pointer = some n
  · subst h
    cases hn : heap n with
    | none => simp [dataAt, modifyAt, hn]
    | some node => rw [dataAt, modifyAt_self f hn, dataAt, hn, Option.map_some, hf, Option.map_some]
  · rw [dataAt, modifyAt_of_ne f h, dataAt]

@[simp] theorem dataAt_setNext (pointer next : Option ℕ) (n : ℕ) :
    dataAt (setNext heap pointer next) n = dataAt heap n := by
  rw [setNext, dataAt_modifyAt]
  exact fun _ => rfl

@[simp] theorem dataAt_setPrev (pointer prev : Option ℕ) (n : ℕ) :
    dataAt (setPrev heap pointer prev) n = dataAt heap n := by
  rw [setPrev, dataAt_modifyAt]
  exact fun _ => rfl

/-! ## Chains -/

structure IsChain (heap : Heap α) (h : Header) (l : List ℕ) : Prop where
  first : h.first = l.head?
  last : h.last = l.getLast?
  nodup : l.Nodup
  linked : Seg heap none l none

variable {h : Header}

theorem IsChain.congr (hc : IsChain heap h l)
    (hsame : ∀ n ∈ l, heap' n = heap n) : IsChain heap' h l where
  first := hc.first
  last := hc.last
  nodup := hc.nodup
  linked := seg_congr hsame hc.linked

theorem IsChain.next (hc : IsChain heap h (l ++ n :: l')) :
    ∃ data, heap n = some ⟨l.getLast?, l'.head?, data⟩ := by
  obtain ⟨-, ⟨data, hn⟩, -⟩ := seg_append_cons.mp hc.linked
  exact ⟨data, by simpa using hn⟩

theorem isChain_create (heap : Heap α) (n : ℕ) (data : α) :
    IsChain (chainCreate heap n data).1 (chainCreate heap n data).2 [n] where
  first := rfl
  last := rfl
  nodup := List.nodup_singleton n
  linked := ⟨⟨data, Function.update_self n _ heap⟩, trivial⟩

theorem isChain_append (hc : IsChain heap h l) (hl : l ≠ []) (hn : n ∉ l) (data : α) :
    IsChain (chainAppend heap h n data).1 (chainAppend heap h n data).2 (l ++ [n]) where
  first := by
    rw [List.head?_append]
    cases l with
    | nil => exact absurd rfl hl
    | cons m rest => exact hc.first
  last := by simp [chainAppend]
  nodup := by
    refine List.nodup_append.mpr ⟨hc.nodup, List.nodup_singleton n, ?_⟩
    rintro a ha b hb rfl
    exact hn (List.mem_singleton.mp hb ▸ ha)
  linked := by
    unfold chainAppend
    rw [hc.last]
    refine seg_append_cons.mpr ⟨?_, ⟨data, ?_⟩, trivial⟩
    · refine seg_setNext_last _ hc.nodup (seg_congr (fun m hm => ?_) hc.linked)
      refine Function.update_of_ne ?_ _ _
      rintro rfl
      exact hn hm
    · refine (modifyAt_of_ne _ (getLast?_ne hn)).trans ?_
      rw [Function.update_self]
      simp

theorem chainAppend_frame (hc : IsChain heap h l)
    (hm : m ∉ l) (hne : m ≠ n) (data : α) : (chainAppend heap h n data).1 m = heap m := by
  unfold chainAppend
  rw [hc.last]
  exact (modifyAt_of_ne _ (getLast?_ne hm)).trans (Function.update_of_ne hne _ _)

theorem dataAt_chainCreate (heap : Heap α) (n m : ℕ) (data : α) :
    dataAt (chainCreate heap n data).1 m = if m = n then some data else dataAt heap m := by
  unfold dataAt
  split_ifs with heq
  · subst heq
    exact congrArg _ (Function.update_self m _ heap)
  · exact congrArg _ (Function.update_of_ne heq _ heap)

theorem dataAt_chainAppend (heap : Heap α) (h : Header) (n m : ℕ) (data : α) :
    dataAt (chainAppend heap h n data).1 m = if m = n then some data else dataAt heap m := by
  unfold chainAppend
  rw [dataAt_setNext, dataAt]
  split_ifs with heq
  · subst heq
    rw [Function.update_self, Option.map_some]
  · rw [Function.update_of_ne heq, dataAt]

theorem dataAt_chainUnlink (heap : Heap α) (h : Header) (n m : ℕ) (node : ChainNode α) :
    dataAt (chainUnlink heap h n node).1 m = dataAt heap m := by
  unfold chainUnlink
  split_ifs <;> simp

variable (hc : IsChain heap h (l ++ n :: l'))
include hc

variable (hn : heap n = some node)
include hn

/-- The cases of unlinking do the same: both neighbours are linked to each other,
where there are any. -/
theorem chainUnlink_eq :
    chainUnlink heap h n node = (setPrev (setNext heap l.getLast? l'.head?) l'.head? l.getLast?,
        ⟨(l ++ l').head?, (l ++ l').getLast?⟩) := by
  obtain ⟨data, hnode⟩ := hc.next
  obtain rfl := Option.some.inj (hn.symm.trans hnode)
  obtain ⟨-, hnodup', hdisj⟩ := List.nodup_append.mp hc.nodup
  have hnotl : n ∉ l := fun hmem => hdisj n hmem n (.head _) rfl
  have hnotl' : n ∉ l' := (List.nodup_cons.mp hnodup').1
  have hfirst := hc.first
  have hlast := hc.last
  unfold chainUnlink
  rcases List.eq_nil_or_concat l with rfl | ⟨front, a, rfl⟩
  · -- the first node
    rw [List.nil_append, List.head?_cons] at hfirst
    rw [if_pos hfirst]
    cases l' with
    | nil =>
      rw [if_pos (by simpa using hlast)]
      rfl
    | cons b rest =>
      have hne : h.last ≠ some n := by
        rw [hlast, List.nil_append, List.getLast?_cons_cons]
        exact getLast?_ne hnotl'
      rw [if_neg hne, hlast]
      simp [setNext]
  · have hne : h.first ≠ some n := by
      rw [hfirst, List.head?_append_of_ne_nil _ (by simp)]
      exact head?_ne hnotl
    rw [if_neg hne]
    cases l' with
    | nil =>
      rw [if_pos (by simpa using hlast)]
      simp [setPrev, hfirst]
    | cons b rest =>
      have hne' : h.last ≠ some n := by
        rw [hlast, List.getLast?_append, List.getLast?_cons_cons]
        simp only [List.getLast?_cons, Option.some_or]
        intro heq
        exact getLast?_ne hnotl' (by simpa [List.getLast?_cons] using heq)
      rw [if_neg hne']
      refine Prod.ext rfl ?_
      cases h
      simp_all

/-- **Unlinking** takes one node out of a chain. -/
theorem isChain_unlink :
    IsChain (chainUnlink heap h n node).1 (chainUnlink heap h n node).2 (l ++ l') := by
  obtain ⟨hl, -, hl'⟩ := seg_append_cons.mp hc.linked
  have hnodup : (l ++ l').Nodup :=
    hc.nodup.sublist (List.Sublist.append_left (List.sublist_cons_self n l') l)
  obtain ⟨hnodupl, hnodupl', hdisj⟩ := List.nodup_append.mp hnodup
  rw [chainUnlink_eq hc hn]
  refine ⟨rfl, rfl, hnodup, seg_append.mpr ⟨?_, ?_⟩⟩
  · rw [Option.or_none]
    refine seg_congr (fun m hm => ?_) (seg_setNext_last l'.head? hnodupl hl)
    exact modifyAt_of_ne _ (head?_ne fun hm' => hdisj m hm m hm' rfl)
  · rw [Option.or_none]
    refine seg_setPrev_head _ hnodupl' (seg_congr (fun m hm => ?_) hl')
    exact modifyAt_of_ne _ (getLast?_ne fun hm' => hdisj m hm' m hm rfl)

theorem chainUnlink_frame (hm : m ∉ l ++ l') : (chainUnlink heap h n node).1 m = heap m := by
  rw [List.mem_append, not_or] at hm
  rw [chainUnlink_eq hc hn]
  exact (modifyAt_of_ne _ (head?_ne hm.2)).trans (modifyAt_of_ne _ (getLast?_ne hm.1))

end ClusterScheduler.Foundation
