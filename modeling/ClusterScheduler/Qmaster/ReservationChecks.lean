import ClusterScheduler.Sgeobj.Range

/-!
# Changes of parallel environments under reservations

A parallel environment may be requested by a pattern, and the reservation is granted one that
matches. Before the slots of a parallel environment or the list of a queue instance change, two
checks look for reservations that need them.

* `arListHasReservationForPeWithSlots`, `arListHasReservationDueToPe` — the checks.
* `ChecksKeep` — what passes the checks breaks no reservation.
* `checksKeep_iff` — this holds if and only if what was granted is covered by requests that use the
  name itself.
-/

namespace ClusterScheduler.Qmaster

open Sgeobj

/-! ## Functions of the source -/

/-- What the checks read of a reservation, with the window and the granted parallel environment
that they do not read. -/
structure ReservedPe where
  id : ℕ
  startTime : ℕ
  endTime : ℕ
  pe : Option String
  grantedPe : Option String
  grantedSlots : List (String × ℕ)
deriving DecidableEq, Repr

/-- `MSG_PARSE_MOD_REJECTED_DUE_TO_AR_SSU`. -/
def rejectedDueToArText (name list : String) (id : ℕ) : String :=
  s!"denied: removing \"{name}\" from {list} would break advance reservation {id}"

/-- `MSG_PARSE_MOD_REJECTED_DUE_TO_AR_PE_SLOTS_U`. -/
def rejectedDueToArPeSlotsText (slots : ℕ) : String :=
  s!"denied: lowering slots amount below {slots} would break advance reservations"

/-- The error is added to the answer list if and only if the result is true. -/
def arListHasReservationDueToPe (ars : List ReservedPe) (qinstanceName : String)
    (peStringList : List String) : Option String :=
  ars.findSome? fun ar =>
    ar.pe.bind fun peString =>
      if qinstanceName ∈ ar.grantedSlots.map Prod.fst ∧ peString ∉ peStringList then
        some (rejectedDueToArText peString "pe_list" ar.id)
      else none

def maxResSlots (ars : List ReservedPe) (peName : String) : ℕ :=
  ars.foldl (fun slots ar =>
    if ar.pe = some peName then
      ar.grantedSlots.foldl (fun slots gs => add32 slots gs.2) slots
    else slots) 0

/-- The error is added to the answer list if and only if the result is true. -/
def arListHasReservationForPeWithSlots (ars : List ReservedPe) (peName : String)
    (newSlots : ℕ) : Option String :=
  if newSlots < maxResSlots ars peName then
    some (rejectedDueToArPeSlotsText (maxResSlots ars peName))
  else none

/-! ## What the checks are for -/

def ReservedPe.slots (ar : ReservedPe) : ℕ := (ar.grantedSlots.map Prod.snd).sum

/-- What is reserved in a parallel environment at a time. -/
def reservedSlots (ars : List ReservedPe) (peName : String) (t : ℕ) : ℕ :=
  ((ars.filter fun ar => ar.grantedPe = some peName ∧ ar.startTime ≤ t ∧ t < ar.endTime).map
    ReservedPe.slots).sum

/-- The slots of the reservations that request a parallel environment under its own name. -/
def namedSlots (ars : List ReservedPe) (peName : String) : ℕ :=
  ((ars.filter (·.pe = some peName)).map ReservedPe.slots).sum

/-- A reservation is granted what matches its request. -/
def ReservedPe.Granted (fnmatch : String → String → Bool) (ar : ReservedPe) : Prop :=
  (∀ pattern, ar.pe = some pattern → ∃ name, ar.grantedPe = some name ∧ fnmatch pattern name) ∧
    (ar.pe = none → ar.grantedPe = none)

/-- No change that passes a check breaks a reservation. -/
structure ChecksKeep (ars : List ReservedPe) : Prop where
  slots : ∀ peName newSlots, newSlots < 2 ^ 32 →
    arListHasReservationForPeWithSlots ars peName newSlots = none →
    ∀ t, reservedSlots ars peName t ≤ newSlots
  peList : ∀ qinstanceName peStringList,
    arListHasReservationDueToPe ars qinstanceName peStringList = none →
    ∀ ar ∈ ars, qinstanceName ∈ ar.grantedSlots.map Prod.fst →
      ∀ name, ar.grantedPe = some name → name ∈ peStringList

/-- What is granted is covered by requests under the name itself. -/
structure NamedByRequests (ars : List ReservedPe) : Prop where
  slots : ∀ peName t, reservedSlots ars peName t ≤ namedSlots ars peName % 2 ^ 32
  peList : ∀ ar ∈ ars, ∀ qinstanceName ∈ ar.grantedSlots.map Prod.fst,
    ∀ name, ar.grantedPe = some name →
      ∃ other ∈ ars, other.pe = some name ∧ qinstanceName ∈ other.grantedSlots.map Prod.fst

/-! ## The two checks -/

variable {ars : List ReservedPe} {peName qinstanceName : String} {peStringList : List String}

theorem foldl_add32 (l : List (String × ℕ)) (slots : ℕ) (hslots : slots < 2 ^ 32) :
    l.foldl (fun slots gs => add32 slots gs.2) slots = (slots + (l.map Prod.snd).sum) % 2 ^ 32 := by
  induction l generalizing slots with
  | nil => simpa using (Nat.mod_eq_of_lt hslots).symm
  | cons gs l ih =>
    rw [List.foldl_cons, ih (add32 slots gs.2) (Nat.mod_lt _ (by norm_num)), add32, Nat.mod_add_mod]
    simp [Nat.add_assoc]

theorem maxResSlots_eq (ars : List ReservedPe) (peName : String) :
    maxResSlots ars peName = namedSlots ars peName % 2 ^ 32 := by
  have hloop (slots : ℕ) (hslots : slots < 2 ^ 32) :
      ars.foldl (fun slots ar => if ar.pe = some peName then
          ar.grantedSlots.foldl (fun slots gs => add32 slots gs.2) slots else slots) slots =
        (slots + namedSlots ars peName) % 2 ^ 32 := by
    induction ars generalizing slots with
    | nil => simpa [namedSlots] using (Nat.mod_eq_of_lt hslots).symm
    | cons ar ars ih =>
      by_cases hpe : ar.pe = some peName
      · rw [List.foldl_cons, if_pos hpe, foldl_add32 _ _ hslots, ih _ (Nat.mod_lt _ (by norm_num)),
          Nat.mod_add_mod]
        simp [namedSlots, hpe, ReservedPe.slots, Nat.add_assoc]
      · rw [List.foldl_cons, if_neg hpe, ih _ hslots]
        simp [namedSlots, hpe]
  rw [maxResSlots, hloop 0 (by norm_num), Nat.zero_add]

theorem arListHasReservationForPeWithSlots_eq_none {newSlots : ℕ} :
    arListHasReservationForPeWithSlots ars peName newSlots = none ↔
      namedSlots ars peName % 2 ^ 32 ≤ newSlots := by
  simp [arListHasReservationForPeWithSlots, maxResSlots_eq]

theorem arListHasReservationDueToPe_eq_none :
    arListHasReservationDueToPe ars qinstanceName peStringList = none ↔
      ∀ ar ∈ ars, ∀ peString, ar.pe = some peString →
        qinstanceName ∈ ar.grantedSlots.map Prod.fst → peString ∈ peStringList := by
  simp only [arListHasReservationDueToPe, List.findSome?_eq_none_iff, Option.bind_eq_none_iff,
    ite_eq_right_iff, reduceCtorEq, imp_false, not_and, not_not]

/-- **The checks keep all reservations if and only if** what was granted is covered by requests that
use the name itself, and their sum does not wrap. -/
theorem checksKeep_iff (ars : List ReservedPe) : ChecksKeep ars ↔ NamedByRequests ars := by
  constructor
  · intro h
    refine ⟨fun peName t => ?_, fun ar har qinstanceName hq name hname => ?_⟩
    · -- the check lets the slots down to the sum that it computes
      have hlt := Nat.mod_lt (namedSlots ars peName) (by norm_num : 0 < 2 ^ 32)
      exact h.slots peName _ hlt (arListHasReservationForPeWithSlots_eq_none.mpr le_rfl) t
    · -- and the list down to the names that are requested there
      let requested := (ars.filter fun other =>
        qinstanceName ∈ other.grantedSlots.map Prod.fst).filterMap (·.pe)
      have hmem : name ∈ requested := by
        refine h.peList qinstanceName requested ?_ ar har hq name hname
        refine arListHasReservationDueToPe_eq_none.mpr fun other hother peString hpe hq' => ?_
        exact List.mem_filterMap.mpr ⟨other, List.mem_filter.mpr ⟨hother, by simpa using hq'⟩, hpe⟩
      obtain ⟨other, hother, hpe⟩ := List.mem_filterMap.mp hmem
      obtain ⟨hother, hq'⟩ := List.mem_filter.mp hother
      exact ⟨other, hother, hpe, by simpa using hq'⟩
  · intro h
    refine ⟨fun peName newSlots _ hcheck t => ?_, fun qinstanceName peStringList hcheck ar har hq
      name hname => ?_⟩
    · exact (h.slots peName t).trans (arListHasReservationForPeWithSlots_eq_none.mp hcheck)
    · obtain ⟨other, hother, hpe, hq'⟩ := h.peList ar har qinstanceName hq name hname
      exact arListHasReservationDueToPe_eq_none.mp hcheck other hother name hpe hq'

/-! ## A pattern -/

/-- `mpi*` was requested, and `mpi` was granted. -/
def patternReserved : ReservedPe where
  id := 1
  startTime := 0
  endTime := 60
  pe := some "mpi*"
  grantedPe := some "mpi"
  grantedSlots := [("all.q@node", 4)]

theorem checksKeep_false :
    patternReserved.Granted (fun pattern name => pattern = "mpi*" && name.startsWith "mpi") ∧
      ¬ ChecksKeep [patternReserved] := by
  refine ⟨⟨fun pattern hpattern => ⟨"mpi", rfl, ?_⟩, by decide⟩, fun h => ?_⟩
  · obtain rfl := Option.some.inj hpattern
    decide +kernel
  · exact absurd (h.slots "mpi" 0 (by norm_num) (by decide +kernel) 0) (by decide +kernel)

end ClusterScheduler.Qmaster
