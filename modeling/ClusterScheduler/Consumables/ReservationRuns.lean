import ClusterScheduler.Foundation.Runs
import ClusterScheduler.Consumables.ReservationCalls

/-!
# Reservations hold their instances

Reservations are granted and released one after the other. The diagram of a resource map says
which instances are held at a time; this module asks when they are the ones that the
reservations of that time were granted.

* `Holdings`, `reservationStep` — the reservations held and the diagrams.
* `HeldExclusively` — every instance is held as it was granted, within its amount.
* `GrantKeeps`, `ReleaseKeeps` — the condition on a step.
* `Holdings.Inv.grant`, `Holdings.Inv.release` — what a step keeps under it.
* `heldExclusively_of_keeps` — no run whose steps meet it books an instance twice.
* `instances_booked_twice` — two granted queue instances of one host do.
-/

namespace ClusterScheduler.Consumables

open Foundation Sched

/-! ## What is free over a window -/

theorem takenAmount_lt (map : Sgeobj.ResourceMap) (id : String) :
    Sgeobj.takenAmount map.instances id < 2 ^ 32 := by
  unfold Sgeobj.takenAmount
  cases hfind : map.instances.find? (·.value = id) with
  | none => exact Nat.two_pow_pos 32
  | some e =>
    have hmem : e ∈ map.instances := List.mem_of_find?_eq_some hfind
    have hle : e.amount ≤ (map.instances.map (·.amount)).sum :=
      List.single_le_sum (fun _ _ => Nat.zero_le _) _ (List.mem_map_of_mem hmem)
    exact hle.trans_lt map.total

section Window

variable {books : Books} {ar : Reservation} {name hostName id : String} {now t : ℕ}
  (hsound : books.Sound) (hnow : now < ar.window.startTime)

include hsound hnow

theorem heldAt_le_arHeld (ht : ar.window.Covers t) : books.heldAt name hostName id t ≤
    reslAmount (arHeld books now ar name hostName) id :=
  instAt_le_utilizationRsmapMax (hsound.rue (.host hostName) name false).increasing
    (Nat.ne_of_gt (Nat.zero_lt_of_lt hnow)) ht.1 ht.2 id

theorem reslAmount_le_arHeld {e : Rde}
    (he : e ∈ (usageAt name (books (.host hostName))).utilized.getD [])
    (hstart : ar.window.startTime ≤ e.time)
    (hstop : e.time < ar.window.endTime ∨ e.time = ar.window.startTime) :
    reslAmount e.resourceMapList id ≤ reslAmount (arHeld books now ar name hostName) id := by
  have hd := (hsound.rue (.host hostName) name false).increasing
  have hentry : e ∈ entryAt Rde.time
      ((usageAt name (books (.host hostName))).utilized.getD []) e.time := valueAt_self hd e he
  have hmem : e ∈ windowEntries Rde.time ar.window.startTime ar.window.endTime
      ((usageAt name (books (.host hostName))).utilized.getD []) := (mem_windowEntries hd).mpr
    ⟨e.time, hstop.symm.imp_right fun h => ⟨hstart, h⟩, hentry⟩
  rw [arHeld, reslAmount_utilizationRsmapMax _ _ hnow]
  apply (reslAmount_le_highest e.resourceMapList id).trans
  exact highest_mono (fun ep hep => List.mem_flatMap.mpr ⟨e, hmem, hep⟩) id

end Window

/-! ## Runs -/

structure Holdings where
  held : List Reservation
  books : ReservationBooks

inductive ReservationAct where
  | grant (ar : Reservation) (now : ℕ)
  | release (k : ℕ)

section Runs

variable (cmp : Sgeobj.Comparisons) (conf : Conf) (maps : HostMaps)

/-- A reservation is granted its resources and booked, or it is released and removed. -/
def reservationStep (s : Holdings) : ReservationAct → Option Holdings
  | .grant ar now =>
    let ar := arGrantResources cmp conf maps s.books.books now ar
    some ⟨ar :: s.held, arDoReservation conf ar true s.books⟩
  | .release k =>
    match s.held[k]? with
    | none => none
    | some ar => some ⟨s.held.eraseIdx k, arDoReservation conf ar false s.books⟩

def Holdings.empty (pes : String → Option Rue) : Holdings := ⟨[], ⟨fun _ => [], pes⟩⟩

/-- Every instance is held as the reservations of the time were granted it, and no more of
it than there is. -/
def HeldExclusively (s : Holdings) : Prop :=
  ∀ dcep, conf.IsMap dcep → ∀ hostName id t,
    s.books.books.heldAt dcep.name hostName id t = grantedTotal s.held dcep.name hostName id t ∧
    grantedTotal s.held dcep.name hostName id t ≤
      Sgeobj.takenAmount (maps hostName dcep.name).instances id

/-- A new reservation was granted queue instances, has no resources yet and begins later. -/
structure Reservation.IsNew (ar : Reservation) (now : ℕ) : Prop where
  granted : ar.Granted conf
  noSlots : ar.RequestsNoSlots
  grants : ar.grantedResourcesList = []
  later : now < ar.window.startTime

def ReservationAct.IsPossible : ReservationAct → Prop
  | .grant ar now => ar.IsNew conf now
  | .release _ => True

/-- The condition on a reservation that is granted: its window is not empty, at most one
granted queue instance takes a map from a host, and it takes a number of instances that are
free, or there is nothing to lose where the window begins and ends. -/
structure GrantKeeps (s : Holdings) (ar : Reservation) (now : ℕ) : Prop where
  window : ar.window.startTime < ar.window.endTime
  once : ∀ dcep, conf.IsMap dcep → ∀ hostName, (takers conf ar dcep hostName).length ≤ 1
  positive : ∀ dcep, conf.IsMap dcep → ∀ hostName, ∀ taker ∈ takers conf ar dcep hostName,
    0 < offered conf ar taker.2 dcep
  named : ∀ dcep, conf.IsMap dcep → ∀ hostName, ∀ taker ∈ takers conf ar dcep hostName,
    Nameable cmp (maps hostName dcep.name).instances
        (arHeld s.books.books now ar dcep.name hostName) (offered conf ar taker.2 dcep) ∨
      Quiet (usageAt dcep.name (s.books.books (.host hostName))).utilized ar.window

/-- A reservation that is released has instances of the maps that it takes, or there is
nothing to lose where the window begins and ends. -/
def ReleaseKeeps (s : Holdings) (ar : Reservation) : Prop :=
  ∀ dcep, conf.IsMap dcep → ∀ hostName, takers conf ar dcep hostName ≠ [] →
    ar.instances dcep.name hostName = [] →
      Quiet (usageAt dcep.name (s.books.books (.host hostName))).utilized ar.window

def ReservationAct.Keeps (s : Holdings) : ReservationAct → Prop
  | .grant ar now => GrantKeeps cmp conf maps s ar now
  | .release k => ∀ ar ∈ s.held[k]?, ReleaseKeeps conf s ar

/-- What holds in every state that is reached. -/
structure Holdings.Inv (s : Holdings) : Prop where
  sound : s.books.books.Sound
  clean : ∀ ar ∈ s.held, ar.Clean conf
  taken : ∀ dcep, conf.IsMap dcep → ∀ hostName t,
    scheduledAt false dcep.name t (s.books.books (.host hostName)) =
      takenTotal conf s.held dcep hostName t
  exclusive : HeldExclusively conf maps s

variable {cmp conf maps} {s : Holdings} {ar : Reservation} {now : ℕ}

theorem holdings_inv_empty (pes : String → Option Rue) : (Holdings.empty pes).Inv conf maps where
  sound := books_sound_empty
  clean := List.forall_mem_nil _
  taken := fun _ _ _ _ => rfl
  exclusive := fun _ _ _ _ _ => ⟨rfl, Nat.zero_le _⟩

theorem GrantKeeps.clean (h : GrantKeeps cmp conf maps s ar now) (hconf : conf.Checked)
    (hmaps : conf.MapsChecked) (hnew : ar.IsNew conf now) :
    (arGrantResources cmp conf maps s.books.books now ar).Clean conf where
  granted := ⟨hnew.granted.queues, hnew.granted.slots, hnew.granted.distinct⟩
  noSlots := hnew.noSlots
  window := h.window
  once := h.once
  positive := h.positive
  taken := fun dcep hmap _ htakers =>
    instances_of_no_taker hconf hmap.centry hmap.type (hmaps dcep hmap).2 hnew.grants htakers

variable {dcep : CEntry}

variable (h : GrantKeeps cmp conf maps s ar now)
include h

theorem GrantKeeps.free (hconf : conf.Checked) (hmaps : conf.MapsChecked) (hnew : ar.IsNew conf now)
    (hmap : conf.IsMap dcep) (hostName id : String) :
    reslTotal ((arGrantResources cmp conf maps s.books.books now ar).instances dcep.name
        hostName) id ≤ Sgeobj.takenAmount (maps hostName dcep.name).instances id -
      reslAmount (arHeld s.books.books now ar dcep.name hostName) id := by
  rcases takers_of_once (h.once dcep hmap hostName) (h.positive dcep hmap hostName) with
    htakers | ⟨taker, htakers, hpos⟩
  · rw [instances_of_no_taker hconf hmap.centry hmap.type (hmaps dcep hmap).2 hnew.grants htakers]
    exact Nat.zero_le _
  · rw [instances_of_taker hconf hmap.centry hmap.type (hmaps dcep hmap).2 hnew.grants htakers hpos]
    exact (arNameInstances_free rfl rfl).1 id

theorem GrantKeeps.fits (hconf : conf.Checked)
    (hmaps : conf.MapsChecked) (hnew : ar.IsNew conf now) (hsound : s.books.books.Sound)
    (hmap : conf.IsMap dcep) (hostName id : String) :
    let booked := arGrantResources cmp conf maps s.books.books now ar
    s.books.books.heldAt dcep.name hostName id ar.window.startTime +
        reslTotal (booked.instances dcep.name hostName) id < 2 ^ 32 ∧
      ∀ e ∈ (usageAt dcep.name (s.books.books (.host hostName))).utilized.getD [],
        ar.window.startTime ≤ e.time →
        e.time < ar.window.endTime ∨ e.time = ar.window.startTime →
        reslAmount e.resourceMapList id + reslTotal (booked.instances dcep.name hostName) id <
          2 ^ 32 := by
  intro booked
  have hfree : reslTotal (booked.instances dcep.name hostName) id ≤ _ :=
    h.free hconf hmaps hnew hmap hostName id
  have hlt := takenAmount_lt (maps hostName dcep.name) id
  have hentries := (hsound.instances (.host hostName) dcep.name).entries
  constructor
  · have hstart : s.books.books.heldAt dcep.name hostName id ar.window.startTime ≤ _ :=
      heldAt_le_arHeld hsound hnew.later ⟨le_rfl, h.window⟩
    have hheld : s.books.books.heldAt dcep.name hostName id ar.window.startTime < _ :=
      instAt_lt hentries id _
    omega
  · intro e he hstart hstop
    have hentry : reslAmount e.resourceMapList id ≤ _ :=
      reslAmount_le_arHeld hsound hnew.later he hstart hstop
    have hheld := (hentries e he).fits id
    omega

theorem GrantKeeps.quiet (hconf : conf.Checked)
    (hmaps : conf.MapsChecked) (hnew : ar.IsNew conf now)
    (hmap : conf.IsMap dcep) {hostName : String} (hne : takers conf ar dcep hostName ≠ [])
    (hnone : (arGrantResources cmp conf maps s.books.books now ar).instances dcep.name
      hostName = []) :
    Quiet (usageAt dcep.name (s.books.books (.host hostName))).utilized ar.window := by
  rcases takers_of_once (h.once dcep hmap hostName) (h.positive dcep hmap hostName) with
    htakers | ⟨taker, htakers, hpos⟩
  · exact absurd htakers hne
  · have hmem : taker ∈ takers conf ar dcep hostName := htakers ▸ (.head _)
    rw [instances_of_taker hconf hmap.centry hmap.type (hmaps dcep hmap).2 hnew.grants htakers hpos]
      at hnone
    apply (h.named dcep hmap hostName taker hmem).resolve_left
    exact fun hname => (arNameInstances_free rfl rfl).2 hname hnone

omit h

/-- **A reservation is granted** instances that nobody holds at a time of its window. -/
theorem Holdings.Inv.grant (h : s.Inv conf maps) (hconf : conf.Checked) (hmaps : conf.MapsChecked)
    (hnew : ar.IsNew conf now) (hkeeps : GrantKeeps cmp conf maps s ar now) :
    Holdings.Inv conf maps ⟨arGrantResources cmp conf maps s.books.books now ar :: s.held,
        arDoReservation conf (arGrantResources cmp conf maps s.books.books now ar) true
          s.books⟩ := by
  have hclean := hkeeps.clean hconf hmaps hnew
  have hfree : ∀ dcep, conf.IsMap dcep → ∀ hostName id, _ :=
    fun dcep hmap => hkeeps.free hconf hmaps hnew hmap
  have hquiet : ∀ dcep, conf.IsMap dcep → ∀ hostName, takers conf ar dcep hostName ≠ [] → _ :=
    fun dcep hmap _ => hkeeps.quiet hconf hmaps hnew hmap
  have hfits : ∀ dcep, conf.IsMap dcep → ∀ hostName id, _ :=
    fun dcep hmap => hkeeps.fits hconf hmaps hnew h.sound hmap
  set booked := arGrantResources cmp conf maps s.books.books now ar
  have hheld : ∀ r ∈ booked :: s.held, r.Clean conf :=
    List.forall_mem_cons.mpr ⟨hclean, h.clean⟩
  have htaken : ∀ dcep, conf.IsMap dcep → ∀ hostName t,
      scheduledAt false dcep.name t (s.books.books (.host hostName)) +
        (if ar.window.Covers t then takenOf conf ar dcep hostName else 0) =
      takenTotal conf (booked :: s.held) dcep hostName t := by
    intro dcep hmap hostName t
    rw [h.taken dcep hmap, add_comm]
    rfl
  have hgranted : ∀ dcep, conf.IsMap dcep → ∀ hostName id t,
      grantedTotal (booked :: s.held) dcep.name hostName id t =
        (if ar.window.Covers t then reslTotal (booked.instances dcep.name hostName) id else 0) +
          s.books.books.heldAt dcep.name hostName id t := by
    intro dcep hmap hostName id t
    rw [(h.exclusive dcep hmap hostName id t).1]
    rfl
  constructor
  · exact h.sound.reserve hclean true
  · exact hheld
  · intro dcep hmap hostName t
    rw [← htaken dcep hmap, scheduledAt_arDoReservation hclean.granted true h.sound.ordered,
      if_pos rfl, reservationTotal_eq_takenOf hconf hmaps hmap hclean (.inl rfl), Int.cast_one,
      one_mul]
    rfl
  · intro dcep hmap hostName id t
    constructor
    · apply heldAt_arDoReservation hconf hmaps hmap hclean h.sound rfl hheld
      · intro t
        rw [← htaken dcep hmap, if_pos rfl, Int.cast_one, one_mul]
        rfl
      · intro id t
        rw [hgranted dcep hmap, if_pos rfl, afterCall, if_pos rfl]
        show (if ar.window.Covers t then _ else _) = _
        split_ifs
        · exact add_comm _ _
        · exact (zero_add _).symm
      · exact fun h => absurd h (by decide)
      · exact fun _ => hfits dcep hmap hostName
      · exact hquiet dcep hmap hostName
    · obtain ⟨hlaw, hle⟩ := h.exclusive dcep hmap hostName id t
      rw [hgranted dcep hmap]
      split_ifs with ht
      · have hone := hfree dcep hmap hostName id
        have hnow : s.books.books.heldAt dcep.name hostName id t ≤ _ :=
          heldAt_le_arHeld h.sound hnew.later ht
        omega
      · rw [zero_add, hlaw]
        exact hle

/-- **A release gives back** the instances that were granted. -/
theorem Holdings.Inv.release (h : s.Inv conf maps) (hconf : conf.Checked) (hmaps : conf.MapsChecked)
    {k : ℕ} (hk : s.held[k]? = some ar) (hkeeps : ReleaseKeeps conf s ar) :
    Holdings.Inv conf maps ⟨s.held.eraseIdx k, arDoReservation conf ar false s.books⟩ := by
  have hclean : ar.Clean conf := h.clean ar (List.mem_of_getElem? hk)
  have hheld : ∀ r ∈ s.held.eraseIdx k, r.Clean conf :=
    fun r hr => h.clean r (List.mem_of_mem_eraseIdx hr)
  have htaken : ∀ dcep, conf.IsMap dcep → ∀ hostName t,
      scheduledAt false dcep.name t (s.books.books (.host hostName)) =
        (if ar.window.Covers t then takenOf conf ar dcep hostName else 0) +
          takenTotal conf (s.held.eraseIdx k) dcep hostName t := by
    intro dcep hmap hostName t
    rw [h.taken dcep hmap, takenTotal, sum_map_eraseIdx _ hk]
    rfl
  have hback : ∀ dcep, conf.IsMap dcep → ∀ hostName t,
      scheduledAt false dcep.name t (s.books.books (.host hostName)) +
        (if ar.window.Covers t then ((-1 : ℤ) : ℚ) * takenOf conf ar dcep hostName else 0) =
      takenTotal conf (s.held.eraseIdx k) dcep hostName t := by
    intro dcep hmap hostName t
    rw [htaken dcep hmap]
    split_ifs
    · push_cast
      ring
    · rw [zero_add, add_zero]
  have hgranted : ∀ dcep, conf.IsMap dcep → ∀ hostName id t,
      s.books.books.heldAt dcep.name hostName id t =
        (if ar.window.Covers t then reslTotal (ar.instances dcep.name hostName) id else 0) +
          grantedTotal (s.held.eraseIdx k) dcep.name hostName id t := by
    intro dcep hmap hostName id t
    rw [(h.exclusive dcep hmap hostName id t).1, grantedTotal, sum_map_eraseIdx _ hk]
    rfl
  constructor
  · exact h.sound.reserve hclean false
  · exact hheld
  · intro dcep hmap hostName t
    rw [scheduledAt_arDoReservation hclean.granted false h.sound.ordered,
      if_neg Bool.false_ne_true, reservationTotal_eq_takenOf hconf hmaps hmap hclean (.inr rfl)]
    exact hback dcep hmap hostName t
  · intro dcep hmap hostName id t
    constructor
    · apply heldAt_arDoReservation hconf hmaps hmap hclean h.sound rfl hheld
      · intro t
        rw [if_neg Bool.false_ne_true]
        exact hback dcep hmap hostName t
      · intro id t
        have hless : ∀ held, afterCall ar (-1) dcep.name hostName id held =
            held - reslTotal (ar.instances dcep.name hostName) id := fun _ => if_neg (by decide)
        rw [hgranted dcep hmap, if_neg Bool.false_ne_true, hless]
        split_ifs
        · exact Nat.add_sub_cancel_left _ _
        · exact zero_add _
      · intro _ id t ht
        rw [hgranted dcep hmap, if_pos ht]
        exact Nat.le_add_right _ _
      · exact fun h => absurd h (by decide)
      · exact hkeeps dcep hmap hostName
    · have hle := (h.exclusive dcep hmap hostName id t).2
      rw [← (h.exclusive dcep hmap hostName id t).1, hgranted dcep hmap] at hle
      exact (Nat.le_add_left _ _).trans hle

/-- **Reservations hold their instances exclusively** in every run whose steps meet the
condition. -/
theorem heldExclusively_of_keeps (cmp : Sgeobj.Comparisons) (maps : HostMaps)
    (hconf : conf.Checked) (hmaps : conf.MapsChecked) (pes : String → Option Rue)
    {acts : List ReservationAct} (hacts : ∀ a ∈ acts, a.IsPossible conf)
    (h : EveryStep (reservationStep cmp conf maps) (fun s a => a.Keeps cmp conf maps s)
      (Holdings.empty pes) acts) :
    EveryState (reservationStep cmp conf maps) (HeldExclusively conf maps) (Holdings.empty pes)
      acts := by
  refine everyState_of_everyStep ?_ (fun s hinv => hinv.exclusive) (holdings_inv_empty pes)
    hacts h
  intro s a s' hinv hpossible hkeeps hstep
  cases a with
  | grant ar now =>
    obtain rfl := Option.some.inj hstep
    exact hinv.grant hconf hmaps hpossible hkeeps
  | release k =>
    rw [reservationStep] at hstep
    cases hk : s.held[k]? with
    | none =>
      rw [hk] at hstep
      exact absurd hstep nofun
    | some ar =>
      rw [hk] at hstep
      obtain rfl := Option.some.inj hstep
      exact hinv.release hconf hmaps hk (hkeeps ar hk)

end Runs

/-! ## Licences of a host -/

def licenceMapCEntry : CEntry := { licenceCEntry with valtype := .rsmap, consumable := .yes }

def licenceMapConf : Conf := { twoQueueConf with centries := [slotsCEntry "1", licenceMapCEntry] }

def licenceMaps : HostMaps := fun _ _ => ⟨[⟨"red", 1, []⟩, ⟨"blue", 1, []⟩], by decide, by decide⟩

/-- A parallel reservation of the second hour with a slot and a licence on each queue
instance. -/
def licencesOn (qnames : List String) : Reservation where
  window := ⟨3600, 3600, 0, hourWindow.duration_lt, hourWindow.duration_lt⟩
  resourceList := [⟨"licence", 1⟩]
  grantedSlots := qnames.map fun qname => ⟨⟨qname, "node", 1⟩, []⟩
  grantedPe := some "mpi"
  peObject := some ignoringPe
  grantedResourcesList := []

def noBookings : Holdings := Holdings.empty fun pe => some (Rue.fresh pe)

theorem licenceMapConf_checked : licenceMapConf.Checked where
  centries := by decide
  nodup := twoQueueConf_checked.nodup
  defined := twoQueueConf_checked.defined
  slots := twoQueueConf_checked.slots
  slotsCentry := by decide

theorem licenceMapConf_isMap {dcep : CEntry} (h : licenceMapConf.IsMap dcep) :
    dcep = licenceMapCEntry := by
  have hcentry : dcep ∈ [slotsCEntry "1", licenceMapCEntry] := h.centry
  rcases List.mem_cons.mp hcentry with rfl | hcentry
  · exact absurd h.type (by decide)
  · exact List.mem_singleton.mp hcentry

theorem licenceMapConf_mapsChecked : licenceMapConf.MapsChecked := by
  intro dcep h
  rw [licenceMapConf_isMap h]
  decide

theorem licencesOn_isNew {qnames : List String}
    (hqnames : ∀ qname ∈ qnames, qname = "all.q@node" ∨ qname = "big.q@node")
    (hnodup : qnames.Nodup) : (licencesOn qnames).IsNew licenceMapConf 0 where
  granted := by
    constructor
    · intro g hg
      obtain ⟨qname, hqname, rfl⟩ := List.mem_map.mp hg
      exact ⟨⟨"node", [sgeAttrSlots]⟩, if_pos (hqnames qname hqname), rfl⟩
    · intro g hg
      obtain ⟨qname, hqname, rfl⟩ := List.mem_map.mp hg
      exact one_ne_zero
    · rw [licencesOn, List.map_map]
      exact (List.map_id qnames).symm ▸ hnodup
  noSlots := by
    have hslots : sgeAttrSlots ∉ ["licence"] := by decide
    exact hslots
  grants := rfl
  later := Nat.succ_pos 3599

/-- The only granted queue instance takes a licence from its host. -/
theorem takers_licencesOn (hostName : String) :
    takers licenceMapConf (licencesOn ["all.q@node"]) licenceMapCEntry hostName =
      if hostName = "node" then
        [(.hostTag, ⟨⟨⟨"all.q@node", "node", 1⟩, []⟩, true, true⟩)]
      else [] := by
  have hoffered : offered licenceMapConf (licencesOn ["all.q@node"])
      ⟨⟨⟨"all.q@node", "node", 1⟩, []⟩, true, true⟩ licenceMapCEntry = 1 := by decide +kernel
  have hglobal : takersOn licenceMapConf (licencesOn ["all.q@node"]) licenceMapCEntry hostName
      .globalTag sgeGlobalName ⟨⟨⟨"all.q@node", "node", 1⟩, []⟩, true, true⟩ = [] := by
    apply if_neg
    rintro ⟨rfl, hconfig, -⟩
    exact absurd hconfig (by decide)
  have hvisits : (licencesOn ["all.q@node"]).visits =
      [⟨⟨⟨"all.q@node", "node", 1⟩, []⟩, true, true⟩] := rfl
  rw [takers, hvisits, List.flatMap_singleton, takersAt, hglobal, List.nil_append, takersOn]
  dsimp only
  rw [hoffered]
  split_ifs with h hnode hnode
  · rfl
  · exact absurd h.1 hnode
  · subst hnode
    exact absurd ⟨rfl, by decide, one_ne_zero⟩ h
  · rfl

theorem licencesOn_keeps :
    GrantKeeps Sgeobj.literalComparisons licenceMapConf licenceMaps noBookings
      (licencesOn ["all.q@node"]) 0 where
  window := by decide
  once := by
    intro dcep hmap hostName
    rw [licenceMapConf_isMap hmap, takers_licencesOn]
    split_ifs
    · exact le_rfl
    · exact Nat.zero_le 1
  positive := by
    intro dcep hmap hostName taker htaker
    rw [licenceMapConf_isMap hmap, takers_licencesOn] at htaker
    split_ifs at htaker
    · rw [licenceMapConf_isMap hmap, List.mem_singleton.mp htaker]
      decide +kernel
    · cases htaker
  named := by
    intro dcep hmap hostName taker htaker
    rw [licenceMapConf_isMap hmap, takers_licencesOn] at htaker
    split_ifs at htaker with hnode
    · subst hnode
      rw [licenceMapConf_isMap hmap, List.mem_singleton.mp htaker]
      exact .inl ⟨by decide +kernel, by decide +kernel⟩
    · cases htaker

/-- A licence is held for an hour and given back. -/
theorem heldExclusively_of_keeps_licence :
    EveryState (reservationStep Sgeobj.literalComparisons licenceMapConf licenceMaps)
      (HeldExclusively licenceMapConf licenceMaps) noBookings
      [.grant (licencesOn ["all.q@node"]) 0, .release 0] := by
  refine heldExclusively_of_keeps _ _ licenceMapConf_checked licenceMapConf_mapsChecked _ ?_ ?_
  · intro a ha
    rcases List.mem_cons.mp ha with rfl | ha
    · exact licencesOn_isNew (by decide) (by decide)
    · obtain rfl := List.mem_singleton.mp ha
      trivial
  · refine (everyStep_cons rfl).mpr ⟨licencesOn_keeps, (everyStep_cons rfl).mpr ⟨?_, trivial⟩⟩
    intro ar har dcep hmap hostName hne hnone
    obtain rfl := Option.some.inj har
    rw [licenceMapConf_isMap hmap] at hne hnone
    have hnode : hostName = "node" := by
      by_contra hother
      exact hne ((takers_licencesOn hostName).trans (if_neg hother))
    subst hnode
    exact absurd hnone (by decide +kernel)

/-- **Both licences are booked for each of two queue instances.** -/
theorem instances_booked_twice :
    let acts := [ReservationAct.grant (licencesOn ["all.q@node", "big.q@node"]) 0]
    licenceMapConf.Checked ∧ licenceMapConf.MapsChecked ∧
      (∀ a ∈ acts, a.IsPossible licenceMapConf) ∧
      ¬ EveryState (reservationStep Sgeobj.literalComparisons licenceMapConf licenceMaps)
        (HeldExclusively licenceMapConf licenceMaps) noBookings acts := by
  intro acts
  refine ⟨licenceMapConf_checked, licenceMapConf_mapsChecked, ?_, fun h => ?_⟩
  · intro a ha
    obtain rfl := List.mem_singleton.mp ha
    exact licencesOn_isNew (by decide) (by decide)
  · have hlaw := (h.2 _ rfl licenceMapCEntry ⟨by decide, rfl⟩ "node" "red" 3600).1
    revert hlaw
    decide +kernel

end ClusterScheduler.Consumables
