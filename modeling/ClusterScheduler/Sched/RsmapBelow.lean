import ClusterScheduler.Sched.RsmapWindow
import ClusterScheduler.Sgeobj.CentryRsmap

/-!
# When instances of a group are free

A request for instances of one group of a resource map waits until a group has enough of them
free and keeps them. Later the instances are taken that are free over the whole window.

* `utilizationRsmapBelow` — the search for the time, group by group.
* `IsGroup`, `groupFree`, `FreeFrom` — what a group is, what it has free and from when on.
* `ReadersAgree` — what is expected of the search and of `utilizationRsmapMax`.
* `KeepsInstances` — the same instances stay free, not only as many.
* `readersAgree_iff` — the first holds exactly if the second does.
-/

namespace ClusterScheduler.Sched

open Foundation Consumables Sgeobj

/-! ## Functions of the source -/

def asInstances (taken : List Resl) : List Instance := taken.map fun r => ⟨r.value, r.amount, []⟩

/-- Without a key name there is one set to ask about, that of all usable instances. -/
def rsmapKeys (map : List Instance) (keyName : Option String) : List (Option String) :=
  match keyName with
  | none => [none]
  | some name => (centryRsmapGroupKeys (some map) (some name)).map some

def groupFree (cmp : Comparisons) (map : List Instance) (keyName : Option String)
    (req : Sgeobj.Request)
    (key : Option String) (taken : List Resl) : ℕ :=
  match key with
  | none => centryRsmapFree cmp (some map) (asInstances taken) req
  | some key => centryRsmapGroupFree cmp (some map) (asInstances taken) keyName (some key) req

/-- The time from which a group has the amount free, found from the end of the diagram. -/
def groupOpening (cmp : Comparisons) (map : List Instance) (keyName : Option String) (amount : ℕ)
    (req : Sgeobj.Request) (diagram : List Rde) (key : Option String) : Option ℕ :=
  keptFrom Rde.time (fun rde => amount ≤ groupFree cmp map keyName req key rde.resourceMapList)
    none diagram.reverse

def earlier (when_ : ℕ) : Option ℕ → ℕ
  | none => when_
  | some earliest => if when_ < earliest then when_ else earliest

/-- The earliest time of all groups. A group that is free throughout ends the search. -/
def earliestOf (opening : Option String → Option ℕ) : List (Option String) → Option ℕ → ℕ
  | [], earliest => earliest.getD uint64Max
  | key :: keys, earliest =>
    match opening key with
    -- the last entry does not fit
    | none => earliestOf opening keys earliest
    | some when_ =>
      if when_ = dispatchTimeNow then dispatchTimeNow
      else earliestOf opening keys (some (earlier when_ earliest))

def utilizationRsmapBelow (cmp : Comparisons) (definition : Option (List Instance))
    (cr : Option Usage) (keyName : Option String) (amount : ℕ) (req : Sgeobj.Request) : ℕ :=
  match definition with
  | none => dispatchTimeNow
  | some map =>
    let diagram := (cr.bind fun cr => cr.utilized).getD []
    if amount = 0 ∨ diagram.isEmpty then dispatchTimeNow
    else
      earliestOf (groupOpening cmp map keyName amount req diagram) (rsmapKeys map keyName) none

/-! ## Groups -/

/-- The set of all usable instances, or those with a key that an instance has. -/
def IsGroup (map : List Instance) (keyName key : Option String) : Prop :=
  keyName = none ∧ key = none ∨
    keyName ≠ none ∧ ∃ e ∈ map, ∃ k, centryRsmapInstanceKey e keyName = some k ∧ key = some k

theorem mem_rsmapKeys {map : List Instance} {keyName key : Option String} :
    key ∈ rsmapKeys map keyName ↔ IsGroup map keyName key := by
  cases keyName with
  | none => simp [rsmapKeys, IsGroup]
  | some name =>
    simp only [rsmapKeys, IsGroup, List.mem_map, mem_centryRsmapGroupKeys]
    constructor
    · rintro ⟨k, ⟨e, he, hkey⟩, rfl⟩
      exact .inr ⟨nofun, e, he, k, hkey, rfl⟩
    · rintro (⟨h, -⟩ | ⟨-, e, he, k, hkey, rfl⟩)
      · exact nomatch h
      · exact ⟨k, ⟨e, he, hkey⟩, rfl⟩

theorem takenAmount_asInstances (taken : List Resl) (id : String) :
    takenAmount (asInstances taken) id = reslAmount taken id := by
  rw [takenAmount, reslAmount, asInstances, List.find?_map, Option.map_map]
  rfl

section

variable (cmp : Comparisons) (map : ResourceMap) (keyName : Option String) (req : Sgeobj.Request)

/-- What the instances of a group have left when `held` is taken of each identifier. -/
def leftFree (key : Option String) (held : String → ℕ) : ℕ :=
  freeSum (fun e => inGroup keyName key e && isUsable cmp req e)
    (fun e => e.amount - held e.value) map.instances

theorem groupFree_eq (key : Option String) (taken : List Resl) :
    groupFree cmp map.instances keyName req key taken =
      leftFree cmp map keyName req key (reslAmount taken) := by
  have hfree : (centryRsmapInstanceFree · (asInstances taken)) =
      fun e => e.amount - reslAmount taken e.value :=
    funext fun e => by rw [instanceFree_eq, takenAmount_asInstances]
  rw [leftFree, ← hfree]
  cases key with
  | none => exact centryRsmapFree_eq cmp map (asInstances taken) req
  | some key => exact centryRsmapGroupFree_eq cmp map (asInstances taken) req keyName key

theorem leftFree_mono (key : Option String) {held held' : String → ℕ}
    (h : ∀ id, held id ≤ held' id) :
    leftFree cmp map keyName req key held' ≤ leftFree cmp map keyName req key held := by
  apply List.sum_le_sum
  intro e _
  exact Nat.sub_le_sub_left (h e.value) e.amount

end

/-! ## The search -/

/-- When a group opens, or the time of the earliest one so far. -/
def Opens (opening : Option String → Option ℕ) (keys : List (Option String))
    (earliest : Option ℕ) (t : ℕ) : Prop :=
  t ∈ earliest ∨ ∃ key ∈ keys, t ∈ opening key

section Earliest

variable {opening : Option String → Option ℕ} {key : Option String} {keys : List (Option String)}
  {earliest : Option ℕ}

variable {t : ℕ}

theorem opens_cons : Opens opening (key :: keys) earliest t ↔
    t ∈ opening key ∨ Opens opening keys earliest t := by
  simp only [Opens, List.exists_mem_cons_iff]
  exact or_left_comm

variable {when_ : ℕ}

theorem opens_earlier (h : Opens opening keys (some (earlier when_ earliest)) t) :
    t = when_ ∨ Opens opening keys earliest t := by
  rcases h with h | h
  · obtain rfl := Option.mem_some.mp h
    cases earliest with
    | none => exact .inl rfl
    | some best =>
      rw [earlier]
      split_ifs
      · exact .inl rfl
      · exact .inr (.inl rfl)
  · exact .inr (.inr h)

theorem earlier_le (h : t = when_ ∨ t ∈ earliest) : earlier when_ earliest ≤ t := by
  cases earliest with
  | none => exact (h.resolve_right (Option.not_mem_none t)).ge
  | some best =>
    rw [Option.mem_some] at h
    rw [earlier]
    split_ifs <;> omega

/-- **The earliest of all**, if there is one. -/
theorem earliestOf_isLeast (keys : List (Option String)) (earliest : Option ℕ)
    (h : ∃ t, Opens opening keys earliest t) :
    IsLeast {t | Opens opening keys earliest t} (earliestOf opening keys earliest) := by
  induction keys generalizing earliest with
  | nil =>
    obtain ⟨t, ht | ⟨key, hkey, -⟩⟩ := h
    · obtain rfl := Option.mem_def.mp ht
      refine ⟨.inl rfl, fun u hu => ?_⟩
      rcases hu with hu | ⟨key, hkey, -⟩
      · exact (Option.mem_some.mp hu).le
      · cases hkey
    · cases hkey
  | cons key keys ih =>
    simp only [opens_cons] at h ⊢
    rw [earliestOf]
    cases hkey : opening key with
    | none =>
      rw [hkey] at h
      simp only [Option.not_mem_none, false_or] at h ⊢
      exact ih earliest h
    | some when_ =>
      simp only [Option.mem_some]
      split_ifs with hnow
      · exact ⟨.inl hnow, fun t _ => Nat.zero_le t⟩
      · obtain ⟨hmem, hlower⟩ := ih (some (earlier when_ earliest)) ⟨_, .inl rfl⟩
        refine ⟨(opens_earlier hmem).imp_left Eq.symm, fun t ht => ?_⟩
        rcases ht with rfl | ht | ht
        · exact (hlower (.inl rfl)).trans (earlier_le (.inl rfl))
        · exact (hlower (.inl rfl)).trans (earlier_le (.inr ht))
        · exact hlower (.inr ht)

theorem earliestOf_of_not_opens (keys : List (Option String))
    (h : ∀ t, ¬ Opens opening keys none t) : earliestOf opening keys none = uint64Max := by
  induction keys with
  | nil => rfl
  | cons key keys ih =>
    simp only [opens_cons, not_or] at h
    have hkey : opening key = none := Option.eq_none_iff_forall_not_mem.mpr fun t => (h t).1
    rw [earliestOf, hkey]
    exact ih fun t => (h t).2

end Earliest

/-! ## The two readers -/

section Readers

variable (cmp : Comparisons) (map : ResourceMap) (cr : Usage) (keyName : Option String)
  (amount : ℕ) (req : Sgeobj.Request) (now : ℕ)

def FreeFrom (key : Option String) (t : ℕ) : Prop :=
  KeptFrom Rde.time
    (fun rde => amount ≤ groupFree cmp map.instances keyName req key rde.resourceMapList)
    (cr.utilized.getD []) t

/-- What the diagram holds of an identifier in a window, of one entry after the other. -/
def heldIn (start stop : ℕ) (id : String) : Set ℕ :=
  {a | a = 0 ∨ ∃ u, (u = start ∨ start ≤ u ∧ u < stop) ∧
    ∃ e ∈ entryAt Rde.time (cr.utilized.getD []) u,
      ∃ ep ∈ e.resourceMapList, ep.value = id ∧ ep.amount = a}

/-- The search returns the first time from which a group has the amount free. What is held at
most in a window is that of one of its entries, and it leaves a group the amount that it has
free in all of them. -/
structure ReadersAgree : Prop where
  least : (∃ key, IsGroup map.instances keyName key ∧
      ∃ t, FreeFrom cmp map cr keyName amount req key t) →
    IsLeast {t | ∃ key, IsGroup map.instances keyName key ∧
        FreeFrom cmp map cr keyName amount req key t}
      (utilizationRsmapBelow cmp (some map.instances) (some cr) keyName amount req)
  never : utilizationRsmapBelow cmp (some map.instances) (some cr) keyName amount req =
      uint64Max ↔ ∀ key, IsGroup map.instances keyName key →
        ∀ t, ¬ FreeFrom cmp map cr keyName amount req key t
  largest : ∀ start duration, now < start → start < 2 ^ 64 → duration < 2 ^ 64 → ∀ id,
    IsGreatest (heldIn cr start (utilizationEndtime start duration) id)
      (reslAmount (utilizationRsmapMax cr now start duration) id)
  free : ∀ key, IsGroup map.instances keyName key →
    ∀ t, FreeFrom cmp map cr keyName amount req key t →
      ∀ start duration, t ≤ start → now < start → start < 2 ^ 64 → duration < 2 ^ 64 →
        amount ≤ groupFree cmp map.instances keyName req key
          (utilizationRsmapMax cr now start duration)

/-- A group that comes to have the amount free does so before the end of time, or another one
does. From its time on, or from now on if that is later, and at the end of time it has the
amount when every instance is counted with the largest amount held of it. -/
structure KeepsInstances : Prop where
  early : (∃ key, IsGroup map.instances keyName key ∧
      ∃ t, FreeFrom cmp map cr keyName amount req key t) →
    ∃ key, IsGroup map.instances keyName key ∧
      ∃ t < uint64Max, FreeFrom cmp map cr keyName amount req key t
  same : ∀ key, IsGroup map.instances keyName key →
    ∀ t, IsLeast {t | FreeFrom cmp map cr keyName amount req key t} t →
      ∀ start, start = max t (now + 1) ∨ start = uint64Max → now < start → start ≤ uint64Max →
        amount ≤ leftFree cmp map keyName req key
          (highest (windowResl start uint64Max (cr.utilized.getD [])))

variable {cmp map cr keyName amount req now}

theorem utilizationRsmapBelow_eq (hne : cr.utilized.getD [] ≠ []) (hamount : 0 < amount) :
    utilizationRsmapBelow cmp (some map.instances) (some cr) keyName amount req =
      earliestOf (groupOpening cmp map.instances keyName amount req (cr.utilized.getD []))
        (rsmapKeys map.instances keyName) none := by
  have hskip : ¬ (amount = 0 ∨ (cr.utilized.getD []).isEmpty = true) := by
    rw [List.isEmpty_iff]
    exact not_or.mpr ⟨hamount.ne', hne⟩
  exact if_neg hskip

theorem opens_rsmapKeys {opening : Option String → Option ℕ} {t : ℕ} :
    Opens opening (rsmapKeys map.instances keyName) none t ↔
      ∃ key, IsGroup map.instances keyName key ∧ t ∈ opening key := by
  simp only [Opens, Option.not_mem_none, false_or, mem_rsmapKeys]

section Search

variable (hd : Spaced 1 Rde.time (cr.utilized.getD []))

include hd

variable {key : Option String} {t : ℕ}

theorem groupOpening_isLeast
    (h : t ∈ groupOpening cmp map.instances keyName amount req (cr.utilized.getD []) key) :
    IsLeast {t | FreeFrom cmp map cr keyName amount req key t} t := by
  have hleast := keptFrom_isLeast hd h
  simp only [decide_eq_true_eq] at hleast
  exact hleast

theorem exists_groupOpening (h : FreeFrom cmp map cr keyName amount req key t) :
    ∃ t' ∈ groupOpening cmp map.instances keyName amount req (cr.utilized.getD []) key, t' ≤ t := by
  cases hopen : groupOpening cmp map.instances keyName amount req (cr.utilized.getD []) key with
  | none =>
    have hnever := not_keptFrom hd hopen t
    simp only [decide_eq_true_eq] at hnever
    exact absurd h hnever
  | some t' => exact ⟨t', rfl, (groupOpening_isLeast hd hopen).2 h⟩

/-- **The search** returns the first time of all groups. -/
theorem utilizationRsmapBelow_isLeast (hne : cr.utilized.getD [] ≠ []) (hamount : 0 < amount)
    (h : ∃ key, IsGroup map.instances keyName key ∧
      ∃ t, FreeFrom cmp map cr keyName amount req key t) :
    IsLeast {t | ∃ key, IsGroup map.instances keyName key ∧
        FreeFrom cmp map cr keyName amount req key t}
      (utilizationRsmapBelow cmp (some map.instances) (some cr) keyName amount req) := by
  rw [utilizationRsmapBelow_eq hne hamount]
  obtain ⟨key, hkey, t, ht⟩ := h
  obtain ⟨t', ht', -⟩ := exists_groupOpening hd ht
  obtain ⟨hmem, hlower⟩ := earliestOf_isLeast (rsmapKeys map.instances keyName) none
    ⟨t', opens_rsmapKeys.mpr ⟨key, hkey, ht'⟩⟩
  constructor
  · obtain ⟨first, hfirst, hopen⟩ := opens_rsmapKeys.mp hmem
    exact ⟨first, hfirst, (groupOpening_isLeast hd hopen).1⟩
  · rintro u ⟨other, hother, hu⟩
    obtain ⟨u', hu', hle⟩ := exists_groupOpening hd hu
    exact (hlower (opens_rsmapKeys.mpr ⟨other, hother, hu'⟩)).trans hle

theorem utilizationRsmapBelow_of_never (hne : cr.utilized.getD [] ≠ []) (hamount : 0 < amount)
    (h : ∀ key, IsGroup map.instances keyName key →
      ∀ t, ¬ FreeFrom cmp map cr keyName amount req key t) :
    utilizationRsmapBelow cmp (some map.instances) (some cr) keyName amount req = uint64Max := by
  rw [utilizationRsmapBelow_eq hne hamount]
  refine earliestOf_of_not_opens _ fun t ht => ?_
  obtain ⟨key, hkey, hopen⟩ := opens_rsmapKeys.mp ht
  exact h key hkey t (groupOpening_isLeast hd hopen).1

theorem opening_le (htimes : ∀ e ∈ cr.utilized.getD [], e.time < 2 ^ 64)
    (h : IsLeast {t | FreeFrom cmp map cr keyName amount req key t} t) : t ≤ uint64Max := by
  obtain ⟨t', ht', hle⟩ := exists_groupOpening hd h.1
  obtain rfl := (groupOpening_isLeast hd ht').unique h
  refine keptFrom_le (fun e he => ?_) (by simp) t' ht'
  exact Nat.le_pred_of_lt (htimes e (List.mem_reverse.mp he))

/-! ### Windows -/

variable {start : ℕ}

theorem utilizationRsmapMax_isGreatest (duration : ℕ) (hnow : now < start)
    (id : String) : IsGreatest (heldIn cr start (utilizationEndtime start duration) id)
      (reslAmount (utilizationRsmapMax cr now start duration) id) := by
  rw [reslAmount_utilizationRsmapMax cr duration hnow]
  convert highest_isGreatest (windowResl start (utilizationEndtime start duration)
    (cr.utilized.getD [])) id using 1
  ext a
  refine or_congr_right ⟨?_, ?_⟩
  · rintro ⟨u, hu, e, he, ep, hep, h⟩
    exact ⟨ep, List.mem_flatMap.mpr ⟨e, (mem_windowEntries hd).mpr ⟨u, hu, he⟩, hep⟩, h⟩
  · rintro ⟨ep, hep, h⟩
    obtain ⟨e, he, hep⟩ := List.mem_flatMap.mp hep
    obtain ⟨u, hu, he⟩ := (mem_windowEntries hd).mp he
    exact ⟨u, hu, e, he, ep, hep, h⟩

theorem windowResl_subset {stop start' stop' : ℕ}
    (h : ∀ u, u = start ∨ start ≤ u ∧ u < stop → u = start' ∨ start' ≤ u ∧ u < stop') :
    windowResl start stop (cr.utilized.getD []) ⊆
      windowResl start' stop' (cr.utilized.getD []) := by
  intro ep hep
  obtain ⟨e, he, hep⟩ := List.mem_flatMap.mp hep
  obtain ⟨u, hu, hentry⟩ := (mem_windowEntries hd).mp he
  exact List.mem_flatMap.mpr ⟨e, (mem_windowEntries hd).mpr ⟨u, h u hu, hentry⟩, hep⟩

end Search

variable {start : ℕ}

/-- What is left in a window when every instance is counted with the largest amount. -/
theorem groupFree_utilizationRsmapMax (duration : ℕ) (hnow : now < start)
    (key : Option String) : groupFree cmp map.instances keyName req key
        (utilizationRsmapMax cr now start duration) = leftFree cmp map keyName req key
        (highest (windowResl start (utilizationEndtime start duration) (cr.utilized.getD []))) := by
  rw [groupFree_eq]
  exact congrArg _ (funext fun id => reslAmount_utilizationRsmapMax cr duration hnow id)

theorem utilizationEndtime_le (start duration : ℕ) :
    utilizationEndtime start duration ≤ uint64Max := by
  rw [utilizationEndtime]
  split_ifs
  · exact Nat.le_pred_of_lt (Nat.mod_lt _ (by decide))
  · exact le_rfl

theorem utilizationEndtime_max (hpos : 0 < start) (hstart : start < 2 ^ 64) :
    utilizationEndtime start uint64Max = uint64Max := by
  rcases utilizationEndtime_cases hstart (show uint64Max < 2 ^ 64 by decide) with h | h
  · have hle := utilizationEndtime_le start uint64Max
    omega
  · exact h

/-- **The readers agree** exactly when the instances that are free stay the same. -/
theorem readersAgree_iff (hd : Spaced 1 Rde.time (cr.utilized.getD []))
    (htimes : ∀ e ∈ cr.utilized.getD [], e.time < 2 ^ 64) (hne : cr.utilized.getD [] ≠ [])
    (hamount : 0 < amount) :
    ReadersAgree cmp map cr keyName amount req now ↔
      KeepsInstances cmp map cr keyName amount req now := by
  constructor
  · intro h
    refine ⟨fun hfree => ?_, fun key hkey t ht start hstart hnow hmax => ?_⟩
    · obtain ⟨key, hkey, hopen⟩ := (h.least hfree).1
      refine ⟨key, hkey, _, lt_of_le_of_ne ?_ fun hbelow => ?_, hopen⟩
      · -- the first time is one at which a group opens
        obtain ⟨t, ht, hle⟩ := exists_groupOpening hd hopen
        have hfirst := (h.least hfree).2 ⟨key, hkey, (groupOpening_isLeast hd ht).1⟩
        exact hfirst.trans (opening_le hd htimes (groupOpening_isLeast hd ht))
      · exact h.never.mp hbelow key hkey _ hopen
    · have ht64 := opening_le hd htimes ht
      have hlt : start < 2 ^ 64 := Nat.lt_of_le_pred (by decide) hmax
      have hle : t ≤ start := by
        rcases hstart with rfl | rfl
        · exact le_max_left _ _
        · exact ht64
      have hwindow := h.free key hkey t ht.1 start uint64Max hle hnow hlt (by decide)
      rwa [groupFree_utilizationRsmapMax uint64Max hnow,
        utilizationEndtime_max (Nat.zero_lt_of_lt hnow) hlt] at hwindow
  · rintro ⟨hearly, hsame⟩
    refine ⟨utilizationRsmapBelow_isLeast hd hne hamount, ⟨fun hbelow key hkey t ht => ?_,
      utilizationRsmapBelow_of_never hd hne hamount⟩,
      fun start duration hnow _ _ id => utilizationRsmapMax_isGreatest hd duration hnow id,
      fun key hkey t ht start duration hle hnow hlt _ => ?_⟩
    · obtain ⟨first, hfirst, u, hu, hopen⟩ := hearly ⟨key, hkey, t, ht⟩
      have hleast := (utilizationRsmapBelow_isLeast hd hne hamount ⟨key, hkey, t, ht⟩).2
        ⟨first, hfirst, hopen⟩
      rw [hbelow] at hleast
      exact absurd hu (not_lt.mpr hleast)
    · obtain ⟨t', ht', hle'⟩ := exists_groupOpening hd ht
      have hleast := groupOpening_isLeast hd ht'
      have hend := utilizationEndtime_le start duration
      rw [groupFree_utilizationRsmapMax duration hnow]
      by_cases hlast : start = uint64Max
      · apply (hsame key hkey t' hleast start (.inr hlast) hnow hlast.le).trans
        apply leftFree_mono
        exact highest_mono (windowResl_subset hd fun u hu => by omega)
      · have hmax : max t' (now + 1) ≤ start := max_le (hle'.trans hle) hnow
        have hstart : start < uint64Max :=
          lt_of_le_of_ne (Nat.le_pred_of_lt hlt) hlast
        apply (hsame key hkey t' hleast _ (.inl rfl) (Nat.lt_of_succ_le (le_max_right _ _))
          (hmax.trans hstart.le)).trans
        apply leftFree_mono
        exact highest_mono (windowResl_subset hd fun u hu => by omega)

end Readers

def twoCards : ResourceMap where
  instances := [⟨"0", 1, [⟨"board", .str, .eq, some "a", 0⟩]⟩,
    ⟨"1", 1, [⟨"board", .str, .eq, some "a", 0⟩]⟩]
  distinct := by decide
  total := by decide

/-- One card is held from 100 to 200 and one from 200 to 300. -/
def twoHolders (first second : String) : Usage :=
  { Usage.new "gpu" with
    toRue := { Rue.fresh "gpu" with
      utilized := some [⟨100, 1, [⟨first, 1⟩], none⟩, ⟨200, 1, [⟨second, 1⟩], none⟩,
        ⟨300, 0, [], none⟩] } }

/-- The one held is the same all the time. -/
theorem readersAgree_iff_sameCard :
    ReadersAgree literalComparisons twoCards (twoHolders "0" "0") none 1 ⟨none, []⟩ 50 := by
  have hfits : ∀ e ∈ (twoHolders "0" "0").utilized.getD [],
      1 ≤ groupFree literalComparisons twoCards.instances none ⟨none, []⟩ none
        e.resourceMapList := by decide
  have hfree : FreeFrom literalComparisons twoCards (twoHolders "0" "0") none 1 ⟨none, []⟩ none 0 :=
    fun u _ e he => hfits e (mem_of_entryAt he).1
  refine (readersAgree_iff (by rw [Spaced]; decide) (by decide) (by decide)
    (by decide)).mpr
    ⟨fun _ => ⟨none, .inl ⟨rfl, rfl⟩, 0, by decide, hfree⟩, ?_⟩
  rintro key (⟨-, rfl⟩ | ⟨h, -⟩) t ht start hstart - -
  · obtain rfl : t = 0 := Nat.le_zero.mp (ht.2 hfree)
    rcases hstart with rfl | rfl <;> decide
  · exact absurd rfl h

/-- One card is free at all times, but not the same one. -/
theorem readersAgree_otherCard :
    let cr := twoHolders "0" "1"
    Spaced 1 Rde.time (cr.utilized.getD []) ∧ (∀ e ∈ cr.utilized.getD [], e.time < 2 ^ 64) ∧
      utilizationRsmapBelow literalComparisons (some twoCards.instances) (some cr) (some "board") 1
        ⟨none, []⟩ = dispatchTimeNow ∧
      groupFree literalComparisons twoCards.instances (some "board") ⟨none, []⟩ (some "a")
        (utilizationRsmapMax cr 50 100 200) = 0 ∧
      ¬ ReadersAgree literalComparisons twoCards cr (some "board") 1 ⟨none, []⟩ 50 := by
  intro cr
  have hfits : ∀ e ∈ cr.utilized.getD [],
      1 ≤ groupFree literalComparisons twoCards.instances (some "board") ⟨none, []⟩ (some "a")
        e.resourceMapList := by decide
  have hnone : groupFree literalComparisons twoCards.instances (some "board") ⟨none, []⟩
      (some "a") (utilizationRsmapMax cr 50 100 200) = 0 := by decide
  refine ⟨by rw [Spaced]; decide, by decide, by decide, hnone, fun h => ?_⟩
  have hfree := h.free (some "a") (.inr ⟨nofun, _, .head _, "a", by decide, rfl⟩) 0
    (fun u _ e he => hfits e (mem_of_entryAt he).1) 100 200 (by decide) (by decide) (by decide)
    (by decide)
  rw [hnone] at hfree
  exact absurd hfree (by decide)

end ClusterScheduler.Sched
