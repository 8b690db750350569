import Mathlib.Data.List.Basic
import ClusterScheduler.Sgeobj.EvalExpression

/-! # Names in host lists

A member of a host list is a host, a host group or a matcher, told apart by how
it begins (`classifyMember`). Host fields are compared by a key: the name as
`sge_hostcpy` leaves it, in upper case (`hostKey`). The buffers it goes through
hold `clMaxHostNameLen` characters, so that two long names may share a key.
-/

namespace ClusterScheduler.Sgeobj

/-- The name of a host, a host group or a matcher. -/
abbrev Name := List Char

/-- What the bootstrap file says about domains. -/
structure Bootstrap where
  ignoreFqdn : Bool
  /-- `none` also stands for the word `NONE`. -/
  defaultDomain : Option Name

inductive MatcherKind where
  | none | host | ip | ip6
  deriving DecidableEq

inductive MemberClass where
  | groupReference | matcher | literalHost
  deriving DecidableEq

/-! ## Classes of members -/

def foldName (n : Name) : Name := n.map Char.toUpper

def isHgroupName : Name → Bool
  | c :: _ => c = '@'
  | [] => false

/-- `strncasecmp` with a fixed beginning. -/
def beginsWith (start s : Name) : Bool :=
  foldName (s.take start.length) = foldName start

def matcherKind (s : Name) : MatcherKind :=
  if beginsWith "host:".toList s then .host
  else if beginsWith "ip6:".toList s then .ip6
  else if beginsWith "ip:".toList s then .ip
  else .none

def isMatcher (s : Name) : Bool := matcherKind s ≠ .none

def classifyMember (s : Name) : MemberClass :=
  if isHgroupName s then .groupReference
  else if isMatcher s then .matcher
  else .literalHost

/-! ## Comparing host fields -/

/-- `CL_MAXHOSTNAMELEN` -/
def clMaxHostNameLen : ℕ := 256

/-- `sge_hostcpy`. Every buffer ends in a zero byte. -/
def hostcpy (B : Bootstrap) (raw : Name) : Name :=
  if isHgroupName raw || isMatcher raw then raw.take (clMaxHostNameLen - 1)
  else if B.ignoreFqdn then (raw.takeWhile (· ≠ '.')).take (clMaxHostNameLen - 1)
  else
    match B.defaultDomain with
    | none => raw.take (clMaxHostNameLen - 1)
    | some domain =>
      if raw.contains '.' then raw.take (clMaxHostNameLen - 1)
      else
        let host := raw.take (clMaxHostNameLen - 1)
        if host.length + 1 < clMaxHostNameLen then
          host ++ '.' :: domain.take (clMaxHostNameLen - (host.length + 1) - 1)
        else host

def hostKey (B : Bootstrap) (n : Name) : Name := foldName (hostcpy B n)

def hostcmp (B : Bootstrap) (h1 h2 : Name) : Bool :=
  let isGroup (h : Name) := isHgroupName h || isMatcher h
  if isGroup h1 || isGroup h2 then foldName h1 = foldName h2
  else
    let normalized (h : Name) : Name :=
      if B.ignoreFqdn && h.contains '.' || B.defaultDomain.isSome && !h.contains '.'
      then hostcpy B h else h
    foldName (normalized h1) = foldName (normalized h2)

/-! ## Names of objects -/

def maxVerifyString : ℕ := 512

def keyTableCharacters : List Char :=
  ['\n', '\t', '\r', ' ', '/', ':', '\'', '"', '\\', '[', ']', '\x7b', '\x7d', '|', '(',
    ')', '@', '%', ',']

def verifyStrKey (str : Name) (strLength : ℕ) : Bool :=
  str.length ≤ strLength && str.head? ≠ some '.' && str.head? ≠ some '#' &&
    keyTableCharacters.all (fun c => !str.contains c) &&
    ["NONE", "ALL", "TEMPLATE"].all fun word => foldName str ≠ word.toList

def verifyObjName (str : Name) (strLength : ℕ) : Bool :=
  verifyStrKey str strLength && !isExpression str

def hgroupCheckName (name : Name) : Bool :=
  isHgroupName name && verifyObjName name.tail maxVerifyString

/-! ## Reserved groups -/

def adminHostgroup : Name := "@admin_hosts".toList
def submitHostgroup : Name := "@submit_hosts".toList
def execHostgroup : Name := "@exec_hosts".toList

def hgroupIsReserved (B : Bootstrap) (name : Name) : Bool :=
  hostcmp B name adminHostgroup || hostcmp B name submitHostgroup ||
    hostcmp B name execHostgroup

def hgroupIsSystemMaintained (B : Bootstrap) (name : Name) : Bool :=
  hostcmp B name execHostgroup

/-- The group with the hosts of a cluster queue is named `@@queue`. -/
def hgroupIsQueueGroup (name : Name) : Bool := name.take 2 = ['@', '@']

def hgroupQueueGroupName (cqueueName : Name) : Name := '@' :: '@' :: cqueueName

/-! ## Keys -/

/-- A character in front of the letters has no other case. -/
theorem toUpper_iff_of_lt {c d : Char} (hd : d.toNat < 65) : c.toUpper = d ↔ c = d := by
  unfold Char.toUpper
  constructor
  · intro h
    split at h
    case isFalse => exact h
    case isTrue hlower =>
      have hnat := congrArg UInt32.toNat (congrArg Char.val h)
      have h1 : 97 ≤ c.toNat := hlower.1
      have h2 : c.toNat ≤ 122 := hlower.2
      have hd' : d.val.toNat < 65 := hd
      simp [UInt32.toNat_add] at hnat
      omega
  · rintro rfl
    refine dif_neg fun hlower => ?_
    have h1 : 97 ≤ c.toNat := hlower.1
    omega

theorem foldName_foldName (n : Name) : foldName (foldName n) = foldName n := by
  unfold foldName
  rw [List.map_map]
  exact List.map_congr_left fun c _ => Char.toUpper_toUpper_eq_toUpper c

variable {n : Name}

theorem classifyMember_group : classifyMember n = .groupReference ↔ isHgroupName n = true := by
  unfold classifyMember
  split_ifs <;> simp_all

theorem isHgroupName_foldName (n : Name) : isHgroupName (foldName n) = isHgroupName n := by
  cases n with
  | nil => rfl
  | cons c n => simp [isHgroupName, foldName, toUpper_iff_of_lt]

theorem isHgroupName_take (n : Name) (k : ℕ) : isHgroupName (n.take (k + 1)) = isHgroupName n := by
  cases n <;> rfl

theorem hostcpy_group (B : Bootstrap) (h : isHgroupName n = true) : hostcpy B n = n.take 255 := by
  unfold hostcpy
  rw [h, Bool.true_or, if_pos rfl]
  rfl

theorem isHgroupName_hostcpy (B : Bootstrap) (n : Name) :
    isHgroupName (hostcpy B n) = isHgroupName n := by
  have htake : isHgroupName (n.take (clMaxHostNameLen - 1)) = isHgroupName n :=
    isHgroupName_take n 254
  have hwhile : isHgroupName ((n.takeWhile (· ≠ '.')).take (clMaxHostNameLen - 1)) =
      isHgroupName n := by
    cases n with
    | nil => rfl
    | cons c n =>
      by_cases hc : c = '.'
      · subst hc
        rfl
      · rw [List.takeWhile_cons_of_pos (by simpa using hc)]
        rfl
  unfold hostcpy
  cases B.defaultDomain with
  | none => split_ifs <;> first | exact htake | exact hwhile
  | some domain =>
    dsimp only
    split_ifs
    · exact htake
    · exact hwhile
    · exact htake
    · cases n <;> rfl
    · exact htake

theorem isHgroupName_hostKey (B : Bootstrap) (n : Name) :
    isHgroupName (hostKey B n) = isHgroupName n := by
  unfold hostKey
  rw [isHgroupName_foldName, isHgroupName_hostcpy]

variable {B : Bootstrap} {m : Name}

theorem isHgroupName_of_hostKey (h : hostKey B m = hostKey B n) :
    isHgroupName m = isHgroupName n := by
  rw [← isHgroupName_hostKey B m, ← isHgroupName_hostKey B n, h]

theorem hostKey_group (B : Bootstrap) (h : isHgroupName n = true) :
    hostKey B n = (foldName n).take 255 := by
  unfold hostKey
  rw [hostcpy_group B h]
  exact List.map_take

theorem hostKey_of_foldName (B : Bootstrap) (hm : isHgroupName m = true)
    (h : foldName m = foldName n) : hostKey B m = hostKey B n := by
  have hn : isHgroupName n = true := by
    rw [← isHgroupName_foldName, ← h, isHgroupName_foldName, hm]
  rw [hostKey_group B hm, hostKey_group B hn, h]

variable {start : Name}

theorem beginsWith_iff : beginsWith start n = true ↔ foldName start <+: foldName n := by
  unfold beginsWith foldName
  rw [decide_eq_true_eq, List.prefix_iff_eq_take, List.map_take, List.length_map, eq_comm]

theorem isMatcher_iff :
    isMatcher n = true ↔
      ∃ start ∈ ["host:".toList, "ip6:".toList, "ip:".toList], beginsWith start n = true := by
  unfold isMatcher matcherKind
  split_ifs <;> simp_all

/-- What is copied are characters of the name, and the domain behind a dot. -/
theorem hostcpy_eq (B : Bootstrap) (n : Name) :
    ∃ start domain, hostcpy B n = start ++ domain ∧ start <+: n ∧
      (domain = [] ∨ domain.head? = some '.') := by
  have hwhole (start : Name) (h : start <+: n) : ∃ start' domain, start = start' ++ domain ∧
      start' <+: n ∧ (domain = [] ∨ domain.head? = some '.') :=
    ⟨start, [], (List.append_nil _).symm, h, .inl rfl⟩
  have htake := hwhole _ (List.take_prefix (clMaxHostNameLen - 1) n)
  unfold hostcpy
  split
  · exact htake
  split
  · exact hwhole _ ((List.take_prefix _ _).trans (List.takeWhile_prefix _))
  split
  · exact htake
  split
  · exact htake
  dsimp only
  split
  · exact ⟨_, _, rfl, List.take_prefix _ _, .inr rfl⟩
  · exact htake

/-- A beginning without a dot is there before the name is copied. -/
theorem prefix_of_prefix_hostKey (hdot : '.' ∉ start)
    (h : start <+: hostKey B n) : start <+: foldName n := by
  obtain ⟨copied, domain, hcpy, hcopied, hdomain⟩ := hostcpy_eq B n
  have hfold : foldName copied <+: foldName n := hcopied.map _
  unfold hostKey at h
  rw [hcpy, foldName, List.map_append] at h
  rcases hdomain with rfl | hdomain
  · rw [List.map_nil, List.append_nil] at h
    exact h.trans hfold
  · obtain ⟨rest, rfl⟩ := List.head?_eq_some_iff.mp hdomain
    rcases List.prefix_or_prefix_of_prefix h (List.prefix_append _ _) with h' | ⟨t, rfl⟩
    · exact h'.trans hfold
    · -- what goes on behind the copied characters begins with the dot
      rw [List.prefix_append_right_inj] at h
      cases t with
      | nil => rw [List.append_nil]; exact hfold
      | cons c t =>
        obtain rfl : c = '.' := (List.cons_prefix_cons.mp h).1
        exact absurd (List.mem_append_right _ (.head _)) hdot

theorem isMatcher_of_hostKey (hkey : hostKey B m = hostKey B n)
    (hm : isMatcher m = true) : isMatcher n = true := by
  obtain ⟨start, hstart, hbegins⟩ := isMatcher_iff.mp hm
  refine isMatcher_iff.mpr ⟨start, hstart, beginsWith_iff.mpr ?_⟩
  have hshort : ∀ start ∈ ["host:".toList, "ip6:".toList, "ip:".toList],
      '.' ∉ foldName start ∧ (foldName start).length ≤ 255 := by decide
  obtain ⟨hdot, hlength⟩ := hshort start hstart
  have hcpy : hostKey B m = (foldName m).take 255 := by
    rw [hostKey, hostcpy, hm, Bool.or_true, if_pos rfl]
    exact List.map_take
  apply prefix_of_prefix_hostKey (B := B) hdot
  rw [← hkey, hcpy]
  exact List.prefix_take_iff.mpr ⟨beginsWith_iff.mp hbegins, hlength⟩

end ClusterScheduler.Sgeobj
