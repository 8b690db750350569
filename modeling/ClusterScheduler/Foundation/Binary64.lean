import Mathlib.Tactic.NormNum

/-!
# Naturals in binary64

What happens to an unsigned integer when it is converted to an IEEE 754
binary64 number: below `2 ^ 53` nothing, above it the value is rounded to 53
significant bits, to nearest with ties to even. The results are the facts about
`toBinary64` that an overflow test written with floating point numbers rests on.
-/

namespace ClusterScheduler.Foundation

/-- Round `n` to a multiple of `q`, to nearest, ties to an even multiple. -/
def roundHalfEven (q n : ℕ) : ℕ :=
  if 2 * (n % q) < q ∨ (2 * (n % q) = q ∧ (n / q) % 2 = 0) then q * (n / q)
  else q * (n / q + 1)

/-- The binary64 number nearest to `n`. -/
def toBinary64 (n : ℕ) : ℕ :=
  if n < 2 ^ 53 then n else roundHalfEven (2 ^ (n.log2 - 52)) n

/-! ## Rounding to multiples -/

theorem roundHalfEven_le (q n : ℕ) : roundHalfEven q n ≤ q * (n / q + 1) := by
  unfold roundHalfEven
  split_ifs
  · exact Nat.mul_le_mul_left q (Nat.le_succ _)
  · exact Nat.le_refl _

theorem le_roundHalfEven (q n : ℕ) : q * (n / q) ≤ roundHalfEven q n := by
  unfold roundHalfEven
  split_ifs
  · exact Nat.le_refl _
  · exact Nat.mul_le_mul_left q (Nat.le_succ _)

variable {q n : ℕ}

theorem roundHalfEven_of_dvd (hq : 0 < q) (h : q ∣ n) : roundHalfEven q n = n := by
  unfold roundHalfEven
  rw [Nat.mod_eq_zero_of_dvd h, if_pos (Or.inl (by omega)), Nat.mul_div_cancel' h]

theorem roundHalfEven_near (hq : 0 < q) :
    2 * roundHalfEven q n ≤ 2 * n + q ∧ 2 * n ≤ 2 * roundHalfEven q n + q := by
  have hdiv := Nat.div_add_mod n q
  have hlt := Nat.mod_lt n hq
  unfold roundHalfEven
  split_ifs with h
  · omega
  · rw [Nat.mul_add, Nat.mul_one]
    omega

variable {m : ℕ}

/-- Rounding to the multiples of one step keeps the order. -/
theorem roundHalfEven_mono (h : m ≤ n) : roundHalfEven q m ≤ roundHalfEven q n := by
  rcases Nat.lt_or_ge (m / q) (n / q) with hlt | hge
  · calc roundHalfEven q m ≤ q * (m / q + 1) := roundHalfEven_le q m
      _ ≤ q * (n / q) := Nat.mul_le_mul_left q hlt
      _ ≤ roundHalfEven q n := le_roundHalfEven q n
  · -- same quotient: compare the remainders
    have heq : m / q = n / q := Nat.le_antisymm (Nat.div_le_div_right h) hge
    have hm := Nat.div_add_mod m q
    have hn := Nat.div_add_mod n q
    rw [heq] at hm
    have hr : m % q ≤ n % q := by omega
    unfold roundHalfEven
    rw [heq]
    split_ifs with h1 h2 h2
    · exact Nat.le_refl _
    · exact Nat.mul_le_mul_left q (Nat.le_succ _)
    · omega
    · exact Nat.le_refl _

/-! ## Conversion to binary64 -/

theorem toBinary64_of_lt (h : n < 2 ^ 53) : toBinary64 n = n := if_pos h

theorem toBinary64_of_ge (h : 2 ^ 53 ≤ n) : toBinary64 n = roundHalfEven (2 ^ (n.log2 - 52)) n :=
  if_neg (Nat.not_lt.mpr h)

/-- From `2 ^ 53` on the spacing is a power of two that leaves 53 bits. -/
theorem exists_spacing (h : 2 ^ 53 ≤ n) :
    ∃ k, n.log2 = k + 52 ∧ 2 ^ 52 * 2 ^ k ≤ n ∧ n < 2 ^ 53 * 2 ^ k := by
  have hn : n ≠ 0 := by omega
  have hlog : 53 ≤ n.log2 := (Nat.le_log2 hn).mpr h
  refine ⟨n.log2 - 52, by omega, ?_, ?_⟩
  · rw [← Nat.pow_add]
    exact (Nat.le_log2 hn).mp (by omega)
  · rw [← Nat.pow_add]
    exact (Nat.log2_lt hn).mp (by omega)

/-- The conversion stays within the binade of its argument. -/
theorem toBinary64_bounds {k : ℕ} (h : 2 ^ 53 ≤ n) (hk : n.log2 = k + 52)
    (hlo : 2 ^ 52 * 2 ^ k ≤ n) (hhi : n < 2 ^ 53 * 2 ^ k) :
    2 ^ 52 * 2 ^ k ≤ toBinary64 n ∧ toBinary64 n ≤ 2 ^ 53 * 2 ^ k := by
  have hq : 0 < 2 ^ k := Nat.two_pow_pos k
  rw [toBinary64_of_ge h, show n.log2 - 52 = k by omega]
  have hdlo : 2 ^ 52 ≤ n / 2 ^ k := (Nat.le_div_iff_mul_le hq).mpr hlo
  have hdhi : n / 2 ^ k < 2 ^ 53 := (Nat.div_lt_iff_lt_mul hq).mpr hhi
  constructor
  · calc 2 ^ 52 * 2 ^ k = 2 ^ k * 2 ^ 52 := Nat.mul_comm _ _
      _ ≤ 2 ^ k * (n / 2 ^ k) := Nat.mul_le_mul_left _ hdlo
      _ ≤ _ := le_roundHalfEven _ _
  · calc _ ≤ 2 ^ k * (n / 2 ^ k + 1) := roundHalfEven_le _ _
      _ ≤ 2 ^ k * 2 ^ 53 := Nat.mul_le_mul_left _ hdhi
      _ = 2 ^ 53 * 2 ^ k := Nat.mul_comm _ _

theorem toBinary64_le_two_mul (n : ℕ) : toBinary64 n ≤ 2 * n := by
  rcases Nat.lt_or_ge n (2 ^ 53) with hn | hn
  · rw [toBinary64_of_lt hn]
    omega
  · obtain ⟨k, hk, hlo, -⟩ := exists_spacing hn
    have hnear := (roundHalfEven_near (n := n) (Nat.two_pow_pos k)).1
    rw [toBinary64_of_ge hn, show n.log2 - 52 = k by omega]
    omega

theorem toBinary64_mono (h : m ≤ n) : toBinary64 m ≤ toBinary64 n := by
  rcases Nat.lt_or_ge n (2 ^ 53) with hn | hn
  · rw [toBinary64_of_lt hn, toBinary64_of_lt (Nat.lt_of_le_of_lt h hn)]
    exact h
  obtain ⟨k, hk, hlo, hhi⟩ := exists_spacing hn
  obtain ⟨hnlo, -⟩ := toBinary64_bounds hn hk hlo hhi
  rcases Nat.lt_or_ge m (2 ^ 53) with hm | hm
  · rw [toBinary64_of_lt hm]
    rcases Nat.lt_or_ge m (2 ^ 52 * 2 ^ k) with hlt | hge
    · omega
    · -- only the lowest binade reaches below `2 ^ 53`; it is exact there
      have hk0 : 2 ^ k < 2 := by
        refine Nat.lt_of_mul_lt_mul_left (a := 2 ^ 52) ?_
        omega
      have : 53 ≤ n.log2 := (Nat.le_log2 (by omega)).mpr hn
      have : 2 ^ 1 ≤ 2 ^ k := Nat.pow_le_pow_right (by norm_num) (by omega)
      omega
  · obtain ⟨j, hj, hmlo, hmhi⟩ := exists_spacing hm
    obtain ⟨-, hmle⟩ := toBinary64_bounds hm hj hmlo hmhi
    rcases Nat.lt_trichotomy j k with hlt | rfl | hgt
    · have hpow : 2 ^ (j + 1) ≤ 2 ^ k := Nat.pow_le_pow_right (by norm_num) hlt
      rw [Nat.pow_succ] at hpow
      omega
    · rw [toBinary64_of_ge hm, toBinary64_of_ge hn, hj, hk]
      exact roundHalfEven_mono h
    · have hpow : 2 ^ (k + 1) ≤ 2 ^ j := Nat.pow_le_pow_right (by norm_num) hgt
      rw [Nat.pow_succ] at hpow
      omega

/-- A multiple of `2 ^ 10` below `2 ^ 63` has at most 53 significant bits. -/
theorem toBinary64_of_dvd (hlt : n < 2 ^ 63) (h : 2 ^ 10 ∣ n) : toBinary64 n = n := by
  rcases Nat.lt_or_ge n (2 ^ 53) with hn | hn
  · exact toBinary64_of_lt hn
  obtain ⟨k, hk, -, -⟩ := exists_spacing hn
  have hlog : n.log2 < 63 := (Nat.log2_lt (by omega)).mpr hlt
  rw [toBinary64_of_ge hn, hk]
  exact roundHalfEven_of_dvd (Nat.two_pow_pos _)
    ((Nat.pow_dvd_pow 2 (by omega)).trans h)

/-- In the binade of `2 ^ 63` values are multiples of `2 ^ 11` at most `2 ^ 10`
away. -/
theorem toBinary64_top (hlo : 2 ^ 63 ≤ n) (hhi : n < 2 ^ 64) :
    2 ^ 11 ∣ toBinary64 n ∧ toBinary64 n ≤ n + 2 ^ 10 ∧ n ≤ toBinary64 n + 2 ^ 10 := by
  have hn : n ≠ 0 := by omega
  have hlog : n.log2 = 63 := by
    have h1 := (Nat.le_log2 hn).mpr hlo
    have h2 := (Nat.log2_lt hn).mpr hhi
    omega
  rw [toBinary64_of_ge (by omega), hlog, show 63 - 52 = 11 from rfl]
  have hnear := roundHalfEven_near (q := 2 ^ 11) (n := n) (by norm_num)
  refine ⟨?_, by omega, by omega⟩
  unfold roundHalfEven
  split_ifs <;> exact Dvd.intro _ rfl

variable {a b : ℕ}

/-- **Overflow is seen.** If the sum of two 64-bit numbers overflows, so does
their binary64 sum: the conversions and the rounding of the sum together never
hide it. -/
theorem le_toBinary64_add (ha : a < 2 ^ 64) (hb : b < 2 ^ 64) (h : 2 ^ 64 ≤ a + b) :
    2 ^ 64 ≤ toBinary64 (toBinary64 a + toBinary64 b) := by
  wlog hab : b ≤ a generalizing a b
  · rw [Nat.add_comm]
    exact this hb ha (by omega) (by omega)
  obtain ⟨⟨q, hq⟩, hle, hge⟩ := toBinary64_top (n := a) (by omega) ha
  have htop : toBinary64 (2 ^ 64 - 2 ^ 10) = 2 ^ 64 := by decide
  -- the other summand reaches at least `2 ^ 64 - 2 ^ 10` less the first
  have hsum : 2 ^ 64 - 2 ^ 10 ≤ toBinary64 a + toBinary64 b := by
    rcases Nat.lt_or_ge (toBinary64 a) (2 ^ 64 - 2 ^ 10) with hlt | hge'
    · have hdvd : 2 ^ 10 ∣ 2 ^ 64 - 2 ^ 10 - toBinary64 a := by omega
      have hb' : 2 ^ 64 - 2 ^ 10 - toBinary64 a ≤ b := by omega
      have hmono := toBinary64_mono hb'
      rw [toBinary64_of_dvd (by omega) hdvd] at hmono
      omega
    · omega
  calc 2 ^ 64 = toBinary64 (2 ^ 64 - 2 ^ 10) := htop.symm
    _ ≤ _ := toBinary64_mono hsum

theorem toBinary64_le_add (h : n < 2 ^ 64) : toBinary64 n ≤ n + 2 ^ 10 := by
  rcases Nat.lt_or_ge n (2 ^ 63) with hn | hn
  · -- the next multiple of the spacing is its own rounding
    have hnext : toBinary64 n ≤ toBinary64 ((n / 2 ^ 10 + 1) * 2 ^ 10) := by
      apply toBinary64_mono
      omega
    have hdvd : 2 ^ 10 ∣ (n / 2 ^ 10 + 1) * 2 ^ 10 := Nat.dvd_mul_left _ _
    have hself : toBinary64 ((n / 2 ^ 10 + 1) * 2 ^ 10) = (n / 2 ^ 10 + 1) * 2 ^ 10 := by
      rcases Nat.lt_or_ge ((n / 2 ^ 10 + 1) * 2 ^ 10) (2 ^ 63) with hlt | hge
      · exact toBinary64_of_dvd hlt hdvd
      · have htop : toBinary64 (2 ^ 63) = 2 ^ 63 := by decide
        rw [show (n / 2 ^ 10 + 1) * 2 ^ 10 = 2 ^ 63 by omega, htop]
    omega
  · exact (toBinary64_top hn h).2.1

/-- **Overflow is not seen early.** A sum whose binary64 sum overflows nearly overflows. -/
theorem add_ge_of_toBinary64_add (ha : a < 2 ^ 64) (hb : b < 2 ^ 64)
    (h : 2 ^ 64 ≤ toBinary64 (toBinary64 a + toBinary64 b)) : 2 ^ 64 ≤ a + b + 3 * 2 ^ 10 := by
  have hsum : toBinary64 a + toBinary64 b ≤ a + 2 ^ 10 + (b + 2 ^ 10) :=
    Nat.add_le_add (toBinary64_le_add ha) (toBinary64_le_add hb)
  rcases Nat.lt_or_ge (toBinary64 a + toBinary64 b) (2 ^ 64) with hlt | hge
  · have hround := toBinary64_le_add hlt
    omega
  · omega

end ClusterScheduler.Foundation
