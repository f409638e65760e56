import CseMachine.Proofs.Binary64.Arithmetic

/-!
# Powers of ten in doubles

A power is made by repeated squaring, and every product is rounded once. As a rounding is
off by one part in `2 ^ 53` at most, a power of ten lies between the powers of a ten that is
a little too small and of one that is a little too large. That tells which powers of ten
are finite doubles.
-/
namespace CseMachine.Binary64

variable {x y : Float} {a : Bool} {q v w : ℚ} {m m' n : ℕ} {e e' : ℤ}

/-! ## The error of a rounding -/

namespace Lands

theorem error_le (h : Lands q m e) : |(m : ℚ) * 2 ^ e - q| ≤ 2 ^ e / 2 := by
  have hpos := two_zpow_pos e
  calc |(m : ℚ) * 2 ^ e - q| = |(m : ℚ) - q / 2 ^ e| * 2 ^ e := by
        rw [← abs_of_pos hpos, ← abs_mul, abs_of_pos hpos, sub_mul, div_mul_cancel₀ _ hpos.ne']
    _ ≤ 1 / 2 * 2 ^ e := mul_le_mul_of_nonneg_right h.rounds.near hpos.le
    _ = 2 ^ e / 2 := by ring

/-- What is not below the least double with a full mantissa is off by a part of itself. -/
theorem relative_error (h : Lands q m e) (hq : 2 ^ (-1022 : ℤ) ≤ q) : |(m : ℚ) * 2 ^ e - q| ≤ q / 2 ^ 53 := by
  have hfull : 2 ^ 52 * 2 ^ e ≤ q := by
    rcases h.above with rfl | habove
    · exact (zpow_add₀ two_ne_zero 52 (-1074)).symm.trans_le hq
    · exact habove
  linarith [h.error_le]

/-- Below it the error is at most half of the least double. -/
theorem mixed_error (h : Lands q m e) (hq : 0 ≤ q) :
    |(m : ℚ) * 2 ^ e - q| ≤ q / 2 ^ 53 + 2 ^ (-1075 : ℤ) := by
  have hleast : (0 : ℚ) < 2 ^ (-1075 : ℤ) := two_zpow_pos _
  have herror := h.error_le
  rcases h.above with rfl | habove
  · have hhalf : (2 : ℚ) ^ (-1074 : ℤ) / 2 = 2 ^ (-1075 : ℤ) := (zpow_sub_one₀ two_ne_zero (-1074)).symm
    have hpart : 0 ≤ q / 2 ^ 53 := by positivity
    linarith
  · linarith

/-- Rounding does not pass a double. -/
theorem le_of_le (h : Lands q m e) (hf : Fits m' e') (hq : q ≤ m' * 2 ^ e') : (m : ℚ) * 2 ^ e ≤ m' * 2 ^ e' := by
  have hnear := (h.nearest hf).1
  rw [abs_of_nonneg (sub_nonneg.mpr hq)] at hnear
  linarith [le_abs_self ((m : ℚ) * 2 ^ e - q)]

/-- Infinity begins half a last place beyond the greatest double. -/
theorem overflows_iff (h : Lands q m e) : 2 ^ (1024 : ℤ) ≤ (m : ℚ) * 2 ^ e ↔ (2 ^ 53 - 1 / 2) * 2 ^ (971 : ℤ) ≤ q := by
  have hpos := two_zpow_pos e
  have htop : (2 : ℚ) ^ (1024 : ℤ) = 2 ^ 53 * 2 ^ (971 : ℤ) := zpow_add₀ two_ne_zero 53 971
  obtain ⟨unit, hunit⟩ : ∃ unit : ℚ, 2 ^ (971 : ℤ) = unit := ⟨_, rfl⟩
  have hunit_pos : 0 < unit := hunit ▸ two_zpow_pos 971
  rw [htop, hunit]
  rcases lt_trichotomy e 971 with he | rfl | he
  · -- A smaller last place leaves at most half of the range.
    have hstep : (2 : ℚ) ^ e * 2 ≤ unit := by
      rw [← zpow_add_one₀ two_ne_zero, ← hunit]
      exact zpow_le_zpow_right₀ one_le_two (by omega)
    have hmost : (m : ℚ) ≤ 2 ^ 53 := by exact_mod_cast h.mantissa_le
    have hhalf : (m : ℚ) * 2 ^ e ≤ 2 ^ 53 * 2 ^ e := mul_le_mul_of_nonneg_right hmost hpos.le
    have hbelow := h.below
    exact iff_of_false (not_le.mpr (by linarith)) (not_le.mpr (by linarith))
  · rw [← hunit, mul_le_mul_iff_left₀ hpos, ← le_div_iff₀ hpos]
    obtain ⟨hnear, heven⟩ := h.rounds
    constructor
    · intro hm
      linarith [(abs_le.mp hnear).2]
    · intro hq
      -- Only the odd mantissa below `2 ^ 53` is near enough, and a tie goes to an even one.
      by_contra hless
      have hm : m + 1 ≤ 2 ^ 53 := by exact_mod_cast not_le.mp hless
      have hm' : (m : ℚ) + 1 ≤ 2 ^ 53 := by exact_mod_cast hm
      have hlow := (abs_le.mp hnear).1
      have hself : (m : ℚ) + 1 = 2 ^ 53 := by linarith
      have htie : |(m : ℚ) - q / 2 ^ (971 : ℤ)| = 1 / 2 := by
        refine le_antisymm hnear ?_
        rw [abs_sub_comm]
        exact le_trans (by linarith) (le_abs_self _)
      have hnat : m + 1 = 2 ^ 53 := by exact_mod_cast hself
      have := heven htie
      omega
  · have habove : 2 ^ 52 * 2 ^ e ≤ q := h.above.resolve_left (by omega)
    have hfull : (2 : ℚ) ^ 52 ≤ m := by exact_mod_cast h.le_mantissa.resolve_left (by omega)
    have hmore : 2 ^ 52 * 2 ^ e ≤ (m : ℚ) * 2 ^ e := mul_le_mul_of_nonneg_right hfull hpos.le
    have hstep : unit * 2 ≤ (2 : ℚ) ^ e := by
      rw [← hunit, ← zpow_add_one₀ two_ne_zero]
      exact zpow_le_zpow_right₀ one_le_two (by omega)
    exact iff_of_true (by linarith) (by linarith)

end Lands

/-! ## Products -/

/-- A product of positive doubles is off by one part in `2 ^ 53` at most. -/
theorem denotes_mul_near (hx : Denotes x false v) (hy : Denotes y false w) (hv : 1 ≤ v) (hw : 1 ≤ w)
    (hv' : v < 2 ^ (1024 : ℤ)) (hw' : w < 2 ^ (1024 : ℤ)) :
    ∃ p, Denotes (x * y) false p ∧ v * w * (1 - 1 / 2 ^ 53) ≤ p ∧ p ≤ v * w * (1 + 1 / 2 ^ 53) := by
  obtain ⟨m, e, hxp, rfl⟩ := hx.exists_parts hv'
  obtain ⟨n, f, hyp, rfl⟩ := hy.exists_parts hw'
  have hm : 0 < m := by
    rcases Nat.eq_zero_or_pos m with rfl | hm
    · rw [Nat.cast_zero, zero_mul] at hv
      exact absurd hv (by norm_num)
    · exact hm
  have hn : 0 < n := by
    rcases Nat.eq_zero_or_pos n with rfl | hn
    · rw [Nat.cast_zero, zero_mul] at hw
      exact absurd hw (by norm_num)
    · exact hn
  obtain ⟨m', e', hlands, hdenotes⟩ := denotes_mul hxp hyp hm hn
  have hone : 1 ≤ (m : ℚ) * 2 ^ e * (n * 2 ^ f) := one_le_mul_of_one_le_of_one_le hv hw
  have hfull : (2 : ℚ) ^ (-1022 : ℤ) ≤ 1 := zpow_le_one_of_nonpos₀ one_le_two (by decide)
  have herror := abs_le.mp (hlands.relative_error (hfull.trans hone))
  exact ⟨_, hdenotes, by linarith, by linarith⟩

/-! ## Powers of ten -/

/-- A ten that is too small by one part in `2 ^ 53`. -/
def lowTen : ℚ := 10 * (1 - 1 / 2 ^ 53)

/-- A ten that is too large by one part in `2 ^ 53`. -/
def highTen : ℚ := 10 * (1 + 1 / 2 ^ 53)

/-- Up to this power ten has finite doubles. -/
def maxPower : ℕ := 308

theorem one_le_lowTen : 1 ≤ lowTen := by norm_num [lowTen]

theorem one_le_highTen : 1 ≤ highTen := by norm_num [highTen]

theorem highTen_pow_lt : highTen ^ maxPower < 2 ^ (1024 : ℤ) :=
  calc highTen ^ maxPower = (highTen ^ 154) ^ 2 := pow_mul highTen 154 2
    _ < ((2 : ℚ) ^ 256) ^ 4 := by norm_num [highTen]
    _ = 2 ^ (1024 : ℤ) := by rw [← pow_mul]; rfl

/-- The greatest finite power leaves room for half of itself above half of the range. -/
theorem highTen_pow_le : 3 / 4 * highTen ^ maxPower ≤ (2 ^ 52 - 1) * 2 ^ (971 : ℤ) :=
  calc 3 / 4 * highTen ^ maxPower = 3 / 4 * (highTen ^ 154) ^ 2 := congrArg (3 / 4 * ·) (pow_mul highTen 154 2)
    _ ≤ (2 ^ 52 - 1) * ((2 ^ 256) ^ 3 * 2 ^ 203) := by norm_num [highTen]
    _ = (2 ^ 52 - 1) * 2 ^ (971 : ℤ) := by rw [← pow_mul, ← pow_add]; rfl

theorem le_lowTen_pow : 2 ^ (1024 : ℤ) ≤ lowTen ^ (maxPower + 1) :=
  calc (2 : ℚ) ^ (1024 : ℤ) = ((2 : ℚ) ^ 256) ^ 4 := by rw [← pow_mul]; rfl
    _ ≤ (lowTen ^ 103) ^ 3 := by norm_num [lowTen]
    _ = lowTen ^ (maxPower + 1) := (pow_mul lowTen 103 3).symm

/-- A rounded `n`-th power of ten. -/
structure PowerOfTen (n : ℕ) (v : ℚ) : Prop where
  low : lowTen ^ n ≤ v
  high : v ≤ highTen ^ n

/-- A rounded power of ten that stays one when it is rounded once more. -/
structure FirmPower (n : ℕ) (v : ℚ) : Prop where
  low : lowTen ^ n ≤ v * (1 - 1 / 2 ^ 53)
  high : v * (1 + 1 / 2 ^ 53) ≤ highTen ^ n

theorem PowerOfTen.one_le (h : PowerOfTen n v) : 1 ≤ v := (one_le_pow₀ one_le_lowTen).trans h.low

theorem PowerOfTen.lt (h : PowerOfTen n v) (hn : n ≤ maxPower) : v < 2 ^ (1024 : ℤ) :=
  calc v ≤ highTen ^ n := h.high
    _ ≤ highTen ^ maxPower := pow_le_pow_right₀ one_le_highTen hn
    _ < 2 ^ (1024 : ℤ) := highTen_pow_lt

theorem FirmPower.powerOfTen (h : FirmPower n v) : PowerOfTen n v := by
  have hlow := h.low
  have hhigh := h.high
  have hone : 1 ≤ lowTen ^ n := one_le_pow₀ one_le_lowTen
  have hpos : 0 < v := by linarith
  exact ⟨by linarith, by linarith⟩

variable {i j : ℕ}

theorem PowerOfTen.mul (hv : PowerOfTen i v) (hw : FirmPower j w) (hx : Denotes x false v) (hy : Denotes y false w)
    (hi : i ≤ maxPower) (hj : j ≤ maxPower) : ∃ p, Denotes (x * y) false p ∧ PowerOfTen (i + j) p := by
  have hw' := hw.powerOfTen
  obtain ⟨p, hp, hlow, hhigh⟩ := denotes_mul_near hx hy hv.one_le hw'.one_le (hv.lt hi) (hw'.lt hj)
  have hv_nonneg : 0 ≤ v := zero_le_one.trans hv.one_le
  have hw_nonneg : 0 ≤ w := zero_le_one.trans hw'.one_le
  refine ⟨p, hp, ⟨?_, ?_⟩⟩
  · calc lowTen ^ (i + j) = lowTen ^ i * lowTen ^ j := pow_add _ _ _
      _ ≤ v * (w * (1 - 1 / 2 ^ 53)) := mul_le_mul hv.low hw.low (pow_nonneg (by norm_num [lowTen]) j) hv_nonneg
      _ ≤ p := by rwa [← mul_assoc]
  · calc p ≤ v * (w * (1 + 1 / 2 ^ 53)) := by rwa [← mul_assoc]
      _ ≤ highTen ^ i * highTen ^ j := mul_le_mul hv.high hw.high (by positivity) (pow_nonneg (by norm_num [highTen]) i)
      _ = highTen ^ (i + j) := (pow_add _ _ _).symm

theorem FirmPower.square (hv : FirmPower j v) (hx : Denotes x false v) (hj : j ≤ maxPower) :
    ∃ p, Denotes (x * x) false p ∧ FirmPower (2 * j) p := by
  have hv' := hv.powerOfTen
  obtain ⟨p, hp, hlow, hhigh⟩ := denotes_mul_near hx hx hv'.one_le hv'.one_le (hv'.lt hj) (hv'.lt hj)
  have hv_nonneg : 0 ≤ v := zero_le_one.trans hv'.one_le
  refine ⟨p, hp, ⟨?_, ?_⟩⟩
  · calc lowTen ^ (2 * j) = lowTen ^ j * lowTen ^ j := by rw [two_mul, pow_add]
      _ ≤ v * (1 - 1 / 2 ^ 53) * (v * (1 - 1 / 2 ^ 53)) :=
          mul_le_mul hv.low hv.low (pow_nonneg (by norm_num [lowTen]) j) (mul_nonneg hv_nonneg (by norm_num))
      _ = v * v * (1 - 1 / 2 ^ 53) * (1 - 1 / 2 ^ 53) := by ring
      _ ≤ p * (1 - 1 / 2 ^ 53) := mul_le_mul_of_nonneg_right hlow (by norm_num)
  · calc p * (1 + 1 / 2 ^ 53) ≤ v * v * (1 + 1 / 2 ^ 53) * (1 + 1 / 2 ^ 53) :=
          mul_le_mul_of_nonneg_right hhigh (by norm_num)
      _ = v * (1 + 1 / 2 ^ 53) * (v * (1 + 1 / 2 ^ 53)) := by ring
      _ ≤ highTen ^ j * highTen ^ j := mul_le_mul hv.high hv.high (by positivity) (pow_nonneg (by norm_num [highTen]) j)
      _ = highTen ^ (2 * j) := by rw [two_mul, pow_add]

/-- The factors gathered so far are fewer than those of the squares, so every product is one of two
finite doubles as long as the power stays below the 512-th. -/
theorem powNatLoop_near {acc base : Float} {t : ℕ} (hn : 0 < n) (hacc : Denotes acc false v) (hv : PowerOfTen i v)
    (hbase : Denotes base false w) (hw : FirmPower (2 ^ t) w) (hi : i < 2 ^ t) (hbound : i + 2 ^ t * n < 512) :
    ∃ p, Denotes (powNatLoop acc base n) false p ∧ PowerOfTen (i + 2 ^ t * n) p := by
  induction n using Nat.strongRecOn generalizing acc base t i v w with
  | ind n ih =>
    have hsquare : 2 ^ t ≤ 256 := by
      have hlt : 2 ^ t < 2 ^ 9 := (Nat.le_mul_of_pos_right _ hn).trans_lt (by omega)
      exact Nat.pow_le_pow_right two_pos (Nat.le_of_lt_succ ((Nat.pow_lt_pow_iff_right one_lt_two).mp hlt))
    have hj : 2 ^ t ≤ maxPower := hsquare.trans (by decide)
    have hdouble : 2 * 2 ^ t = 2 ^ (t + 1) := (pow_succ' 2 t).symm
    rw [powNatLoop, dif_neg hn.ne']
    by_cases hodd : n % 2 = 1
    · obtain ⟨p, hp, hpower⟩ := hv.mul hw hacc hbase (hi.le.trans hj) hj
      have hsum : i + 2 ^ t * n = i + 2 ^ t + 2 ^ (t + 1) * (n / 2) := by
        have hself : n = 2 * (n / 2) + 1 := by omega
        calc i + 2 ^ t * n = i + 2 ^ t * (2 * (n / 2) + 1) := by rw [← hself]
          _ = i + 2 ^ t + 2 * 2 ^ t * (n / 2) := by ring
          _ = i + 2 ^ t + 2 ^ (t + 1) * (n / 2) := by rw [hdouble]
      simp only [if_pos hodd]
      by_cases hlast : n / 2 = 0
      · rw [if_pos hlast, hsum, hlast, mul_zero, add_zero]
        exact ⟨p, hp, hpower⟩
      · obtain ⟨w', hbase', hw'⟩ := hw.square hbase hj
        rw [hdouble] at hw'
        rw [if_neg hlast, hsum]
        exact ih (n / 2) (by omega) (by omega) hp hpower hbase' hw' (by omega) (by omega)
    · have hsum : i + 2 ^ t * n = i + 2 ^ (t + 1) * (n / 2) := by
        have hself : n = 2 * (n / 2) := by omega
        calc i + 2 ^ t * n = i + 2 ^ t * (2 * (n / 2)) := by rw [← hself]
          _ = i + 2 * 2 ^ t * (n / 2) := by ring
          _ = i + 2 ^ (t + 1) * (n / 2) := by rw [hdouble]
      have hmore : ¬n / 2 = 0 := by omega
      obtain ⟨w', hbase', hw'⟩ := hw.square hbase hj
      rw [hdouble] at hw'
      simp only [if_neg hodd]
      rw [if_neg hmore, hsum]
      exact ih (n / 2) (by omega) (by omega) hacc hv hbase' hw' (by omega) (by omega)

theorem powNat_ten_near (hn : 0 < n) (hbound : n < 512) :
    ∃ v, Denotes (powNat 10.0 n) false v ∧ PowerOfTen n v := by
  have hone : Denotes 1.0 false ((2 ^ 52 : ℕ) * 2 ^ (-52 : ℤ)) := .finite (by decide)
  have hten : Denotes 10.0 false ((5 * 2 ^ 50 : ℕ) * 2 ^ (-49 : ℤ)) := .finite (by decide)
  have hvalue : ((2 ^ 52 : ℕ) : ℚ) * 2 ^ (-52 : ℤ) = 1 := by norm_num
  have hvalue' : ((5 * 2 ^ 50 : ℕ) : ℚ) * 2 ^ (-49 : ℤ) = 10 := by norm_num
  rw [hvalue] at hone
  rw [hvalue'] at hten
  have hstart : PowerOfTen 0 1 := ⟨(pow_zero _).le, (pow_zero _).ge⟩
  have hfirm : FirmPower (2 ^ 0) 10 := ⟨(pow_one _).le, (pow_one _).ge⟩
  have h := powNatLoop_near hn hone hstart hten hfirm (by decide) (by omega)
  rwa [pow_zero, one_mul, zero_add] at h

/-- Up to the 308-th the powers of ten are finite. -/
theorem parts_powNat_ten (hn : 0 < n) (hmax : n ≤ maxPower) :
    ∃ m e, parts (powNat 10.0 n) = .finite false m e ∧ PowerOfTen n (m * 2 ^ e) := by
  obtain ⟨v, hv, hpower⟩ := powNat_ten_near hn (hmax.trans_lt (by decide))
  obtain ⟨m, e, hparts, rfl⟩ := hv.exists_parts (hpower.lt hmax)
  exact ⟨m, e, hparts, hpower⟩

/-- Above it they are not. -/
theorem parts_powNat_ten_inf (hmin : maxPower < n) (hbound : n < 512) : parts (powNat 10.0 n) = .inf false := by
  obtain ⟨v, hv, hpower⟩ := powNat_ten_near (Nat.zero_lt_of_lt hmin) hbound
  have hlarge : 2 ^ (1024 : ℤ) ≤ v :=
    calc (2 : ℚ) ^ (1024 : ℤ) ≤ lowTen ^ (maxPower + 1) := le_lowTen_pow
      _ ≤ lowTen ^ n := pow_le_pow_right₀ one_le_lowTen hmin
      _ ≤ v := hpower.low
  rcases hv.parts_cases with ⟨m, e, hparts, rfl⟩ | ⟨hparts, -⟩
  · exact absurd hlarge (not_le.mpr (lt_of_parts hparts))
  · exact hparts

end CseMachine.Binary64
