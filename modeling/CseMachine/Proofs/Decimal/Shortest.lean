import CseMachine.Decimal
import CseMachine.Proofs.Binary64.Exact
import CseMachine.Proofs.Binary64.Nearest

/-!
# The digits of a double

The digits of a double are sought on coarser and coarser grids of decimals, and a decimal
on a grid counts if it lies in the interval of what is rounded to the double. Seventeen
digits are always enough: their grid has a step that is smaller than the interval, so one
of the two neighbours of the double is inside. What is found is rounded to the double
again.
-/
namespace CseMachine

namespace Binary64.Lands

variable {q : ℚ} {m m' : ℕ} {e e' : ℤ}

/-- The size of a number decides which place is the last. -/
theorem exponent_le (h : Lands q m e) (h' : Lands q m' e') : e ≤ e' := by
  by_contra hlt
  have habove := h.above.resolve_left (by have := h'.least; omega)
  have hstep : (2 : ℚ) ^ e' * 2 ≤ 2 ^ e := by
    rw [← zpow_add_one₀ two_ne_zero]
    exact zpow_le_zpow_right₀ one_le_two (by omega)
  linarith [h'.below]

/-- A number is rounded to one double only. -/
theorem unique (h : Lands q m e) (h' : Lands q m' e') : m = m' ∧ e = e' := by
  obtain rfl := le_antisymm (h.exponent_le h') (h'.exponent_le h)
  exact ⟨Rounds.unique h.rounds h'.rounds, rfl⟩

end Binary64.Lands

theorem Binary64.rounds_of_bounds {t : ℚ} {m : ℕ} (hlow : (m : ℚ) - 1 / 2 ≤ t) (hhigh : t ≤ m + 1 / 2)
    (hinside : m % 2 = 1 → (m : ℚ) - 1 / 2 < t ∧ t < m + 1 / 2) : Binary64.Rounds t m where
  near := by
    rw [abs_le]
    constructor <;> linarith
  even htie := by
    by_contra hodd
    obtain ⟨hlow', hhigh'⟩ := hinside (by omega)
    refine absurd htie (ne_of_lt ?_)
    rw [abs_lt]
    constructor <;> linarith

namespace Decimal

open Binary64

variable {m d n num den : ℕ} {e k : ℤ} {q : ℚ}

/-! ## Sizes -/

/-- The number that a decimal is. -/
def value (d : Decimal) : ℚ := d.digits * 10 ^ d.exponent

theorem width_pos (n : ℕ) : 0 < width n := Nat.length_toDigits_pos

theorem lt_pow_width (n : ℕ) : n < 10 ^ width n := (Nat.length_toDigits_le_iff (by decide) (width_pos n)).mp le_rfl

theorem pow_width_le (hn : 0 < n) : 10 ^ (width n - 1) ≤ n := by
  by_contra hlt
  rcases Nat.lt_or_ge 1 (width n) with hlong | hshort
  · have := (Nat.length_toDigits_le_iff (b := 10) (by decide) (Nat.sub_pos_of_lt hlong)).mpr (not_le.mp hlt)
    have : width n ≤ width n - 1 := this
    omega
  · rw [Nat.sub_eq_zero_of_le hshort, pow_zero] at hlt
    omega

/-- The power of ten at the leading digit is not above the quotient. -/
theorem pow_order_le (hnum : 0 < num) (hden : 0 < den) : (10 : ℚ) ^ order num den ≤ num / den := by
  have hd : (0 : ℚ) < den := Nat.cast_pos.mpr hden
  have hn : (0 : ℚ) < num := Nat.cast_pos.mpr hnum
  rw [order]
  split
  · next h =>
    have hpos : 0 < num / den := Nat.div_pos h hden
    have hexp : (width (num / den) : ℤ) - 1 = ((width (num / den) - 1 : ℕ) : ℤ) := by
      have := width_pos (num / den)
      omega
    rw [hexp, zpow_natCast]
    calc (10 : ℚ) ^ (width (num / den) - 1) ≤ ((num / den : ℕ) : ℚ) := by exact_mod_cast pow_width_le hpos
      _ ≤ num / den := Nat.cast_div_le
  · next h =>
    -- The next whole number above the reciprocal is not above the power behind it.
    have hup : den ≤ num * 10 ^ width ((den + num - 1) / num - 1) := by
      have hlt := lt_pow_width ((den + num - 1) / num - 1)
      have hceil : den ≤ num * ((den + num - 1) / num) := by
        have hmod := Nat.mod_lt (den + num - 1) hnum
        have hdiv := Nat.div_add_mod (den + num - 1) num
        omega
      exact hceil.trans (Nat.mul_le_mul_left num (by omega))
    rw [zpow_neg, zpow_natCast, le_div_iff₀ hd, inv_mul_le_iff₀ (by positivity), mul_comm]
    exact_mod_cast hup

/-- A power whose exponent may be negative, as a fraction. -/
theorem pow_toNat_div {a : ℕ} (ha : 0 < a) (z : ℤ) : ((a ^ z.toNat : ℕ) : ℚ) / (a ^ (-z).toNat : ℕ) = (a : ℚ) ^ z := by
  have hne : (a : ℚ) ≠ 0 := (Nat.cast_pos.mpr ha).ne'
  push_cast
  rw [← zpow_natCast, ← zpow_natCast, ← zpow_sub₀ hne]
  congr 1
  omega

/-! ## Grids -/

theorem quarter_pos (e k : ℤ) : 0 < (quarter e k).1 ∧ 0 < (quarter e k).2 :=
  ⟨Nat.mul_pos (Nat.pow_pos two_pos) (Nat.pow_pos (by decide)), Nat.mul_pos (Nat.pow_pos two_pos) (Nat.pow_pos (by decide))⟩

theorem quarter_div (e k : ℤ) : ((quarter e k).1 : ℚ) / (quarter e k).2 = 2 ^ (e - 2) / 10 ^ k := by
  have htwo := pow_toNat_div two_pos (e - 2)
  have hten := pow_toNat_div (show 0 < 10 by decide) (-k)
  rw [neg_sub] at htwo
  rw [neg_neg, zpow_neg] at hten
  rw [quarter, Nat.cast_mul, Nat.cast_mul, mul_div_mul_comm, Nat.pow_eq, Nat.pow_eq, Nat.pow_eq, Nat.pow_eq, htwo, hten,
    div_eq_mul_inv]
  norm_cast

/-- Quarters of a last place and steps of a grid are compared as integers. -/
theorem quarters_le (a d : ℕ) (e k : ℤ) :
    a * (quarter e k).1 ≤ d * (quarter e k).2 ↔ (a : ℚ) * 2 ^ (e - 2) ≤ d * 10 ^ k := by
  have hpos : (0 : ℚ) < (quarter e k).2 := Nat.cast_pos.mpr (quarter_pos e k).2
  have hten : (0 : ℚ) < 10 ^ k := by positivity
  rw [← Nat.cast_le (α := ℚ), Nat.cast_mul, Nat.cast_mul, ← div_le_iff₀ hpos, mul_div_assoc, quarter_div, ← mul_div_assoc,
    div_le_iff₀ hten]

theorem steps_le (a d : ℕ) (e k : ℤ) :
    d * (quarter e k).2 ≤ a * (quarter e k).1 ↔ (d : ℚ) * 10 ^ k ≤ a * 2 ^ (e - 2) := by
  have hpos : (0 : ℚ) < (quarter e k).2 := Nat.cast_pos.mpr (quarter_pos e k).2
  have hten : (0 : ℚ) < 10 ^ k := by positivity
  rw [← Nat.cast_le (α := ℚ), Nat.cast_mul, Nat.cast_mul, ← le_div_iff₀ hpos, mul_div_assoc, quarter_div, ← mul_div_assoc,
    le_div_iff₀ hten]

/-- A number in the interval of what is rounded to `m * 2 ^ e`; its ends belong to it if `m` is even. -/
structure Near (m : ℕ) (e : ℤ) (q : ℚ) : Prop where
  low : (lowerQuarters m e : ℚ) * 2 ^ (e - 2) ≤ q
  high : q ≤ (4 * m + 2 : ℕ) * 2 ^ (e - 2)
  inside : m % 2 = 1 → (lowerQuarters m e : ℚ) * 2 ^ (e - 2) < q ∧ q < (4 * m + 2 : ℕ) * 2 ^ (e - 2)

theorem lowerQuarters_bounds (m : ℕ) (e : ℤ) : 4 * m - 2 ≤ lowerQuarters m e ∧ lowerQuarters m e ≤ 4 * m - 1 := by
  rw [lowerQuarters]
  split <;> omega

/-- What is chosen on a grid is in the interval: of the two neighbours each one is looked at where it
could be outside, and the other end is farther away than the double itself. -/
theorem near_of_onGrid? (hm : 0 < m) (h : onGrid? m e k = some d) : Near m e (d * 10 ^ k) := by
  obtain ⟨hunit, hstep⟩ := quarter_pos e k
  have hbounds := lowerQuarters_bounds m e
  obtain ⟨slack, hslack⟩ : ∃ slack, (if m % 2 = 0 then 0 else 1) = slack := ⟨_, rfl⟩
  have hslack_le : slack ≤ 1 := by rw [← hslack]; split <;> omega
  -- In quarters of the last place and in whole numbers.
  have hinterval : lowerQuarters m e * (quarter e k).1 + slack ≤ d * (quarter e k).2 ∧
      d * (quarter e k).2 + slack ≤ (4 * m + 2) * (quarter e k).1 := by
    have hdiv := Nat.div_add_mod (4 * m * (quarter e k).1) (quarter e k).2
    have hmod := Nat.mod_lt (4 * m * (quarter e k).1) hstep
    have hlower : lowerQuarters m e * (quarter e k).1 + (quarter e k).1 ≤ 4 * m * (quarter e k).1 := by
      rw [← Nat.succ_mul]
      exact Nat.mul_le_mul_right _ (by omega)
    have hupper : 4 * m * (quarter e k).1 + 2 * (quarter e k).1 ≤ (4 * m + 2) * (quarter e k).1 := (Nat.add_mul _ _ _).ge
    rw [Nat.mul_comm] at hdiv
    have hnext := Nat.add_one_mul (4 * m * (quarter e k).1 / (quarter e k).2) (quarter e k).2
    unfold onGrid? at h
    rw [hslack] at h
    dsimp only at h
    split at h
    · next hlow hhigh =>
      have hlow := of_decide_eq_true hlow
      have hhigh := of_decide_eq_true hhigh
      obtain rfl := Option.some.inj h
      split <;> omega
    · next hlow _ =>
      have hlow := of_decide_eq_true hlow
      obtain rfl := Option.some.inj h
      omega
    · next _ hhigh =>
      have hhigh := of_decide_eq_true hhigh
      obtain rfl := Option.some.inj h
      omega
    · cases h
  obtain ⟨hlow, hhigh⟩ := hinterval
  refine ⟨(quarters_le _ _ e k).mp (by omega), (steps_le _ _ e k).mp (by omega), fun hodd => ⟨?_, ?_⟩⟩
  · rw [if_neg (by omega)] at hslack
    exact not_le.mp (mt (steps_le _ _ e k).mpr (by omega))
  · rw [if_neg (by omega)] at hslack
    exact not_le.mp (mt (quarters_le _ _ e k).mpr (by omega))

/-- A place is four quarters. -/
theorem place_eq (e : ℤ) : (2 : ℚ) ^ e = 2 ^ (e - 2) * 4 := by
  rw [zpow_sub₀ two_ne_zero]
  norm_num

/-- The interval reaches half of the last place down at most. -/
theorem half_place_le (m : ℕ) (e : ℤ) : ((m : ℚ) - 1 / 2) * 2 ^ e ≤ lowerQuarters m e * 2 ^ (e - 2) := by
  have hle : 4 * m ≤ lowerQuarters m e + 2 := by
    have := (lowerQuarters_bounds m e).1
    omega
  have hcast : 4 * (m : ℚ) ≤ lowerQuarters m e + 2 := by exact_mod_cast hle
  have hpos := two_zpow_pos (e - 2)
  calc ((m : ℚ) - 1 / 2) * 2 ^ e = (4 * m - 2) * 2 ^ (e - 2) := by rw [place_eq e]; ring
    _ ≤ lowerQuarters m e * 2 ^ (e - 2) := mul_le_mul_of_nonneg_right (by linarith) hpos.le

/-- Upwards it reaches half of the last place. -/
theorem half_place_eq (m : ℕ) (e : ℤ) : ((4 * m + 2 : ℕ) : ℚ) * 2 ^ (e - 2) = (m + 1 / 2) * 2 ^ e := by
  push_cast
  rw [place_eq e]
  ring

/-- In the interval the double is the nearest whole number of last places. -/
theorem Near.rounds (h : Near m e q) : Rounds (q / 2 ^ e) m := by
  have hpos := two_zpow_pos e
  have hlow := half_place_le m e
  have hhigh := half_place_eq m e
  refine rounds_of_bounds ?_ ?_ fun hodd => ⟨?_, ?_⟩
  · rw [le_div_iff₀ hpos]
    exact hlow.trans h.low
  · rw [div_le_iff₀ hpos]
    exact h.high.trans_eq hhigh
  · rw [lt_div_iff₀ hpos]
    exact hlow.trans_lt (h.inside hodd).1
  · rw [div_lt_iff₀ hpos]
    exact (h.inside hodd).2.trans_eq hhigh

/-- Below the least full mantissa the last place is half as large, and half as much of it belongs to the interval. -/
theorem Near.lands_below (hf : Fits m e) (h : Near m e q) (hexp : e ≠ -1074) (hless : q < 2 ^ 52 * 2 ^ e) :
    Lands q (2 ^ 53) (e - 1) ∧ m = 2 ^ 52 := by
  have hpos := two_zpow_pos (e - 2)
  have hhalf : (2 : ℚ) ^ (e - 1) = 2 ^ (e - 2) * 2 := by rw [← zpow_add_one₀ two_ne_zero]; congr 1; omega
  have hleast := hf.least
  have hself : m = 2 ^ 52 := by
    have hfull : 2 ^ 52 ≤ m := hf.above.resolve_left hexp
    by_contra hne
    have hmore : 2 ^ 52 + 1 ≤ m := by omega
    have hmore' : (2 : ℚ) ^ 52 + 1 ≤ m := by exact_mod_cast hmore
    have hbelow := (half_place_le m e).trans h.low
    have hover : (2 ^ 52 : ℚ) * 2 ^ e ≤ (m - 1 / 2) * 2 ^ e := mul_le_mul_of_nonneg_right (by linarith) (two_zpow_pos e).le
    linarith
  have hlow : (2 ^ 54 - 1 : ℚ) * 2 ^ (e - 2) ≤ q := by
    have hthree : lowerQuarters m e = 2 ^ 54 - 1 := by
      rw [lowerQuarters, if_pos ⟨hself, by omega⟩, hself]
      norm_num
    have hcast : (lowerQuarters m e : ℚ) = 2 ^ 54 - 1 := by rw [hthree]; norm_num
    exact hcast ▸ h.low
  rw [place_eq e] at hless
  refine ⟨⟨by omega, ?_, .inr ?_, rounds_of_bounds ?_ ?_ fun hodd => ?_⟩, hself⟩
  · rw [hhalf]
    linarith
  · rw [hhalf]
    linarith
  · rw [hhalf, le_div_iff₀ (by positivity)]
    push_cast
    linarith
  · rw [hhalf, div_le_iff₀ (by positivity)]
    push_cast
    linarith
  · exact absurd hodd (by decide)

/-- All of the interval is rounded to the double. -/
theorem Near.lands (hf : Fits m e) (h : Near m e q) :
    ∃ m' e', Lands q m' e' ∧ (m' : ℚ) * 2 ^ e' = m * 2 ^ e := by
  by_cases habove : e = -1074 ∨ 2 ^ 52 * 2 ^ e ≤ q
  · have hmost : (m : ℚ) + 1 ≤ 2 ^ 53 := by exact_mod_cast hf.below
    refine ⟨m, e, ⟨hf.least, ?_, habove, h.rounds⟩, rfl⟩
    calc q ≤ (m + 1 / 2) * 2 ^ e := h.high.trans_eq (half_place_eq m e)
      _ < 2 ^ 53 * 2 ^ e := mul_lt_mul_of_pos_right (by linarith) (two_zpow_pos e)
  · rw [not_or, not_le] at habove
    obtain ⟨hlands, hself⟩ := h.lands_below hf habove.1 habove.2
    refine ⟨2 ^ 53, e - 1, hlands, ?_⟩
    rw [hself, zpow_sub_one₀ two_ne_zero]
    push_cast
    ring

/-- Seventeen digits are enough: the grid's step is smaller than the interval, so the neighbours of the
double are not both outside. -/
theorem isSome_onGrid? (hf : Fits m e) (hm : 0 < m) (h : (10 : ℚ) ^ 16 * 10 ^ k ≤ m * 2 ^ e) : (onGrid? m e k).isSome = true := by
  obtain ⟨hunit, hstep⟩ := quarter_pos e k
  obtain ⟨slack, hslack⟩ : ∃ slack, (if m % 2 = 0 then 0 else 1) = slack := ⟨_, rfl⟩
  have hslack_le : slack ≤ 1 := by rw [← hslack]; split <;> omega
  have hpos := two_zpow_pos (e - 2)
  have hsmall : (10 : ℚ) ^ 16 * 10 ^ k ≤ 4 * m * 2 ^ (e - 2) := by
    rw [place_eq e] at h
    linarith
  by_contra hnone
  have hwide : (4 * m + 2 - lowerQuarters m e) * (quarter e k).1 ≤ 1 * (quarter e k).2 := by
    have hnext := Nat.add_one_mul (4 * m * (quarter e k).1 / (quarter e k).2) (quarter e k).2
    have hsub := Nat.sub_mul (4 * m + 2) (lowerQuarters m e) (quarter e k).1
    unfold onGrid? at hnone
    rw [hslack] at hnone
    dsimp only at hnone
    split at hnone
    · exact absurd rfl hnone
    · exact absurd rfl hnone
    · exact absurd rfl hnone
    · next hlow hhigh =>
      have hlow := of_decide_eq_false hlow
      have hhigh := of_decide_eq_false hhigh
      omega
  rw [quarters_le, Nat.cast_one, one_mul] at hwide
  by_cases hpower : m = Nat.pow 2 52 ∧ -1074 < e
  · have hthree : 4 * m + 2 - lowerQuarters m e = 3 := by
      rw [lowerQuarters, if_pos hpower]
      omega
    have hm' : (m : ℚ) = 2 ^ 52 := by rw [hpower.1]; norm_num
    rw [hthree] at hwide
    rw [hm'] at hsmall
    push_cast at hwide
    linarith
  · have hfour : 4 * m + 2 - lowerQuarters m e = 4 := by
      rw [lowerQuarters, if_neg hpower]
      omega
    have hmost : (m : ℚ) < 2 ^ 53 := by exact_mod_cast hf.below
    have hless : 4 * (m : ℚ) * 2 ^ (e - 2) < 4 * 2 ^ 53 * 2 ^ (e - 2) := mul_lt_mul_of_pos_right (by linarith) hpos
    rw [hfour] at hwide
    push_cast at hwide
    linarith

/-! ## The fewest digits -/

theorem value_strip (d : Decimal) : (strip d).value = d.value := by
  fun_induction strip d with
  | case1 => rfl
  | case2 d h0 hten ih =>
    rw [ih, value, value]
    have hdigits : (d.digits : ℚ) = 10 * (d.digits / 10 : ℕ) := by
      have : d.digits = 10 * (d.digits / 10) := by omega
      exact_mod_cast this
    rw [hdigits, zpow_add_one₀ (by norm_num)]
    ring
  | case3 => rfl

/-- The digits found for a double are a decimal that is rounded to it. -/
theorem near_shortest (hf : Fits m e) (hm : 0 < m) : Near m e (shortest m e).value := by
  obtain ⟨top, htop⟩ : ∃ top, order (m * Nat.pow 2 e.toNat) (Nat.pow 2 (-e).toNat) = top := ⟨_, rfl⟩
  have horder : (10 : ℚ) ^ top ≤ m * 2 ^ e := by
    have h := pow_order_le (Nat.mul_pos hm (Nat.pow_pos two_pos : 0 < 2 ^ e.toNat)) (Nat.pow_pos two_pos : 0 < 2 ^ (-e).toNat)
    rw [Nat.cast_mul, mul_div_assoc, pow_toNat_div two_pos, Nat.cast_ofNat] at h
    exact htop ▸ h
  obtain ⟨search, hsearch⟩ : ∃ search : ℕ → Option Decimal,
      search = fun (i : ℕ) => (onGrid? m e (top - i)).map fun d => Decimal.mk d (top - i) := ⟨_, rfl⟩
  have hself : shortest m e = strip (((List.range maxDigits).findSome? search).getD ⟨m, e⟩) := by
    rw [shortest, htop, hsearch]
  have hsome : ((List.range maxDigits).findSome? search).isSome = true := by
    refine List.findSome?_isSome_iff.mpr ⟨16, List.mem_range.mpr (by decide), ?_⟩
    rw [hsearch, Option.isSome_map]
    refine isSome_onGrid? hf hm ?_
    rw [zpow_sub₀ (by norm_num)]
    calc (10 : ℚ) ^ 16 * (10 ^ top / 10 ^ ((16 : ℕ) : ℤ)) = 10 ^ top := by
          rw [zpow_natCast, mul_div_cancel₀ _ (by norm_num)]
      _ ≤ m * 2 ^ e := horder
  obtain ⟨found, hfound⟩ := Option.isSome_iff_exists.mp hsome
  obtain ⟨i, -, hi⟩ := List.exists_of_findSome?_eq_some hfound
  rw [hsearch, Option.map_eq_some_iff] at hi
  obtain ⟨d, hd, rfl⟩ := hi
  rw [hself, hfound, Option.getD_some, value_strip]
  exact near_of_onGrid? hm hd

end Decimal
end CseMachine
