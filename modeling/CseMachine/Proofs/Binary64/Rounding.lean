import CseMachine.Binary64
import Mathlib.Algebra.Order.Field.Power
import Mathlib.Data.Int.Log
import Mathlib.Tactic.Linarith
import Mathlib.Tactic.Positivity
import Mathlib.Tactic.Ring

/-!
# Rounding to doubles

A rational is rounded to a double at the place of the last bit that doubles of its
size have, to the nearest multiple and a half to the even one. No double is nearer
to it: those of its size and above are multiples too, and those below are on the
other side of a multiple.
-/
namespace CseMachine.Binary64

variable {q t : ℚ} {m n k : ℕ} {e : ℤ}

/-! ## To the nearest integer -/

/-- The integer nearest to `t`, a half going to the even one. -/
structure Rounds (t : ℚ) (k : ℕ) : Prop where
  near : |(k : ℚ) - t| ≤ 1 / 2
  even : |(k : ℚ) - t| = 1 / 2 → k % 2 = 0

theorem rounds_natCast (k : ℕ) : Rounds k k := by
  constructor
  · simp
  · intro h
    rw [sub_self, abs_zero] at h
    norm_num at h

namespace Rounds

theorem le_of_le (h : Rounds t k) (ht : t ≤ n) : k ≤ n := by
  by_contra hk
  have hlt : (n : ℚ) + 1 ≤ k := by exact_mod_cast Nat.not_le.mp hk
  have := (abs_le.mp h.near).2
  linarith

theorem le_of_ge (h : Rounds t k) (ht : (n : ℚ) ≤ t) : n ≤ k := by
  by_contra hk
  have hlt : (k : ℚ) + 1 ≤ n := by exact_mod_cast Nat.not_le.mp hk
  have := (abs_le.mp h.near).1
  linarith

/-- An integer is rounded to itself. -/
theorem eq_of_natCast (h : Rounds (n : ℚ) k) : k = n := le_antisymm (h.le_of_le le_rfl) (h.le_of_ge le_rfl)

/-- No integer is nearer, and if another one is as near this one is even. -/
theorem nearest (h : Rounds t k) (j : ℤ) :
    |(k : ℚ) - t| ≤ |(j : ℚ) - t| ∧ (|(k : ℚ) - t| = |(j : ℚ) - t| → j ≠ k → k % 2 = 0) := by
  by_cases hj : j = k
  · subst hj
    exact ⟨le_rfl, fun _ hne => absurd rfl hne⟩
  · have hone : (1 : ℚ) ≤ |(j : ℚ) - k| := by exact_mod_cast Int.one_le_abs (sub_ne_zero.mpr hj)
    have htriangle : |(j : ℚ) - k| ≤ |(j : ℚ) - t| + |(k : ℚ) - t| := by
      rw [abs_sub_comm (k : ℚ) t]
      exact abs_sub_le _ _ _
    have hnear := h.near
    exact ⟨by linarith, fun heq _ => h.even (by linarith)⟩

end Rounds

theorem rounds_down (hk : (k : ℚ) ≤ t) (hhalf : t - k ≤ 1 / 2) (heven : t - k = 1 / 2 → k % 2 = 0) : Rounds t k := by
  have habs : |(k : ℚ) - t| = t - k := by rw [abs_sub_comm, abs_of_nonneg (by linarith)]
  constructor
  · rw [habs]
    exact hhalf
  · rw [habs]
    exact heven

theorem rounds_up (hk : t ≤ k + 1) (hhalf : 1 / 2 ≤ t - k) (hodd : t - k = 1 / 2 → k % 2 = 1) : Rounds t (k + 1) := by
  have habs : |((k + 1 : ℕ) : ℚ) - t| = k + 1 - t := by
    push_cast
    exact abs_of_nonneg (by linarith)
  constructor
  · rw [habs]
    linarith
  · rw [habs]
    intro h
    have := hodd (by linarith)
    omega

/-- What is left of a quotient that has been rounded down. -/
theorem div_sub_floor (num : ℕ) {den : ℕ} (hden : 0 < den) :
    (num : ℚ) / den - (num / den : ℕ) = (num % den : ℕ) / (den : ℚ) := by
  have hd : (0 : ℚ) < den := by exact_mod_cast hden
  have hnum : (num : ℚ) = den * (num / den : ℕ) + (num % den : ℕ) := by exact_mod_cast (Nat.div_add_mod num den).symm
  rw [eq_div_iff hd.ne', sub_mul, div_mul_cancel₀ _ hd.ne']
  linarith

theorem rest_lt_one (num : ℕ) {den : ℕ} (hden : 0 < den) : ((num % den : ℕ) : ℚ) / den < 1 := by
  rw [div_lt_one (by exact_mod_cast hden)]
  exact_mod_cast Nat.mod_lt num hden

theorem half_le_rest {r d : ℕ} (hd : 0 < d) : 1 / 2 ≤ (r : ℚ) / d ↔ d ≤ 2 * r := by
  rw [div_le_div_iff₀ two_pos (by exact_mod_cast hd), one_mul, mul_comm]
  exact_mod_cast Iff.rfl

theorem rest_eq_half {r d : ℕ} (hd : 0 < d) : (r : ℚ) / d = 1 / 2 ↔ 2 * r = d := by
  rw [div_eq_div_iff (by exact_mod_cast hd.ne') two_ne_zero, one_mul, mul_comm]
  exact_mod_cast Iff.rfl

/-- The remainder tells which integer is the nearest to a quotient. -/
theorem rounds_roundDiv (num : ℕ) {den : ℕ} (hden : 0 < den) : Rounds ((num : ℚ) / den) (roundDiv num den) := by
  have hrest := div_sub_floor num hden
  have hrest_lt := rest_lt_one num hden
  have hrest_nonneg : (0 : ℚ) ≤ (num % den : ℕ) / (den : ℚ) := by positivity
  unfold roundDiv
  dsimp only
  split
  · next hup =>
    apply rounds_up
    · linarith
    · rw [hrest, half_le_rest hden]
      omega
    · rw [hrest, rest_eq_half hden]
      omega
  · next hdown =>
    apply rounds_down
    · linarith
    · rw [hrest]
      by_contra hle
      have := (half_le_rest hden).mp (not_le.mp hle).le
      have := mt (rest_eq_half hden).mpr (not_le.mp hle).ne'
      omega
    · rw [hrest, rest_eq_half hden]
      omega

/-! ## To the nearest double -/

/-- `m * 2 ^ e` is the magnitude of a double with this mantissa and exponent, or it is too large for one. -/
structure Fits (m : ℕ) (e : ℤ) : Prop where
  least : -1074 ≤ e
  below : m < 2 ^ 53
  above : e = -1074 ∨ 2 ^ 52 ≤ m

/-- Rounded to a double `q` is `m * 2 ^ e`, unless this is too large: the last bit of a double of this size
is at `e`. -/
structure Lands (q : ℚ) (m : ℕ) (e : ℤ) : Prop where
  least : -1074 ≤ e
  below : q < 2 ^ 53 * 2 ^ e
  above : e = -1074 ∨ 2 ^ 52 * 2 ^ e ≤ q
  rounds : Rounds (q / 2 ^ e) m

theorem two_zpow_pos (e : ℤ) : (0 : ℚ) < 2 ^ e := by positivity

theorem short_lt {n : ℕ} (h : n ≤ 2 ^ 53) : (n : ℚ) < 2 ^ (1024 : ℤ) :=
  calc (n : ℚ) ≤ 2 ^ (53 : ℤ) := by exact_mod_cast h
    _ < 2 ^ (1024 : ℤ) := zpow_lt_zpow_right₀ one_lt_two (by decide)

/-- A multiple of a power of two is one of each smaller power. -/
theorem mul_zpow_eq (m : ℕ) {e e' : ℤ} (h : e ≤ e') :
    (m : ℚ) * 2 ^ e' = (m * 2 ^ (e' - e).toNat : ℕ) * 2 ^ e := by
  have hsplit : e' = ((e' - e).toNat : ℤ) + e := by omega
  conv_lhs => rw [hsplit, zpow_add₀ two_ne_zero, zpow_natCast]
  push_cast
  ring

theorem zpow_log2_le {n : ℕ} (hn : 0 < n) : (2 : ℚ) ^ (n.log2 : ℤ) ≤ n := by
  rw [zpow_natCast]
  exact_mod_cast Nat.log2_self_le hn.ne'

theorem lt_zpow_log2 (n : ℕ) : (n : ℚ) < 2 ^ ((n.log2 : ℤ) + 1) := by
  rw [← Nat.cast_succ, zpow_natCast]
  exact_mod_cast Nat.lt_log2_self

/-- The numbers of bits tell the size of a quotient. -/
theorem quotient_bounds {num den : ℕ} (hnum : 0 < num) (hden : 0 < den) :
    (2 : ℚ) ^ ((num.log2 : ℤ) - den.log2 - 1) < num / den ∧ (num : ℚ) / den < 2 ^ ((num.log2 : ℤ) - den.log2 + 1) := by
  have hd : (0 : ℚ) < den := by exact_mod_cast hden
  constructor
  · rw [lt_div_iff₀ hd]
    calc (2 : ℚ) ^ ((num.log2 : ℤ) - den.log2 - 1) * den
        < 2 ^ ((num.log2 : ℤ) - den.log2 - 1) * 2 ^ ((den.log2 : ℤ) + 1) :=
          mul_lt_mul_of_pos_left (lt_zpow_log2 den) (two_zpow_pos _)
      _ = 2 ^ (num.log2 : ℤ) := by
          rw [← zpow_add₀ two_ne_zero]
          congr 1
          omega
      _ ≤ num := zpow_log2_le hnum
  · rw [div_lt_iff₀ hd]
    calc (num : ℚ) < 2 ^ ((num.log2 : ℤ) + 1) := lt_zpow_log2 num
      _ = 2 ^ ((num.log2 : ℤ) - den.log2 + 1) * 2 ^ (den.log2 : ℤ) := by
          rw [← zpow_add₀ two_ne_zero]
          congr 1
          omega
      _ ≤ 2 ^ ((num.log2 : ℤ) - den.log2 + 1) * den := mul_le_mul_of_nonneg_left (zpow_log2_le hden) (two_zpow_pos _).le

namespace Lands

variable {m' : ℕ} {e' : ℤ}

theorem mantissa_le (h : Lands q m e) : m ≤ 2 ^ 53 := by
  apply h.rounds.le_of_le
  rw [div_le_iff₀ (two_zpow_pos e)]
  exact_mod_cast h.below.le

theorem le_mantissa (h : Lands q m e) : e = -1074 ∨ 2 ^ 52 ≤ m := by
  refine h.above.imp_right fun ha => h.rounds.le_of_ge ?_
  rw [le_div_iff₀ (two_zpow_pos e)]
  exact_mod_cast ha

/-- No double is nearer, and if one is as near the mantissa is even. -/
theorem nearest (h : Lands q m e) (hf : Fits m' e') :
    |(m : ℚ) * 2 ^ e - q| ≤ |(m' : ℚ) * 2 ^ e' - q| ∧
      (|(m : ℚ) * 2 ^ e - q| = |(m' : ℚ) * 2 ^ e' - q| → (m' : ℚ) * 2 ^ e' ≠ m * 2 ^ e → m % 2 = 0) := by
  have hpos := two_zpow_pos e
  have hscale : ∀ x : ℚ, |x * 2 ^ e - q| = |x - q / 2 ^ e| * 2 ^ e := by
    intro x
    rw [← abs_of_pos hpos, ← abs_mul, abs_of_pos hpos, sub_mul, div_mul_cancel₀ _ hpos.ne']
  by_cases he : e ≤ e'
  · -- The other one is a multiple of the last place, too.
    obtain ⟨hnear, htie⟩ := h.rounds.nearest (m' * 2 ^ (e' - e).toNat : ℕ)
    rw [Int.cast_natCast] at hnear htie
    rw [mul_zpow_eq m' he, hscale, hscale]
    refine ⟨mul_le_mul_of_nonneg_right hnear hpos.le, fun heq hne => htie (mul_right_cancel₀ hpos.ne' heq) ?_⟩
    rintro hj
    exact hne (by rw [Int.natCast_inj.mp hj])
  · -- The other one is below the least mantissa, which is a multiple that is not above `q`.
    have habove : 2 ^ 52 * 2 ^ e ≤ q := h.above.resolve_left fun hleast => by have := hf.least; omega
    have hless : (m' : ℚ) * 2 ^ e' < 2 ^ 52 * 2 ^ e := by
      have hbound : (m' : ℚ) < 2 ^ 53 := by exact_mod_cast hf.below
      have hexp : (2 : ℚ) ^ e' ≤ 2 ^ (e - 1) := zpow_le_zpow_right₀ one_le_two (by omega)
      calc (m' : ℚ) * 2 ^ e' < 2 ^ 53 * 2 ^ e' := mul_lt_mul_of_pos_right hbound (two_zpow_pos e')
        _ ≤ 2 ^ 53 * 2 ^ (e - 1) := mul_le_mul_of_nonneg_left hexp (by norm_num)
        _ = 2 ^ 52 * 2 ^ e := by rw [zpow_sub_one₀ two_ne_zero]; ring
    have hnear := (h.rounds.nearest (2 ^ 52)).1
    push_cast at hnear
    have hcloser : |(m : ℚ) * 2 ^ e - q| < |(m' : ℚ) * 2 ^ e' - q| := by
      calc |(m : ℚ) * 2 ^ e - q| ≤ |2 ^ 52 * 2 ^ e - q| := by
            rw [hscale, hscale]
            exact mul_le_mul_of_nonneg_right hnear hpos.le
        _ = q - 2 ^ 52 * 2 ^ e := by rw [abs_sub_comm, abs_of_nonneg (by linarith)]
        _ < q - m' * 2 ^ e' := by linarith
        _ ≤ |(m' : ℚ) * 2 ^ e' - q| := by rw [abs_sub_comm]; exact le_abs_self _
    exact ⟨hcloser.le, fun heq => absurd heq hcloser.ne⟩

/-- A number with few bits in range is rounded to itself. -/
theorem eq_of_short (h : Lands (n * 2 ^ e') m e) (hn : n ≤ 2 ^ 53) (he : -1074 ≤ e') :
    (m : ℚ) * 2 ^ e = n * 2 ^ e' := by
  have hpos := two_zpow_pos e
  have hmultiple : ∃ j : ℕ, (n : ℚ) * 2 ^ e' = j * 2 ^ e := by
    by_cases hle : e ≤ e'
    · exact ⟨_, mul_zpow_eq n hle⟩
    · -- Only the largest mantissa of all reaches into the next size.
      have habove := h.above.resolve_left (by omega)
      have hexp : (2 : ℚ) * 2 ^ e' ≤ 2 ^ e := by
        rw [mul_comm, ← zpow_add_one₀ two_ne_zero]
        exact zpow_le_zpow_right₀ one_le_two (by omega)
      have hn' : (n : ℚ) ≤ 2 ^ 53 := by exact_mod_cast hn
      have hle' : (n : ℚ) * 2 ^ e' ≤ 2 ^ 52 * 2 ^ e := by nlinarith [two_zpow_pos e']
      exact ⟨2 ^ 52, by push_cast; linarith⟩
  obtain ⟨j, hj⟩ := hmultiple
  have hrounds := h.rounds
  rw [hj, mul_div_cancel_right₀ _ hpos.ne'] at hrounds
  rw [hrounds.eq_of_natCast, hj]

end Lands

end CseMachine.Binary64
