import CseMachine.Proofs.Binary64.Fields
import Mathlib.Data.Rat.Floor

/-!
# Exact values of doubles

What a rounded result has to be is said about the rationals that doubles stand for:
it is the nearest of them, or it is out of range, which is decided by the magnitude
rounded as if there were no largest exponent.
-/
namespace CseMachine.Binary64

variable {x : Float} {q t v : ℚ} {negative : Bool} {m m' k : ℕ} {e e' : ℤ}

/-- The rational that a finite double is. -/
def value? (x : Float) : Option ℚ :=
  match parts x with
  | .finite negative m e => some ((signed negative m : ℤ) * 2 ^ e)
  | _ => none

/-- No finite double is nearer to `q`, and if another one is as near the last bit of this one is zero. -/
def Nearest (x : Float) (q : ℚ) : Prop :=
  ∃ v, value? x = some v ∧ ∀ y w, value? y = some w →
    |v - q| ≤ |w - q| ∧ (|v - q| = |w - q| → w ≠ v → x.toBits.toNat % 2 = 0)

/-- A positive number rounded to 53 bits, a half going to the even last bit, exponents being without bounds. -/
def rounded53 (q : ℚ) : ℚ :=
  let unit : ℚ := 2 ^ (Int.log 2 q - 52)
  roundDiv (q / unit).num.natAbs (q / unit).den * unit

/-! ## The nearest double -/

def withSign (negative : Bool) (v : ℚ) : ℚ := if negative then -v else v

theorem abs_withSign_sub (negative : Bool) (v w : ℚ) : |withSign negative v - withSign negative w| = |v - w| := by
  cases negative
  · rfl
  · show |-v - -w| = |v - w|
    rw [neg_sub_neg, abs_sub_comm]

theorem abs_withSign (negative : Bool) (v : ℚ) : |withSign negative v| = |v| := by
  cases negative
  · rfl
  · exact abs_neg v

theorem signed_eq (negative : Bool) (m : ℕ) (e : ℤ) :
    ((signed negative m : ℤ) : ℚ) * 2 ^ e = withSign negative (m * 2 ^ e) := by
  cases negative
  · simp [signed, withSign]
  · simp [signed, withSign]

theorem value?_eq_some {w : ℚ} (h : value? x = some w) :
    ∃ negative m e, parts x = .finite negative m e ∧ w = withSign negative (m * 2 ^ e) := by
  unfold value? at h
  split at h
  · next negative m e hp => exact ⟨negative, m, e, hp, (Option.some.inj h).symm.trans (signed_eq negative m e)⟩
  · cases h

/-- With a larger exponent the bits of a magnitude reach further up. -/
theorem Fits.lt_of_exponent_lt (h : Fits m e) (h' : Fits m' e') (he : e < e') : (m : ℚ) * 2 ^ e < m' * 2 ^ e' := by
  have hleast := h.least
  have hm : (m : ℚ) < 2 ^ 53 := by exact_mod_cast h.below
  have hm' : (2 : ℚ) ^ 52 ≤ m' := by exact_mod_cast h'.above.resolve_left (by omega)
  calc (m : ℚ) * 2 ^ e < 2 ^ 53 * 2 ^ e := mul_lt_mul_of_pos_right hm (two_zpow_pos e)
    _ = 2 ^ 52 * 2 ^ (e + 1) := by
        rw [zpow_add_one₀ two_ne_zero]
        ring
    _ ≤ m' * 2 ^ e' := mul_le_mul hm' (zpow_le_zpow_right₀ one_le_two (by omega)) (two_zpow_pos _).le (Nat.cast_nonneg m')

/-- A magnitude has one mantissa. -/
theorem Fits.eq_of_value_eq (h : Fits m e) (h' : Fits m' e') (hv : (m : ℚ) * 2 ^ e = m' * 2 ^ e') : m = m' := by
  rcases lt_trichotomy e e' with he | rfl | he
  · exact absurd hv (h.lt_of_exponent_lt h' he).ne
  · exact_mod_cast mul_right_cancel₀ (two_zpow_pos e).ne' hv
  · exact absurd hv (h'.lt_of_exponent_lt h he).ne'

theorem parity_of_parts (h : parts x = .finite negative m e) : x.toBits.toNat % 2 = m % 2 := by
  rw [parts_eq, ofWord, ofFields] at h
  split at h
  · split at h <;> cases h
  · split at h
    · cases h
      omega
    · cases h
      omega

theorem isNegative_of_parts (h : parts x = .finite negative m e) : isNegative x = negative := by
  rw [parts_eq, ofWord, ofFields] at h
  split at h
  · split at h <;> cases h
  · split at h <;> exact (Parts.finite.inj h).1

theorem value?_of_parts (h : parts x = .finite negative m e) : value? x = some (withSign negative (m * 2 ^ e)) := by
  rw [value?, h, ← signed_eq]

/-- Zero is exact. -/
theorem nearest_zero (h : parts x = .finite negative 0 e) : Nearest x 0 := by
  have hzero : withSign negative (((0 : ℕ) : ℚ) * 2 ^ e) = 0 := by
    rw [Nat.cast_zero, zero_mul]
    cases negative
    · rfl
    · exact neg_zero
  refine ⟨0, hzero ▸ value?_of_parts h, fun y w _ => ?_⟩
  rw [sub_zero, sub_zero, abs_zero]
  exact ⟨abs_nonneg w, fun heq hne => absurd (abs_eq_zero.mp heq.symm) hne⟩

/-- A double made of a rounded magnitude is the nearest one. -/
theorem Lands.nearest_of_denotes (h : Lands q m e) (hq : 0 < q) (hx : Denotes x negative (m * 2 ^ e))
    (hlt : (m : ℚ) * 2 ^ e < 2 ^ (1024 : ℤ)) : Nearest x (withSign negative q) ∧ isNegative x = negative := by
  obtain ⟨m₁, e₁, hp, hv⟩ := hx.exists_parts hlt
  clear hlt
  refine ⟨⟨withSign negative (m * 2 ^ e), ?_, fun y w hy => ?_⟩, isNegative_of_parts hp⟩
  · rw [value?_of_parts hp, hv]
  · obtain ⟨negative', m', e', hp', hw⟩ := value?_eq_some hy
    obtain ⟨hnear, htie⟩ := h.nearest (fits_of_parts hp').1
    have hmagnitude : |w| = m' * 2 ^ e' := by
      rw [hw, abs_withSign]
      exact abs_of_nonneg (by positivity)
    have hfar : |(m' : ℚ) * 2 ^ e' - q| ≤ |w - withSign negative q| := by
      have hwq := abs_abs_sub_abs_le w (withSign negative q)
      rwa [hmagnitude, abs_withSign, abs_of_pos hq] at hwq
    rw [abs_withSign_sub]
    refine ⟨hnear.trans hfar, fun heq hne => ?_⟩
    have heven : m % 2 = 0 := by
      refine htie (le_antisymm hnear (heq ▸ hfar)) fun hsame => ?_
      -- The same magnitude with the other sign is farther off.
      have hmirror : w = -withSign negative (m * 2 ^ e) := by
        have habs : |w| = |withSign negative ((m : ℚ) * 2 ^ e)| := by
          rw [hmagnitude, hsame, abs_withSign, abs_of_nonneg (by positivity)]
        exact (abs_eq_abs.mp habs).resolve_left hne
      have hsum : |w - withSign negative q| = m * 2 ^ e + q := by
        rw [hmirror, ← neg_add', abs_neg]
        have hadd : withSign negative ((m : ℚ) * 2 ^ e) + withSign negative q = withSign negative (m * 2 ^ e + q) := by
          cases negative
          · rfl
          · exact (neg_add _ _).symm
        rw [hadd, abs_withSign]
        exact abs_of_pos (by positivity)
      rw [hsum] at heq
      have hv0 : (m : ℚ) * 2 ^ e ≠ 0 := by
        intro h0
        rw [hmirror, h0] at hne
        cases negative <;> simp [withSign] at hne
      have hpos : (0 : ℚ) < m * 2 ^ e := lt_of_le_of_ne (by positivity) hv0.symm
      rcases abs_cases ((m : ℚ) * 2 ^ e - q) with ⟨habs, -⟩ | ⟨habs, -⟩ <;> linarith
    rw [parity_of_parts hp]
    by_cases hm : m < 2 ^ 53
    · rw [← Fits.eq_of_value_eq ⟨h.least, hm, h.le_mantissa⟩ (fits_of_parts hp).1 hv]
      exact heven
    · have hmax : m = 2 ^ 53 := le_antisymm h.mantissa_le (not_lt.mp hm)
      have hnext : ((2 ^ 52 : ℕ) : ℚ) * 2 ^ (e + 1) = m₁ * 2 ^ e₁ := by
        rw [← hv, hmax, zpow_add_one₀ two_ne_zero]
        push_cast
        ring
      have hleast := h.least
      have hfits : Fits (2 ^ 52) (e + 1) := ⟨by omega, by decide, .inr le_rfl⟩
      rw [← hfits.eq_of_value_eq (fits_of_parts hp).1 hnext]
      rfl

/-! ## The magnitude without bounds -/

/-- Only one integer is the nearest. -/
theorem Rounds.unique {k' : ℕ} (h : Rounds t k) (h' : Rounds t k') : k = k' := by
  by_contra hne
  obtain ⟨hnear, heven⟩ := h.nearest k'
  obtain ⟨hnear', heven'⟩ := h'.nearest k
  rw [Int.cast_natCast] at hnear heven hnear' heven'
  have heq := le_antisymm hnear hnear'
  have hk := heven heq (by exact_mod_cast Ne.symm hne)
  have hk' := heven' heq.symm (by exact_mod_cast hne)
  have hdist : |(k : ℚ) - k'| ≤ 1 := by
    have := abs_sub_le (k : ℚ) t k'
    have h1 := h.near
    have h2 := h'.near
    rw [abs_sub_comm] at h2
    linarith
  have hone : |(k : ℤ) - k'| ≤ 1 := by exact_mod_cast hdist
  rw [abs_le] at hone
  omega

theorem rounds_num_den (hq : 0 ≤ t) : Rounds t (roundDiv t.num.natAbs t.den) := by
  have h := rounds_roundDiv t.num.natAbs t.den_pos
  have hnum : ((t.num.natAbs : ℕ) : ℚ) = t.num := by
    rw [← Int.cast_natCast, Int.natAbs_of_nonneg (Rat.num_nonneg.mpr hq)]
  rwa [hnum, Rat.num_div_den] at h

theorem rounded53_zero : rounded53 0 = 0 := by
  have hround : roundDiv (0 : ℚ).num.natAbs (0 : ℚ).den = 0 := rfl
  rw [rounded53, zero_div, hround, Nat.cast_zero, zero_mul]

theorem rounded53_eq (hq : 0 < q) (hbelow : q < 2 ^ 53 * 2 ^ e) (habove : 2 ^ 52 * 2 ^ e ≤ q) (hm : Rounds (q / 2 ^ e) m) :
    rounded53 q = m * 2 ^ e := by
  have hlog : Int.log 2 q - 52 = e := by
    have hlow := Int.zpow_log_le_self one_lt_two hq
    have hhigh := Int.lt_zpow_succ_log_self one_lt_two q
    have h1 : (2 : ℚ) ^ (52 + e) < 2 ^ (Int.log 2 q + 1) := by
      rw [zpow_add₀ two_ne_zero]
      exact habove.trans_lt (by exact_mod_cast hhigh)
    have h2 : (2 : ℚ) ^ Int.log 2 q < 2 ^ (53 + e) := by
      rw [zpow_add₀ two_ne_zero]
      exact lt_of_le_of_lt (by exact_mod_cast hlow) hbelow
    have h1' := (zpow_lt_zpow_iff_right₀ one_lt_two).mp h1
    have h2' := (zpow_lt_zpow_iff_right₀ one_lt_two).mp h2
    omega
  have hnonneg : 0 ≤ q / 2 ^ e := by positivity
  rw [rounded53, hlog, (rounds_num_den hnonneg).unique hm]

theorem rounded53_le (hq : 0 < q) : rounded53 q ≤ 2 * q := by
  have hlow : (2 : ℚ) ^ Int.log 2 q ≤ q := by exact_mod_cast Int.zpow_log_le_self one_lt_two hq
  have hhigh : q < 2 ^ (Int.log 2 q + 1) := by exact_mod_cast Int.lt_zpow_succ_log_self one_lt_two q
  have hpos := two_zpow_pos (Int.log 2 q - 52)
  have hnonneg : 0 ≤ q / 2 ^ (Int.log 2 q - 52) := by positivity
  have hmantissa : roundDiv (q / 2 ^ (Int.log 2 q - 52)).num.natAbs (q / 2 ^ (Int.log 2 q - 52)).den ≤ 2 ^ 53 := by
    refine (rounds_num_den hnonneg).le_of_le ?_
    rw [div_le_iff₀ hpos, Nat.cast_pow, Nat.cast_ofNat, ← zpow_natCast, ← zpow_add₀ two_ne_zero]
    exact hhigh.le.trans (zpow_le_zpow_right₀ one_le_two (by omega))
  calc rounded53 q ≤ 2 ^ 53 * 2 ^ (Int.log 2 q - 52) :=
        mul_le_mul_of_nonneg_right (by exact_mod_cast hmantissa) hpos.le
    _ = 2 ^ (53 + (Int.log 2 q - 52)) := (zpow_add₀ two_ne_zero 53 _).symm
    _ = 2 * 2 ^ Int.log 2 q := by
        rw [← zpow_one_add₀ two_ne_zero]
        congr 1
        omega
    _ ≤ 2 * q := mul_le_mul_of_nonneg_left hlow two_pos.le

/-- Rounding to a double and rounding without bounds agree about what is out of range. -/
theorem Lands.rounded53_lt_iff (h : Lands q m e) (hq : 0 < q) :
    rounded53 q < 2 ^ (1024 : ℤ) ↔ (m : ℚ) * 2 ^ e < 2 ^ (1024 : ℤ) := by
  rcases h.above with hleast | habove
  · have hbelow := h.below
    have hm : (m : ℚ) ≤ 2 ^ 53 := by exact_mod_cast h.mantissa_le
    have htiny : (2 : ℚ) * (2 ^ 53 * 2 ^ e) < 2 ^ (1024 : ℤ) := by
      have hsplit : (2 : ℚ) * (2 ^ 53 * 2 ^ e) = 2 ^ (54 + e) := by
        rw [zpow_add₀ two_ne_zero, ← mul_assoc, ← pow_succ']
        rfl
      rw [hsplit]
      exact zpow_lt_zpow_right₀ one_lt_two (by omega)
    have hpos : (0 : ℚ) < 2 ^ 53 * 2 ^ e := mul_pos (by norm_num) (two_zpow_pos e)
    have hrounded : rounded53 q ≤ 2 * (2 ^ 53 * 2 ^ e) :=
      (rounded53_le hq).trans (mul_le_mul_of_nonneg_left hbelow.le two_pos.le)
    have hlanded : (m : ℚ) * 2 ^ e ≤ 2 * (2 ^ 53 * 2 ^ e) :=
      (mul_le_mul_of_nonneg_right hm (two_zpow_pos e).le).trans (le_mul_of_one_le_left hpos.le one_le_two)
    exact ⟨fun _ => hlanded.trans_lt htiny, fun _ => hrounded.trans_lt htiny⟩
  · rw [rounded53_eq hq h.below habove h.rounds]

end CseMachine.Binary64
