import CseMachine.Proofs.Binary64.Fields
import Mathlib.Tactic.FieldSimp

/-!
# Products and quotients of doubles

An operation computes an integer and, for what it has cut off, two bits that tell the
nearest one. So its result is the exact one rounded once.
-/
namespace CseMachine.Binary64

open Float.Model Float.Model.UnpackedFloat

variable {em : ExtendedMantissa} {t q : ℚ} {negative : Bool} {m : ℕ} {e : ℤ}

/-- The mantissa is the integer part, the round bit tells whether the rest is less than a half and the
sticky bit whether there is more than the round bit says. -/
structure Reads (em : ExtendedMantissa) (t : ℚ) : Prop where
  below : (em.mantissa : ℚ) ≤ t
  above : t < em.mantissa + 1
  round : em.roundBit = true ↔ 1 / 2 ≤ t - em.mantissa
  sticky : em.stickyBit = false ↔ t - em.mantissa = if em.roundBit then 1 / 2 else 0

/-- Nothing is cut off if both bits are clear. -/
theorem Reads.exact_iff (h : Reads em t) : (em.roundBit || em.stickyBit) = false ↔ t = em.mantissa := by
  have hround := h.round
  have hsticky := h.sticky
  rw [Bool.or_eq_false_iff]
  constructor
  · rintro ⟨hr, hs⟩
    rw [hs, hr] at hsticky
    have hrest := hsticky.mp rfl
    rw [if_neg Bool.false_ne_true] at hrest
    linarith
  · intro ht
    have hr : em.roundBit = false := by
      rw [← Bool.not_eq_true, hround, ht]
      norm_num
    refine ⟨hr, hsticky.mpr ?_⟩
    rw [hr, ht, sub_self, if_neg Bool.false_ne_true]

/-- The bits shifted out go into the two. -/
theorem Reads.shiftRightOne (h : Reads em t) : Reads em.shiftRightOne (t / 2) := by
  have hbelow := h.below
  have habove := h.above
  have hm : (em.mantissa : ℚ) = 2 * (em.mantissa / 2 : ℕ) + (em.mantissa % 2 : ℕ) := by
    exact_mod_cast (Nat.div_add_mod em.mantissa 2).symm
  have hbit : em.shiftRightOne.roundBit = true ↔ em.mantissa % 2 = 1 := by
    show (em.mantissa % 2 != 0) = true ↔ _
    rw [bne_iff_ne]
    omega
  have hround : em.shiftRightOne.roundBit = true ↔ 1 / 2 ≤ t / 2 - (em.mantissa / 2 : ℕ) := by
    rw [hbit]
    rcases Nat.mod_two_eq_zero_or_one em.mantissa with hpar | hpar
    · rw [hpar, Nat.cast_zero] at hm
      exact ⟨fun h1 => by omega, fun hle => by linarith⟩
    · rw [hpar, Nat.cast_one] at hm
      exact ⟨fun _ => by linarith, fun _ => hpar⟩
  have hsticky : em.shiftRightOne.stickyBit = false ↔
      t / 2 - (em.mantissa / 2 : ℕ) = if em.shiftRightOne.roundBit then 1 / 2 else 0 := by
    refine h.exact_iff.trans ?_
    rcases Nat.mod_two_eq_zero_or_one em.mantissa with hpar | hpar
    · rw [if_neg (by rw [hbit]; omega)]
      rw [hpar, Nat.cast_zero] at hm
      constructor <;> intro _ <;> linarith
    · rw [if_pos (hbit.mpr hpar)]
      rw [hpar, Nat.cast_one] at hm
      constructor <;> intro _ <;> linarith
  have hparity : ((em.mantissa % 2 : ℕ) : ℚ) ≤ 1 := by exact_mod_cast Nat.le_of_lt_succ (Nat.mod_lt _ two_pos)
  have hnonneg : (0 : ℚ) ≤ (em.mantissa % 2 : ℕ) := Nat.cast_nonneg _
  constructor
  · show ((em.mantissa / 2 : ℕ) : ℚ) ≤ t / 2
    linarith
  · show t / 2 < (em.mantissa / 2 : ℕ) + 1
    linarith
  · exact hround
  · exact hsticky

theorem Reads.shiftRight (h : Reads em t) (k : ℕ) : Reads (em >>> k) (t / 2 ^ k) := by
  induction k with
  | zero =>
    rw [pow_zero, div_one]
    exact h
  | succ k ih =>
    have hstep := ih.shiftRightOne
    rw [div_div, ← pow_succ] at hstep
    exact hstep

/-- The two bits tell the nearest integer. -/
theorem Reads.rounds (h : Reads em t) : Rounds t em.roundedMantissa := by
  obtain ⟨hbelow, habove, hround, hsticky⟩ := h
  obtain ⟨m, r, s⟩ := em
  dsimp only at hbelow habove hround hsticky
  cases r with
  | false =>
    have hlt : t - m < 1 / 2 := not_le.mp (mt hround.mpr Bool.false_ne_true)
    have hdown : Rounds t m := rounds_down hbelow hlt.le fun heq => absurd heq hlt.ne
    cases s <;> exact hdown
  | true =>
    have hle : 1 / 2 ≤ t - m := hround.mp rfl
    rw [if_pos rfl] at hsticky
    cases s with
    | false =>
      have heq : t - m = 1 / 2 := hsticky.mp rfl
      show Rounds t (m + m % 2)
      rcases Nat.mod_two_eq_zero_or_one m with hpar | hpar
      · rw [hpar]
        exact rounds_down hbelow heq.le fun _ => hpar
      · rw [hpar]
        exact rounds_up habove.le hle fun _ => hpar
    | true =>
      exact rounds_up habove.le hle fun heq => absurd (hsticky.mpr heq) Bool.noConfusion

theorem reads_exact (m : ℕ) : Reads (.ofMantissaAndAccuracy m .exact) (m : ℚ) := by
  constructor
  · exact le_rfl
  · exact lt_add_one _
  · simp [ExtendedMantissa.ofMantissaAndAccuracy]
  · simp [ExtendedMantissa.ofMantissaAndAccuracy]

/-- The bits of a quotient that has been rounded down. -/
theorem reads_quotient (n : ℕ) {d : ℕ} (hd : 0 < d) :
    Reads (.ofMantissaAndAccuracy (n / d) (accuracyOfFraction (n % d) d)) ((n : ℚ) / d) := by
  have hrest := div_sub_floor n hd
  have hlt := rest_lt_one n hd
  have hnonneg : (0 : ℚ) ≤ (n % d : ℕ) / (d : ℚ) := by positivity
  by_cases h0 : n % d = 0
  · have heq : (n : ℚ) / d = (n / d : ℕ) := by
      rw [← sub_eq_zero, hrest, h0, Nat.cast_zero, zero_div]
    rw [accuracyOfFraction, if_pos h0, heq]
    exact reads_exact _
  · obtain ⟨em, hem, hmantissa, hround, hsticky⟩ : ∃ em : ExtendedMantissa,
        .ofMantissaAndAccuracy (n / d) (accuracyOfFraction (n % d) d) = em ∧ em.mantissa = n / d ∧
          (em.roundBit = true ↔ d ≤ 2 * (n % d)) ∧ (em.stickyBit = false ↔ 2 * (n % d) = d) := by
      rw [accuracyOfFraction, if_neg h0]
      rcases lt_trichotomy (2 * (n % d)) d with hc | hc | hc
      · rw [Nat.compare_eq_lt.mpr hc]
        exact ⟨⟨n / d, false, true⟩, rfl, rfl, by simp; omega, by simp; omega⟩
      · rw [Nat.compare_eq_eq.mpr hc]
        exact ⟨⟨n / d, true, false⟩, rfl, rfl, by simp; omega, by simp; omega⟩
      · rw [Nat.compare_eq_gt.mpr hc]
        exact ⟨⟨n / d, true, true⟩, rfl, rfl, by simp; omega, by simp; omega⟩
    rw [hem]
    constructor
    · rw [hmantissa]
      linarith
    · rw [hmantissa]
      linarith
    · rw [hmantissa, hround, hrest, half_le_rest hd]
    · rw [hmantissa, hsticky, hrest]
      have hpos : ((n % d : ℕ) : ℚ) / d ≠ 0 := by positivity
      split
      · rw [rest_eq_half hd]
      · next hr =>
        have := mt hround.mpr hr
        exact ⟨fun h => by omega, fun h => absurd h hpos⟩

/-! ## Rounding in the model -/

/-- The place of the last bit that is kept. -/
theorem targetExponent_eq (m : ℕ) (e : ℤ) :
    Format.binary64.targetExponent (totalExponent m e) = max (m.log2 + 1 + e - 53) (-1074) := rfl

/-- A rounded mantissa is shifted again only if it has got a bit more. -/
theorem shiftToTargetExponent_rounded (hm : m ≤ 2 ^ 53) (he : -1074 ≤ e) :
    shiftToTargetExponent .binary64 m e .exact =
      if m = 2 ^ 53 then (⟨2 ^ 52, false, false⟩, e + 1) else (⟨m, false, false⟩, e) := by
  rw [shiftToTargetExponent, targetExponent_eq, shiftToExponent]
  split
  · next h =>
    have hlog : m.log2 = 53 := by rw [h, Nat.log2_two_pow]
    have hshift : (max ((m.log2 : ℤ) + 1 + e - 53) (-1074) - e).toNat = 1 := by omega
    rw [hshift, h]
    rfl
  · next h =>
    have hlog : m.log2 ≤ 52 := by
      rcases Nat.eq_zero_or_pos m with rfl | hpos
      · exact Nat.zero_le _
      · exact Nat.le_of_lt_succ ((Nat.log2_lt hpos.ne').mpr (by omega))
    have hshift : (max ((m.log2 : ℤ) + 1 + e - 53) (-1074) - e).toNat = 0 := by omega
    rw [hshift, Nat.cast_zero, add_zero]
    rfl

theorem mantissa_ofMantissaAndAccuracy (m : ℕ) (acc : Accuracy) :
    (ExtendedMantissa.ofMantissaAndAccuracy m acc).mantissa = m := by
  cases acc with
  | exact => rfl
  | inexact o => cases o <;> rfl

/-- The first shift leaves the bits that are kept, if there are enough to begin with. -/
theorem Reads.lands_shiftToTargetExponent {acc : Accuracy} (h : Reads (.ofMantissaAndAccuracy m acc) t)
    (hlong : 52 ≤ m.log2 ∨ e ≤ -1074) : ∃ em target, shiftToTargetExponent .binary64 m e acc = (em, target) ∧
      Lands (t * 2 ^ e) em.roundedMantissa target := by
  have hbelow := h.below
  have habove := h.above
  rw [mantissa_ofMantissaAndAccuracy] at hbelow habove
  obtain ⟨target, htarget⟩ : ∃ target : ℤ, target = max (m.log2 + 1 + e - 53) (-1074) := ⟨_, rfl⟩
  obtain ⟨k, hk⟩ : ∃ k : ℕ, e + k = target := ⟨(target - e).toNat, by omega⟩
  refine ⟨ExtendedMantissa.ofMantissaAndAccuracy m acc >>> k, target, ?_, ?_, ?_, ?_, ?_⟩
  · have hshift : (target - e).toNat = k := by omega
    rw [shiftToTargetExponent, targetExponent_eq, shiftToExponent, ← htarget, hshift, hk]
  · omega
  · have hlt : t < 2 ^ ((m.log2 + 1 : ℕ) : ℤ) := by
      rw [zpow_natCast]
      exact habove.trans_le (by exact_mod_cast Nat.lt_log2_self)
    calc t * 2 ^ e < 2 ^ ((m.log2 + 1 : ℕ) : ℤ) * 2 ^ e := mul_lt_mul_of_pos_right hlt (two_zpow_pos e)
      _ = 2 ^ (((m.log2 + 1 : ℕ) : ℤ) + e) := (zpow_add₀ two_ne_zero _ _).symm
      _ ≤ 2 ^ (53 + target) := zpow_le_zpow_right₀ one_le_two (by omega)
      _ = 2 ^ 53 * 2 ^ target := zpow_add₀ two_ne_zero 53 target
  · by_cases hleast : target = -1074
    · exact .inl hleast
    · right
      have hm : m ≠ 0 := by
        rintro rfl
        rw [Nat.log2_zero] at htarget hlong
        omega
      have hle : (2 : ℚ) ^ (m.log2 : ℤ) ≤ t := by
        rw [zpow_natCast]
        exact le_trans (by exact_mod_cast Nat.log2_self_le hm) hbelow
      calc (2 : ℚ) ^ 52 * 2 ^ target = 2 ^ (52 + target) := (zpow_add₀ two_ne_zero 52 target).symm
        _ ≤ 2 ^ ((m.log2 : ℤ) + e) := zpow_le_zpow_right₀ one_le_two (by omega)
        _ = 2 ^ (m.log2 : ℤ) * 2 ^ e := zpow_add₀ two_ne_zero _ _
        _ ≤ t * 2 ^ e := mul_le_mul_of_nonneg_right hle (two_zpow_pos e).le
  · have hscale : t * 2 ^ e / 2 ^ target = t / 2 ^ k := by
      rw [← hk, zpow_add₀ two_ne_zero, zpow_natCast, mul_comm t, mul_div_mul_left _ _ (two_zpow_pos e).ne']
    rw [hscale]
    exact (h.shiftRight k).rounds

/-- A result is rounded as it should be, if it comes with enough bits. -/
theorem denotes_roundWithAccuracy (negative : Bool) {acc : Accuracy} (h : Reads (.ofMantissaAndAccuracy m acc) t)
    (hlong : 52 ≤ m.log2 ∨ e ≤ -1074) : ∃ m' e', Lands (t * 2 ^ e) m' e' ∧
      Denotes (packed (roundWithAccuracy .binary64 (signOf negative) m e acc)) negative (m' * 2 ^ e') := by
  obtain ⟨em, target, hfirst, hlands⟩ := h.lands_shiftToTargetExponent hlong
  refine ⟨_, _, hlands, ?_⟩
  have hle := hlands.mantissa_le
  have hge := hlands.le_mantissa
  rw [roundWithAccuracy, hfirst]
  dsimp only
  rw [shiftToTargetExponent_rounded hle hlands.least]
  split
  · next hmax =>
    -- Rounding up has given a bit more, which is the leading one of the next size.
    have hleast := hlands.least
    have hfits : Fits (2 ^ 52) (target + 1) := ⟨by omega, by decide, .inr le_rfl⟩
    have hden := denotes_finite negative hfits (by decide)
    have hvalue : ((2 ^ 52 : ℕ) : ℚ) * 2 ^ (target + 1) = (em.roundedMantissa : ℕ) * 2 ^ target := by
      rw [hmax, zpow_add_one₀ two_ne_zero]
      push_cast
      ring
    rw [← hvalue]
    exact hden
  · next hmax =>
    have hfits : Fits em.roundedMantissa target := ⟨hlands.least, by omega, hge⟩
    by_cases hzero : em.roundedMantissa = 0
    · rw [dif_pos hzero, hzero, Nat.cast_zero, zero_mul]
      exact denotes_zero negative
    · rw [dif_neg hzero]
      exact denotes_finite negative hfits (Nat.pos_of_ne_zero hzero)

/-! ## Operations -/

variable {x y : Float} {a b : Bool} {n : ℕ} {f : ℤ}

theorem signOf_mul (a b : Bool) : signOf a * signOf b = signOf (a != b) := by cases a <;> cases b <;> rfl

theorem signOf_div (a b : Bool) : signOf a / signOf b = signOf (a != b) := by cases a <;> cases b <;> rfl

/-- A product is rounded once. -/
theorem denotes_mul (hx : parts x = .finite a m e) (hy : parts y = .finite b n f) (hm : 0 < m) (hn : 0 < n) :
    ∃ m' e', Lands (m * 2 ^ e * (n * 2 ^ f)) m' e' ∧ Denotes (x * y) (a != b) (m' * 2 ^ e') := by
  have hself : x * y = packed (.mul .binary64 x.toModel.unpack y.toModel.unpack) := rfl
  have hlong : 52 ≤ (m * n).log2 ∨ e + f ≤ -1074 := by
    have hprod := Nat.mul_pos hm hn
    rw [Nat.le_log2 hprod.ne']
    rcases (fits_of_parts hx).1.above with hxsub | hxnormal
    · rcases (fits_of_parts hy).1.above with hysub | hynormal
      · exact .inr (by omega)
      · exact .inl (hynormal.trans (Nat.le_mul_of_pos_left n hm))
    · exact .inl (hxnormal.trans (Nat.le_mul_of_pos_right m hn))
  have hread := reads_exact (m * n)
  have h := denotes_roundWithAccuracy (a != b) hread hlong
  have hvalue : ((m * n : ℕ) : ℚ) * 2 ^ (e + f) = m * 2 ^ e * (n * 2 ^ f) := by
    rw [zpow_add₀ two_ne_zero]
    push_cast
    ring
  rw [hvalue, ← signOf_mul] at h
  rw [hself, unpack_finite hx hm, unpack_finite hy hn]
  exact h

/-- A quotient is rounded once. -/
theorem denotes_div (hx : parts x = .finite a m e) (hy : parts y = .finite b n f) (hm : 0 < m) (hn : 0 < n) :
    ∃ m' e', Lands (m * 2 ^ e / (n * 2 ^ f)) m' e' ∧ Denotes (x / y) (a != b) (m' * 2 ^ e') := by
  have hself : x / y = packed (.div .binary64 x.toModel.unpack y.toModel.unpack) := rfl
  obtain ⟨target, htarget⟩ : ∃ target : ℤ, target =
      min (e - f) (max (((m.log2 : ℤ) + 1 + e) - (n.log2 + 1 + f) - 53) (-1074)) := ⟨_, rfl⟩
  obtain ⟨k, hk⟩ : ∃ k : ℕ, e - f - target = k := ⟨(e - f - target).toNat, by omega⟩
  have hread := reads_quotient (m <<< k) hn
  have hlong : 52 ≤ ((m <<< k) / n).log2 ∨ target ≤ -1074 := by
    by_cases hleast : target ≤ -1074
    · exact .inr hleast
    · left
      have hquotient : 2 ^ 52 ≤ (m <<< k) / n := by
        rw [Nat.le_div_iff_mul_le hn, Nat.shiftLeft_eq]
        calc 2 ^ 52 * n ≤ 2 ^ 52 * 2 ^ (n.log2 + 1) := Nat.mul_le_mul_left _ Nat.lt_log2_self.le
          _ = 2 ^ (52 + (n.log2 + 1)) := (Nat.pow_add _ _ _).symm
          _ ≤ 2 ^ (m.log2 + k) := Nat.pow_le_pow_right two_pos (by omega)
          _ = 2 ^ m.log2 * 2 ^ k := Nat.pow_add _ _ _
          _ ≤ m * 2 ^ k := Nat.mul_le_mul_right _ (Nat.log2_self_le hm.ne')
      exact (Nat.le_log2 (by omega)).mpr hquotient
  have h := denotes_roundWithAccuracy (a != b) hread hlong
  have hvalue : ((m <<< k : ℕ) : ℚ) / n * 2 ^ target = m * 2 ^ e / (n * 2 ^ f) := by
    have hexp : (2 : ℚ) ^ k * 2 ^ target = 2 ^ e / 2 ^ f := by
      rw [← zpow_natCast, ← zpow_add₀ two_ne_zero, ← zpow_sub₀ two_ne_zero]
      congr 1
      omega
    rw [Nat.shiftLeft_eq, Nat.cast_mul, Nat.cast_pow, Nat.cast_ofNat, mul_div_mul_comm, ← hexp]
    ring
  have hdiv : UnpackedFloat.div .binary64 (.finite (signOf a) m e hm) (.finite (signOf b) n f hn) =
      roundWithAccuracy .binary64 (signOf a / signOf b) ((m <<< k) / n) target (accuracyOfFraction ((m <<< k) % n) n) := by
    have hcore : divCore .binary64 m e n f = ((m <<< k) / n, target, accuracyOfFraction ((m <<< k) % n) n) := by
      have hplace : Format.binary64.targetExponent (totalExponent m e - totalExponent n f) =
          max (((m.log2 : ℤ) + 1 + e) - (n.log2 + 1 + f) - 53) (-1074) := rfl
      have hshift : (e - f - target).toNat = k := by omega
      rw [divCore, hplace, ← htarget, hshift]
    rw [UnpackedFloat.div, hcore]
  rw [hself, unpack_finite hx hm, unpack_finite hy hn, hdiv, signOf_div]
  rw [hvalue] at h
  exact h

/-- An infinite factor makes an infinite product. -/
theorem parts_mul_inf (hx : parts x = .inf a) (hy : parts y = .finite b n f) (hn : 0 < n) : parts (x * y) = .inf (a != b) := by
  have hself : x * y = packed (.mul .binary64 x.toModel.unpack y.toModel.unpack) := rfl
  rw [hself, unpack_toModel, hx, unpack_finite hy hn, ← parts_packed_infinity (a != b), ← signOf_mul]
  rfl

/-- A factor that is zero makes a zero. -/
theorem parts_mul_zero (hx : parts x = .finite a 0 e) (hy : parts y = .finite b n f) (hn : 0 < n) :
    parts (x * y) = .finite (a != b) 0 (-1074) := by
  have hself : x * y = packed (.mul .binary64 x.toModel.unpack y.toModel.unpack) := rfl
  rw [hself, unpack_toModel, hx, unpack_finite hy hn, ← parts_packed_zero (a != b), ← signOf_mul]
  rfl

theorem denotes_neg {v : ℚ} (h : Denotes x a v) : Denotes (-x) (!a) v := by
  have hparts := parts_neg x
  cases h with
  | finite h =>
    rw [h] at hparts
    exact .finite hparts
  | inf h hv =>
    rw [h] at hparts
    exact .inf hparts hv

/-- The double of a word is rounded once. -/
theorem lands_toFloat (w : UInt64) : ∃ m e, Lands w.toNat m e ∧ Denotes w.toFloat false (m * 2 ^ e) := by
  have hself : w.toFloat = packed (UnpackedFloat.normalize .binary64 (w.toNat : ℤ) 0 .positive) := rfl
  rw [hself]
  generalize w.toNat = n
  rcases Nat.eq_zero_or_pos n with rfl | hpos
  · refine ⟨0, -1074, ⟨le_rfl, by positivity, .inl rfl, ?_⟩, ?_⟩
    · rw [Nat.cast_zero, zero_div]
      exact rounds_natCast 0
    · have hvalue : ((0 : ℕ) : ℚ) * 2 ^ (-1074 : ℤ) = 0 := by rw [Nat.cast_zero, zero_mul]
      rw [hvalue]
      exact denotes_zero false
  · obtain ⟨k, hk⟩ : ∃ k : ℕ, k = (0 - max ((n.log2 : ℤ) + 1 + 0 - 53) (-1074)).toNat := ⟨_, rfl⟩
    have hlong : 52 ≤ (n <<< k).log2 ∨ (0 : ℤ) - k ≤ -1074 := by
      left
      have hbits : 2 ^ 52 ≤ n <<< k := by
        rw [Nat.shiftLeft_eq]
        calc 2 ^ 52 ≤ 2 ^ (n.log2 + k) := Nat.pow_le_pow_right two_pos (by omega)
          _ = 2 ^ n.log2 * 2 ^ k := Nat.pow_add _ _ _
          _ ≤ n * 2 ^ k := Nat.mul_le_mul_right _ (Nat.log2_self_le hpos.ne')
      exact (Nat.le_log2 (by omega)).mpr hbits
    have hvalue : ((n <<< k : ℕ) : ℚ) * 2 ^ ((0 : ℤ) - k) = n := by
      rw [Nat.shiftLeft_eq, zero_sub, zpow_neg, zpow_natCast]
      push_cast
      field_simp
    have hround : UnpackedFloat.normalize .binary64 (n : ℤ) 0 .positive =
        roundWithAccuracy .binary64 (signOf false) (n <<< k) (0 - k) .exact := by
      rw [UnpackedFloat.normalize, Int.compare_eq_gt.mpr (by omega)]
      dsimp only
      rw [Int.toNat_natCast, UnpackedFloat.round, targetExponent_eq, decreaseExponent, ← hk]
      rfl
    have h := denotes_roundWithAccuracy false (reads_exact (n <<< k)) hlong
    rw [hvalue] at h
    rw [hround]
    exact h

/-- A word with few bits is a double. -/
theorem denotes_toFloat (h : m ≤ 2 ^ 53) : Denotes (UInt64.ofNat m).toFloat false (m * 2 ^ (0 : ℤ)) := by
  have hword : (UInt64.ofNat m).toNat = m := by
    rw [UInt64.toNat_ofNat']
    exact Nat.mod_eq_of_lt (by omega)
  obtain ⟨m', e, hlands, hden⟩ := lands_toFloat (UInt64.ofNat m)
  rw [hword, ← mul_one (m : ℚ), ← zpow_zero (2 : ℚ)] at hlands
  rwa [hlands.eq_of_short h (by decide)] at hden

end CseMachine.Binary64
