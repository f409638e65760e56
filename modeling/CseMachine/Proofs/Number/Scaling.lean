import CseMachine.Builtin.Call
import CseMachine.Proofs.Binary64.Integers
import CseMachine.Proofs.Binary64.Powers

/-!
# Doubles rounded to powers of ten

A double is divided by a power of ten, rounded to a whole number and multiplied again,
each time in doubles. Up to the 308-th power only the product can leave the finite
doubles, and only for a magnitude close to the greatest. The powers above are infinite,
so the quotient is zero and the product no number. Decimal places behind the point never
leave the finite doubles, and neither do powers that are not looked at any more.
-/
namespace CseMachine

namespace Binary64

open Float.Model Float.Model.UnpackedFloat

variable {x y : Float} {a b : Bool} {m n : ℕ} {e f : ℤ} {v : ℚ}

/-! ## Kinds of doubles -/

theorem isNaN_of_parts (h : parts x = .nan) : x.isNaN = true := by
  rw [isNaN_iff, extended?, h]
  rfl

theorem not_isInf_of_parts (h : parts x = .nan) : ¬x.isInf = true := by
  have hself : x.isInf = (parts x).unpacked.isInf := congrArg UnpackedFloat.isInf (unpack_toModel x)
  rw [hself, h]
  exact Bool.false_ne_true

namespace Denotes

theorem not_isNaN (h : Denotes x a v) : ¬x.isNaN = true := by
  rw [isNaN_iff, extended?]
  rcases h.parts_cases with ⟨m, e, hparts, -⟩ | ⟨hparts, -⟩
  · rw [hparts]
    exact Option.some_ne_none _
  · rw [hparts]
    exact Option.some_ne_none _

theorem isFinite (h : Denotes x a v) (hv : v < 2 ^ (1024 : ℤ)) : x.isFinite = true := by
  obtain ⟨m, e, hparts, -⟩ := h.exists_parts hv
  exact isFinite_iff.mpr ⟨a, m, e, hparts⟩

end Denotes

theorem isFinite_iff_not (x : Float) : x.isFinite = true ↔ ¬x.isNaN = true ∧ ¬x.isInf = true := by
  have hself : x.isFinite = (!x.isNaN && !x.isInf) := by
    show x.toModel.unpack.isFinite = (!x.toModel.unpack.isNaN && !x.toModel.unpack.isInf)
    cases x.toModel.unpack <;> rfl
  rw [hself, Bool.and_eq_true, Bool.not_eq_true', Bool.not_eq_true', Bool.not_eq_true, Bool.not_eq_true]

/-! ## Zeros and infinities as operands -/

/-- A finite double divided by infinity is zero. -/
theorem parts_div_inf (hx : parts x = .finite a m e) (hy : parts y = .inf b) :
    parts (x / y) = .finite (a != b) 0 (-1074) := by
  have hself : x / y = packed (.div .binary64 x.toModel.unpack y.toModel.unpack) := rfl
  rw [hself, ← parts_packed_zero (a != b), ← signOf_div]
  rcases Nat.eq_zero_or_pos m with rfl | hm
  · rw [unpack_toModel, unpack_toModel, hx, hy]
    rfl
  · rw [unpack_finite hx hm, unpack_toModel, hy]
    rfl

theorem parts_div_zero (hx : parts x = .finite a 0 e) (hy : parts y = .finite b n f) (hn : 0 < n) :
    parts (x / y) = .finite (a != b) 0 (-1074) := by
  have hself : x / y = packed (.div .binary64 x.toModel.unpack y.toModel.unpack) := rfl
  rw [hself, unpack_toModel, hx, unpack_finite hy hn, ← parts_packed_zero (a != b), ← signOf_div]
  rfl

/-- Zero times infinity is no number. -/
theorem parts_zero_mul_inf (hx : parts x = .finite a 0 e) (hy : parts y = .inf b) : parts (x * y) = .nan := by
  have hself : x * y = packed (.mul .binary64 x.toModel.unpack y.toModel.unpack) := rfl
  rw [hself, unpack_toModel, unpack_toModel, hx, hy]
  exact parts_packed_unpacked (p := .nan) trivial

/-! ## Whole doubles -/

/-- The nearest whole double has the sign of the double and is an integer. -/
theorem parts_roundEven (h : parts x = .finite a m e) :
    ∃ k n f, parts (roundEven x) = .finite a n f ∧ (n : ℚ) * 2 ^ f = (k : ℕ) ∧ Rounds (m * 2 ^ e) k := by
  have hself : roundEven x = if 0 ≤ e then x else nearest a (roundDiv m (Nat.pow 2 (-e).toNat)) 1 := by
    rw [roundEven, roundWith, h]
  rw [hself]
  by_cases he : 0 ≤ e
  · rw [if_pos he]
    refine ⟨wholePart m e, m, e, h, (wholePart_eq he).symm, ?_⟩
    rw [← wholePart_eq he]
    exact rounds_natCast _
  · rw [if_neg he]
    have hunit : 0 < Nat.pow 2 (-e).toNat := Nat.pow_pos two_pos
    have hrounds := rounds_roundDiv m hunit
    rw [div_eq_mul_inv, ← two_zpow_eq_inv he] at hrounds
    obtain ⟨k, hk⟩ : ∃ k, roundDiv m (Nat.pow 2 (-e).toNat) = k := ⟨_, rfl⟩
    rw [hk] at hrounds ⊢
    have hshort : k ≤ 2 ^ 53 := by
      refine hrounds.le_of_le ?_
      have hm : (m : ℚ) ≤ 2 ^ 53 := by exact_mod_cast (fits_of_parts h).1.below.le
      calc (m : ℚ) * 2 ^ e ≤ 2 ^ 53 * 1 :=
            mul_le_mul hm (zpow_le_one_of_nonpos₀ one_le_two (by omega)) (two_zpow_pos e).le (by norm_num)
        _ = ((2 ^ 53 : ℕ) : ℚ) := by norm_num
    obtain ⟨n, f, hlands, hdenotes⟩ := denotes_nearest a k one_pos
    have hvalue : (k : ℚ) / (1 : ℕ) = k * 2 ^ (0 : ℤ) := by rw [Nat.cast_one, div_one, zpow_zero, mul_one]
    rw [hvalue] at hlands
    rw [hlands.eq_of_short hshort (by decide), zpow_zero, mul_one] at hdenotes
    obtain ⟨n', f', hparts, hk'⟩ := hdenotes.exists_parts (short_lt hshort)
    exact ⟨k, n', f', hparts, hk'.symm, hrounds⟩

end Binary64

namespace Number

open Binary64

variable {x : Float} {a : Bool} {m power : ℕ} {e : ℤ} {v : ℚ}

/-! ## Powers above one -/

/-- The whole number of powers of ten that is nearest to a double makes a product that is rounded to
no finite double. -/
def Overflows (x : Float) (power : ℕ) : Prop :=
  ∃ k s : ℚ, value? (roundEven (x / powNat 10.0 power)) = some k ∧ value? (powNat 10.0 power) = some s ∧
    (2 ^ 53 - 1 / 2) * 2 ^ (971 : ℤ) ≤ |k| * s

/-- The quotient by a finite power is finite, and too large by one part in `2 ^ 53` at most. -/
theorem exists_quotient {n : ℕ} {f : ℤ} (hx : parts x = .finite a m e) (hs : parts (powNat 10.0 power) = .finite false n f)
    (hone : 1 ≤ (n : ℚ) * 2 ^ f) :
    ∃ m' e', parts (x / powNat 10.0 power) = .finite a m' e' ∧
      (m' : ℚ) * 2 ^ e' * (n * 2 ^ f) ≤ m * 2 ^ e * (1 + 1 / 2 ^ 53) + 2 ^ (-1075 : ℤ) * (n * 2 ^ f) := by
  obtain ⟨s, hs'⟩ : ∃ s : ℚ, (n : ℚ) * 2 ^ f = s := ⟨_, rfl⟩
  have hsign : (a != false) = a := Bool.bne_false a
  have hn : 0 < n := by
    rcases Nat.eq_zero_or_pos n with rfl | hn
    · rw [Nat.cast_zero, zero_mul] at hone
      exact absurd hone (by norm_num)
    · exact hn
  have hleast := two_zpow_pos (-1075)
  rw [hs'] at hone ⊢
  have hs_pos : 0 < s := zero_lt_one.trans_le hone
  rcases Nat.eq_zero_or_pos m with rfl | hm
  · refine ⟨0, -1074, hsign ▸ parts_div_zero hx hs hn, ?_⟩
    rw [Nat.cast_zero, zero_mul, zero_mul, zero_mul, zero_mul, zero_add]
    positivity
  · obtain ⟨m', e', hlands, hdenotes⟩ := denotes_div hx hs hm hn
    rw [hs'] at hlands
    have hv_pos : (0 : ℚ) < m * 2 ^ e := mul_pos (Nat.cast_pos.mpr hm) (two_zpow_pos e)
    have hle : (m : ℚ) * 2 ^ e / s ≤ m * 2 ^ e := div_le_self hv_pos.le hone
    have hbelow := (hlands.le_of_le (fits_of_parts hx).1 hle).trans_lt (lt_of_parts hx)
    obtain ⟨m₁, e₁, hparts, hvalue⟩ := hdenotes.exists_parts hbelow
    have herror := (abs_le.mp (hlands.mixed_error (by positivity))).2
    refine ⟨m₁, e₁, hsign ▸ hparts, ?_⟩
    rw [← hvalue]
    calc (m' : ℚ) * 2 ^ e' * s ≤ (m * 2 ^ e / s * (1 + 1 / 2 ^ 53) + 2 ^ (-1075 : ℤ)) * s :=
          mul_le_mul_of_nonneg_right (by linarith) hs_pos.le
      _ = m * 2 ^ e * (1 + 1 / 2 ^ 53) + 2 ^ (-1075 : ℤ) * s := by
          field_simp

/-- Up to the 308-th power the result is a rounded product: of the power, and of the whole number that
is nearest to the quotient. -/
theorem roundToPower_product (hx : parts x = .finite a m e) (h0 : 0 < power) (hmax : power ≤ maxPower) :
    ∃ (k : ℕ) (s : ℚ) (m' : ℕ) (e' : ℤ), value? (roundEven (x / powNat 10.0 power)) = some (withSign a k) ∧
      value? (powNat 10.0 power) = some s ∧ PowerOfTen power s ∧
      k * s ≤ m * 2 ^ e * (1 + 1 / 2 ^ 53) + (1 / 2 + 2 ^ (-1075 : ℤ)) * s ∧
      Lands (k * s) m' e' ∧ Denotes (roundToPower x power) a (m' * 2 ^ e') := by
  obtain ⟨n, f, hs, hpower⟩ := parts_powNat_ten h0 hmax
  obtain ⟨m₁, e₁, hquotient, hbound⟩ := exists_quotient hx hs hpower.one_le
  obtain ⟨k, n', f', hround, hk, hrounds⟩ := parts_roundEven hquotient
  have hnear : (k : ℚ) ≤ m₁ * 2 ^ e₁ + 1 / 2 := by linarith [(abs_le.mp hrounds.near).2]
  have hs_pos : 0 < (n : ℚ) * 2 ^ f := zero_lt_one.trans_le hpower.one_le
  have hn : 0 < n := Nat.pos_of_ne_zero fun h0 => by simp [h0] at hs_pos
  have hsign : (a != false) = a := Bool.bne_false a
  have hproduct : ∃ m' e', Lands (k * (n * 2 ^ f)) m' e' ∧ Denotes (roundToPower x power) a (m' * 2 ^ e') := by
    rcases Nat.eq_zero_or_pos n' with rfl | hn'
    · have hzero : (k : ℚ) = 0 := by rw [← hk, Nat.cast_zero, zero_mul]
      refine ⟨0, -1074, ⟨le_rfl, ?_, .inl rfl, ?_⟩, .finite (hsign ▸ parts_mul_zero hround hs hn)⟩
      · rw [hzero, zero_mul]
        positivity
      · rw [hzero, zero_mul, zero_div]
        exact rounds_natCast 0
    · obtain ⟨m', e', hlands, hdenotes⟩ := denotes_mul hround hs hn' hn
      rw [hk] at hlands
      exact ⟨m', e', hlands, hsign ▸ hdenotes⟩
  obtain ⟨m', e', hlands, hdenotes⟩ := hproduct
  refine ⟨k, n * 2 ^ f, m', e', hk ▸ value?_of_parts hround, value?_of_parts hs, hpower, ?_, hlands, hdenotes⟩
  calc (k : ℚ) * (n * 2 ^ f) ≤ (m₁ * 2 ^ e₁ + 1 / 2) * (n * 2 ^ f) := mul_le_mul_of_nonneg_right hnear hs_pos.le
    _ ≤ m * 2 ^ e * (1 + 1 / 2 ^ 53) + (1 / 2 + 2 ^ (-1075 : ℤ)) * (n * 2 ^ f) := by linarith

/-- A product leaves the finite doubles only as an infinity. -/
theorem roundToPower_isInf (hx : parts x = .finite a m e) (h0 : 0 < power) (hmax : power ≤ maxPower) :
    ¬(roundToPower x power).isNaN = true ∧ ((roundToPower x power).isInf = true ↔ Overflows x power) := by
  obtain ⟨k, s, m', e', hk, hs, -, -, hlands, hdenotes⟩ := roundToPower_product hx h0 hmax
  refine ⟨hdenotes.not_isNaN, ?_⟩
  rw [hdenotes.isInf_iff, hlands.overflows_iff]
  have habs : |withSign a k| = k := by rw [abs_withSign, abs_of_nonneg (Nat.cast_nonneg k)]
  constructor
  · intro h
    exact ⟨_, s, hk, hs, by rwa [habs]⟩
  · rintro ⟨k', s', hk', hs', h⟩
    obtain rfl := Option.some.inj (hk.symm.trans hk')
    obtain rfl := Option.some.inj (hs.symm.trans hs')
    rwa [habs] at h

/-- A magnitude below half of the range stays finite. -/
theorem not_overflows (hx : parts x = .finite a m e) (h0 : 0 < power) (hmax : power ≤ maxPower)
    (hsmall : (m : ℚ) * 2 ^ e < 2 ^ (1023 : ℤ)) : ¬Overflows x power := by
  obtain ⟨k, s, m', e', hk, hs, hpower, hle, -, -⟩ := roundToPower_product hx h0 hmax
  rintro ⟨k', s', hk', hs', h⟩
  obtain rfl := Option.some.inj (hk.symm.trans hk')
  obtain rfl := Option.some.inj (hs.symm.trans hs')
  rw [abs_withSign, abs_of_nonneg (Nat.cast_nonneg k)] at h
  have hs_le : s ≤ highTen ^ maxPower := hpower.high.trans (pow_le_pow_right₀ one_le_highTen hmax)
  have hs_pos : 0 < s := zero_lt_one.trans_le hpower.one_le
  have hroom := highTen_pow_le
  have hleast : (2 : ℚ) ^ (-1075 : ℤ) ≤ 1 / 4 :=
    calc (2 : ℚ) ^ (-1075 : ℤ) ≤ 2 ^ (-2 : ℤ) := zpow_le_zpow_right₀ one_le_two (by decide)
      _ = 1 / 4 := by norm_num
  have hpart : (1 / 2 + 2 ^ (-1075 : ℤ)) * s ≤ 3 / 4 * s := mul_le_mul_of_nonneg_right (by linarith) hs_pos.le
  have htop : (2 : ℚ) ^ (1023 : ℤ) = 2 ^ 52 * 2 ^ (971 : ℤ) := zpow_add₀ two_ne_zero 52 971
  rw [htop] at hsmall
  generalize (2 : ℚ) ^ (971 : ℤ) = unit at *
  linarith

/-- The powers above that are infinite: the quotient by one is zero, and the product no number. -/
theorem roundToPower_nan (hx : parts x = .finite a m e) (hmin : maxPower < power) (hbound : power < 512) :
    parts (roundToPower x power) = .nan := by
  have hs := parts_powNat_ten_inf hmin hbound
  have hquotient := parts_div_inf hx hs
  obtain ⟨k, n, f, hround, hk, hrounds⟩ := parts_roundEven hquotient
  rw [Nat.cast_zero, zero_mul, ← Nat.cast_zero] at hrounds
  rw [hrounds.eq_of_natCast, Nat.cast_zero] at hk
  have hn : n = 0 := Nat.cast_eq_zero.mp ((mul_eq_zero.mp hk).resolve_right (two_zpow_pos f).ne')
  rw [hn] at hround
  exact parts_zero_mul_inf hround hs

/-! ## Decimal places -/

/-- Rounding behind the point does not leave the finite doubles: it does not pass the next integer. -/
theorem isFinite_roundPlaces (hx : parts x = .finite a m e) (places : ℕ) : (Decimal.roundPlaces x places).isFinite = true := by
  obtain ⟨unit, hunit⟩ : ∃ unit, Nat.pow 10 places = unit := ⟨_, rfl⟩
  have hunit_pos : 0 < unit := hunit ▸ Nat.pow_pos (by decide)
  have hpos : (0 : ℚ) < unit := Nat.cast_pos.mpr hunit_pos
  obtain ⟨num, hnum⟩ : ∃ num, roundDiv (m * Nat.pow 2 e.toNat * unit) (Nat.pow 2 (-e).toNat) = num := ⟨_, rfl⟩
  have hself : Decimal.roundPlaces x places = nearest a num unit := by
    rw [Decimal.roundPlaces, hx]
    show nearest a (roundDiv (m * Nat.pow 2 e.toNat * Nat.pow 10 places) (Nat.pow 2 (-e).toNat)) (Nat.pow 10 places) = _
    rw [hunit, hnum]
  obtain ⟨m', e', hlands, hdenotes⟩ := denotes_nearest a num hunit_pos
  rw [hself]
  refine hdenotes.isFinite ?_
  have hrounds : Rounds ((m * Nat.pow 2 e.toNat * unit : ℕ) / (Nat.pow 2 (-e).toNat : ℕ)) num :=
    hnum ▸ rounds_roundDiv _ (Nat.pow_pos two_pos)
  by_cases he : 0 ≤ e
  · -- A whole double stays as it is.
    have hone : Nat.pow 2 (-e).toNat = 1 := by rw [show (-e).toNat = 0 by omega, Nat.pow_eq, pow_zero]
    rw [hone, Nat.cast_one, div_one] at hrounds
    have hvalue : (num : ℚ) / unit = m * 2 ^ e := by
      rw [hrounds.eq_of_natCast, Nat.cast_mul, mul_div_cancel_right₀ _ hpos.ne', ← wholePart_eq he, wholePart, if_pos he]
    exact (hlands.le_of_le (fits_of_parts hx).1 hvalue.le).trans_lt (lt_of_parts hx)
  · have hfits : Fits (2 ^ 52) 1 := ⟨by decide, by decide, .inr le_rfl⟩
    have hshort : num ≤ 2 ^ 53 * unit := by
      refine hrounds.le_of_le ?_
      have hzero : Nat.pow 2 e.toNat = 1 := by rw [show e.toNat = 0 by omega, Nat.pow_eq, pow_zero]
      have hm : (m : ℚ) ≤ 2 ^ 53 := by exact_mod_cast (fits_of_parts hx).1.below.le
      rw [hzero, mul_one, div_eq_mul_inv, ← two_zpow_eq_inv he]
      push_cast
      calc (m : ℚ) * unit * 2 ^ e ≤ 2 ^ 53 * unit * 1 := by
            refine mul_le_mul (mul_le_mul_of_nonneg_right hm hpos.le) (zpow_le_one_of_nonpos₀ one_le_two (by omega)) ?_ ?_
            · exact (two_zpow_pos e).le
            · positivity
        _ = 2 ^ 53 * unit := mul_one _
    have hle : (num : ℚ) / unit ≤ ((2 ^ 52 : ℕ) : ℚ) * 2 ^ (1 : ℤ) := by
      rw [div_le_iff₀ hpos]
      calc (num : ℚ) ≤ 2 ^ 53 * unit := by exact_mod_cast hshort
        _ = ((2 ^ 52 : ℕ) : ℚ) * 2 ^ (1 : ℤ) * unit := by push_cast; ring
    calc (m' : ℚ) * 2 ^ e' ≤ ((2 ^ 52 : ℕ) : ℚ) * 2 ^ (1 : ℤ) := hlands.le_of_le hfits hle
      _ = ((2 ^ 53 : ℕ) : ℚ) := by norm_num
      _ < 2 ^ (1024 : ℤ) := short_lt le_rfl

/-! ## All places -/

theorem isFinite_copySign_zero (x : Float) : (copySign 0.0 x).isFinite = true := by
  rw [copySign]
  split
  · decide
  · decide

theorem isFinite_roundFloat {places : ℤ} (hx : parts x = .finite a m e)
    (h : places ≤ -maxFloatPlaces ∨ 0 ≤ places) : (roundFloat x places).isFinite = true := by
  have hfinite : x.isFinite = true := isFinite_iff.mpr ⟨a, m, e, hx⟩
  rw [roundFloat, hfinite, Bool.not_true, if_neg Bool.false_ne_true]
  by_cases hmany : maxFloatPlaces < places
  · rw [if_pos hmany]
    exact hfinite
  · rw [if_neg hmany]
    by_cases hbehind : 0 ≤ places
    · rw [if_pos hbehind]
      exact isFinite_roundPlaces hx _
    · rw [if_neg hbehind, if_neg (by omega)]
      exact isFinite_copySign_zero x

theorem roundFloat_power {places : ℤ} (hx : x.isFinite = true) (hlow : -maxFloatPlaces < places) (hneg : places < 0) :
    roundFloat x places = roundToPower x places.natAbs := by
  have hmany : ¬maxFloatPlaces < places := fun h => by
    have : (0 : ℤ) < maxFloatPlaces := by decide
    omega
  rw [roundFloat, hx, Bool.not_true, if_neg Bool.false_ne_true, if_neg hmany, if_neg (not_le.mpr hneg), if_pos hlow]

end Number

namespace Builtin

open Binary64 Number

/-- A finite double that is rounded becomes no number for the powers of ten that are infinite, infinite
for a product that is out of range, and a finite double in all other cases. -/
theorem round_float (store : Store) (x : Float) (n : Int) (hx : x.isFinite = true) :
    ∃ r, call store .round [.float x, .int n] = .ok (.float r) ∧
      (r.isNaN = true ↔ -330 < n ∧ n < -308) ∧
      (r.isInf = true ↔ -308 ≤ n ∧ n < 0 ∧ Overflows x n.natAbs) ∧
      (n ≤ -330 ∨ 0 ≤ n ∨ -308 ≤ n ∧ (∃ v, value? x = some v ∧ |v| < 2 ^ (1023 : ℤ)) → r.isFinite = true) := by
  refine ⟨roundFloat x n, rfl, ?_⟩
  obtain ⟨a, m, e, hparts⟩ := isFinite_iff.mp hx
  have hplaces : maxFloatPlaces = 330 := rfl
  have hpower : maxPower = 308 := rfl
  by_cases hout : n ≤ -330 ∨ 0 ≤ n
  · have hfinite := isFinite_roundFloat hparts (hplaces ▸ hout)
    obtain ⟨hnan, hinf⟩ := (isFinite_iff_not _).mp hfinite
    exact ⟨iff_of_false hnan (by omega), iff_of_false hinf fun h => by omega, fun _ => hfinite⟩
  · rw [roundFloat_power hx (by omega) (by omega)]
    by_cases hlarge : n < -308
    · have hmin : maxPower < n.natAbs := by omega
      have hnan := roundToPower_nan hparts hmin (by omega)
      refine ⟨iff_of_true (isNaN_of_parts hnan) (by omega), ?_, fun h => by omega⟩
      exact iff_of_false (not_isInf_of_parts hnan) fun h => by omega
    · have hpos : 0 < n.natAbs := by omega
      have hmax : n.natAbs ≤ maxPower := by omega
      obtain ⟨hnan, hinf⟩ := roundToPower_isInf hparts hpos hmax
      refine ⟨iff_of_false hnan (by omega), hinf.trans ⟨fun h => ⟨by omega, by omega, h⟩, fun h => h.2.2⟩, ?_⟩
      rintro (h | h | ⟨-, v, hv, hsmall⟩)
      · omega
      · omega
      · rw [value?_of_parts hparts, Option.some.injEq] at hv
        have hnonneg : (0 : ℚ) ≤ m * 2 ^ e := mul_nonneg (Nat.cast_nonneg m) (two_zpow_pos e).le
        rw [← hv, abs_withSign, abs_of_nonneg hnonneg] at hsmall
        exact (isFinite_iff_not _).mpr ⟨hnan, mt hinf.mp (not_overflows hparts hpos hmax hsmall)⟩

/-- No number comes of a power that is infinite. -/
theorem round_float_infinitePower :
    (123.0 : Float).isFinite = true ∧ ∃ r, call .empty .round [.float 123.0, .int (-309)] = .ok (.float r) ∧ r.isNaN = true := by
  have hfinite : (123.0 : Float).isFinite = true := by decide
  obtain ⟨r, hr, hnan, -, -⟩ := round_float .empty 123.0 (-309) hfinite
  exact ⟨hfinite, r, hr, hnan.mpr (by decide)⟩

end Builtin
end CseMachine
