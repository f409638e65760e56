import CseMachine.Proofs.Binary64.Arithmetic
import CseMachine.Proofs.Binary64.Numerals
import CseMachine.Proofs.Binary64.Order

/-!
# Order of integers and doubles

An integer is compared with a double by their exact values, however large it is. A
small one is a double itself. A large one that has the digits of a double's integer
part is the double: below its last bit such a double has nothing.
-/
namespace CseMachine.Binary64

open Float.Model Float.Model.UnpackedFloat

variable {x : Float} {negative : Bool} {n m : ℕ} {i : ℤ} {e : ℤ} {v w : ℚ}

/-! ## Digits of a double -/

/-- A finite double without its sign and its fractional part. -/
def wholePart (m : ℕ) (e : ℤ) : ℕ := if 0 ≤ e then m * Nat.pow 2 e.toNat else m / Nat.pow 2 (-e).toNat

theorem two_zpow_eq_inv (he : ¬ 0 ≤ e) : (2 : ℚ) ^ e = ((Nat.pow 2 (-e).toNat : ℕ) : ℚ)⁻¹ := by
  rw [Nat.pow_eq, Nat.cast_pow, Nat.cast_ofNat, ← zpow_natCast, Int.toNat_of_nonneg (by omega), zpow_neg, inv_inv]

theorem wholePart_eq (he : 0 ≤ e) : (wholePart m e : ℚ) = m * 2 ^ e := by
  rw [wholePart, if_pos he, Nat.pow_eq]
  conv_rhs => rw [← Int.toNat_of_nonneg he, zpow_natCast]
  push_cast
  rfl

theorem wholePart_le (m : ℕ) (e : ℤ) : (wholePart m e : ℚ) ≤ m * 2 ^ e := by
  by_cases he : 0 ≤ e
  · exact (wholePart_eq he).le
  · rw [wholePart, if_neg he, two_zpow_eq_inv he, ← div_eq_mul_inv]
    exact Nat.cast_div_le

theorem lt_wholePart (m : ℕ) (e : ℤ) : (m : ℚ) * 2 ^ e < wholePart m e + 1 := by
  by_cases he : 0 ≤ e
  · rw [wholePart_eq he]
    exact lt_add_one _
  · rw [wholePart, if_neg he, two_zpow_eq_inv he, ← div_eq_mul_inv, div_lt_iff₀ (Nat.cast_pos.mpr (Nat.two_pow_pos _)), mul_comm]
    exact_mod_cast Nat.lt_mul_div_succ m (Nat.two_pow_pos (-e).toNat)

theorem wholeDigits_eq (h : parts x = .finite negative m e) : wholeDigits x = toString (wholePart m e) := by
  have hwhole : toInt? x = some (signed negative (wholePart m e)) := by
    rw [toInt?, h]
    rfl
  rw [wholeDigits, hwhole]
  cases negative
  · rfl
  · exact congrArg toString (Int.natAbs_neg _)

/-- A finite double less itself is zero. -/
theorem parts_sub_self (h : parts x = .finite negative m e) : parts (x - x) = .finite false 0 (-1074) := by
  have hself : x - x = packed (x.toModel.unpack.sub .binary64 x.toModel.unpack) := rfl
  have hzero : x.toModel.unpack.sub .binary64 x.toModel.unpack = .zero (signOf false) := by
    rw [unpack_toModel, h, Parts.unpacked]
    split
    · rw [UnpackedFloat.sub]
      dsimp only
      rw [Int.sub_self]
      rfl
    · cases negative <;> rfl
  rw [hself, hzero, parts_packed_zero]

/-- From the last bit on there is nothing behind the point. -/
theorem not_zero_lt_fract (h : parts x = .finite negative m e) (he : 0 ≤ e) : ¬ 0.0 < fract x := by
  have htrunc : trunc x = x := by rw [trunc, roundWith, h]; exact if_pos he
  rw [fract, htrunc, lt_iff, extended?_zero, extended?_of_parts (parts_sub_self h), Nat.cast_zero, zero_mul]
  show ¬ some (cmp (ofRat 0) (ofRat 0)) = some .lt
  rw [cmp_self_eq_eq]
  decide

/-- Digits decide the order of a large integer and a double. -/
theorem compareDigits_eq (h : parts x = .finite false m e) (hn : maxSafe < n) :
    compareDigits n x = cmp (n : ℚ) (m * 2 ^ e) := by
  have hlow := wholePart_le m e
  have hhigh := lt_wholePart m e
  have hself : compareDigits n x = (compareNumerals n (wholePart m e)).then (if 0.0 < fract x then .lt else .eq) := by
    rw [compareDigits, wholeDigits_eq h]
    rfl
  rw [hself, compareNumerals_eq]
  rcases lt_trichotomy n (wholePart m e) with hlt | heq | hgt
  · have hvalue : (n : ℚ) < m * 2 ^ e := (Nat.cast_lt.mpr hlt).trans_le hlow
    rw [compare_lt_iff_lt.mpr hlt, hvalue.cmp_eq_lt]
    rfl
  · -- The double has more digits than it has bits behind the point.
    have he : 0 ≤ e := by
      by_contra hneg
      have hless : wholePart m e ≤ m := by
        rw [wholePart, if_neg hneg]
        exact Nat.div_le_self _ _
      have hbelow := (fits_of_parts h).1.below
      have hsafe : maxSafe = 2 ^ 53 - 1 := rfl
      omega
    rw [heq, wholePart_eq he, cmp_self_eq_eq, compare_eq_iff_eq.mpr rfl, if_neg (not_zero_lt_fract h he)]
    rfl
  · have hvalue : (m : ℚ) * 2 ^ e < n := hhigh.trans_le (by exact_mod_cast hgt)
    rw [compare_gt_iff_gt.mpr hgt, hvalue.cmp_eq_gt]
    rfl

/-! ## Comparison -/

theorem extended?_toFloat (h : n ≤ maxSafe) : extended? (UInt64.ofNat n).toFloat = some (ofRat n) := by
  have hshort : n ≤ 2 ^ 53 := h.trans (Nat.sub_le _ _)
  have hdenotes := denotes_toFloat hshort
  rw [zpow_zero, mul_one] at hdenotes
  obtain ⟨m, e, hp, hv⟩ := hdenotes.exists_parts (short_lt hshort)
  rw [extended?_of_parts hp, hv, withSign, if_neg Bool.false_ne_true]

/-- Magnitudes are compared exactly on either way. -/
theorem compare_magnitudes (h : parts x = .finite negative m e) (n : ℕ) :
    (if n ≤ maxSafe then compareFloat (UInt64.ofNat n).toFloat x.abs else some (compareDigits n x.abs)) =
      some (cmp (n : ℚ) (m * 2 ^ e)) := by
  have habs : parts x.abs = .finite false m e := by rw [parts_abs, h, Parts.abs]
  split
  · next hsafe =>
    rw [compareFloat_eq, extended?_toFloat hsafe, extended?_of_parts habs]
    exact congrArg some (strictMono_ofRat.cmp_map_eq _ _)
  · next hlarge => rw [compareDigits_eq habs (Nat.not_le.mp hlarge)]

theorem sign_eq (h : extended? x = some (ofRat v)) : sign x = if 0 < v then 1 else if v < 0 then -1 else 0 := by
  have hcmp : ∀ v w : ℚ, Option.map₂ cmp (some (ofRat v)) (some (ofRat w)) = some .lt ↔ v < w := by
    intro v w
    rw [Option.map₂_coe_coe, strictMono_ofRat.cmp_map_eq, Option.some_inj, cmp_eq_lt_iff]
  simp only [sign, lt_iff, h, extended?_zero, hcmp]

/-- Numbers with different signs are in the order of their signs, others in that of their magnitudes. -/
theorem compare_by_sign (i : ℤ) (negative : Bool) (hw : 0 ≤ w) :
    (if i.sign ≠ (if 0 < withSign negative w then 1 else if withSign negative w < 0 then -1 else 0) then
      compare i.sign (if 0 < withSign negative w then 1 else if withSign negative w < 0 then -1 else 0)
    else if i = 0 then .eq
    else if i < 0 then (cmp (i.natAbs : ℚ) w).swap else cmp (i.natAbs : ℚ) w) = cmp (i : ℚ) (withSign negative w) := by
  have hi : (i : ℚ) = withSign (decide (i < 0)) i.natAbs := by
    by_cases h : i < 0
    · rw [decide_eq_true h, withSign, if_pos rfl, Nat.cast_natAbs, abs_of_neg h, Int.cast_neg, neg_neg]
    · rw [decide_eq_false h, withSign, if_neg Bool.false_ne_true, Nat.cast_natAbs, abs_of_nonneg (not_lt.mp h)]
  rcases lt_trichotomy (withSign negative w) 0 with hv | hv | hv
  · have hnegative : negative = true := by
      cases negative
      · exact absurd hw (not_le.mpr hv)
      · rfl
    rw [if_neg hv.not_gt, if_pos hv]
    rcases lt_trichotomy i 0 with h | rfl | h
    · rw [Int.sign_eq_neg_one_of_neg h, if_neg (not_not.mpr rfl), if_neg h.ne, if_pos h, hi, decide_eq_true h, hnegative,
        cmp_withSign, if_pos rfl]
    · rw [Int.cast_zero, hv.cmp_eq_gt]
      rfl
    · rw [Int.sign_eq_one_of_pos h, (hv.trans (Int.cast_pos.mpr h)).cmp_eq_gt]
      rfl
  · rw [hv, if_neg (lt_irrefl 0), if_neg (lt_irrefl 0)]
    rcases lt_trichotomy i 0 with h | rfl | h
    · rw [Int.sign_eq_neg_one_of_neg h, (Int.cast_lt_zero.mpr h).cmp_eq_lt]
      rfl
    · rw [Int.cast_zero, cmp_self_eq_eq]
      rfl
    · rw [Int.sign_eq_one_of_pos h, (Int.cast_pos.mpr h).cmp_eq_gt]
      rfl
  · have hnegative : negative = false := by
      cases negative
      · rfl
      · exact absurd (neg_nonpos.mpr hw) (not_le.mpr hv)
    rw [if_pos hv]
    rcases lt_trichotomy i 0 with h | rfl | h
    · rw [Int.sign_eq_neg_one_of_neg h, ((Int.cast_lt_zero.mpr h).trans hv).cmp_eq_lt]
      rfl
    · rw [Int.cast_zero, hv.cmp_eq_lt]
      rfl
    · rw [Int.sign_eq_one_of_pos h, if_neg (not_not.mpr rfl), if_neg h.ne', if_neg h.not_gt, hi,
        decide_eq_false h.not_gt, hnegative, cmp_withSign, if_neg Bool.false_ne_true]

theorem beq_inf_iff (negative : Bool) : (x == inf negative) = true ↔ extended? x = some (if negative then ⊥ else ⊤) := by
  rw [beq_iff, extended?_inf]
  cases extended? x with
  | none => exact iff_of_false (Option.some_ne_none _).symm (Option.some_ne_none _).symm
  | some a => rw [Option.map₂_coe_coe, Option.some_inj, Option.some_inj, cmp_eq_eq_iff]

/-- An integer and a finite double are compared by their exact values. -/
theorem compareInt_finite (h : parts x = .finite negative m e) (i : ℤ) :
    compareInt i x = some (cmp (i : ℚ) (withSign negative (m * 2 ^ e))) := by
  have hx := extended?_of_parts h
  have hnan : ¬ x.isNaN = true := by rw [isNaN_iff, hx]; exact Option.some_ne_none _
  have htop : ¬ (x == inf false) = true := by
    rw [beq_inf_iff, hx, Option.some_inj]
    exact (ofRat_lt_top _).ne
  have hbot : ¬ (x == inf true) = true := by
    rw [beq_inf_iff, hx, Option.some_inj]
    exact (bot_lt_ofRat _).ne'
  have hnonneg : (0 : ℚ) ≤ m * 2 ^ e := by positivity
  rw [compareInt, if_neg hnan, if_neg htop, if_neg hbot, sign_eq hx, compare_magnitudes h, ← compare_by_sign i negative hnonneg]
  simp only [Option.map_some, apply_ite some]

/-- An integer and a double are compared by their exact values. -/
theorem compareInt_eq (i : ℤ) (x : Float) : compareInt i x = (extended? x).map (cmp (ofRat i)) := by
  cases hp : parts x with
  | nan =>
    have hx : extended? x = none := by rw [extended?, hp, Parts.extended?]
    rw [compareInt, if_pos (isNaN_iff.mpr hx), hx]
    rfl
  | inf negative =>
    have hx : extended? x = some (if negative then ⊥ else ⊤) := by rw [extended?, hp, Parts.extended?]
    have hnan : ¬ x.isNaN = true := by rw [isNaN_iff, hx]; exact Option.some_ne_none _
    have hself := (beq_inf_iff negative).mpr hx
    rw [compareInt, if_neg hnan]
    cases negative
    · rw [if_pos hself, hx]
      exact congrArg some (ofRat_lt_top i).cmp_eq_lt.symm
    · have htop : ¬ (x == inf false) = true := by
        rw [beq_inf_iff, hx, Option.some_inj]
        exact bot_ne_top
      rw [if_neg htop, if_pos hself, hx]
      exact congrArg some (bot_lt_ofRat i).cmp_eq_gt.symm
  | finite negative m e =>
    rw [compareInt_finite hp, extended?_of_parts hp, Option.map_some, strictMono_ofRat.cmp_map_eq]

end CseMachine.Binary64
