import CseMachine.Number.Divide
import CseMachine.Proofs.Binary64.Arithmetic
import CseMachine.Proofs.Binary64.Exact
import CseMachine.Proofs.Binary64.Nearest
import CseMachine.Proofs.Results

/-!
# True division is correctly rounded

However the quotient is computed, its magnitude is the exact one rounded once: by the
hardware if both operands are short, and else from an integer that has two or three
bits more than are kept.
-/
namespace CseMachine.Number

open Binary64

variable {x : Float} {q t : ℚ} {m n d k : ℕ} {e s : ℤ}

/-! ## Scaling -/

theorem parts_pow2 (hlow : -1022 ≤ e) (hhigh : e ≤ 1023) : parts (pow2 e) = .finite false (2 ^ 52) (e - 52) := by
  have hword : (UInt64.ofNat ((e + 1023).toNat <<< 52)).toNat = (e + 1023).toNat * 2 ^ 52 := by
    rw [UInt64.toNat_ofNat', Nat.shiftLeft_eq]
    apply Nat.mod_eq_of_lt
    omega
  have hsign : decide (2 ^ 63 ≤ (e + 1023).toNat * 2 ^ 52) = false := decide_eq_false (by omega)
  have hfield : (e + 1023).toNat * 2 ^ 52 / 2 ^ 52 % 2 ^ 11 = (e + 1023).toNat := by omega
  have hfraction : (e + 1023).toNat * 2 ^ 52 % 2 ^ 52 = 0 := by omega
  have hexponent : ((e + 1023).toNat : ℤ) - 1075 = e - 52 := by omega
  rw [pow2, parts_ofBits, hword, ofWord, hsign, hfield, hfraction, ofFields, if_neg (by omega), if_neg (by omega), zero_add,
    hexponent]

/-- One factor more. Nothing is cut off unless the number is infinite. -/
theorem denotes_mul_pow2 (hm : m ≤ 2 ^ 53) (hx : Denotes x false (m * 2 ^ e)) (hlow : -1022 ≤ s) (hhigh : s ≤ 1023)
    (he : -1074 ≤ e + s) (hfinite : s < 0 → (m : ℚ) * 2 ^ e < 2 ^ (1024 : ℤ)) :
    Denotes (x * pow2 s) false (m * 2 ^ (e + s)) := by
  have hfactor := parts_pow2 hlow hhigh
  rcases hx.parts_cases with ⟨m₁, e₁, hp, hv⟩ | ⟨hp, hv⟩
  · rcases Nat.eq_zero_or_pos m₁ with rfl | hm₁
    · have hzero := Denotes.finite (parts_mul_zero hp hfactor (by decide))
      have hm0 : m = 0 := by
        rw [Nat.cast_zero, zero_mul] at hv
        exact_mod_cast (mul_eq_zero.mp hv).resolve_right (two_zpow_pos e).ne'
      rw [hm0, Nat.cast_zero, zero_mul]
      rwa [Nat.cast_zero, zero_mul] at hzero
    · obtain ⟨m', e', hlands, hden⟩ := denotes_mul hp hfactor hm₁ (by decide)
      have hexact : (m₁ : ℚ) * 2 ^ e₁ * ((2 ^ 52 : ℕ) * 2 ^ (s - 52)) = m * 2 ^ (e + s) := by
        have hpower : ((2 ^ 52 : ℕ) : ℚ) * 2 ^ (s - 52) = 2 ^ s := by
          rw [Nat.cast_pow, Nat.cast_ofNat, ← zpow_natCast, ← zpow_add₀ two_ne_zero]
          congr 1
          omega
        rw [hpower, ← hv, zpow_add₀ two_ne_zero, mul_assoc]
      rw [hexact] at hlands
      rw [hlands.eq_of_short hm he] at hden
      exact hden
  · have hs : 0 ≤ s := not_lt.mp fun hneg => absurd (hfinite hneg) (not_lt.mpr hv)
    refine .inf (parts_mul_inf hp hfactor (by decide)) (hv.trans ?_)
    exact mul_le_mul_of_nonneg_left (zpow_le_zpow_right₀ one_le_two (by omega)) (Nat.cast_nonneg m)

theorem denotes_scale (hm : m ≤ 2 ^ 53) (he : -1074 ≤ e) (hes : -1074 ≤ e + s)
    (hx : Denotes x false (m * 2 ^ e)) (hfinite : s < 0 → (m : ℚ) * 2 ^ e < 2 ^ (1024 : ℤ)) :
    Denotes (scale x s) false (m * 2 ^ (e + s)) := by
  fun_induction scale x s generalizing e with
  | case1 x =>
    rw [add_zero]
    exact hx
  | case2 x s hs step =>
    rename_i ih
    have hstep : step = max (-512) (min s 512) := rfl
    clear_value step
    have hmul : Denotes (x * pow2 step) false (m * 2 ^ (e + step)) :=
      denotes_mul_pow2 hm hx (by omega) (by omega) (by omega) fun hneg => hfinite (by omega)
    have hsum : e + s = e + step + (s - step) := by omega
    rw [hsum]
    refine ih (by omega) (by omega) hmul fun hneg => ?_
    have hle : (m : ℚ) * 2 ^ (e + step) ≤ m * 2 ^ e :=
      mul_le_mul_of_nonneg_left (zpow_le_zpow_right₀ one_le_two (by omega)) (Nat.cast_nonneg m)
    exact hle.trans_lt (hfinite (by omega))

/-! ## Words -/

theorem subWord_ok {x y : ℕ} (h : y ≤ x) : subWord x y = .ok (x - y) := if_pos h

theorem addWord_ok {x y : ℕ} (h : x + y < 2 ^ 64) : addWord x y = .ok (x + y) := if_pos h

theorem shiftWord_ok {shift : ℕ → ℕ → ℕ} (h : k < 64) (hr : shift m k < 2 ^ 64) : shiftWord shift m k = .ok (shift m k) := by
  have hmod : shift m k % Nat.pow 2 wordBits = shift m k := Nat.mod_eq_of_lt hr
  have hlt : k < wordBits := h
  rw [shiftWord, if_pos hlt, hmod]

/-- Nothing leaves a word while it is rounded. -/
theorem roundWord_eq {inexact : Bool} (hk : 1 ≤ k) (hk' : k < 64) (hword : m < 2 ^ 63) :
    roundWord m k inexact = .ok (
      if 2 ^ (k - 1) < m % 2 ^ k || m % 2 ^ k == 2 ^ (k - 1) && (inexact || m / 2 ^ k % 2 == 1) then m / 2 ^ k + 1
      else m / 2 ^ k) := by
  have hpow : ∀ j, j < 64 → 1 <<< j < 2 ^ 64 := by
    intro j hj
    rw [Nat.one_shiftLeft]
    exact Nat.pow_lt_pow_right one_lt_two hj
  have hquotient : m / 2 ^ k ≤ m := Nat.div_le_self _ _
  have hhalf : shiftWord (· <<< ·) 1 (k - 1) = .ok (2 ^ (k - 1)) := by
    rw [← Nat.one_shiftLeft]
    exact shiftWord_ok (by omega) (hpow _ (by omega))
  have hone : shiftWord (· <<< ·) 1 k = .ok (2 ^ k) := by
    rw [← Nat.one_shiftLeft]
    exact shiftWord_ok hk' (hpow _ hk')
  have hkept : shiftWord (· >>> ·) m k = .ok (m / 2 ^ k) := by
    rw [← Nat.shiftRight_eq_div_pow]
    exact shiftWord_ok hk' (by rw [Nat.shiftRight_eq_div_pow]; omega)
  have hsucc : addWord (m / 2 ^ k) 1 = .ok (m / 2 ^ k + 1) := addWord_ok (by omega)
  simp only [roundWord, subWord_ok hk, hhalf, hone, subWord_ok (Nat.one_le_two_pow (n := k)), hkept, hsucc, bind, Except.bind,
    pure, Except.pure, Nat.and_two_pow_sub_one_eq_mod, Nat.and_one_is_mod]
  split <;> rfl

section

variable {quotient low half : ℕ}

/-- Behind the last bit that is kept there are the bits that are cut off and what is below the word. -/
theorem rest_eq (hhalf : 0 < half) (hm : m = 2 * half * quotient + low) :
    t / (2 * half) - quotient = (low + (t - m)) / (2 * half) := by
  have hpos : (0 : ℚ) < 2 * half := by positivity
  have hm' : (m : ℚ) = 2 * half * quotient + low := by exact_mod_cast hm
  rw [eq_div_iff hpos.ne', sub_mul, div_mul_cancel₀ _ hpos.ne', hm']
  ring

theorem half_le_rest_iff (hhalf : 0 < half) (hm : m = 2 * half * quotient + low) (hbelow : (m : ℚ) ≤ t) (habove : t < m + 1) :
    1 / 2 ≤ t / (2 * half) - quotient ↔ half ≤ low := by
  rw [rest_eq hhalf hm, div_le_div_iff₀ two_pos (by positivity)]
  constructor
  · intro h
    by_contra hlt
    have hlt' : (low : ℚ) + 1 ≤ half := by exact_mod_cast not_le.mp hlt
    linarith
  · intro h
    have h' : (half : ℚ) ≤ low := by exact_mod_cast h
    linarith

theorem rest_eq_half_iff (hhalf : 0 < half) (hm : m = 2 * half * quotient + low) (hbelow : (m : ℚ) ≤ t) (habove : t < m + 1) :
    t / (2 * half) - quotient = 1 / 2 ↔ low = half ∧ t = m := by
  rw [rest_eq hhalf hm, div_eq_div_iff (by positivity) two_ne_zero]
  constructor
  · intro h
    have hle : low ≤ half := by
      have h' : (low : ℚ) ≤ half := by linarith
      exact_mod_cast h'
    have hlt : half < low + 1 := by
      have h' : (half : ℚ) < low + 1 := by linarith
      exact_mod_cast h'
    have hlow : low = half := by omega
    rw [hlow] at h
    exact ⟨hlow, by linarith⟩
  · rintro ⟨rfl, rfl⟩
    ring

/-- The bits that are cut off and whether anything is below them tell the nearest integer. -/
theorem rounds_of_bits {inexact : Bool} (hhalf : 0 < half) (hm : m = 2 * half * quotient + low) (hlow : low < 2 * half)
    (hbelow : (m : ℚ) ≤ t) (habove : t < m + 1) (hexact : inexact = false ↔ t = m) :
    Rounds (t / (2 * half))
      (if half < low || low == half && (inexact || quotient % 2 == 1) then quotient + 1 else quotient) := by
  have hge := half_le_rest_iff hhalf hm hbelow habove
  have heq := rest_eq_half_iff hhalf hm hbelow habove
  rw [← hexact] at heq
  have hnonneg : 0 ≤ t / (2 * half) - quotient := by
    rw [rest_eq hhalf hm]
    exact div_nonneg (by positivity) (by positivity)
  have hlt : t / (2 * half) - quotient < 1 := by
    have hlast : (low : ℚ) + 1 ≤ 2 * half := by exact_mod_cast hlow
    rw [rest_eq hhalf hm, div_lt_one (by positivity)]
    linarith
  split
  · next hup =>
    simp only [Bool.or_eq_true, Bool.and_eq_true, decide_eq_true_eq, beq_iff_eq] at hup
    apply rounds_up
    · linarith
    · rw [hge]
      omega
    · rw [heq]
      rintro ⟨hhalfway, hnothing⟩
      rw [hnothing] at hup
      exact (hup.resolve_left (by omega)).2.resolve_left Bool.false_ne_true
  · next hdown =>
    simp only [Bool.or_eq_true, Bool.and_eq_true, decide_eq_true_eq, beq_iff_eq, not_or, not_and] at hdown
    apply rounds_down
    · linarith
    · by_contra hgt
      have hhalfway : low = half := by
        have := hge.mp (not_le.mp hgt).le
        omega
      have hnothing := Bool.eq_false_iff.mpr (hdown.2 hhalfway).1
      exact (not_le.mp hgt).ne' (heq.mpr ⟨hhalfway, hnothing⟩)
    · rw [heq]
      rintro ⟨hhalfway, -⟩
      have := (hdown.2 hhalfway).2
      omega

end

theorem roundWord_rounds {inexact : Bool} (hk : 1 ≤ k) (hk' : k < 64) (hword : m < 2 ^ 63) (hbelow : (m : ℚ) ≤ t)
    (habove : t < m + 1) (hexact : inexact = false ↔ t = m) : ∃ r, roundWord m k inexact = .ok r ∧ Rounds (t / 2 ^ k) r := by
  refine ⟨_, roundWord_eq hk hk' hword, ?_⟩
  have hpow : 2 ^ k = 2 * 2 ^ (k - 1) := by rw [← pow_succ', Nat.sub_add_cancel hk]
  have hpow' : (2 : ℚ) ^ k = 2 * (2 ^ (k - 1) : ℕ) := by exact_mod_cast hpow
  have hlow := Nat.mod_lt m (Nat.two_pow_pos k)
  have hm := (Nat.div_add_mod m (2 ^ k)).symm
  rw [hpow']
  generalize m / 2 ^ k = quotient at hm ⊢
  generalize m % 2 ^ k = low at hm hlow ⊢
  rw [hpow] at hm hlow
  exact rounds_of_bits (Nat.two_pow_pos _) hm hlow hbelow habove hexact

/-! ## Quotients -/

/-- What a magnitude is divided into: the exact quotient rounded once, or an error if this is too large. -/
def IsQuotient (n d : ℕ) (r : Except EvalError Float) : Prop :=
  ∃ m e, Lands ((n : ℚ) / d) m e ∧
    if (m : ℚ) * 2 ^ e < 2 ^ (1024 : ℤ) then ∃ x, r = .ok x ∧ Denotes x false (m * 2 ^ e)
    else r = fail (.overflow .intDivision)

theorem bitLength_eq (hn : 0 < n) : bitLength n = n.log2 + 1 := if_neg hn.ne'

theorem isQuotient_large (hn : 0 < n) (hd : 0 < d) (h : 1025 < (n.log2 : ℤ) - d.log2) :
    IsQuotient n d (fail (.overflow .intDivision)) := by
  have hlow := (quotient_bounds hn hd).1
  have hlands := lands_lastPlace hn hd
  refine ⟨_, _, hlands, ?_⟩
  have hplace : (n.log2 : ℤ) - d.log2 - 1 < 53 + lastPlace n d := by
    rw [← zpow_lt_zpow_iff_right₀ (one_lt_two (α := ℚ)), zpow_add₀ two_ne_zero]
    exact hlow.trans hlands.below
  have hm : (2 : ℚ) ^ (52 : ℤ) ≤ roundDiv (unscale n d (lastPlace n d)).1 (unscale n d (lastPlace n d)).2 := by
    exact_mod_cast hlands.le_mantissa.resolve_left (by omega)
  rw [if_neg (not_lt.mpr _)]
  calc (2 : ℚ) ^ (1024 : ℤ) ≤ 2 ^ (52 + lastPlace n d) := zpow_le_zpow_right₀ one_le_two (by omega)
    _ = 2 ^ (52 : ℤ) * 2 ^ lastPlace n d := zpow_add₀ two_ne_zero _ _
    _ ≤ _ := mul_le_mul_of_nonneg_right hm (two_zpow_pos _).le

theorem isQuotient_small (hn : 0 < n) (hd : 0 < d) (h : (n.log2 : ℤ) - d.log2 < -1076) : IsQuotient n d (.ok 0.0) := by
  have hhigh := (quotient_bounds hn hd).2
  have hpos : (0 : ℚ) < n / d := by positivity
  have hquarter : (n : ℚ) / d / 2 ^ (-1074 : ℤ) < 2 ^ (-2 : ℤ) := by
    rw [div_lt_iff₀ (two_zpow_pos _), ← zpow_add₀ two_ne_zero]
    exact hhigh.trans_le (zpow_le_zpow_right₀ one_le_two (by omega))
  have hvalue : (2 : ℚ) ^ (-2 : ℤ) = 1 / 4 := by norm_num
  have hzero : ((0 : ℕ) : ℚ) * 2 ^ (-1074 : ℤ) = 0 := by rw [Nat.cast_zero, zero_mul]
  have hden : Denotes 0.0 false ((0 : ℕ) * 2 ^ (-1074 : ℤ)) := .finite (by decide)
  refine ⟨0, -1074, ⟨le_rfl, ?_, .inl rfl, ?_⟩, ?_⟩
  · rw [← div_lt_iff₀ (two_zpow_pos _)]
    exact hquarter.trans (by rw [hvalue]; norm_num)
  · rw [hvalue] at hquarter
    apply rounds_down
    · rw [Nat.cast_zero]
      positivity
    · rw [Nat.cast_zero]
      linarith
    · rw [Nat.cast_zero]
      intro heq
      linarith
  · rw [if_pos (by rw [hzero]; exact two_zpow_pos _)]
    exact ⟨_, rfl, hden⟩

/-- Shifted by less than the words of a machine can count, a quotient is a quotient. -/
theorem shiftQuotient_ok (hd : 0 < d) (hlow : -1100 ≤ s) (hhigh : s ≤ 1100) :
    ∃ n' d', shiftQuotient n d s = .ok (n', d') ∧ 0 < d' ∧ (n' : ℚ) / d' = (n : ℚ) / d / 2 ^ s := by
  have hwidth : ∀ k : ℤ, 0 ≤ k → k ≤ 1100 → shiftWidth k = .ok k.toNat := by
    intro k hk hk'
    have hlt : k < Nat.pow 2 wordBits := by show k < 2 ^ 64; omega
    exact if_pos ⟨hk, hlt⟩
  unfold shiftQuotient
  split
  · next hneg =>
    rw [hwidth _ (by omega) (by omega)]
    refine ⟨_, _, rfl, hd, ?_⟩
    have hpow : (2 : ℚ) ^ s = ((2 : ℚ) ^ (-s).toNat)⁻¹ := by
      rw [← zpow_natCast, ← zpow_neg]
      congr 1
      omega
    rw [Nat.shiftLeft_eq, Nat.cast_mul, Nat.cast_pow, Nat.cast_ofNat, hpow, div_inv_eq_mul, mul_div_right_comm]
  · next hpos =>
    rw [hwidth _ (by omega) (by omega)]
    refine ⟨_, _, rfl, by rw [Nat.shiftLeft_eq]; positivity, ?_⟩
    have hpow : (2 : ℚ) ^ s = (2 : ℚ) ^ s.toNat := by
      rw [← zpow_natCast]
      congr 1
      omega
    rw [Nat.shiftLeft_eq, Nat.cast_mul, Nat.cast_pow, Nat.cast_ofNat, hpow, div_div]

theorem succ_le_zpow_bitLength (n : ℕ) : (n : ℚ) + 1 ≤ 2 ^ bitLength n := by
  rcases Nat.eq_zero_or_pos n with rfl | hn
  · norm_num [bitLength]
  · rw [bitLength_eq hn, ← Nat.cast_succ, ← Nat.cast_succ, zpow_natCast]
    exact_mod_cast Nat.lt_log2_self

theorem zpow_bitLength_le (hn : 0 < n) : (2 : ℚ) ^ (bitLength n - 1) ≤ n := by
  rw [bitLength_eq hn, add_sub_cancel_right]
  exact zpow_log2_le hn

theorem bitLength_le_iff : bitLength n ≤ k ↔ n < 2 ^ k := by
  rcases Nat.eq_zero_or_pos n with rfl | hn
  · exact iff_of_true (Int.natCast_nonneg k) (Nat.two_pow_pos k)
  · rw [bitLength_eq hn, ← Nat.log2_lt hn.ne']
    omega

/-- The integer part of a scaled quotient has two or three bits more than are kept. -/
theorem rounding_width (hn : 0 < n) (hd : 0 < d) (hs : s = max ((n.log2 : ℤ) - d.log2) (-1021) - 55)
    (hbelow : (m : ℚ) ≤ n / d / 2 ^ s) (habove : (n : ℚ) / d / 2 ^ s < m + 1) :
    ∃ k : ℕ, max (bitLength m) (-1021 - s) - 53 = k ∧ 2 ≤ k ∧ k ≤ 3 ∧ bitLength m ≤ 53 + k ∧
      (s + k = -1074 ∨ bitLength m = 53 + k) := by
  obtain ⟨hlow, hhigh⟩ := quotient_bounds hn hd
  obtain ⟨width, hwidth⟩ : ∃ width : ℕ, (width : ℤ) = max (n.log2 - d.log2 + 1 - s) 55 :=
    ⟨_, Int.toNat_of_nonneg (by omega)⟩
  have hm : m < 2 ^ width := by
    have hlt : (m : ℚ) < 2 ^ (width : ℤ) := by
      refine hbelow.trans_lt ((div_lt_div_of_pos_right hhigh (two_zpow_pos s)).trans_le ?_)
      rw [← zpow_sub₀ two_ne_zero]
      exact zpow_le_zpow_right₀ one_le_two (by omega)
    exact_mod_cast hlt
  have hbits := bitLength_le_iff.mpr hm
  by_cases h : (n.log2 : ℤ) - d.log2 < -1021
  · exact ⟨2, by omega, le_rfl, by decide, by omega, .inl (by omega)⟩
  · have hm' : 2 ^ 54 ≤ m := by
      have hlt : (2 : ℚ) ^ (54 : ℤ) < m + 1 := by
        refine lt_of_le_of_lt ?_ ((div_lt_div_of_pos_right hlow (two_zpow_pos s)).trans habove)
        rw [← zpow_sub₀ two_ne_zero]
        exact zpow_le_zpow_right₀ one_le_two (by omega)
      exact Nat.lt_succ_iff.mp (by exact_mod_cast hlt)
    have hbits' := mt bitLength_le_iff.mp (not_lt.mpr hm')
    exact ⟨(bitLength m - 53).toNat, by omega, by omega, by omega, by omega, .inr (by omega)⟩

/-- What is left of the integer part is the quotient rounded to a double. -/
theorem lands_of_word {r : ℕ} (hleast : -1074 ≤ s + k) (hbelow : (m : ℚ) ≤ n / d / 2 ^ s)
    (habove : (n : ℚ) / d / 2 ^ s < m + 1) (hbits : bitLength m ≤ 53 + k) (hplace : s + k = -1074 ∨ bitLength m = 53 + k)
    (hrounds : Rounds ((n : ℚ) / d / 2 ^ s / 2 ^ k) r) : Lands ((n : ℚ) / d) r (s + k) := by
  have hs := two_zpow_pos s
  constructor
  · exact hleast
  · calc (n : ℚ) / d < (m + 1) * 2 ^ s := (div_lt_iff₀ hs).mp habove
      _ ≤ 2 ^ bitLength m * 2 ^ s := mul_le_mul_of_nonneg_right (succ_le_zpow_bitLength m) hs.le
      _ ≤ 2 ^ (53 + k : ℤ) * 2 ^ s := mul_le_mul_of_nonneg_right (zpow_le_zpow_right₀ one_le_two hbits) hs.le
      _ = 2 ^ (53 + (s + k)) := by
          rw [← zpow_add₀ two_ne_zero]
          congr 1
          omega
      _ = 2 ^ 53 * 2 ^ (s + k) := zpow_add₀ two_ne_zero 53 _
  · refine hplace.imp_right fun heq => ?_
    have hm : 0 < m := Nat.pos_of_ne_zero fun h0 => by
      rw [h0, bitLength, if_pos rfl] at heq
      omega
    calc (2 : ℚ) ^ 52 * 2 ^ (s + k) = 2 ^ (52 + (s + k)) := (zpow_add₀ two_ne_zero 52 _).symm
      _ = 2 ^ (bitLength m - 1) * 2 ^ s := by
          rw [← zpow_add₀ two_ne_zero]
          congr 1
          omega
      _ ≤ m * 2 ^ s := mul_le_mul_of_nonneg_right (zpow_bitLength_le hm) hs.le
      _ ≤ (n : ℚ) / d := (le_div_iff₀ hs).mp hbelow
  · rwa [zpow_add₀ two_ne_zero, ← div_div, zpow_natCast]

theorem roundingWidth_ok (h : k ≤ 3) : roundingWidth k = .ok k :=
  if_pos ⟨Int.natCast_nonneg k, Int.ofNat_lt.mpr (h.trans_lt (by decide))⟩

/-- A quotient is cut off below, and it is whole just if there is no rest. -/
theorem floor_of_quotient (n : ℕ) (hd : 0 < d) : ((n / d : ℕ) : ℚ) ≤ n / d ∧ (n : ℚ) / d < (n / d : ℕ) + 1 ∧
    ((n % d != 0) = false ↔ (n : ℚ) / d = (n / d : ℕ)) := by
  have hrest := div_sub_floor n hd
  have hlt := rest_lt_one n hd
  have hnonneg : (0 : ℚ) ≤ (n % d : ℕ) / (d : ℚ) := by positivity
  refine ⟨by linarith, by linarith, ?_⟩
  have hd0 : (d : ℚ) ≠ 0 := by exact_mod_cast hd.ne'
  rw [bne_eq_false_iff_eq, ← sub_eq_zero (b := ((n / d : ℕ) : ℚ)), hrest, div_eq_zero_iff, or_iff_left hd0]
  exact_mod_cast Iff.rfl

theorem longQuotient_isQuotient (hn : 0 < n) (hd : 0 < d) : IsQuotient n d (longQuotient n d) := by
  have hbits : bitLength n - bitLength d = n.log2 - d.log2 := by
    rw [bitLength_eq hn, bitLength_eq hd]
    omega
  obtain ⟨diff, hdiff⟩ : ∃ diff : ℤ, diff = n.log2 - d.log2 := ⟨_, rfl⟩
  unfold longQuotient
  rw [hbits, ← hdiff]
  dsimp only
  split
  · next hlarge => exact isQuotient_large hn hd (by rw [maxExponent] at hlarge; omega)
  · next hlarge =>
    split
    · next hsmall => exact isQuotient_small hn hd (by rw [minExponent, mantissaBits] at hsmall; omega)
    · next hsmall =>
      rw [maxExponent] at hlarge
      rw [minExponent, mantissaBits] at hsmall ⊢
      obtain ⟨shift, hshift⟩ : ∃ shift : ℤ, shift = max diff (-1021) - 53 - 2 := ⟨_, rfl⟩
      rw [← hshift]
      obtain ⟨n', d', hq, hd', hvalue⟩ := shiftQuotient_ok (n := n) hd (s := shift) (by omega) (by omega)
      obtain ⟨hbelow, habove, hexact⟩ := floor_of_quotient n' hd'
      rw [hvalue] at hbelow habove hexact
      obtain ⟨k, hk, hk2, hk3, hbits', hplace⟩ := rounding_width hn hd (by omega) hbelow habove
      have hword : n' / d' < 2 ^ 56 := bitLength_le_iff.mp (hbits'.trans (by omega : (53 + k : ℤ) ≤ (56 : ℕ)))
      have hleast : -1074 ≤ shift + k := by omega
      have hextra : roundingWidth (max (bitLength (n' / d')) (-1021 - shift) - 53) = .ok k := hk ▸ roundingWidth_ok hk3
      obtain ⟨r, hr, hrounds⟩ := roundWord_rounds (k := k) (by omega) (by omega) (by omega) hbelow habove hexact
      have hlands := lands_of_word hleast hbelow habove hbits' hplace hrounds
      have hx : Denotes (scale (UInt64.ofNat r).toFloat (shift + k)) false (r * 2 ^ (shift + k)) := by
        have hr53 := hlands.mantissa_le
        have h := denotes_scale (s := shift + k) hr53 (by decide) (by omega) (denotes_toFloat hr53) fun _ => by
          rw [zpow_zero, mul_one]
          exact short_lt hr53
        rwa [zero_add] at h
      have hlong : ¬ Nat.pow 2 wordBits ≤ n' / d' := not_le.mpr (hword.trans (by decide))
      simp only [hq, bind, Except.bind, if_neg hlong, hextra, hr]
      refine ⟨_, _, hlands, ?_⟩
      split
      · next hlt =>
        rw [if_neg (mt hx.isInf_iff.mp (not_le.mpr hlt))]
        exact ⟨_, rfl, hx⟩
      · next hge => rw [if_pos (hx.isInf_iff.mpr (not_lt.mp hge))]

/-- Short operands are doubles, whose quotient is rounded once. -/
theorem denotes_exactDouble? (hn : 0 < n) (h : exactDouble? n = some x) :
    n ≤ 2 ^ 53 ∧ ∃ m e, parts x = .finite false m e ∧ (n : ℚ) = m * 2 ^ e ∧ 0 < m := by
  rw [exactDouble?] at h
  split at h
  · next hbits =>
    have hshort : n ≤ 2 ^ 53 := (bitLength_le_iff.mp hbits).le
    obtain ⟨x', hx', hden⟩ := denotes_ofInt? hn hshort
    obtain ⟨m, e, hp, hv⟩ := hden.exists_parts (short_lt hshort)
    refine ⟨hshort, m, e, Option.some.inj (hx'.symm.trans h) ▸ hp, hv, Nat.pos_of_ne_zero ?_⟩
    rintro rfl
    rw [Nat.cast_zero, zero_mul, Nat.cast_eq_zero] at hv
    exact hn.ne' hv
  · cases h

theorem isQuotient_exactDouble? {y : Float} (hn : 0 < n) (hd : 0 < d) (hx : exactDouble? n = some x)
    (hy : exactDouble? d = some y) : IsQuotient n d (.ok (x / y)) := by
  obtain ⟨hshort, m, e, hp, hv, hm⟩ := denotes_exactDouble? hn hx
  obtain ⟨-, m', e', hp', hv', hm'⟩ := denotes_exactDouble? hd hy
  obtain ⟨r, f, hlands, hden⟩ := denotes_div hp hp' hm hm'
  rw [← hv, ← hv'] at hlands
  have hpos : (0 : ℚ) < n / d := by positivity
  have hlt : (r : ℚ) * 2 ^ f < 2 ^ (1024 : ℤ) := by
    rw [← hlands.rounded53_lt_iff hpos]
    have hd1 : (1 : ℚ) ≤ d := by exact_mod_cast hd
    calc rounded53 (n / d) ≤ 2 * (n / d) := rounded53_le hpos
      _ ≤ 2 * 2 ^ 53 := mul_le_mul_of_nonneg_left ((div_le_self (Nat.cast_nonneg n) hd1).trans (by exact_mod_cast hshort)) two_pos.le
      _ = 2 ^ (54 : ℤ) := by norm_num
      _ < 2 ^ (1024 : ℤ) := zpow_lt_zpow_right₀ one_lt_two (by decide)
  refine ⟨r, f, hlands, ?_⟩
  rw [if_pos hlt]
  exact ⟨_, rfl, hden⟩

/-! ## Results -/

/-- What a division into a magnitude says about the results with a sign. -/
theorem IsQuotient.outcome {r : Except EvalError Float} (hn : 0 < n) (hd : 0 < d) (h : IsQuotient n d r) (negative : Bool) :
    2 ^ (1024 : ℤ) ≤ rounded53 (n / d) ∧ r = fail (.overflow .intDivision) ∨
      rounded53 (n / d) < 2 ^ (1024 : ℤ) ∧ ∃ x, r = .ok x ∧
        Nearest (if negative then -x else x) (withSign negative (n / d)) ∧
        isNegative (if negative then -x else x) = negative := by
  obtain ⟨m, e, hlands, hr⟩ := h
  have hpos : (0 : ℚ) < n / d := by positivity
  have hiff := hlands.rounded53_lt_iff hpos
  split at hr
  · next hlt =>
    obtain ⟨x, rfl, hx⟩ := hr
    refine .inr ⟨hiff.mpr hlt, x, rfl, hlands.nearest_of_denotes hpos ?_ hlt⟩
    cases negative
    · exact hx
    · exact denotes_neg hx
  · next hge => exact .inl ⟨not_lt.mp (mt hiff.mp hge), hr⟩

/-- The signs of the operands are put back. -/
theorem withSign_natAbs_div (a b : ℤ) :
    withSign (decide (a < 0) != decide (b < 0)) ((a.natAbs : ℚ) / b.natAbs) = a / b := by
  have hnatAbs : ∀ i : ℤ, (i.natAbs : ℚ) = if i < 0 then -(i : ℚ) else i := by
    intro i
    rw [Nat.cast_natAbs, Int.cast_abs]
    split
    · next h => exact abs_of_neg (by exact_mod_cast h)
    · next h => exact abs_of_nonneg (by exact_mod_cast not_lt.mp h)
  rw [hnatAbs, hnatAbs]
  by_cases ha : a < 0 <;> by_cases hb : b < 0 <;> simp [withSign, ha, hb, neg_div, div_neg]

theorem intDiv_eq {a b : ℤ} (ha : a ≠ 0) (hb : b ≠ 0) : ∃ r, IsQuotient a.natAbs b.natAbs r ∧
    intDiv a b = (fun q => if decide (a < 0) != decide (b < 0) then -q else q) <$> r := by
  have hn := Int.natAbs_pos.mpr ha
  have hd := Int.natAbs_pos.mpr hb
  rw [intDiv, if_neg hb, if_neg ha]
  split
  · next x y hx hy => exact ⟨_, isQuotient_exactDouble? hn hd hx hy, rfl⟩
  · exact ⟨_, longQuotient_isQuotient hn hd, rfl⟩

/-- Division by a number other than zero ends with an overflow or with a double. -/
theorem intDiv_outcome (a : ℤ) {b : ℤ} (hb : b ≠ 0) :
    2 ^ (1024 : ℤ) ≤ rounded53 |(a : ℚ) / b| ∧ intDiv a b = fail (.overflow .intDivision) ∨
      rounded53 |(a : ℚ) / b| < 2 ^ (1024 : ℤ) ∧ ∃ x, intDiv a b = .ok x ∧ Nearest x (a / b) ∧
        isNegative x = (decide (a < 0) != decide (b < 0)) := by
  rcases eq_or_ne a 0 with rfl | ha
  · right
    have hzero : |((0 : ℤ) : ℚ) / b| = 0 := by simp
    have hparts : parts (if decide ((0 : ℤ) < 0) != decide (b < 0) then -0.0 else 0.0) =
        .finite (decide ((0 : ℤ) < 0) != decide (b < 0)) 0 (-1074) := by
      have h0 : parts 0.0 = .finite false 0 (-1074) := by decide
      cases decide ((0 : ℤ) < 0) != decide (b < 0)
      · exact h0
      · exact (parts_neg _).trans (congrArg Parts.neg h0)
    refine ⟨?_, _, by rw [intDiv, if_neg hb, if_pos rfl], ?_, isNegative_of_parts hparts⟩
    · rw [hzero, rounded53_zero]
      exact two_zpow_pos _
    · rw [Int.cast_zero, zero_div]
      exact nearest_zero hparts
  · obtain ⟨r, hr, hself⟩ := intDiv_eq ha hb
    have hmagnitude : |(a : ℚ) / b| = (a.natAbs : ℚ) / b.natAbs := by
      rw [← withSign_natAbs_div, abs_withSign]
      exact abs_of_nonneg (by positivity)
    have h := hr.outcome (Int.natAbs_pos.mpr ha) (Int.natAbs_pos.mpr hb) (decide (a < 0) != decide (b < 0))
    rw [withSign_natAbs_div, ← hmagnitude] at h
    rw [hself]
    rcases h with ⟨hlarge, rfl⟩ | ⟨hlt, x, rfl, hx⟩
    · exact .inl ⟨hlarge, rfl⟩
    · exact .inr ⟨hlt, _, rfl, hx⟩

/-- The result is the double nearest to the exact quotient, with a sign even if it is zero. Otherwise the quotient
is out of range, and there is no other failure. -/
theorem intDiv_correctly_rounded (a b : ℤ) (hb : b ≠ 0) :
    (intDiv a b = fail (.overflow .intDivision) ↔ 2 ^ (1024 : ℤ) ≤ rounded53 |(a : ℚ) / b|) ∧
      (rounded53 |(a : ℚ) / b| < 2 ^ (1024 : ℤ) → ∃ x, intDiv a b = .ok x ∧ Nearest x (a / b) ∧
        isNegative x = (decide (a < 0) != decide (b < 0))) ∧
      ∀ fault, intDiv a b ≠ fail (.internal fault) := by
  rcases intDiv_outcome a hb with ⟨hlarge, hself⟩ | ⟨hlt, x, hself, hx⟩
  · refine ⟨iff_of_true hself hlarge, fun hlt => absurd hlt (not_lt.mpr hlarge), fun fault h => ?_⟩
    cases hself.symm.trans h
  · refine ⟨iff_of_false (fun h => ?_) (not_le.mpr hlt), fun _ => ⟨x, hself, hx⟩, fun fault h => ?_⟩
    · cases hself.symm.trans h
    · cases hself.symm.trans h

/-- A half of the least double goes to the even neighbour, which is zero. -/
theorem intDiv_correctly_rounded_least : (2 ^ 1075 : ℤ) ≠ 0 ∧ ∃ x, intDiv (-1) (2 ^ 1075) = .ok x ∧
    Nearest x ((-1 : ℤ) / (2 ^ 1075 : ℤ)) ∧ isNegative x = true := by
  have hb : (2 ^ 1075 : ℤ) ≠ 0 := pow_ne_zero _ two_ne_zero
  have hsmall : |((-1 : ℤ) : ℚ) / (2 ^ 1075 : ℤ)| ≤ 1 := by
    rw [abs_div, Int.cast_neg, Int.cast_one, abs_neg, abs_one]
    exact div_le_self zero_le_one (by exact_mod_cast Int.one_le_abs hb)
  have hpos : 0 < |((-1 : ℤ) : ℚ) / (2 ^ 1075 : ℤ)| := abs_pos.mpr (div_ne_zero (by decide) (Int.cast_ne_zero.mpr hb))
  have hrange : rounded53 |((-1 : ℤ) : ℚ) / (2 ^ 1075 : ℤ)| < 2 ^ (1024 : ℤ) :=
    calc rounded53 |((-1 : ℤ) : ℚ) / (2 ^ 1075 : ℤ)| ≤ 2 * |((-1 : ℤ) : ℚ) / (2 ^ 1075 : ℤ)| := rounded53_le hpos
      _ ≤ 2 ^ (1 : ℤ) := by rw [zpow_one]; linarith
      _ < 2 ^ (1024 : ℤ) := zpow_lt_zpow_right₀ one_lt_two (by decide)
  have hsign : (decide ((-1 : ℤ) < 0) != decide ((2 ^ 1075 : ℤ) < 0)) = true := by
    rw [decide_eq_false (not_lt.mpr (pow_nonneg zero_le_two 1075))]
    rfl
  have h := (intDiv_correctly_rounded (-1) (2 ^ 1075) hb).2.1 hrange
  rw [hsign] at h
  exact ⟨hb, h⟩

end CseMachine.Number
