import CseMachine.Proofs.Binary64.Fields

/-!
# The double nearest to a quotient

The bits of the nearest double are computed from numerator and denominator: they are
the place of its last bit and, added to it, the rounded multiple of this place, so
that a multiple with a bit too many ends up in the next size by itself.
-/
namespace CseMachine.Binary64

variable {q : ℚ} {negative : Bool} {m num den : ℕ} {e : ℤ}

theorem unscale_pos (num : ℕ) (hden : 0 < den) (e : ℤ) : 0 < (unscale num den e).2 := by
  unfold unscale
  split
  · exact Nat.mul_pos hden (Nat.pow_pos two_pos)
  · exact hden

theorem unscale_div (num den : ℕ) (e : ℤ) :
    ((unscale num den e).1 : ℚ) / (unscale num den e).2 = (num : ℚ) / den / 2 ^ e := by
  unfold unscale
  split
  · next he =>
    have hpow : (2 : ℚ) ^ e = ((Nat.pow 2 e.toNat : ℕ) : ℚ) := by
      rw [Nat.pow_eq, Nat.cast_pow, Nat.cast_ofNat, ← zpow_natCast, Int.toNat_of_nonneg he]
    rw [hpow, div_div, Nat.cast_mul]
  · next he =>
    have hpow : (2 : ℚ) ^ e = ((Nat.pow 2 (-e).toNat : ℕ) : ℚ)⁻¹ := by
      rw [Nat.pow_eq, Nat.cast_pow, Nat.cast_ofNat, ← zpow_natCast, Int.toNat_of_nonneg (by omega), zpow_neg, inv_inv]
    rw [hpow, div_inv_eq_mul, Nat.cast_mul, mul_div_right_comm]

/-- At its last place a quotient has 53 bits, or fewer if there is no smaller place. -/
theorem lastPlace_bounds (hnum : 0 < num) (hden : 0 < den) :
    -1074 ≤ lastPlace num den ∧ (num : ℚ) / den < 2 ^ 53 * 2 ^ lastPlace num den ∧
      (lastPlace num den = -1074 ∨ 2 ^ 52 * 2 ^ lastPlace num den ≤ (num : ℚ) / den) := by
  obtain ⟨hlow, hhigh⟩ := quotient_bounds hnum hden
  obtain ⟨size, hsize⟩ : ∃ size : ℤ, size = num.log2 - den.log2 - 53 + 53 := ⟨_, rfl⟩
  have htest : (unscale num den size).2 ≤ (unscale num den size).1 ↔ (2 : ℚ) ^ size ≤ num / den := by
    rw [← one_le_div (two_zpow_pos size), ← unscale_div, one_le_div (by exact_mod_cast unscale_pos num hden size)]
    exact_mod_cast Iff.rfl
  obtain ⟨place, hplace, hbelow, habove⟩ : ∃ place : ℤ, lastPlace num den = max (-1074) place ∧
      (num : ℚ) / den < 2 ^ (53 + place) ∧ 2 ^ (52 + place) ≤ (num : ℚ) / den := by
    rw [lastPlace]
    dsimp only
    rw [← hsize]
    by_cases h : (2 : ℚ) ^ size ≤ num / den
    · rw [if_pos (htest.mpr h)]
      refine ⟨_, rfl, hhigh.trans_le (zpow_le_zpow_right₀ one_le_two (by omega)), ?_⟩
      exact le_trans (zpow_le_zpow_right₀ one_le_two (by omega)) h
    · rw [if_neg (mt htest.mp h)]
      refine ⟨_, rfl, (not_le.mp h).trans_le (zpow_le_zpow_right₀ one_le_two (by omega)), ?_⟩
      exact le_trans (zpow_le_zpow_right₀ one_le_two (by omega)) hlow.le
  rw [hplace]
  have hsplit53 : (2 : ℚ) ^ 53 * 2 ^ max (-1074) place = 2 ^ (53 + max (-1074) place) := (zpow_add₀ two_ne_zero 53 _).symm
  have hsplit52 : (2 : ℚ) ^ 52 * 2 ^ max (-1074) place = 2 ^ (52 + max (-1074) place) := (zpow_add₀ two_ne_zero 52 _).symm
  rw [hsplit53, hsplit52]
  refine ⟨by omega, hbelow.trans_le (zpow_le_zpow_right₀ one_le_two (by omega)), ?_⟩
  by_cases h : place ≤ -1074
  · exact .inl (by omega)
  · right
    rwa [max_eq_right (by omega)]

/-- The rounded multiple of the last place. -/
theorem lands_lastPlace (hnum : 0 < num) (hden : 0 < den) :
    Lands ((num : ℚ) / den)
      (roundDiv (unscale num den (lastPlace num den)).1 (unscale num den (lastPlace num den)).2) (lastPlace num den) := by
  obtain ⟨hleast, hbelow, habove⟩ := lastPlace_bounds hnum hden
  constructor
  · exact hleast
  · exact hbelow
  · exact habove
  · rw [← unscale_div]
    exact rounds_roundDiv _ (unscale_pos num hden _)

theorem parts_ofSignBits {bits : ℕ} (h : bits < 2 ^ 63) :
    parts (ofSignBits negative bits) = ofFields negative (bits / 2 ^ 52) (bits % 2 ^ 52) := by
  have hword : (UInt64.ofNat ((if negative then Nat.pow 2 63 else 0) + bits)).toNat =
      (if negative then 2 ^ 63 else 0) + bits := by
    rw [UInt64.toNat_ofNat']
    apply Nat.mod_eq_of_lt
    show (if negative then 2 ^ 63 else 0) + bits < 2 ^ 64
    split <;> omega
  rw [ofSignBits, parts_ofBits, hword, ofWord]
  congr 1
  · cases negative with
    | false => exact decide_eq_false (by rw [if_neg Bool.false_ne_true]; omega)
    | true => exact decide_eq_true (by rw [if_pos rfl]; omega)
  · split <;> omega
  · split <;> omega

/-- The bits of infinity are the first ones that are too large. -/
theorem lt_infBits_iff (hleast : -1074 ≤ e) (hm : m ≤ 2 ^ 53) (habove : e = -1074 ∨ 2 ^ 52 ≤ m) :
    (e + 1074).toNat * Nat.pow 2 52 + m < infBits ↔ (m : ℚ) * 2 ^ e < 2 ^ (1024 : ℤ) := by
  show (e + 1074).toNat * 2 ^ 52 + m < 2047 * 2 ^ 52 ↔ _
  have hlimit : (2 : ℚ) ^ (1024 : ℤ) = 2 ^ 53 * 2 ^ (971 : ℤ) := zpow_add₀ two_ne_zero 53 971
  rw [hlimit]
  rcases lt_trichotomy e 971 with he | rfl | he
  · have hle : (m : ℚ) ≤ 2 ^ 53 := by exact_mod_cast hm
    have hlt : (m : ℚ) * 2 ^ e < 2 ^ 53 * 2 ^ (971 : ℤ) :=
      mul_lt_mul' hle (zpow_lt_zpow_right₀ one_lt_two he) (two_zpow_pos e).le (by norm_num)
    exact ⟨fun _ => hlt, fun _ => by omega⟩
  · rw [mul_lt_mul_iff_left₀ (two_zpow_pos 971)]
    have hcast : (m : ℚ) < 2 ^ 53 ↔ m < 2 ^ 53 := by exact_mod_cast Iff.rfl
    rw [hcast]
    omega
  · have hnormal : 2 ^ 52 ≤ m := habove.resolve_left (by omega)
    have hge : (2 : ℚ) ^ 53 * 2 ^ (971 : ℤ) ≤ m * 2 ^ e := by
      have hm' : (2 : ℚ) ^ 52 ≤ m := by exact_mod_cast hnormal
      calc (2 : ℚ) ^ 53 * 2 ^ (971 : ℤ) = 2 ^ (1024 : ℤ) := hlimit.symm
        _ = (2 : ℚ) ^ 52 * 2 ^ (972 : ℤ) := zpow_add₀ two_ne_zero 52 972
        _ ≤ m * 2 ^ e := mul_le_mul hm' (zpow_le_zpow_right₀ one_le_two (by omega)) (two_zpow_pos _).le (Nat.cast_nonneg m)
    exact ⟨fun h => by omega, fun h => absurd hge (not_le.mpr h)⟩

/-- What the bits of a rounded magnitude denote. -/
theorem denotes_ofSignBits (hleast : -1074 ≤ e) (hm : m ≤ 2 ^ 53) (habove : e = -1074 ∨ 2 ^ 52 ≤ m)
    (hbits : (e + 1074).toNat * Nat.pow 2 52 + m < infBits) :
    Denotes (ofSignBits negative ((e + 1074).toNat * Nat.pow 2 52 + m)) negative (m * 2 ^ e) := by
  have hbits' : (e + 1074).toNat * 2 ^ 52 + m < 2047 * 2 ^ 52 := hbits
  have hparts : parts (ofSignBits negative ((e + 1074).toNat * Nat.pow 2 52 + m)) =
      ofFields negative (((e + 1074).toNat * 2 ^ 52 + m) / 2 ^ 52) (((e + 1074).toNat * 2 ^ 52 + m) % 2 ^ 52) :=
    parts_ofSignBits (by show (e + 1074).toNat * 2 ^ 52 + m < 2 ^ 63; omega)
  rw [ofFields, if_neg (by omega)] at hparts
  rcases Nat.lt_or_ge m (2 ^ 52) with hsub | hnormal
  · have he : e = -1074 := habove.resolve_right (by omega)
    have hfraction : ((e + 1074).toNat * 2 ^ 52 + m) % 2 ^ 52 = m := by omega
    rw [if_pos (by omega), hfraction, ← he] at hparts
    exact .finite hparts
  · rw [if_neg (by omega)] at hparts
    rcases Nat.lt_or_ge m (2 ^ 53) with hlt | hmax
    · have hfraction : ((e + 1074).toNat * 2 ^ 52 + m) % 2 ^ 52 + 2 ^ 52 = m := by omega
      have hfield : ((((e + 1074).toNat * 2 ^ 52 + m) / 2 ^ 52 : ℕ) : ℤ) - 1075 = e := by omega
      rw [hfraction, hfield] at hparts
      exact .finite hparts
    · -- A bit more is the leading one of the next size.
      have hfraction : ((e + 1074).toNat * 2 ^ 52 + m) % 2 ^ 52 + 2 ^ 52 = 2 ^ 52 := by omega
      have hfield : ((((e + 1074).toNat * 2 ^ 52 + m) / 2 ^ 52 : ℕ) : ℤ) - 1075 = e + 1 := by omega
      have hvalue : (m : ℚ) * 2 ^ e = (2 ^ 52 : ℕ) * 2 ^ (e + 1) := by
        rw [le_antisymm hm hmax, zpow_add_one₀ two_ne_zero]
        push_cast
        ring
      rw [hfraction, hfield] at hparts
      rw [hvalue]
      exact .finite hparts

/-- The nearest double, if the rounded magnitude is not too large for a finite one. -/
theorem denotes_nearest? (negative : Bool) (hnum : 0 < num) (hden : 0 < den) : ∃ m e, Lands ((num : ℚ) / den) m e ∧
    if (m : ℚ) * 2 ^ e < 2 ^ (1024 : ℤ) then ∃ x, nearest? negative num den = some x ∧ Denotes x negative (m * 2 ^ e)
    else nearest? negative num den = none := by
  have hlands := lands_lastPlace hnum hden
  refine ⟨_, _, hlands, ?_⟩
  have hbits := lt_infBits_iff hlands.least hlands.mantissa_le hlands.le_mantissa
  have hself : nearestBits num den = (lastPlace num den + 1074).toNat * Nat.pow 2 52 +
      roundDiv (unscale num den (lastPlace num den)).1 (unscale num den (lastPlace num den)).2 := by
    rw [nearestBits, if_neg hnum.ne']
  rw [← hself] at hbits
  unfold nearest?
  dsimp only
  split
  · next h =>
    rw [if_pos (hbits.mpr h)]
    refine ⟨_, rfl, ?_⟩
    rw [hself]
    exact denotes_ofSignBits hlands.least hlands.mantissa_le hlands.le_mantissa (hself ▸ hbits.mpr h)
  · next h => rw [if_neg (mt hbits.mp h)]

/-- The double put together from numerator and denominator is the quotient rounded once. -/
theorem denotes_nearest (negative : Bool) (num : ℕ) (hden : 0 < den) :
    ∃ m e, Lands ((num : ℚ) / den) m e ∧ Denotes (nearest negative num den) negative (m * 2 ^ e) := by
  rcases Nat.eq_zero_or_pos num with rfl | hnum
  · refine ⟨0, -1074, ⟨le_rfl, ?_, .inl rfl, ?_⟩, ?_⟩
    · rw [Nat.cast_zero, zero_div]
      positivity
    · rw [Nat.cast_zero, zero_div, zero_div]
      exact rounds_natCast 0
    · have hself : nearest negative 0 den = ofSignBits negative 0 := rfl
      rw [hself]
      exact .finite (parts_ofSignBits (by decide))
  · obtain ⟨m, e, hlands, h⟩ := denotes_nearest? negative hnum hden
    refine ⟨m, e, hlands, ?_⟩
    unfold nearest
    split at h
    · obtain ⟨x, hx, hdenotes⟩ := h
      rwa [hx]
    · next hlarge =>
      rw [h]
      refine .inf ?_ (not_lt.mp hlarge)
      exact parts_ofSignBits (by decide)

/-- An integer with few bits is a double. -/
theorem denotes_ofInt? {n : ℕ} (hpos : 0 < n) (hn : n ≤ 2 ^ 53) : ∃ x, ofInt? n = some x ∧ Denotes x false n := by
  have hlog : n.log2 ≤ 53 := Nat.le_of_lt_succ ((Nat.log2_lt hpos.ne').mpr (by omega))
  have hself : ofInt? n = nearest? false n 1 := by
    have hnonneg : decide ((n : ℤ) < 0) = false := decide_eq_false (by omega)
    have hword : n < Nat.pow 2 wordBits := by show n < 2 ^ 64; omega
    have hshift : n.log2 - (wordBits - 1) = 0 := by show n.log2 - 63 = 0; omega
    have hone : Nat.pow 2 0 = 1 := rfl
    rw [ofInt?, Int.natAbs_natCast, if_pos (by omega), hnonneg, leadingBits_of_lt hword, hshift, hone, mul_one]
  obtain ⟨m, e, hlands, hnearest⟩ := denotes_nearest? false hpos one_pos
  have hvalue : (n : ℚ) / (1 : ℕ) = n * 2 ^ (0 : ℤ) := by rw [Nat.cast_one, div_one, zpow_zero, mul_one]
  rw [hvalue] at hlands
  rw [hlands.eq_of_short hn (by decide), zpow_zero, mul_one, if_pos] at hnearest
  · rw [hself]
    exact hnearest
  · exact short_lt hn

end CseMachine.Binary64
