import CseMachine.Proofs.Decimal.Shortest
import CseMachine.Proofs.Numerals.Floats
import CseMachine.Value.Show

/-!
# Written doubles

Digits of a double are written with a point between them or behind them, or with a point
behind the first of them and an exponent. Either way the text is a numeral that denotes
the same number, so that reading it gives the double back, with all of its bits.
-/
namespace CseMachine

namespace Binary64

variable {x y : Float} {negative : Bool} {m : ℕ} {e : ℤ}

/-- The bits of a finite double. -/
theorem toNat_toBits_of_parts (h : parts x = .finite negative m e) : x.toBits.toNat =
    (if negative then 2 ^ 63 else 0) + (if m < 2 ^ 52 then m else (e + 1074).toNat * 2 ^ 52 + m) := by
  have hnegative := isNegative_of_parts h
  have hbits : x.toBits.toNat < 2 ^ 64 := UInt64.toNat_lt _
  have hsign : isNegative x = decide (2 ^ 63 ≤ x.toBits.toNat) := rfl
  have hhigh : (if negative then 2 ^ 63 else 0) = x.toBits.toNat / 2 ^ 63 * 2 ^ 63 := by
    rw [← hnegative, hsign]
    by_cases hhigh : 2 ^ 63 ≤ x.toBits.toNat
    · rw [if_pos (decide_eq_true hhigh)]
      omega
    · rw [if_neg (by rw [decide_eq_true_eq]; exact hhigh)]
      omega
  have hself : parts x = ofFields (isNegative x) (x.toBits.toNat / 2 ^ 52 % 2 ^ 11) (x.toBits.toNat % 2 ^ 52) := rfl
  rw [hhigh]
  rw [hself, ofFields] at h
  split at h
  · split at h <;> cases h
  · split at h
    · obtain ⟨-, rfl, rfl⟩ := Parts.finite.inj h
      rw [if_pos (Nat.mod_lt _ (by decide))]
      omega
    · obtain ⟨-, rfl, rfl⟩ := Parts.finite.inj h
      rw [if_neg (by omega)]
      omega

/-- A finite double is known by its parts. -/
theorem eq_of_parts (hx : parts x = .finite negative m e) (hy : parts y = .finite negative m e) : x = y := by
  have hbits : x.toBits = y.toBits := by
    rw [← UInt64.toNat_inj, toNat_toBits_of_parts hx, toNat_toBits_of_parts hy]
  rw [← Float.ofBits_toBits x, hbits, Float.ofBits_toBits]

end Binary64

namespace Decimal

open Binary64

variable {x : Float} {negative : Bool} {m n : ℕ} {e : ℤ} {d : Decimal}

/-! ## Reading a double -/

theorem toFloat_of_digits_zero (hd : d.digits = 0) (hx : parts x = .finite negative 0 e) : d.toFloat negative = x := by
  have hself : d.toFloat negative = ofSignBits negative 0 := if_pos (.inl hd)
  have he : e = -1074 := (fits_of_parts hx).1.above.resolve_right (by decide)
  rw [hself]
  rw [he] at hx
  exact eq_of_parts (parts_ofSignBits (by decide)) hx

/-- The order of a decimal in the range of doubles is not so far out that the digits are not looked at. -/
theorem order_in_range (hlow : 2 ^ (-1075 : ℤ) ≤ d.value) (hhigh : d.value ≤ 2 ^ (1024 : ℤ)) :
    ¬d.digits = 0 ∧ -330 ≤ d.exponent + width d.digits ∧ d.exponent + width d.digits ≤ 310 := by
  have hten : (0 : ℚ) < 10 ^ d.exponent := by positivity
  have hpos : 0 < d.value := (two_zpow_pos _).trans_le hlow
  have hdigits : 0 < d.digits := by
    refine Nat.pos_of_ne_zero fun h0 => ?_
    rw [value, h0, Nat.cast_zero, zero_mul] at hpos
    exact lt_irrefl _ hpos
  have hwidth := width_pos d.digits
  have habove : d.value < (10 : ℚ) ^ (d.exponent + width d.digits) := by
    rw [zpow_add₀ (by norm_num), zpow_natCast, mul_comm, value]
    have hlt : (d.digits : ℚ) < 10 ^ width d.digits := by exact_mod_cast lt_pow_width d.digits
    exact mul_lt_mul_of_pos_right hlt hten
  have hbelow : (10 : ℚ) ^ (d.exponent + width d.digits - 1) ≤ d.value := by
    have hexp : d.exponent + width d.digits - 1 = d.exponent + (width d.digits - 1 : ℕ) := by omega
    rw [hexp, zpow_add₀ (by norm_num), zpow_natCast, mul_comm, value]
    have hle : (10 : ℚ) ^ (width d.digits - 1) ≤ d.digits := by exact_mod_cast pow_width_le hdigits
    exact mul_le_mul_of_nonneg_right hle hten.le
  refine ⟨hdigits.ne', ?_, ?_⟩
  · by_contra hlt
    have hle : (10 : ℚ) ^ (d.exponent + width d.digits) ≤ 10 ^ (-330 : ℤ) := zpow_le_zpow_right₀ (by norm_num) (by omega)
    have hleast : (10 : ℚ) ^ (-330 : ℤ) ≤ 2 ^ (-1075 : ℤ) := by
      have hpow : ((2 : ℚ) ^ 215) ^ 5 ≤ (10 ^ 66) ^ 5 := pow_le_pow_left₀ (by norm_num) (by norm_num) 5
      rw [← pow_mul, ← pow_mul] at hpow
      rw [zpow_neg, zpow_neg]
      exact inv_anti₀ (by positivity) hpow
    exact absurd (hlow.trans_lt habove) (not_lt.mpr (hle.trans hleast))
  · by_contra hlt
    have hle : (10 : ℚ) ^ (310 : ℤ) ≤ 10 ^ (d.exponent + width d.digits - 1) := zpow_le_zpow_right₀ (by norm_num) (by omega)
    have hmost : (2 : ℚ) ^ (1024 : ℤ) < 10 ^ (310 : ℤ) := by
      have hpow : ((2 : ℚ) ^ 256) ^ 4 < (10 ^ 155) ^ 2 := by norm_num
      rw [← pow_mul, ← pow_mul] at hpow
      exact hpow
    exact absurd (hle.trans (hbelow.trans hhigh)) (not_le.mpr hmost)

/-- A decimal in the interval of a double is read as the double. -/
theorem toFloat_of_near (hx : parts x = .finite negative m e) (hm : 0 < m) (h : Near m e d.value) : d.toFloat negative = x := by
  obtain ⟨hf, he⟩ := fits_of_parts hx
  have hlow : 2 ^ (-1075 : ℤ) ≤ d.value := by
    have hquarters : 2 ≤ lowerQuarters m e := by
      have := (lowerQuarters_bounds m e).1
      omega
    have hquarters' : (2 : ℚ) ≤ lowerQuarters m e := by exact_mod_cast hquarters
    calc (2 : ℚ) ^ (-1075 : ℤ) ≤ 2 ^ (e - 1) := zpow_le_zpow_right₀ one_le_two (by have := hf.least; omega)
      _ = 2 * 2 ^ (e - 2) := by rw [← zpow_one_add₀ two_ne_zero]; congr 1; omega
      _ ≤ lowerQuarters m e * 2 ^ (e - 2) := mul_le_mul_of_nonneg_right hquarters' (two_zpow_pos _).le
      _ ≤ d.value := h.low
  have hhigh : d.value ≤ 2 ^ (1024 : ℤ) := by
    have hmost : 4 * m + 2 ≤ 2 ^ 55 := by have := hf.below; omega
    have hmost' : ((4 * m + 2 : ℕ) : ℚ) ≤ 2 ^ (55 : ℤ) := by exact_mod_cast hmost
    calc d.value ≤ (4 * m + 2 : ℕ) * 2 ^ (e - 2) := h.high
      _ ≤ 2 ^ (55 : ℤ) * 2 ^ (e - 2) := mul_le_mul_of_nonneg_right hmost' (two_zpow_pos _).le
      _ = 2 ^ (55 + (e - 2)) := (zpow_add₀ two_ne_zero _ _).symm
      _ ≤ 2 ^ (1024 : ℤ) := zpow_le_zpow_right₀ one_le_two (by omega)
  obtain ⟨hdigits, hsmall, hlarge⟩ := order_in_range hlow hhigh
  have hself : d.toFloat negative = nearest negative (d.digits * 10 ^ d.exponent.toNat) (10 ^ (-d.exponent).toNat) := by
    rw [toFloat]
    exact (if_neg (by omega)).trans (if_neg (by omega))
  obtain ⟨m₁, e₁, hlands, hdenotes⟩ := denotes_nearest negative (d.digits * 10 ^ d.exponent.toNat)
    (show 0 < 10 ^ (-d.exponent).toNat from Nat.pow_pos (by decide))
  rw [Nat.cast_mul, mul_div_assoc, pow_toNat_div (by decide)] at hlands
  obtain ⟨m₂, e₂, hlands', hvalue⟩ := h.lands hf
  obtain ⟨rfl, rfl⟩ := hlands.unique hlands'
  rw [hvalue] at hdenotes
  obtain ⟨m₃, e₃, hparts, hsame⟩ := hdenotes.exists_parts (lt_of_parts hx)
  have hf' := (fits_of_parts hparts).1
  obtain rfl := hf.eq_of_value_eq hf' hsame
  have he' : e = e₃ := by
    have hm' : (0 : ℚ) < m := Nat.cast_pos.mpr hm
    exact zpow_right_injective₀ two_pos (by norm_num) (mul_left_cancel₀ hm'.ne' hsame)
  rw [hself]
  exact eq_of_parts (he' ▸ hparts) hx

/-! ## Numerals -/

/-- The characters of a numeral: digits, perhaps a point with the digits behind it, and an exponent.
A point or an exponent is what sets it apart from an integer. -/
structure Numeral where
  whole : List Char
  fraction : Option (List Char)
  exponent : List Char
  digits : Text.Digits whole
  behind : ∀ c ∈ fraction.getD [], c.isDigit = true
  scaled : Text.Exponent exponent
  marked : fraction ≠ none ∨ exponent ≠ []

namespace Numeral

/-- The point and what is between it and the exponent. -/
def point (l : Numeral) : List Char :=
  match l.fraction with
  | none => []
  | some digits => '.' :: digits

def text (l : Numeral) : List Char := l.whole ++ (l.point ++ l.exponent)

theorem head?_tail (l : Numeral) : ∀ c ∈ (l.point ++ l.exponent).head?, c.isDigit = false := by
  intro c hc
  rw [point] at hc
  split at hc
  · exact (l.scaled.head? c hc).1
  · obtain rfl := Option.some.inj hc
    rfl

theorem behindPoint_tail (l : Numeral) : Text.behindPoint (l.point ++ l.exponent) = (l.fraction.getD [], l.exponent) := by
  have hbehind := l.behind
  have hstop : ∀ c ∈ l.exponent.head?, c.isDigit = false := fun c hc => (l.scaled.head? c hc).1
  rw [point]
  cases hl : l.fraction with
  | none => exact Text.behindPoint_other fun c hc => (l.scaled.head? c hc).2
  | some digits =>
    rw [hl, Option.getD_some] at hbehind
    rw [List.cons_append, Text.behindPoint_point, Text.takeWhile_digits hbehind hstop, Text.dropWhile_digits hbehind hstop]
    rfl

/-- A numeral is read as its digits, scaled by its exponent and by the places behind the point. -/
theorem read?_text (l : Numeral) {x : ℤ} (hx : readExponent? l.exponent = some x) :
    read? l.text = some ⟨ofDigits (l.whole ++ l.fraction.getD []), x - (l.fraction.getD []).length⟩ := by
  have htake := Text.takeWhile_digits l.digits.all l.head?_tail
  have hdrop := Text.dropWhile_digits l.digits.all l.head?_tail
  rw [text, Text.read?_eq, htake, hdrop, behindPoint_tail]
  dsimp only
  rw [if_neg (Text.not_both_empty.mpr (.inl l.digits.nonempty)), hx]
  rfl

end Numeral

/-! ## Writing digits -/

theorem ofDigits_append (as bs : List Char) : ofDigits (as ++ bs) = ofDigits as * 10 ^ bs.length + ofDigits bs := by
  have h : Nat.ofDigitChars 10 (as ++ bs) 0 = 10 ^ bs.length * Nat.ofDigitChars 10 as 0 + Nat.ofDigitChars 10 bs 0 := by
    rw [Nat.ofDigitChars_append, Nat.ofDigitChars_eq_ofDigitChars_zero]
  rw [Nat.mul_comm] at h
  exact h

theorem ofDigits_zeros (n : ℕ) : ofDigits (zeros n).toList = 0 := by
  rw [zeros, String.toList_ofList]
  exact Nat.ofDigitChars_replicate_zero

theorem ofDigits_toDigits (n : ℕ) : ofDigits (Nat.toDigits 10 n) = n := Nat.ofDigitChars_ten_toDigits

theorem isDigit_zeros (n : ℕ) : ∀ c ∈ (zeros n).toList, c.isDigit = true := by
  intro c hc
  rw [zeros, String.toList_ofList] at hc
  obtain rfl := List.eq_of_mem_replicate hc
  rfl

theorem digits_toDigits (n : ℕ) : Text.Digits (Nat.toDigits 10 n) :=
  ⟨Nat.toDigits_ne_nil, fun _ hc => Nat.isDigit_of_mem_toDigits (by decide) (by decide) hc⟩

theorem value_shift (n j : ℕ) (z : ℤ) : ((n * 10 ^ j : ℕ) : ℚ) * 10 ^ (z - j) = n * 10 ^ z := by
  rw [zpow_sub₀ (by norm_num), zpow_natCast]
  push_cast
  field_simp

/-- A text is a numeral for a number. -/
def Writes (text : String) (q : ℚ) : Prop :=
  ∃ l : Numeral, text.toList = l.text ∧ ∃ d, read? l.text = some d ∧ d.value = q

theorem writes_pointed {text : String} {whole behind : List Char} {q : ℚ} (hwhole : Text.Digits whole)
    (hbehind : ∀ c ∈ behind, c.isDigit = true) (htext : text.toList = whole ++ '.' :: behind)
    (hq : (ofDigits (whole ++ behind) : ℚ) * 10 ^ (-(behind.length : ℤ)) = q) : Writes text q := by
  refine ⟨⟨whole, some behind, [], hwhole, hbehind, .none, .inl (Option.some_ne_none _)⟩, ?_, _, Numeral.read?_text _ rfl, ?_⟩
  · rw [htext, Numeral.text, Numeral.point, List.append_nil]
  · rw [value]
    dsimp only [Option.getD_some]
    rw [zero_sub, hq]

theorem digits_zero : Text.Digits ['0'] := by
  refine ⟨List.cons_ne_nil _ _, fun c hc => ?_⟩
  obtain rfl := List.mem_singleton.mp hc
  rfl

/-- Digits with the point put in. -/
theorem writes_positional (n : ℕ) (e : ℤ) : Writes (positional ".0" (toString n) e) (n * 10 ^ e) := by
  have hdigits := digits_toDigits n
  have htext : (toString n).toList = Nat.toDigits 10 n := Nat.toList_repr
  have hlength : (toString n).length = (Nat.toDigits 10 n).length := by rw [← htext, String.length_toList]
  have hzeros (k : ℕ) : (zeros k).toList.length = k := by rw [zeros, String.toList_ofList, List.length_replicate]
  rw [positional]
  split
  · next he =>
    have hwhole : Text.Digits (Nat.toDigits 10 n ++ (zeros e.toNat).toList) :=
      ⟨List.append_ne_nil_of_left_ne_nil hdigits.nonempty _,
        fun c hc => (List.mem_append.mp hc).elim (hdigits.all c) (isDigit_zeros _ c)⟩
    refine writes_pointed hwhole digits_zero.all ?_ ?_
    · rw [String.toList_append, String.toList_append, htext]
      rfl
    · have hvalue : ofDigits (Nat.toDigits 10 n ++ (zeros e.toNat).toList ++ ['0']) = n * 10 ^ (e.toNat + 1) := by
        rw [ofDigits_append, ofDigits_append, ofDigits_toDigits, ofDigits_zeros, hzeros, Nat.pow_succ, ← Nat.mul_assoc]
        rfl
      have hexp : -(['0'].length : ℤ) = e - (e.toNat + 1 : ℕ) := by
        rw [List.length_singleton]
        omega
      rw [hvalue, hexp, value_shift]
  · next he =>
    dsimp only
    split
    · next hshort =>
      rw [hlength] at hshort
      have hwhole : Text.Digits ((Nat.toDigits 10 n).take ((Nat.toDigits 10 n).length - (-e).toNat)) :=
        ⟨List.ne_nil_of_length_pos (by rw [List.length_take]; omega), fun c hc => hdigits.all c (List.mem_of_mem_take hc)⟩
      have hbehind : ∀ c ∈ (Nat.toDigits 10 n).drop ((Nat.toDigits 10 n).length - (-e).toNat), c.isDigit = true :=
        fun c hc => hdigits.all c (List.mem_of_mem_drop hc)
      refine writes_pointed hwhole hbehind ?_ ?_
      · rw [String.toList_append, String.toList_append, String.toList_ofList, String.toList_ofList, String.toList_ofList,
          htext, hlength, List.append_assoc]
        rfl
      · rw [List.take_append_drop, ofDigits_toDigits, List.length_drop]
        congr 2
        omega
    · next hlong =>
      rw [hlength] at hlong
      have hbehind : ∀ c ∈ (zeros ((-e).toNat - (Nat.toDigits 10 n).length)).toList ++ Nat.toDigits 10 n, c.isDigit = true :=
        fun c hc => (List.mem_append.mp hc).elim (isDigit_zeros _ c) (hdigits.all c)
      refine writes_pointed digits_zero hbehind ?_ ?_
      · rw [String.toList_append, String.toList_append, htext, hlength, List.append_assoc]
        rfl
      · have hzero : ofDigits ['0'] = 0 := rfl
        rw [ofDigits_append, ofDigits_append, ofDigits_zeros, ofDigits_toDigits, List.length_append, hzeros]
        rw [hzero, Nat.zero_mul, Nat.zero_mul, Nat.zero_add, Nat.zero_add]
        congr 2
        omega

theorem readExponent?_power {mark : Char} {digits : List Char} (hmark : mark = 'e' ∨ mark = 'E') (sign : Text.Sign)
    (h : Text.Digits digits) :
    readExponent? (mark :: (sign.text ++ digits)) = some (signed sign.isMinus (ofDigits digits)) := by
  have hread : readExponent? (mark :: (sign.text ++ digits)) = if mark = 'e' ∨ mark = 'E' then
      if (Text.splitSign (sign.text ++ digits)).2.isEmpty || !(Text.splitSign (sign.text ++ digits)).2.all Char.isDigit then none
      else some (signed (Text.splitSign (sign.text ++ digits)).1 (ofDigits (Text.splitSign (sign.text ++ digits)).2))
    else none := rfl
  rw [hread, if_pos hmark, Text.splitSign_text sign h.unsigned, Text.digits_iff.mpr h]
  rfl

/-- An exponent has a sign and its digits, with a zero in front of a single one. -/
theorem exists_exponent (e : ℤ) : ∃ sign digits, (Number.floatStyle.exponent e).toList = Text.Sign.text sign ++ digits ∧
    Text.Digits digits ∧ signed sign.isMinus (ofDigits digits) = e := by
  have hdigits := digits_toDigits e.natAbs
  have htext : (toString e.natAbs).toList = Nat.toDigits 10 e.natAbs := Nat.toList_repr
  have hpad : ∃ digits, ((if e.natAbs < 10 then "0" else "") ++ toString e.natAbs).toList = digits ∧ Text.Digits digits ∧
      ofDigits digits = e.natAbs := by
    rw [String.toList_append, htext]
    refine ⟨_, rfl, ⟨List.append_ne_nil_of_right_ne_nil _ hdigits.nonempty, ?_⟩, ?_⟩
    · intro c hc
      rcases List.mem_append.mp hc with hc | hc
      · split at hc
        · obtain rfl := List.mem_singleton.mp hc
          rfl
        · cases hc
      · exact hdigits.all c hc
    · have hzero : ofDigits (if e.natAbs < 10 then "0" else "").toList = 0 := by split <;> rfl
      rw [ofDigits_append, hzero, Nat.zero_mul, Nat.zero_add, ofDigits_toDigits]
  obtain ⟨digits, hpadded, hd, hvalue⟩ := hpad
  have hself : (Number.floatStyle.exponent e).toList = (if e < 0 then "-" else "+").toList ++ digits := by
    rw [← hpadded, ← String.toList_append, ← String.append_assoc]
    rfl
  by_cases hneg : e < 0
  · refine ⟨.minus, digits, ?_, hd, ?_⟩
    · rw [hself, if_pos hneg]
      rfl
    · show -((ofDigits digits : ℕ) : ℤ) = e
      omega
  · refine ⟨.plus, digits, ?_, hd, ?_⟩
    · rw [hself, if_neg hneg]
      rfl
    · show ((ofDigits digits : ℕ) : ℤ) = e
      omega

/-- One digit, the rest behind the point, and the exponent of the first. -/
theorem writes_scientific (n : ℕ) (e : ℤ) :
    Writes (scientific Number.floatStyle (toString n) (e + (toString n).length - 1)) (n * 10 ^ e) := by
  have hdigits := digits_toDigits n
  have htext : (toString n).toList = Nat.toDigits 10 n := Nat.toList_repr
  have hlength : (toString n).length = (Nat.toDigits 10 n).length := by rw [← htext, String.length_toList]
  obtain ⟨first, rest, hds⟩ := List.exists_cons_of_ne_nil hdigits.nonempty
  have hall := hdigits.all
  rw [hds, List.forall_mem_cons] at hall
  obtain ⟨hfirst, hrest⟩ := hall
  have hwhole : Text.Digits [first] := ⟨List.cons_ne_nil _ _, fun c hc => List.mem_singleton.mp hc ▸ hfirst⟩
  obtain ⟨sign, digits, hexp, hd, hvalue⟩ := exists_exponent (e + (toString n).length - 1)
  have hbehind : ∀ c ∈ (if rest.isEmpty then none else some rest).getD [], c.isDigit = true := by
    split
    · exact nofun
    · exact hrest
  have hrest' : (if rest.isEmpty then none else some rest).getD [] = rest := by
    split
    · next h => exact (List.isEmpty_iff.mp h).symm
    · rfl
  refine ⟨⟨[first], if rest.isEmpty then none else some rest, 'e' :: (sign.text ++ digits), hwhole, hbehind,
    .power (.inl rfl) sign hd, .inr (List.cons_ne_nil _ _)⟩, ?_, _, Numeral.read?_text _ (readExponent?_power (.inl rfl) sign hd), ?_⟩
  · rw [scientific, htext, hds]
    rw [String.toList_append, String.toList_append, String.toList_append, String.toList_append, String.toList_ofList,
      String.toList_ofList, hexp, Numeral.text, Numeral.point]
    cases rest <;> simp
  · rw [value]
    dsimp only
    rw [hrest', List.singleton_append, ← hds, ofDigits_toDigits, hvalue, hlength, hds, List.length_cons]
    congr 2
    push_cast
    omega

theorem writes_write (d : Decimal) : Writes (write Number.floatStyle d) d.value := by
  rw [write]
  split
  · exact writes_positional d.digits d.exponent
  · exact writes_scientific d.digits d.exponent

/-! ## Written doubles -/

/-- A positive or zero magnitude as it is written. -/
def magnitude (m : ℕ) (e : ℤ) : String :=
  if m = 0 then "0" ++ Number.floatStyle.whole else write Number.floatStyle (shortest m e)

theorem repr_eq (h : parts x = .finite negative m e) :
    (Number.float x).repr = (if negative then "-" else "") ++ magnitude m e := by
  rw [Number.repr, ofFloat, h]
  rfl

/-- The text of a magnitude is a numeral that is read as the double with this magnitude. -/
theorem exists_numeral (h : parts x = .finite false m e) :
    ∃ l : Numeral, (magnitude m e).toList = l.text ∧ (read? l.text).map (toFloat false) = some x := by
  rw [magnitude]
  by_cases hm : m = 0
  · subst hm
    rw [if_pos rfl]
    refine ⟨⟨['0'], some ['0'], [], digits_zero, digits_zero.all, .none, .inl (Option.some_ne_none _)⟩, rfl, ?_⟩
    rw [Numeral.read?_text _ (x := 0) rfl, Option.map_some, toFloat_of_digits_zero rfl h]
  · have hpos := Nat.pos_of_ne_zero hm
    rw [if_neg hm]
    obtain ⟨l, htext, d, hread, hvalue⟩ := writes_write (shortest m e)
    refine ⟨l, htext, ?_⟩
    rw [hread, Option.map_some, toFloat_of_near h hpos]
    rw [hvalue]
    exact near_shortest (fits_of_parts h).1 hpos

end Decimal
end CseMachine
