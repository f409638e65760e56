import CseMachine.Binary64
import Mathlib

/-!
# Numerals

Two natural numbers are in the order of the numbers of their decimal digits, and with
equally many digits in the order of their texts.
-/
namespace CseMachine.Binary64

variable {n m : ℕ}

/-- Lists of one length that are longer by an element differ in front of it or in it. -/
theorem concat_lt_concat {α : Type*} [LT α] {as bs : List α} (h : as.length = bs.length) (x y : α) :
    as ++ [x] < bs ++ [y] ↔ as < bs ∨ as = bs ∧ x < y := by
  induction as generalizing bs with
  | nil =>
    obtain rfl := List.length_eq_zero_iff.mp h.symm
    simp [List.cons_lt_cons_iff]
  | cons a as ih =>
    obtain ⟨b, bs, rfl⟩ := List.exists_cons_of_length_eq_add_one h.symm
    have hlen : as.length = bs.length := Nat.succ.inj h
    simp only [List.cons_append, List.cons_lt_cons_iff, ih hlen, List.cons.injEq]
    tauto

theorem digitChar_lt (h : n < m) (hm : m < 10) : n.digitChar < m.digitChar := by
  have hn : n.digitChar.toNat = 48 + n := Nat.toNat_digitChar_of_lt_ten (h.trans hm)
  have hm : m.digitChar.toNat = 48 + m := Nat.toNat_digitChar_of_lt_ten hm
  rw [Char.lt_def, UInt32.lt_iff_toNat_lt]
  show n.digitChar.toNat < m.digitChar.toNat
  omega

/-- The last digit of a numeral stands behind the numeral of the rest. -/
theorem toDigits_eq (h : 10 ≤ n) : Nat.toDigits 10 n = Nat.toDigits 10 (n / 10) ++ [(n % 10).digitChar] := by
  have hlast : n % 10 < 10 := Nat.mod_lt n (by decide)
  rw [← Nat.toDigits_of_lt_base hlast, Nat.toDigits_append_toDigits (by decide) (by omega) hlast, Nat.div_add_mod]

theorem toDigits_lt (h : n < m) (hlen : (Nat.toDigits 10 n).length = (Nat.toDigits 10 m).length) :
    Nat.toDigits 10 n < Nat.toDigits 10 m := by
  induction m using Nat.strongRecOn generalizing n with
  | ind m ih =>
    have hshort (k : ℕ) : (Nat.toDigits 10 k).length ≤ 1 ↔ k < 10 := Nat.length_toDigits_le_iff (by decide) one_pos
    by_cases hm : m < 10
    · rw [Nat.toDigits_of_lt_base (h.trans hm), Nat.toDigits_of_lt_base hm, List.cons_lt_cons_iff]
      exact .inl (digitChar_lt h hm)
    · have hn : ¬ n < 10 := by rwa [← hshort, hlen, hshort]
      rw [toDigits_eq (not_lt.mp hn), toDigits_eq (not_lt.mp hm)] at hlen ⊢
      simp only [List.length_append, List.length_singleton, Nat.add_right_cancel_iff] at hlen
      rw [concat_lt_concat hlen]
      rcases (Nat.div_le_div_right h.le : n / 10 ≤ m / 10).lt_or_eq with hfront | hfront
      · exact .inl (ih (m / 10) (by omega) hfront hlen)
      · exact .inr ⟨congrArg _ hfront, digitChar_lt (by omega) (Nat.mod_lt m (by decide))⟩

theorem length_toDigits_le (h : n ≤ m) : (Nat.toDigits 10 n).length ≤ (Nat.toDigits 10 m).length := by
  rw [Nat.length_toDigits_le_iff (by decide) (Nat.length_toDigits_pos)]
  exact h.trans_lt ((Nat.length_toDigits_le_iff (b := 10) (by decide) Nat.length_toDigits_pos).mp le_rfl)

/-- Order by the number of digits and then by the text. -/
def compareNumerals (n m : ℕ) : Ordering :=
  (compare (toString n).length (toString m).length).then (compare (toString n) (toString m))

theorem compareNumerals_swap (n m : ℕ) : (compareNumerals n m).swap = compareNumerals m n := by
  rw [compareNumerals, Ordering.swap_then, ← Std.OrientedOrd.eq_swap, ← Std.OrientedOrd.eq_swap, compareNumerals]

theorem compareNumerals_of_lt (h : n < m) : compareNumerals n m = .lt := by
  have hlength (k : ℕ) : (toString k).length = (Nat.toDigits 10 k).length := by
    rw [Nat.toString_eq_repr, ← String.length_toList, Nat.toList_repr]
  rw [compareNumerals, hlength, hlength]
  rcases (length_toDigits_le h.le).lt_or_eq with hlen | hlen
  · rw [Nat.compare_eq_lt.mpr hlen]
    rfl
  · have htext : toString n < toString m := by
      rw [String.lt_iff, Nat.toString_eq_repr, Nat.toString_eq_repr, Nat.toList_repr, Nat.toList_repr]
      exact toDigits_lt h hlen
    rw [Nat.compare_eq_eq.mpr hlen]
    exact compareOfLessAndEq_eq_lt.mpr htext

/-- Numerals are in the order of their numbers. -/
theorem compareNumerals_eq (n m : ℕ) : compareNumerals n m = compare n m := by
  rcases lt_trichotomy n m with h | rfl | h
  · rw [compareNumerals_of_lt h, Nat.compare_eq_lt.mpr h]
  · rw [Nat.compare_eq_eq.mpr rfl, compareNumerals, Std.ReflOrd.compare_self, Std.ReflOrd.compare_self]
    rfl
  · rw [← compareNumerals_swap, compareNumerals_of_lt h, Nat.compare_eq_gt.mpr h]
    rfl

end CseMachine.Binary64
