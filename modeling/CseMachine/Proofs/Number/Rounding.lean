import CseMachine.Builtin.Call
import Mathlib.Algebra.Order.Group.Abs
import Mathlib.Algebra.Ring.Int.Parity

/-!
# Integers rounded to powers of ten

The floored quotient leaves a remainder that is never negative, also below zero, so
going up from it or staying decides between the two multiples around a value. What
comes out is the nearest multiple, of two the even one, and there is only one such.
All else follows from that: rounding is odd, keeps the order and does nothing twice.
-/
namespace CseMachine

namespace Number

/-- The multiple of a unit nearest to a value; of two that are equally near, the even multiple. -/
structure HalfEven (unit : Nat) (value rounded : Int) : Prop where
  multiple : (unit : Int) ∣ rounded
  near : 2 * |value - rounded| ≤ unit
  even : 2 * |value - rounded| = unit → Even (rounded / unit)

namespace HalfEven

variable {unit : Nat} {v w r s : Int}

/-- Rounding keeps the order. Were the multiple for the larger value the smaller one, both values
would be half-way between the two, which are neighbours and not both even. -/
theorem mono (hr : HalfEven unit v r) (hs : HalfEven unit w s) (h : v ≤ w) : r ≤ s := by
  obtain ⟨a, ha⟩ := hr.multiple
  obtain ⟨b, hb⟩ := hs.multiple
  by_contra hlt
  have hv := le_abs_self (r - v)
  have hw := le_abs_self (w - s)
  rw [abs_sub_comm] at hv
  have hrn := hr.near
  have hsn := hs.near
  have hba : b < a := by
    have hlt' : (unit : Int) * b < unit * a := by omega
    exact Int.lt_of_mul_lt_mul_left hlt' (Int.natCast_nonneg unit)
  have hgap : (unit : Int) * b + unit ≤ unit * a := by
    have := Int.mul_le_mul_of_nonneg_left (show b + 1 ≤ a by omega) (Int.natCast_nonneg unit)
    rwa [Int.mul_add, Int.mul_one] at this
  have hpos : (unit : Int) ≠ 0 := by
    intro h0
    rw [h0, Int.zero_mul] at ha hb
    omega
  have hra : r / unit = a := by rw [ha, Int.mul_ediv_cancel_left _ hpos]
  have hsb : s / unit = b := by rw [hb, Int.mul_ediv_cancel_left _ hpos]
  have hnext : a = b + 1 := by
    have he : (unit : Int) * a = unit * (b + 1) := by
      rw [Int.mul_add, Int.mul_one]
      omega
    exact Int.eq_of_mul_eq_mul_left hpos he
  have hae : Even a := hra ▸ hr.even (by omega)
  have hbe : Even b := hsb ▸ hs.even (by omega)
  rw [hnext, Int.even_add_one] at hae
  exact hae hbe

theorem unique (hr : HalfEven unit v r) (hs : HalfEven unit v s) : r = s :=
  Int.le_antisymm (hr.mono hs le_rfl) (hs.mono hr le_rfl)

theorem neg (h : HalfEven unit v r) : HalfEven unit (-v) (-r) := by
  have habs : |-v - -r| = |v - r| := by rw [neg_sub_neg, abs_sub_comm]
  refine ⟨(Int.dvd_neg).mpr h.multiple, habs ▸ h.near, fun he => ?_⟩
  rw [Int.neg_ediv_of_dvd h.multiple]
  exact (h.even (habs ▸ he)).neg

/-- A multiple is nearest to itself. -/
theorem self (hpos : 0 < unit) (h : (unit : Int) ∣ r) : HalfEven unit r r := by
  have hzero : |r - r| = 0 := by rw [sub_self, abs_zero]
  refine ⟨h, ?_, ?_⟩
  · rw [hzero]
    omega
  · rw [hzero]
    omega

end HalfEven

theorem halfEven_roundToMultiple {unit : Nat} (hpos : 0 < unit) (v : Int) : HalfEven unit v (roundToMultiple v unit) := by
  have hunit : (unit : Int) ≠ 0 := by omega
  have hsplit := Int.mul_fdiv_add_fmod v unit
  have hlow := Int.fmod_nonneg_of_pos v (show (0 : Int) < unit by omega)
  have hhigh := Int.fmod_lt_of_pos v (show (0 : Int) < unit by omega)
  simp only [roundToMultiple]
  generalize Int.fdiv v unit = q at *
  generalize Int.fmod v unit = m at *
  rw [Int.mul_comm] at hsplit
  split
  · next hup =>
    -- the value lies in the upper half, or half-way above an odd multiple
    have hdist : |v - (q + 1) * unit| = unit - m := by
      rw [Int.add_mul, Int.one_mul, abs_of_nonpos (by omega)]
      omega
    refine ⟨Int.dvd_mul_left _ _, ?_, fun he => ?_⟩
    · rw [hdist]
      omega
    · rw [hdist] at he
      have hodd : q % 2 = 1 := by omega
      rw [Int.mul_ediv_cancel _ hunit, Int.even_iff]
      omega
  · next hdown =>
    have hdist : |v - q * unit| = m := by
      rw [abs_of_nonneg (by omega)]
      omega
    refine ⟨Int.dvd_mul_left _ _, ?_, fun he => ?_⟩
    · rw [hdist]
      omega
    · rw [hdist] at he
      rw [Int.mul_ediv_cancel _ hunit, Int.even_iff]
      omega

theorem roundInt_of_nonneg {places : Int} (h : 0 ≤ places) (v : Int) : roundInt v places = v := by
  simp only [roundInt, h, if_true]

theorem halfEven_roundInt {k : Nat} (hpos : 0 < k) (hlt : k < 2 ^ 32) (v : Int) :
    HalfEven (10 ^ k) v (roundInt v (-k)) := by
  have hneg : ¬ (0 : Int) ≤ -k := by omega
  have habs : (-(k : Int)).natAbs = k := by omega
  have hsmall : ¬ maxIntPlaces ≤ k := Nat.not_le.mpr hlt
  simp only [roundInt, hneg, if_false, habs, hsmall]
  exact halfEven_roundToMultiple (Nat.pow_pos (by decide)) v

end Number

namespace Builtin

open Number (HalfEven roundInt)

theorem call_round_int (store : Store) (v places : Int) :
    call store .round [.int v, .int places] = .ok (.int (roundInt v places)) := rfl

/-- An integer rounded to a power of ten is the nearest multiple of it, halves going to the even
one. No other number is. So rounding commutes with the sign, keeps the order and does nothing the
second time; places behind the point change nothing. -/
theorem round_half_even {k : Nat} (hpos : 0 < k) (hlt : k < 2 ^ 32) (store : Store) :
    (∀ v : Int, call store .round [.int v, .int (-k)] = .ok (.int (roundInt v (-k))) ∧
      ∀ r, HalfEven (10 ^ k) v r ↔ r = roundInt v (-k)) ∧
    (∀ v, roundInt (-v) (-k) = -roundInt v (-k)) ∧
    (∀ v w, v ≤ w → roundInt v (-k) ≤ roundInt w (-k)) ∧
    (∀ v, roundInt (roundInt v (-k)) (-k) = roundInt v (-k)) ∧
    ∀ v places : Int, 0 ≤ places → call store .round [.int v, .int places] = .ok (.int v) := by
  have hnearest := Number.halfEven_roundInt hpos hlt
  refine ⟨fun v => ⟨call_round_int store v _, fun r => ?_⟩, fun v => ?_, fun v w h => ?_, fun v => ?_, fun v places h => ?_⟩
  · constructor
    · exact fun hr => hr.unique (hnearest v)
    · rintro rfl
      exact hnearest v
  · exact (hnearest (-v)).unique (hnearest v).neg
  · exact (hnearest v).mono (hnearest w) h
  · have hself := HalfEven.self (Nat.pow_pos (by decide)) (hnearest v).multiple
    exact (hnearest _).unique hself
  · rw [call_round_int, Number.roundInt_of_nonneg h]

theorem round_half_even_belowZero :
    call .empty .round [.int (-1250), .int (-2)] = .ok (.int (-1200)) ∧ HalfEven 100 (-1250) (-1200) := by
  have hround := round_half_even (k := 2) (by decide) (by decide) .empty
  have hvalue : roundInt (-1250) (-(2 : Nat)) = -1200 := by decide
  obtain ⟨hcall, hiff⟩ := hround.1 (-1250)
  exact ⟨hvalue ▸ hcall, (hiff (-1200)).mpr hvalue.symm⟩

end Builtin
end CseMachine
