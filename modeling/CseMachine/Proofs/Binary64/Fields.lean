import CseMachine.Proofs.Binary64.Rounding
import Mathlib

/-!
# Doubles and their parts

The language comes with a model of the arithmetic of doubles, which takes operands
out of their bits and puts a rounded result back. Both agree with the parts of a
double, so that what an operation does to numbers is what it does to doubles.
-/
namespace CseMachine.Binary64

open Float.Model Float.Model.UnpackedFloat

variable {x : Float} {p : Parts} {negative : Bool} {m : ℕ} {e : ℤ}

/-! ## Parts -/

/-- The parts that the fields of a double stand for. -/
def ofFields (negative : Bool) (field fraction : ℕ) : Parts :=
  if field = 2047 then
    if fraction = 0 then .inf negative else .nan
  else if field = 0 then .finite negative fraction (-1074)
  else .finite negative (fraction + 2 ^ 52) ((field : ℤ) - 1075)

/-- The parts that the bits of a double stand for. -/
def ofWord (bits : ℕ) : Parts :=
  ofFields (decide (2 ^ 63 ≤ bits)) (bits / 2 ^ 52 % 2 ^ 11) (bits % 2 ^ 52)

theorem parts_eq (x : Float) : parts x = ofWord x.toBits.toNat := rfl

/-- The sign of the arithmetic. -/
def signOf (negative : Bool) : Sign := if negative then .negative else .positive

namespace Parts

/-- A double has these parts: a finite one has its bits in their places. -/
def Valid : Parts → Prop
  | .finite _ m e => Fits m e ∧ e ≤ 971
  | _ => True

/-- A finite number is zero for the arithmetic if its mantissa is. -/
def unpacked : Parts → UnpackedFloat
  | .nan => .notANumber
  | .inf negative => .infinity (signOf negative)
  | .finite negative m e => if h : 0 < m then .finite (signOf negative) m e h else .zero (signOf negative)

def neg : Parts → Parts
  | .nan => .nan
  | .inf negative => .inf !negative
  | .finite negative m e => .finite (!negative) m e

def abs : Parts → Parts
  | .nan => .nan
  | .inf _ => .inf false
  | .finite _ m e => .finite false m e

theorem Valid.neg (h : p.Valid) : p.neg.Valid := by
  cases p with
  | finite => exact h
  | _ => trivial

theorem Valid.abs (h : p.Valid) : p.abs.Valid := by
  cases p with
  | finite => exact h
  | _ => trivial

theorem unpacked_neg (p : Parts) : p.neg.unpacked = p.unpacked.neg := by
  cases p with
  | nan => rfl
  | inf negative => cases negative <;> rfl
  | finite negative m e =>
    rw [neg, unpacked, unpacked]
    split <;> cases negative <;> rfl

theorem unpacked_abs (p : Parts) : p.abs.unpacked = p.unpacked.abs := by
  cases p with
  | nan => rfl
  | inf negative => rfl
  | finite negative m e =>
    rw [abs, unpacked, unpacked]
    split <;> rfl

end Parts

theorem valid_ofWord (bits : ℕ) : (ofWord bits).Valid := by
  rw [ofWord, ofFields]
  split
  · split <;> trivial
  · split
    · exact ⟨⟨le_rfl, by omega, .inl rfl⟩, by omega⟩
    · exact ⟨⟨by omega, by omega, .inr (by omega)⟩, by omega⟩

theorem valid_parts (x : Float) : (parts x).Valid := valid_ofWord _

/-- A finite double has its bits in their places. -/
theorem fits_of_parts (h : parts x = .finite negative m e) : Fits m e ∧ e ≤ 971 := by
  have hvalid := valid_parts x
  rw [h] at hvalid
  exact hvalid

/-! ## Taking doubles apart -/

section

variable (b : BitVec 64)

theorem toNat_unpackMantissa : (@unpackMantissa .binary64 b).toNat = b.toNat % 2 ^ 52 := by
  simp [unpackMantissa]

theorem toNat_unpackExponent : (@unpackExponent .binary64 b).toNat = b.toNat / 2 ^ 52 % 2 ^ 11 := by
  simp [unpackExponent, Nat.shiftRight_eq_div_pow]

theorem ofBitVec_unpackSign :
    Sign.ofBitVec (@unpackSign .binary64 b) = signOf (decide (2 ^ 63 ≤ b.toNat)) := by
  have hlt : b.toNat < 2 ^ 64 := b.isLt
  have hsign : (@unpackSign .binary64 b).toNat = b.toNat / 2 ^ 63 := by
    simp [unpackSign, Nat.shiftRight_eq_div_pow]
    omega
  have hzero : @unpackSign .binary64 b = 0#1 ↔ b.toNat < 2 ^ 63 := by
    rw [← BitVec.toNat_inj, hsign]
    simp
  by_cases h : b.toNat < 2 ^ 63
  · rw [Sign.ofBitVec, if_pos (hzero.mpr h), signOf, decide_eq_false (by omega)]
    rfl
  · rw [Sign.ofBitVec, if_neg (mt hzero.mp h), signOf, decide_eq_true (by omega)]
    rfl

/-- Bits are taken apart in the same way. -/
theorem unpack_eq : UnpackedFloat.unpack .binary64 b = (ofWord b.toNat).unpacked := by
  rw [ofWord, ← toNat_unpackExponent, ← toNat_unpackMantissa, UnpackedFloat.unpack]
  dsimp only
  rw [ofBitVec_unpackSign]
  generalize @unpackExponent .binary64 b = field
  have hones : field = -1#11 ↔ field.toNat = 2047 := by rw [← BitVec.toNat_inj]; rfl
  have hzero : field = 0#11 ↔ field.toNat = 0 := by rw [← BitVec.toNat_inj]; rfl
  have hfraction : ∀ fraction : BitVec 52, fraction = 0#52 ↔ fraction.toNat = 0 := by
    intro fraction
    rw [← BitVec.toNat_inj]
    rfl
  have hmantissa : ∀ fraction : BitVec 52, (1#1 ++ fraction).toNat = fraction.toNat + 2 ^ 52 := by
    intro fraction
    rw [BitVec.toNat_append, ← Nat.shiftLeft_add_eq_or_of_lt fraction.isLt]
    simp [Nat.shiftLeft_eq, Nat.add_comm]
  unfold ofFields
  split
  · next h =>
    rw [if_pos (hones.mp h)]
    split
    · next h0 => rw [if_pos ((hfraction _).mp h0)]; rfl
    · next h0 => rw [if_neg (mt (hfraction _).mpr h0)]; rfl
  · next h =>
    rw [if_neg (mt hones.mpr h)]
    split
    · next hsub =>
      rw [if_pos (hzero.mp hsub)]
      split
      · next h0 => rw [(hfraction _).mp h0]; rfl
      · next h0 =>
        rw [Parts.unpacked, dif_pos (Nat.pos_of_ne_zero (mt (hfraction _).mpr h0)), hzero.mp hsub]
        rfl
    · next hnormal =>
      rw [if_neg (mt hzero.mpr hnormal), Parts.unpacked, dif_pos (Nat.add_pos_right _ (by decide))]
      simp only [hmantissa]
      rfl

end

theorem unpack_toModel (x : Float) : x.toModel.unpack = (parts x).unpacked := unpack_eq _

theorem unpack_finite (h : parts x = .finite negative m e) (hm : 0 < m) :
    x.toModel.unpack = .finite (signOf negative) m e hm := by
  rw [unpack_toModel, h, Parts.unpacked, dif_pos hm]

/-! ## Putting doubles together -/

theorem toNat_packComponents (sign : Sign) (field : BitVec 11) (fraction : BitVec 52) :
    (packComponents .binary64 sign field fraction).toNat =
      sign.toBitVec.toNat * 2 ^ 63 + field.toNat * 2 ^ 52 + fraction.toNat := by
  rw [packComponents, BitVec.toNat_append, BitVec.toNat_append, ← Nat.shiftLeft_add_eq_or_of_lt fraction.isLt,
    ← Nat.shiftLeft_add_eq_or_of_lt field.isLt, Nat.shiftLeft_eq, Nat.shiftLeft_eq]
  ring

theorem ofWord_packComponents (negative : Bool) (field : BitVec 11) (fraction : BitVec 52) :
    ofWord (packComponents .binary64 (signOf negative) field fraction).toNat =
      ofFields negative field.toNat fraction.toNat := by
  have hfield := field.isLt
  have hfraction := fraction.isLt
  have hsign : (signOf negative).toBitVec.toNat = if negative then 1 else 0 := by cases negative <;> rfl
  rw [toNat_packComponents, hsign, ofWord]
  congr 1
  · cases negative <;> simp <;> omega
  · split <;> omega
  · split <;> omega

/-- The double of a result that has been rounded. -/
def packed (u : UnpackedFloat) : Float := .ofModel (.pack u)

theorem parts_packed (negative : Bool) {u : UnpackedFloat} {field : BitVec 11} {fraction : BitVec 52}
    (h : UnpackedFloat.pack .binary64 u = packComponents .binary64 (signOf negative) field fraction) :
    parts (packed u) = ofFields negative field.toNat fraction.toNat := by
  have hbits : (packed u).toBits.toNat = (UnpackedFloat.pack .binary64 u).toNat := rfl
  rw [parts_eq, hbits, h, ofWord_packComponents]

theorem parts_packed_finite (negative : Bool) (hf : Fits m e) (hm : 0 < m) :
    parts (packed (.finite (signOf negative) m e hm)) = if e ≤ 971 then .finite negative m e else .inf negative := by
  have hleast := hf.least
  have hbelow := hf.below
  have hbias : e + (Format.binary64.exponentBias : ℤ) + (Format.binary64.mantissaBitsWithoutImplicit : ℤ) = e + 1075 := by
    show e + 1023 + 52 = e + 1075
    omega
  have hlog : m.log2 + 1 = Format.binary64.mantissaBits ↔ 2 ^ 52 ≤ m := by
    have hiff := Nat.le_log2 (n := m) (k := 52) hm.ne'
    have hlt := (Nat.log2_lt hm.ne').mpr hbelow
    show m.log2 + 1 = 53 ↔ _
    rw [← hiff]
    omega
  split
  · next he =>
    have hpack : UnpackedFloat.pack .binary64 (.finite (signOf negative) m e hm) =
        packComponents .binary64 (signOf negative) (if 2 ^ 52 ≤ m then BitVec.ofNat 11 (e + 1075).toNat else 0#11)
          (BitVec.ofNat 52 m) := by
      rw [UnpackedFloat.pack]
      dsimp only
      rw [hbias, if_neg (by show ¬ 2 ^ 11 ≤ _; omega)]
      by_cases h : 2 ^ 52 ≤ m
      · rw [if_pos (hlog.mpr h), if_pos h]
      · rw [if_neg (mt hlog.mp h), if_neg h]
    rw [parts_packed negative hpack, ofFields, BitVec.toNat_ofNat]
    split
    · next h =>
      have hfield : (BitVec.ofNat 11 (e + 1075).toNat).toNat = (e + 1075).toNat := by
        rw [BitVec.toNat_ofNat, Nat.mod_eq_of_lt (by omega)]
      have hfraction : m % 2 ^ 52 + 2 ^ 52 = m := by omega
      rw [hfield, if_neg (by omega), if_neg (by omega), hfraction]
      congr 1
      omega
    · next h =>
      have hsub : e = -1074 := hf.above.resolve_right h
      rw [if_neg (by decide), if_pos (by rfl), Nat.mod_eq_of_lt (Nat.not_le.mp h), hsub]
  · next he =>
    have hpack : UnpackedFloat.pack .binary64 (.finite (signOf negative) m e hm) =
        packedInfinity .binary64 (signOf negative) := by
      rw [UnpackedFloat.pack, hbias, if_pos (by show 2 ^ 11 ≤ _; omega)]
    exact (parts_packed negative hpack).trans rfl

theorem parts_packed_infinity (negative : Bool) : parts (packed (.infinity (signOf negative))) = .inf negative :=
  (parts_packed negative rfl).trans rfl

theorem parts_packed_zero (negative : Bool) : parts (packed (.zero (signOf negative))) = .finite negative 0 (-1074) :=
  (parts_packed negative rfl).trans rfl

/-- A double that is taken apart and put together has the same parts. -/
theorem parts_packed_unpacked (h : p.Valid) : parts (packed p.unpacked) = p := by
  cases p with
  | nan => exact (parts_packed false rfl).trans rfl
  | inf negative => exact parts_packed_infinity negative
  | finite negative m e =>
    rw [Parts.unpacked]
    split
    · next hm => rw [parts_packed_finite _ h.1 hm, if_pos h.2]
    · next hm =>
      have hm' : m = 0 := Nat.eq_zero_of_not_pos hm
      have he : e = -1074 := h.1.above.resolve_right (by omega)
      rw [parts_packed_zero, hm', he]

theorem parts_ofBits (w : UInt64) : parts (Float.ofBits w) = ofWord w.toNat := by
  have hself : Float.ofBits w = packed (UnpackedFloat.unpack .binary64 w.toBitVec) := rfl
  rw [hself, unpack_eq]
  exact parts_packed_unpacked (valid_ofWord _)

theorem parts_neg (x : Float) : parts (-x) = (parts x).neg := by
  have hself : -x = packed x.toModel.unpack.neg := rfl
  rw [hself, unpack_toModel, ← Parts.unpacked_neg, parts_packed_unpacked (valid_parts x).neg]

theorem parts_abs (x : Float) : parts x.abs = (parts x).abs := by
  have hself : x.abs = packed x.toModel.unpack.abs := rfl
  rw [hself, unpack_toModel, ← Parts.unpacked_abs, parts_packed_unpacked (valid_parts x).abs]

theorem isFinite_iff {x : Float} : x.isFinite = true ↔ ∃ a m e, parts x = .finite a m e := by
  have hself : x.isFinite = (parts x).unpacked.isFinite := congrArg UnpackedFloat.isFinite (unpack_toModel x)
  rw [hself]
  cases parts x with
  | nan => exact iff_of_false Bool.false_ne_true nofun
  | inf a => exact iff_of_false Bool.false_ne_true nofun
  | finite a m e =>
    refine iff_of_true ?_ ⟨a, m, e, rfl⟩
    rw [Parts.unpacked]
    split <;> rfl

/-! ## Magnitudes -/

/-- A double with this sign bit and magnitude. It is infinite if the magnitude is beyond the finite ones. -/
inductive Denotes (x : Float) (negative : Bool) : ℚ → Prop
  | finite {m : ℕ} {e : ℤ} (h : parts x = .finite negative m e) : Denotes x negative (m * 2 ^ e)
  | inf {v : ℚ} (h : parts x = .inf negative) (hv : 2 ^ (1024 : ℤ) ≤ v) : Denotes x negative v

theorem Denotes.parts_cases {v : ℚ} (h : Denotes x negative v) :
    (∃ m e, parts x = .finite negative m e ∧ v = m * 2 ^ e) ∨ parts x = .inf negative ∧ 2 ^ (1024 : ℤ) ≤ v := by
  cases h with
  | finite h => exact .inl ⟨_, _, h, rfl⟩
  | inf h hv => exact .inr ⟨h, hv⟩

theorem Denotes.exists_parts {v : ℚ} (h : Denotes x negative v) (hv : v < 2 ^ (1024 : ℤ)) :
    ∃ m e, parts x = .finite negative m e ∧ v = m * 2 ^ e :=
  h.parts_cases.resolve_right fun hinf => absurd hv (not_lt.mpr hinf.2)

theorem lt_of_parts (h : parts x = .finite negative m e) : (m : ℚ) * 2 ^ e < 2 ^ (1024 : ℤ) := by
  obtain ⟨hf, he⟩ := fits_of_parts h
  have hm : (m : ℚ) < 2 ^ (53 : ℤ) := by exact_mod_cast hf.below
  calc (m : ℚ) * 2 ^ e < 2 ^ (53 : ℤ) * 2 ^ (971 : ℤ) :=
        mul_lt_mul hm (zpow_le_zpow_right₀ one_le_two he) (two_zpow_pos e) (by positivity)
    _ = 2 ^ (1024 : ℤ) := (zpow_add₀ two_ne_zero 53 971).symm

theorem Denotes.isInf_iff {v : ℚ} (h : Denotes x negative v) : x.isInf = true ↔ 2 ^ (1024 : ℤ) ≤ v := by
  have hself : x.isInf = (parts x).unpacked.isInf := congrArg UnpackedFloat.isInf (unpack_toModel x)
  rw [hself]
  cases h with
  | finite h =>
    have hlt := not_le.mpr (lt_of_parts h)
    rw [h, Parts.unpacked]
    split
    · exact iff_of_false Bool.false_ne_true hlt
    · exact iff_of_false Bool.false_ne_true hlt
  | inf h hv =>
    rw [h]
    exact iff_of_true rfl hv

theorem denotes_zero (negative : Bool) : Denotes (packed (.zero (signOf negative))) negative 0 := by
  have h := Denotes.finite (parts_packed_zero negative)
  rwa [Nat.cast_zero, zero_mul] at h

theorem denotes_finite (negative : Bool) (hf : Fits m e) (hm : 0 < m) :
    Denotes (packed (.finite (signOf negative) m e hm)) negative (m * 2 ^ e) := by
  have h := parts_packed_finite negative hf hm
  by_cases he : e ≤ 971
  · rw [if_pos he] at h
    exact .finite h
  · rw [if_neg he] at h
    have habove : 2 ^ 52 ≤ m := hf.above.resolve_left (by omega)
    have hm' : (2 : ℚ) ^ (52 : ℤ) ≤ m := by exact_mod_cast habove
    refine .inf h ?_
    calc (2 : ℚ) ^ (1024 : ℤ) = 2 ^ (52 : ℤ) * 2 ^ (972 : ℤ) := zpow_add₀ two_ne_zero 52 972
      _ ≤ m * 2 ^ e := mul_le_mul hm' (zpow_le_zpow_right₀ one_le_two (by omega)) (by positivity) (by positivity)

end CseMachine.Binary64
