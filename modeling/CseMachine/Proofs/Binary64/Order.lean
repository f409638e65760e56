import CseMachine.Proofs.Binary64.Exact
import CseMachine.Proofs.Binary64.Nearest
import Mathlib.Data.EReal.Basic

/-!
# Order of doubles

Doubles are in the order of the extended reals they are. The arithmetic compares
exponents before mantissas, which is right because the bits of a double are in their
places: what has the larger exponent has all bits a mantissa can have.
-/
namespace CseMachine.Binary64

open Float.Model Float.Model.UnpackedFloat

variable {x y : Float} {p q : Parts} {negative : Bool} {m m' : ℕ} {e e' : ℤ} {v w : ℚ} {a b : EReal}

/-- A rational among the extended reals. -/
noncomputable def ofRat (v : ℚ) : EReal := ((v : ℝ) : EReal)

theorem strictMono_ofRat : StrictMono ofRat := EReal.coe_strictMono.comp Rat.cast_strictMono

theorem ofRat_lt_top (v : ℚ) : ofRat v < ⊤ := EReal.coe_lt_top _

theorem bot_lt_ofRat (v : ℚ) : ⊥ < ofRat v := EReal.bot_lt_coe _

namespace Parts

/-- The extended real that a double with these parts is; a NaN is none. -/
noncomputable def extended? : Parts → Option EReal
  | .nan => none
  | .inf negative => some (if negative then ⊥ else ⊤)
  | .finite negative m e => some (ofRat (withSign negative (m * 2 ^ e)))

end Parts

/-- The extended real that a double is; a NaN is none. -/
noncomputable def extended? (x : Float) : Option EReal := (parts x).extended?

theorem extended?_of_parts (h : parts x = .finite negative m e) : extended? x = some (ofRat (withSign negative (m * 2 ^ e))) := by
  rw [extended?, h, Parts.extended?]

/-! ## Comparison of parts -/

/-- Of two magnitudes the one with the larger exponent is the larger one. -/
theorem Fits.cmp_eq (h : Fits m e) (h' : Fits m' e') :
    (compare e e').then (compare m m') = cmp ((m : ℚ) * 2 ^ e) (m' * 2 ^ e') := by
  rcases lt_trichotomy e e' with he | rfl | he
  · rw [compare_lt_iff_lt.mpr he, (h.lt_of_exponent_lt h' he).cmp_eq_lt]
    rfl
  · have hmantissa : cmp (m : ℚ) m' = compare m m' := (Nat.strictMono_cast.cmp_map_eq m m').trans (cmp_eq_compare m m')
    rw [(compare_eq_iff_eq (a := e)).mpr rfl, cmp_mul_pos_right (two_zpow_pos e), hmantissa]
    rfl
  · rw [compare_gt_iff_gt.mpr he, (h'.lt_of_exponent_lt h he).cmp_eq_gt]
    rfl

theorem cmp_withSign (negative : Bool) (v w : ℚ) :
    cmp (withSign negative v) (withSign negative w) = if negative then (cmp v w).swap else cmp v w := by
  cases negative
  · rfl
  · exact (StrictAnti.cmp_map_eq (f := fun v : ℚ => -v) (fun _ _ => neg_lt_neg) v w).trans (cmp_swap v w).symm

theorem compare_unpacked_finite {negative' : Bool} (h : Fits m e) (h' : Fits m' e') :
    (Parts.finite negative m e).unpacked.compare (Parts.finite negative' m' e').unpacked =
      some (cmp (withSign negative (m * 2 ^ e)) (withSign negative' (m' * 2 ^ e'))) := by
  have hpos : ∀ {m : ℕ} {e : ℤ}, 0 < m → (0 : ℚ) < m * 2 ^ e := fun hm => mul_pos (Nat.cast_pos.mpr hm) (two_zpow_pos _)
  have hzero : ∀ {m : ℕ} (negative : Bool) {e : ℤ}, ¬ 0 < m → withSign negative ((m : ℚ) * 2 ^ e) = 0 := by
    intro m negative e hm
    rw [Nat.eq_zero_of_not_pos hm, Nat.cast_zero, zero_mul]
    cases negative
    · rfl
    · exact neg_zero
  rw [Parts.unpacked, Parts.unpacked]
  split
  · next hm =>
    have hv := hpos (e := e) hm
    split
    · next hm' =>
      have hw := hpos (e := e') hm'
      cases negative <;> cases negative'
      · exact congrArg some (h.cmp_eq h')
      · exact congrArg some ((neg_lt_zero.mpr hw).trans hv).cmp_eq_gt.symm
      · exact congrArg some ((neg_lt_zero.mpr hv).trans hw).cmp_eq_lt.symm
      · rw [cmp_withSign, ← h.cmp_eq h']
        rfl
    · next hm' =>
      rw [hzero negative' hm']
      cases negative
      · exact congrArg some (LT.lt.cmp_eq_gt hv).symm
      · exact congrArg some (LT.lt.cmp_eq_lt (neg_lt_zero.mpr hv)).symm
  · next hm =>
    rw [hzero negative hm]
    split
    · next hm' =>
      have hw := hpos (e := e') hm'
      cases negative'
      · exact congrArg some (LT.lt.cmp_eq_lt hw).symm
      · exact congrArg some (LT.lt.cmp_eq_gt (neg_lt_zero.mpr hw)).symm
    · next hm' =>
      rw [hzero negative' hm', cmp_self_eq_eq]
      rfl

/-- The arithmetic compares doubles by their exact values. -/
theorem compare_unpacked (hp : p.Valid) (hq : q.Valid) :
    p.unpacked.compare q.unpacked = Option.map₂ cmp p.extended? q.extended? := by
  have hnan : ∀ u : UnpackedFloat, u.compare .notANumber = none := fun u => by cases u <;> rfl
  have hinf : ∀ (negative infinite : Bool) (m : ℕ) (e : ℤ) (v : ℚ),
      (Parts.inf infinite).unpacked.compare (Parts.finite negative m e).unpacked =
        some (cmp (if infinite then ⊥ else ⊤) (ofRat v)) ∧
      (Parts.finite negative m e).unpacked.compare (Parts.inf infinite).unpacked =
        some (cmp (ofRat v) (if infinite then ⊥ else ⊤)) := by
    intro negative infinite m e v
    cases infinite
    · rw [if_neg Bool.false_ne_true, (ofRat_lt_top v).cmp_eq_gt, (ofRat_lt_top v).cmp_eq_lt, Parts.unpacked, Parts.unpacked]
      split <;> cases negative <;> exact ⟨rfl, rfl⟩
    · rw [if_pos rfl, (bot_lt_ofRat v).cmp_eq_gt, (bot_lt_ofRat v).cmp_eq_lt, Parts.unpacked, Parts.unpacked]
      split <;> cases negative <;> exact ⟨rfl, rfl⟩
  cases p with
  | nan => rfl
  | inf infinite =>
    cases q with
    | nan => exact hnan _
    | inf infinite' =>
      cases infinite <;> cases infinite'
      · exact congrArg some (cmp_self_eq_eq (⊤ : EReal)).symm
      · exact congrArg some (bot_lt_top (α := EReal)).cmp_eq_gt.symm
      · exact congrArg some (bot_lt_top (α := EReal)).cmp_eq_lt.symm
      · exact congrArg some (cmp_self_eq_eq (⊥ : EReal)).symm
    | finite negative m e => exact (hinf negative infinite m e _).1
  | finite negative m e =>
    cases q with
    | nan => exact hnan _
    | inf infinite' => exact (hinf negative infinite' m e _).2
    | finite negative' m' e' =>
      exact (compare_unpacked_finite hp.1 hq.1).trans (congrArg some (strictMono_ofRat.cmp_map_eq _ _).symm)

/-! ## Comparison of doubles -/

theorem compare_toModel (x y : Float) :
    x.toModel.unpack.compare y.toModel.unpack = Option.map₂ cmp (extended? x) (extended? y) := by
  rw [unpack_toModel, unpack_toModel, compare_unpacked (valid_parts x) (valid_parts y), extended?, extended?]

theorem lt_iff : x < y ↔ Option.map₂ cmp (extended? x) (extended? y) = some .lt := by
  rw [← compare_toModel]
  exact decide_eq_true_iff.trans beq_iff_eq

theorem beq_iff : (x == y) = true ↔ Option.map₂ cmp (extended? x) (extended? y) = some .eq := by
  rw [← compare_toModel]
  exact beq_iff_eq (a := x.toModel.unpack.compare y.toModel.unpack)

/-- Doubles are compared by their exact values. -/
theorem compareFloat_eq (x y : Float) : compareFloat x y = Option.map₂ cmp (extended? x) (extended? y) := by
  simp only [compareFloat, lt_iff, beq_iff]
  cases extended? x with
  | none => simp
  | some a =>
    cases extended? y with
    | none => simp
    | some b =>
      simp only [Option.map₂_coe_coe, Option.some.injEq]
      rcases lt_trichotomy a b with h | h | h
      · rw [h.cmp_eq_lt, if_pos rfl]
      · subst h
        rw [cmp_self_eq_eq]
        rfl
      · rw [h.cmp_eq_gt, h.cmp_eq_lt, if_neg (by decide), if_pos rfl]

theorem isNaN_iff : x.isNaN = true ↔ extended? x = none := by
  have hself : x.isNaN = (parts x).unpacked.isNaN := congrArg UnpackedFloat.isNaN (unpack_toModel x)
  rw [hself, extended?]
  cases parts x with
  | nan => exact iff_of_true rfl rfl
  | inf negative => exact iff_of_false Bool.false_ne_true (Option.some_ne_none _)
  | finite negative m e =>
    rw [Parts.unpacked]
    split <;> exact iff_of_false Bool.false_ne_true (Option.some_ne_none _)

theorem extended?_inf (negative : Bool) : extended? (inf negative) = some (if negative then ⊥ else ⊤) := by
  rw [extended?, inf, parts_ofSignBits (by decide)]
  rfl

theorem extended?_zero : extended? 0.0 = some (ofRat 0) := by
  have h0 : parts 0.0 = .finite false 0 (-1074) := by decide
  rw [extended?_of_parts h0, Nat.cast_zero, zero_mul, withSign, if_neg Bool.false_ne_true]

end CseMachine.Binary64
