import CseMachine.Proofs.Number.Comparison

/-!
# Equality of numbers

A number without a NaN is a pair of extended reals, and two numbers are equal just if
they are the same pair. So it makes no difference that equality is decided in one way
for two integers, in another for an integer and a double, and part by part once one of
them is complex.
-/
namespace CseMachine.Number

open Binary64 (ofRat strictMono_ofRat)

variable {a b : Number} {i : ℤ} {x y : Float}

/-- Real and imaginary part among the extended reals; with a NaN for a part there is no such pair. -/
noncomputable def exactValue? : Number → Option (EReal × EReal)
  | .int i => some (ofRat i, ofRat 0)
  | .float x => (Binary64.extended? x).map (·, ofRat 0)
  | .complex z => Option.map₂ Prod.mk (Binary64.extended? z.re) (Binary64.extended? z.im)

/-- A part of the number is a NaN. -/
def HasNaN : Number → Prop
  | .int _ => False
  | .float x => x.isNaN = true
  | .complex z => z.re.isNaN = true ∨ z.im.isNaN = true

theorem exactValue?_eq_none : a.exactValue? = none ↔ a.HasNaN := by
  cases a with
  | int i => exact iff_of_false (Option.some_ne_none _) id
  | float x => rw [exactValue?, Option.map_eq_none_iff, ← Binary64.isNaN_iff, HasNaN]
  | complex z => rw [exactValue?, Option.map₂_eq_none_iff, ← Binary64.isNaN_iff, ← Binary64.isNaN_iff, HasNaN]

/-- The imaginary part of a real number is zero. -/
theorem exactValue?_real (h : a.IsReal) : a.exactValue? = Option.map₂ Prod.mk a.extended? (some (ofRat 0)) := by
  cases a with
  | int i => rfl
  | float x => exact (Option.map₂_coe_right Prod.mk (Binary64.extended? x) (ofRat 0)).symm
  | complex z => exact h.elim

/-- Values that are there and the same. -/
def Coincide {α : Type*} (p q : Option α) : Prop := ∃ v, p = some v ∧ q = some v

theorem map₂_cmp_eq_iff {p q : Option EReal} : Option.map₂ cmp p q = some .eq ↔ Coincide p q := by
  cases p with
  | none => exact iff_of_false nofun fun ⟨_, h, _⟩ => nomatch h
  | some v =>
    cases q with
    | none => exact iff_of_false nofun fun ⟨_, _, h⟩ => nomatch h
    | some w =>
      rw [Option.map₂_coe_coe, Option.some_inj, cmp_eq_eq_iff]
      constructor
      · rintro rfl
        exact ⟨v, rfl, rfl⟩
      · rintro ⟨u, hv, hw⟩
        exact (Option.some.inj hv).trans (Option.some.inj hw).symm

theorem beq_iff_coincide : (x == y) = true ↔ Coincide (Binary64.extended? x) (Binary64.extended? y) :=
  Binary64.beq_iff.trans map₂_cmp_eq_iff

theorem coincide_comm {α : Type*} {p q : Option α} : Coincide p q ↔ Coincide q p :=
  exists_congr fun _ => and_comm

/-- Pairs are the same part by part. -/
theorem coincide_pair {p p' q q' : Option EReal} :
    Coincide (Option.map₂ Prod.mk p p') (Option.map₂ Prod.mk q q') ↔ Coincide p q ∧ Coincide p' q' := by
  constructor
  · rintro ⟨⟨v, v'⟩, hp, hq⟩
    obtain ⟨u, u', hu, hu', hpair⟩ := Option.map₂_eq_some_iff.mp hp
    obtain ⟨w, w', hw, hw', hpair'⟩ := Option.map₂_eq_some_iff.mp hq
    obtain ⟨rfl, rfl⟩ := Prod.mk.inj (hpair.trans hpair'.symm)
    exact ⟨⟨u, hu, hw⟩, u', hu', hw'⟩
  · rintro ⟨⟨v, rfl, rfl⟩, v', rfl, rfl⟩
    exact ⟨(v, v'), rfl, rfl⟩

/-- Real numbers are the same number if they have the same exact value. -/
theorem equal_real (ha : a.IsReal) (hb : b.IsReal) : a.equal b = true ↔ Coincide a.exactValue? b.exactValue? := by
  rw [equal_iff ha hb, map₂_cmp_eq_iff, exactValue?_real ha, exactValue?_real hb, coincide_pair]
  exact (and_iff_left ⟨_, rfl, rfl⟩).symm

/-- A real number and a complex one are the same number if the imaginary part is zero and the real part the real number. -/
theorem realEqual_complex {z : Complex} (hb : b.IsReal) :
    (z.im == 0.0 && realEqual (.float z.re) b) = true ↔ Coincide (exactValue? (.complex z)) b.exactValue? := by
  have hreal : realEqual (.float z.re) b = equal (.float z.re) b := by
    cases b with
    | complex w => exact hb.elim
    | _ => rfl
  have hre : IsReal (.float z.re) := trivial
  rw [Bool.and_eq_true, hreal, equal_real hre hb, beq_iff_coincide, Binary64.extended?_zero, exactValue?_real hre,
    exactValue?_real hb, exactValue?, coincide_pair, coincide_pair]
  constructor
  · rintro ⟨him, hre, -⟩
    exact ⟨hre, him⟩
  · rintro ⟨hre, him⟩
    exact ⟨him, hre, _, rfl, rfl⟩

/-- Numbers are equal just if they are the same pair of extended reals. -/
theorem equal_iff_exact (a b : Number) : a.equal b = true ↔ Coincide a.exactValue? b.exactValue? := by
  cases a with
  | complex z =>
    cases b with
    | complex w =>
      show (z.re == w.re && z.im == w.im) = true ↔ _
      rw [Bool.and_eq_true, beq_iff_coincide, beq_iff_coincide, exactValue?, exactValue?, coincide_pair]
    | int j => exact realEqual_complex (b := .int j) trivial
    | float y => exact realEqual_complex (b := .float y) trivial
  | int i =>
    cases b with
    | complex w => exact (realEqual_complex (b := .int i) trivial).trans coincide_comm
    | int j => exact equal_real (a := .int i) (b := .int j) trivial trivial
    | float y => exact equal_real (a := .int i) (b := .float y) trivial trivial
  | float x =>
    cases b with
    | complex w => exact (realEqual_complex (b := .float x) trivial).trans coincide_comm
    | int j => exact equal_real (a := .float x) (b := .int j) trivial trivial
    | float y => exact equal_real (a := .float x) (b := .float y) trivial trivial

theorem equal_comm (a b : Number) : a.equal b = b.equal a := by
  rw [Bool.eq_iff_iff, equal_iff_exact, equal_iff_exact, coincide_comm]

theorem equal_trans {c : Number} (hab : a.equal b = true) (hbc : b.equal c = true) : a.equal c = true := by
  rw [equal_iff_exact] at *
  obtain ⟨v, ha, hb⟩ := hab
  obtain ⟨w, hb', hc⟩ := hbc
  obtain rfl := Option.some.inj (hb.symm.trans hb')
  exact ⟨v, ha, hc⟩

theorem equal_self_iff : a.equal a = true ↔ ¬ a.HasNaN := by
  rw [equal_iff_exact, ← exactValue?_eq_none, ← Ne.eq_def, Option.ne_none_iff_exists']
  exact exists_congr fun _ => and_self_iff

/-- An integer that is no double equals neither a double nor a complex number. -/
theorem equal_int_eq_false (h : ∀ x : Float, Binary64.extended? x ≠ some (ofRat i)) (hb : ∀ j, b ≠ .int j) :
    (Number.int i).equal b = false := by
  rw [Bool.eq_false_iff, Ne, equal_iff_exact]
  rintro ⟨v, hi, hv⟩
  obtain rfl := Option.some.inj hi
  cases b with
  | int j => exact hb j rfl
  | float x =>
    obtain ⟨w, hx, heq⟩ := Option.map_eq_some_iff.mp hv
    obtain ⟨rfl, -⟩ := Prod.mk.inj heq
    exact h x hx
  | complex z =>
    obtain ⟨w, w', hre, -, heq⟩ := Option.map₂_eq_some_iff.mp hv
    obtain ⟨rfl, -⟩ := Prod.mk.inj heq
    exact h z.re hre

end CseMachine.Number
