import CseMachine.Operator
import CseMachine.Proofs.Binary64.Integers

/-!
# Comparison of numbers

Integers and doubles are compared by their exact values among the extended reals,
whichever of the two each operand is. Therefore numbers of both kinds are in one
order, as they would not be if an integer were rounded before it is compared.
-/
namespace CseMachine

open Binary64 (ofRat strictMono_ofRat)

namespace Number

variable {a b c : Number} {v w : EReal}

/-- An integer or a double. -/
def IsReal : Number → Prop
  | .int _ | .float _ => True
  | .complex _ => False

/-- The extended real that an integer or a double is; a NaN is none. -/
noncomputable def extended? : Number → Option EReal
  | .int i => some (ofRat i)
  | .float x => Binary64.extended? x
  | .complex _ => none

/-- One of the doubles that are no extended reals. -/
def IsNaN : Number → Prop
  | .float x => x.isNaN = true
  | _ => False

theorem extended?_eq_none (h : a.IsReal) : a.extended? = none ↔ a.IsNaN := by
  cases a with
  | int i => exact iff_of_false (Option.some_ne_none _) id
  | float x => exact Binary64.isNaN_iff.symm
  | complex z => exact h.elim

theorem map₂_swap (x y : Option EReal) : (Option.map₂ cmp y x).map Ordering.swap = Option.map₂ cmp x y := by
  cases x with
  | none => cases y <;> rfl
  | some v =>
    cases y with
    | none => rfl
    | some w => exact congrArg some (cmp_swap w v)

theorem compareInt_exact (i : ℤ) (x : Float) :
    Binary64.compareInt i x = Option.map₂ cmp (extended? (.int i)) (extended? (.float x)) := by
  rw [Binary64.compareInt_eq, extended?, extended?, Option.map₂_coe_left]

/-- The order of two real numbers is that of their exact values. -/
theorem compare?_eq (ha : a.IsReal) (hb : b.IsReal) : a.compare? b = some (Option.map₂ cmp a.extended? b.extended?) := by
  cases a with
  | int i =>
    cases b with
    | int j =>
      have hcmp : cmp (ofRat i) (ofRat j) = compare i j := by
        rw [strictMono_ofRat.cmp_map_eq, Int.cast_strictMono.cmp_map_eq, cmp_eq_compare]
      exact congrArg (fun o => some (some o)) hcmp.symm
    | float y => exact congrArg some (compareInt_exact i y)
    | complex z => exact hb.elim
  | float x =>
    cases b with
    | int j => rw [compare?, compareInt_exact, map₂_swap]
    | float y => exact congrArg some (Binary64.compareFloat_eq x y)
    | complex z => exact hb.elim
  | complex z => exact ha.elim

/-- Two real numbers are equal if they compare as equal. -/
theorem equal_iff (ha : a.IsReal) (hb : b.IsReal) : a.equal b = true ↔ Option.map₂ cmp a.extended? b.extended? = some .eq := by
  cases a with
  | int i =>
    cases b with
    | int j =>
      show (i == j) = true ↔ some (cmp (ofRat i) (ofRat j)) = some .eq
      rw [Option.some_inj, cmp_eq_eq_iff, strictMono_ofRat.injective.eq_iff, Int.cast_inj, beq_iff_eq]
    | float y =>
      show (Binary64.compareInt i y == some .eq) = true ↔ _
      rw [beq_iff_eq, compareInt_exact]
    | complex z => exact hb.elim
  | float x =>
    cases b with
    | int j =>
      show (Binary64.compareInt j x == some .eq) = true ↔ _
      rw [beq_iff_eq, compareInt_exact, ← map₂_swap]
      cases Option.map₂ cmp (extended? (.float x)) (extended? (.int j)) with
      | none => exact Iff.rfl
      | some o => cases o <;> decide
    | float y => exact Binary64.beq_iff
    | complex z => exact hb.elim
  | complex z => exact ha.elim

end Number

namespace BinaryOp

variable {op : BinaryOp} {rel : EReal → EReal → Prop}

/-- The relation of exact values that a comparison is a test of. -/
def relation? : BinaryOp → Option (EReal → EReal → Prop)
  | .eq => some (· = ·)
  | .notEq => some (· ≠ ·)
  | .order .lt => some (· < ·)
  | .order .ltEq => some (· ≤ ·)
  | .order .gt => some (· > ·)
  | .order .gtEq => some (· ≥ ·)
  | .arith _ => none

/-- What a comparison makes of an order, which a NaN does not have. -/
def accepts : BinaryOp → Option Ordering → Bool
  | .eq, o => o == some .eq
  | .notEq, o => o != some .eq
  | .order op, o => o.any op.holds
  | .arith _, _ => false

theorem accepts_cmp (h : op.relation? = some rel) (v w : EReal) : op.accepts (some (cmp v w)) = true ↔ rel v w := by
  unfold relation? at h
  split at h <;> cases h <;> rcases lt_trichotomy v w with hlt | rfl | hgt
  all_goals
    first
    | rw [accepts, hlt.cmp_eq_lt]; simp [OrderOp.holds, hlt, hlt.le, hlt.ne, hlt.not_gt]
    | rw [accepts, hgt.cmp_eq_gt]; simp [OrderOp.holds, hgt, hgt.le, hgt.ne', hgt.not_gt]
    | rw [accepts, cmp_self_eq_eq]; simp [OrderOp.holds]

theorem accepts_none (h : op.relation? = some rel) : op.accepts none = true ↔ op = .notEq := by
  cases op with
  | arith op => cases h
  | eq => decide
  | notEq => decide
  | order op => exact iff_of_false Bool.false_ne_true nofun

end BinaryOp

namespace Value

variable {store : Store} {op : BinaryOp} {rel : EReal → EReal → Prop} {a b c : Number} {u v w : EReal}

/-- A comparison is a test of what the two numbers have for an order. -/
theorem binary_real (ha : a.IsReal) (hb : b.IsReal) (hop : op.relation? = some rel) :
    binary store op (.number a) (.number b) = .ok (.bool (op.accepts (Option.map₂ cmp a.extended? b.extended?))) := by
  have hequal : equal store (.number a) (.number b) = (Option.map₂ cmp a.extended? b.extended? == some .eq) := by
    have hself : equal store (.number a) (.number b) = a.equal b := by rw [equal, equalWithin]
    rw [hself, Bool.eq_iff_iff, Number.equal_iff ha hb, beq_iff_eq]
  cases op with
  | arith op => cases hop
  | eq => rw [binary, hequal, BinaryOp.accepts]
  | notEq =>
    rw [binary, hequal, BinaryOp.accepts]
    rfl
  | order op =>
    have hcompare : compare? (.number a) (.number b) = some (Option.map₂ cmp a.extended? b.extended?) := Number.compare?_eq ha hb
    rw [binary, order, hcompare, BinaryOp.accepts]
    cases Option.map₂ cmp a.extended? b.extended? <;> rfl

/-- The comparison of two numbers comes out as true. -/
def Says (store : Store) (op : BinaryOp) (a b : Number) : Prop :=
  binary store op (.number a) (.number b) = .ok (.bool true)

/-- Of numbers with exact values it tells the truth. -/
theorem says_iff (ha : a.IsReal) (hb : b.IsReal) (hop : op.relation? = some rel) (hv : a.extended? = some v)
    (hw : b.extended? = some w) : Says store op a b ↔ rel v w := by
  rw [Says, binary_real ha hb hop, hv, hw, Option.map₂_coe_coe, ← BinaryOp.accepts_cmp hop, Except.ok.injEq, bool.injEq]

/-- Integers of any size and doubles are compared by their exact values: each comparison is the test of a relation
of extended reals, and of a NaN it only says that it is unequal. So the numbers that are not NaNs are in one strict
order, in which those that are equal are not told apart. -/
theorem comparison_exact (store : Store) {a b c : Number} (ha : a.IsReal) (hb : b.IsReal) (hc : c.IsReal) :
    (a.extended? = Option.none ↔ a.IsNaN) ∧
    (∀ op rel, op.relation? = some rel → ∃ holds : Bool,
      binary store op (.number a) (.number b) = .ok (.bool holds) ∧
      (∀ v w, a.extended? = some v → b.extended? = some w → (holds = true ↔ rel v w)) ∧
      (a.IsNaN ∨ b.IsNaN → (holds = true ↔ op = .notEq))) ∧
    (¬ a.IsNaN → ¬ b.IsNaN → ¬ c.IsNaN →
      ¬ Says store (.order .lt) a a ∧
      (Says store (.order .lt) a b → Says store (.order .lt) b c → Says store (.order .lt) a c) ∧
      (Says store (.order .lt) a b ∨ Says store .eq a b ∨ Says store (.order .lt) b a) ∧
      (Says store .eq a b → ¬ Says store (.order .lt) a b ∧
        (Says store (.order .lt) a c ↔ Says store (.order .lt) b c) ∧
        (Says store (.order .lt) c a ↔ Says store (.order .lt) c b)) ∧
      (Says store .eq a b ↔ Says store (.order .ltEq) a b ∧ Says store (.order .gtEq) a b)) := by
  refine ⟨Number.extended?_eq_none ha, ?_, ?_⟩
  · intro op rel hop
    refine ⟨_, binary_real ha hb hop, fun v w hv hw => ?_, fun hnan => ?_⟩
    · rw [hv, hw, Option.map₂_coe_coe, BinaryOp.accepts_cmp hop]
    · have hnone : Option.map₂ cmp a.extended? b.extended? = Option.none := by
        rw [Option.map₂_eq_none_iff]
        exact hnan.imp (Number.extended?_eq_none ha).mpr (Number.extended?_eq_none hb).mpr
      rw [hnone, BinaryOp.accepts_none hop]
  · intro hna hnb hnc
    obtain ⟨u, hu⟩ := Option.ne_none_iff_exists'.mp (mt (Number.extended?_eq_none ha).mp hna)
    obtain ⟨v, hv⟩ := Option.ne_none_iff_exists'.mp (mt (Number.extended?_eq_none hb).mp hnb)
    obtain ⟨w, hw⟩ := Option.ne_none_iff_exists'.mp (mt (Number.extended?_eq_none hc).mp hnc)
    have hlt : ∀ {a b : Number} {v w : EReal}, a.IsReal → b.IsReal → a.extended? = some v → b.extended? = some w →
        (Says store (.order .lt) a b ↔ v < w) := fun ha hb => says_iff ha hb rfl
    have heq : Says store .eq a b ↔ u = v := says_iff ha hb rfl hu hv
    have hle : Says store (.order .ltEq) a b ↔ u ≤ v := says_iff ha hb rfl hu hv
    have hge : Says store (.order .gtEq) a b ↔ u ≥ v := says_iff ha hb rfl hu hv
    rw [hlt ha ha hu hu, hlt ha hb hu hv, hlt hb ha hv hu, hlt hb hc hv hw, hlt ha hc hu hw, hlt hc ha hw hu,
      hlt hc hb hw hv, heq, hle, hge]
    refine ⟨lt_irrefl u, lt_trans, lt_trichotomy u v, ?_, le_antisymm_iff⟩
    rintro rfl
    exact ⟨lt_irrefl u, Iff.rfl, Iff.rfl⟩

/-- The integer after `2 ^ 53` is no double, and it is not rounded to one to be compared. -/
theorem comparison_exact_beyond_doubles :
    Number.IsReal (.int 9007199254740993) ∧ Number.IsReal (.float 9007199254740992.0) ∧
      Says .empty (.order .gt) (.int 9007199254740993) (.float 9007199254740992.0) ∧
      ¬ Says .empty .eq (.int 9007199254740993) (.float 9007199254740992.0) := by
  have hparts : Binary64.parts 9007199254740992.0 = .finite false (2 ^ 52) 1 := by decide
  have hexact : Number.extended? (.float 9007199254740992.0) = some (ofRat 9007199254740992) := by
    rw [Number.extended?, Binary64.extended?_of_parts hparts]
    norm_num [Binary64.withSign]
  obtain ⟨-, htests, -⟩ := comparison_exact .empty (a := .int 9007199254740993) (b := .float 9007199254740992.0) (c := .int 0)
    trivial trivial trivial
  have hless : ofRat 9007199254740992 < ofRat ((9007199254740993 : ℤ) : ℚ) := strictMono_ofRat (by norm_num)
  obtain ⟨holds, hgt, htruth, -⟩ := htests (.order .gt) _ rfl
  obtain ⟨equal, heq, hfalse, -⟩ := htests .eq _ rfl
  rw [(htruth _ _ rfl hexact).mpr hless] at hgt
  rw [Bool.eq_false_iff.mpr (mt (hfalse _ _ rfl hexact).mp hless.ne')] at heq
  exact ⟨trivial, trivial, hgt, by rw [Says, heq]; decide⟩

end Value
end CseMachine
