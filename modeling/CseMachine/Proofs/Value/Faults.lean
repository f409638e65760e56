import CseMachine.Proofs.Number.Division
import CseMachine.Proofs.Value.Reading

/-!
# Errors of operations on values

Operators and builtins fail only with errors that tell a program what it did
wrong, and leave it to their caller to say where. The exception is a list handle
that leads nowhere, which they may find only if it is among their arguments.
-/
namespace CseMachine

namespace EvalError

/-- Not a broken invariant of the machine, nor a name declared twice. -/
def Cause.Regular : Cause → Prop
  | .internal _ | .redeclaration _ => False
  | _ => True

/-- An error that points nowhere. -/
structure Placeless (e : EvalError) : Prop where
  span : e.span = none
  notes : e.notes = []

theorem Placeless.ofCause (cause : Cause) : Placeless { cause } := ⟨rfl, rfl⟩

end EvalError

/-- An error, if there is one, is a regular one. -/
def FailsRegularly {α : Type} (r : Except EvalError α) : Prop := ∀ e, r = .error e → e.cause.Regular

/-- An error, if there is one, is a regular one that points nowhere. -/
def FailsPlainly {α : Type} (r : Except EvalError α) : Prop :=
  ∀ e, r = .error e → e.cause.Regular ∧ e.Placeless

variable {α β : Type}

namespace FailsPlainly

theorem regular {r : Except EvalError α} (h : FailsPlainly r) : FailsRegularly r := fun e he => (h e he).1

theorem ok {a : α} : FailsPlainly (.ok a) := fun _ h => nomatch h

theorem pure {a : α} : FailsPlainly (Pure.pure a) := ok

theorem fail {cause : EvalError.Cause} (h : cause.Regular) : FailsPlainly (CseMachine.fail cause : Except _ α) :=
  fun _ he => Except.error.inj he ▸ ⟨h, .ofCause cause⟩

theorem bind {r : Except EvalError α} {f : α → Except EvalError β} (h : FailsPlainly r)
    (hf : ∀ a, r = .ok a → FailsPlainly (f a)) : FailsPlainly (r >>= f) := by
  cases r with
  | error e => exact fun e' he => h e' (by injection he with he; rw [he])
  | ok a => exact hf a rfl

theorem map {r : Except EvalError α} {f : α → β} (h : FailsPlainly r) : FailsPlainly (f <$> r) := by
  cases r with
  | error e => exact fun e' he => h e' (by injection he with he; rw [he])
  | ok a => exact ok

theorem ite {p : Prop} [Decidable p] {r t : Except EvalError α} (hr : FailsPlainly r)
    (ht : FailsPlainly t) : FailsPlainly (if p then r else t) := by
  split
  · exact hr
  · exact ht

end FailsPlainly

namespace Complex

theorem div_plain (z w : Complex) : FailsPlainly (z.div w) := .ite (.fail trivial) .ok

theorem pow_plain (z w : Complex) : FailsPlainly (z.pow w) := by
  have hint : ∀ n, FailsPlainly (z.powInt n) := fun n => .ite .ok (.ite (.fail trivial) .ok)
  have hpolar : FailsPlainly (z.powPolar w) := by
    simp only [powPolar]
    exact .ite .ok (.ite (.ite (.fail trivial) .ok) .ok)
  have hr : ∀ r : Complex, FailsPlainly
      (if z.isFinite && w.isFinite && !r.isFinite then fail (.overflow .complexPower) else pure r) :=
    fun r => .ite (.fail trivial) .pure
  unfold pow
  dsimp only
  split
  · exact .bind (hint _) fun r _ => hr r
  · exact .bind hpolar fun r _ => hr r

end Complex

namespace Number

theorem floatOfInt_plain (i : Int) : FailsPlainly (floatOfInt i) := by
  simp only [floatOfInt]
  split
  · exact .ok
  · exact .fail trivial

theorem intOfFloat_plain (x : Float) : FailsPlainly (intOfFloat x) := by
  simp only [intOfFloat]
  split
  · exact .ok
  · exact .ite (.fail trivial) (.fail trivial)

theorem toComplex_plain (n : Number) : FailsPlainly n.toComplex := by
  cases n with
  | int i => exact .map (floatOfInt_plain i)
  | float x => exact .ok
  | complex z => exact .ok

theorem floatPow_plain (x y : Float) : FailsPlainly (floatPow x y) := by
  simp only [floatPow]
  exact .ite (.fail trivial) (.ite (.map (Complex.pow_plain _ _)) (.ite (.fail trivial) .ok))

theorem intPow_plain (a b : Int) : FailsPlainly (intPow a b) := by
  have hf : FailsPlainly (do floatPow (← floatOfInt a) (← floatOfInt b)) :=
    .bind (floatOfInt_plain a) fun x _ => .bind (floatOfInt_plain b) fun y _ => floatPow_plain x y
  simp only [intPow]
  exact .ite (.ite (.fail trivial) hf) (.ite .ok (.ite .ok (.ite .ok (.fail trivial))))

theorem intDiv_plain (a b : Int) : FailsPlainly (intDiv a b) := by
  rcases eq_or_ne b 0 with rfl | hb
  · exact .fail trivial
  · rcases intDiv_outcome a hb with ⟨-, h⟩ | ⟨-, x, h, -⟩
    · exact h ▸ .fail trivial
    · exact h ▸ .ok

theorem intArith_plain (op : ArithOp) (a b : Int) : FailsPlainly (intArith op a b) := by
  cases op with
  | add | sub | mul => exact .ok
  | div => exact .map (intDiv_plain a b)
  | floorDiv | mod => exact .ite (.fail trivial) .ok
  | pow => exact intPow_plain a b

theorem floatArith_plain (op : ArithOp) (x y : Float) : FailsPlainly (floatArith op x y) := by
  cases op with
  | add | sub | mul => exact .ok
  | div | floorDiv | mod => exact .ite (.fail trivial) .ok
  | pow => exact floatPow_plain x y

theorem complexArith_plain (op : ArithOp) (z w : Complex) : FailsPlainly (complexArith op z w) := by
  cases op with
  | add | sub | mul | floorDiv | mod => exact .ok
  | div => exact .map (Complex.div_plain z w)
  | pow => exact .map (Complex.pow_plain z w)

theorem arith_plain (op : ArithOp) (a b : Number) : FailsPlainly (a.arith op b) := by
  fun_cases arith op a b with
  | case1 a b => exact intArith_plain op a b
  | case2 a y => exact .bind (floatOfInt_plain a) fun x _ => floatArith_plain op x y
  | case3 x b => exact .bind (floatOfInt_plain b) fun y _ => floatArith_plain op x y
  | case4 x y => exact floatArith_plain op x y
  | case5 =>
    refine .bind (toComplex_plain a) fun z _ => .bind (toComplex_plain b) fun w _ => ?_
    refine .bind (complexArith_plain op z w) fun r _ => ?_
    cases r with
    | none => exact .fail trivial
    | some z => exact .pure

end Number

namespace Value

/-- The handle in the value, if there is one, leads to an object of the right kind. -/
def Resolves (s : Store) : Value → Prop
  | .closure id => (s.closure? id).isSome
  | .list id => (s.list? id).isSome
  | _ => True

variable {s : Store}

theorem arith_plain (op : ArithOp) (x y : Value) : FailsPlainly (arith op x y) := by
  simp only [arith]
  split
  · exact .map (Number.arith_plain op _ _)
  · exact .ite .ok (.fail trivial)
  · exact .ite (.fail trivial) (.fail trivial)
  · exact .ite (.fail trivial) (.fail trivial)
  · exact .fail trivial

theorem order_plain (op : OrderOp) (x y : Value) : FailsPlainly (order op x y) := by
  simp only [order]
  split
  · exact .ok
  · exact .ok
  · exact .fail trivial

theorem binary_plain (op : BinaryOp) (x y : Value) : FailsPlainly (x.binary s op y) := by
  cases op with
  | arith op => exact arith_plain op x y
  | eq | notEq => exact .ok
  | order op => exact .map (order_plain op x y)

theorem unary_plain (op : UnaryOp) (x : Value) : FailsPlainly (x.unary op) := by
  simp only [unary]
  split <;> first | exact .ok | exact .fail trivial

theorem position_plain (sequence : EvalError.Sequence) (length : Nat) (index : Value) :
    FailsPlainly (position sequence length index) := by
  simp only [position]
  split
  · exact .ite .ok (.fail trivial)
  · exact .fail trivial

theorem subscript_plain {x : Value} (y : Value) (hx : x.Resolves s) :
    FailsPlainly (x.subscript s y) := by
  cases x with
  | list id =>
    obtain ⟨items, hi⟩ := Option.isSome_iff_exists.mp hx
    simp only [subscript, hi]
    refine .bind (position_plain _ _ y) fun i _ => ?_
    split
    · exact .pure
    · exact .fail trivial
  | str text =>
    refine .bind (position_plain _ _ y) fun i _ => ?_
    split
    · exact .pure
    · exact .fail trivial
  | _ => exact .fail trivial

end Value

namespace Builtin

open Number (floatOfInt_plain intOfFloat_plain)

variable {s : Store}

theorem realArg_plain (x : Value) : FailsPlainly (realArg x) := by
  simp only [realArg]
  split
  · exact floatOfInt_plain _
  · exact .ok
  · exact .fail trivial

theorem toInt_plain (x : Value) : FailsPlainly (toInt x) := by
  simp only [toInt]
  split
  · exact .ok
  · exact .ok
  · exact intOfFloat_plain _
  · split
    · exact .ok
    · exact .fail trivial
  · exact .fail trivial

theorem toFloat_plain (x : Value) : FailsPlainly (toFloat x) := by
  simp only [toFloat]
  split
  · exact .ok
  · exact floatOfInt_plain _
  · exact .ok
  · split
    · exact .ok
    · exact .fail trivial
  · exact .fail trivial

theorem length_plain {x : Value} (hx : x.Resolves s) : FailsPlainly (length s x) := by
  cases x with
  | str text => exact .ok
  | list id =>
    obtain ⟨items, hi⟩ := Option.isSome_iff_exists.mp hx
    simp only [length, hi]
    exact .ok
  | _ => exact .fail trivial

theorem best_plain (better : OrderOp) (x : Value) (items : List Value) :
    FailsPlainly (best better x items) := by
  induction items generalizing x with
  | nil => exact .ok
  | cons y rest ih => exact .bind (Value.order_plain better y x) fun b _ => ih _

theorem extreme_plain (f : Builtin) (better : OrderOp) {args : List Value}
    (ha : ∀ x ∈ args, x.Resolves s) : FailsPlainly (extreme f better s args) := by
  have hc : FailsPlainly (candidates s args) := by
    simp only [candidates]
    split
    · next id =>
      obtain ⟨items, hi⟩ := Option.isSome_iff_exists.mp (ha _ (.head _))
      simp only [hi]
      exact .ok
    · exact .fail trivial
    · exact .ok
  refine .bind hc fun items _ => ?_
  split
  · exact .fail trivial
  · exact best_plain better _ _

theorem roundValue_plain (x : Value) (places : Option Int) : FailsPlainly (roundValue x places) := by
  simp only [roundValue]
  split
  · exact .ok
  · exact .ok
  · exact .map (intOfFloat_plain _)
  · exact .ok
  · exact .fail trivial

theorem logarithm_plain (x : Value) : FailsPlainly (logarithm x) :=
  .bind (realArg_plain x) fun _ _ => .ite (.fail trivial) .pure

theorem logarithmTo_plain (x : Value) (rest : List Value) : FailsPlainly (logarithmTo x rest) := by
  cases rest with
  | nil => exact .map (logarithm_plain x)
  | cons base rest =>
    refine .bind (logarithm_plain x) fun _ _ => .bind (logarithm_plain base) fun _ _ => ?_
    exact .ite (.fail trivial) .pure

theorem wholeBy_plain (round : Float → Float) (x : Value) : FailsPlainly (wholeBy round x) := by
  simp only [wholeBy]
  split
  · exact .ok
  · exact .bind (realArg_plain _) fun _ _ => .bind (intOfFloat_plain _) fun _ _ => .pure

theorem result_plain (f : Builtin) {x : Value} {rest : List Value}
    (ha : ∀ w ∈ x :: rest, w.Resolves s) : FailsPlainly (result s f (x :: rest)) := by
  cases f with
  | error => exact .fail trivial
  | max => exact extreme_plain .max .gt ha
  | min => exact extreme_plain .min .lt ha
  | int => exact .map (toInt_plain x)
  | float => exact .map (toFloat_plain x)
  | len => exact .map (length_plain (ha x (.head _)))
  | abs | real | imag =>
    simp only [result, absValue, realPart, imagPart]
    split <;> first | exact .ok | exact .fail trivial
  | round =>
    refine .bind ?_ fun places _ => roundValue_plain x places
    simp only [places?]
    split <;> first | exact .ok | exact .fail trivial
  | math fn => exact .bind (realArg_plain x) fun _ _ => .ite (.fail trivial) .pure
  | exp => exact .bind (realArg_plain x) fun _ _ => .ite (.fail trivial) .pure
  | log => exact logarithmTo_plain x rest
  | floor => exact wholeBy_plain _ x
  | ceil => exact wholeBy_plain _ x
  | _ => exact .ok

/-- The number of arguments is checked, so none that is needed is missing. -/
theorem call_plain (f : Builtin) {args : List Value} (ha : ∀ x ∈ args, x.Resolves s) :
    FailsPlainly (f.call s args) := by
  simp only [call]
  split
  · next harity =>
    cases args with
    | nil =>
      cases f with
      | print => exact .ok
      | error => exact .fail trivial
      | _ => cases harity
    | cons x rest => exact result_plain f ha
  · exact .fail trivial

end Builtin
end CseMachine
