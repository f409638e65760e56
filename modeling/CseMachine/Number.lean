import CseMachine.Number.Complex
import CseMachine.Number.Divide

/-!
Numbers and their arithmetic. There are integers of any size, doubles and
complex numbers. A complex operand makes both operands complex, otherwise a
double makes both doubles; only two integers stay integers.
-/
namespace CseMachine

inductive Number where
  | int (value : Int)
  | float (value : Float)
  | complex (value : Complex)
  deriving DecidableEq, Repr

namespace Number

def typeName : Number → TypeName
  | .int _ => .int
  | .float _ => .float
  | .complex _ => .complex

/-- The double of an integer, which has to be in range. -/
def floatOfInt (i : Int) : Except EvalError Float :=
  match Binary64.ofInt? i with
  | some x => .ok x
  | none => fail (.overflow .intToFloat)

/-- The integer part of a double, which has to be finite. -/
def intOfFloat (x : Float) : Except EvalError Int :=
  match Binary64.toInt? x with
  | some i => .ok i
  | none => if x.isNaN then fail (.badValue .nanToInt) else fail (.overflow .infinityToInt)

def toComplex : Number → Except EvalError Complex
  | .int i => Complex.ofReal <$> floatOfInt i
  | .float x => .ok (Complex.ofReal x)
  | .complex z => .ok z

/-- A power of doubles. A negative base with a fractional exponent has a complex power. -/
def floatPow (x y : Float) : Except EvalError Number :=
  if x == 0.0 && y < 0.0 then fail (.zeroDivision .negativePower)
  else if x < 0.0 && y.isFinite && !Binary64.isWhole y then
    .complex <$> (Complex.ofReal x).pow (Complex.ofReal y)
  else
    let result := Float.pow x y
    if result.isInf && x.isFinite && y.isFinite then fail (.overflow .power)
    else .ok (.float result)

/-- Exponents of integers other than 0, 1 and -1 stay below this. -/
def exponentLimit : Int := Int.pow 2 32

/-- A power of integers; with a negative exponent it is a double. -/
def intPow (a b : Int) : Except EvalError Number :=
  if b < 0 then
    if a = 0 then fail (.zeroDivision .negativePower)
    else do floatPow (← floatOfInt a) (← floatOfInt b)
  else if a = 0 ∨ a = 1 then .ok (.int (if b = 0 then 1 else a))
  else if a = -1 then .ok (.int (if b % 2 = 0 then 1 else a))
  else if b < exponentLimit then .ok (.int (Int.pow a b.toNat))
  else fail (.overflow .exponent)

def intArith (op : ArithOp) (a b : Int) : Except EvalError Number :=
  match op with
  | .add => .ok (.int (a + b))
  | .sub => .ok (.int (a - b))
  | .mul => .ok (.int (a * b))
  | .div => .float <$> intDiv a b
  | .floorDiv =>
    if b = 0 then fail (.zeroDivision .intFloorDivision) else .ok (.int (Int.fdiv a b))
  | .mod => if b = 0 then fail (.zeroDivision .intModulo) else .ok (.int (Int.fmod a b))
  | .pow => intPow a b

def floatArith (op : ArithOp) (x y : Float) : Except EvalError Number :=
  match op with
  | .add => .ok (.float (x + y))
  | .sub => .ok (.float (x - y))
  | .mul => .ok (.float (x * y))
  | .div => if y == 0.0 then fail (.zeroDivision .floatDivision) else .ok (.float (x / y))
  | .floorDiv =>
    if y == 0.0 then fail (.zeroDivision .floatFloorDivision)
    else .ok (.float (Binary64.divMod x y).1)
  | .mod =>
    if y == 0.0 then fail (.zeroDivision .floatModulo) else .ok (.float (Binary64.divMod x y).2)
  | .pow => floatPow x y

/-- Complex numbers cannot be floored: there is no `//` and no `%`, which is `none`. -/
def complexArith (op : ArithOp) (z w : Complex) : Except EvalError (Option Complex) :=
  match op with
  | .add => .ok (some (z.add w))
  | .sub => .ok (some (z.sub w))
  | .mul => .ok (some (z.mul w))
  | .div => some <$> z.div w
  | .floorDiv | .mod => .ok none
  | .pow => some <$> z.pow w

def arith (op : ArithOp) : Number → Number → Except EvalError Number
  | .int a, .int b => intArith op a b
  | .int a, .float y => do floatArith op (← floatOfInt a) y
  | .float x, .int b => do floatArith op x (← floatOfInt b)
  | .float x, .float y => floatArith op x y
  | a, b => do
    match ← complexArith op (← a.toComplex) (← b.toComplex) with
    | some z => return .complex z
    | none => fail (.unsupportedOperand op a.typeName b.typeName)

def neg : Number → Number
  | .int i => .int (-i)
  | .float x => .float (-x)
  | .complex z => .complex z.neg

/-- Order of two real numbers by their exact values: `some none` if one is a NaN, `none` if one is
complex. -/
def compare? : Number → Number → Option (Option Ordering)
  | .int a, .int b => some (some (compare a b))
  | .float x, .float y => some (Binary64.compareFloat x y)
  | .int a, .float y => some (Binary64.compareInt a y)
  | .float x, .int b => some ((Binary64.compareInt b x).map Ordering.swap)
  | _, _ => none

/-- Equality of two real numbers. -/
def realEqual : Number → Number → Bool
  | .int a, .int b => a == b
  | .float x, .float y => x == y
  | .int i, .float x | .float x, .int i => Binary64.compareInt i x == some .eq
  | _, _ => false

/-- Equality of exact values, a real number being complex with imaginary part zero. -/
def equal : Number → Number → Bool
  | .complex z, .complex w => z.equal w
  | .complex z, real => z.im == 0.0 && realEqual (.float z.re) real
  | real, .complex z => z.im == 0.0 && realEqual (.float z.re) real
  | a, b => realEqual a b

end Number
end CseMachine
