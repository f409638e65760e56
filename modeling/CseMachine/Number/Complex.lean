import CseMachine.Binary64
import CseMachine.EvalError

/-!
Complex numbers whose parts are doubles. Sums and products are computed part
by part; a quotient scales by the larger part of the divisor, and a power
with a small integral exponent is a product, so that it stays exact where the
parts allow.
-/
namespace CseMachine

structure Complex where
  re : Float
  im : Float
  deriving DecidableEq, Repr

namespace Complex

def zero : Complex := ⟨0.0, 0.0⟩

def one : Complex := ⟨1.0, 0.0⟩

def ofReal (re : Float) : Complex := ⟨re, 0.0⟩

def isZero (z : Complex) : Bool := z.re == 0.0 && z.im == 0.0

def isFinite (z : Complex) : Bool := z.re.isFinite && z.im.isFinite

/-- Equality of both parts; a NaN equals nothing. -/
def equal (z w : Complex) : Bool := z.re == w.re && z.im == w.im

def add (z w : Complex) : Complex := ⟨z.re + w.re, z.im + w.im⟩

def sub (z w : Complex) : Complex := ⟨z.re - w.re, z.im - w.im⟩

def mul (z w : Complex) : Complex := ⟨z.re * w.re - z.im * w.im, z.re * w.im + z.im * w.re⟩

def neg (z : Complex) : Complex := ⟨-z.re, -z.im⟩

/-- Distance from zero. -/
def abs (z : Complex) : Float := Binary64.hypot z.re z.im

/-- Quotient by a divisor that is not zero, scaled so that no square is formed. -/
def quotient (z w : Complex) : Complex :=
  let (a, b) := (z.re, z.im)
  let (c, d) := (w.re, w.im)
  if c.abs ≥ d.abs then
    let ratio := d / c
    let denom := c + d * ratio
    ⟨(a + b * ratio) / denom, (b - a * ratio) / denom⟩
  else
    let ratio := c / d
    let denom := c * ratio + d
    ⟨(a * ratio + b) / denom, (b * ratio - a) / denom⟩

def div (z w : Complex) : Except EvalError Complex :=
  if w.isZero then fail (.zeroDivision .complexDivision) else .ok (z.quotient w)

/-- `acc * base ^ n` by repeated squaring. -/
def powNatLoop (acc base : Complex) (n : Nat) : Complex :=
  if h : n = 0 then acc
  else powNatLoop (if n % 2 = 1 then acc.mul base else acc) (base.mul base) (n / 2)
termination_by n
decreasing_by omega

def powInt (z : Complex) (n : Int) : Except EvalError Complex :=
  let result := powNatLoop one z n.natAbs
  if 0 ≤ n then .ok result
  else if result.isZero then fail (.zeroDivision .complexPower)
  else .ok (one.quotient result)

/-- A power through length and angle. -/
def powPolar (z exponent : Complex) : Except EvalError Complex :=
  if exponent.isZero then .ok one
  else if z.isZero then
    if exponent.im != 0.0 || exponent.re < 0.0 then fail (.zeroDivision .complexPower)
    else .ok zero
  else
    let modulus := z.abs
    let angle := Float.atan2 z.im z.re
    let length := Float.pow modulus exponent.re
    let phase := angle * exponent.re
    let (length, phase) :=
      if exponent.im != 0.0 then
        (length / (angle * exponent.im).exp, phase + exponent.im * modulus.log)
      else (length, phase)
    .ok ⟨length * phase.cos, length * phase.sin⟩

/-- Largest integral exponent taken as a product. -/
def productLimit : Float := 100.0

/-- The integer an exponent is, if it is a small one. -/
def smallInt? (exponent : Complex) : Option Int :=
  if exponent.im == 0.0 && Binary64.isWhole exponent.re && exponent.re.abs ≤ productLimit then
    Binary64.toInt? exponent.re
  else none

/-- A power of finite numbers has to be finite. -/
def pow (z exponent : Complex) : Except EvalError Complex := do
  let result ← match smallInt? exponent with
    | some n => z.powInt n
    | none => z.powPolar exponent
  if z.isFinite && exponent.isFinite && !result.isFinite then fail (.overflow .complexPower)
  else return result

end Complex
end CseMachine
