import CseMachine.Decimal
import CseMachine.Number

/-!
Rounding to a number of decimal places, halves going to the even neighbour.
A negative number of places rounds to a power of ten.
-/
namespace CseMachine.Number

/-- Above this many digits an integer is rounded to zero. -/
def maxIntPlaces : Nat := Nat.pow 2 32

/-- The multiple of `unit` nearest to a value. -/
def roundToMultiple (value : Int) (unit : Nat) : Int :=
  let quotient := Int.fdiv value unit
  let twice := 2 * Int.fmod value unit
  let rounded := if unit < twice ∨ (twice = unit ∧ quotient % 2 = 1) then quotient + 1 else quotient
  rounded * unit

/-- An integer rounded to `places` decimal places; it has none, so only negative ones matter. -/
def roundInt (value places : Int) : Int :=
  if 0 ≤ places then value
  else if maxIntPlaces ≤ places.natAbs then 0
  else roundToMultiple value (Nat.pow 10 places.natAbs)

/-- From this many places on no double changes. -/
def maxFloatPlaces : Int := 330

/-- A finite double rounded to a power of ten above one, with every operation in doubles. -/
def roundToPower (x : Float) (power : Nat) : Float :=
  let scale := Binary64.powNat 10.0 power
  Binary64.roundEven (x / scale) * scale

def roundFloat (x : Float) (places : Int) : Float :=
  if !x.isFinite then x
  else if maxFloatPlaces < places then x
  else if 0 ≤ places then Decimal.roundPlaces x places.toNat
  else if -maxFloatPlaces < places then roundToPower x places.natAbs
  else Binary64.copySign 0.0 x

end CseMachine.Number
