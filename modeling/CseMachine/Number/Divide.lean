import CseMachine.Binary64
import CseMachine.EvalError

/-!
True division of integers, rounded once. Doubles of the operands could be out of
range where the quotient is not, and their quotient would be rounded a second time.
Therefore the quotient is computed as an integer with bits to spare, which are
rounded off at the precision of the result and tell which way, and then scaled.
-/
namespace CseMachine.Number

def mantissaBits : Int := 53

/-- The least `e` for which `2 ^ (e - 1)` is a normal double. -/
def minExponent : Int := -1021

def maxExponent : Int := 1024

def bitLength (n : Nat) : Int := if n = 0 then 0 else n.log2 + 1

/-- The double of an integer that has no more bits than a double keeps. -/
def exactDouble? (n : Nat) : Option Float :=
  if bitLength n ≤ mantissaBits then Binary64.ofInt? n else none

/-! Arithmetic on words of 64 bits, which has to stay within a word -/

/-- A shift of a word by less than its length. Bits that are shifted out of it are lost. -/
def shiftWord (shift : Nat → Nat → Nat) (x k : Nat) : Except EvalError Nat :=
  if k < Binary64.wordBits then .ok (shift x k % Nat.pow 2 Binary64.wordBits) else fail (.internal .wordRange)

def subWord (x y : Nat) : Except EvalError Nat :=
  if y ≤ x then .ok (x - y) else fail (.internal .wordRange)

def addWord (x y : Nat) : Except EvalError Nat :=
  if x + y < Nat.pow 2 Binary64.wordBits then .ok (x + y) else fail (.internal .wordRange)

/-- A word without its `extra` lowest bits, rounded to the nearest and a half to the even one. If it is
inexact, there is something below its last bit. -/
def roundWord (x extra : Nat) (inexact : Bool) : Except EvalError Nat := do
  let half ← shiftWord (· <<< ·) 1 (← subWord extra 1)
  let low := x &&& (← subWord (← shiftWord (· <<< ·) 1 extra) 1)
  let kept ← shiftWord (· >>> ·) x extra
  if half < low || low == half && (inexact || kept &&& 1 == 1) then addWord kept 1 else return kept

/-! Scaling -/

/-- `2 ^ e` for `e` from -1022 to 1023. -/
def pow2 (e : Int) : Float := Float.ofBits (UInt64.ofNat ((e + 1023).toNat <<< 52))

/-- Factors are at most `2 ^ maxStep`, to be doubles. -/
def maxStep : Int := 512

/-- `x * 2 ^ e`, exact unless it is out of range. -/
def scale (x : Float) (e : Int) : Float :=
  if e = 0 then x
  else
    let step := max (-maxStep) (min e maxStep)
    scale (x * pow2 step) (e - step)
termination_by e.natAbs
decreasing_by simp only [maxStep]; omega

/-! Division -/

/-- A width by which an integer is shifted. -/
def shiftWidth (k : Int) : Except EvalError Nat :=
  if 0 ≤ k ∧ k < Nat.pow 2 Binary64.wordBits then .ok k.toNat else fail (.internal .shiftRange)

/-- The number of bits that are rounded off. -/
def roundingWidth (k : Int) : Except EvalError Nat :=
  if 0 ≤ k ∧ k < Nat.pow 2 32 then .ok k.toNat else fail (.internal .negativeRounding)

/-- Numerator and denominator of `n / d / 2 ^ shift`. -/
def shiftQuotient (n d : Nat) (shift : Int) : Except EvalError (Nat × Nat) := do
  if shift < 0 then return (n <<< (← shiftWidth (-shift)), d) else return (n, d <<< (← shiftWidth shift))

/-- The double nearest to the quotient of two positive integers. -/
def longQuotient (n d : Nat) : Except EvalError Float := do
  -- The quotient is above `2 ^ (diff - 1)` and below `2 ^ (diff + 1)`.
  let diff := bitLength n - bitLength d
  if maxExponent + 1 < diff then fail (.overflow .intDivision)
  else if diff < minExponent - mantissaBits - 2 then return 0.0
  else
    let shift := max diff minExponent - mantissaBits - 2
    let (n, d) ← shiftQuotient n d shift
    let x := n / d
    let inexact := n % d != 0
    if Nat.pow 2 Binary64.wordBits ≤ x then fail (.internal .longQuotient)
    else
      let extra ← roundingWidth (max (bitLength x) (minExponent - shift) - mantissaBits)
      let kept ← roundWord x extra inexact
      let q := scale (UInt64.ofNat kept).toFloat (shift + extra)
      if q.isInf then fail (.overflow .intDivision) else return q

/-- The double nearest to the exact quotient. Its sign bit tells whether the operands have
opposite signs, zero counting as non-negative. -/
def intDiv (a b : Int) : Except EvalError Float :=
  if b = 0 then fail (.zeroDivision .intDivision)
  else
    let signed (q : Float) : Float := if decide (a < 0) != decide (b < 0) then -q else q
    if a = 0 then .ok (signed 0.0)
    else
      match exactDouble? a.natAbs, exactDouble? b.natAbs with
      -- Doubles of short operands are exact, so their quotient is rounded once.
      | some x, some y => .ok (signed (x / y))
      | _, _ => signed <$> longQuotient a.natAbs b.natAbs

end CseMachine.Number
