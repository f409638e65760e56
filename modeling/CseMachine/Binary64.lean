/-!
Doubles as exact dyadic numbers. A double is taken apart into a sign, a
mantissa and a power of two, and an exact quotient is put together into the
nearest double. Whatever is exact in the reals (comparison with an integer,
truncation, remainder) is computed on the parts and never on rounded values.
-/
namespace CseMachine.Binary64

/-- What a double denotes; a finite one is `± mantissa * 2 ^ exponent`. -/
inductive Parts where
  | nan
  | inf (negative : Bool)
  | finite (negative : Bool) (mantissa : Nat) (exponent : Int)
  deriving DecidableEq, Repr

/-- The sign bit. -/
def isNegative (x : Float) : Bool := x.toBits.toNat ≥ Nat.pow 2 63

def parts (x : Float) : Parts :=
  let bits := x.toBits.toNat
  let fraction := bits % Nat.pow 2 52
  let field : Nat := bits / Nat.pow 2 52 % Nat.pow 2 11
  if field = 2047 then
    if fraction = 0 then .inf (isNegative x) else .nan
  else if field = 0 then .finite (isNegative x) fraction (-1074)
  else .finite (isNegative x) (fraction + Nat.pow 2 52) ((field : Int) - 1075)

/-- The integer nearest to `num / den`, a half going to the even one. -/
def roundDiv (num den : Nat) : Nat :=
  let q := num / den
  let twice := 2 * (num % den)
  if den < twice ∨ (twice = den ∧ q % 2 = 1) then q + 1 else q

/-- Numerator and denominator of `num / den / 2 ^ e`. -/
def unscale (num den : Nat) (e : Int) : Nat × Nat :=
  if 0 ≤ e then (num, den * Nat.pow 2 e.toNat) else (num * Nat.pow 2 (-e).toNat, den)

/-- The place of the last bit kept when `num / den` is rounded to a double. -/
def lastPlace (num den : Nat) : Int :=
  let low : Int := (num.log2 : Int) - den.log2 - 53
  let (n, d) := unscale num den (low + 53)
  max (-1074) (if d ≤ n then low + 1 else low)

/-- Bits of the double nearest to `num / den`, ties to even, as if exponents had no upper bound. -/
def nearestBits (num den : Nat) : Nat :=
  if num = 0 then 0
  else
    let e := lastPlace num den
    let (n, d) := unscale num den e
    (e + 1074).toNat * Nat.pow 2 52 + roundDiv n d

/-- Bits of positive infinity. -/
def infBits : Nat := 2047 * Nat.pow 2 52

def ofSignBits (negative : Bool) (bits : Nat) : Float :=
  Float.ofBits (UInt64.ofNat ((if negative then Nat.pow 2 63 else 0) + bits))

def inf (negative : Bool) : Float := ofSignBits negative infBits

def nan : Float := 0.0 / 0.0

/-- The double nearest to `± num / den`, or `none` if that is out of range. -/
def nearest? (negative : Bool) (num den : Nat) : Option Float :=
  let bits := nearestBits num den
  if bits < infBits then some (ofSignBits negative bits) else none

/-- As `nearest?`, with infinity for what is out of range. -/
def nearest (negative : Bool) (num den : Nat) : Float :=
  (nearest? negative num den).getD (inf negative)

/-- Bits of one of the words an integer is stored in. -/
def wordBits : Nat := 64

/-- One of the `count` lowest words has a bit set among its `width` lowest. -/
def anyLowBit (width : Nat) : Nat → Nat → Bool
  | 0, _ => false
  | count + 1, n => n % Nat.pow 2 width != 0 || anyLowBit width count (n / Nat.pow 2 wordBits)

/-- The leading bits of an integer, one word full of them, with a sticky last bit. Of each word
below the leading one only the lowest bits make it stick, as many as the leading word has. -/
def leadingBits (n : Nat) : Nat :=
  let kept := n / Nat.pow 2 (n.log2 - (wordBits - 1))
  if anyLowBit (n.log2 % wordBits + 1) (n.log2 / wordBits) n then kept ||| 1 else kept

/-- An integer of one word keeps all its bits. -/
theorem leadingBits_of_lt {n : Nat} (h : n < Nat.pow 2 wordBits) : leadingBits n = n := by
  rcases Nat.eq_zero_or_pos n with rfl | hn
  · rfl
  · have hlog : n.log2 < wordBits := (Nat.log2_lt (by omega)).2 h
    have hrest : n.log2 - (wordBits - 1) = 0 := by omega
    simp [leadingBits, hrest, Nat.div_eq_of_lt hlog, anyLowBit]

/-- The double nearest to the leading bits of an integer, or `none` if it is out of range. -/
def ofInt? (i : Int) : Option Float :=
  let n := i.natAbs
  if n.log2 < 1024 then
    nearest? (decide (i < 0)) (leadingBits n * Nat.pow 2 (n.log2 - (wordBits - 1))) 1
  else none

/-- `± mantissa * 2 ^ exponent`. -/
def ofDyadic (negative : Bool) (mantissa : Nat) (exponent : Int) : Float :=
  if 0 ≤ exponent then nearest negative (mantissa * Nat.pow 2 exponent.toNat) 1
  else nearest negative mantissa (Nat.pow 2 (-exponent).toNat)

def signed (negative : Bool) (n : Nat) : Int := if negative then -n else n

/-- Order of two doubles; a NaN has no order. -/
def compareFloat (x y : Float) : Option Ordering :=
  if x < y then some .lt else if y < x then some .gt else if x == y then some .eq else none

/-- Magnitude rounded to an integer by `round`, which gets numerator and denominator. -/
def roundWith (round : Bool → Nat → Nat → Nat) (x : Float) : Float :=
  match parts x with
  | .finite negative m e =>
    if 0 ≤ e then x else nearest negative (round negative m (Nat.pow 2 (-e).toNat)) 1
  | _ => x

def ceilDiv (num den : Nat) : Nat := (num + den - 1) / den

def floor : Float → Float :=
  roundWith fun negative num den => if negative then ceilDiv num den else num / den

def ceil : Float → Float :=
  roundWith fun negative num den => if negative then num / den else ceilDiv num den

def trunc : Float → Float := roundWith fun _ num den => num / den

/-- Nearest whole double, a half going to the even one. -/
def roundEven : Float → Float := roundWith fun _ => roundDiv

/-- A finite double without fractional part. -/
def isWhole (x : Float) : Bool := x.isFinite && trunc x == x

/-- The integer part of a finite double. -/
def toInt? (x : Float) : Option Int :=
  match parts x with
  | .finite negative m e =>
    some (signed negative (if 0 ≤ e then m * Nat.pow 2 e.toNat else m / Nat.pow 2 (-e).toNat))
  | _ => none

/-- What the integer part leaves of a finite double. -/
def fract (x : Float) : Float := x - trunc x

/-- Up to this all integers are doubles. -/
def maxSafe : Nat := Nat.pow 2 53 - 1

def sign (x : Float) : Int := if 0.0 < x then 1 else if x < 0.0 then -1 else 0

/-- The decimal digits of the integer part of a finite double. -/
def wholeDigits (x : Float) : String := toString ((toInt? x).getD 0).natAbs

/-- Order of an integer and a finite double, neither negative, by the number of their digits, the
digits and at last by what the double has behind the point. -/
def compareDigits (n : Nat) (x : Float) : Ordering :=
  let digits := toString n
  let whole := wholeDigits x
  ((compare digits.length whole.length).then (compare digits whole)).then
    (if 0.0 < fract x then .lt else .eq)

/-- Order of an integer and a double; a NaN has no order. The integer is never rounded: a small one is
compared as a double and a large one by its digits. -/
def compareInt (i : Int) (x : Float) : Option Ordering :=
  if x.isNaN then none
  else if x == inf false then some .lt
  else if x == inf true then some .gt
  else if i.sign ≠ sign x then some (compare i.sign (sign x))
  else if i = 0 then some .eq
  else
    let magnitude :=
      if i.natAbs ≤ maxSafe then compareFloat (UInt64.ofNat i.natAbs).toFloat x.abs
      else some (compareDigits i.natAbs x.abs)
    magnitude.map fun order => if i < 0 then order.swap else order

/-- Magnitude of the first with the sign of the second. -/
def copySign (x y : Float) : Float := if isNegative y then -x.abs else x.abs

/-- The exact remainder of the division that truncates; it has the sign of the dividend. -/
def remainder (x y : Float) : Float :=
  match parts x, parts y with
  | .finite _ _ _, .inf _ => x
  | .finite negative m e, .finite _ m' e' =>
    if m' = 0 then nan
    else
      let low := min e e'
      let a := m * Nat.pow 2 (e - low).toNat
      let b := m' * Nat.pow 2 (e' - low).toNat
      ofDyadic negative (a % b) low
  | _, _ => nan

/-- Quotient rounded down and remainder with the sign of the divisor, which is not zero. -/
def divMod (a b : Float) : Float × Float :=
  let r := remainder a b
  let q := (a - r) / b
  let (q, r) :=
    if r == 0.0 then (q, copySign 0.0 b)
    else if (b < 0.0) != (r < 0.0) then (q - 1.0, r + b)
    else (q, r)
  if q == 0.0 then (copySign 0.0 (a / b), r)
  else
    let f := floor q
    (if q - f > 0.5 then f + 1.0 else f, r)

/-- `acc * base ^ n` by repeated squaring in doubles. -/
def powNatLoop (acc base : Float) (n : Nat) : Float :=
  if h : n = 0 then acc
  else
    let acc := if n % 2 = 1 then acc * base else acc
    if n / 2 = 0 then acc else powNatLoop acc (base * base) (n / 2)
termination_by n
decreasing_by omega

def powNat (base : Float) (n : Nat) : Float := powNatLoop 1.0 base n

/-- Length of the longer leg's square root with the error of one squaring step taken out. -/
def hypotKernel (a b : Float) : Float :=
  let h := (a * a + b * b).sqrt
  if h ≤ 2.0 * b then
    let delta := h - b
    let t₁ := a * (2.0 * delta - a)
    let t₂ := (delta - 2.0 * (a - b)) * delta
    h - (t₁ + t₂) / (2.0 * h)
  else
    let delta := h - a
    let t₁ := 2.0 * delta * (a - 2.0 * b)
    let t₂ := (4.0 * delta - b) * b + delta * delta
    h - (t₁ + t₂) / (2.0 * h)

/-- `sqrt (x * x + y * y)` without overflow or underflow in between. -/
def hypot (x y : Float) : Float :=
  if x.isInf || y.isInf then inf false
  else if x.isNaN || y.isNaN then nan
  else
    let (x, y) := (x.abs, y.abs)
    let (a, b) := if x < y then (y, x) else (x, y)
    let eps := ofDyadic false 1 (-54)
    let scale := ofDyadic false 1 (-600)
    if ofDyadic false 1 511 < a then
      if b ≤ a * eps then a + b else hypotKernel (a * scale) (b * scale) / scale
    else if b < ofDyadic false 1 (-459) then
      if b / eps ≤ a then a + b else hypotKernel (a / scale) (b / scale) * scale
    else if b ≤ a * eps then a + b
    else hypotKernel a b

end CseMachine.Binary64
