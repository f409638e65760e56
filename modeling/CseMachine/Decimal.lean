import CseMachine.Binary64

/-!
Decimal text of doubles, both ways. Writing takes the fewest digits that read
back as the same double, and of these the nearest. Reading rounds the exact
decimal once, to the nearest double with ties to even.
-/
namespace CseMachine

/-- The number `digits * 10 ^ exponent`. -/
structure Decimal where
  digits : Nat
  exponent : Int
  deriving DecidableEq, Repr

namespace Decimal

/-- Number of decimal digits; zero has one. -/
def width (n : Nat) : Nat := (Nat.toDigits 10 n).length

/-- The `x` with `10 ^ x ≤ num / den < 10 ^ (x + 1)`, for a positive quotient. -/
def order (num den : Nat) : Int :=
  if den ≤ num then (width (num / den) : Int) - 1
  else -(width ((den + num - 1) / num - 1) : Int)

/-- The same number without trailing zero digits. -/
def strip (d : Decimal) : Decimal :=
  if d.digits = 0 then d
  else if d.digits % 10 = 0 then strip ⟨d.digits / 10, d.exponent + 1⟩
  else d
termination_by d.digits
decreasing_by omega

/-- A quarter of the last place `2 ^ e`, as a fraction of `10 ^ k`. -/
def quarter (e k : Int) : Nat × Nat :=
  (Nat.pow 2 (e - 2).toNat * Nat.pow 10 (-k).toNat, Nat.pow 2 (2 - e).toNat * Nat.pow 10 k.toNat)

/-- Quarters of the last place from zero to the lower end of what rounds to `m * 2 ^ e`;
below a power of two the next double is only half as far. -/
def lowerQuarters (m : Nat) (e : Int) : Nat :=
  if m = Nat.pow 2 52 ∧ -1074 < e then 4 * m - 1 else 4 * m - 2

/-- The multiple of `10 ^ k` that rounds to `m * 2 ^ e` and is nearest to it, the upper of two
equally near; both ends of the interval count exactly if `m` is even. -/
def onGrid? (m : Nat) (e k : Int) : Option Nat :=
  let (u, d) := quarter e k
  let value := 4 * m * u
  let below := value / d
  let slack := if m % 2 = 0 then 0 else 1
  let lowOk : Bool := lowerQuarters m e * u + slack ≤ below * d
  let highOk : Bool := (below + 1) * d + slack ≤ (4 * m + 2) * u
  match lowOk, highOk with
  | true, true => some (if 2 * (value - below * d) < d then below else below + 1)
  | true, false => some below
  | false, true => some (below + 1)
  | false, false => none

/-- Most digits a double ever needs. -/
def maxDigits : Nat := 17

/-- The fewest digits that read back as the positive double `m * 2 ^ e`. -/
def shortest (m : Nat) (e : Int) : Decimal :=
  let top := order (m * Nat.pow 2 e.toNat) (Nat.pow 2 (-e).toNat)
  let found := (List.range maxDigits).findSome? fun (i : Nat) =>
    (onGrid? m e (top - i)).map fun d => Decimal.mk d (top - i)
  strip (found.getD ⟨m, e⟩)

/-- Decisions of a text format for doubles. -/
structure Style where
  nan : String
  /-- Text after the mark `e`. -/
  exponent : Int → String
  /-- Written after a whole number in positional form. -/
  whole : String

def zeros (n : Nat) : String := String.ofList (List.replicate n '0')

/-- Digits with the point put in. -/
def positional (whole digits : String) (exponent : Int) : String :=
  if 0 ≤ exponent then digits ++ zeros exponent.toNat ++ whole
  else
    let places := (-exponent).toNat
    if places < digits.length then
      let cs := digits.toList
      String.ofList (cs.take (digits.length - places)) ++ "." ++
        String.ofList (cs.drop (digits.length - places))
    else "0." ++ zeros (places - digits.length) ++ digits

/-- One digit, the rest behind the point, and the exponent. -/
def scientific (style : Style) (digits : String) (exponent : Int) : String :=
  let cs := digits.toList
  let fraction := cs.drop 1
  let point := if fraction.isEmpty then "" else "."
  String.ofList (cs.take 1) ++ point ++ String.ofList fraction ++ "e" ++ style.exponent exponent

/-- Text of a positive decimal: positional from `10 ^ -4` up to `10 ^ 16`. -/
def write (style : Style) (d : Decimal) : String :=
  let digits := toString d.digits
  let top := d.exponent + digits.length - 1
  if -4 ≤ top ∧ top < 16 then positional style.whole digits d.exponent
  else scientific style digits top

/-- Text of any double. -/
def ofFloat (style : Style) (x : Float) : String :=
  let sign := fun (negative : Bool) => if negative then "-" else ""
  match Binary64.parts x with
  | .nan => style.nan
  | .inf negative => sign negative ++ "inf"
  | .finite negative m e =>
    sign negative ++ (if m = 0 then "0" ++ style.whole else write style (shortest m e))

/-- The double nearest to `± digits * 10 ^ exponent`. What is far out of range is settled by its
order alone, so that no huge power is built. -/
def toFloat (negative : Bool) (d : Decimal) : Float :=
  let top := d.exponent + width d.digits
  if d.digits = 0 ∨ top < -330 then Binary64.ofSignBits negative 0
  else if 310 < top then Binary64.inf negative
  else Binary64.nearest negative (d.digits * Nat.pow 10 d.exponent.toNat) (Nat.pow 10 (-d.exponent).toNat)

def digitValue (c : Char) : Nat := c.toNat - '0'.toNat

def ofDigits (cs : List Char) : Nat := cs.foldl (fun n c => 10 * n + digitValue c) 0

/-- An exponent, mark and sign included; no text at all is exponent zero. -/
def readExponent? : List Char → Option Int
  | [] => some 0
  | c :: rest =>
    if c = 'e' ∨ c = 'E' then
      let (negative, digits) := match rest with
        | '-' :: ds => (true, ds)
        | '+' :: ds => (false, ds)
        | ds => (false, ds)
      if digits.isEmpty || !digits.all Char.isDigit then none
      else some (Binary64.signed negative (ofDigits digits))
    else none

/-- Digits with at most one point and an optional exponent; at least one digit before the mark. -/
def read? (cs : List Char) : Option Decimal :=
  let whole := cs.takeWhile Char.isDigit
  let rest := cs.dropWhile Char.isDigit
  let (fraction, rest) := match rest with
    | '.' :: r => (r.takeWhile Char.isDigit, r.dropWhile Char.isDigit)
    | r => ([], r)
  if whole.isEmpty && fraction.isEmpty then none
  else (readExponent? rest).map fun x => ⟨ofDigits (whole ++ fraction), x - fraction.length⟩

/-- A double rounded to a number of decimal places, a half going to the even last digit. -/
def roundPlaces (x : Float) (places : Nat) : Float :=
  match Binary64.parts x with
  | .finite negative m e =>
    let unit := Nat.pow 10 places
    let scaled := Binary64.roundDiv (m * Nat.pow 2 e.toNat * unit) (Nat.pow 2 (-e).toNat)
    Binary64.nearest negative scaled unit
  | _ => x

end Decimal
end CseMachine
