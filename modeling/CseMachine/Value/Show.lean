import CseMachine.Decimal
import CseMachine.Store

/-!
Text of values. `repr` writes strings as literals, `display` leaves a string
as it is; the elements of a list are always written by `repr`. An element is
older than its list, so the number of objects bounds the nesting.
-/
namespace CseMachine

/-- An exponent has a sign and at least two digits, and a whole number keeps its `.0`. -/
def Number.floatStyle : Decimal.Style where
  nan := "nan"
  exponent e := (if e < 0 then "-" else "+") ++
    (if e.natAbs < 10 then "0" else "") ++ toString e.natAbs
  whole := ".0"

/-- As for any double, except that nothing marks a whole number. -/
def Complex.partStyle : Decimal.Style := { Number.floatStyle with whole := "" }

/-- The imaginary part alone after a real part `+0`, both in parentheses otherwise. -/
def Complex.repr (z : Complex) : String :=
  let imag := Decimal.ofFloat partStyle z.im
  if z.re == 0.0 && !Binary64.isNegative z.re then imag ++ "j"
  else
    let sign := if imag.startsWith "-" then "" else "+"
    "(" ++ Decimal.ofFloat partStyle z.re ++ sign ++ imag ++ "j)"

def Number.repr : Number → String
  | .int i => toString i
  | .float x => Decimal.ofFloat floatStyle x
  | .complex z => z.repr

namespace Value

def boolText (b : Bool) : String := if b then "True" else "False"

/-- Text of a value whose lists are nested at most `bound` deep. -/
def reprWithin (store : Store) : Nat → Value → String
  | _, .none => "None"
  | _, .bool b => boolText b
  | _, .number n => n.repr
  | _, .str s => Text.quote s
  | _, .closure id =>
    match store.closure? id with
    | some c => "<function " ++ c.displayName ++ ">"
    | Option.none => "<function>"
  | 0, .list _ => "[]"
  | bound + 1, .list id =>
    "[" ++ ", ".intercalate (((store.list? id).getD []).map (reprWithin store bound)) ++ "]"
  | _, .builtin f => "<built-in function " ++ f.name ++ ">"
  | _, .error e => "Error: " ++ e.message

def repr (store : Store) (v : Value) : String := reprWithin store store.next v

def display (store : Store) : Value → String
  | .str s => s
  | v => v.repr store

end Value
end CseMachine
