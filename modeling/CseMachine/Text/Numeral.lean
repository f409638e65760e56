import CseMachine.Decimal
import CseMachine.Text.Blank

/-!
Numbers in texts that a program converts. White space around a numeral is
dropped, and underscores may stand inside it, but neither first, nor last,
nor next to each other.
-/
namespace CseMachine.Text

def isSign (c : Char) : Bool := c = '+' || c = '-'

/-- Two underscores stand next to each other. -/
def hasDoubleUnderscore : List Char → Bool
  | '_' :: '_' :: _ => true
  | _ :: rest => hasDoubleUnderscore rest
  | [] => false

/-- A numeral without its underscores, if they stand where they may. Signs in front are passed
over when the first character is looked for. -/
def dropUnderscores? (cs : List Char) : Option (List Char) :=
  let body := cs.dropWhile isSign
  if body.head? = some '_' || body.getLast? = some '_' || hasDoubleUnderscore body then none
  else some (cs.filter (· ≠ '_'))

/-- Whether a text starts with a minus, and what follows a sign. -/
def splitSign : List Char → Bool × List Char
  | '-' :: rest => (true, rest)
  | '+' :: rest => (false, rest)
  | cs => (false, cs)

/-- The integer a text denotes: an optional sign and digits. -/
def toInt? (text : String) : Option Int := do
  let cs ← dropUnderscores? (trim text.toList)
  let (negative, digits) := splitSign cs
  if digits.isEmpty || !digits.all Char.isDigit then none
  else return Binary64.signed negative (Decimal.ofDigits digits)

/-- The special doubles, by name without regard to case. -/
def specialFloat? (negative : Bool) (cs : List Char) : Option Float :=
  let name := String.ofList (cs.map Char.toLower)
  if name = "inf" || name = "infinity" then some (Binary64.inf negative)
  else if name = "nan" then some Binary64.nan
  else none

/-- The double a text denotes: an optional sign and a decimal numeral or a name. -/
def toFloat? (text : String) : Option Float := do
  let cs ← dropUnderscores? (trim text.toList)
  let (negative, body) := splitSign cs
  specialFloat? negative body <|> (Decimal.read? body).map (Decimal.toFloat negative)

end CseMachine.Text
