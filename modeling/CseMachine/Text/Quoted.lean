/-!
String literals. `quote` writes a text as a literal and `unescape` reads the
inside of one. The reader knows seven escapes and keeps the backslash of any
other, so it undoes the writer on texts without unusual control characters.
-/
namespace CseMachine.Text

/-- Two lower-case hexadecimal digits of a number below 256. -/
def hex2 (n : Nat) : List Char := [Nat.digitChar (n / 16 % 16), Nat.digitChar (n % 16)]

/-- The quote a text is written in: single, unless the text has a single one and no double one. -/
def quoteFor (cs : List Char) : Char :=
  if cs.contains '\'' && !cs.contains '"' then '"' else '\''

/-- How a character is written inside quotes of the given kind. -/
def escapeChar (quote c : Char) : List Char :=
  if c = '\\' then ['\\', '\\']
  else if c = '\n' then ['\\', 'n']
  else if c = '\t' then ['\\', 't']
  else if c = '\r' then ['\\', 'r']
  else if c = quote then ['\\', c]
  else if c.toNat < 32 ∨ c.toNat = 127 then '\\' :: 'x' :: hex2 c.toNat
  else [c]

/-- A text as a literal. -/
def quote (text : String) : String :=
  let cs := text.toList
  let q := quoteFor cs
  String.ofList (q :: cs.flatMap (escapeChar q) ++ [q])

/-- The character that an escape stands for. -/
def escapeValue? : Char → Option Char
  | 'n' => some '\n'
  | 't' => some '\t'
  | 'r' => some '\r'
  | '0' => some '\x00'
  | '\\' => some '\\'
  | '\'' => some '\''
  | '"' => some '"'
  | _ => none

/-- The text that the inside of a literal denotes. -/
def unescape : List Char → List Char
  | [] => []
  | ['\\'] => ['\\']
  | '\\' :: c :: rest =>
    match escapeValue? c with
    | some v => v :: unescape rest
    | none => '\\' :: c :: unescape rest
  | c :: rest => c :: unescape rest

end CseMachine.Text
