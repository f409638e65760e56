import CseMachine.Text.Bytes
import CseMachine.Token

/-!
Lexemes: a source cut into pieces. At each place the longest piece that some
rule accepts is taken, the first rule winning among equals; where no rule
accepts anything, one character is taken and marked invalid. The pieces laid
end to end are the source.
-/
namespace CseMachine

namespace Lexeme

inductive Kind where
  /-- Blanks, comments and joined lines. -/
  | skip
  | newline
  | word
  | decimal
  | hex
  | octal
  | binary
  | float
  | imag
  | string
  /-- A string that its line does not close. -/
  | openString
  | symbol (sign : Symbol)
  | invalid
  deriving DecidableEq, Repr

/-! Each rule gives the length of the longest piece it accepts; zero is no piece. -/

/-- Length of the longest piece made of the given characters. -/
def runLength (p : Char → Bool) (cs : List Char) : Nat := (cs.takeWhile p).length

def isBlank (c : Char) : Bool := c = ' ' || c = '\t' || c = '\x0c' || c = '\r'

def blank : List Char → Nat := runLength isBlank

def comment : List Char → Nat
  | '#' :: rest => 1 + runLength (· ≠ '\n') rest
  | _ => 0

/-- A backslash at the end of a line. -/
def joined : List Char → Nat
  | '\\' :: '\n' :: _ => 2
  | '\\' :: '\r' :: '\n' :: _ => 3
  | _ => 0

def newline : List Char → Nat
  | '\n' :: _ => 1
  | _ => 0

def isWordStart (c : Char) : Bool := c.isAlpha || c = '_'

def isWordPart (c : Char) : Bool := c.isAlphanum || c = '_'

def word : List Char → Nat
  | c :: rest => if isWordStart c then 1 + runLength isWordPart rest else 0
  | [] => 0

def isDigitPart (c : Char) : Bool := c.isDigit || c = '_'

/-- A digit, then digits and underscores. -/
def decimal : List Char → Nat
  | c :: rest => if c.isDigit then 1 + runLength isDigitPart rest else 0
  | [] => 0

/-- A zero, one of two letters, then at least one of the given characters. -/
def marked (low high : Char) (p : Char → Bool) : List Char → Nat
  | '0' :: c :: rest =>
    let n := runLength p rest
    if (c = low ∨ c = high) ∧ 0 < n then 2 + n else 0
  | _ => 0

def isHexPart (c : Char) : Bool :=
  isDigitPart c || ('a' ≤ c && c ≤ 'f') || ('A' ≤ c && c ≤ 'F')

def hex : List Char → Nat := marked 'x' 'X' isHexPart

def octal : List Char → Nat := marked 'o' 'O' isDigitPart

def binary : List Char → Nat := marked 'b' 'B' isDigitPart

/-- An exponent with its mark, an optional sign and at least one digit. -/
def exponent : List Char → Nat
  | c :: rest =>
    let sign := match rest with
      | '+' :: _ | '-' :: _ => 1
      | _ => 0
    let n := runLength Char.isDigit (rest.drop sign)
    if (c = 'e' ∨ c = 'E') ∧ 0 < n then 1 + sign + n else 0
  | [] => 0

/-- Digits with a point, an exponent, or both. -/
def float (cs : List Char) : Nat :=
  let n := decimal cs
  match cs.drop n with
  | '.' :: rest =>
    let m := if n = 0 then decimal rest else runLength isDigitPart rest
    if n = 0 ∧ m = 0 then 0 else n + 1 + m + exponent (rest.drop m)
  | rest =>
    let x := exponent rest
    if 0 < n ∧ 0 < x then n + x else 0

/-- A number with the mark of the imaginary unit behind it. -/
def imag (cs : List Char) : Nat :=
  let n := max (float cs) (decimal cs)
  match cs.drop n with
  | c :: _ => if 0 < n ∧ (c = 'j' ∨ c = 'J') then n + 1 else 0
  | [] => 0

/-- Characters up to the quote, the end of the line, or a backslash with nothing to escape. -/
def stringBody (quote : Char) : List Char → Nat
  | '\\' :: c :: rest => if c = '\n' then 0 else 2 + stringBody quote rest
  | ['\\'] => 0
  | c :: rest => if c = quote ∨ c = '\n' then 0 else 1 + stringBody quote rest
  | [] => 0

/-- A string without its closing quote. -/
def openString : List Char → Nat
  | c :: rest => if c = '"' ∨ c = '\'' then 1 + stringBody c rest else 0
  | [] => 0

def string (cs : List Char) : Nat :=
  let n := openString cs
  match cs, cs.drop n with
  | c :: _, d :: _ => if 0 < n ∧ c = d then n + 1 else 0
  | _, _ => 0

def symbol (s : Symbol) (cs : List Char) : Nat :=
  if s.text.toList.isPrefixOf cs then s.text.length else 0

/-- All rules in order of preference. -/
def rules : List (Kind × (List Char → Nat)) :=
  [(.skip, blank), (.skip, comment), (.skip, joined), (.newline, newline), (.word, word),
   (.decimal, decimal), (.hex, hex), (.octal, octal), (.binary, binary), (.float, float),
   (.imag, imag), (.string, string), (.openString, openString)] ++
  Symbol.all.map fun s => (.symbol s, symbol s)

/-- The rule with the longest piece and that length; no rule and zero if none accepts anything. -/
def longest (cs : List Char) : Kind × Nat :=
  rules.foldl (fun best rule => let n := rule.2 cs; if best.2 < n then (rule.1, n) else best)
    (.invalid, 0)

end Lexeme

structure Lexeme where
  kind : Lexeme.Kind
  text : List Char
  span : Span

namespace Lexeme

/-- The lexemes of a source from a byte offset on. -/
def scan (offset : Nat) : List Char → List Lexeme
  | [] => []
  | c :: rest =>
    let (kind, n) := longest (c :: rest)
    let text := (c :: rest).take (max 1 n)
    let stop := offset + Text.bytes text
    ⟨kind, text, ⟨offset, stop⟩⟩ :: scan stop ((c :: rest).drop (max 1 n))
termination_by cs => cs.length
decreasing_by
  simp only [List.length_drop, List.length_cons]
  omega

/-- The pieces are the source. -/
theorem scan_text (offset : Nat) (cs : List Char) : (scan offset cs).flatMap (·.text) = cs := by
  fun_induction scan offset cs with
  | case1 => simp
  | case2 offset c rest kind n hl text stop ih => simp [ih, text]

end Lexeme
end CseMachine
