import CseMachine.Decimal
import CseMachine.Lexeme
import CseMachine.Parse.Error
import CseMachine.Text.Quoted

/-!
From lexemes to tokens. A line that holds a token ends in one newline token,
except inside brackets. Where its first token stands further right than the
innermost open level an indent opens a level, and where it stands further left
dedents close levels until one of that width is found.
-/
namespace CseMachine

namespace Token

/-- The value of a digit in bases up to sixteen. -/
def digitOf? (c : Char) : Option Nat :=
  if c.isDigit then some (c.toNat - '0'.toNat)
  else if 'a' ≤ c ∧ c ≤ 'f' then some (c.toNat - 'a'.toNat + 10)
  else if 'A' ≤ c ∧ c ≤ 'F' then some (c.toNat - 'A'.toNat + 10)
  else none

/-- The number that digits denote in a base; `none` without digits or with one out of range. -/
def ofBase? (base : Nat) (cs : List Char) : Option Nat :=
  if cs.isEmpty then none
  else cs.foldlM (fun n c => (digitOf? c).bind fun d => if d < base then some (base * n + d) else none) 0

def withoutUnderscores (cs : List Char) : List Char := cs.filter (· ≠ '_')

/-- An integer literal from its digits, underscores among them. -/
def ofDigits (base : Nat) (cs : List Char) (span : Span) : Except ParseError Kind :=
  match ofBase? base (withoutUnderscores cs) with
  | some n => .ok (.int n)
  | none => .error ⟨.invalidNumber (String.ofList cs), span⟩

/-- The double that a decimal literal denotes. -/
def doubleOf (cs : List Char) (span : Span) : Except ParseError Float :=
  match Decimal.read? (withoutUnderscores cs) with
  | some d => .ok (d.toFloat false)
  | none => .error ⟨.invalidNumber (String.ofList cs), span⟩

def ofWord (word : String) : Kind :=
  match Keyword.ofText? word with
  | some k => .keyword k
  | none => .ident word

/-- The token a lexeme stands for; only newlines and what is skipped stand for none. -/
def Kind.ofLexeme (l : Lexeme) : Except ParseError Kind :=
  match l.kind with
  | .decimal => ofDigits 10 l.text l.span
  | .hex => ofDigits 16 (l.text.drop 2) l.span
  | .octal => ofDigits 8 (l.text.drop 2) l.span
  | .binary => ofDigits 2 (l.text.drop 2) l.span
  | .float => (doubleOf l.text l.span).map .float
  | .imag => (doubleOf l.text.dropLast l.span).map .imag
  | .string => .ok (.str (String.ofList (Text.unescape (l.text.drop 1).dropLast)))
  | .openString => .error ⟨.unterminatedString, l.span⟩
  | .word => .ok (ofWord (String.ofList l.text))
  | .symbol s => .ok (.symbol s)
  | .invalid => .error ⟨.invalidCharacter (String.ofList l.text), l.span⟩
  | .skip | .newline => .ok .newline

/-- How far the reading of lines has come. -/
structure Layout where
  /-- Widths of the open levels, innermost first; level zero is always open and not listed. -/
  levels : List Nat := []
  /-- Open brackets, innermost first. -/
  brackets : List (Bracket × Span) := []
  /-- No token has been read on this line. -/
  fresh : Bool := true
  /-- Characters read since the last newline. -/
  column : Nat := 0
  /-- Tokens so far, last first. -/
  tokens : List Token := []

namespace Layout

def emit (s : Layout) (kind : Kind) (span : Span) : Layout :=
  { s with tokens := ⟨kind, span⟩ :: s.tokens }

/-- Indents or dedents in front of the first token of a line, which stands at `span`. -/
def enterLine (s : Layout) (span : Span) : Except ParseError Layout :=
  let here := Span.point span.start
  if s.levels.headD 0 < s.column then
    .ok { s.emit .indent here with levels := s.column :: s.levels, fresh := false }
  else
    let kept := s.levels.dropWhile (s.column < ·)
    let closed := s.levels.length - kept.length
    if kept.headD 0 = s.column then
      .ok { s with
        levels := kept
        fresh := false
        tokens := List.replicate closed ⟨.dedent, here⟩ ++ s.tokens }
    else .error ⟨.inconsistentDedent, span⟩

/-- Opening brackets are remembered; a closing one must match the innermost. -/
def bracket (s : Layout) (sign : Symbol) (span : Span) : Except ParseError Layout :=
  match sign.opens?, sign.closes? with
  | some b, _ => .ok { s with brackets := (b, span) :: s.brackets }
  | none, some b =>
    match s.brackets with
    | (o, _) :: rest => if o = b then .ok { s with brackets := rest } else .error ⟨.unmatched b, span⟩
    | [] => .error ⟨.unmatched b, span⟩
  | none, none => .ok s

/-- A newline ends the line unless a bracket is open or nothing stood on it. -/
def endLine (s : Layout) (span : Span) : Layout :=
  if s.brackets.isEmpty then
    { (if s.fresh then s else s.emit .newline span) with fresh := true, column := 0 }
  else { s with column := 0 }

/-- Read one lexeme that stands for a token. -/
def token (s : Layout) (l : Lexeme) : Except ParseError Layout := do
  let s ← if s.fresh then s.enterLine l.span else .ok s
  let s ← match l.kind with
    | .symbol sign => s.bracket sign l.span
    | _ => .ok s
  let kind ← Kind.ofLexeme l
  .ok { s.emit kind l.span with column := s.column + l.text.length }

def step (s : Layout) (l : Lexeme) : Except ParseError Layout :=
  match l.kind with
  | .invalid => .error ⟨.invalidCharacter (String.ofList l.text), l.span⟩
  | .newline => .ok (s.endLine l.span)
  | .skip => .ok { s with column := s.column + l.text.length }
  | _ => s.token l

/-- The tokens of a whole source whose last byte is at `stop`: open lines and levels are closed. -/
def finish (s : Layout) (stop : Nat) : Except ParseError (List Token) :=
  match s.brackets with
  | (b, span) :: _ => .error ⟨.unclosed b, span⟩
  | [] =>
    let here := Span.point stop
    let s := if s.fresh then s else s.emit .newline here
    .ok (s.tokens.reverse ++ List.replicate s.levels.length ⟨.dedent, here⟩ ++ [⟨.eof, here⟩])

end Layout
end Token

/-- The tokens of a source; the last one marks its end. -/
def lex (source : String) : Except ParseError (List Token) := do
  let chars := source.toList
  let s ← (Lexeme.scan 0 chars).foldlM Token.Layout.step {}
  s.finish (Text.bytes chars)

end CseMachine
