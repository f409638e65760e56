import CseMachine.Span

/-!
Tokens: what the parser sees of a source. Words and numbers carry their
values; line structure appears as newline, indent and dedent tokens.
-/
namespace CseMachine

inductive Keyword where
  | def_ | return_ | if_ | elif | else_ | pass | lambda | and | or | not | true | false | none
  | nonlocal
  deriving DecidableEq, Repr

namespace Keyword

def text : Keyword → String
  | .def_ => "def"
  | .return_ => "return"
  | .if_ => "if"
  | .elif => "elif"
  | .else_ => "else"
  | .pass => "pass"
  | .lambda => "lambda"
  | .and => "and"
  | .or => "or"
  | .not => "not"
  | .true => "True"
  | .false => "False"
  | .none => "None"
  | .nonlocal => "nonlocal"

def all : List Keyword :=
  [.def_, .return_, .if_, .elif, .else_, .pass, .lambda, .and, .or, .not, .true, .false, .none,
   .nonlocal]

def ofText? (word : String) : Option Keyword := all.find? (·.text == word)

theorem ofText?_text (k : Keyword) : ofText? k.text = some k := by cases k <;> decide

end Keyword

inductive Symbol where
  | lparen | rparen | lbracket | rbracket | comma | colon
  | assign | plus | minus | star | starStar | slash | slashSlash | percent
  | eqEq | notEq | lt | ltEq | gt | gtEq
  deriving DecidableEq, Repr

namespace Symbol

def text : Symbol → String
  | .lparen => "("
  | .rparen => ")"
  | .lbracket => "["
  | .rbracket => "]"
  | .comma => ","
  | .colon => ":"
  | .assign => "="
  | .plus => "+"
  | .minus => "-"
  | .star => "*"
  | .starStar => "**"
  | .slash => "/"
  | .slashSlash => "//"
  | .percent => "%"
  | .eqEq => "=="
  | .notEq => "!="
  | .lt => "<"
  | .ltEq => "<="
  | .gt => ">"
  | .gtEq => ">="

def all : List Symbol :=
  [.lparen, .rparen, .lbracket, .rbracket, .comma, .colon, .assign, .plus, .minus, .star,
   .starStar, .slash, .slashSlash, .percent, .eqEq, .notEq, .lt, .ltEq, .gt, .gtEq]

end Symbol

/-- The two kinds of bracket. -/
inductive Bracket where
  | round | square
  deriving DecidableEq, Repr

namespace Bracket

def opening : Bracket → String
  | .round => "("
  | .square => "["

def closing : Bracket → String
  | .round => ")"
  | .square => "]"

end Bracket

namespace Symbol

def opens? : Symbol → Option Bracket
  | .lparen => some .round
  | .lbracket => some .square
  | _ => none

def closes? : Symbol → Option Bracket
  | .rparen => some .round
  | .rbracket => some .square
  | _ => none

end Symbol

namespace Token

inductive Kind where
  | int (value : Int)
  | float (value : Float)
  | imag (value : Float)
  | str (value : String)
  | ident (name : String)
  | keyword (word : Keyword)
  | symbol (sign : Symbol)
  | newline
  | indent
  | dedent
  | eof
  deriving DecidableEq

/-- The phrase for a kind of token in messages. -/
def Kind.describe : Kind → String
  | .int _ => "integer literal"
  | .float _ => "float literal"
  | .imag _ => "imaginary literal"
  | .str _ => "string literal"
  | .ident _ => "identifier"
  | .keyword w => "`" ++ w.text ++ "`"
  | .symbol s => "`" ++ s.text ++ "`"
  | .newline => "newline"
  | .indent => "indent"
  | .dedent => "dedent"
  | .eof => "end of file"

end Token

structure Token where
  kind : Token.Kind
  span : Span
  deriving DecidableEq

end CseMachine
