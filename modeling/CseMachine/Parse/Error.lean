import CseMachine.Diagnostic
import CseMachine.Token

/-!
What can be wrong with a source. Reading stops at the first error, so there is
at most one; its code, message and hint follow from the cause.
-/
namespace CseMachine

namespace ParseError

inductive Cause where
  | unterminatedString
  | invalidCharacter (text : String)
  | invalidNumber (text : String)
  | inconsistentDedent
  | unclosed (bracket : Bracket)
  | unmatched (bracket : Bracket)
  | unexpectedIndent
  | unexpected (expected : String) (found : Token.Kind)
  | expectedExpression (found : Token.Kind)
  | invalidTarget
  | returnOutsideFunction
  | nonlocalAtTopLevel
  | nonlocalAfterUse (name : String)
  | nonlocalParameter (name : String)
  | duplicateParameter (name : String)
  | restNotLast
  | chainedComparison
  deriving DecidableEq

namespace Cause

def code : Cause → Code
  | .unterminatedString => .unterminatedString
  | .invalidCharacter _ => .invalidCharacter
  | .invalidNumber _ => .invalidNumber
  | .inconsistentDedent => .inconsistentDedent
  | .unclosed _ => .unclosedDelimiter
  | .unmatched _ | .unexpectedIndent | .unexpected .. | .duplicateParameter _ | .restNotLast =>
    .unexpectedToken
  | .expectedExpression _ => .expectedExpression
  | .invalidTarget => .invalidTarget
  | .returnOutsideFunction => .returnOutsideFunction
  | .nonlocalAtTopLevel | .nonlocalAfterUse _ | .nonlocalParameter _ => .misplacedNonlocal
  | .chainedComparison => .chainedComparison

def message : Cause → String
  | .unterminatedString => "unterminated string literal"
  | .invalidCharacter text => s!"invalid character `{text}` in source"
  | .invalidNumber text => s!"invalid number literal `{text}`"
  | .inconsistentDedent => "unindent does not match any outer indentation level"
  | .unclosed b => s!"this `{b.opening}` is never closed"
  | .unmatched b => s!"unmatched `{b.closing}`"
  | .unexpectedIndent => "unexpected indent"
  | .unexpected expected found => s!"expected {expected}, found {found.describe}"
  | .expectedExpression found => s!"expected expression, found {found.describe}"
  | .invalidTarget => "cannot assign to expression"
  | .returnOutsideFunction => "'return' outside function"
  | .nonlocalAtTopLevel => "nonlocal declaration not allowed at module level"
  | .nonlocalAfterUse name => s!"name '{name}' is assigned to before nonlocal declaration"
  | .nonlocalParameter name => s!"name '{name}' is parameter and nonlocal"
  | .duplicateParameter name => s!"duplicate argument '{name}' in function definition"
  | .restNotLast => "a `*` parameter must be the last parameter"
  | .chainedComparison => "chained comparisons are not supported"

def hint? : Cause → Option String
  | .unterminatedString => some "close the string with a matching quote on the same line"
  | .inconsistentDedent => some "indent every line of a block by the same amount"
  | .unclosed b => some s!"add a matching `{b.closing}`"
  | .invalidTarget => some "only variable names can appear on the left of `=`"
  | .nonlocalAfterUse name => some s!"move `nonlocal {name}` to the top of the function"
  | .chainedComparison => some "split the chain with `and`, as in `a < b and b < c`"
  | _ => none

/-- What the label under the offending text says. -/
def label : Cause → String
  | .unclosed _ => "unclosed delimiter"
  | .returnOutsideFunction => "not inside a `def`"
  | .chainedComparison => "second comparison here"
  | _ => "here"

end Cause
end ParseError

structure ParseError where
  cause : ParseError.Cause
  span : Span
  deriving DecidableEq

namespace ParseError

def code (e : ParseError) : Code := e.cause.code

def message (e : ParseError) : String := e.cause.message

def text (e : ParseError) : String := "[" ++ e.code.text ++ "] " ++ e.message

def diagnostic (e : ParseError) : Diagnostic where
  code := e.code
  severity := .error
  message := e.message
  labels := [⟨e.span, e.cause.label, true⟩]
  suggestions := e.cause.hint?.toList

end ParseError
end CseMachine
