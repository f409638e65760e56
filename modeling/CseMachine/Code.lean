import CseMachine.Text.Blank

/-!
Error codes. The first digit names who reports the error: 0 the lexer, 1 the
parser, 6 the running machine, 9 a broken invariant of the machine.
-/
namespace CseMachine

inductive Code where
  | unterminatedString
  | invalidCharacter
  | invalidNumber
  | inconsistentDedent
  | unexpectedToken
  | expectedExpression
  | unclosedDelimiter
  | invalidTarget
  | returnOutsideFunction
  | misplacedNonlocal
  | chainedComparison
  | zeroDivision
  | mathDomain
  | badValue
  | overflow
  | unsupportedOperand
  | concatenation
  | badUnaryOperand
  | notABool
  | ordering
  | builtinArgument
  | badSubscript
  | undefinedVariable
  | unassignedVariable
  | redeclaration
  | constantReassignment
  | indexOutOfRange
  | missingArguments
  | tooManyArguments
  | notCallable
  | userError
  | stepLimit
  | internal
  deriving DecidableEq, Repr

namespace Code

def text : Code → String
  | .unterminatedString => "E0001"
  | .invalidCharacter => "E0002"
  | .invalidNumber => "E0003"
  | .inconsistentDedent => "E0004"
  | .unexpectedToken => "E1001"
  | .expectedExpression => "E1002"
  | .unclosedDelimiter => "E1003"
  | .invalidTarget => "E1004"
  | .returnOutsideFunction => "E1005"
  | .misplacedNonlocal => "E1006"
  | .chainedComparison => "E1007"
  | .zeroDivision => "E6001"
  | .mathDomain => "E6002"
  | .badValue => "E6003"
  | .overflow => "E6004"
  | .unsupportedOperand => "E6010"
  | .concatenation => "E6011"
  | .badUnaryOperand => "E6012"
  | .notABool => "E6013"
  | .ordering => "E6014"
  | .builtinArgument => "E6015"
  | .badSubscript => "E6016"
  | .undefinedVariable => "E6020"
  | .unassignedVariable => "E6021"
  | .redeclaration => "E6022"
  | .constantReassignment => "E6023"
  | .indexOutOfRange => "E6024"
  | .missingArguments => "E6030"
  | .tooManyArguments => "E6031"
  | .notCallable => "E6032"
  | .userError => "E6050"
  | .stepLimit => "E6070"
  | .internal => "E9001"

/-- All codes in ascending order. -/
def all : List Code := [
  .unterminatedString, .invalidCharacter, .invalidNumber, .inconsistentDedent, .unexpectedToken,
  .expectedExpression, .unclosedDelimiter, .invalidTarget, .returnOutsideFunction,
  .misplacedNonlocal, .chainedComparison, .zeroDivision, .mathDomain, .badValue, .overflow,
  .unsupportedOperand, .concatenation, .badUnaryOperand, .notABool, .ordering, .builtinArgument,
  .badSubscript, .undefinedVariable, .unassignedVariable, .redeclaration, .constantReassignment,
  .indexOutOfRange, .missingArguments, .tooManyArguments, .notCallable, .userError, .stepLimit,
  .internal]

/-- The exception class shown in front of the message. -/
def className? : Code → Option String
  | .zeroDivision => some "ZeroDivisionError"
  | .mathDomain | .badValue => some "ValueError"
  | .overflow => some "OverflowError"
  | .unsupportedOperand | .concatenation | .badUnaryOperand | .notABool | .ordering
  | .builtinArgument | .badSubscript | .missingArguments | .tooManyArguments
  | .notCallable => some "TypeError"
  | .undefinedVariable => some "NameError"
  | .unassignedVariable => some "UnboundLocalError"
  | .indexOutOfRange => some "IndexError"
  | _ => none

/-- The first digit of the code. -/
def phase (c : Code) : Option Char := c.text.toList[1]?

def isLexer (c : Code) : Bool := c.phase == some '0'
def isParser (c : Code) : Bool := c.phase == some '1'
def isEval (c : Code) : Bool := c.phase == some '6'
def isInternal (c : Code) : Bool := c.phase == some '9'

/-- The code with the given text, in either case and with white space around it. -/
def ofText? (text : String) : Option Code :=
  let wanted := String.ofList ((Text.trim text.toList).map Char.toUpper)
  all.find? (·.text == wanted)

theorem ofText?_text (c : Code) : ofText? c.text = some c := by cases c <;> decide

end Code
end CseMachine
