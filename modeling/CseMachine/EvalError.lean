import CseMachine.Builtin
import CseMachine.Diagnostic
import CseMachine.Id
import CseMachine.Text.Quoted
import CseMachine.Tree

/-!
What can go wrong while a program runs. An error is a cause with the span of
the item that failed and notes on related places; its code, its wording and
the advice that goes with it follow from the cause.
-/
namespace CseMachine

/-- The types of values. -/
inductive TypeName where
  | none | bool | int | float | complex | str | function | list | builtin | error
  deriving DecidableEq, Repr

def TypeName.text : TypeName → String
  | .none => "NoneType"
  | .bool => "bool"
  | .int => "int"
  | .float => "float"
  | .complex => "complex"
  | .str => "str"
  | .function => "function"
  | .list => "list"
  | .builtin => "builtin_function_or_method"
  | .error => "error"

namespace EvalError

/-- Divisions that meet a zero. -/
inductive ZeroDivision where
  | intDivision | intFloorDivision | intModulo
  | floatDivision | floatFloorDivision | floatModulo
  | negativePower | complexDivision | complexPower
  deriving DecidableEq, Repr

def ZeroDivision.message : ZeroDivision → String
  | .intDivision => "division by zero"
  | .intFloorDivision => "integer division or modulo by zero"
  | .intModulo => "integer modulo by zero"
  | .floatDivision => "float division by zero"
  | .floatFloorDivision => "float floor division by zero"
  | .floatModulo => "float modulo"
  | .negativePower => "0.0 cannot be raised to a negative power"
  | .complexDivision => "complex division by zero"
  | .complexPower => "0.0 to a negative or complex power"

/-- Values of the right type that cannot be converted. -/
inductive BadValue where
  | intLiteral (text : String)
  | floatLiteral (text : String)
  | nanToInt
  | emptySequence (function : Builtin)
  deriving DecidableEq, Repr

def BadValue.message : BadValue → String
  | .intLiteral text => "invalid literal for int() with base 10: " ++ Text.quote text
  | .floatLiteral text => "could not convert string to float: " ++ Text.quote text
  | .nanToInt => "cannot convert float NaN to integer"
  | .emptySequence f => f.name ++ "() arg is an empty sequence"

/-- Results that are too large. -/
inductive Overflow where
  | intToFloat | infinityToInt | intDivision | exponent | power | complexPower | mathRange
  deriving DecidableEq, Repr

def Overflow.message : Overflow → String
  | .intToFloat => "int too large to convert to float"
  | .infinityToInt => "cannot convert float infinity to integer"
  | .intDivision => "integer division result too large for a float"
  | .exponent => "exponent too large"
  | .power => "(34, 'Numerical result out of range')"
  | .complexPower => "complex exponentiation"
  | .mathRange => "math range error"

/-- Arguments of a type that a builtin does not take. -/
inductive BadArgument where
  | toInt (got : TypeName)
  | toFloat (got : TypeName)
  | toAbs (got : TypeName)
  | toLen (got : TypeName)
  | notIterable (got : TypeName)
  | notAnInteger (got : TypeName)
  | toRound (got : TypeName)
  | notANumber (function : Builtin) (got : TypeName)
  | notReal (got : TypeName)
  deriving DecidableEq, Repr

def BadArgument.message : BadArgument → String
  | .toInt t =>
    "int() argument must be a string, a bytes-like object or a real number, not '" ++ t.text ++ "'"
  | .toFloat t => "float() argument must be a string or a real number, not '" ++ t.text ++ "'"
  | .toAbs t => "bad operand type for abs(): '" ++ t.text ++ "'"
  | .toLen t => "object of type '" ++ t.text ++ "' has no len()"
  | .notIterable t => "'" ++ t.text ++ "' object is not iterable"
  | .notAnInteger t => "'" ++ t.text ++ "' object cannot be interpreted as an integer"
  | .toRound t => "type " ++ t.text ++ " doesn't define __round__ method"
  | .notANumber f t => f.name ++ "() argument must be a number, not '" ++ t.text ++ "'"
  | .notReal t => "must be real number, not " ++ t.text

/-- The two kinds of value that have elements. -/
inductive Sequence where
  | list | string
  deriving DecidableEq, Repr

def Sequence.text : Sequence → String
  | .list => "list"
  | .string => "string"

inductive BadSubscript where
  | index (sequence : Sequence) (got : TypeName)
  | notSubscriptable (got : TypeName)
  deriving DecidableEq, Repr

def BadSubscript.message : BadSubscript → String
  | .index .list t => "list indices must be integers or slices, not " ++ t.text
  | .index .string t => "string indices must be integers, not '" ++ t.text ++ "'"
  | .notSubscriptable t => "'" ++ t.text ++ "' object is not subscriptable"

/-- Places that need a bool. -/
inductive BoolPlace where
  | condition | notOperand
  deriving DecidableEq, Repr

def BoolPlace.text : BoolPlace → String
  | .condition => "as a condition"
  | .notOperand => "as the operand of 'not'"

/-- Broken invariants of the machine. -/
inductive Fault where
  | unknownEnvironment (env : EnvId)
  | inactiveEnvironment (env : EnvId)
  | undeclared (name : String)
  | emptyStash
  | shortStashForList
  | shortStashForCall
  | notAList
  | notAClosure (object : ObjId)
  | foreignClosure
  | missingArgument (index : Nat)
  | longQuotient
  | negativeRounding
  | shiftRange
  | wordRange
  | noError
  deriving DecidableEq, Repr

def Fault.message : Fault → String
  | .unknownEnvironment env => "unknown environment " ++ env.text
  | .inactiveEnvironment env => "cannot restore environment " ++ env.text ++ ": not active"
  | .undeclared name => "'" ++ name ++ "' defined before it was declared"
  | .emptyStash => "stash is empty"
  | .shortStashForList => "stash too short for list literal"
  | .shortStashForCall => "stash too short for call arguments"
  | .notAList => "list handle without a list"
  | .notAClosure object => "closure handle " ++ object.text ++ " without a closure"
  | .foreignClosure => "closure belongs to a different evaluation"
  | .missingArgument i => s!"builtin argument {i} missing"
  | .longQuotient => "scaled quotient exceeds 64 bits"
  | .negativeRounding => "negative rounding width"
  | .shiftRange => "shift out of range"
  | .wordRange => "arithmetic out of range"
  | .noError => "errored context without an error"

inductive Cause where
  | zeroDivision (what : ZeroDivision)
  | mathDomain
  | badValue (what : BadValue)
  | overflow (what : Overflow)
  | unsupportedOperand (op : ArithOp) (left right : TypeName)
  | concatenation (other : TypeName)
  | badUnaryOperand (op : UnaryOp) (operand : TypeName)
  | notABool (place : BoolPlace) (got : TypeName)
  | ordering (op : OrderOp) (left right : TypeName)
  | badArgument (what : BadArgument)
  | badSubscript (what : BadSubscript)
  | undefinedVariable (name : String)
  | unassignedVariable (name : String)
  | redeclaration (name : String)
  | constantReassignment (name : String)
  | indexOutOfRange (sequence : Sequence)
  | missingArguments (function : String) (missing : List String)
  | tooManyArguments (function : String) (expected given : Nat)
  | builtinArity (function : Builtin) (given : Nat)
  | notCallable (got : TypeName)
  | user (message : String)
  | stepLimit (limit : Nat)
  | internal (fault : Fault)
  deriving DecidableEq, Repr

/-- `'a'`, `'a' and 'b'`, `'a', 'b', and 'c'`. -/
def quotedList (names : List String) : String :=
  match names.map fun n => "'" ++ n ++ "'" with
  | [] => ""
  | [one] => one
  | [first, second] => first ++ " and " ++ second
  | many => ", ".intercalate many.dropLast ++ ", and " ++ many.getLastD ""

def plural (n : Nat) : String := if n = 1 then "" else "s"

namespace Cause

def message : Cause → String
  | .zeroDivision what => what.message
  | .mathDomain => "math domain error"
  | .badValue what => what.message
  | .overflow what => what.message
  | .unsupportedOperand op left right =>
    s!"unsupported operand type(s) for {op.symbol}: '{left.text}' and '{right.text}'"
  | .concatenation other => "can only concatenate str (not \"" ++ other.text ++ "\") to str"
  | .badUnaryOperand op operand => s!"bad operand type for unary {op.symbol}: '{operand.text}'"
  | .notABool place got => s!"expected a bool {place.text}, got '{got.text}'"
  | .ordering op left right =>
    s!"'{op.symbol}' not supported between instances of '{left.text}' and '{right.text}'"
  | .badArgument what => what.message
  | .badSubscript what => what.message
  | .undefinedVariable name => s!"name '{name}' is not defined"
  | .unassignedVariable name =>
    s!"cannot access local variable '{name}' where it is not associated with a value"
  | .redeclaration name => s!"name '{name}' is already declared in this scope"
  | .constantReassignment name => s!"cannot assign to constant '{name}'"
  | .indexOutOfRange sequence => s!"{sequence.text} index out of range"
  | .missingArguments function missing =>
    let count := missing.length
    function ++ s!"() missing {count} required positional argument" ++ plural count ++ ": " ++
      quotedList missing
  | .tooManyArguments function expected given =>
    function ++ s!"() takes {expected} positional argument" ++ plural expected ++
      s!" but {given} " ++ (if given = 1 then "was" else "were") ++ " given"
  | .builtinArity function given =>
    function.name ++ "() takes " ++ function.arity.text ++ s!" ({given} given)"
  | .notCallable got => s!"'{got.text}' object is not callable"
  | .user message => message
  | .stepLimit limit => s!"step limit of {limit} reached"
  | .internal fault => "internal error: " ++ fault.message

/-- The word for the kind of failure. -/
def kindName : Cause → String
  | .zeroDivision _ => "ZeroDivision"
  | .mathDomain => "MathDomain"
  | .badValue _ => "ValueError"
  | .overflow _ => "Overflow"
  | .unsupportedOperand .. => "UnsupportedOperand"
  | .concatenation _ => "ConcatenationType"
  | .badUnaryOperand .. => "BadUnaryOperand"
  | .notABool .. => "NotABool"
  | .ordering .. => "OrderingNotSupported"
  | .badArgument _ => "BuiltinTypeError"
  | .badSubscript _ => "BadSubscript"
  | .undefinedVariable _ => "UndefinedVariable"
  | .unassignedVariable _ => "UnassignedVariable"
  | .redeclaration _ => "VariableRedeclaration"
  | .constantReassignment _ => "ConstantReassignment"
  | .indexOutOfRange _ => "IndexOutOfRange"
  | .missingArguments .. => "MissingArguments"
  | .tooManyArguments .. => "TooManyArguments"
  | .builtinArity .. => "BuiltinArity"
  | .notCallable _ => "NotCallable"
  | .user _ => "UserError"
  | .stepLimit _ => "StepLimitExceeded"
  | .internal _ => "Internal"

def code : Cause → Code
  | .zeroDivision _ => .zeroDivision
  | .mathDomain => .mathDomain
  | .badValue _ => .badValue
  | .overflow _ => .overflow
  | .unsupportedOperand .. => .unsupportedOperand
  | .concatenation _ => .concatenation
  | .badUnaryOperand .. => .badUnaryOperand
  | .notABool .. => .notABool
  | .ordering .. => .ordering
  | .badArgument _ => .builtinArgument
  | .badSubscript _ => .badSubscript
  | .undefinedVariable _ => .undefinedVariable
  | .unassignedVariable _ => .unassignedVariable
  | .redeclaration _ => .redeclaration
  | .constantReassignment _ => .constantReassignment
  | .indexOutOfRange _ => .indexOutOfRange
  | .missingArguments .. => .missingArguments
  | .tooManyArguments .. => .tooManyArguments
  | .builtinArity function given =>
    if given < function.arity.min then .missingArguments else .tooManyArguments
  | .notCallable _ => .notCallable
  | .user _ => .userError
  | .stepLimit _ => .stepLimit
  | .internal _ => .internal

/-- What the label under the failing text says. -/
def label : Cause → String
  | .zeroDivision _ => "divisor is zero"
  | .mathDomain => "argument outside the function's domain"
  | .badValue _ => "invalid value"
  | .overflow _ => "result out of range"
  | .unsupportedOperand .. => "unsupported operand types"
  | .concatenation _ => "`str` mixed with another type"
  | .badUnaryOperand .. => "bad operand"
  | .notABool .. => "expected a `bool` here"
  | .ordering .. => "these values cannot be ordered"
  | .badArgument _ => "argument has the wrong type"
  | .badSubscript _ => "cannot index this way"
  | .undefinedVariable _ => "not found in this scope"
  | .unassignedVariable _ => "read before assignment"
  | .redeclaration _ => "declared twice"
  | .constantReassignment _ => "cannot assign here"
  | .indexOutOfRange _ => "index out of range"
  | .missingArguments .. => "missing arguments"
  | .tooManyArguments .. => "too many arguments"
  | .builtinArity .. => "wrong number of arguments"
  | .notCallable _ => "not a function"
  | .user _ => "raised here"
  | .stepLimit _ => "evaluation paused here"
  | .internal _ => "while evaluating this"

def suggestion? : Cause → Option String
  | .zeroDivision _ => some "check that the divisor is non-zero before dividing"
  | .mathDomain => some "check the argument range of the math function"
  | .concatenation other =>
    some s!"convert the `{other.text}` with `str(...)` before concatenating"
  | .unsupportedOperand .. => some "convert one operand explicitly, for example with `float(...)`"
  | .notABool .. => some "use a comparison such as `x != 0` to produce a `bool`"
  | .undefinedVariable name => some s!"define `{name}` before using it"
  | .unassignedVariable name =>
    some (s!"assign `{name}` before reading it, " ++
      "or declare it `nonlocal` to use the enclosing binding")
  | .redeclaration _ => some "rename one of the bindings"
  | .indexOutOfRange _ => some "valid indices run from `-len(xs)` to `len(xs) - 1`"
  | .missingArguments _ missing =>
    some ("pass a value for " ++ ", ".intercalate (missing.map fun m => "`" ++ m ++ "`"))
  | .tooManyArguments _ expected _ =>
    some (s!"pass exactly {expected} argument" ++ plural expected)
  | .stepLimit _ => some "run again with a larger `--step-limit` to continue"
  | .internal _ => some "this is a bug in the evaluator; please report it"
  | _ => none

end Cause

/-- A remark on a place that has to do with the error. -/
structure Note where
  message : String
  span : Option Span
  deriving DecidableEq, Repr

end EvalError

structure EvalError where
  cause : EvalError.Cause
  span : Option Span := none
  notes : List EvalError.Note := []
  deriving DecidableEq, Repr

namespace EvalError

def message (e : EvalError) : String := e.cause.message

/-- Put in a span unless there is one. -/
def withSpan (e : EvalError) (span : Span) : EvalError := { e with span := e.span.or (some span) }

/-- The report on an error; a spent step limit is only a warning. -/
def diagnostic (e : EvalError) : Diagnostic where
  code := e.cause.code
  severity := match e.cause with
    | .stepLimit _ => .warning
    | _ => .error
  message := match e.cause.code.className? with
    | some name => name ++ ": " ++ e.message
    | none => e.message
  labels :=
    (e.span.map fun s => ⟨s, e.cause.label, true⟩).toList ++
      e.notes.filterMap fun n => n.span.map fun s => ⟨s, n.message, false⟩
  notes := e.notes.filterMap fun n => if n.span.isNone then some n.message else none
  suggestions := e.cause.suggestion?.toList

end EvalError

/-- An error by its cause alone. -/
def fail {α : Type} (cause : EvalError.Cause) : Except EvalError α := .error { cause }

end CseMachine
