import CseMachine.Diagnostic.Render
import CseMachine.Run

/-!
Options of the commands that take a program: its path, limits for the run, a
prelude, and how reports look. Options may stand before and after the path;
the last one of a kind counts, and of several paths the first.
-/
namespace CseMachine

/-- What is wrong with a command line, or with the files it names. -/
inductive UsageError where
  | unreadable (path reason : String)
  | missingPath
  | missingCode
  | unknownOption (text : String)
  | invalidNumber (option value : String)
  | invalidColor (value : String)
  | unknownCode (text : String)
  deriving DecidableEq, Repr

def UsageError.message : UsageError → String
  | .unreadable path reason => s!"cannot read '{path}': {reason}"
  | .missingPath => "missing file path"
  | .missingCode => "missing error code"
  | .unknownOption text => s!"unknown option '{text}'"
  | .invalidNumber option value =>
    s!"option '{option}' expects a non-negative integer, got '{value}'"
  | .invalidColor value => s!"option '--color' expects auto, always or never, got '{value}'"
  | .unknownCode text => s!"unknown error code '{text}'"

structure RunOptions where
  path : String
  limits : Limits := {}
  /-- Path of a program to run first. -/
  prelude : Option String := none
  color : ColorMode := .auto
  verbose : Bool := false
  /-- Report the number of steps. -/
  count : Bool := false
  deriving DecidableEq, Repr

namespace RunOptions

/-- What follows a given beginning. -/
def after? (beginning text : String) : Option String :=
  if beginning.toList.isPrefixOf text.toList then
    some (String.ofList (text.toList.drop beginning.length))
  else none

/-- Numbers on the command line fit into a machine word. -/
def countLimit : Nat := Nat.pow 2 64

/-- A number of steps: digits, with a plus in front or not. -/
def count? (text : String) : Option Nat :=
  let digits := match text.toList with
    | '+' :: rest => rest
    | cs => cs
  if digits.isEmpty || !digits.all Char.isDigit then none
  else
    let n := Decimal.ofDigits digits
    if n < countLimit then some n else none

def readCount (option value : String) : Except UsageError Nat :=
  match count? value with
  | some n => .ok n
  | none => .error (.invalidNumber option value)

def readColor : String → Except UsageError ColorMode
  | "auto" => .ok .auto
  | "always" => .ok .always
  | "never" => .ok .never
  | other => .error (.invalidColor other)

/-- Take one argument into account. The path is empty as long as there is none. -/
def takeArgument (state : Option String × RunOptions) (arg : String) :
    Except UsageError (Option String × RunOptions) := do
  let (path, o) := state
  if let some value := after? "--step-limit=" arg then
    return (path, { o with limits.steps := some (← readCount "--step-limit" value) })
  else if let some value := after? "--env-steps=" arg then
    return (path, { o with limits.envSteps := some (← readCount "--env-steps" value) })
  else if let some value := after? "--prelude=" arg then
    return (path, { o with prelude := some value })
  else if let some value := after? "--color=" arg then
    return (path, { o with color := ← readColor value })
  else if arg = "--verbose" || arg = "-v" then return (path, { o with verbose := true })
  else if arg = "--count" then return (path, { o with count := true })
  else if (after? "-" arg).isSome then throw (.unknownOption arg)
  else return (path.or (some arg), o)

/-- Read the arguments behind the name of a command. -/
def parse (args : List String) : Except UsageError RunOptions := do
  match ← args.foldlM takeArgument (none, { path := "" }) with
  | (some path, o) => return { o with path }
  | (none, _) => throw .missingPath

end RunOptions
end CseMachine
