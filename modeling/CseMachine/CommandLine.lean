import CseMachine.Code.Page
import CseMachine.CommandLine.Options
import CseMachine.Evaluation
import CseMachine.Tree.Outline

/-!
The commands: evaluate a program, trace it step by step, show its tree, or
explain an error code. What a command reads it gets as texts, and what it
writes it gives back as texts, so nothing here touches a file.
-/
namespace CseMachine

inductive Command where
  | run (options : RunOptions)
  | step (options : RunOptions)
  | parse (options : RunOptions)
  | explain (code : String)
  | help
  | version
  /-- No such command. -/
  | unknown (name : String)
  deriving DecidableEq, Repr

/-- What a command leaves behind. -/
structure Report where
  /-- Zero if all went well. -/
  exit : Nat := 0
  out : String := ""
  err : String := ""
  deriving DecidableEq, Repr

/-- The texts of files by path, or why one cannot be read. -/
abbrev FileReader := String → Except String String

namespace Command

/-- The last part of a path that names a file. -/
def fileName? (path : String) : Option String :=
  let parts := (path.splitOn "/").filter fun part => part ≠ "" && part ≠ "."
  parts.getLast?.filter (· ≠ "..")

/-- What follows the last point of a file name, if something stands before it. -/
def extension? (name : String) : Option String :=
  let backwards := name.toList.reverse
  match backwards.dropWhile (· ≠ '.') with
  | _ :: _ :: _ => some (String.ofList (backwards.takeWhile (· ≠ '.')).reverse)
  | _ => none

/-- A path that is run without naming a command. -/
def isProgramPath (path : String) : Bool :=
  ((fileName? path).bind extension?).any fun ext => ext.map Char.toLower = "py"

def parse? (args : List String) : Except UsageError Command :=
  match args with
  | [] => .ok .help
  | name :: rest =>
    match name with
    | "run" => .run <$> RunOptions.parse rest
    | "step" => .step <$> RunOptions.parse rest
    | "parse" => .parse <$> RunOptions.parse rest
    | "explain" | "--explain" =>
      match rest with
      | code :: _ => .ok (.explain code)
      | [] => .error .missingCode
    | "help" | "--help" | "-h" => .ok .help
    | "version" | "--version" | "-V" => .ok .version
    | _ => if isProgramPath name then .run <$> RunOptions.parse args else .ok (.unknown name)

def usage : String := String.join ([
  "Pyx: a stepping evaluator for a teaching subset of Python",
  "",
  "Usage: pyx <command> [options]",
  "",
  "Commands:",
  "  run <file.py>        Evaluate a program and print its value",
  "  step <file.py>       Print every machine step",
  "  parse <file.py>      Print the parsed tree",
  "  explain <code>       Explain an error code (e.g., E6001)",
  "  help                 Show this help message",
  "  version              Show version information",
  "",
  "Options:",
  "  --step-limit=<n>     Stop after n steps",
  "  --env-steps=<n>      Stop after n environment changes",
  "  --prelude=<file>     Run <file> first, in the same context",
  "  --color=<when>       auto, always or never",
  "  --count              Report the number of steps on stderr",
  "  --verbose, -v        Debug logging; `step` also prints the stash",
  "",
  "Logging follows RUST_LOG, e.g. RUST_LOG=pyx_eval=trace."].map (· ++ "\n"))

def versionText : String := "Pyx 0.1.0-alpha.1\n"

/-- Files a command reads, in this order. -/
def paths : Command → List String
  | .run o | .step o => o.path :: o.prelude.toList
  | .parse o => [o.path]
  | _ => []

def readSource (read : FileReader) (path : String) : Except UsageError Source :=
  match read path with
  | .ok text => .ok ⟨path, text⟩
  | .error reason => .error (.unreadable path reason)

def readSources (read : FileReader) (o : RunOptions) : Except UsageError Sources := do
  let program ← readSource read o.path
  let prelude ← match o.prelude with
    | some path => some <$> readSource read path
    | none => pure none
  return { program, prelude }

/-- A failure with all that was printed before it. -/
def failureReport (sources : Sources) (colors : Bool) (failure : Failure) (printed : String) :
    Report :=
  ⟨1, printed, sources.render colors failure.stage failure.diagnostic⟩

def countText (o : RunOptions) (c : Context) : String :=
  if o.count then s!"steps: {c.steps}\n" else ""

/-- Evaluate and show the value unless it is `None`; a spent limit is reported and no failure. -/
def runReport (sources : Sources) (o : RunOptions) (colors : Bool) (bound : Nat) : Option Report :=
  (sources.evaluate o.limits bound).map fun e =>
    match e.result with
    | .error failure => failureReport sources colors failure e.printed
    | .ok (outcome, c) =>
      let (value, warning) := match outcome with
        | .finished .none _ => ("", "")
        | .finished _ repr => (repr ++ "\n", "")
        | .suspended reason _ =>
          ("", sources.render colors .program reason.toError.diagnostic)
        | .error _ => ("", "")
      ⟨0, e.printed ++ value, warning ++ countText o c⟩

/-- A number in a column of six. -/
def column (n : Nat) : String :=
  let digits := toString n
  Diagnostic.blanks (6 - digits.length) ++ digits

/-- The line of an executed item; with `verbose` another one for the Stash. -/
def recordText (verbose : Bool) (record : StepRecord) (c : Context) : String :=
  column record.index ++ "  " ++ record.item ++ "\n" ++
    if verbose then "        stash: [" ++ ", ".intercalate c.stashTexts ++ "]\n" else ""

/-- At most `limit` further steps as text, with what the program prints between them; the number
shown and the context after them. -/
def traceFrom (verbose : Bool) : Nat → Nat → String → Context → String × Nat × Context
  | 0, shown, text, c => (text, shown, c)
  | limit + 1, shown, text, c =>
    match c.step with
    | (some record, next) =>
      let text := text ++ next.output ++ recordText verbose record next
      traceFrom verbose limit (shown + 1) text { next with output := "" }
    | (none, next) => (text, shown, next)

/-- Every step, then the value or what ended the evaluation. -/
def stepReport (sources : Sources) (o : RunOptions) (colors : Bool) (bound : Nat) : Option Report :=
  match sources.prepare bound with
  | none => none
  | some (.error e) =>
    match e.result with
    | .error failure => some (failureReport sources colors failure e.printed)
    | .ok _ => none
  | some (.ok c) =>
    let (text, shown, c) :=
      traceFrom o.verbose (o.limits.steps.getD bound) 0 c.output { c with output := "" }
    match c.phase with
    | .errored =>
      let err := match c.error? with
        | some e => sources.render colors .program e.diagnostic
        | none => ""
      some ⟨1, text, err⟩
    | .finished => some ⟨0, text ++ "=> " ++ c.result.repr c.memory.store ++ "\n", countText o c⟩
    | _ => some ⟨0, text ++ s!"-- stopped after {shown} steps\n", countText o c⟩

def parseReport (source : Source) (colors : Bool) : Report :=
  match CseMachine.parse source.text with
  | .ok tree => { out := tree.outline }
  | .error e =>
    failureReport { program := source } colors (.parse .program e) ""

def usageReport (e : UsageError) : Report := ⟨1, "", "error: " ++ e.message ++ "\n"⟩

/-- A report, or the report on what is wrong with the command. -/
def reportOr (r : Except UsageError (Option Report)) : Option Report :=
  match r with
  | .ok report => report
  | .error e => some (usageReport e)

/-- Execute a command within a bound on the steps of each program. `terminal` tells whether reports
go to a terminal. -/
def execute (read : FileReader) (terminal : Bool) (bound : Nat) : Command → Option Report
  | .run o => reportOr do
    return runReport (← readSources read o) o (o.color.isOn terminal) bound
  | .step o => reportOr do
    return stepReport (← readSources read o) o (o.color.isOn terminal) bound
  | .parse o => reportOr do
    return some (parseReport (← readSource read o.path) (o.color.isOn terminal))
  | .explain text => reportOr <|
    match Code.ofText? text with
    | some code => .ok (some { out := code.page ++ "\n" })
    | none => .error (.unknownCode text)
  | .help => some { out := usage }
  | .version => some { out := versionText }
  | .unknown name => some ⟨1, usage, "Unknown command: " ++ name ++ "\n\n"⟩

/-- Read a command line and execute it. -/
def perform (read : FileReader) (terminal : Bool) (bound : Nat) (args : List String) :
    Option Report :=
  reportOr ((parse? args).map (execute read terminal bound))

end Command
end CseMachine
