import CseMachine.Diagnostic.Render
import CseMachine.Parse
import CseMachine.Run

/-!
Evaluating source text, with an optional prelude before it. A failure knows
in which of the two texts it happened, and its report is shown against that
text.
-/
namespace CseMachine

/-- Which text a failure points into. -/
inductive Stage where
  | prelude | program
  deriving DecidableEq, Repr

inductive Failure where
  | parse (stage : Stage) (error : ParseError)
  | evaluation (stage : Stage) (error : EvalError)

namespace Failure

def stage : Failure → Stage
  | .parse s _ | .evaluation s _ => s

def diagnostic : Failure → Diagnostic
  | .parse _ e => e.diagnostic
  | .evaluation _ e => e.diagnostic

end Failure

/-- A source text and the path it is shown with. -/
structure Source where
  path : String
  text : String
  deriving DecidableEq, Repr

structure Sources where
  program : Source
  prelude : Option Source := none

namespace Sources

/-- The text that a stage names; without a prelude it is always the program. -/
def source (s : Sources) : Stage → Source
  | .prelude => s.prelude.getD s.program
  | .program => s.program

/-- A report against the text it points into; an error is followed by a summary. -/
def render (s : Sources) (colors : Bool) (stage : Stage) (d : Diagnostic) : String :=
  let source := s.source stage
  d.render colors (some (SourceView.ofSource source.text source.path)) ++
    if d.isError then Diagnostic.summary colors 1 0 else ""

/-- Both trees; the prelude is read first. -/
def parse (s : Sources) : Except Failure (Setup × Node) := do
  let prelude ← match s.prelude with
    | some p => (some <$> CseMachine.parse p.text).mapError (Failure.parse .prelude)
    | none => pure none
  let program ← (CseMachine.parse s.program.text).mapError (Failure.parse .program)
  return ({ prelude }, program)

end Sources

/-- How an evaluation ended; `printed` is all that was printed until then. -/
structure Evaluation where
  result : Except Failure (Outcome × Context)
  printed : String

namespace Evaluation

def failed (failure : Failure) (printed : String) : Evaluation := ⟨.error failure, printed⟩

end Evaluation

namespace Sources

/-- A context with the program loaded, within a bound on the steps of the prelude. -/
def prepare (s : Sources) (bound : Nat) : Option (Except Evaluation Context) :=
  match s.parse with
  | .error failure => some (.error (.failed failure ""))
  | .ok (setup, program) =>
    match setup.newContext bound ⟨0⟩ with
    | none => none
    | some (.error f) => some (.error (.failed (.evaluation .prelude f.error) f.context.output))
    | some (.ok c) => some (.ok (c.load program))

/-- Evaluate the program after the prelude, each within a bound on its steps. -/
def evaluate (s : Sources) (limits : Limits) (bound : Nat) : Option Evaluation :=
  match s.prepare bound with
  | none => none
  | some (.error e) => some e
  | some (.ok c) =>
    match c.runWithin bound limits with
    | none => none
    | some (.error e, c) => some (.failed (.evaluation .program e) c.output)
    | some (outcome, c) => some ⟨.ok (outcome, c), c.output⟩

end Sources
end CseMachine
