import CseMachine.Code
import CseMachine.Span

/-!
Reports. A diagnostic has a code, a severity and a message, labels that point
into the source, and notes and suggestions that follow it.
-/
namespace CseMachine

inductive Severity where
  | error | warning | note
  deriving DecidableEq, Repr

def Severity.text : Severity → String
  | .error => "error"
  | .warning => "warning"
  | .note => "note"

/-- A span with a remark; the primary one is where the problem is. -/
structure Label where
  span : Span
  message : String
  isPrimary : Bool
  deriving DecidableEq, Repr

structure Diagnostic where
  code : Code
  severity : Severity
  message : String
  labels : List Label := []
  notes : List String := []
  suggestions : List String := []
  deriving DecidableEq, Repr

namespace Diagnostic

/-- Span of the first primary label. -/
def primarySpan? (d : Diagnostic) : Option Span := (d.labels.find? (·.isPrimary)).map (·.span)

def isError (d : Diagnostic) : Bool := d.severity == .error

def labelMark (l : Label) : String := if l.isPrimary then "-->" else "   "

/-- The report on plain lines, spans as byte ranges. -/
def text (d : Diagnostic) : String :=
  d.severity.text ++ " [" ++ d.code.text ++ "]: " ++ d.message ++
    String.join (d.labels.map fun l =>
      "\n  " ++ labelMark l ++ " " ++ l.span.text ++ ": " ++ l.message) ++
    String.join (d.notes.map ("\n  = note: " ++ ·)) ++
    String.join (d.suggestions.map ("\n  = help: " ++ ·))

end Diagnostic
end CseMachine
