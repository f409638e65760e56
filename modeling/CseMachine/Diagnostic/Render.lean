import CseMachine.Diagnostic
import CseMachine.Lines

/-!
Reports for a terminal. With the source at hand each label is drawn under its
line: a primary one as `^~~~`, another as `---`. Without it, spans are written
as byte ranges. Colors are escape sequences around single words.
-/
namespace CseMachine

inductive ColorMode where
  | auto | always | never
  deriving DecidableEq, Repr

/-- Colors are used always, never, or only on a terminal. -/
def ColorMode.isOn (mode : ColorMode) (terminal : Bool) : Bool :=
  match mode with
  | .auto => terminal
  | .always => true
  | .never => false

/-- The source that labels point into, under the name shown for it. -/
structure SourceView where
  lines : Lines
  path : String

def SourceView.ofSource (source path : String) : SourceView := ⟨Lines.ofSource source, path⟩

namespace Diagnostic

inductive Paint where
  | error | warning | note | help | bold | secondary
  deriving DecidableEq, Repr

def Paint.code : Paint → String
  | .error => "\x1b[1;31m"
  | .warning => "\x1b[1;33m"
  | .note => "\x1b[1;36m"
  | .help => "\x1b[1;32m"
  | .bold => "\x1b[1m"
  | .secondary => "\x1b[1;34m"

def paint (colors : Bool) (p : Paint) (text : String) : String :=
  if colors then p.code ++ text ++ "\x1b[0m" else text

def severityPaint : Severity → Paint
  | .error => .error
  | .warning => .warning
  | .note => .note

def labelPaint (l : Label) : Paint := if l.isPrimary then .error else .secondary

def blanks (n : Nat) : String := String.ofList (List.replicate n ' ')

/-- A label with its place: line, column, and length of the mark under it. -/
structure Placed where
  line : Nat
  column : Nat
  width : Nat
  label : Label

/-- Length of a mark in characters: up to the end of the line, and at least one. -/
def markWidth (t : Lines) (span : Span) (line : Nat) : Nat :=
  let lineStart := (t.startOf? line).getD 0
  let lineStop := lineStart + Text.bytes (t.lineText line)
  let start := min span.start lineStop
  let stop := min (max span.stop start) lineStop
  max 1 ((Text.slice? t.chars start stop).getD []).length

def place (t : Lines) (l : Label) : Placed :=
  let (line, column) := t.locate l.span.start
  ⟨line, column, markWidth t l.span line, l⟩

/-- By line, then column; labels at one place keep their order. -/
def placedBefore (a b : Placed) : Bool :=
  a.line < b.line || (a.line == b.line && a.column ≤ b.column)

def gutterWidth (placed : List Placed) : Nat :=
  (placed.map fun p => (toString p.line).length).foldl max 1

/-- The mark under a label, with its message. -/
def markLine (colors : Bool) (gutter : Nat) (p : Placed) : String :=
  let mark :=
    if p.label.isPrimary then "^" ++ String.ofList (List.replicate (p.width - 1) '~')
    else String.ofList (List.replicate p.width '-')
  let paint := paint colors (labelPaint p.label)
  blanks gutter ++ " | " ++ blanks (p.column - 1) ++ paint mark ++
    (if p.label.message.isEmpty then "" else " " ++ paint p.label.message) ++ "\n"

/-- The source line above a mark. -/
def sourceLine (t : Lines) (gutter line : Nat) : String :=
  let number := toString line
  blanks (gutter - number.length) ++ number ++ " | " ++ String.ofList (t.lineText line) ++ "\n"

/-- Marks in order, each source line shown once above its marks. -/
def snippetLines (colors : Bool) (t : Lines) (gutter : Nat) : Option Nat → List Placed → String
  | _, [] => ""
  | shown, p :: rest =>
    (if shown = some p.line then "" else sourceLine t gutter p.line) ++
      markLine colors gutter p ++ snippetLines colors t gutter (some p.line) rest

def snippet (colors : Bool) (view : SourceView) (d : Diagnostic) : String :=
  let placed := (d.labels.map (place view.lines)).mergeSort placedBefore
  let gutter := gutterWidth placed
  let pad := blanks gutter
  let header := match d.primarySpan? with
    | some span => some (view.lines.locate span.start)
    | none => placed.head?.map fun (p : Placed) => (p.line, p.column)
  (match header with
    | some (line, column) => s!"{pad}--> {view.path}:{line}:{column}\n"
    | none => "") ++
    pad ++ " |\n" ++ snippetLines colors view.lines gutter none placed ++ pad ++ " |\n"

def bareLabels (colors : Bool) (labels : List Label) : String :=
  String.join (labels.map fun l =>
    "  " ++ labelMark l ++ " " ++ l.span.text ++ ": " ++ paint colors (labelPaint l) l.message ++
      "\n")

def trailer (colors : Bool) (word : String) (p : Paint) (lines : List String) : String :=
  String.join (lines.map fun line => "  = " ++ paint colors p word ++ ": " ++ line ++ "\n")

/-- The whole report, with an empty line behind it. -/
def render (colors : Bool) (view : Option SourceView) (d : Diagnostic) : String :=
  let body := match view with
    | some v => if d.labels.isEmpty then "" else snippet colors v d
    | none => bareLabels colors d.labels
  paint colors (severityPaint d.severity) d.severity.text ++ " " ++
    paint colors .bold ("[" ++ d.code.text ++ "]") ++ ": " ++ d.message ++ "\n" ++ body ++
    trailer colors "note" .bold d.notes ++ trailer colors "help" .help d.suggestions ++ "\n"

/-- The closing line after a number of errors and warnings; nothing if there are none. -/
def summary (colors : Bool) (errors warnings : Nat) : String :=
  let plural := if warnings = 1 then "" else "s"
  if errors > 0 then
    let what := if errors = 1 then "previous error" else s!"{errors} previous errors"
    let more := if warnings > 0 then s!"; {warnings} warning{plural} emitted" else ""
    paint colors .error "error" ++ ": aborting due to " ++ what ++ more ++ "\n"
  else if warnings > 0 then
    paint colors .warning "warning" ++ s!": {warnings} warning{plural} emitted\n"
  else ""

end Diagnostic
end CseMachine
