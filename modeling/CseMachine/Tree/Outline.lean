import CseMachine.Decimal
import CseMachine.Text.Escaped
import CseMachine.Tree.Preorder

/-!
The outline of a tree: one line a node, two blanks deeper for each level, with
the span after an `@`. A function adds a line with its parameters.
-/
namespace CseMachine

namespace Literal

/-- Floats as the outline writes them: the exponent bare, whole numbers with a point. -/
def floatStyle : Decimal.Style := ⟨"NaN", fun e => toString e, ".0"⟩

def outline : Literal → String
  | .none => "None"
  | .bool b => if b then "True" else "False"
  | .int i => toString i
  | .float x => Decimal.ofFloat floatStyle x
  | .imag x => Decimal.ofFloat floatStyle x ++ "j"
  | .str s => Text.visible s

end Literal

namespace Node

/-- What a node says of itself: its kind, and the name, operator or value it has. -/
def heading (node : Node) : String :=
  match node with
  | .program _ ds _ | .block _ ds _ =>
    if ds.isEmpty then node.kindName
    else node.kindName ++ " [" ++ ", ".intercalate (ds.map (·.name)) ++ "]"
  | .assign _ target _ declaration =>
    "Assign " ++ target ++ (if declaration then "" else " (outer)")
  | .define _ name _ _ => "FunctionDef " ++ name
  | .identifier _ name => "Identifier " ++ name
  | .unary _ op _ => "Unary " ++ op.symbol
  | .binary _ op _ _ => "Binary " ++ op.symbol
  | .literal _ value => "Literal " ++ value.outline
  | _ => node.kindName

end Node

def Param.outline (p : Param) : String := if p.rest then "*" ++ p.name else p.name

/-- One line of an outline. -/
def outlineLine (depth : Nat) (text : String) : String :=
  String.ofList (List.replicate (2 * depth) ' ') ++ text ++ "\n"

namespace Node

/-- The node's own line, and the parameters of the function it creates. -/
def outlineHead (depth : Nat) (node : Node) : String :=
  outlineLine depth (node.heading ++ " @" ++ node.span.text) ++
    match node.func? with
    | some f =>
      outlineLine (depth + 1) ("params (" ++ ", ".intercalate (f.params.map Param.outline) ++ ")")
    | none => ""

/-- The outline of a whole tree. -/
def outline (node : Node) : String :=
  String.join ((node.preorder 0).map fun (depth, n) => n.outlineHead depth)

end Node
end CseMachine
