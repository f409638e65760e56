import CseMachine.Id
import CseMachine.Tree.Dependence

/-!
Instructions: what the machine puts on Control beside the nodes of a program.
A node that needs its parts evaluated first leaves an instruction below them.
-/
namespace CseMachine

inductive Instr where
  /-- Drop the top of the Stash. -/
  | pop
  /-- Bind a name to the top of the Stash. -/
  | assignment (name : String) (constant declaration : Bool)
  | unary (op : UnaryOp)
  | binary (op : BinaryOp)
  /-- Call what lies below this many arguments. -/
  | application (count : Nat)
  /-- Take a bool from the Stash and go on with one of the nodes. -/
  | branch (consequent : Node) (alternate : Option Node)
  /-- Leave environments until the target is current. -/
  | restore (target : EnvId)
  /-- Bottom of the body of a call. -/
  | marker
  /-- Drop Control down to the nearest marker. -/
  | reset
  /-- Make a list of this many values. -/
  | list (count : Nat)
  | subscript

namespace Instr

/-- The instruction reads or writes the environment that was current when it was pushed. -/
def isEnvDependent : Instr → Bool
  | .assignment .. => true
  | .branch yes no => yes.isEnvDependent || no.any Node.isEnvDependent
  | _ => false

def restoreTarget? : Instr → Option EnvId
  | .restore target => some target
  | _ => none

def describe : Instr → String
  | .pop => "Pop"
  | .assignment name _ _ => "Assignment " ++ name
  | .unary op => "UnaryOp " ++ op.symbol
  | .binary op => "BinaryOp " ++ op.symbol
  | .application count => s!"Application({count})"
  | .branch .. => "Branch"
  | .restore target => "EnvironmentRestore " ++ target.text
  | .marker => "Marker"
  | .reset => "Reset"
  | .list count => s!"ArrayLiteral({count})"
  | .subscript => "ArrayAccess"

end Instr
end CseMachine
