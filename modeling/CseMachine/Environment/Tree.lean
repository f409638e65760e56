import CseMachine.Id

/-!
Which environments enclose which. The tree is an index for display: an
environment whose enclosing one is not in the tree is left out, and
evaluation never looks here.
-/
namespace CseMachine

/-- An environment's place in the tree; children in the order of their insertion. -/
structure EnvNode where
  parent : Option EnvId := none
  children : List EnvId := []
  deriving DecidableEq, Repr

structure EnvTree where
  root : EnvId
  nodes : Std.ExtTreeMap EnvId EnvNode

namespace EnvTree

def ofRoot (root : EnvId) : EnvTree := ⟨root, (∅ : Std.ExtTreeMap EnvId EnvNode).insert root {}⟩

def contains (t : EnvTree) (env : EnvId) : Bool := t.nodes.contains env

/-- Put an environment below another one, which has to be in the tree. -/
def insert? (t : EnvTree) (env : EnvId) (tail : Option EnvId) : Option EnvTree :=
  match tail with
  | some parent =>
    if t.contains parent then
      let nodes := t.nodes.modify parent fun n => { n with children := n.children ++ [env] }
      some { t with nodes := nodes.insert env ⟨some parent, []⟩ }
    else none
  | none => none

/-- Leave the tree as it is where `insert?` has no place. -/
def insert (t : EnvTree) (env : EnvId) (tail : Option EnvId) : EnvTree := (t.insert? env tail).getD t

/-- Forget the environments that fail a test, as places and as children. -/
def filter (keep : EnvId → Bool) (t : EnvTree) : EnvTree :=
  { t with nodes := (t.nodes.filter fun id _ => keep id).map fun _ n =>
      { n with children := n.children.filter keep } }

def parent? (t : EnvTree) (env : EnvId) : Option EnvId := t.nodes[env]?.bind (·.parent)

def children (t : EnvTree) (env : EnvId) : List EnvId := (t.nodes[env]?.map (·.children)).getD []

def size (t : EnvTree) : Nat := t.nodes.size

def isEmpty (t : EnvTree) : Bool := t.nodes.isEmpty

end EnvTree
end CseMachine
