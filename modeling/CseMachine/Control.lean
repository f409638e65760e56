import CseMachine.Instr
import CseMachine.Stack

/-!
Control: the stack of what is left to do. It keeps the number of its items
that depend on the environment, so that a call can tell whether anything left
will look at the environment it is about to leave.
-/
namespace CseMachine

inductive Item where
  /-- With `skipEnv` the environment is arranged already and a block makes none of its own. -/
  | node (node : Node) (skipEnv : Bool)
  /-- An instruction with the span of the node it came from. -/
  | instr (instr : Instr) (span : Span)

namespace Item

def span : Item → Span
  | .node n _ => n.span
  | .instr _ s => s

def isEnvDependent : Item → Bool
  | .node n _ => n.isEnvDependent
  | .instr i _ => i.isEnvDependent

def restoreTarget? : Item → Option EnvId
  | .node .. => none
  | .instr i _ => i.restoreTarget?

def isRestore (item : Item) : Bool := item.restoreTarget?.isSome

def isMarker : Item → Bool
  | .instr .marker _ => true
  | _ => false

/-- A node by its kind, with its name or operator if it has one. -/
def nodeTitle : Node → String
  | .identifier _ name => "Identifier " ++ name
  | .binary _ op _ _ => "Binary " ++ op.symbol
  | .unary _ op _ => "Unary " ++ op.symbol
  | n => n.kindName

def describe : Item → String
  | .node n _ => nodeTitle n ++ " @" ++ n.span.text
  | .instr i _ => i.describe

/-- A block that declares nothing is a sequence of statements. -/
def flatten : Item → Item
  | .node (.block span [] body) skipEnv => .node (.sequence span body) skipEnv
  | item => item

@[simp] theorem span_flatten (item : Item) : item.flatten.span = item.span := by
  unfold flatten; split <;> rfl

@[simp] theorem isEnvDependent_flatten (item : Item) :
    item.flatten.isEnvDependent = item.isEnvDependent := by
  unfold flatten; split <;> simp [isEnvDependent, Node.isEnvDependent]

end Item

structure Control where
  items : Stack Item := Stack.empty
  /-- Number of items that depend on the environment. -/
  envDependent : Nat := 0

namespace Control

def empty : Control := {}

def push (c : Control) (item : Item) : Control :=
  let item := item.flatten
  ⟨c.items.push item, if item.isEnvDependent then c.envDependent + 1 else c.envDependent⟩

def pushNode (c : Control) (n : Node) : Control := c.push (.node n false)

def pushInstr (c : Control) (i : Instr) (span : Span) : Control := c.push (.instr i span)

/-- Push nodes so that the first one ends on top. -/
def pushNodes (c : Control) (nodes : List Node) : Control :=
  nodes.foldr (fun n c => c.pushNode n) c

/-- Push statements so that the first one ends on top, and before each further one the value of
the one before it is dropped. -/
def pushStatements (c : Control) : List Node → Control
  | [] => c
  | [only] => c.pushNode only
  | first :: second :: rest =>
    ((c.pushStatements (second :: rest)).pushInstr .pop second.span).pushNode first

/-- The count without an item that was taken off. -/
def countWithout (count : Nat) (item : Item) : Nat :=
  if item.isEnvDependent then count - 1 else count

def pop? (c : Control) : Option (Item × Control) :=
  match c.items.pop? with
  | some (item, rest) => some (item, ⟨rest, countWithout c.envDependent item⟩)
  | none => none

/-- Items down to the nearest marker and the marker itself taken off a list of items. -/
def dropToMarker : List Item → Nat → Control
  | [], count => ⟨Stack.empty, count⟩
  | item :: rest, count =>
    let count := countWithout count item
    if item.isMarker then ⟨⟨rest⟩, count⟩ else dropToMarker rest count

/-- Give up the rest of a call: all down to the nearest marker goes, or all there is. -/
def unwind (c : Control) : Control := dropToMarker c.items.items c.envDependent

def peek? (c : Control) : Option Item := c.items.peek?

def size (c : Control) : Nat := c.items.size

def isEmpty (c : Control) : Bool := c.items.isEmpty

/-- Nothing left depends on the environment. -/
def canAvoidRestore (c : Control) : Bool := c.envDependent == 0

/-- The items from bottom to top. -/
def toList (c : Control) : List Item := c.items.toList

end Control
end CseMachine
