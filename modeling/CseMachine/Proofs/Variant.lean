import CseMachine.Run
import Mathlib.Logic.Function.Iterate

/-!
# Variants of the machine

The machine saves work in four ways and collects when it likes. A variant says
which of the savings are made and how often a collection runs at each place
where one may run; the standard variant is the machine itself.
-/
namespace CseMachine

namespace Node

/-- Statements in order, the value of each but the last dropped. -/
def statementItems : List Node → List Item
  | [] => []
  | [only] => [.node only false]
  | first :: second :: rest =>
    .node first false :: .instr .pop second.span :: statementItems (second :: rest)

def operands (nodes : List Node) : List Item := nodes.map fun n => .node n false

/-- What takes the place of a node on Control, the top first, if that is all the node does. -/
def parts? : Node → Option (List Item)
  | .sequence _ (first :: rest) => some (statementItems (first :: rest))
  | .expression _ e => some (operands [e])
  | .assign span target value declaration =>
    some (operands [value] ++ [.instr (.assignment target false declaration) span])
  | .ret span (some e) => some (operands [e] ++ [.instr .reset span])
  | .branch span test yes no => some (operands [test] ++ [.instr (.branch yes no) span])
  | .conditional span test yes no => some (operands [test] ++ [.instr (.branch yes (some no)) span])
  | .unary span op e => some (operands [e] ++ [.instr (.unary op) span])
  | .binary span op a b => some (operands [a, b] ++ [.instr (.binary op) span])
  | .call span callee args =>
    some (operands (callee :: args) ++ [.instr (.application args.length) span])
  | .list span items => some (operands items ++ [.instr (.list items.length) span])
  | .subscript span a b => some (operands [a, b] ++ [.instr .subscript span])
  | _ => none

end Node

structure Variant where
  /-- A restore is pushed only if something left depends on the environment and no restore is next. -/
  sparesRestores : Bool
  /-- A call after which nothing depends on the environment takes the place of the caller's frame. -/
  replacesFrames : Bool
  /-- A body that is one `return` is entered by its expression, without a marker. -/
  skipsMarkers : Bool
  /-- A block that declares nothing is pushed as a sequence. -/
  flattensBlocks : Bool
  /-- Number of collections after a step, given what it leaves. -/
  afterStep : Context → Nat
  /-- Number of collections after the last item. -/
  atEnd : Context → Nat

namespace Variant

/-- A collection whenever one is due, and one at the end. -/
def standard : Variant where
  sparesRestores := true
  replacesFrames := true
  skipsMarkers := true
  flattensBlocks := true
  afterStep c := if c.memory.isDue then 1 else 0
  atEnd _ := 1

/-- The machine without its savings. -/
def plain : Variant := { standard with
  sparesRestores := false
  replacesFrames := false
  skipsMarkers := false
  flattensBlocks := false }

variable (v : Variant)

/-- The same savings with other collections. -/
def collecting (afterStep atEnd : Context → Nat) : Variant := { v with afterStep, atEnd }

/-- The same savings without any collection. -/
def hoarding : Variant := v.collecting (fun _ => 0) fun _ => 0

/-! Control -/

def shape (item : Item) : Item := if v.flattensBlocks then item.flatten else item

def push (c : Control) (item : Item) : Control :=
  let item := v.shape item
  ⟨c.items.push item, if item.isEnvDependent then c.envDependent + 1 else c.envDependent⟩

/-- Push items so that the first one ends on top. -/
def pushAll (c : Control) (items : List Item) : Control := items.foldr (fun i c => v.push c i) c

open CseMachine.Action (pushControl pushValue popValue popValues onMemory raise enter declareAll)

/-! Items -/

def pushRestore (span : Span) : Action Unit := modify fun c =>
  if v.sparesRestores && (c.control.canAvoidRestore || c.control.peek?.any Item.isRestore) then c
  else { c with control := v.push c.control (.instr (.restore c.memory.current) span) }

def pushStatements (body : List Node) : Action Unit :=
  match body with
  | [] => pushValue .none
  | _ => pushControl (v.pushAll · (Node.statementItems body))

/-- A node that does more than leave its parts behind. -/
def evalSelf (skipEnv : Bool) : Node → Action Unit
  | .program _ declarations body => do
    let tail := Action.programTail (← get)
    let env ← enter fun m => m.create "programEnvironment" (some tail)
    modify fun c => { c with programEnv := some env }
    declareAll env declarations
    v.pushStatements body
  | .block span declarations body => do
    let env ←
      if skipEnv then pure (← get).memory.current
      else do
        v.pushRestore span
        enter fun m => m.createBlock "blockEnvironment"
    declareAll env declarations
    v.pushStatements body
  | n => Action.evalNode skipEnv n

def evalNode (skipEnv : Bool) (n : Node) : Action Unit :=
  match n.parts? with
  | some items => pushControl (v.pushAll · items)
  | none => v.evalSelf skipEnv n

def leaveCaller (span : Span) : Action Unit := do
  if v.replacesFrames && (← get).control.canAvoidRestore then
    modify fun c => match c.memory.pop? with
      | some (_, memory) => { c with memory }
      | none => c
  else v.pushRestore span

/-- What is left to do in a call. -/
def bodyItems (func : Func) (span : Span) : List Item :=
  match if v.skipsMarkers then func.singleReturn? else none with
  | some e => [.node e false]
  | none => [.node func.body true, .instr .marker span]

def callClosure (id : ObjId) (args : List Value) (span : Span) : Action Unit := do
  let c ← get
  match c.memory.store.closure? id with
  | none => raise (.internal (.notAClosure id))
  | some closure =>
    if closure.run ≠ c.run then raise (.internal .foreignClosure)
    else
      Action.ofExcept (Action.checkArguments closure args.length)
      v.leaveCaller span
      let env ← onMemory (Memory.createFrame closure args span)
      modify fun c => { c with memory := c.memory.push env }
      pushControl (v.pushAll · (v.bodyItems closure.func span))

def apply (count : Nat) (span : Span) : Action Unit := do
  let args ← popValues count .shortStashForCall
  match ← popValue with
  | .builtin f => Action.callBuiltin f args
  | .closure id => v.callClosure id args span
  | w => raise (.notCallable w.typeName)

def branch (yes : Node) (no : Option Node) : Action Unit := do
  match ← popValue with
  | .bool taken =>
    match if taken then some yes else no with
    | some n => pushControl (v.push · (.node n true))
    | none => pushValue .none
  | w => raise (.notABool .condition w.typeName)

def execInstr (span : Span) : Instr → Action Unit
  | .application count => v.apply count span
  | .branch yes no => v.branch yes no
  | i => Action.execInstr span i

def execute : Item → Action Unit
  | .node n skipEnv => v.evalNode skipEnv n
  | .instr i span => v.execInstr span i

/-! Steps and runs -/

def advance? (c : Context) : Option (Item × Context) :=
  match c.control.pop? with
  | none => none
  | some (item, control) =>
    let c := { c with control, phase := .running, steps := c.steps + 1 }
    match v.execute item c with
    | .ok _ c => some (item, Context.collectGarbage^[v.afterStep c] c)
    | .error e c => some (item, c.failWith (e.withSpan item.span))

/-- Back to the program's environment, with the result. -/
def unwind (c : Context) : Context :=
  match c.programEnv with
  | some program =>
    let (left, memory) := c.memory.unwindTo program
    { c with memory }.keepResult program left
  | none => c

def finish (c : Context) : Context :=
  { Context.collectGarbage^[v.atEnd (unwind c)] (unwind c) with phase := .finished }

def step (c : Context) : Option StepRecord × Context :=
  if c.phase.isTerminal then (none, c)
  else match v.advance? c with
    | some (item, next) => (some ⟨c.steps, item.describe, next.phase⟩, next)
    | none => (none, v.finish c)

def runFrom (limits : Limits) : Nat → Nat → Nat → Context → Option (Outcome × Context)
  | 0, _, _, _ => none
  | bound + 1, taken, changes, c =>
    if c.control.isEmpty then
      let c := v.finish c
      some (c.finishedOutcome, c)
    else match Context.stepLimit? limits taken with
      | some reason => some (c.suspend reason taken)
      | none =>
        match v.advance? c with
        | none => none
        | some (_, next) =>
          if next.phase = .errored then some (next.errorOutcome, next)
          else
            let changed := Context.countChange limits changes c next
            match Context.envLimit? limits changes changed with
            | some reason => some (next.suspend reason (taken + 1))
            | none => runFrom limits bound (taken + 1) changed next

def runWithin (bound : Nat) (limits : Limits) (c : Context) : Option (Outcome × Context) :=
  if c.phase = .errored then some (c.errorOutcome, c)
  else v.runFrom limits bound 0 0 c

end Variant
end CseMachine
