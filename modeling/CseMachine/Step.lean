import CseMachine.Builtin.Call
import CseMachine.Context

/-!
One step of the machine. A node either leaves its value on the Stash or is
replaced on Control by its parts and an instruction below them; parts are
pushed in reverse, so the leftmost is evaluated first. An instruction works on
the Stash and the environments. A step that fails keeps what it has done.
-/
namespace CseMachine

/-- What an item does to a context. -/
abbrev Action := EStateM EvalError Context

namespace Action

/-- An operation on the memory alone. -/
def onMemory {α : Type} (op : Memory.Op α) : Action α := fun c =>
  match op c.memory with
  | .ok a memory => .ok a { c with memory }
  | .error e memory => .error e { c with memory }

/-- A result that depends on nothing that changes. -/
def ofExcept {α : Type} : Except EvalError α → Action α
  | .ok a => pure a
  | .error e => throw e

def raise {α : Type} (cause : EvalError.Cause) : Action α := throw { cause }

def pushControl (f : Control → Control) : Action Unit :=
  modify fun c => { c with control := f c.control }

def pushValue (v : Value) : Action Unit := modify fun c => c.pushValue v

def popValue : Action Value := fun c =>
  match c.stash.pop? with
  | some (v, stash) => .ok v { c with stash }
  | none => .error { cause := .internal .emptyStash } c

/-- The top values, the lowest of them first. -/
def popValues (count : Nat) (fault : EvalError.Fault) : Action (List Value) := fun c =>
  match c.stash.popN? count with
  | some (vs, stash) => .ok vs { c with stash }
  | none => .error { cause := .internal fault } c

/-- Arrange the return to the current environment, unless nothing left would notice or a return is
next anyway. -/
def pushRestore (span : Span) : Action Unit := modify fun c =>
  if c.control.canAvoidRestore || c.control.peek?.any Item.isRestore then c
  else { c with control := c.control.pushInstr (.restore c.memory.current) span }

/-- Enter a new environment. -/
def enter (create : Memory → EnvId × Memory) : Action EnvId := modifyGet fun c =>
  let (env, memory) := create c.memory
  (env, { c with memory := memory.push env })

def declareAll (env : EnvId) (declarations : List Declaration) : Action Unit :=
  declarations.forM fun d => onMemory (Memory.declare env d.name d.constant)

/-- Statements in order, of which the last gives the value; no statement at all gives `None`. -/
def pushStatements (body : List Node) : Action Unit :=
  match body with
  | [] => pushValue .none
  | _ => pushControl (·.pushStatements body)

/-- A program is enclosed by the one before it. -/
def programTail (c : Context) : EnvId := c.programEnv.getD c.memory.current

/-- What makes a closure of a function here. -/
def closureHere (make : Func → EnvId → RunId → Bool → Span → Closure) (func : Func) (span : Span) :
    Action Value := do
  let c ← get
  let id ← onMemory (Memory.alloc (.closure (make func c.memory.current c.run c.predefined span)))
  return .closure id

def evalNode (skipEnv : Bool) : Node → Action Unit
  | .program _ declarations body => do
    let tail := programTail (← get)
    let env ← enter fun m => m.create "programEnvironment" (some tail)
    modify fun c => { c with programEnv := some env }
    declareAll env declarations
    pushStatements body
  | .block span declarations body => do
    let env ←
      if skipEnv then pure (← get).memory.current
      else do
        pushRestore span
        enter fun m => m.createBlock "blockEnvironment"
    declareAll env declarations
    pushStatements body
  | .sequence _ body => pushStatements body
  | .expression _ e => pushControl (·.pushNode e)
  | .assign span target value declaration =>
    pushControl fun c => (c.pushInstr (.assignment target false declaration) span).pushNode value
  | .define span name func declaration => do
    let closure ← closureHere Closure.ofDefine func span
    pushControl (·.pushInstr (.assignment name false declaration) span)
    pushValue closure
  | .ret span value => do
    pushControl (·.pushInstr .reset span)
    match value with
    | some e => pushControl (·.pushNode e)
    | none => pushValue .none
  | .branch span test yes no =>
    pushControl fun c => (c.pushInstr (.branch yes no) span).pushNode test
  | .conditional span test yes no =>
    pushControl fun c => (c.pushInstr (.branch yes (some no)) span).pushNode test
  | .pass _ => pushValue .none
  | .literal _ l => pushValue (.ofLiteral l)
  | .identifier _ name => do pushValue (← ofExcept ((← get).memory.get name))
  | .unary span op e => pushControl fun c => (c.pushInstr (.unary op) span).pushNode e
  | .binary span op a b =>
    pushControl fun c => (c.pushInstr (.binary op) span).pushNodes [a, b]
  | .lambda span func => do pushValue (← closureHere Closure.ofLambda func span)
  | .call span callee args =>
    pushControl fun c => (c.pushInstr (.application args.length) span).pushNodes (callee :: args)
  | .list span items =>
    pushControl fun c => (c.pushInstr (.list items.length) span).pushNodes items
  | .subscript span value index =>
    pushControl fun c => (c.pushInstr .subscript span).pushNodes [value, index]

/-- A remark that points at the function. -/
def definedHere (closure : Closure) : EvalError.Note :=
  ⟨"`" ++ closure.displayName ++ "` is defined here", some closure.span⟩

/-- The number of arguments has to fit, and no parameter may be a local name too. -/
def checkArguments (closure : Closure) (given : Nat) : Except EvalError Unit :=
  let required := closure.func.required
  let name := closure.displayName
  if given < required.length then
    .error {
      cause := .missingArguments name ((required.drop given).map (·.name))
      notes := [definedHere closure] }
  else if required.length < given ∧ closure.func.rest?.isNone then
    .error {
      cause := .tooManyArguments name required.length given
      notes := [definedHere closure] }
  else
    match closure.func.params.find? fun p => closure.func.locals.contains p.name with
    | some p => .error { cause := .redeclaration p.name, span := some p.span }
    | none => .ok ()

/-- Leave the caller's frame if nothing left reads it, else arrange the return to it. -/
def leaveCaller (span : Span) : Action Unit := do
  if (← get).control.canAvoidRestore then
    modify fun c => match c.memory.pop? with
      | some (_, memory) => { c with memory }
      | none => c
  else pushRestore span

/-- What is left to do in a call: the returned expression alone, or the body above a marker. -/
def pushBody (func : Func) (span : Span) : Action Unit :=
  match func.singleReturn? with
  | some e => pushControl (·.pushNode e)
  | none => pushControl fun c => (c.pushInstr .marker span).push (.node func.body true)

def callClosure (id : ObjId) (args : List Value) (span : Span) : Action Unit := do
  let c ← get
  match c.memory.store.closure? id with
  | none => raise (.internal (.notAClosure id))
  | some closure =>
    if closure.run ≠ c.run then raise (.internal .foreignClosure)
    else
      ofExcept (checkArguments closure args.length)
      leaveCaller span
      let env ← onMemory (Memory.createFrame closure args span)
      modify fun c => { c with memory := c.memory.push env }
      pushBody closure.func span

def callBuiltin (f : Builtin) (args : List Value) : Action Unit := do
  let store := (← get).memory.store
  let value ← ofExcept (f.call store args)
  modify fun c => { c with output := c.output ++ f.printed store args }
  pushValue value

def apply (count : Nat) (span : Span) : Action Unit := do
  let args ← popValues count .shortStashForCall
  match ← popValue with
  | .builtin f => callBuiltin f args
  | .closure id => callClosure id args span
  | v => raise (.notCallable v.typeName)

/-- Bind a name. A closure that has no name yet takes this one. -/
def assign (name : String) (constant declaration : Bool) : Action Unit := do
  let value ← popValue
  match value with
  | .closure id =>
    modify fun c => { c with memory := { c.memory with store := c.memory.store.nameClosure id name } }
  | _ => pure ()
  if declaration then
    let env := (← get).memory.current
    onMemory (Memory.define env name value constant)
  else onMemory (Memory.assign name value)
  pushValue .none

def execInstr (span : Span) : Instr → Action Unit
  | .pop => do
    let _ ← popValue
  | .assignment name constant declaration => assign name constant declaration
  | .unary op => do
    let v ← popValue
    pushValue (← ofExcept (v.unary op))
  | .binary op => do
    let w ← popValue
    let v ← popValue
    pushValue (← ofExcept (v.binary (← get).memory.store op w))
  | .application count => apply count span
  | .branch yes no => do
    match ← popValue with
    | .bool taken =>
      match if taken then some yes else no with
      | some n => pushControl (·.push (.node n true))
      | none => pushValue .none
    | v => raise (.notABool .condition v.typeName)
  | .restore target => do
    let left ← onMemory (Memory.restore target)
    modify fun c => c.keepResult target left
  | .marker => pure ()
  | .reset => pushControl Control.unwind
  | .list count => do
    let items ← popValues count .shortStashForList
    let id ← onMemory (Memory.alloc (.list items))
    pushValue (.list id)
  | .subscript => do
    let index ← popValue
    let container ← popValue
    pushValue (← ofExcept (container.subscript (← get).memory.store index))

/-- Execute an item that was taken off Control. -/
def execute : Item → Action Unit
  | .node n skipEnv => evalNode skipEnv n
  | .instr i span => execInstr span i

end Action

namespace Context

/-- Take the top item off Control and execute it; `none` if there is none. A failure points at the
item unless it points elsewhere already. Between steps all that is alive can be reached, so this is
where a collection runs if one is due. -/
def advance? (c : Context) : Option (Item × Context) :=
  match c.control.pop? with
  | none => none
  | some (item, control) =>
    let c := { c with control, phase := .running, steps := c.steps + 1 }
    match Action.execute item c with
    | .ok _ c => some (item, if c.memory.isDue then c.collectGarbage else c)
    | .error e c => some (item, c.failWith (e.withSpan item.span))

end Context
end CseMachine
