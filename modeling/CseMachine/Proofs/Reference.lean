import CseMachine.Proofs.Variant

/-!
# Direct evaluation

The language as a recursive evaluator of trees, without Control, Stash or active
environments. Frames enclose one another, a call runs its body in a new frame
inside the one its function was made in, and a `return` leaves the innermost call.
The only bound is on the depth of calls.
-/
namespace CseMachine

/-- How a run ended, without the context it left. -/
inductive Ending where
  | value (repr : String)
  | suspended (reason : SuspendReason)
  | error (e : EvalError)

/-- How a run ended and what it printed. -/
structure Conclusion where
  ending : Ending
  output : String

def Outcome.ending : Outcome → Ending
  | .finished _ repr => .value repr
  | .suspended reason _ => .suspended reason
  | .error e => .error e

/-- How a run without limits ends, if it does within the bound. -/
def Context.conclusion? (c : Context) (bound : Nat) : Option Conclusion :=
  (c.runWithin bound {}).map fun (o, d) => ⟨o.ending, d.output⟩

def Variant.conclusion? (v : Variant) (c : Context) (bound : Nat) : Option Conclusion :=
  (v.runWithin bound {} c).map fun (o, d) => ⟨o.ending, d.output⟩

namespace Reference

/-- The names of one scope, and the frames around it, the nearest first. -/
structure Frame where
  outer : List EnvId := []
  names : List (String × Slot) := []

structure World where
  /-- By their numbers. -/
  frames : List Frame
  store : Store := {}
  output : String := ""
  run : RunId

/-- Why an evaluation ends without a value. -/
inductive Exit where
  /-- A `return` on its way out of the innermost call. -/
  | returned (w : Value)
  | failed (e : EvalError)
  /-- Calls are nested too deep. -/
  | tooDeep

abbrev Eval := EStateM Exit World

namespace World

def frame (w : World) (env : EnvId) : Frame := w.frames.getD env.index {}

/-- The frame and those around it. -/
def outward (w : World) (env : EnvId) : List EnvId := env :: (w.frame env).outer

/-- The nearest frame that has the name. -/
def find? (w : World) (env : EnvId) (name : String) : Option (EnvId × Slot) :=
  (w.outward env).findSome? fun id => ((w.frame id).names.lookup name).map (id, ·)

def update (w : World) (env : EnvId) (f : List (String × Slot) → List (String × Slot)) : World :=
  { w with frames := w.frames.modify env.index fun frame => { frame with names := f frame.names } }

end World

def rebind (name : String) (slot : Slot) (names : List (String × Slot)) : List (String × Slot) :=
  names.map fun (n, s) => (n, if n == name then slot else s)

variable {α : Type}

/-- Fail at a place in the source. -/
def stop (span : Span) (cause : EvalError.Cause) : Eval α := throw (.failed { cause, span := some span })

def ofExcept (span : Span) : Except EvalError α → Eval α
  | .ok a => pure a
  | .error e => throw (.failed (e.withSpan span))

/-- A rule that asks for the world gets the one it runs in. -/
theorem get_bind (f : World → Eval α) (w : World) : (get >>= f) w = f w w := rfl

/-! Names -/

def lookup (span : Span) (env : EnvId) (name : String) : Eval Value := do
  match (← get).find? env name with
  | some (_, ⟨some value, _⟩) => return value
  | some (_, ⟨none, _⟩) => stop span (.unassignedVariable name)
  | none => stop span (.undefinedVariable name)

def declare (env : EnvId) (declarations : List Declaration) : Eval Unit :=
  modify fun w => w.update env (· ++ declarations.map fun d => (d.name, ⟨none, d.constant⟩))

/-- A closure without a name is called by the first one it is bound to. -/
def nameValue (name : String) : Value → Eval Unit
  | .closure id => modify fun w => { w with store := w.store.nameClosure id name }
  | _ => pure ()

/-- A declaration binds in the frame itself, any other assignment where the name is found. -/
def bindName (span : Span) (env : EnvId) (name : String) (value : Value) (declaration : Bool) : Eval Unit := do
  if declaration then modify fun w => w.update env (rebind name ⟨some value, false⟩)
  else
    match (← get).find? env name with
    | some (owner, slot) =>
      if slot.constant then stop span (.constantReassignment name)
      else modify fun w => w.update owner (rebind name ⟨some value, false⟩)
    | none => stop span (.undefinedVariable name)

def assign (span : Span) (env : EnvId) (name : String) (value : Value) (declaration : Bool) : Eval Unit := do
  nameValue name value
  bindName span env name value declaration

/-! Objects and frames -/

def alloc (env : EnvId) (content : Content) : Eval ObjId := modifyGet fun w =>
  let (id, store) := w.store.alloc env content
  (id, { w with store })

def enterFrame (outer : List EnvId) (names : List (String × Slot)) : Eval EnvId := modifyGet fun w =>
  (⟨w.frames.length⟩, { w with frames := w.frames ++ [⟨outer, names⟩] })

/-- The function made here. -/
def closure (make : Func → EnvId → RunId → Bool → Span → Closure) (env : EnvId) (func : Func) (span : Span) :
    Eval Value := do
  return .closure (← alloc env (.closure (make func env (← get).run false span)))

/-! Calls -/

/-- Each parameter takes an argument, and the rest parameter a list of what is left. -/
def checkArguments (closure : Closure) (given : Nat) : Except EvalError Unit :=
  let required := closure.func.required
  let notes : List EvalError.Note := [⟨"`" ++ closure.displayName ++ "` is defined here", some closure.span⟩]
  if given < required.length then
    .error { cause := .missingArguments closure.displayName ((required.drop given).map (·.name)), notes }
  else if required.length < given ∧ closure.func.rest?.isNone then
    .error { cause := .tooManyArguments closure.displayName required.length given, notes }
  else .ok ()

def bindArguments (closure : Closure) (args : List Value) : Eval (List (String × Slot)) := do
  let required := closure.func.required
  let bound := (required.zip args).map fun (p, w) => (p.name, ⟨some w, false⟩)
  match closure.func.rest? with
  | none => return bound
  | some p =>
    let rest ← alloc closure.env (.list (args.drop required.length))
    return bound ++ [(p.name, ⟨some (.list rest), false⟩)]

/-- Call a value, given what entering a closure does. -/
def apply (enter : Closure → List Value → Eval Value) (span : Span) (callee : Value) (args : List Value) :
    Eval Value := do
  match callee with
  | .builtin f =>
    let store := (← get).store
    let value ← ofExcept span (f.call store args)
    modify fun w => { w with output := w.output ++ f.printed store args }
    return value
  | .closure id =>
    match (← get).store.closure? id with
    | none => stop span (.internal (.notAClosure id))
    | some closure =>
      ofExcept span (checkArguments closure args.length)
      enter closure args
  | v => stop span (.notCallable v.typeName)

/-- Only a bool decides. -/
def test (span : Span) : Value → Eval Bool
  | .bool taken => return taken
  | v => stop span (.notABool .condition v.typeName)

/-- Here a `return` arrives. -/
def catchReturn (x : Eval Value) : Eval Value := fun w =>
  match x w with
  | .error (.returned v) w => .ok v w
  | r => r

/-! Trees -/

section

variable (enter : Closure → List Value → Eval Value) (env : EnvId)

mutual

def eval : Node → Eval Value
  | .program _ declarations body | .block _ declarations body => do
    declare env declarations
    evalStatements body
  | .sequence _ body => evalStatements body
  | .expression _ e => eval e
  | .assign span target value declaration => do
    assign span env target (← eval value) declaration
    return .none
  | .define span name func declaration => do
    assign span env name (← closure Closure.ofDefine env func span) declaration
    return .none
  | .ret _ value => do throw (.returned (← evalOption value))
  | .branch span condition yes no => do
    if ← test span (← eval condition) then eval yes else evalOption no
  | .conditional span condition yes no => do
    if ← test span (← eval condition) then eval yes else eval no
  | .pass _ => return .none
  | .literal _ l => return .ofLiteral l
  | .identifier span name => lookup span env name
  | .unary span op e => do
    let v ← eval e
    ofExcept span (v.unary op)
  | .binary span op a b => do
    let v ← eval a
    let w ← eval b
    ofExcept span (v.binary (← get).store op w)
  | .lambda span func => closure Closure.ofLambda env func span
  | .call span callee args => do
    let f ← eval callee
    let values ← evalAll args
    apply enter span f values
  | .list _ items => do
    let values ← evalAll items
    return .list (← alloc env (.list values))
  | .subscript span value index => do
    let v ← eval value
    let i ← eval index
    ofExcept span (v.subscript (← get).store i)

/-- The value of the last one; no statement at all gives `None`. -/
def evalStatements : List Node → Eval Value
  | [] => return .none
  | [only] => eval only
  | first :: rest => do
    let _ ← eval first
    evalStatements rest

/-- From left to right. -/
def evalAll : List Node → Eval (List Value)
  | [] => return []
  | n :: rest => do
    let v ← eval n
    let vs ← evalAll rest
    return v :: vs

def evalOption : Option Node → Eval Value
  | none => return .none
  | some n => eval n

end

end

/-- A call at most so many calls deep. -/
def enter : Nat → Closure → List Value → Eval Value
  | 0, _, _ => throw .tooDeep
  | depth + 1, closure, args => do
    let names ← bindArguments closure args
    let env ← enterFrame ((← get).outward closure.env) names
    catchReturn (eval (enter depth) env closure.func.body)

/-! Programs -/

/-- The world with the standard builtins as constants. -/
def World.initial (run : RunId) : World where
  frames := [{ names := Registry.standard.bindings.map fun (name, w) => (name, ⟨some w, true⟩) }]
  run := run

def evalProgram (depth : Nat) (program : Node) : Eval Value := do
  let env ← enterFrame [.global] []
  eval (enter depth) env program

/-- What an evaluation comes to, unless its calls are nested too deep. -/
def conclude? : EStateM.Result Exit World Value → Option Conclusion
  | .ok v w => some ⟨.value (v.repr w.store), w.output⟩
  | .error (.failed e) w => some ⟨.error e, w.output⟩
  | .error (.returned _) _ | .error .tooDeep _ => none

/-- How a program ends, unless its calls are nested deeper than allowed. -/
def conclusion? (depth : Nat) (run : RunId) (program : Node) : Option Conclusion :=
  conclude? (evalProgram depth program (World.initial run))

end Reference
end CseMachine
