import CseMachine.Proofs.Variant.Standard

/-!
# Sessions

What a caller does with a context: load programs, take steps, run. A run that
does not end within the bound it is given ends the session.
-/
namespace CseMachine

inductive Call where
  | load (program : Node)
  | step
  | run (limits : Limits) (bound : Nat)

inductive Reply where
  | loaded
  | stepped (record : Option StepRecord)
  | ran (outcome : Outcome)

namespace Context

/-- All that a caller can see of a context. -/
structure View where
  snapshot : Snapshot
  control : Control
  stash : Stack Value
  result : String
  output : String
  active : List EnvId
  /-- The ids that the next environment and the next object get. -/
  nextEnv : Nat
  nextObject : Nat
  phase : Phase
  steps : Nat
  errors : List EvalError

def view (c : Context) : View where
  snapshot := c.snapshot
  control := c.control
  stash := c.stash
  result := c.result.repr c.memory.store
  output := c.output
  active := c.memory.active
  nextEnv := c.memory.nextEnv
  nextObject := c.memory.store.next
  phase := c.phase
  steps := c.steps
  errors := c.errors

def perform (c : Context) : Call → Option (Reply × Context)
  | .load program => some (.loaded, c.load program)
  | .step => some (.stepped c.step.1, c.step.2)
  | .run limits bound => (c.runWithin bound limits).map fun (outcome, c) => (.ran outcome, c)

/-- The replies to calls in turn, each with what can be seen after it. -/
def replies (c : Context) : List Call → List (Reply × View)
  | [] => []
  | call :: calls =>
    match c.perform call with
    | none => []
    | some (reply, c) => (reply, c.view) :: c.replies calls

end Context

namespace Variant

variable (v : Variant)

def perform (c : Context) : Call → Option (Reply × Context)
  | .load program => some (.loaded, c.load program)
  | .step => some (.stepped (v.step c).1, (v.step c).2)
  | .run limits bound => (v.runWithin bound limits c).map fun (outcome, c) => (.ran outcome, c)

/-- The replies to calls, before each of which so many collections are made. -/
def replies (c : Context) : List (Nat × Call) → List (Reply × Context.View)
  | [] => []
  | (collections, call) :: calls =>
    match v.perform (Context.collectGarbage^[collections] c) call with
    | none => []
    | some (reply, c) => (reply, c.view) :: replies c calls

theorem perform_standard (c : Context) (call : Call) : standard.perform c call = c.perform call := by
  cases call with
  | load program => rfl
  | step => simp only [perform, Context.perform, step_standard]
  | run limits bound => simp only [perform, Context.perform, runWithin_standard]

end Variant
end CseMachine
