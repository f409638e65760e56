import CseMachine.Control
import CseMachine.Memory.Collect
import CseMachine.Value.Show

/-!
The state of one evaluation: Control, the Stash of intermediate values, the
memory, and what was printed so far. A copy of a context is a context of its
own.
-/
namespace CseMachine

/-- Where an evaluation is in its life. -/
inductive Phase where
  /-- Nothing of what was loaded last has run. -/
  | idle
  | running
  /-- A run stopped at a limit and can go on. -/
  | suspended
  /-- Control is empty. -/
  | finished
  /-- A step failed; there is no next one. -/
  | errored
  deriving DecidableEq, Repr

namespace Phase

def text : Phase → String
  | .idle => "Idle"
  | .running => "Running"
  | .suspended => "Suspended"
  | .finished => "Finished"
  | .errored => "Errored"

def isTerminal : Phase → Bool
  | .finished | .errored => true
  | _ => false

end Phase

structure Context where
  control : Control := Control.empty
  stash : Stack Value := Stack.empty
  memory : Memory := Memory.initial
  /-- The errors of failed steps. -/
  errors : List EvalError := []
  phase : Phase := .idle
  /-- Steps taken so far. -/
  steps : Nat := 0
  run : RunId
  /-- Closures made now are marked as predefined. -/
  predefined : Bool := false
  /-- Environment of the program started last; the next one is enclosed by it. -/
  programEnv : Option EnvId := none
  /-- The text printed so far. -/
  output : String := ""

namespace Context

def error? (c : Context) : Option EvalError := c.errors.head?

/-- The top of the Stash, which is the value of a finished program. -/
def result (c : Context) : Value := c.stash.peek?.getD .none

def pushValue (c : Context) (v : Value) : Context := { c with stash := c.stash.push v }

/-- Stop with an error, which also becomes the top of the Stash. -/
def failWith (c : Context) (e : EvalError) : Context :=
  { c.pushValue (.error e) with errors := c.errors ++ [e], phase := .errored }

/-- Hand the object on top of the Stash to the target if an environment that was left owns it. -/
def keepResult (c : Context) (target : EnvId) (left : List EnvId) : Context :=
  match c.stash.peek?.bind Value.objectId? with
  | some id =>
    match c.memory.store.owner? id with
    | some owner =>
      if left.contains owner then { c with memory := c.memory.move id target } else c
    | none => c
  | none => c

/-- Environments that pending items and the next program need. -/
def rootEnvs (c : Context) : List EnvId :=
  c.control.items.items.filterMap Item.restoreTarget? ++ c.programEnv.toList

/-- Objects on the Stash. -/
def rootObjects (c : Context) : List ObjId := c.stash.items.filterMap Value.objectId?

/-- Free what neither Control nor the Stash nor an environment reaches. -/
def collectGarbage (c : Context) : Context :=
  { c with memory := (c.memory.collect c.rootEnvs c.rootObjects).2 }

/-- After the last item: go back to the program's environment, keep the result, free the rest. -/
def settle (c : Context) : Context :=
  let c := match c.programEnv with
    | some program =>
      let (left, memory) := c.memory.unwindTo program
      { c with memory }.keepResult program left
    | none => c
  c.collectGarbage

/-- Put a program on Control. A context that failed stays as it is. -/
def load (c : Context) (program : Node) : Context :=
  if c.phase = .errored then c
  else { c with stash := Stack.empty, control := c.control.pushNode program, phase := .idle }

/-- Texts of Control, Stash and active environments, from bottom to top. -/
structure Snapshot where
  control : List String
  stash : List String
  environments : List String

def stashTexts (c : Context) : List String := c.stash.toList.map (Value.repr c.memory.store)

def snapshot (c : Context) : Snapshot where
  control := c.control.toList.map Item.describe
  stash := c.stashTexts
  environments := c.memory.active.reverse.map fun id =>
    ((c.memory.environment? id).map (·.name)).getD "?" ++ " " ++ id.text

end Context
end CseMachine
