import CseMachine.Builtin.Registry
import CseMachine.Step

/-!
Driving a context: one step at a time, or until Control is empty, a step
fails or a limit is reached. A spent limit suspends the context, and running
it again goes on exactly where it stopped. A run has no bound of its own, so
it is given one: `none` says that the bound was too small.
-/
namespace CseMachine

/-- Budgets of one run; `none` is no limit. -/
structure Limits where
  steps : Option Nat := none
  /-- Steps that change the current environment. -/
  envSteps : Option Nat := none
  deriving DecidableEq, Repr

inductive SuspendReason where
  | stepLimit (limit : Nat)
  | envSteps (limit : Nat)
  deriving DecidableEq, Repr

namespace SuspendReason

def limit : SuspendReason → Nat
  | .stepLimit n | .envSteps n => n

/-- A spent limit as something to report. -/
def toError (r : SuspendReason) : EvalError := { cause := .stepLimit r.limit }

end SuspendReason

/-- How a run ended. -/
inductive Outcome where
  | finished (value : Value) (repr : String)
  /-- Stopped by a limit after this many steps of this run. -/
  | suspended (reason : SuspendReason) (steps : Nat)
  | error (error : EvalError)

/-- An executed item. -/
structure StepRecord where
  /-- Number of the steps before it. -/
  index : Nat
  item : String
  /-- The phase after it. -/
  phase : Phase
  deriving DecidableEq, Repr

namespace Context

/-- Settle after the last item. -/
def finish (c : Context) : Context := { c.settle with phase := .finished }

/-- One item. Nothing is executed once the context has finished or failed, and finding Control
empty finishes it. -/
def step (c : Context) : Option StepRecord × Context :=
  if c.phase.isTerminal then (none, c)
  else match c.advance? with
    | some (item, next) => (some ⟨c.steps, item.describe, next.phase⟩, next)
    | none => (none, c.finish)

/-- Depth and top of the active environments, which tell whether a step changed them. -/
def envMark (c : Context) : Nat × EnvId := (c.memory.active.length, c.memory.current)

def errorOutcome (c : Context) : Outcome :=
  .error (c.error?.getD { cause := .internal .noError })

def finishedOutcome (c : Context) : Outcome :=
  .finished c.result (c.result.repr c.memory.store)

def suspend (c : Context) (reason : SuspendReason) (taken : Nat) : Outcome × Context :=
  (.suspended reason taken, { c with phase := .suspended })

/-- The run is at its limit before another step. -/
def stepLimit? (limits : Limits) (taken : Nat) : Option SuspendReason :=
  match limits.steps with
  | some limit => if limit ≤ taken then some (.stepLimit limit) else none
  | none => none

/-- Changes of the environment so far, counting the step from one context to the next. -/
def countChange (limits : Limits) (changes : Nat) (before after : Context) : Nat :=
  if limits.envSteps.isSome && after.envMark != before.envMark then changes + 1 else changes

/-- The run is at its limit after a step that changed the environment. -/
def envLimit? (limits : Limits) (before after : Nat) : Option SuspendReason :=
  match limits.envSteps with
  | some limit => if before < after ∧ limit ≤ after then some (.envSteps limit) else none
  | none => none

/-- The run after `taken` steps, `changes` of which changed the environment, within `bound` further
steps. -/
def runFrom (limits : Limits) : Nat → Nat → Nat → Context → Option (Outcome × Context)
  | 0, _, _, _ => none
  | bound + 1, taken, changes, c =>
    if c.control.isEmpty then
      let c := c.finish
      some (c.finishedOutcome, c)
    else match stepLimit? limits taken with
      | some reason => some (c.suspend reason taken)
      | none =>
        match c.advance? with
        | none => none
        | some (_, next) =>
          if next.phase = .errored then some (next.errorOutcome, next)
          else
            let changed := countChange limits changes c next
            match envLimit? limits changes changed with
            | some reason => some (next.suspend reason (taken + 1))
            | none => runFrom limits bound (taken + 1) changed next

/-- Run within a bound on the number of steps. A context that failed only repeats its error. -/
def runWithin (bound : Nat) (limits : Limits) (c : Context) : Option (Outcome × Context) :=
  if c.phase = .errored then some (c.errorOutcome, c)
  else runFrom limits bound 0 0 c

end Context

/-- What every evaluation starts from. -/
structure Setup where
  registry : Registry := Registry.standard
  /-- A program run before any other; closures it makes are marked as predefined. -/
  prelude : Option Node := none

namespace Setup

/-- Bind the builtins as constants of the global environment. -/
def bindAll (bindings : List (String × Value)) : Memory.Op Unit :=
  bindings.forM fun (name, value) => do
    Memory.declare .global name true
    Memory.define .global name value true

/-- A context that failed to start, with its error. -/
structure StartFailure where
  error : EvalError
  context : Context

/-- After the prelude: its value is forgotten and its steps do not count. -/
def afterPrelude (c : Context) : Context :=
  { c with stash := Stack.empty, phase := .idle, steps := 0, predefined := false }

def runPrelude (bound : Nat) (prelude : Node) (c : Context) :
    Option (Except StartFailure Context) :=
  match ({ c with predefined := true }.load prelude).runWithin bound {} with
  | none => none
  | some (.error e, c) => some (.error ⟨e, { c with predefined := false }⟩)
  | some (_, c) => some (.ok (afterPrelude c))

/-- A fresh context: the builtins are bound and the prelude has run. -/
def newContext (s : Setup) (bound : Nat) (run : RunId) : Option (Except StartFailure Context) :=
  match bindAll s.registry.bindings Memory.initial with
  | .error e memory => some (.error ⟨e, { run, memory }⟩)
  | .ok _ memory =>
    let c : Context := { run, memory }
    match s.prelude with
    | some prelude => runPrelude bound prelude c
    | none => some (.ok c)

end Setup
end CseMachine
