import CseMachine.Environment
import CseMachine.Environment.Tree

/-!
The memory of an evaluation: all environments, the stack of active ones, and
the heap objects. The current environment is the top of the active stack.
An operation that fails answers its error together with the memory it leaves.
-/
namespace CseMachine

/-- Between two collections at least this much is allocated. -/
def minThreshold : Nat := 256

structure Memory where
  environments : Std.ExtTreeMap EnvId Environment
  /-- The number the next environment gets. -/
  nextEnv : Nat
  /-- Active environments, the current one first. -/
  active : List EnvId
  tree : EnvTree
  store : Store
  /-- Environments and objects made since the last collection. -/
  allocated : Nat
  /-- A collection is due once this much is allocated. -/
  threshold : Nat

namespace Memory

/-- Only the global environment, which is active. -/
def initial : Memory where
  environments := (∅ : Std.ExtTreeMap EnvId Environment).insert .global
    { name := "global", tail := none }
  nextEnv := 1
  active := [.global]
  tree := EnvTree.ofRoot .global
  store := Store.empty
  allocated := 0
  threshold := minThreshold

/-- An operation on the memory that may fail. -/
abbrev Op := EStateM EvalError Memory

def environment? (m : Memory) (id : EnvId) : Option Environment := m.environments[id]?

def setEnvironment (m : Memory) (id : EnvId) (e : Environment) : Memory :=
  { m with environments := m.environments.insert id e }

def unknown (id : EnvId) : EvalError := { cause := .internal (.unknownEnvironment id) }

/-! Active environments -/

def current (m : Memory) : EnvId := m.active.headD .global

def push (m : Memory) (id : EnvId) : Memory := { m with active := id :: m.active }

/-- Leave the current environment; the last one is never left. -/
def pop? (m : Memory) : Option (EnvId × Memory) :=
  match m.active with
  | top :: next :: rest => some (top, { m with active := next :: rest })
  | _ => none

/-- Leave environments until the target, which has to be active, is current. Answers those left,
the innermost first. -/
def restore (target : EnvId) : Op (List EnvId) := fun m =>
  if m.active.contains target then
    .ok (m.active.takeWhile (· ≠ target)) { m with active := m.active.dropWhile (· ≠ target) }
  else .error { cause := .internal (.inactiveEnvironment target) } m

/-- Make the target current by leaving all above its outermost place on the stack. If it is not
active, all but the outermost environment is left and the target entered. Answers those left, the
outermost first. -/
def unwindTo (m : Memory) (target : EnvId) : List EnvId × Memory :=
  let outward := m.active.reverse
  let keep := match outward.idxOf? target with
    | some i => i + 1
    | none => 1
  let kept := (outward.take keep).reverse
  let active := if kept.head? = some target then kept else target :: kept
  (outward.drop keep, { m with active })

/-! Creation -/

/-- A new environment; it is not made active. -/
def create (m : Memory) (name : String) (tail : Option EnvId) : EnvId × Memory :=
  let id : EnvId := ⟨m.nextEnv⟩
  (id, { m with
    environments := m.environments.insert id { name, tail }
    nextEnv := m.nextEnv + 1
    tree := m.tree.insert id tail
    allocated := m.allocated + 1 })

/-- A new environment inside the current one. -/
def createBlock (m : Memory) (name : String) : EnvId × Memory := m.create name (some m.current)

/-! Names -/

/-- Make a name in an environment that does not have it. -/
def declare (env : EnvId) (name : String) (constant : Bool) : Op Unit := fun m =>
  match m.environment? env with
  | none => .error (unknown env) m
  | some e =>
    match e.declare? name constant with
    | some e => .ok () (m.setEnvironment env e)
    | none => .error { cause := .redeclaration name } m

/-- Give a declared name its value. -/
def define (env : EnvId) (name : String) (value : Value) (constant : Bool) : Op Unit := fun m =>
  match m.environment? env with
  | none => .error (unknown env) m
  | some e =>
    match e.define? name value constant with
    | some e => .ok () (m.setEnvironment env e)
    | none => .error { cause := .internal (.undeclared name) } m

/-- Where a name is found on the way outwards. -/
inductive Resolution where
  | found (env : EnvId) (frame : Environment) (slot : Slot)
  /-- No environment on the way has it. -/
  | absent
  /-- The way leads to an environment that does not exist. -/
  | broken (env : EnvId)

/-- Look for a name from an environment outwards, through at most `steps` environments. -/
def resolveFrom (m : Memory) (name : String) : Nat → EnvId → Resolution
  | 0, _ => .absent
  | steps + 1, id =>
    match m.environment? id with
    | none => .broken id
    | some e =>
      match e.lookup? name with
      | some slot => .found id e slot
      | none =>
        match e.tail with
        | some tail => resolveFrom m name steps tail
        | none => .absent

/-- Look for a name from the current environment outwards. No way is longer than the number of
environments ever made. -/
def resolve (m : Memory) (name : String) : Resolution :=
  m.resolveFrom name (m.nextEnv + 1) m.current

/-- The value of a name. -/
def get (m : Memory) (name : String) : Except EvalError Value :=
  match m.resolve name with
  | .found _ _ ⟨some value, _⟩ => .ok value
  | .found _ _ ⟨none, _⟩ => fail (.unassignedVariable name)
  | .absent | .broken _ => fail (.undefinedVariable name)

/-- Overwrite the nearest binding of a name. -/
def assign (name : String) (value : Value) : Op Unit := fun m =>
  match m.resolve name with
  | .found env e slot =>
    if slot.constant then .error { cause := .constantReassignment name } m
    else .ok () (m.setEnvironment env (e.setSlot name ⟨some value, false⟩))
  | .absent => .error { cause := .undefinedVariable name } m
  | .broken env => .error (unknown env) m

/-! Objects -/

/-- A new object in an environment's heap. The object is stored before its owner is looked for. -/
def allocIn (env : EnvId) (content : Content) : Op ObjId := fun m =>
  let (id, store) := m.store.alloc env content
  let m := { m with store }
  match m.environment? env with
  | none => .error (unknown env) m
  | some e =>
    .ok id { m.setEnvironment env { e with heap := e.heap.insert id } with
      allocated := m.allocated + 1 }

/-- A new object in the heap of the current environment. -/
def alloc (content : Content) : Op ObjId := fun m => allocIn m.current content m

/-- Make another environment the owner of an object. Both have to exist, and the object has to be
in the heap of its old owner. -/
def move? (m : Memory) (id : ObjId) (target : EnvId) : Option Memory := do
  let owner ← m.store.owner? id
  if owner = target then none
  else
    let taker ← m.environment? target
    let giver ← m.environment? owner
    let (left, taken) ← giver.heap.moveTo? id taker.heap
    let m := m.setEnvironment owner { giver with heap := left }
    let m := m.setEnvironment target { taker with heap := taken }
    return { m with store := m.store.setOwner id target }

/-- Move an object if it can be moved. -/
def move (m : Memory) (id : ObjId) (target : EnvId) : Memory := (m.move? id target).getD m

/-! Frames of calls -/

/-- Bind parameters to arguments, one by one. -/
def bindParams (env : EnvId) : List Param → List Value → Op Unit
  | p :: ps, v :: vs => do
    declare env p.name false
    define env p.name v false
    bindParams env ps vs
  | _, _ => pure ()

/-- The frame for a call of a closure. Its tail is the environment the closure was made in, and a
rest parameter gets a list of the further arguments, which the frame owns. How many arguments there
are is not checked here. -/
def createFrame (c : Closure) (args : List Value) (callSite : Span) : Op EnvId := do
  let env ← modifyGet fun m => m.create c.displayName (some c.env)
  modify fun m => { m with
    environments := m.environments.modify env fun e => { e with callSite := some callSite } }
  let required := c.func.required
  bindParams env required args
  match c.func.rest? with
  | some p =>
    let list ← allocIn env (.list (args.drop required.length))
    declare env p.name false
    define env p.name (.list list) false
  | none => pure ()
  return env

end Memory
end CseMachine
