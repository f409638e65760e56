import CseMachine.Store

/-!
Environments: one frame of names and a link to the enclosing frame. A name is
declared before it has a value, and names keep the order of their declaration.
-/
namespace CseMachine

/-- What a frame knows of a name; one that is only declared has no value yet. -/
structure Slot where
  value : Option Value
  constant : Bool
  deriving DecidableEq, Repr

structure Environment where
  name : String
  /-- The enclosing environment. -/
  tail : Option EnvId
  /-- In the order of declaration; every name is there once. -/
  bindings : List (String × Slot) := []
  heap : Heap := {}
  /-- The call that made this frame, if one did. -/
  callSite : Option Span := none

namespace Environment

def lookup? (e : Environment) (name : String) : Option Slot := e.bindings.lookup name

/-- Make a name, which must not be there yet. -/
def declare? (e : Environment) (name : String) (constant : Bool) : Option Environment :=
  if (e.lookup? name).isSome then none
  else some { e with bindings := e.bindings ++ [(name, ⟨none, constant⟩)] }

/-- The bindings with another slot for a name. -/
def replace (name : String) (slot : Slot) (bindings : List (String × Slot)) : List (String × Slot) :=
  bindings.map fun (n, s) => (n, if n == name then slot else s)

def setSlot (e : Environment) (name : String) (slot : Slot) : Environment :=
  { e with bindings := replace name slot e.bindings }

/-- Give a declared name its value. -/
def define? (e : Environment) (name : String) (value : Value) (constant : Bool) :
    Option Environment :=
  if (e.lookup? name).isSome then some (e.setSlot name ⟨some value, constant⟩) else none

/-- Handles of the objects that the frame's names are bound to. -/
def handles (e : Environment) : List ObjId :=
  e.bindings.filterMap fun (_, s) => s.value.bind Value.objectId?

def isEmpty (e : Environment) : Bool := e.bindings.isEmpty

end Environment
end CseMachine
