import CseMachine.Tree

/-!
Scopes. A program and each function body list the names that are assigned in
them, branches included; these become declarations. Parameters and `nonlocal`
names are bound elsewhere, so assigning them declares nothing.
-/
namespace CseMachine.Parse

structure Scope where
  isFunction : Bool
  params : List String := []
  nonlocals : List String := []
  /-- Assigned names in the order of their first assignment. -/
  declared : List String := []

namespace Scope

def ofFunction (params : List Param) : Scope where
  isFunction := true
  params := params.map (·.name)

/-- The name is bound outside the body. -/
def isOuter (s : Scope) (name : String) : Bool := s.params.contains name || s.nonlocals.contains name

/-- Record an assignment; the answer tells whether it declares the name here. -/
def bind (s : Scope) (name : String) : Bool × Scope :=
  if s.isOuter name then (false, s)
  else if s.declared.contains name then (true, s)
  else (true, { s with declared := s.declared ++ [name] })

def declarations (s : Scope) : List Declaration := s.declared.map fun name => ⟨name, false⟩

end Scope
end CseMachine.Parse
