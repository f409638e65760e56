import CseMachine.Value

/-!
The names a program finds from the start: functions and constants, each list
in the order in which it is bound.
-/
namespace CseMachine

structure Registry where
  functions : List Builtin := []
  constants : List (String × Float) := []

namespace Registry

def empty : Registry := {}

/-- The nearest doubles to π, e and 2π, and the two special ones. -/
def mathConstants : List (String × Float) :=
  [("math_pi", Float.ofBits 0x400921FB54442D18), ("math_e", Float.ofBits 0x4005BF0A8B145769),
   ("math_tau", Float.ofBits 0x401921FB54442D18), ("math_inf", Binary64.inf false),
   ("math_nan", Binary64.nan)]

def standard : Registry := ⟨Builtin.all, mathConstants⟩

def function? (r : Registry) (name : String) : Option Builtin :=
  r.functions.find? (·.name == name)

def constant? (r : Registry) (name : String) : Option Float :=
  (r.constants.find? (·.1 == name)).map Prod.snd

/-- Add what has a name in the standard registry, unless it is there already. -/
def add (r : Registry) (name : String) : Registry :=
  match standard.function? name, standard.constant? name with
  | some f, _ => if (r.function? name).isSome then r else { r with functions := r.functions ++ [f] }
  | none, some x =>
    if (r.constant? name).isSome then r else { r with constants := r.constants ++ [(name, x)] }
  | none, none => r

def ofNames (names : List String) : Registry := names.foldl add empty

/-- All bindings, functions first. -/
def bindings (r : Registry) : List (String × Value) :=
  r.functions.map (fun f => (f.name, .builtin f)) ++ r.constants.map fun (n, x) => (n, .float x)

end Registry
end CseMachine
