import CseMachine.Number

/-!
Values. Functions made by the program and lists live on the heap and are
carried by handle; an error becomes a value when a step fails with it.
-/
namespace CseMachine

inductive Value where
  | none
  | bool (value : Bool)
  | number (value : Number)
  | str (value : String)
  | closure (id : ObjId)
  | list (id : ObjId)
  | builtin (function : Builtin)
  | error (error : EvalError)
  deriving DecidableEq, Repr

namespace Value

instance : Inhabited Value := ⟨.none⟩

@[match_pattern] abbrev int (i : Int) : Value := .number (.int i)

@[match_pattern] abbrev float (x : Float) : Value := .number (.float x)

@[match_pattern] abbrev complex (z : Complex) : Value := .number (.complex z)

def typeName : Value → TypeName
  | .none => .none
  | .bool _ => .bool
  | .number n => n.typeName
  | .str _ => .str
  | .closure _ => .function
  | .list _ => .list
  | .builtin _ => .builtin
  | .error _ => .error

/-- The handle inside a value that lives on the heap. -/
def objectId? : Value → Option ObjId
  | .closure id | .list id => some id
  | _ => Option.none

def isError : Value → Bool
  | .error _ => true
  | _ => false

/-- The value a literal stands for. -/
def ofLiteral : Literal → Value
  | .none => .none
  | .bool b => .bool b
  | .int i => .int i
  | .float x => .float x
  | .imag x => .complex ⟨0.0, x⟩
  | .str s => .str s

end Value
end CseMachine
