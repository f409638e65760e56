import CseMachine.Store

/-!
Operators on values. Nothing is converted silently: numbers compute with
numbers, strings join strings, and only a bool can be negated. Equality is
defined for all values, an order for real numbers and for strings.
-/
namespace CseMachine
namespace Value

/-- The test of equality on values whose lists are nested at most `bound` deep. A list equals
itself even if an element does not. -/
def equalWithin (store : Store) : Nat → Value → Value → Bool
  | _, .none, .none => true
  | _, .bool a, .bool b => a == b
  | _, .number a, .number b => a.equal b
  | _, .str a, .str b => a == b
  | _, .closure a, .closure b => a == b
  | _, .builtin a, .builtin b => a == b
  | 0, .list a, .list b => a == b
  | bound + 1, .list a, .list b =>
    a == b || match store.list? a, store.list? b with
      | some xs, some ys =>
        xs.length == ys.length &&
          (xs.zip ys).all fun (x, y) => equalWithin store bound x y
      | _, _ => false
  | _, _, _ => false

/-- Equality; values of different kinds differ. -/
def equal (store : Store) (v w : Value) : Bool := equalWithin store store.next v w

/-- Order of two values: `some none` if a NaN is among them, `none` if their kinds have no order. -/
def compare? : Value → Value → Option (Option Ordering)
  | .number a, .number b => a.compare? b
  | .str a, .str b => some (some (compare a b))
  | _, _ => Option.none

def arith (op : ArithOp) : Value → Value → Except EvalError Value
  | .number a, .number b => .number <$> a.arith op b
  | .str a, .str b =>
    if op = .add then .ok (.str (a ++ b)) else fail (.unsupportedOperand op .str .str)
  | .str a, other =>
    if op = .add then fail (.concatenation other.typeName)
    else fail (.unsupportedOperand op (Value.str a).typeName other.typeName)
  | other, .str b =>
    if op = .add then fail (.concatenation other.typeName)
    else fail (.unsupportedOperand op other.typeName (Value.str b).typeName)
  | v, w => fail (.unsupportedOperand op v.typeName w.typeName)

def order (op : OrderOp) (v w : Value) : Except EvalError Bool :=
  match compare? v w with
  | some (some o) => .ok (op.holds o)
  | some Option.none => .ok false
  | Option.none => fail (.ordering op v.typeName w.typeName)

def binary (store : Store) (op : BinaryOp) (v w : Value) : Except EvalError Value :=
  match op with
  | .arith op => arith op v w
  | .eq => .ok (.bool (equal store v w))
  | .notEq => .ok (.bool (!equal store v w))
  | .order op => .bool <$> order op v w

def unary : UnaryOp → Value → Except EvalError Value
  | .not, .bool b => .ok (.bool !b)
  | .not, v => fail (.notABool .notOperand v.typeName)
  | .neg, .number n => .ok (.number n.neg)
  | .plus, .number n => .ok (.number n)
  | op, v => fail (.badUnaryOperand op v.typeName)

/-- Position of an index in a sequence, a negative one counting from the end. -/
def position (sequence : EvalError.Sequence) (length : Nat) : Value → Except EvalError Nat
  | .int i =>
    let resolved := if i < 0 then i + length else i
    if 0 ≤ resolved ∧ resolved < length then .ok resolved.toNat
    else fail (.indexOutOfRange sequence)
  | v => fail (.badSubscript (.index sequence v.typeName))

/-- An element of a list or a character of a string. -/
def subscript (store : Store) (container index : Value) : Except EvalError Value :=
  match container with
  | .list id =>
    match store.list? id with
    | some items => do
      let i ← position .list items.length index
      match items[i]? with
      | some v => return v
      | Option.none => fail (.indexOutOfRange .list)
    | Option.none => fail (.internal .notAList)
  | .str s => do
    let cs := s.toList
    let i ← position .string cs.length index
    match cs[i]? with
    | some c => return .str (String.singleton c)
    | Option.none => fail (.indexOutOfRange .string)
  | v => fail (.badSubscript (.notSubscriptable v.typeName))

end Value
end CseMachine
