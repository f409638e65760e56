import CseMachine.Number.Round
import CseMachine.Operator
import CseMachine.Text.Numeral
import CseMachine.Value.Show

/-!
What the builtin functions do. The number of arguments is checked first;
then a function gives a value or fails, and `print` has a text to write.
-/
namespace CseMachine.Builtin

/-- Texts of values with a blank between them. -/
def joined (store : Store) (args : List Value) : String :=
  " ".intercalate (args.map (Value.display store))

/-- A bool counts as 0 or 1 where a number is expected. -/
def intOfBool (b : Bool) : Int := if b then 1 else 0

/-- The number an argument stands for. -/
def number? : Value → Option Number
  | .bool b => some (.int (intOfBool b))
  | .number n => some n
  | _ => none

/-- The double an argument of a mathematical function stands for. -/
def realArg (v : Value) : Except EvalError Float :=
  match number? v with
  | some (.int i) => Number.floatOfInt i
  | some (.float x) => .ok x
  | _ => fail (.badArgument (.notReal v.typeName))

def toInt : Value → Except EvalError Int
  | .bool b => .ok (intOfBool b)
  | .int i => .ok i
  | .float x => Number.intOfFloat x
  | .str s =>
    match Text.toInt? s with
    | some i => .ok i
    | none => fail (.badValue (.intLiteral s))
  | v => fail (.badArgument (.toInt v.typeName))

def toFloat : Value → Except EvalError Float
  | .bool b => .ok (if b then 1.0 else 0.0)
  | .int i => Number.floatOfInt i
  | .float x => .ok x
  | .str s =>
    match Text.toFloat? s with
    | some x => .ok x
    | none => fail (.badValue (.floatLiteral s))
  | v => fail (.badArgument (.toFloat v.typeName))

def absValue (v : Value) : Except EvalError Value :=
  match number? v with
  | some (.int i) => .ok (.int i.natAbs)
  | some (.float x) => .ok (.float x.abs)
  | some (.complex z) => .ok (.float z.abs)
  | none => fail (.badArgument (.toAbs v.typeName))

/-- Number of characters or of elements. -/
def length (store : Store) : Value → Except EvalError Nat
  | .str s => .ok s.length
  | .list id =>
    match store.list? id with
    | some items => .ok items.length
    | none => fail (.internal .notAList)
  | v => fail (.badArgument (.toLen v.typeName))

/-- The items that `max` and `min` choose from: several arguments, or the elements of one list. -/
def candidates (store : Store) : List Value → Except EvalError (List Value)
  | [.list id] =>
    match store.list? id with
    | some items => .ok items
    | none => fail (.internal .notAList)
  | [single] => fail (.badArgument (.notIterable single.typeName))
  | many => .ok many

/-- The first item that no later one beats; `better` says when an item takes the place of the best
so far. -/
def best (better : OrderOp) : Value → List Value → Except EvalError Value
  | v, [] => .ok v
  | v, w :: rest => do best better (if ← Value.order better w v then w else v) rest

def extreme (function : Builtin) (better : OrderOp) (store : Store) (args : List Value) :
    Except EvalError Value := do
  match ← candidates store args with
  | [] => fail (.badValue (.emptySequence function))
  | first :: rest => best better first rest

/-- The number of places asked for, if any. -/
def places? : List Value → Except EvalError (Option Int)
  | [] | .none :: _ => .ok none
  | .int n :: _ => .ok (some n)
  | v :: _ => fail (.badArgument (.notAnInteger v.typeName))

def roundValue (v : Value) (places : Option Int) : Except EvalError Value :=
  match number? v, places with
  | some (.int i), none => .ok (.int i)
  | some (.int i), some n => .ok (.int (Number.roundInt i n))
  | some (.float x), none => .int <$> Number.intOfFloat (Binary64.roundEven x)
  | some (.float x), some n => .ok (.float (Number.roundFloat x n))
  | _, _ => fail (.badArgument (.toRound v.typeName))

def realPart (v : Value) : Except EvalError Value :=
  match number? v with
  | some (.complex z) => .ok (.float z.re)
  | some n => .ok (.number n)
  | none => fail (.badArgument (.notANumber .real v.typeName))

def imagPart (v : Value) : Except EvalError Value :=
  match number? v with
  | some (.int _) => .ok (.int 0)
  | some (.float _) => .ok (.float 0.0)
  | some (.complex z) => .ok (.float z.im)
  | none => fail (.badArgument (.notANumber .imag v.typeName))

end Builtin

def MathFn.apply : MathFn → Float → Float
  | .sqrt => Float.sqrt
  | .sin => Float.sin
  | .cos => Float.cos
  | .tan => Float.tan
  | .asin => Float.asin
  | .acos => Float.acos
  | .atan => Float.atan

namespace Builtin

/-- A number that turns into a NaN is outside the domain. -/
def mathCall (fn : MathFn) (v : Value) : Except EvalError Value := do
  let x ← realArg v
  let result := fn.apply x
  if result.isNaN && !x.isNaN then fail .mathDomain else return .float result

def exponential (v : Value) : Except EvalError Value := do
  let x ← realArg v
  let result := x.exp
  if result.isInf && x.isFinite then fail (.overflow .mathRange) else return .float result

def logarithm (v : Value) : Except EvalError Float := do
  let x ← realArg v
  if x ≤ 0.0 then fail .mathDomain else return x.log

/-- A logarithm to a base is a quotient of natural ones. -/
def logarithmTo (v : Value) : List Value → Except EvalError Value
  | [] => .float <$> logarithm v
  | base :: _ => do
    let x ← logarithm v
    let b ← logarithm base
    if b == 0.0 then fail (.zeroDivision .floatDivision) else return .float (x / b)

/-- The integer that `round` makes of a number; an integer stays as it is. -/
def wholeBy (round : Float → Float) : Value → Except EvalError Value
  | .int i => .ok (.int i)
  | v => do return .int (← Number.intOfFloat (round (← realArg v)))

def isFunctionValue : Value → Bool
  | .closure _ | .builtin _ => true
  | _ => false

/-- The result for arguments whose number is right. -/
def result (store : Store) : Builtin → List Value → Except EvalError Value
  | .print, _ => .ok .none
  | .error, args => fail (.user (joined store args))
  | .max, args => extreme .max .gt store args
  | .min, args => extreme .min .lt store args
  | .str, v :: _ => .ok (.str (v.display store))
  | .repr, v :: _ => .ok (.str (v.repr store))
  | .int, v :: _ => .int <$> toInt v
  | .float, v :: _ => .float <$> toFloat v
  | .abs, v :: _ => absValue v
  | .len, v :: _ => (fun (n : Nat) => Value.int n) <$> length store v
  | .round, v :: rest => do roundValue v (← places? rest)
  | .isNone, v :: _ => .ok (.bool (v.typeName == .none))
  | .isBoolean, v :: _ => .ok (.bool (v.typeName == .bool))
  | .isInt, v :: _ => .ok (.bool (v.typeName == .int))
  | .isFloat, v :: _ => .ok (.bool (v.typeName == .float))
  | .isComplex, v :: _ => .ok (.bool (v.typeName == .complex))
  | .isString, v :: _ => .ok (.bool (v.typeName == .str))
  | .isFunction, v :: _ => .ok (.bool (isFunctionValue v))
  | .real, v :: _ => realPart v
  | .imag, v :: _ => imagPart v
  | .math fn, v :: _ => mathCall fn v
  | .exp, v :: _ => exponential v
  | .log, v :: rest => logarithmTo v rest
  | .floor, v :: _ => wholeBy Binary64.floor v
  | .ceil, v :: _ => wholeBy Binary64.ceil v
  | _, [] => fail (.internal (.missingArgument 0))

def call (store : Store) (f : Builtin) (args : List Value) : Except EvalError Value :=
  if f.arity.accepts args.length then result store f args
  else fail (.builtinArity f args.length)

/-- What a successful call writes. -/
def printed (store : Store) (f : Builtin) (args : List Value) : String :=
  match f with
  | .print => joined store args ++ "\n"
  | _ => ""

end CseMachine.Builtin
