/-!
The functions every program can use, by name and by the number of arguments
they take.
-/
namespace CseMachine

/-- Accepted numbers of arguments. -/
inductive Arity where
  | exactly (n : Nat)
  | atLeast (n : Nat)
  /-- Both bounds are accepted. -/
  | between (low high : Nat)
  deriving DecidableEq, Repr

namespace Arity

def min : Arity → Nat
  | .exactly n | .atLeast n | .between n _ => n

def max? : Arity → Option Nat
  | .exactly n | .between _ n => some n
  | .atLeast _ => none

def accepts (a : Arity) (count : Nat) : Bool := a.min ≤ count && a.max?.all (count ≤ ·)

def text : Arity → String
  | .exactly 0 => "no arguments"
  | .exactly 1 => "exactly one argument"
  | .exactly n => s!"exactly {n} arguments"
  | .atLeast 1 => "at least one argument"
  | .atLeast n => s!"at least {n} arguments"
  | .between low high => s!"from {low} to {high} arguments"

end Arity

/-- Functions of one real number that are undefined outside a domain. -/
inductive MathFn where
  | sqrt | sin | cos | tan | asin | acos | atan
  deriving DecidableEq, Repr

inductive Builtin where
  | print | str | repr | int | float | abs | len | max | min | round | error
  | isNone | isBoolean | isInt | isFloat | isComplex | isString | isFunction
  | real | imag
  | math (fn : MathFn)
  | exp | log | floor | ceil
  deriving DecidableEq, Repr

namespace Builtin

def name : Builtin → String
  | .print => "print"
  | .str => "str"
  | .repr => "repr"
  | .int => "int"
  | .float => "float"
  | .abs => "abs"
  | .len => "len"
  | .max => "max"
  | .min => "min"
  | .round => "round"
  | .error => "error"
  | .isNone => "is_none"
  | .isBoolean => "is_boolean"
  | .isInt => "is_int"
  | .isFloat => "is_float"
  | .isComplex => "is_complex"
  | .isString => "is_string"
  | .isFunction => "is_function"
  | .real => "real"
  | .imag => "imag"
  | .math .sqrt => "math_sqrt"
  | .math .sin => "math_sin"
  | .math .cos => "math_cos"
  | .math .tan => "math_tan"
  | .math .asin => "math_asin"
  | .math .acos => "math_acos"
  | .math .atan => "math_atan"
  | .exp => "math_exp"
  | .log => "math_log"
  | .floor => "math_floor"
  | .ceil => "math_ceil"

def arity : Builtin → Arity
  | .print | .error => .atLeast 0
  | .max | .min => .atLeast 1
  | .round | .log => .between 1 2
  | _ => .exactly 1

/-- All functions in the order in which they are bound. -/
def all : List Builtin :=
  [.print, .str, .repr, .int, .float, .abs, .len, .max, .min, .round, .error, .isNone, .isBoolean,
   .isInt, .isFloat, .isComplex, .isString, .isFunction, .real, .imag, .math .sqrt, .math .sin,
   .math .cos, .math .tan, .math .asin, .math .acos, .math .atan, .exp, .log, .floor, .ceil]

def ofName? (name : String) : Option Builtin := all.find? (·.name == name)

theorem ofName?_name (f : Builtin) : ofName? f.name = some f := by
  cases f with
  | math fn => cases fn <;> decide
  | _ => decide

end Builtin
end CseMachine
