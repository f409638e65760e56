import CseMachine.Span

/-!
The program tree. A node is a statement or an expression with its span; the
machine puts no wall between the two, so one type holds both. Names that a
body assigns are listed in its declarations, which are made before it runs.
-/
namespace CseMachine

/-- Operators that compute with numbers; `+` also joins strings. -/
inductive ArithOp where
  | add | sub | mul | div | floorDiv | mod | pow
  deriving DecidableEq, Repr

def ArithOp.symbol : ArithOp → String
  | .add => "+"
  | .sub => "-"
  | .mul => "*"
  | .div => "/"
  | .floorDiv => "//"
  | .mod => "%"
  | .pow => "**"

/-- Comparisons that need an order. -/
inductive OrderOp where
  | lt | ltEq | gt | gtEq
  deriving DecidableEq, Repr

namespace OrderOp

def symbol : OrderOp → String
  | .lt => "<"
  | .ltEq => "<="
  | .gt => ">"
  | .gtEq => ">="

/-- The comparison holds of two values in the given order. -/
def holds : OrderOp → Ordering → Bool
  | .lt, o => o == .lt
  | .ltEq, o => o != .gt
  | .gt, o => o == .gt
  | .gtEq, o => o != .lt

end OrderOp

/-- Operators with two operands. `and` and `or` are conditionals, not operators. -/
inductive BinaryOp where
  | arith (op : ArithOp)
  | eq
  | notEq
  | order (op : OrderOp)
  deriving DecidableEq, Repr

namespace BinaryOp

def symbol : BinaryOp → String
  | .arith op => op.symbol
  | .eq => "=="
  | .notEq => "!="
  | .order op => op.symbol

def all : List BinaryOp :=
  [.arith .add, .arith .sub, .arith .mul, .arith .div, .arith .floorDiv, .arith .mod, .arith .pow,
   .eq, .notEq, .order .lt, .order .ltEq, .order .gt, .order .gtEq]

def ofSymbol? (text : String) : Option BinaryOp := all.find? (·.symbol == text)

theorem ofSymbol?_symbol (op : BinaryOp) : ofSymbol? op.symbol = some op := by
  cases op with
  | arith op => cases op <;> decide
  | order op => cases op <;> decide
  | _ => decide

end BinaryOp

inductive UnaryOp where
  | neg | plus | not
  deriving DecidableEq, Repr

namespace UnaryOp

def symbol : UnaryOp → String
  | .neg => "-"
  | .plus => "+"
  | .not => "not"

def all : List UnaryOp := [.neg, .plus, .not]

def ofSymbol? (text : String) : Option UnaryOp := all.find? (·.symbol == text)

theorem ofSymbol?_symbol (op : UnaryOp) : ofSymbol? op.symbol = some op := by cases op <;> decide

end UnaryOp

inductive Literal where
  | none
  | bool (value : Bool)
  | int (value : Int)
  | float (value : Float)
  /-- A number of the form `2j`, by its imaginary part. -/
  | imag (value : Float)
  | str (value : String)
  deriving DecidableEq

/-- A formal parameter; `rest` marks the one that takes all further arguments. -/
structure Param where
  name : String
  rest : Bool
  span : Span
  deriving DecidableEq, Repr

/-- A name made by a program or block before its body runs. -/
structure Declaration where
  name : String
  constant : Bool
  deriving DecidableEq, Repr

mutual

inductive Node where
  | program (span : Span) (declarations : List Declaration) (body : List Node)
  | block (span : Span) (declarations : List Declaration) (body : List Node)
  /-- Statements that make no names. -/
  | sequence (span : Span) (body : List Node)
  | expression (span : Span) (value : Node)
  /-- A declaration binds in the current frame; otherwise the nearest enclosing binding changes. -/
  | assign (span : Span) (target : String) (value : Node) (declaration : Bool)
  | define (span : Span) (name : String) (func : Func) (declaration : Bool)
  | ret (span : Span) (value : Option Node)
  | branch (span : Span) (test consequent : Node) (alternate : Option Node)
  | pass (span : Span)
  | literal (span : Span) (value : Literal)
  | identifier (span : Span) (name : String)
  | unary (span : Span) (op : UnaryOp) (operand : Node)
  | binary (span : Span) (op : BinaryOp) (left right : Node)
  | conditional (span : Span) (test consequent alternate : Node)
  | lambda (span : Span) (func : Func)
  | call (span : Span) (callee : Node) (args : List Node)
  | list (span : Span) (items : List Node)
  | subscript (span : Span) (value index : Node)

/-- A `def` or `lambda`: the latter has no name. -/
structure Func where
  name : Option String
  params : List Param
  body : Node
  /-- Names declared directly in the body. -/
  locals : List String

end

instance : Inhabited Node := ⟨.pass Span.none⟩

namespace Node

def span : Node → Span
  | .program s .. | .block s .. | .sequence s .. | .expression s .. | .assign s ..
  | .define s .. | .ret s .. | .branch s .. | .pass s | .literal s .. | .identifier s ..
  | .unary s .. | .binary s .. | .conditional s .. | .lambda s .. | .call s .. | .list s ..
  | .subscript s .. => s

/-- The word for the kind of node. -/
def kindName : Node → String
  | .program .. => "Program"
  | .block .. => "Block"
  | .sequence .. => "StatementSequence"
  | .expression .. => "ExpressionStatement"
  | .assign .. => "Assign"
  | .define .. => "FunctionDef"
  | .ret .. => "Return"
  | .branch .. => "If"
  | .pass .. => "Pass"
  | .literal .. => "Literal"
  | .identifier .. => "Identifier"
  | .unary .. => "Unary"
  | .binary .. => "Binary"
  | .conditional .. => "Conditional"
  | .lambda .. => "Lambda"
  | .call .. => "Call"
  | .list .. => "List"
  | .subscript .. => "Subscript"

/-- Declarations of a program or block; no other node makes any. -/
def declarations : Node → List Declaration
  | .program _ ds _ | .block _ ds _ => ds
  | _ => []

/-- The function a `def` or `lambda` creates. -/
def func? : Node → Option Func
  | .define _ _ f _ | .lambda _ f => some f
  | _ => none

/-- The nodes directly below, in source order; a function contributes its body. -/
def children : Node → List Node
  | .program _ _ body | .block _ _ body | .sequence _ body | .list _ body => body
  | .expression _ e | .assign _ _ e _ | .unary _ _ e => [e]
  | .define _ _ f _ | .lambda _ f => [f.body]
  | .ret _ value => value.toList
  | .branch _ test yes no => test :: yes :: no.toList
  | .conditional _ test yes no => [test, yes, no]
  | .binary _ _ a b | .subscript _ a b => [a, b]
  | .call _ callee args => callee :: args
  | .pass _ | .literal .. | .identifier .. => []

end Node

namespace Func

/-- The rest parameter, which is one only in the last place. -/
def rest? (f : Func) : Option Param := f.params.getLast?.filter (·.rest)

/-- Parameters that take exactly one argument each. -/
def required (f : Func) : List Param :=
  match f.rest? with
  | some _ => f.params.dropLast
  | none => f.params

/-- The returned expression of a body that is one `return` and declares nothing. -/
def singleReturn? (f : Func) : Option Node :=
  match f.body with
  | .block _ [] [.ret _ (some e)] => some e
  | _ => none

end Func
end CseMachine
