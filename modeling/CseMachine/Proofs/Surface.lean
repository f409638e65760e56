import CseMachine.Lexeme
import CseMachine.Parse.Statement
import CseMachine.Proofs.Spans

/-!
# Surface programs

Programs as a programmer has them in mind, with one constructor for each form of
expression and statement, and the tree that each program stands for. A tree
says more than a program: it lists the names that each body makes, and marks the
assignments that make one. Names that a body takes from outside with `nonlocal`
and parameters are not made by the body.
-/
namespace CseMachine.Surface

def isWord : List Char → Bool
  | c :: rest => Lexeme.isWordStart c && rest.all Lexeme.isWordPart
  | [] => false

/-- A word that is no keyword. -/
structure Name where
  text : String
  word : isWord text.toList = true
  free : Keyword.ofText? text = none
  deriving DecidableEq

/-- No ASCII control character, except those that lines are made of. -/
def isPlain (c : Char) : Bool :=
  c = '\n' || c = '\t' || c = '\r' || (32 ≤ c.toNat && c.toNat ≠ 127)

structure PlainText where
  text : String
  plain : text.toList.all isPlain = true
  deriving DecidableEq

inductive Constant where
  | none
  | bool (value : Bool)
  | int (value : Nat)
  | str (value : PlainText)
  deriving DecidableEq

/-- Distinct names, and perhaps one more that takes all further arguments. -/
structure Params where
  names : List Name
  rest : Option Name
  distinct : (names ++ rest.toList).Nodup
  deriving DecidableEq

inductive Expr where
  | constant (value : Constant)
  | name (name : Name)
  | unary (op : UnaryOp) (operand : Expr)
  | binary (op : BinaryOp) (left right : Expr)
  | and (left right : Expr)
  | or (left right : Expr)
  | conditional (test yes no : Expr)
  | lambda (params : Params) (value : Expr)
  | call (callee : Expr) (args : List Expr)
  | list (items : List Expr)
  | subscript (value index : Expr)

mutual

inductive Stmt where
  | expression (value : Expr)
  | assign (target : Name) (value : Expr)
  | define (name : Name) (params : Params) (body : Suite)
  | ret (value : Option Expr)
  | branch (test : Expr) (yes : Suite) (no : Alternate)
  | pass
  /-- A `nonlocal` line, which names at least one name. -/
  | outer (first : Name) (others : List Name)

/-- Statements below a colon, of which there is at least one. -/
inductive Suite where
  | last (s : Stmt)
  | cons (s : Stmt) (rest : Suite)

/-- What follows the first suite of an `if`. -/
inductive Alternate where
  | none
  | otherwise (body : Suite)
  | elif (test : Expr) (yes : Suite) (no : Alternate)

end

abbrev Program := List Stmt

/-! Names -/

/-- What a line does to a name of the body it stands in. -/
inductive Binding where
  | assigned (name : String)
  | outer (name : String)
  deriving DecidableEq

namespace Binding

def name : Binding → String
  | .assigned x | .outer x => x

def assigned? : Binding → Option String
  | .assigned x => some x
  | .outer _ => Option.none

def outer? : Binding → Option String
  | .assigned _ => Option.none
  | .outer x => some x

end Binding

mutual

/-- In source order, what a statement does to the names of the body around it. The suites of an `if`
belong to that body, that of a `def` does not. -/
def Stmt.bindings : Stmt → List Binding
  | .assign x _ => [.assigned x.text]
  | .define f _ _ => [.assigned f.text]
  | .branch _ yes no => yes.bindings ++ no.bindings
  | .outer x xs => (x :: xs).map fun x => .outer x.text
  | .expression _ | .ret _ | .pass => []

def Suite.bindings : Suite → List Binding
  | .last s => s.bindings
  | .cons s rest => s.bindings ++ rest.bindings

def Alternate.bindings : Alternate → List Binding
  | .none => []
  | .otherwise body => body.bindings
  | .elif _ yes no => yes.bindings ++ no.bindings

end

def Program.bindings (p : Program) : List Binding := p.flatMap Stmt.bindings

def Params.texts (ps : Params) : List String := (ps.names ++ ps.rest.toList).map Name.text

/-- The names that a body takes from outside. -/
def outerNames (bs : List Binding) : List String := bs.filterMap Binding.outer?

/-- The name is not made by the body with these parameters. -/
def isOuter (params : List String) (bs : List Binding) (x : String) : Bool :=
  params.contains x || (outerNames bs).contains x

/-- The names that a body makes, in the order of their first assignment. -/
def madeNames (params : List String) (bs : List Binding) : List String :=
  ((bs.filterMap Binding.assigned?).filter (!isOuter params bs ·)).eraseDups

/-- A name that a body takes from outside is no parameter, and the first line that has to do with the
name is the one that takes it. -/
def NamesLegal (params : List String) (bs : List Binding) : Prop :=
  ∀ x ∈ outerNames bs, x ∉ params ∧ bs.find? (·.name == x) = some (.outer x)

instance (params : List String) (bs : List Binding) : Decidable (NamesLegal params bs) :=
  inferInstanceAs (Decidable (∀ x ∈ outerNames bs, x ∉ params ∧ bs.find? (·.name == x) = some (.outer x)))

mutual

/-- `return` and `nonlocal` stand in functions only, and the latter where they may. -/
def Stmt.Legal (inFunction : Bool) : Stmt → Prop
  | .ret _ | .outer .. => inFunction = true
  | .define _ ps body => body.Legal true ∧ NamesLegal ps.texts body.bindings
  | .branch _ yes no => yes.Legal inFunction ∧ no.Legal inFunction
  | .expression _ | .assign .. | .pass => True

def Suite.Legal (inFunction : Bool) : Suite → Prop
  | .last s => s.Legal inFunction
  | .cons s rest => s.Legal inFunction ∧ rest.Legal inFunction

def Alternate.Legal (inFunction : Bool) : Alternate → Prop
  | .none => True
  | .otherwise body => body.Legal inFunction
  | .elif _ yes no => yes.Legal inFunction ∧ no.Legal inFunction

end

def Program.Legal (p : Program) : Prop := ∀ s ∈ p, s.Legal false

mutual

def Stmt.decidableLegal (inFunction : Bool) : (s : Stmt) → Decidable (s.Legal inFunction)
  | .ret _ | .outer .. => inferInstanceAs (Decidable (inFunction = true))
  | .define _ ps body =>
    have := body.decidableLegal true
    inferInstanceAs (Decidable (_ ∧ NamesLegal ps.texts body.bindings))
  | .branch _ yes no =>
    have := yes.decidableLegal inFunction
    have := no.decidableLegal inFunction
    inferInstanceAs (Decidable (_ ∧ _))
  | .expression _ | .assign .. | .pass => inferInstanceAs (Decidable True)

def Suite.decidableLegal (inFunction : Bool) : (b : Suite) → Decidable (b.Legal inFunction)
  | .last s => s.decidableLegal inFunction
  | .cons s rest =>
    have := s.decidableLegal inFunction
    have := rest.decidableLegal inFunction
    inferInstanceAs (Decidable (_ ∧ _))

def Alternate.decidableLegal (inFunction : Bool) : (a : Alternate) → Decidable (a.Legal inFunction)
  | .none => inferInstanceAs (Decidable True)
  | .otherwise body => body.decidableLegal inFunction
  | .elif _ yes no =>
    have := yes.decidableLegal inFunction
    have := no.decidableLegal inFunction
    inferInstanceAs (Decidable (_ ∧ _))

end

instance (p : Program) : Decidable p.Legal :=
  have (s : Stmt) := s.decidableLegal false
  inferInstanceAs (Decidable (∀ s ∈ p, s.Legal false))

/-! Trees -/

def Constant.literal : Constant → Literal
  | .none => .none
  | .bool b => .bool b
  | .int n => .int n
  | .str s => .str s.text

def Params.formals (ps : Params) : List Param :=
  ps.names.map (⟨·.text, false, .none⟩) ++ ps.rest.toList.map (⟨·.text, true, .none⟩)

/-- A function of one expression returns it. -/
def returning (value : Node) : Node := .block .none [] [.ret .none (some value)]

mutual

/-- `a and b` is `b` if `a` holds and `False` otherwise; `a or b` is `True` if `a` holds and `b`
otherwise. -/
def Expr.tree : Expr → Node
  | .constant c => .literal .none c.literal
  | .name x => .identifier .none x.text
  | .unary op e => .unary .none op e.tree
  | .binary op a b => .binary .none op a.tree b.tree
  | .and a b => .conditional .none a.tree b.tree (.literal .none (.bool false))
  | .or a b => .conditional .none a.tree (.literal .none (.bool true)) b.tree
  | .conditional test yes no => .conditional .none test.tree yes.tree no.tree
  | .lambda ps e => .lambda .none ⟨none, ps.formals, returning e.tree, []⟩
  | .call f args => .call .none f.tree (trees args)
  | .list items => .list .none (trees items)
  | .subscript e i => .subscript .none e.tree i.tree

def trees : List Expr → List Node
  | [] => []
  | e :: rest => e.tree :: trees rest

end

theorem trees_eq_map (es : List Expr) : trees es = es.map Expr.tree := by
  induction es with
  | nil => rfl
  | cons e rest ih =>
    simp only [trees, List.map_cons]
    rw [ih]

/-- A body that does not end in a `return` is given one. -/
def withReturn (body : List Node) : List Node :=
  if body.getLast?.any Parse.isReturn then body else body ++ [.ret .none none]

/-- The function with the given body, which makes the given names. -/
def function (name : Name) (ps : Params) (made : List String) (body : List Node) : Func :=
  ⟨some name.text, ps.formals, .block .none (made.map (⟨·, false⟩)) (withReturn body), made⟩

mutual

/-- The node of a statement in a body to which some names are foreign; `nonlocal` leaves none. -/
def Stmt.node? (foreign : String → Bool) : Stmt → Option Node
  | .expression e => some (.expression .none e.tree)
  | .assign x e => some (.assign .none x.text e.tree (!foreign x.text))
  | .define f ps body =>
    let func := function f ps (madeNames ps.texts body.bindings) (body.nodes (isOuter ps.texts body.bindings))
    some (.define .none f.text func (!foreign f.text))
  | .ret value => some (.ret .none (value.map Expr.tree))
  | .branch test yes no =>
    some (.branch .none test.tree (.block .none [] (yes.nodes foreign)) (no.node? foreign))
  | .pass => some (.pass .none)
  | .outer .. => none

def Suite.nodes (foreign : String → Bool) : Suite → List Node
  | .last s => (s.node? foreign).toList
  | .cons s rest => (s.node? foreign).toList ++ rest.nodes foreign

/-- An `else` is a block, an `elif` a branch. -/
def Alternate.node? (foreign : String → Bool) : Alternate → Option Node
  | .none => Option.none
  | .otherwise body => some (.block .none [] (body.nodes foreign))
  | .elif test yes no =>
    some (.branch .none test.tree (.block .none [] (yes.nodes foreign)) (no.node? foreign))

end

/-- No name is foreign to a program. -/
def Program.tree (p : Program) : Node :=
  .program .none ((madeNames [] p.bindings).map (⟨·, false⟩)) (p.filterMap (Stmt.node? fun _ => false))

end CseMachine.Surface
