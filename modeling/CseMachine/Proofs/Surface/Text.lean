import CseMachine.Proofs.Surface
import CseMachine.Text.Quoted

/-!
# The text of a surface program

One statement stands on a line, four spaces in front of it for each block around
it, and every part of an expression that has parts itself stands in parentheses.
A line is a row of pieces: the words and signs of the language, with single
spaces between some of them.
-/
namespace CseMachine.Surface

inductive Piece where
  | space
  | name (x : Name)
  | keyword (k : Keyword)
  | number (n : Nat)
  | str (s : PlainText)
  | sign (s : Symbol)
  deriving DecidableEq

def Piece.text : Piece → List Char
  | .space => [' ']
  | .name x => x.text.toList
  | .keyword k => k.text.toList
  | .number n => n.repr.toList
  | .str s => (Text.quote s.text).toList
  | .sign s => s.text.toList

abbrev Row := List Piece

def Row.text (r : Row) : List Char := r.flatMap Piece.text

/-- Rows with commas between them. -/
def separated : List Row → Row
  | [] => []
  | [r] => r
  | r :: rest => r ++ [.sign .comma, .space] ++ separated rest

/-- A row in parentheses, if need be. -/
def enclose (needed : Bool) (r : Row) : Row := if needed then .sign .lparen :: r ++ [.sign .rparen] else r

/-- Two rows with a word or sign between them. -/
def joined (left : Row) (p : Piece) (right : Row) : Row := left ++ [.space, p, .space] ++ right

/-! Expressions -/

def Constant.piece : Constant → Piece
  | .none => .keyword .none
  | .bool true => .keyword .true
  | .bool false => .keyword .false
  | .int n => .number n
  | .str s => .str s

def unarySign : UnaryOp → Row
  | .neg => [.sign .minus]
  | .plus => [.sign .plus]
  | .not => [.keyword .not, .space]

def binarySign : BinaryOp → Symbol
  | .arith .add => .plus
  | .arith .sub => .minus
  | .arith .mul => .star
  | .arith .div => .slash
  | .arith .floorDiv => .slashSlash
  | .arith .mod => .percent
  | .arith .pow => .starStar
  | .eq => .eqEq
  | .notEq => .notEq
  | .order .lt => .lt
  | .order .ltEq => .ltEq
  | .order .gt => .gt
  | .order .gtEq => .gtEq

def Params.rows (ps : Params) : List Row :=
  ps.names.map (fun x => [.name x]) ++ ps.rest.toList.map fun x => [.sign .star, .name x]

/-- The word `lambda` with parameters and colon. -/
def Params.lambdaRow (ps : Params) : Row :=
  match ps.rows with
  | [] => [.keyword .lambda, .sign .colon]
  | rows => .keyword .lambda :: .space :: separated rows ++ [.sign .colon]

def Expr.isCompound : Expr → Bool
  | .constant _ | .name _ => false
  | _ => true

mutual

def Expr.row : Expr → Row
  | .constant c => [c.piece]
  | .name x => [.name x]
  | .unary op e => unarySign op ++ enclose e.isCompound e.row
  | .binary op a b => joined (enclose a.isCompound a.row) (.sign (binarySign op)) (enclose b.isCompound b.row)
  | .and a b => joined (enclose a.isCompound a.row) (.keyword .and) (enclose b.isCompound b.row)
  | .or a b => joined (enclose a.isCompound a.row) (.keyword .or) (enclose b.isCompound b.row)
  | .conditional test yes no =>
    joined (joined (enclose yes.isCompound yes.row) (.keyword .if_) (enclose test.isCompound test.row))
      (.keyword .else_) (enclose no.isCompound no.row)
  | .lambda ps e => ps.lambdaRow ++ .space :: enclose e.isCompound e.row
  | .call f args => enclose f.isCompound f.row ++ .sign .lparen :: separated (operands args) ++ [.sign .rparen]
  | .list items => .sign .lbracket :: separated (operands items) ++ [.sign .rbracket]
  | .subscript e i =>
    enclose e.isCompound e.row ++ .sign .lbracket :: enclose i.isCompound i.row ++ [.sign .rbracket]

def operands : List Expr → List Row
  | [] => []
  | e :: rest => enclose e.isCompound e.row :: operands rest

end

/-- An expression as a part of another. -/
def Expr.operand (e : Expr) : Row := enclose e.isCompound e.row

theorem operands_eq_map (es : List Expr) : operands es = es.map Expr.operand := by
  induction es with
  | nil => rfl
  | cons e rest ih =>
    simp only [operands, List.map_cons]
    rw [ih]
    rfl

/-! Statements -/

structure Line where
  /-- The number of blocks around the statement. -/
  depth : Nat
  row : Row

def Line.text (l : Line) : List Char := List.replicate (4 * l.depth) ' ' ++ l.row.text ++ ['\n']

/-- The line that a suite stands below. -/
def header (word : Keyword) (e : Expr) : Row := .keyword word :: .space :: e.row ++ [.sign .colon]

def defHeader (f : Name) (ps : Params) : Row :=
  .keyword .def_ :: .space :: .name f :: .sign .lparen :: separated ps.rows ++ [.sign .rparen, .sign .colon]

def outerRow (x : Name) (xs : List Name) : Row :=
  .keyword .nonlocal :: .space :: separated ((x :: xs).map fun x => [.name x])

mutual

def Stmt.lines (depth : Nat) : Stmt → List Line
  | .expression e => [⟨depth, e.row⟩]
  | .assign x e => [⟨depth, joined [.name x] (.sign .assign) e.row⟩]
  | .define f ps body => ⟨depth, defHeader f ps⟩ :: body.lines (depth + 1)
  | .ret none => [⟨depth, [.keyword .return_]⟩]
  | .ret (some e) => [⟨depth, .keyword .return_ :: .space :: e.row⟩]
  | .branch test yes no => ⟨depth, header .if_ test⟩ :: yes.lines (depth + 1) ++ no.lines depth
  | .pass => [⟨depth, [.keyword .pass]⟩]
  | .outer x xs => [⟨depth, outerRow x xs⟩]

def Suite.lines (depth : Nat) : Suite → List Line
  | .last s => s.lines depth
  | .cons s rest => s.lines depth ++ rest.lines depth

def Alternate.lines (depth : Nat) : Alternate → List Line
  | .none => []
  | .otherwise body => ⟨depth, [.keyword .else_, .sign .colon]⟩ :: body.lines (depth + 1)
  | .elif test yes no => ⟨depth, header .elif test⟩ :: yes.lines (depth + 1) ++ no.lines depth

end

def Program.lines (p : Program) : List Line := p.flatMap (Stmt.lines 0)

def Program.text (p : Program) : String := String.ofList (p.lines.flatMap Line.text)

example : Program.text [.branch (.unary .not (.binary .eq (.constant (.int 10)) (.constant .none)))
    (.last .pass) (.otherwise (.last (.expression (.list []))))] =
    "if not (10 == None):\n    pass\nelse:\n    []\n" := by decide +kernel

end CseMachine.Surface
