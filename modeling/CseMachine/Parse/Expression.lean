import CseMachine.Parse.Rest
import CseMachine.Tree

/-!
Expressions, loosest binding first:

    expr        := lambda | ternary
    ternary     := disjunction ("if" disjunction "else" expr)?
    disjunction := conjunction ("or" conjunction)*
    conjunction := negation ("and" negation)*
    negation    := "not" negation | comparison
    comparison  := sum (relation sum)?
    sum         := product (("+" | "-") product)*
    product     := factor (("*" | "/" | "//" | "%") factor)*
    factor      := ("-" | "+") factor | power
    power       := primary ("**" factor)?
    primary     := atom ("(" args ")" | "[" expr "]")*

`a and b` is the conditional `b if a else False` and `a or b` is
`True if a else b`, so the test of both must be a bool.
-/
namespace CseMachine.Parse

def relation? : Token.Kind → Option BinaryOp
  | .symbol .eqEq => some .eq
  | .symbol .notEq => some .notEq
  | .symbol .lt => some (.order .lt)
  | .symbol .ltEq => some (.order .ltEq)
  | .symbol .gt => some (.order .gt)
  | .symbol .gtEq => some (.order .gtEq)
  | _ => none

def sumOp? : Token.Kind → Option BinaryOp
  | .symbol .plus => some (.arith .add)
  | .symbol .minus => some (.arith .sub)
  | _ => none

def productOp? : Token.Kind → Option BinaryOp
  | .symbol .star => some (.arith .mul)
  | .symbol .slash => some (.arith .div)
  | .symbol .slashSlash => some (.arith .floorDiv)
  | .symbol .percent => some (.arith .mod)
  | _ => none

def signOp? : Token.Kind → Option UnaryOp
  | .symbol .minus => some .neg
  | .symbol .plus => some .plus
  | _ => none

/-- The literal that a token stands for by itself. -/
def literal? : Token.Kind → Option Literal
  | .int n => some (.int n)
  | .float x => some (.float x)
  | .imag x => some (.imag x)
  | .str s => some (.str s)
  | .keyword .true => some (.bool true)
  | .keyword .false => some (.bool false)
  | .keyword .none => some .none
  | _ => none

def binary (op : BinaryOp) (left right : Node) : Node :=
  .binary (left.span.merge right.span) op left right

def conditional (test yes no : Node) : Node :=
  .conditional ((test.span.merge yes.span).merge no.span) test yes no

/-- `left or right`, the word at `op`. -/
def disjoin (op : Span) (left right : Node) : Node :=
  conditional left (.literal op (.bool true)) right

/-- `left and right`, the word at `op`. -/
def conjoin (op : Span) (left right : Node) : Node :=
  conditional left right (.literal op (.bool false))

/-- A function of one expression. -/
def lambdaNode (start : Span) (params : List Param) (value : Node) : Node :=
  let span := value.span
  .lambda (start.merge span) ⟨none, params, .block span [] [.ret span (some value)], []⟩

/-- Parameters up to the closing token, which is not taken; `read` holds those before, last first. -/
def params (close : Token.Kind) (read : List Param) (ts : List Token) : Scan (List Param) ts :=
  if (next ts).kind = close then .ok (read.reverse, ⟨ts, Nat.le_refl _⟩)
  else do
    let (rest, ⟨afterStar, h₁⟩) := eat (.symbol .star) ts
    let ((name, span), ⟨afterName, h₂⟩) ← expectName afterStar
    if read.head?.any (·.rest) then
      throw ⟨.restNotLast, (next ts).span.merge span⟩
    if read.any (·.name = name) then
      throw ⟨.duplicateParameter name, span⟩
    let all := ⟨name, rest, span⟩ :: read
    match afterName, h₂ with
    | ⟨.symbol .comma, _⟩ :: afterComma, h₂ =>
      let (ps, ⟨left, h₃⟩) ← params close all afterComma
      return (ps, ⟨left, by simp only [List.length_cons] at h₂; omega⟩)
    | left, h₂ => return (all.reverse, ⟨left, by omega⟩)
termination_by ts.length
decreasing_by
  simp only [List.length_cons] at h₂
  omega

mutual

def expr (ts : List Token) : Read Node ts :=
  match ts with
  | ⟨.keyword .lambda, start⟩ :: rest => do
    let (ps, ⟨r₁, h₁⟩) ← params (.symbol .colon) [] rest
    let (_, ⟨r₂, h₂⟩) ← expectSymbol .colon r₁
    let (value, ⟨r₃, h₃⟩) ← expr r₂
    return (lambdaNode start ps value, ⟨r₃, by simp only [List.length_cons]; omega⟩)
  | ts => ternary ts
termination_by (ts.length, 11)

def ternary (ts : List Token) : Read Node ts := do
  let (yes, ⟨r₁, h₁⟩) ← disjunction ts
  match r₁, h₁ with
  | ⟨.keyword .if_, _⟩ :: r₂, h₁ =>
    have h₂ : r₂.length < ts.length := by simp only [List.length_cons] at h₁; omega
    let (test, ⟨r₃, h₃⟩) ← disjunction r₂
    let (_, ⟨r₄, h₄⟩) ← expect (.keyword .else_) r₃
    let (no, ⟨r₅, h₅⟩) ← expr r₄
    return (conditional test yes no, ⟨r₅, by omega⟩)
  | r₁, h₁ => return (yes, ⟨r₁, h₁⟩)
termination_by (ts.length, 10)

def disjunction (ts : List Token) : Read Node ts := do
  let (left, ⟨r₁, h₁⟩) ← conjunction ts
  let (all, ⟨r₂, h₂⟩) ← disjunctionTail left r₁
  return (all, ⟨r₂, by omega⟩)
termination_by (ts.length, 9)

def disjunctionTail (left : Node) (ts : List Token) : Scan Node ts :=
  match ts with
  | ⟨.keyword .or, op⟩ :: rest => do
    let (right, ⟨r₁, h₁⟩) ← conjunction rest
    let (all, ⟨r₂, h₂⟩) ← disjunctionTail (disjoin op left right) r₁
    return (all, ⟨r₂, by simp only [List.length_cons]; omega⟩)
  | ts => return (left, ⟨ts, Nat.le_refl _⟩)
termination_by (ts.length, 9)

def conjunction (ts : List Token) : Read Node ts := do
  let (left, ⟨r₁, h₁⟩) ← negation ts
  let (all, ⟨r₂, h₂⟩) ← conjunctionTail left r₁
  return (all, ⟨r₂, by omega⟩)
termination_by (ts.length, 8)

def conjunctionTail (left : Node) (ts : List Token) : Scan Node ts :=
  match ts with
  | ⟨.keyword .and, op⟩ :: rest => do
    let (right, ⟨r₁, h₁⟩) ← negation rest
    let (all, ⟨r₂, h₂⟩) ← conjunctionTail (conjoin op left right) r₁
    return (all, ⟨r₂, by simp only [List.length_cons]; omega⟩)
  | ts => return (left, ⟨ts, Nat.le_refl _⟩)
termination_by (ts.length, 8)

def negation (ts : List Token) : Read Node ts :=
  match ts with
  | ⟨.keyword .not, start⟩ :: rest => do
    let (operand, ⟨r₁, h₁⟩) ← negation rest
    return (.unary (start.merge operand.span) .not operand,
      ⟨r₁, by simp only [List.length_cons]; omega⟩)
  | ts => comparison ts
termination_by (ts.length, 7)

def comparison (ts : List Token) : Read Node ts := do
  let (left, ⟨r₁, h₁⟩) ← sum ts
  match r₁, h₁ with
  | t :: r₂, h₁ =>
    have h₂ : r₂.length < ts.length := by simp only [List.length_cons] at h₁; omega
    match relation? t.kind with
    | some op =>
      let (right, ⟨r₃, h₃⟩) ← sum r₂
      if (relation? (next r₃).kind).isSome then throw ⟨.chainedComparison, (next r₃).span⟩
      return (binary op left right, ⟨r₃, by omega⟩)
    | none => return (left, ⟨t :: r₂, h₁⟩)
  | [], h₁ => return (left, ⟨[], h₁⟩)
termination_by (ts.length, 6)

def sum (ts : List Token) : Read Node ts := do
  let (left, ⟨r₁, h₁⟩) ← product ts
  let (all, ⟨r₂, h₂⟩) ← sumTail left r₁
  return (all, ⟨r₂, by omega⟩)
termination_by (ts.length, 5)

def sumTail (left : Node) (ts : List Token) : Scan Node ts :=
  match ts with
  | t :: rest =>
    match sumOp? t.kind with
    | some op => do
      let (right, ⟨r₁, h₁⟩) ← product rest
      let (all, ⟨r₂, h₂⟩) ← sumTail (binary op left right) r₁
      return (all, ⟨r₂, by simp only [List.length_cons]; omega⟩)
    | none => return (left, ⟨t :: rest, Nat.le_refl _⟩)
  | [] => return (left, ⟨[], Nat.le_refl _⟩)
termination_by (ts.length, 5)

def product (ts : List Token) : Read Node ts := do
  let (left, ⟨r₁, h₁⟩) ← factor ts
  let (all, ⟨r₂, h₂⟩) ← productTail left r₁
  return (all, ⟨r₂, by omega⟩)
termination_by (ts.length, 4)

def productTail (left : Node) (ts : List Token) : Scan Node ts :=
  match ts with
  | t :: rest =>
    match productOp? t.kind with
    | some op => do
      let (right, ⟨r₁, h₁⟩) ← factor rest
      let (all, ⟨r₂, h₂⟩) ← productTail (binary op left right) r₁
      return (all, ⟨r₂, by simp only [List.length_cons]; omega⟩)
    | none => return (left, ⟨t :: rest, Nat.le_refl _⟩)
  | [] => return (left, ⟨[], Nat.le_refl _⟩)
termination_by (ts.length, 4)

def factor (ts : List Token) : Read Node ts :=
  match ts with
  | t :: rest =>
    match signOp? t.kind with
    | some op => do
      let (operand, ⟨r₁, h₁⟩) ← factor rest
      return (.unary (t.span.merge operand.span) op operand,
        ⟨r₁, by simp only [List.length_cons]; omega⟩)
    | none => power (t :: rest)
  | [] => power []
termination_by (ts.length, 3)

def power (ts : List Token) : Read Node ts := do
  let (base, ⟨r₁, h₁⟩) ← primary ts
  match r₁, h₁ with
  | ⟨.symbol .starStar, _⟩ :: r₂, h₁ =>
    have h₂ : r₂.length < ts.length := by simp only [List.length_cons] at h₁; omega
    let (exponent, ⟨r₃, h₃⟩) ← factor r₂
    return (binary (.arith .pow) base exponent, ⟨r₃, by omega⟩)
  | r₁, h₁ => return (base, ⟨r₁, h₁⟩)
termination_by (ts.length, 2)

def primary (ts : List Token) : Read Node ts := do
  let (head, ⟨r₁, h₁⟩) ← atom ts
  let (all, ⟨r₂, h₂⟩) ← primaryTail head r₁
  return (all, ⟨r₂, by omega⟩)
termination_by (ts.length, 1)

def primaryTail (head : Node) (ts : List Token) : Scan Node ts :=
  match ts with
  | ⟨.symbol .lparen, _⟩ :: rest => do
    let (args, ⟨r₁, h₁⟩) ← commaList (.symbol .rparen) rest
    let (stop, ⟨r₂, h₂⟩) ← expectSymbol .rparen r₁
    let (all, ⟨r₃, h₃⟩) ← primaryTail (.call (head.span.merge stop) head args) r₂
    return (all, ⟨r₃, by simp only [List.length_cons]; omega⟩)
  | ⟨.symbol .lbracket, _⟩ :: rest => do
    let (index, ⟨r₁, h₁⟩) ← expr rest
    let (stop, ⟨r₂, h₂⟩) ← expectSymbol .rbracket r₁
    let (all, ⟨r₃, h₃⟩) ← primaryTail (.subscript (head.span.merge stop) head index) r₂
    return (all, ⟨r₃, by simp only [List.length_cons]; omega⟩)
  | ts => return (head, ⟨ts, Nat.le_refl _⟩)
termination_by (ts.length, 1)

/-- Expressions with commas between them up to the closing token, which is not taken; a comma may
follow the last. -/
def commaList (close : Token.Kind) (ts : List Token) : Scan (List Node) ts :=
  if (next ts).kind = close then .ok ([], ⟨ts, Nat.le_refl _⟩)
  else do
    let (item, ⟨r₁, h₁⟩) ← expr ts
    match r₁, h₁ with
    | ⟨.symbol .comma, _⟩ :: r₂, h₁ =>
      have h₂ : r₂.length < ts.length := by simp only [List.length_cons] at h₁; omega
      let (items, ⟨r₃, h₃⟩) ← commaList close r₂
      return (item :: items, ⟨r₃, by omega⟩)
    | r₁, h₁ => return ([item], ⟨r₁, by omega⟩)
termination_by (ts.length, 12)

def atom (ts : List Token) : Read Node ts :=
  match ts with
  | ⟨.ident name, span⟩ :: rest => .ok (.identifier span name, ⟨rest, by simp⟩)
  | ⟨.symbol .lparen, _⟩ :: rest => do
    let (inner, ⟨r₁, h₁⟩) ← expr rest
    let (_, ⟨r₂, h₂⟩) ← expectSymbol .rparen r₁
    return (inner, ⟨r₂, by simp only [List.length_cons]; omega⟩)
  | ⟨.symbol .lbracket, start⟩ :: rest => do
    let (items, ⟨r₁, h₁⟩) ← commaList (.symbol .rbracket) rest
    let (stop, ⟨r₂, h₂⟩) ← expectSymbol .rbracket r₁
    return (.list (start.merge stop) items, ⟨r₂, by simp only [List.length_cons]; omega⟩)
  | t :: rest =>
    match literal? t.kind with
    | some value => .ok (.literal t.span value, ⟨rest, by simp⟩)
    | none => .error ⟨.expectedExpression t.kind, t.span⟩
  | [] => .error ⟨.expectedExpression missing.kind, missing.span⟩
termination_by (ts.length, 0)

end

end CseMachine.Parse
