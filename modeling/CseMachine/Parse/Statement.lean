import CseMachine.Parse.Expression
import CseMachine.Parse.Scope

/-!
Statements. Each reader is given the scope it stands in and answers the scope
with the names it has bound. A function body opens a scope of its own and ends
in a `return`; the branches of an `if` share the scope around them.
-/
namespace CseMachine.Parse

/-- Statements in line with their span: from the first to the last, or that of the colon. -/
def suiteSpan (colon : Span) (body : List Node) : Span :=
  match body.head?, body.getLast? with
  | some first, some last => first.span.merge last.span
  | _, _ => colon

def isReturn : Node → Bool
  | .ret .. => true
  | _ => false

/-- The function with the given body, a `return` added where none ends it. -/
def functionOf (name : Option String) (params : List Param) (scope : Scope) (colon : Span)
    (body : List Node) : Func :=
  let span := suiteSpan colon body
  let full := if body.getLast?.any isReturn then body else body ++ [.ret (Span.point span.stop) none]
  ⟨name, params, .block span scope.declarations full, scope.declared⟩

/-- The names after `nonlocal`. -/
def nonlocals (scope : Scope) (ts : List Token) : Read Scope ts := do
  let ((name, span), ⟨r₁, h₁⟩) ← expectName ts
  if scope.params.contains name then throw ⟨.nonlocalParameter name, span⟩
  if scope.declared.contains name then throw ⟨.nonlocalAfterUse name, span⟩
  let scope := { scope with nonlocals := name :: scope.nonlocals }
  match r₁, h₁ with
  | ⟨.symbol .comma, _⟩ :: r₂, h₁ =>
    have h₂ : r₂.length < ts.length := by simp only [List.length_cons] at h₁; omega
    let (scope, ⟨r₃, h₃⟩) ← nonlocals scope r₂
    return (scope, ⟨r₃, by omega⟩)
  | r₁, h₁ => return (scope, ⟨r₁, h₁⟩)
termination_by ts.length

/-- An expression by itself, or an assignment to a name. -/
def expressionOrAssignment (scope : Scope) (ts : List Token) : Read (Node × Scope) ts := do
  let (left, ⟨r₁, h₁⟩) ← expr ts
  match r₁, h₁ with
  | ⟨.symbol .assign, _⟩ :: r₂, h₁ =>
    match left with
    | .identifier span target =>
      let (declaration, scope) := scope.bind target
      let (value, ⟨r₃, h₃⟩) ← expr r₂
      return ((.assign (span.merge value.span) target value declaration, scope),
        ⟨r₃, by simp only [List.length_cons] at h₁; omega⟩)
    | other => throw ⟨.invalidTarget, other.span⟩
  | r₁, h₁ => return ((.expression left.span left, scope), ⟨r₁, h₁⟩)

/-- A statement that fits on a line; `nonlocal` leaves no node. -/
def simple (scope : Scope) (ts : List Token) : Read (Option Node × Scope) ts :=
  match ts with
  | ⟨.keyword .pass, span⟩ :: rest => .ok ((some (.pass span), scope), ⟨rest, Nat.lt_add_one _⟩)
  | ⟨.keyword .return_, span⟩ :: rest =>
    if !scope.isFunction then .error ⟨.returnOutsideFunction, span⟩
    else if (next rest).kind = .newline then
      .ok ((some (.ret span none), scope), ⟨rest, Nat.lt_add_one _⟩)
    else do
      let (value, ⟨r₁, h₁⟩) ← expr rest
      return ((some (.ret (span.merge value.span) (some value)), scope),
        ⟨r₁, by simp only [List.length_cons]; omega⟩)
  | ⟨.keyword .nonlocal, span⟩ :: rest =>
    if !scope.isFunction then .error ⟨.nonlocalAtTopLevel, span⟩
    else do
      let (scope, ⟨r₁, h₁⟩) ← nonlocals scope rest
      return ((none, scope), ⟨r₁, by simp only [List.length_cons]; omega⟩)
  | ts => do
    let ((node, scope), r) ← expressionOrAssignment scope ts
    return ((some node, scope), r)

mutual

def statement (scope : Scope) (ts : List Token) : Read (Option Node × Scope) ts :=
  match ts with
  | ⟨.keyword .def_, start⟩ :: rest => do
    let ((node, scope), ⟨r, h⟩) ← definition start scope rest
    return ((some node, scope), ⟨r, by simp only [List.length_cons]; omega⟩)
  | ⟨.keyword .if_, start⟩ :: rest => do
    let ((node, scope), ⟨r, h⟩) ← branch start scope rest
    return ((some node, scope), ⟨r, by simp only [List.length_cons]; omega⟩)
  | ts => do
    let ((node, scope), ⟨r₁, h₁⟩) ← simple scope ts
    let (_, ⟨r₂, h₂⟩) ← expect .newline r₁
    return ((node, scope), ⟨r₂, by omega⟩)
termination_by (ts.length, 1)

/-- A function definition behind its `def`, which stands at `start`. The name is bound before the
body is read, so that the body may call it. -/
def definition (start : Span) (scope : Scope) (ts : List Token) : Read (Node × Scope) ts := do
  let ((name, _), ⟨r₁, h₁⟩) ← expectName ts
  let (_, ⟨r₂, h₂⟩) ← expectSymbol .lparen r₁
  let (ps, ⟨r₃, h₃⟩) ← params (.symbol .rparen) [] r₂
  let (_, ⟨r₄, h₄⟩) ← expectSymbol .rparen r₃
  let (colon, ⟨r₅, h₅⟩) ← expectSymbol .colon r₄
  let (declaration, scope) := scope.bind name
  let ((body, inner), ⟨r₆, h₆⟩) ← suite (Scope.ofFunction ps) r₅
  let func := functionOf (some name) ps inner colon body
  return ((.define (start.merge func.body.span) name func declaration, scope), ⟨r₆, by omega⟩)
termination_by (ts.length, 0)

/-- The statements behind a colon, on the same line or in an indented block. -/
def suite (scope : Scope) (ts : List Token) : Read (List Node × Scope) ts :=
  match ts with
  | ⟨.newline, _⟩ :: rest => do
    let (_, ⟨r₁, h₁⟩) ← expect .indent rest
    let ((body, scope), ⟨r₂, h₂⟩) ← statements scope r₁
    let (_, ⟨r₃, h₃⟩) ← expect .dedent r₂
    return ((body, scope), ⟨r₃, by simp only [List.length_cons]; omega⟩)
  | ts => do
    let ((node, scope), ⟨r₁, h₁⟩) ← simple scope ts
    let (_, ⟨r₂, h₂⟩) ← expect .newline r₁
    return ((node.toList, scope), ⟨r₂, by omega⟩)
termination_by (ts.length, 0)

/-- The statements of a block, up to the dedent that ends it. -/
def statements (scope : Scope) (ts : List Token) : Scan (List Node × Scope) ts :=
  if (next ts).kind = .dedent ∨ (next ts).kind = .eof then .ok (([], scope), ⟨ts, Nat.le_refl _⟩)
  else do
    let ((node, scope), ⟨r₁, h₁⟩) ← statement scope ts
    let ((rest, scope), ⟨r₂, h₂⟩) ← statements scope r₁
    return ((node.toList ++ rest, scope), ⟨r₂, by omega⟩)
termination_by (ts.length, 2)

/-- An `if` or `elif` behind its word, which stands at `start`. -/
def branch (start : Span) (scope : Scope) (ts : List Token) : Read (Node × Scope) ts := do
  let (test, ⟨r₁, h₁⟩) ← expr ts
  let ((yes, scope), ⟨r₂, h₂⟩) ← block scope r₁
  match r₂, h₂ with
  | ⟨.keyword .elif, elif⟩ :: r₃, h₂ =>
    have h₃ : r₃.length < ts.length := by simp only [List.length_cons] at h₂; omega
    let ((no, scope), ⟨r₄, h₄⟩) ← branch elif scope r₃
    return ((.branch (start.merge no.span) test yes (some no), scope), ⟨r₄, by omega⟩)
  | ⟨.keyword .else_, _⟩ :: r₃, h₂ =>
    have h₃ : r₃.length < ts.length := by simp only [List.length_cons] at h₂; omega
    let ((no, scope), ⟨r₄, h₄⟩) ← block scope r₃
    return ((.branch (start.merge no.span) test yes (some no), scope), ⟨r₄, by omega⟩)
  | r₂, h₂ => return ((.branch (start.merge yes.span) test yes none, scope), ⟨r₂, by omega⟩)
termination_by (ts.length, 2)

/-- A colon and a branch body, which makes no names of its own. -/
def block (scope : Scope) (ts : List Token) : Read (Node × Scope) ts := do
  let (colon, ⟨r₁, h₁⟩) ← expectSymbol .colon ts
  let ((body, scope), ⟨r₂, h₂⟩) ← suite scope r₁
  return ((.block (suiteSpan colon body) [] body, scope), ⟨r₂, by omega⟩)
termination_by (ts.length, 1)

end

/-- The statements of a program up to the end, where the source stops. -/
def topLevel (scope : Scope) (ts : List Token) : Except ParseError (List Node × Scope × Nat) :=
  match ts with
  | [] => .ok ([], scope, missing.span.stop)
  | t :: rest =>
    match t.kind with
    | .eof => .ok ([], scope, t.span.stop)
    | .newline => topLevel scope rest
    | .indent => .error ⟨.unexpectedIndent, t.span⟩
    | _ => do
      let ((node, scope), ⟨r₁, _⟩) ← statement scope (t :: rest)
      let (body, scope, stop) ← topLevel scope r₁
      return (node.toList ++ body, scope, stop)
termination_by ts.length
decreasing_by all_goals simp only [List.length_cons] at *; omega

/-- The program that tokens spell. -/
def program (ts : List Token) : Except ParseError Node := do
  let (body, scope, stop) ← topLevel { isFunction := false } ts
  return .program ⟨0, stop⟩ scope.declarations body

end CseMachine.Parse
