import CseMachine.Parse.Statement

/-!
# Readers on a cursor

What a reader does, by itself: it looks at the next token, steps over tokens, and asks
other readers to go on from where it is. The cursor is the list of the tokens from the
next one on, and a step at the end marker goes nowhere. Nothing here says that a reader
is asked further on than the one that asks, so that the plans of the readers may well
ask each other for ever; they can be followed down to a given depth only. A plan agrees
with a reader if it comes to what the reader answers, given what the others answer.
-/
namespace CseMachine.Parse

open Token (Kind)

/-- The readers, loops included: a loop that goes round asks itself again. -/
inductive Reader where
  | expr
  | ternary
  | disjunction
  | disjunctionTail (left : Node)
  | conjunction
  | conjunctionTail (left : Node)
  | negation
  | comparison
  | sum
  | sumTail (left : Node)
  | product
  | productTail (left : Node)
  | factor
  | power
  | primary
  | primaryTail (head : Node)
  | commaList (close : Kind)
  | atom
  | params (close : Kind) (read : List Param)
  | nonlocals (scope : Scope)
  | expressionOrAssignment (scope : Scope)
  | simple (scope : Scope)
  | statement (scope : Scope)
  | definition (start : Span) (scope : Scope)
  | suite (scope : Scope)
  | statements (scope : Scope)
  | branch (start : Span) (scope : Scope)
  | block (scope : Scope)
  | topLevel (scope : Scope)

/-- What a reader answers beside the cursor. -/
abbrev Reader.Answer : Reader → Type
  | .commaList _ => List Node
  | .params .. => List Param
  | .nonlocals _ => Scope
  | .expressionOrAssignment _ | .definition .. | .branch .. | .block _ => Node × Scope
  | .simple _ | .statement _ => Option Node × Scope
  | .suite _ | .statements _ => List Node × Scope
  | .topLevel _ => List Node × Scope × Nat
  | _ => Node

/-- What is left to do for a reader. -/
inductive Plan (α : Type) where
  | done (a : α) (ts : List Token)
  | refuse (e : ParseError) (ts : List Token)
  /-- Ask a reader at the cursor, then go on with its answer and with the cursor that it leaves. -/
  | ask (r : Reader) (ts : List Token) (k : r.Answer → List Token → Plan α)

/-- Step over the next token; the end marker stays. -/
def advance : List Token → List Token
  | [] => []
  | t :: rest => if t.kind = .eof then t :: rest else rest

namespace Plan

variable {α : Type}

/-- Step over a token that has to be there. -/
def need (kind : Kind) (ts : List Token) (k : Span → List Token → Plan α) : Plan α :=
  if (next ts).kind = kind then k (next ts).span (advance ts) else .refuse (unexpected kind.describe ts) ts

/-- Step over a name that has to be there. -/
def needName (ts : List Token) (k : String → Span → List Token → Plan α) : Plan α :=
  match (next ts).kind with
  | .ident name => k name (next ts).span (advance ts)
  | _ => .refuse (unexpected "identifier" ts) ts

/-- Step over a token if it is there. -/
def accept (kind : Kind) (ts : List Token) (yes : Span → List Token → Plan α) (no : Plan α) : Plan α :=
  if (next ts).kind = kind then yes (next ts).span (advance ts) else no

/-- Follow the plan, given what the readers answer that it asks. -/
def follow (answer : (r : Reader) → List Token → Except ParseError (r.Answer × List Token)) :
    Plan α → Except ParseError (α × List Token)
  | .done a ts => .ok (a, ts)
  | .refuse e _ => .error e
  | .ask r ts k => answer r ts >>= fun p => (k p.1 p.2).follow answer

end Plan

/-- Where the cursor went, and what came of it. -/
structure Course (α : Type) where
  path : List (List Token)
  outcome : Except ParseError (α × List Token)

/-- Follow the plan as long as the readers that it asks come to an end. -/
def Plan.attempt (run : (r : Reader) → List Token → Option (Course r.Answer)) : Plan α → Option (Course α)
  | .done a ts => some ⟨[ts], .ok (a, ts)⟩
  | .refuse e ts => some ⟨[ts], .error e⟩
  | .ask r ts k =>
    match run r ts with
    | none => none
    | some ⟨path, .error e⟩ => some ⟨ts :: path, .error e⟩
    | some ⟨path, .ok p⟩ => ((k p.1 p.2).attempt run).map fun c => ⟨ts :: path ++ c.path, c.outcome⟩

namespace Reader

open Plan (need needName accept)

/-- What a reader does from the cursor on. -/
@[simp]
def plan : (r : Reader) → List Token → Plan r.Answer
  | .expr, ts =>
    accept (.keyword .lambda) ts
      (fun start r₁ => .ask (.params (.symbol .colon) []) r₁ fun ps r₂ => need (.symbol .colon) r₂ fun _ r₃ =>
        .ask .expr r₃ fun value r₄ => .done (lambdaNode start ps value) r₄)
      (.ask .ternary ts .done)
  | .ternary, ts =>
    .ask .disjunction ts fun yes r₁ => accept (.keyword .if_) r₁
      (fun _ r₂ => .ask .disjunction r₂ fun test r₃ => need (.keyword .else_) r₃ fun _ r₄ =>
        .ask .expr r₄ fun no r₅ => .done (conditional test yes no) r₅)
      (.done yes r₁)
  | .disjunction, ts => .ask .conjunction ts fun left r₁ => .ask (.disjunctionTail left) r₁ .done
  | .disjunctionTail left, ts =>
    accept (.keyword .or) ts
      (fun op r₁ => .ask .conjunction r₁ fun right r₂ => .ask (.disjunctionTail (disjoin op left right)) r₂ .done)
      (.done left ts)
  | .conjunction, ts => .ask .negation ts fun left r₁ => .ask (.conjunctionTail left) r₁ .done
  | .conjunctionTail left, ts =>
    accept (.keyword .and) ts
      (fun op r₁ => .ask .negation r₁ fun right r₂ => .ask (.conjunctionTail (conjoin op left right)) r₂ .done)
      (.done left ts)
  | .negation, ts =>
    accept (.keyword .not) ts
      (fun start r₁ => .ask .negation r₁ fun operand r₂ => .done (.unary (start.merge operand.span) .not operand) r₂)
      (.ask .comparison ts .done)
  | .comparison, ts =>
    .ask .sum ts fun left r₁ =>
      match relation? (next r₁).kind with
      | some op => .ask .sum (advance r₁) fun right r₂ =>
        if (relation? (next r₂).kind).isSome then .refuse ⟨.chainedComparison, (next r₂).span⟩ r₂
        else .done (binary op left right) r₂
      | none => .done left r₁
  | .sum, ts => .ask .product ts fun left r₁ => .ask (.sumTail left) r₁ .done
  | .sumTail left, ts =>
    match sumOp? (next ts).kind with
    | some op => .ask .product (advance ts) fun right r₁ => .ask (.sumTail (binary op left right)) r₁ .done
    | none => .done left ts
  | .product, ts => .ask .factor ts fun left r₁ => .ask (.productTail left) r₁ .done
  | .productTail left, ts =>
    match productOp? (next ts).kind with
    | some op => .ask .factor (advance ts) fun right r₁ => .ask (.productTail (binary op left right)) r₁ .done
    | none => .done left ts
  | .factor, ts =>
    match signOp? (next ts).kind with
    | some op => .ask .factor (advance ts) fun operand r₁ => .done (.unary ((next ts).span.merge operand.span) op operand) r₁
    | none => .ask .power ts .done
  | .power, ts =>
    .ask .primary ts fun base r₁ => accept (.symbol .starStar) r₁
      (fun _ r₂ => .ask .factor r₂ fun exponent r₃ => .done (binary (.arith .pow) base exponent) r₃)
      (.done base r₁)
  | .primary, ts => .ask .atom ts fun head r₁ => .ask (.primaryTail head) r₁ .done
  | .primaryTail head, ts =>
    accept (.symbol .lparen) ts
      (fun _ r₁ => .ask (.commaList (.symbol .rparen)) r₁ fun args r₂ => need (.symbol .rparen) r₂ fun stop r₃ =>
        .ask (.primaryTail (.call (head.span.merge stop) head args)) r₃ .done)
      (accept (.symbol .lbracket) ts
        (fun _ r₁ => .ask .expr r₁ fun index r₂ => need (.symbol .rbracket) r₂ fun stop r₃ =>
          .ask (.primaryTail (.subscript (head.span.merge stop) head index)) r₃ .done)
        (.done head ts))
  | .commaList close, ts =>
    if (next ts).kind = close then .done [] ts
    else .ask .expr ts fun item r₁ => accept (.symbol .comma) r₁
      (fun _ r₂ => .ask (.commaList close) r₂ fun items r₃ => .done (item :: items) r₃)
      (.done [item] r₁)
  | .atom, ts =>
    match (next ts).kind with
    | .ident name => .done (.identifier (next ts).span name) (advance ts)
    | .symbol .lparen => .ask .expr (advance ts) fun inner r₁ => need (.symbol .rparen) r₁ fun _ r₂ => .done inner r₂
    | .symbol .lbracket => .ask (.commaList (.symbol .rbracket)) (advance ts) fun items r₁ =>
      need (.symbol .rbracket) r₁ fun stop r₂ => .done (.list ((next ts).span.merge stop) items) r₂
    | kind => match literal? kind with
      | some value => .done (.literal (next ts).span value) (advance ts)
      | none => .refuse ⟨.expectedExpression kind, (next ts).span⟩ (advance ts)
  | .params close read, ts =>
    if (next ts).kind = close then .done read.reverse ts
    else
      let starred := decide ((next ts).kind = .symbol .star)
      needName (if starred then advance ts else ts) fun name span r₁ =>
        if read.head?.any (·.rest) then .refuse ⟨.restNotLast, (next ts).span.merge span⟩ r₁
        else if read.any (·.name = name) then .refuse ⟨.duplicateParameter name, span⟩ r₁
        else accept (.symbol .comma) r₁
          (fun _ r₂ => .ask (.params close (⟨name, starred, span⟩ :: read)) r₂ .done)
          (.done (⟨name, starred, span⟩ :: read).reverse r₁)
  | .nonlocals scope, ts =>
    needName ts fun name span r₁ =>
      if scope.params.contains name then .refuse ⟨.nonlocalParameter name, span⟩ r₁
      else if scope.declared.contains name then .refuse ⟨.nonlocalAfterUse name, span⟩ r₁
      else accept (.symbol .comma) r₁
        (fun _ r₂ => .ask (.nonlocals { scope with nonlocals := name :: scope.nonlocals }) r₂ .done)
        (.done { scope with nonlocals := name :: scope.nonlocals } r₁)
  | .expressionOrAssignment scope, ts =>
    .ask .expr ts fun left r₁ => accept (.symbol .assign) r₁
      (fun _ r₂ =>
        match left with
        | .identifier span target => .ask .expr r₂ fun value r₃ =>
          .done (.assign (span.merge value.span) target value (scope.bind target).1, (scope.bind target).2) r₃
        | other => .refuse ⟨.invalidTarget, other.span⟩ r₂)
      (.done (.expression left.span left, scope) r₁)
  | .simple scope, ts =>
    match (next ts).kind with
    | .keyword .pass => .done (some (.pass (next ts).span), scope) (advance ts)
    | .keyword .return_ =>
      if !scope.isFunction then .refuse ⟨.returnOutsideFunction, (next ts).span⟩ (advance ts)
      else if (next (advance ts)).kind = .newline then .done (some (.ret (next ts).span none), scope) (advance ts)
      else .ask .expr (advance ts) fun value r₁ =>
        .done (some (.ret ((next ts).span.merge value.span) (some value)), scope) r₁
    | .keyword .nonlocal =>
      if !scope.isFunction then .refuse ⟨.nonlocalAtTopLevel, (next ts).span⟩ (advance ts)
      else .ask (.nonlocals scope) (advance ts) fun scope r₁ => .done (none, scope) r₁
    | _ => .ask (.expressionOrAssignment scope) ts fun a r₁ => .done (some a.1, a.2) r₁
  | .statement scope, ts =>
    accept (.keyword .def_) ts
      (fun start r₁ => .ask (.definition start scope) r₁ fun a r₂ => .done (some a.1, a.2) r₂)
      (accept (.keyword .if_) ts
        (fun start r₁ => .ask (.branch start scope) r₁ fun a r₂ => .done (some a.1, a.2) r₂)
        (.ask (.simple scope) ts fun a r₁ => need .newline r₁ fun _ r₂ => .done a r₂))
  | .definition start scope, ts =>
    needName ts fun name _ r₁ => need (.symbol .lparen) r₁ fun _ r₂ =>
      .ask (.params (.symbol .rparen) []) r₂ fun ps r₃ => need (.symbol .rparen) r₃ fun _ r₄ =>
        need (.symbol .colon) r₄ fun colon r₅ => .ask (.suite (.ofFunction ps)) r₅ fun a r₆ =>
          let func := functionOf (some name) ps a.2 colon a.1
          .done (.define (start.merge func.body.span) name func (scope.bind name).1, (scope.bind name).2) r₆
  | .suite scope, ts =>
    accept .newline ts
      (fun _ r₁ => need .indent r₁ fun _ r₂ => .ask (.statements scope) r₂ fun a r₃ => need .dedent r₃ fun _ r₄ => .done a r₄)
      (.ask (.simple scope) ts fun a r₁ => need .newline r₁ fun _ r₂ => .done (a.1.toList, a.2) r₂)
  | .statements scope, ts =>
    if (next ts).kind = .dedent ∨ (next ts).kind = .eof then .done ([], scope) ts
    else .ask (.statement scope) ts fun a r₁ => .ask (.statements a.2) r₁ fun b r₂ => .done (a.1.toList ++ b.1, b.2) r₂
  | .branch start scope, ts =>
    .ask .expr ts fun test r₁ => .ask (.block scope) r₁ fun a r₂ =>
      accept (.keyword .elif) r₂
        (fun elif r₃ => .ask (.branch elif a.2) r₃ fun b r₄ =>
          .done (.branch (start.merge b.1.span) test a.1 (some b.1), b.2) r₄)
        (accept (.keyword .else_) r₂
          (fun _ r₃ => .ask (.block a.2) r₃ fun b r₄ => .done (.branch (start.merge b.1.span) test a.1 (some b.1), b.2) r₄)
          (.done (.branch (start.merge a.1.span) test a.1 none, a.2) r₂))
  | .block scope, ts =>
    need (.symbol .colon) ts fun colon r₁ => .ask (.suite scope) r₁ fun a r₂ =>
      .done (.block (suiteSpan colon a.1) [] a.1, a.2) r₂
  | .topLevel scope, ts =>
    match (next ts).kind with
    | .eof => .done ([], scope, (next ts).span.stop) ts
    | .newline => .ask (.topLevel scope) (advance ts) .done
    | .indent => .refuse ⟨.unexpectedIndent, (next ts).span⟩ ts
    | _ => .ask (.statement scope) ts fun a r₁ => .ask (.topLevel a.2) r₁ fun b r₂ => .done (a.1.toList ++ b.1, b.2) r₂

/-- Read, with readers that ask each other down to a depth; `none` says that it was not enough. -/
def runWithin : Nat → (r : Reader) → List Token → Option (Course r.Answer)
  | 0, _, _ => none
  | depth + 1, r, ts => (r.plan ts).attempt (runWithin depth)

end Reader

/-! What the readers answer -/

variable {α β : Type} {p q : List Token → Prop} {ts rest : List Token} {kind : Kind}

/-- An answer without the bound on what is left. -/
def loose (x : Except ParseError (α × Subtype p)) : Except ParseError (α × List Token) := x.map fun v => (v.1, v.2.val)

/-- The tokens from the first end marker on. -/
def toEnd (ts : List Token) : List Token := ts.dropWhile (·.kind ≠ .eof)

/-- What each reader answers. -/
def Reader.answer : (r : Reader) → List Token → Except ParseError (r.Answer × List Token)
  | .expr, ts => loose (Parse.expr ts)
  | .ternary, ts => loose (Parse.ternary ts)
  | .disjunction, ts => loose (Parse.disjunction ts)
  | .disjunctionTail left, ts => loose (Parse.disjunctionTail left ts)
  | .conjunction, ts => loose (Parse.conjunction ts)
  | .conjunctionTail left, ts => loose (Parse.conjunctionTail left ts)
  | .negation, ts => loose (Parse.negation ts)
  | .comparison, ts => loose (Parse.comparison ts)
  | .sum, ts => loose (Parse.sum ts)
  | .sumTail left, ts => loose (Parse.sumTail left ts)
  | .product, ts => loose (Parse.product ts)
  | .productTail left, ts => loose (Parse.productTail left ts)
  | .factor, ts => loose (Parse.factor ts)
  | .power, ts => loose (Parse.power ts)
  | .primary, ts => loose (Parse.primary ts)
  | .primaryTail head, ts => loose (Parse.primaryTail head ts)
  | .commaList close, ts => loose (Parse.commaList close ts)
  | .atom, ts => loose (Parse.atom ts)
  | .params close read, ts => loose (Parse.params close read ts)
  | .nonlocals scope, ts => loose (Parse.nonlocals scope ts)
  | .expressionOrAssignment scope, ts => loose (Parse.expressionOrAssignment scope ts)
  | .simple scope, ts => loose (Parse.simple scope ts)
  | .statement scope, ts => loose (Parse.statement scope ts)
  | .definition start scope, ts => loose (Parse.definition start scope ts)
  | .suite scope, ts => loose (Parse.suite scope ts)
  | .statements scope, ts => loose (Parse.statements scope ts)
  | .branch start scope, ts => loose (Parse.branch start scope ts)
  | .block scope, ts => loose (Parse.block scope ts)
  | .topLevel scope, ts => (Parse.topLevel scope ts).map fun a => (a, toEnd ts)

theorem next_cons (t : Token) (rest : List Token) : next (t :: rest) = t := rfl

theorem advance_cons {t : Token} (h : t.kind ≠ .eof) : advance (t :: rest) = rest := if_neg h

theorem toEnd_cons {t : Token} (h : t.kind ≠ .eof) : toEnd (t :: rest) = toEnd rest :=
  List.dropWhile_cons_of_pos (decide_eq_true h)

/-- A token that may be there is stepped over if it is. -/
theorem eat_eq (h : kind ≠ .eof) (ts : List Token) : decide ((next ts).kind = kind) = (eat kind ts).1 ∧
    (if decide ((next ts).kind = kind) then advance ts else ts) = (eat kind ts).2.val := by
  cases ts with
  | nil =>
    have hnone : decide ((next []).kind = kind) = false := decide_eq_false fun hk => h hk.symm
    rw [hnone]
    exact ⟨rfl, rfl⟩
  | cons t rest =>
    have hnext : next (t :: rest) = t := rfl
    rw [eat, hnext]
    by_cases hk : t.kind = kind
    · rw [if_pos hk, decide_eq_true hk, advance_cons (hk ▸ h)]
      exact ⟨rfl, rfl⟩
    · rw [if_neg hk, decide_eq_false hk]
      exact ⟨rfl, rfl⟩

namespace Plan

/-- The plan comes to what the reader answers. That a token is not the end marker is decided by its kind alone, so that
`rfl` shows it for each token that a plan steps over. -/
def Agrees (plan : Plan α) (x : Except ParseError (α × Subtype p)) : Prop := plan.follow Reader.answer = loose x

namespace Agrees

theorem done {a : α} {h : p rest} : (done a rest).Agrees (.ok (a, (⟨rest, h⟩ : Subtype p))) := rfl

theorem refuse {e : ParseError} : (refuse e rest : Plan α).Agrees (.error e : Except ParseError (α × Subtype p)) := rfl

/-- A reader is asked and something is done with the answer. -/
theorem ask {r : Reader} {x : Except ParseError (r.Answer × Subtype q)} {k : r.Answer → List Token → Plan α}
    {f : r.Answer × Subtype q → Except ParseError (α × Subtype p)} (hx : r.answer ts = loose x)
    (hk : ∀ a h, (k a h.val).Agrees (f (a, h))) : (Plan.ask r ts k).Agrees (x >>= f) := by
  simp only [Agrees, follow, hx]
  cases x with
  | error e => rfl
  | ok v => exact hk v.1 v.2

/-- A reader is asked and its answer handed on. -/
theorem pass {r : Reader} {x : Except ParseError (r.Answer × Subtype p)} (hx : r.answer ts = loose x) :
    (Plan.ask r ts .done).Agrees x := by
  simp only [Agrees, follow, hx]
  cases x <;> rfl

theorem need {k : Span → List Token → Plan α} {f : Span × Fewer ts → Except ParseError (α × Subtype p)}
    (hk : ∀ span h, (k span h.val).Agrees (f (span, h))) (h : decide (kind = .eof) = false) :
    (Plan.need kind ts k).Agrees (expect kind ts >>= f) := by
  have hne : kind ≠ .eof := of_decide_eq_false h
  cases ts with
  | nil =>
    rw [Plan.need, if_neg fun hk => hne hk.symm]
    exact refuse
  | cons t rest =>
    have hnext : next (t :: rest) = t := rfl
    simp only [Plan.need, hnext, expect]
    by_cases ht : t.kind = kind
    · rw [if_pos ht, if_pos ht, advance_cons (ht ▸ hne)]
      exact hk t.span ⟨rest, _⟩
    · rw [if_neg ht, if_neg ht]
      exact refuse

theorem needName {k : String → Span → List Token → Plan α}
    {f : (String × Span) × Fewer ts → Except ParseError (α × Subtype p)}
    (hk : ∀ name span h, (k name span h.val).Agrees (f ((name, span), h))) :
    (Plan.needName ts k).Agrees (expectName ts >>= f) := by
  rcases ts with _ | ⟨⟨kind, span⟩, rest⟩
  · exact refuse
  · cases kind with
    | ident name => exact hk name span ⟨rest, _⟩
    | _ => exact refuse

theorem next {yes : Span → List Token → Plan α} {no : Plan α} {span : Span} {x : Except ParseError (α × Subtype p)}
    (hyes : (yes span rest).Agrees x) (h : decide (kind = .eof) = false) :
    (accept kind (⟨kind, span⟩ :: rest) yes no).Agrees x := by
  rw [accept, next_cons, if_pos rfl, advance_cons (of_decide_eq_false h)]
  exact hyes

/-- Another token is next. -/
theorem unlike {yes : Span → List Token → Plan α} {no : Plan α} {other : Kind} {span : Span}
    {x : Except ParseError (α × Subtype p)} (hno : no.Agrees x) (h : decide (other = kind) = false) :
    (accept kind (⟨other, span⟩ :: rest) yes no).Agrees x := by
  rw [accept, next_cons, if_neg (of_decide_eq_false h)]
  exact hno

/-- As it is found behind a match. -/
theorem other {yes : Span → List Token → Plan α} {no : Plan α} {x : Except ParseError (α × Subtype p)} (hno : no.Agrees x)
    (ho : ∀ span rest, ts = ⟨kind, span⟩ :: rest → False) (h : decide (kind = .eof) = false) :
    (accept kind ts yes no).Agrees x := by
  have hk : (Parse.next ts).kind ≠ kind := by
    intro hk
    rcases ts with _ | ⟨⟨kind', span⟩, rest⟩
    · exact of_decide_eq_false h hk.symm
    · exact ho span rest (by rw [← hk]; rfl)
  rw [accept, if_neg hk]
  exact hno

/-- As it is found behind a match that knows how many tokens are left. -/
theorem past {yes : Span → List Token → Plan α} {no : Plan α} {x : Except ParseError (α × Subtype p)} {n : Nat}
    {hts : ts.length < n} (hno : no.Agrees x)
    (ho : ∀ span rest (h : List.length (⟨kind, span⟩ :: rest) < n), ts = ⟨kind, span⟩ :: rest → hts ≍ h → False)
    (h : decide (kind = .eof) = false) : (accept kind ts yes no).Agrees x :=
  hno.other (fun span rest he => ho span rest (he ▸ hts) he (proof_irrel_heq _ _)) h

end Agrees
end Plan

end CseMachine.Parse
