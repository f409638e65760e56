import CseMachine.Proofs.Parsing
import CseMachine.Proofs.Parsing.Plans

/-!
# The plans are those of the readers

Followed with what the readers answer, the plan of each reader gives what the reader
answers itself. The end of a program is the first end marker, so there the top level
leaves the cursor; for this it has to be known that no statement steps over it.
-/
namespace CseMachine.Parse

open Token (Kind)

variable {ts rest : List Token}

open Plan
open Reader (plan answer)

/-! Expressions -/

theorem agrees_expr (ts : List Token) : (plan .expr ts).Agrees (expr ts) := by
  unfold expr
  simp only [plan]
  split
  · exact .next (.ask rfl fun _ _ => .need (fun _ _ => .ask rfl fun _ _ => .done) rfl) rfl
  · next ho => exact .other (.pass rfl) ho rfl

theorem agrees_ternary (ts : List Token) : (plan .ternary ts).Agrees (ternary ts) := by
  rw [ternary]
  refine .ask rfl fun yes r₁ => ?_
  obtain ⟨r₁, h₁⟩ := r₁
  dsimp only
  split
  · exact .next (.ask rfl fun _ _ => .need (fun _ _ => .ask rfl fun _ _ => .done) rfl) rfl
  · next ho => exact .past .done ho rfl

theorem agrees_disjunction (ts : List Token) : (plan .disjunction ts).Agrees (disjunction ts) := by
  rw [disjunction]
  exact .ask rfl fun _ _ => .ask rfl fun _ _ => .done

theorem agrees_disjunctionTail (left : Node) (ts : List Token) :
    (plan (.disjunctionTail left) ts).Agrees (disjunctionTail left ts) := by
  unfold disjunctionTail
  simp only [plan]
  split
  · exact .next (.ask rfl fun _ _ => .ask rfl fun _ _ => .done) rfl
  · next ho => exact .other .done ho rfl

theorem agrees_conjunction (ts : List Token) : (plan .conjunction ts).Agrees (conjunction ts) := by
  rw [conjunction]
  exact .ask rfl fun _ _ => .ask rfl fun _ _ => .done

theorem agrees_conjunctionTail (left : Node) (ts : List Token) :
    (plan (.conjunctionTail left) ts).Agrees (conjunctionTail left ts) := by
  unfold conjunctionTail
  simp only [plan]
  split
  · exact .next (.ask rfl fun _ _ => .ask rfl fun _ _ => .done) rfl
  · next ho => exact .other .done ho rfl

theorem agrees_negation (ts : List Token) : (plan .negation ts).Agrees (negation ts) := by
  unfold negation
  simp only [plan]
  split
  · exact .next (.ask rfl fun _ _ => .done) rfl
  · next ho => exact .other (.pass rfl) ho rfl

theorem agrees_comparison (ts : List Token) : (plan .comparison ts).Agrees (comparison ts) := by
  rw [comparison]
  refine .ask rfl fun left r₁ => ?_
  obtain ⟨r₁, h₁⟩ := r₁
  cases r₁ with
  | nil => exact .done
  | cons t r₂ =>
    dsimp only [next_cons]
    cases hop : relation? t.kind with
    | none => exact .done
    | some op =>
      dsimp only
      rw [advance_cons (ne_eof rfl hop)]
      refine .ask rfl fun right r₃ => ?_
      obtain ⟨r₃, h₃⟩ := r₃
      dsimp only
      split
      · exact .refuse
      · exact .done

theorem agrees_sum (ts : List Token) : (plan .sum ts).Agrees (sum ts) := by
  rw [sum]
  exact .ask rfl fun _ _ => .ask rfl fun _ _ => .done

theorem agrees_sumTail (left : Node) (ts : List Token) : (plan (.sumTail left) ts).Agrees (sumTail left ts) := by
  unfold sumTail
  cases ts with
  | nil => exact .done
  | cons t rest =>
    dsimp only [plan, next_cons]
    cases hop : sumOp? t.kind with
    | none => exact .done
    | some op =>
      dsimp only
      rw [advance_cons (ne_eof rfl hop)]
      exact .ask rfl fun _ _ => .ask rfl fun _ _ => .done

theorem agrees_product (ts : List Token) : (plan .product ts).Agrees (product ts) := by
  rw [product]
  exact .ask rfl fun _ _ => .ask rfl fun _ _ => .done

theorem agrees_productTail (left : Node) (ts : List Token) : (plan (.productTail left) ts).Agrees (productTail left ts) := by
  unfold productTail
  cases ts with
  | nil => exact .done
  | cons t rest =>
    dsimp only [plan, next_cons]
    cases hop : productOp? t.kind with
    | none => exact .done
    | some op =>
      dsimp only
      rw [advance_cons (ne_eof rfl hop)]
      exact .ask rfl fun _ _ => .ask rfl fun _ _ => .done

theorem agrees_factor (ts : List Token) : (plan .factor ts).Agrees (factor ts) := by
  unfold factor
  cases ts with
  | nil => exact .pass rfl
  | cons t rest =>
    dsimp only [plan, next_cons]
    cases hop : signOp? t.kind with
    | none => exact .pass rfl
    | some op =>
      dsimp only
      rw [advance_cons (ne_eof rfl hop)]
      exact .ask rfl fun _ _ => .done

theorem agrees_power (ts : List Token) : (plan .power ts).Agrees (power ts) := by
  rw [power]
  refine .ask rfl fun base r₁ => ?_
  obtain ⟨r₁, h₁⟩ := r₁
  dsimp only
  split
  · exact .next (.ask rfl fun _ _ => .done) rfl
  · next ho => exact .past .done ho rfl

theorem agrees_primary (ts : List Token) : (plan .primary ts).Agrees (primary ts) := by
  rw [primary]
  exact .ask rfl fun _ _ => .ask rfl fun _ _ => .done

theorem agrees_primaryTail (head : Node) (ts : List Token) : (plan (.primaryTail head) ts).Agrees (primaryTail head ts) := by
  unfold primaryTail
  simp only [plan]
  split
  · exact .next (.ask rfl fun _ _ => .need (fun _ _ => .ask rfl fun _ _ => .done) rfl) rfl
  · refine .unlike (.next ?_ rfl) rfl
    exact .ask rfl fun _ _ => .need (fun _ _ => .ask rfl fun _ _ => .done) rfl
  · next hparen hbracket => exact .other (.other .done hbracket rfl) hparen rfl

theorem agrees_commaList (close : Kind) (ts : List Token) : (plan (.commaList close) ts).Agrees (commaList close ts) := by
  rw [commaList]
  simp only [plan]
  split
  · exact .done
  · refine .ask rfl fun item r₁ => ?_
    obtain ⟨r₁, h₁⟩ := r₁
    dsimp only
    split
    · exact .next (.ask rfl fun _ _ => .done) rfl
    · next ho => exact .past .done ho rfl

theorem agrees_atom (ts : List Token) : (plan .atom ts).Agrees (atom ts) := by
  rcases ts with _ | ⟨⟨kind, span⟩, rest⟩
  · rw [atom]
    exact .refuse
  · dsimp only [plan, next_cons]
    split
    · rw [atom]
      exact .done
    · have hadv : advance (⟨.symbol .lparen, span⟩ :: rest) = rest := advance_cons (by simp)
      rw [hadv, atom]
      exact .ask rfl fun _ _ => .need (fun _ _ => .done) rfl
    · have hadv : advance (⟨.symbol .lbracket, span⟩ :: rest) = rest := advance_cons (by simp)
      rw [hadv, atom]
      exact .ask rfl fun _ _ => .need (fun _ _ => .done) rfl
    · next hname hparen hbracket =>
      rw [atom]
      · dsimp only
        cases hl : literal? kind with
        | none => exact .refuse
        | some value =>
          dsimp only
          rw [advance_cons (ne_eof rfl hl)]
          exact .done
      · rintro name _ ⟨⟩
        exact hname name rfl
      · rintro _ ⟨⟩
        exact hparen rfl
      · rintro _ ⟨⟩
        exact hbracket rfl

theorem agrees_params (close : Kind) (given : List Param) (ts : List Token) :
    (plan (.params close given) ts).Agrees (params close given ts) := by
  rw [params]
  simp only [plan]
  split
  · exact .done
  · have hne : Kind.symbol .star ≠ .eof := by decide
    obtain ⟨hstar, hafter⟩ := eat_eq hne ts
    rw [hafter, hstar]
    generalize eat (.symbol .star) ts = start
    refine .needName fun name span r₁ => ?_
    obtain ⟨r₁, h₁⟩ := r₁
    dsimp only
    by_cases hrest : given.head?.any (·.rest) = true
    · simp only [hrest, if_true]
      exact .refuse
    by_cases hname : given.any (·.name = name) = true
    · simp only [hrest, hname, if_true, Bool.false_eq_true, if_false]
      exact .refuse
    simp only [hrest, hname, Bool.false_eq_true, if_false]
    split
    · exact .next (.ask rfl fun _ _ => .done) rfl
    · next ho => exact .past .done ho rfl

theorem agrees_nonlocals (scope : Scope) (ts : List Token) : (plan (.nonlocals scope) ts).Agrees (nonlocals scope ts) := by
  rw [nonlocals]
  simp only [plan]
  refine .needName fun name span r₁ => ?_
  obtain ⟨r₁, h₁⟩ := r₁
  dsimp only
  by_cases hparam : scope.params.contains name = true
  · simp only [hparam, if_true]
    exact .refuse
  by_cases hdeclared : scope.declared.contains name = true
  · simp only [hparam, hdeclared, if_true, Bool.false_eq_true, if_false]
    exact .refuse
  simp only [hparam, hdeclared, Bool.false_eq_true, if_false]
  split
  · exact .next (.ask rfl fun _ _ => .done) rfl
  · next ho => exact .past .done ho rfl

/-! Statements -/

theorem agrees_expressionOrAssignment (scope : Scope) (ts : List Token) :
    (plan (.expressionOrAssignment scope) ts).Agrees (expressionOrAssignment scope ts) := by
  rw [expressionOrAssignment]
  refine .ask rfl fun left r₁ => ?_
  obtain ⟨r₁, h₁⟩ := r₁
  dsimp only
  cases left with
  | identifier span target =>
    dsimp only
    split
    · exact .next (.ask rfl fun _ _ => .done) rfl
    · next ho => exact .past .done ho rfl
  | _ =>
    dsimp only
    split
    · exact .next .refuse rfl
    · next ho => exact .past .done ho rfl

theorem agrees_simple (scope : Scope) (ts : List Token) : (plan (.simple scope) ts).Agrees (simple scope ts) := by
  rcases ts with _ | ⟨⟨kind, span⟩, rest⟩
  · exact .ask rfl fun _ _ => .done
  · dsimp only [plan, next_cons]
    split
    · rw [simple]
      exact .done
    · have hadv : advance (⟨.keyword .return_, span⟩ :: rest) = rest := advance_cons (by simp)
      rw [hadv, simple]
      split
      · exact .refuse
      split
      · exact .done
      · exact .ask rfl fun _ _ => .done
    · have hadv : advance (⟨.keyword .nonlocal, span⟩ :: rest) = rest := advance_cons (by simp)
      rw [hadv, simple]
      split
      · exact .refuse
      · exact .ask rfl fun _ _ => .done
    · next hpass hreturn hnonlocal =>
      rw [simple]
      · exact .ask rfl fun _ _ => .done
      · rintro _ _ ⟨⟩
        exact hpass rfl
      · rintro _ _ ⟨⟩
        exact hreturn rfl
      · rintro _ _ ⟨⟩
        exact hnonlocal rfl

theorem agrees_statement (scope : Scope) (ts : List Token) : (plan (.statement scope) ts).Agrees (statement scope ts) := by
  unfold statement
  simp only [plan]
  split
  · exact .next (.ask rfl fun _ _ => .done) rfl
  · exact .unlike (.next (.ask rfl fun _ _ => .done) rfl) rfl
  · next hdef hif => exact .other (.other (.ask rfl fun _ _ => .need (fun _ _ => .done) rfl) hif rfl) hdef rfl

theorem agrees_definition (start : Span) (scope : Scope) (ts : List Token) :
    (plan (.definition start scope) ts).Agrees (definition start scope ts) := by
  rw [definition]
  simp only [plan]
  exact .needName fun name _ _ => .need (fun _ _ => .ask rfl fun ps _ => .need (fun _ _ => .need (fun colon _ =>
    .ask rfl fun _ _ => .done) rfl) rfl) rfl

theorem agrees_suite (scope : Scope) (ts : List Token) : (plan (.suite scope) ts).Agrees (suite scope ts) := by
  unfold suite
  simp only [plan]
  split
  · exact .next (.need (fun _ _ => .ask rfl fun _ _ => .need (fun _ _ => .done) rfl) rfl) rfl
  · next ho => exact .other (.ask rfl fun _ _ => .need (fun _ _ => .done) rfl) ho rfl

theorem agrees_statements (scope : Scope) (ts : List Token) : (plan (.statements scope) ts).Agrees (statements scope ts) := by
  rw [statements]
  simp only [plan]
  split
  · exact .done
  · exact .ask rfl fun _ _ => .ask rfl fun _ _ => .done

theorem agrees_branch (start : Span) (scope : Scope) (ts : List Token) :
    (plan (.branch start scope) ts).Agrees (branch start scope ts) := by
  rw [branch]
  refine .ask rfl fun test r₁ => .ask rfl fun yes r₂ => ?_
  obtain ⟨r₂, h₂⟩ := r₂
  dsimp only
  split
  · exact .next (.ask rfl fun _ _ => .done) rfl
  · exact .unlike (.next (.ask rfl fun _ _ => .done) rfl) rfl
  · next helif helse => exact .past (.past .done helse rfl) helif rfl

theorem agrees_block (scope : Scope) (ts : List Token) : (plan (.block scope) ts).Agrees (block scope ts) := by
  rw [block]
  simp only [plan]
  exact .need (fun _ _ => .ask rfl fun _ _ => .done) rfl

/-- A statement of a program and those behind it. -/
theorem topLevel_statement {scope : Scope} {t : Token} (heof : t.kind ≠ .eof) (hnewline : t.kind ≠ .newline)
    (hindent : t.kind ≠ .indent) : topLevel scope (t :: rest) = statement scope (t :: rest) >>= fun a =>
      topLevel a.1.2 a.2.val >>= fun b => .ok (a.1.1.toList ++ b.1, b.2) := by
  rw [topLevel]
  dsimp only
  split
  · next hk => exact (heof hk).elim
  · next hk => exact (hnewline hk).elim
  · next hk => exact (hindent hk).elim
  · rfl

/-- The plan of the top level, if no statement steps over the end. -/
theorem follow_topLevel {scope : Scope} (hend : ∀ a rest, answer (.statement scope) ts = .ok (a, rest) → toEnd rest = toEnd ts) :
    (plan (.topLevel scope) ts).follow answer = answer (.topLevel scope) ts := by
  rcases ts with _ | ⟨⟨kind, span⟩, rest⟩
  · simp only [answer]
    rw [topLevel]
    rfl
  · simp only [plan, next_cons]
    split
    · simp only [answer]
      rw [topLevel]
      rfl
    · have hadv : advance (⟨.newline, span⟩ :: rest) = rest := advance_cons (by simp)
      have hto : toEnd (⟨.newline, span⟩ :: rest) = toEnd rest := toEnd_cons (by simp)
      simp only [answer, follow, hadv, hto]
      rw [topLevel]
      dsimp only
      cases topLevel scope rest <;> rfl
    · simp only [answer]
      rw [topLevel]
      rfl
    · next heof hnewline hindent =>
      simp only [answer, follow] at hend ⊢
      rw [topLevel_statement heof hnewline hindent]
      cases hs : statement scope (⟨kind, span⟩ :: rest) with
      | error e => rfl
      | ok v =>
        obtain ⟨⟨node, scope'⟩, r₁, h₁⟩ := v
        have hr : toEnd r₁ = toEnd (⟨kind, span⟩ :: rest) := hend (node, scope') r₁ (by rw [hs]; rfl)
        rw [← hr]
        dsimp only [loose, Except.map, bind, Except.bind]
        cases topLevel scope' r₁ <;> rfl

/-- Every reader does what its plan says. -/
theorem follow_plan (r : Reader) (ts : List Token) (hend : ∀ scope, r = .topLevel scope → ∀ a rest,
    answer (.statement scope) ts = .ok (a, rest) → toEnd rest = toEnd ts) : (plan r ts).follow answer = answer r ts := by
  cases r with
  | expr => exact agrees_expr ts
  | ternary => exact agrees_ternary ts
  | disjunction => exact agrees_disjunction ts
  | disjunctionTail left => exact agrees_disjunctionTail left ts
  | conjunction => exact agrees_conjunction ts
  | conjunctionTail left => exact agrees_conjunctionTail left ts
  | negation => exact agrees_negation ts
  | comparison => exact agrees_comparison ts
  | sum => exact agrees_sum ts
  | sumTail left => exact agrees_sumTail left ts
  | product => exact agrees_product ts
  | productTail left => exact agrees_productTail left ts
  | factor => exact agrees_factor ts
  | power => exact agrees_power ts
  | primary => exact agrees_primary ts
  | primaryTail head => exact agrees_primaryTail head ts
  | commaList close => exact agrees_commaList close ts
  | atom => exact agrees_atom ts
  | params close read => exact agrees_params close read ts
  | nonlocals scope => exact agrees_nonlocals scope ts
  | expressionOrAssignment scope => exact agrees_expressionOrAssignment scope ts
  | simple scope => exact agrees_simple scope ts
  | statement scope => exact agrees_statement scope ts
  | definition start scope => exact agrees_definition start scope ts
  | suite scope => exact agrees_suite scope ts
  | statements scope => exact agrees_statements scope ts
  | branch start scope => exact agrees_branch start scope ts
  | block scope => exact agrees_block scope ts
  | topLevel scope => exact follow_topLevel (hend scope rfl)

end CseMachine.Parse
