import CseMachine.Parse.Statement
import CseMachine.Proofs.Surface.Expressions
import CseMachine.Proofs.Surface.Scopes

/-!
# Statements are read back

A reader of statements is given a scope in which the lines to be read are
allowed. It answers their nodes, and the scope in which these lines were
followed. An `if` goes on as long as `elif` or `else` is next, so what stands
behind a statement starts with neither.
-/
namespace CseMachine.Surface

open Parse
open Token (Kind)

variable {ts rest mid : List Token} {ks : List Kind} {k : Kind} {span : Span} {foreign : String → Bool} {s s' : Scope}

/-- What a statement leaves: its node, if any, up to spans, and the scope behind it. -/
def Leaves (node : Option Node) (s : Scope) (r : Option Node × Scope) : Prop := r.1.map Node.bare = node ∧ r.2 = s

def LeavesOne (node : Node) (s : Scope) (r : Node × Scope) : Prop := Shows node r.1 ∧ r.2 = s

def LeavesAll (nodes : List Node) (s : Scope) (r : List Node × Scope) : Prop := ShowsAll nodes r.1 ∧ r.2 = s

/-- Nothing goes on with an `if`. -/
def Closes (ts : List Token) : Prop := (next ts).kind ≠ .keyword .elif ∧ (next ts).kind ≠ .keyword .else_

/-- The token starts a statement. -/
def startsStmt : Kind → Bool
  | .keyword .def_ | .keyword .return_ | .keyword .if_ | .keyword .pass | .keyword .nonlocal => true
  | k => startsExpr k

theorem startsStmt_of_startsExpr (h : startsExpr k = true) : startsStmt k = true := by
  unfold startsStmt
  split
  all_goals first | rfl | exact h

theorem Stmt.head (st : Stmt) : ∃ k ks, st.tokens = k :: ks ∧ startsStmt k = true := by
  cases st with
  | expression e =>
    obtain ⟨k, ks, hk, hstarts⟩ := e.row_head
    exact ⟨k, ks ++ [.newline], by rw [tokens, hk]; rfl, startsStmt_of_startsExpr hstarts⟩
  | ret value => cases value <;> exact ⟨_, _, rfl, rfl⟩
  | _ => exact ⟨_, _, rfl, rfl⟩

theorem Stmt.startsStmt_next {st : Stmt} (h : Spelt st.tokens ts rest) : startsStmt (next ts).kind = true := by
  obtain ⟨k, ks, hk, hstarts⟩ := st.head
  rw [hk] at h
  obtain ⟨span, mid, rfl, -⟩ := h.head
  exact hstarts

theorem Suite.startsStmt_next {b : Suite} (h : Spelt b.tokens ts rest) : startsStmt (next ts).kind = true := by
  cases b with
  | last st => exact Stmt.startsStmt_next h
  | cons st b =>
    obtain ⟨mid, hst, -⟩ := Spelt.split h
    exact Stmt.startsStmt_next hst

theorem closes_of_startsStmt (h : startsStmt (next ts).kind = true) : Closes ts := by
  constructor
  · intro heq
    rw [heq] at h
    cases h
  · intro heq
    rw [heq] at h
    cases h

/-! Statements on one line -/

theorem statement_of_simple {P : Option Node × Scope → Prop} (hdef : (next ts).kind ≠ .keyword .def_)
    (hif : (next ts).kind ≠ .keyword .if_) (h : Takes P (⟨.newline, span⟩ :: rest) (simple s ts)) :
    Takes P rest (statement s ts) := by
  unfold statement
  split
  · exact absurd rfl hdef
  · exact absurd rfl hif
  · refine h.bind fun r hr hp => ?_
    exact takes_expect.bind fun _ hr _ => .ok _ hp

theorem statement_of_expression {node : Node} (hstarts : startsExpr (next ts).kind = true)
    (h : Takes (LeavesOne node s') (⟨.newline, span⟩ :: rest) (expressionOrAssignment s ts)) :
    Takes (Leaves (some node) s') rest (statement s ts) := by
  have hne : ∀ w, startsExpr (.keyword w) = false → (next ts).kind ≠ .keyword w := by
    intro w hw heq
    rw [heq, hw] at hstarts
    cases hstarts
  have hsimple : Takes (Leaves (some node) s') (⟨.newline, span⟩ :: rest) (simple s ts) := by
    unfold simple
    split
    · exact absurd rfl (hne _ rfl)
    · exact absurd rfl (hne _ rfl)
    · exact absurd rfl (hne _ rfl)
    · refine h.bind fun r hr hp => .ok _ ⟨?_, hp.2⟩
      rw [Option.map_some, hp.1]
  exact statement_of_simple (hne _ rfl) (hne _ rfl) hsimple

theorem statement_expression {e : Expr} (h : Spelt (Row.tokens e.row ++ [.newline]) ts rest) :
    Takes (Leaves (some (.expression .none e.tree)) s) rest (statement s ts) := by
  obtain ⟨span, mid, hrow, hmid⟩ := h.around
  rw [hmid.eq] at hrow
  have hread : Takes (LeavesOne (.expression .none e.tree) s) (⟨.newline, span⟩ :: rest) (expressionOrAssignment s ts) := by
    rw [expressionOrAssignment]
    refine (e.reads _ _ hrow (by simp [Ends, next, looseness])).bind fun n hr hn => .ok _ ⟨?_, rfl⟩
    rw [Shows, Node.bare, hn]
  exact statement_of_expression (Expr.startsExpr_next hrow) hread

theorem eq_of_shows_identifier {n : Node} {x : String} (h : Shows (.identifier .none x) n) :
    ∃ span, n = .identifier span x := by
  cases n with
  | identifier span y =>
    cases h
    exact ⟨span, rfl⟩
  | _ => cases h

theorem statement_assign {x : Name} {e : Expr}
    (h : Spelt (Row.tokens (joined [.name x] (.sign .assign) e.row) ++ [.newline]) ts rest) :
    Takes (Leaves (some (.assign .none x.text e.tree (!s.isOuter x.text))) (after s (.assigned x.text))) rest
      (statement s ts) := by
  rw [tokens_joined rfl, List.append_assoc] at h
  obtain ⟨span, mid, hx, hmid⟩ := h.around
  obtain ⟨span', last, hrow, hlast⟩ := Spelt.around hmid
  rw [hlast.eq] at hrow
  have hread : Takes (LeavesOne (.assign .none x.text e.tree (!s.isOuter x.text)) (after s (.assigned x.text)))
      (⟨.newline, span'⟩ :: rest) (expressionOrAssignment s ts) := by
    rw [expressionOrAssignment]
    refine ((Expr.name x).reads _ _ hx (by simp [Ends, next, looseness])).bind fun n hr hn => ?_
    obtain ⟨span'', rfl⟩ := eq_of_shows_identifier hn
    simp only [bind_eq]
    refine (e.reads _ _ hrow (by simp [Ends, next, looseness])).bind fun v hr hv => .ok _ ⟨?_, rfl⟩
    rw [Shows, Node.bare, hv]
  obtain ⟨span'', rfl⟩ := Spelt.single hx
  exact statement_of_expression rfl hread

theorem statement_pass (h : Spelt [.keyword .pass, .newline] ts rest) :
    Takes (Leaves (some (.pass .none)) s) rest (statement s ts) := by
  obtain ⟨span, mid, rfl, hmid⟩ := h.head
  obtain ⟨span', rfl⟩ := hmid.single
  have hsimple : Takes (Leaves (some (.pass .none)) s) (⟨.newline, span'⟩ :: rest)
      (simple s (⟨.keyword .pass, span⟩ :: ⟨.newline, span'⟩ :: rest)) := by
    rw [simple]
    exact .ok _ ⟨rfl, rfl⟩
  exact statement_of_simple (by simp [next]) (by simp [next]) hsimple

theorem statement_return {value : Option Expr} (hf : s.isFunction = true)
    (h : Spelt (Stmt.ret value).tokens ts rest) :
    Takes (Leaves (some (.ret .none (value.map Expr.tree))) s) rest (statement s ts) := by
  cases value with
  | none =>
    obtain ⟨span, mid, rfl, hmid⟩ := Spelt.head h
    obtain ⟨span', rfl⟩ := hmid.single
    have hsimple : Takes (Leaves (some (.ret .none none)) s) (⟨.newline, span'⟩ :: rest)
        (simple s (⟨.keyword .return_, span⟩ :: ⟨.newline, span'⟩ :: rest)) := by
      rw [simple, hf, if_neg (by simp), if_pos (by simp [next])]
      exact .ok _ ⟨rfl, rfl⟩
    exact statement_of_simple (by simp [next]) (by simp [next]) hsimple
  | some e =>
    obtain ⟨span, mid, rfl, hmid⟩ := Spelt.head h
    obtain ⟨span', last, hrow, hlast⟩ := Spelt.around hmid
    rw [hlast.eq] at hrow
    have hne : (next mid).kind ≠ .newline := by
      intro heq
      have hstarts := Expr.startsExpr_next hrow
      rw [heq] at hstarts
      cases hstarts
    have hsimple : Takes (Leaves (some (.ret .none (some e.tree))) s) (⟨.newline, span'⟩ :: rest)
        (simple s (⟨.keyword .return_, span⟩ :: mid)) := by
      rw [simple, hf, if_neg (by simp), if_neg hne]
      refine (e.reads _ _ hrow (by simp [Ends, next, looseness])).bind fun n hr hn => .ok _ ⟨?_, rfl⟩
      rw [Option.map_some, Node.bare, bareOption, hn]
    exact statement_of_simple (by simp [next]) (by simp [next]) hsimple

theorem takes_outer {x : Name} (hs : Allowed foreign s (.outer x.text)) :
    s.params.contains x.text = false ∧ s.declared.contains x.text = false := by
  constructor
  · simpa using hs.1
  · simpa using hs.2

/-- Names that are taken from outside, with commas between them. -/
theorem nonlocals_outer {x : Name} {xs : List Name} (hs : Suits foreign s ((x :: xs).map (.outer ·.text)))
    (h : Spelt (Row.tokens (separated ((x :: xs).map fun x => [.name x]))) ts rest)
    (hrest : (next rest).kind ≠ .symbol .comma) :
    Takes (· = follow s ((x :: xs).map (.outer ·.text))) rest (nonlocals s ts) := by
  have hfree := takes_outer hs.1
  induction xs generalizing x s ts with
  | nil =>
    obtain ⟨span, rfl⟩ := Spelt.single h
    rw [nonlocals]
    refine takes_expectName.bind fun a hr ha => ?_
    cases ha
    simp only [hfree, Bool.false_eq_true, if_false]
    split
    · exact absurd rfl hrest
    · exact .ok _ rfl
  | cons y ys ih =>
    rw [List.map_cons, List.map_cons, tokens_separated] at h
    obtain ⟨span, mid, hx, hmid⟩ := h.around
    obtain ⟨span', rfl⟩ := Spelt.single hx
    rw [nonlocals]
    refine takes_expectName.bind fun a hr ha => ?_
    cases ha
    simp only [hfree, Bool.false_eq_true, if_false]
    exact (ih hs.2 hmid (takes_outer hs.2.1)).bind fun t hr ht => .ok _ ht

theorem statement_outer {x : Name} {xs : List Name} (hf : s.isFunction = true)
    (hs : Suits foreign s ((x :: xs).map (.outer ·.text)))
    (h : Spelt (Row.tokens (outerRow x xs) ++ [.newline]) ts rest) :
    Takes (Leaves none (follow s ((x :: xs).map (.outer ·.text)))) rest (statement s ts) := by
  obtain ⟨span, mid, rfl, hmid⟩ := Spelt.head h
  obtain ⟨span', last, hnames, hlast⟩ := Spelt.around hmid
  rw [hlast.eq] at hnames
  have hsimple : Takes (Leaves none (follow s ((x :: xs).map (.outer ·.text)))) (⟨.newline, span'⟩ :: rest)
      (simple s (⟨.keyword .nonlocal, span⟩ :: mid)) := by
    rw [simple, hf, if_neg (by simp)]
    exact (nonlocals_outer hs hnames (by simp [next])).bind fun t hr ht => .ok _ ⟨rfl, ht⟩
  exact statement_of_simple (by simp [next]) (by simp [next]) hsimple

/-! What is read back -/

def Stmt.Reads (st : Stmt) : Prop :=
  ∀ foreign s ts rest, st.Legal s.isFunction → Suits foreign s st.bindings → Spelt st.tokens ts rest → Closes rest →
    Takes (Leaves (st.node? foreign) (follow s st.bindings)) rest (statement s ts)

/-- A suite is followed by the end of its block. -/
def Suite.Reads (b : Suite) : Prop :=
  ∀ foreign s ts rest, b.Legal s.isFunction → Suits foreign s b.bindings → Spelt b.tokens ts rest →
    (next rest).kind = .dedent → Takes (LeavesAll (b.nodes foreign) (follow s b.bindings)) rest (statements s ts)

/-- An alternate is read behind any test and suite. -/
def Alternate.Reads (a : Alternate) : Prop :=
  ∀ (test : Expr) (yes : Suite), yes.Reads → ∀ foreign start s ts rest, yes.Legal s.isFunction → a.Legal s.isFunction →
    Suits foreign s (yes.bindings ++ a.bindings) →
    Spelt (Row.tokens test.row ++ .symbol .colon :: (indented yes.tokens ++ a.tokens)) ts rest → Closes rest →
    Takes (LeavesOne (.branch .none test.tree (.block .none [] (yes.nodes foreign)) (a.node? foreign))
      (follow s (yes.bindings ++ a.bindings))) rest (branch start s ts)

/-! Suites -/

theorem statements_nil (h : (next ts).kind = .dedent) : Takes (LeavesAll [] s) ts (statements s ts) := by
  rw [statements, if_pos (.inl h)]
  exact .ok _ ⟨rfl, rfl⟩

theorem statements_cons {node : Option Node} {nodes : List Node} {s'' : Scope} (hstarts : startsStmt (next ts).kind = true)
    (h : Takes (Leaves node s') mid (statement s ts)) (hs : Takes (LeavesAll nodes s'') rest (statements s' mid)) :
    Takes (LeavesAll (node.toList ++ nodes) s'') rest (statements s ts) := by
  have hne : ¬((next ts).kind = .dedent ∨ (next ts).kind = .eof) := by
    rintro (heq | heq)
    · rw [heq] at hstarts
      cases hstarts
    · rw [heq] at hstarts
      cases hstarts
  rw [statements, if_neg hne]
  refine h.bind fun r hr hp => ?_
  obtain ⟨n, t⟩ := r
  obtain ⟨hn, rfl⟩ := hp
  refine hs.bind fun r hr hp => .ok _ ⟨?_, hp.2⟩
  rw [ShowsAll, List.map_append, hp.1, ← hn]
  cases n <;> rfl

section

variable {b : Suite} (hb : b.Reads) (hl : b.Legal s.isFunction) (hs : Suits foreign s b.bindings)

include hb hl hs

theorem suite_reads (h : Spelt (indented b.tokens) ts rest) :
    Takes (LeavesAll (b.nodes foreign) (follow s b.bindings)) rest (suite s ts) := by
  obtain ⟨span, mid, rfl, hmid⟩ := Spelt.head h
  obtain ⟨span', mid', rfl, hmid'⟩ := Spelt.head hmid
  obtain ⟨span'', last, hbody, hlast⟩ := Spelt.around hmid'
  rw [hlast.eq] at hbody
  rw [suite]
  refine takes_expect.bind fun _ hr _ => ?_
  refine (hb _ _ _ _ hl hs hbody rfl).bind fun r hr hp => ?_
  exact takes_expect.bind fun _ hr _ => .ok _ hp

theorem block_reads (h : Spelt (.symbol .colon :: indented b.tokens) ts rest) :
    Takes (LeavesOne (.block .none [] (b.nodes foreign)) (follow s b.bindings)) rest (block s ts) := by
  obtain ⟨span, mid, rfl, hmid⟩ := h.head
  rw [block]
  refine takes_expect.bind fun _ hr _ => ?_
  refine (suite_reads hb hl hs hmid).bind fun r hr hp => .ok _ ⟨?_, hp.2⟩
  rw [Shows, Node.bare, bareAll_eq_map, hp.1]

end

theorem Suite.reads_last {st : Stmt} (hst : st.Reads) : (Suite.last st).Reads := by
  intro foreign s ts rest hl hs h hrest
  have hcloses : Closes rest := by
    constructor
    · rw [hrest]
      simp
    · rw [hrest]
      simp
  have hread := statements_cons (Stmt.startsStmt_next h) (hst foreign s ts rest hl hs h hcloses) (statements_nil hrest)
  rwa [List.append_nil] at hread

theorem Suite.reads_cons {st : Stmt} {b : Suite} (hst : st.Reads) (hb : b.Reads) : (Suite.cons st b).Reads := by
  intro foreign s ts rest hl hs h hrest
  obtain ⟨hs, hs'⟩ := suits_append.mp hs
  obtain ⟨mid, h, hmid⟩ := Spelt.split h
  have hfirst := hst foreign s ts mid hl.1 hs h (closes_of_startsStmt (Suite.startsStmt_next hmid))
  have hothers := hb foreign (follow s st.bindings) mid rest (by simpa using hl.2) hs' hmid hrest
  rw [Suite.bindings, follow_append]
  exact statements_cons (Stmt.startsStmt_next h) hfirst hothers

/-! Functions -/

theorem isReturn_bare (n : Node) : isReturn n.bare = isReturn n := by cases n <;> rfl

theorem functionOf_bare {f : Name} {ps : Params} {qs : List Param} (hps : ShowsParams ps.formals qs) (s : Scope)
    (colon : Span) (body : List Node) :
    (functionOf (some f.text) qs s colon body).bare = function f ps s.declared (body.map Node.bare) := by
  have hlast : (body.map Node.bare).getLast?.any isReturn = body.getLast?.any isReturn := by
    rw [List.getLast?_map, Option.any_map]
    congr 1
    funext n
    exact isReturn_bare n
  simp only [functionOf, function, withReturn, Func.bare, Node.bare, bareAll_eq_map, hlast]
  rw [hps]
  split
  · rfl
  · rw [List.map_append]
    rfl

theorem params_ofFunction {ps : Params} {qs : List Param} (hps : ShowsParams ps.formals qs) :
    (Scope.ofFunction qs).params = ps.texts := by
  have hnames : qs.map (·.name) = (qs.map Param.bare).map (·.name) := by
    rw [List.map_map]
    rfl
  rw [Scope.ofFunction, hnames, hps, Params.formals, Params.texts]
  simp [Function.comp_def]

theorem Stmt.reads_define {body : Suite} (hb : body.Reads) (f : Name) (ps : Params) : (Stmt.define f ps body).Reads := by
  intro foreign s ts rest hl hs h _
  have htokens : (Stmt.define f ps body).tokens = .keyword .def_ :: .ident f.text :: .symbol .lparen ::
      (Row.tokens (separated ps.rows) ++ .symbol .rparen :: .symbol .colon :: indented body.tokens) := by
    rw [Stmt.tokens, defHeader, Row.tokens_append, List.append_assoc]
    rfl
  rw [htokens] at h
  obtain ⟨start, mid, rfl, hdef⟩ := h.head
  obtain ⟨span₁, mid₁, rfl, hname⟩ := hdef.head
  obtain ⟨span₂, mid₂, rfl, hparams⟩ := hname.head
  obtain ⟨span₃, mid₃, hparams, hcolon⟩ := hparams.around
  obtain ⟨span₄, mid₄, rfl, hbody⟩ := hcolon.head
  have hread : Takes (LeavesOne (.define .none f.text (function f ps (madeNames ps.texts body.bindings)
      (body.nodes (isOuter ps.texts body.bindings))) (!foreign f.text)) (after s (.assigned f.text))) rest
      (definition start s (⟨.ident f.text, span₁⟩ :: ⟨.symbol .lparen, span₂⟩ :: mid₂)) := by
    rw [definition]
    refine takes_expectName.bind fun a hr ha => ?_
    cases ha
    refine takes_expect.bind fun _ hr _ => ?_
    refine (ps.reads hparams rfl (by decide) (by decide)).bind fun qs hr hqs => ?_
    refine takes_expect.bind fun _ hr _ => ?_
    refine takes_expect.bind fun colon hr _ => ?_
    simp only [bind_eq, show s.isOuter f.text = foreign f.text from hs.1]
    -- the body is read in a new scope, which knows the parameters only; what this scope has declared at the
    -- end of the body are the names that the body makes
    have hnames : NamesLegal (Scope.ofFunction qs).params body.bindings := by
      rw [params_ofFunction hqs]
      exact hl.2
    obtain ⟨hsuits, hmade⟩ := hnames.suits rfl rfl
    rw [params_ofFunction hqs] at hsuits hmade
    refine (suite_reads hb hl.1 hsuits hbody).bind fun r hr hp => .ok _ ⟨?_, rfl⟩
    obtain ⟨hnodes, hscope⟩ := hp
    rw [Shows, Node.bare, functionOf_bare hqs, hscope, hmade, hnodes]
  rw [statement]
  refine hread.bind fun r hr hp => .ok _ ⟨?_, hp.2⟩
  rw [Option.map_some, hp.1]
  rfl

/-! Branches -/

theorem Stmt.reads_branch {yes : Suite} {no : Alternate} (hy : yes.Reads) (hn : no.Reads) (test : Expr) :
    (Stmt.branch test yes no).Reads := by
  intro foreign s ts rest hl hs h hrest
  have htokens : (Stmt.branch test yes no).tokens =
      .keyword .if_ :: (Row.tokens test.row ++ .symbol .colon :: (indented yes.tokens ++ no.tokens)) := by
    simp [Stmt.tokens, tokens_header]
  rw [htokens] at h
  obtain ⟨start, mid, rfl, hmid⟩ := h.head
  rw [statement]
  refine (hn test yes hy foreign start s mid rest hl.1 hl.2 hs hmid hrest).bind fun r hr hp => .ok _ ⟨?_, hp.2⟩
  rw [Option.map_some, hp.1]
  rfl

/-- A test and the suite below it, with something behind. -/
theorem branch_parts {test : Expr} {yes : Suite} (hy : yes.Reads) (hl : yes.Legal s.isFunction)
    (hs : Suits foreign s yes.bindings)
    (h : Spelt (Row.tokens test.row ++ .symbol .colon :: (indented yes.tokens ++ ks)) ts rest) :
    ∃ colon mid, Takes (Shows test.tree) colon (expr ts) ∧
      Takes (LeavesOne (.block .none [] (yes.nodes foreign)) (follow s yes.bindings)) mid (block s colon) ∧
      Spelt ks mid rest := by
  obtain ⟨colon, htest, hcolon⟩ := h.split
  have hparts : Spelt ((.symbol .colon :: indented yes.tokens) ++ ks) colon rest := hcolon
  obtain ⟨mid, hblock, hmid⟩ := hparts.split
  have hends : Ends 11 colon := by
    obtain ⟨span, last, rfl, -⟩ := hblock.head
    simp [Ends, next, looseness]
  exact ⟨colon, mid, test.reads _ _ htest hends, block_reads hy hl hs hblock, hmid⟩

theorem Alternate.reads_none : Alternate.none.Reads := by
  intro test yes hy foreign start s ts rest hyes _ hs h hrest
  obtain ⟨hs, -⟩ := suits_append.mp hs
  obtain ⟨colon, mid, htest, hblock, hmid⟩ := branch_parts hy hyes hs h
  cases hmid.eq
  rw [branch]
  refine htest.bind fun n hr hn => ?_
  refine hblock.bind fun r hr hp => ?_
  obtain ⟨b, t⟩ := r
  obtain ⟨hb, rfl⟩ := hp
  dsimp only
  split
  · exact absurd rfl hrest.1
  · exact absurd rfl hrest.2
  · refine .ok _ ⟨?_, by rw [follow_append]; rfl⟩
    rw [Shows, Node.bare, hn, hb]
    rfl

theorem Alternate.reads_otherwise {body : Suite} (hb : body.Reads) : (Alternate.otherwise body).Reads := by
  intro test yes hy foreign start s ts rest hyes hl hs h _
  obtain ⟨hs, hs'⟩ := suits_append.mp hs
  obtain ⟨colon, mid, htest, hblock, hmid⟩ := branch_parts hy hyes hs h
  obtain ⟨span, mid, rfl, hbody⟩ := Spelt.head hmid
  have hl' : body.Legal (follow s yes.bindings).isFunction := by
    rw [isFunction_follow]
    exact hl
  have hread := block_reads hb hl' hs' hbody
  rw [branch]
  refine htest.bind fun n hr hn => ?_
  refine hblock.bind fun r hr hp => ?_
  obtain ⟨b, t⟩ := r
  obtain ⟨hb, rfl⟩ := hp
  refine hread.bind fun r hr hp => .ok _ ⟨?_, ?_⟩
  · rw [Shows, Node.bare, hn, hb, bareOption, hp.1]
    rfl
  · rw [follow_append]
    exact hp.2

theorem Alternate.reads_elif {yes' : Suite} {no : Alternate} (hy' : yes'.Reads) (hn : no.Reads) (test' : Expr) :
    (Alternate.elif test' yes' no).Reads := by
  intro test yes hy foreign start s ts rest hyes hl hs h hrest
  obtain ⟨hs, hs'⟩ := suits_append.mp hs
  obtain ⟨colon, mid, htest, hblock, hmid⟩ := branch_parts hy hyes hs h
  have htokens : (Alternate.elif test' yes' no).tokens =
      .keyword .elif :: (Row.tokens test'.row ++ .symbol .colon :: (indented yes'.tokens ++ no.tokens)) := by
    simp [Alternate.tokens, tokens_header]
  rw [htokens] at hmid
  obtain ⟨span, mid, rfl, hno⟩ := hmid.head
  have hread := hn test' yes' hy' foreign span (follow s yes.bindings) mid rest (by simpa using hl.1)
    (by simpa using hl.2) hs' hno hrest
  rw [branch]
  refine htest.bind fun n hr hn => ?_
  refine hblock.bind fun r hr hp => ?_
  obtain ⟨b, t⟩ := r
  obtain ⟨hb, rfl⟩ := hp
  refine hread.bind fun r hr hp => .ok _ ⟨?_, ?_⟩
  · rw [Shows, Node.bare, hn, hb, bareOption, hp.1]
    rfl
  · rw [follow_append]
    exact hp.2

mutual

theorem Stmt.reads (st : Stmt) : st.Reads := by
  cases st with
  | expression e => exact fun _ _ _ _ _ _ h _ => statement_expression h
  | assign x e =>
    intro foreign s ts rest _ hs h _
    have hread := statement_assign (s := s) h
    rw [show s.isOuter x.text = foreign x.text from hs.1] at hread
    exact hread
  | define f ps body => exact Stmt.reads_define (Suite.reads body) f ps
  | ret value => exact fun _ _ _ _ hl _ h _ => statement_return hl h
  | branch test yes no => exact Stmt.reads_branch (Suite.reads yes) (Alternate.reads no) test
  | pass => exact fun _ _ _ _ _ _ h _ => statement_pass h
  | outer x xs => exact fun _ _ _ _ hl hs h _ => statement_outer hl hs h

theorem Suite.reads (b : Suite) : b.Reads := by
  cases b with
  | last st => exact Suite.reads_last (Stmt.reads st)
  | cons st rest => exact Suite.reads_cons (Stmt.reads st) (Suite.reads rest)

theorem Alternate.reads (a : Alternate) : a.Reads := by
  cases a with
  | none => exact Alternate.reads_none
  | otherwise body => exact Alternate.reads_otherwise (Suite.reads body)
  | elif test yes no => exact Alternate.reads_elif (Suite.reads yes) (Alternate.reads no) test

end

end CseMachine.Surface
