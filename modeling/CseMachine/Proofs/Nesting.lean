import CseMachine.Proofs.Nesting.Expressions

/-!
# Nesting of source spans

The spans of a tree are nested: a node is cut from the source at boundaries of characters,
what it is made of lies within it, and statements of one body stand one behind the other.
The root is the whole source. A source that is refused is refused for a range of it.
-/
namespace CseMachine.Parse

open Token (Ahead Kind)

variable {cs : List Char} {lo : Nat} {ts : List Token}

/-! Statements of a line -/

theorem nonlocals_ahead (s : Scope) (ts : List Token) (h : Ahead cs lo ts) :
    Traced cs (fun r => Ahead cs lo r.2.val) (nonlocals s ts) := by
  unfold nonlocals
  refine (expectName_taken h).bind ?_
  rintro ⟨⟨name, span⟩, r₁, h₁⟩ hname
  have hr₁ := hname.skip h
  dsimp only at hr₁ ⊢
  split
  · exact .error hname.range
  · split
    · exact .error hname.range
    · split
      · next _ _ comma r₂ h₁ =>
        have hcomma := taken hr₁ (by simp)
        exact (nonlocals_ahead _ r₂ (hcomma.skip hr₁)).bind fun _ hr => .pure hr
      · exact .pure hr₁
termination_by ts.length
decreasing_by
  simp only [List.length_cons] at h₁
  omega

theorem expressionOrAssignment_lined (s : Scope) (ts : List Token) (h : Ahead cs lo ts) :
    Traced cs (fun r => Lined cs lo [r.1.1] r.2.val) (expressionOrAssignment s ts) := by
  simp only [expressionOrAssignment]
  refine (expr_lines ts lo h).bind ?_
  rintro ⟨left, r₁, h₁⟩ hleft
  dsimp only at hleft ⊢
  split
  · have hassign := taken hleft.ahead (by simp)
    split
    · next _ sign r₂ h₁ _ span target =>
      refine (expr_lines r₂ _ hassign.ahead).bind ?_
      rintro ⟨value, r₃, h₃⟩ hvalue
      have hall : Lined cs lo [.identifier span target, value] r₃ := hleft.past hassign hvalue
      exact .pure (.headed ⟨rfl, rfl⟩ rfl rfl hall.1 hall.2.1.range hall.2.2)
    · exact .error hleft.2.1.range
  · refine .pure (.single ⟨hleft.1, hleft.2.2⟩ (Node.nested_of_plain ⟨rfl, rfl⟩ hleft.2.1.range ?_))
    exact List.forall_mem_singleton.mpr ⟨hleft.2.1, .refl _⟩

theorem simple_lined (s : Scope) (ts : List Token) (h : Ahead cs lo ts) :
    Traced cs (fun r => Lined cs lo r.1.1.toList r.2.val) (simple s ts) := by
  simp only [simple]
  split
  · exact .ok (.leaf ⟨rfl, rfl⟩ rfl (taken h (by simp)) h)
  · have hword := taken h (by simp)
    split
    · exact .error hword.range
    · split
      · exact .ok (.leaf ⟨rfl, rfl⟩ rfl hword h)
      · refine (expr_lines _ _ hword.ahead).bind ?_
        rintro ⟨value, r₁, h₁⟩ hvalue
        exact .pure (.headed ⟨rfl, rfl⟩ rfl rfl (hword.behind lo h) hword.range hvalue)
  · have hword := taken h (by simp)
    split
    · exact .error hword.range
    · exact (nonlocals_ahead s _ (hword.skip h)).bind fun _ hr => .pure hr
  · exact (expressionOrAssignment_lined s _ h).bind fun _ hr => .pure hr

/-! Statements -/

mutual

theorem statement_lined (s : Scope) (ts : List Token) {lo : Nat} (h : Ahead cs lo ts) :
    Traced cs (fun r => Lined cs lo r.1.1.toList r.2.val) (statement s ts) := by
  unfold statement
  split
  · next start rest =>
    have hstart := taken h (by simp)
    exact (definition_lined start s rest (hstart.behind lo h) hstart.range hstart.ahead).bind fun _ hr => .pure hr
  · next start rest =>
    have hstart := taken h (by simp)
    exact (branch_lined start s rest (hstart.behind lo h) hstart.range hstart.ahead).bind fun _ hr => .pure hr
  · refine (simple_lined s _ h).bind ?_
    rintro ⟨⟨node, s'⟩, r₁, h₁⟩ hnode
    refine (expect_taken hnode.ahead (by simp : Kind.newline ≠ .eof)).bind ?_
    rintro ⟨span, r₂, h₂⟩ hnewline
    exact .pure (hnode.before hnewline)
termination_by (ts.length, 1)
decreasing_by all_goals subst_vars; simp only [Prod.lex_def, List.length_cons]; omega

theorem definition_lined (start : Span) (s : Scope) (ts : List Token) {lo : Nat} (hlo : lo ≤ start.start) (hs : start.CutFrom cs)
    (h : Ahead cs start.stop ts) : Traced cs (fun r => Lined cs lo [r.1.1] r.2.val) (definition start s ts) := by
  simp only [definition]
  refine (expectName_taken h).bind ?_
  rintro ⟨⟨name, _⟩, r₁, h₁⟩ hname
  have hr₁ := hname.skip h
  refine (expectSymbol_taken .lparen hr₁).bind ?_
  rintro ⟨_, r₂, h₂⟩ hopen
  have hr₂ := hopen.skip hr₁
  refine (params_hold (.symbol .rparen) [] r₂ hr₂ (List.forall_mem_nil _)).bind ?_
  rintro ⟨ps, r₃, h₃⟩ ⟨hr₃, hps⟩
  refine (expectSymbol_taken .rparen hr₃).bind ?_
  rintro ⟨_, r₄, h₄⟩ hclose
  have hr₄ := hclose.skip hr₃
  refine (expectSymbol_taken .colon hr₄).bind ?_
  rintro ⟨colon, r₅, h₅⟩ hcolon
  have hlt : r₅.length < ts.length :=
    Nat.lt_of_lt_of_le (Nat.lt_trans h₅ h₄) (Nat.le_trans h₃ (Nat.le_of_lt (Nat.lt_trans h₂ h₁)))
  refine (suite_lined (Scope.ofFunction ps) r₅ hcolon.ahead).bind ?_
  rintro ⟨⟨body, inner⟩, r₆, h₆⟩ hbody
  obtain ⟨-, hle, hahead, -⟩ := suiteSpan_covers hcolon.range hbody
  -- an empty body is where the colon is, so the parameters have to end in front of the colon
  refine .pure (.func rfl rfl hlo hs ⟨?_, functionOf_nested hcolon.range hbody, hahead⟩ fun p hp => ?_)
  · exact Nat.le_trans (hcolon.behind _ hr₄) hle
  · obtain ⟨hcut, hfrom, hto⟩ := hclose.holds (hps p hp)
    exact ⟨hcut, hfrom, Nat.le_trans (hcolon.behind _ hto) hle⟩
termination_by (ts.length, 0)
decreasing_by all_goals simp only [Prod.lex_def]; omega

theorem suite_lined (s : Scope) (ts : List Token) {lo : Nat} (h : Ahead cs lo ts) :
    Traced cs (fun r => Lined cs lo r.1.1 r.2.val) (suite s ts) := by
  unfold suite
  split
  · next newline rest =>
    have hr := (taken h (by simp)).skip h
    refine (expect_taken hr (by simp : Kind.indent ≠ .eof)).bind ?_
    rintro ⟨_, r₁, h₁⟩ hindent
    refine (statements_lined s r₁ (hindent.skip hr)).bind ?_
    rintro ⟨⟨body, s'⟩, r₂, h₂⟩ hbody
    refine (expect_taken hbody.ahead (by simp : Kind.dedent ≠ .eof)).bind ?_
    rintro ⟨_, r₃, h₃⟩ hdedent
    exact .pure (hbody.before hdedent)
  · refine (simple_lined s _ h).bind ?_
    rintro ⟨⟨node, s'⟩, r₁, h₁⟩ hnode
    refine (expect_taken hnode.ahead (by simp : Kind.newline ≠ .eof)).bind ?_
    rintro ⟨_, r₂, h₂⟩ hnewline
    exact .pure (hnode.before hnewline)
termination_by (ts.length, 0)
decreasing_by subst_vars; simp [Prod.lex_def]; omega

theorem statements_lined (s : Scope) (ts : List Token) {lo : Nat} (h : Ahead cs lo ts) :
    Traced cs (fun r => Lined cs lo r.1.1 r.2.val) (statements s ts) := by
  unfold statements
  split
  · exact .ok h
  · refine (statement_lined s ts h).bind ?_
    rintro ⟨⟨node, s₁⟩, r₁, h₁⟩ hnode
    obtain ⟨hi, hr₁, happend⟩ := hnode.behind
    exact (statements_lined s₁ r₁ hr₁).bind fun _ hrest => .pure (happend _ _ hrest)
termination_by (ts.length, 2)
decreasing_by all_goals simp only [Prod.lex_def, true_and]; omega

theorem branch_lined (start : Span) (s : Scope) (ts : List Token) {lo : Nat} (hlo : lo ≤ start.start) (hs : start.CutFrom cs)
    (h : Ahead cs start.stop ts) : Traced cs (fun r => Lined cs lo [r.1.1] r.2.val) (branch start s ts) := by
  unfold branch
  refine (expr_lines ts _ h).bind ?_
  rintro ⟨test, r₁, h₁⟩ ⟨hle, htest, hr₁⟩
  refine (block_lined s r₁ hr₁).bind ?_
  rintro ⟨⟨yes, s₁⟩, r₂, h₂⟩ hyes
  have hboth : Lined cs start.stop [test, yes] r₂ := ⟨hle, htest, hyes⟩
  dsimp only at hyes ⊢
  split
  · next _ elif r₃ h₂ =>
    have h₃ : r₃.length < ts.length := by simp only [List.length_cons] at h₂ h₁; omega
    have helif := taken hboth.2.2.2.2 (by simp)
    refine (branch_lined elif s₁ r₃ (helif.behind _ hboth.2.2.2.2) helif.range helif.ahead).bind ?_
    rintro ⟨⟨no, s₂⟩, r₄, h₄⟩ hno
    have hall : Lined cs start.stop [test, yes, no] r₄ := ⟨hle, htest, hyes.1, hyes.2.1, hno⟩
    exact .pure (.worded ⟨rfl, rfl⟩ rfl rfl rfl hlo hs hall)
  · next _ word r₃ h₂ =>
    have h₃ : r₃.length < ts.length := by simp only [List.length_cons] at h₂ h₁; omega
    have hword := taken hboth.ahead (by simp)
    refine (block_lined s₁ r₃ hword.ahead).bind ?_
    rintro ⟨⟨no, s₂⟩, r₄, h₄⟩ hno
    have hall : Lined cs start.stop [test, yes, no] r₄ := hboth.past hword hno
    exact .pure (.worded ⟨rfl, rfl⟩ rfl rfl rfl hlo hs hall)
  · exact .pure (.worded ⟨rfl, rfl⟩ rfl rfl rfl hlo hs hboth)
termination_by (ts.length, 2)
decreasing_by all_goals subst_vars; simp only [Prod.lex_def]; omega

theorem block_lined (s : Scope) (ts : List Token) {lo : Nat} (h : Ahead cs lo ts) :
    Traced cs (fun r => Lined cs lo [r.1.1] r.2.val) (block s ts) := by
  simp only [block]
  refine (expectSymbol_taken .colon h).bind ?_
  rintro ⟨colon, r₁, h₁⟩ hcolon
  refine (suite_lined s r₁ hcolon.ahead).bind ?_
  rintro ⟨⟨body, s'⟩, r₂, h₂⟩ hbody
  obtain ⟨hcut, hle, hahead, hwithin⟩ := suiteSpan_covers hcolon.range hbody
  refine .pure (.single ⟨Nat.le_trans (hcolon.behind lo h) hle, hahead⟩ ?_)
  exact Node.nested_body rfl rfl rfl hcut (fun n hn => ⟨hbody.nested hn, hwithin n hn⟩) hbody.pairwise
termination_by (ts.length, 1)
decreasing_by all_goals simp only [Prod.lex_def]; omega

end

/-! Programs -/

/-- The statements of a program end in front of the end marker. -/
theorem topLevel_lined (s : Scope) (ts : List Token) {lo : Nat} (h : Ahead cs lo ts) :
    Traced cs (fun r => Lined cs lo r.1 [⟨.eof, Span.point (Text.bytes cs)⟩] ∧ r.2.2 = Text.bytes cs) (topLevel s ts) := by
  unfold topLevel
  split
  · exact absurd rfl h.ne_nil
  · next t rest =>
    split
    · next hk =>
      cases h with
      | done inside => exact .ok ⟨.done inside, rfl⟩
      | cons kind => exact absurd hk kind
    · next hk => exact topLevel_lined s rest ((taken h (by simp [hk])).skip h)
    · exact .error h.head.2
    · refine (statement_lined s _ h).bind ?_
      rintro ⟨⟨node, s₁⟩, r₁, h₁⟩ hnode
      obtain ⟨hi, hr₁, happend⟩ := hnode.behind
      exact (topLevel_lined s₁ r₁ hr₁).bind fun _ hr => .pure ⟨happend _ _ hr.1, hr.2⟩
termination_by ts.length
decreasing_by all_goals subst_vars; first | assumption | simp

theorem program_nested (h : Ahead cs 0 ts) :
    Traced cs (fun tree => tree.span = ⟨0, Text.bytes cs⟩ ∧ tree.Nested cs) (program ts) := by
  simp only [program]
  refine (topLevel_lined _ ts h).bind ?_
  rintro ⟨body, s, stop⟩ ⟨hbody, rfl⟩
  have hcut : Span.CutFrom ⟨0, Text.bytes cs⟩ cs :=
    Span.cutFrom_of_boundaries (Nat.zero_le _) (Text.isBoundary_append [] cs) (Text.isBoundary_bytes cs)
  refine .pure ⟨rfl, Node.nested_body rfl rfl rfl hcut (fun n hn => ⟨hbody.nested hn, ?_⟩) hbody.pairwise⟩
  exact ⟨Nat.zero_le _, (hbody.nested hn).range.inside⟩

end CseMachine.Parse

namespace CseMachine

/-- Spans nest. The tree of a source that is accepted is the whole source, and each of its nodes is cut
from it at boundaries of characters, with its children and parameters within it and its statements in
order. A source that is refused is refused for a range of it. -/
theorem parse_nested (source : String) :
    match parse source with
    | .ok tree => tree.span = ⟨0, Text.bytes source.toList⟩ ∧ tree.Nested source.toList
    | .error e => e.span.CutFrom source.toList := by
  have h : Traced source.toList (fun tree => tree.span = ⟨0, Text.bytes source.toList⟩ ∧ tree.Nested source.toList)
      (parse source) := (Token.lex_ahead source).bind fun _ hts => Parse.program_nested hts
  cases hp : parse source with
  | ok tree =>
    rw [hp] at h
    exact h
  | error e =>
    rw [hp] at h
    exact h

end CseMachine
