import CseMachine.Parse
import CseMachine.Proofs.Results
import CseMachine.Proofs.Scoping
import Mathlib.Data.List.Nodup

/-!
# Expressions from the parser

What a reader yields if it succeeds. Expressions have no statements in them, apart
from the `return` that a lambda wraps around its value, and parameters are told
apart by their names.
-/
namespace CseMachine

/-- Parameters are all different, and only the last may take further arguments. -/
structure ProperParams (ps : List Param) : Prop where
  distinct : (ps.map (·.name)).Nodup
  single : ∀ p ∈ ps.dropLast, p.rest = false

theorem ProperParams.of_reverse {read : List Param} (hd : (read.map (·.name)).Nodup) (hr : ∀ p ∈ read.tail, p.rest = false) :
    ProperParams read.reverse := by
  refine ⟨?_, fun p hp => hr p ?_⟩
  · rw [List.map_reverse]
    exact List.nodup_reverse.mpr hd
  · rw [List.dropLast_reverse] at hp
    exact List.mem_reverse.mp hp

/-- An expression, as it may stand in a program. -/
inductive Node.IsExpr : Node → Prop
  | literal {span : Span} {value : Literal} : IsExpr (.literal span value)
  | identifier {span : Span} {name : String} : IsExpr (.identifier span name)
  | unary {span : Span} {op : UnaryOp} {e : Node} (operand : IsExpr e) : IsExpr (.unary span op e)
  | binary {span : Span} {op : BinaryOp} {a b : Node} (left : IsExpr a) (right : IsExpr b) : IsExpr (.binary span op a b)
  | conditional {span : Span} {a b c : Node} (test : IsExpr a) (yes : IsExpr b) (no : IsExpr c) :
      IsExpr (.conditional span a b c)
  | lambda {span within inner : Span} {ps : List Param} {e : Node} (params : ProperParams ps) (value : IsExpr e) :
      IsExpr (.lambda span ⟨none, ps, .block within [] [.ret inner (some e)], []⟩)
  | call {span : Span} {f : Node} {es : List Node} (callee : IsExpr f) (args : ∀ e ∈ es, IsExpr e) : IsExpr (.call span f es)
  | list {span : Span} {es : List Node} (items : ∀ e ∈ es, IsExpr e) : IsExpr (.list span es)
  | subscript {span : Span} {e i : Node} (value : IsExpr e) (index : IsExpr i) : IsExpr (.subscript span e i)

/-- An expression declares nothing and needs nothing declared. -/
theorem Node.IsExpr.scoped {n : Node} (h : n.IsExpr) {names : String → Prop} {skip : Bool} : n.Scoped names False skip := by
  induction h generalizing names skip with
  | literal | identifier => trivial
  | unary _ ih => exact ih
  | binary _ _ ha hb => exact ⟨ha, hb⟩
  | conditional _ _ _ ht hy hn => exact ⟨ht, hy, hn⟩
  | lambda params _ ih => exact ⟨rfl, by simpa using params.distinct, ⟨trivial, ih⟩, trivial⟩
  | call _ _ hc ha => exact ⟨hc, allScoped_iff.mpr fun a h => ha a h⟩
  | list _ ih => exact allScoped_iff.mpr fun i h => ih i h
  | subscript _ _ hv hi => exact ⟨hv, hi⟩

end CseMachine

namespace CseMachine.Parse

variable {ε α β : Type} {P Q : α → Prop}

/-- A result that satisfies the property unless it is an error. -/
def Yields (P : α → Prop) (r : Except ε α) : Prop := ∀ a, r = .ok a → P a

namespace Yields

theorem ok {a : α} (h : P a) : Yields (ε := ε) P (.ok a) := fun _ hb => Except.ok.inj hb ▸ h

theorem pure {a : α} (h : P a) : Yields (ε := ε) P (Pure.pure a) := ok h

theorem error {e : ε} : Yields P (.error e : Except ε α) := fun _ hb => nomatch hb

theorem any {r : Except ε α} : Yields (fun _ => True) r := fun _ _ => trivial

theorem bind {Q : β → Prop} {r : Except ε α} {f : α → Except ε β} (h : Yields P r)
    (hf : ∀ a, P a → Yields Q (f a)) : Yields Q (r >>= f) := by
  cases r with
  | error e => exact error
  | ok a => exact hf a (h a rfl)

end Yields

/-! Parameters -/

theorem params_proper (close : Token.Kind) (read : List Param) (ts : List Token) (hd : (read.map (·.name)).Nodup)
    (hr : ∀ p ∈ read.tail, p.rest = false) : Yields (fun r => ProperParams r.1) (params close read ts) := by
  unfold params
  split
  · exact .ok (.of_reverse hd hr)
  · rcases eat (.symbol .star) ts with ⟨rest, afterStar, h₁⟩
    dsimp only
    refine Yields.any.bind ?_
    rintro ⟨⟨name, span⟩, afterName, h₂⟩ _
    dsimp only
    split
    · exact .error
    · next hlast =>
      split
      · exact .error
      · next hnew =>
        have hd' : ((⟨name, rest, span⟩ :: read).map (·.name)).Nodup := by
          refine List.nodup_cons.mpr ⟨fun hm => hnew ?_, hd⟩
          obtain ⟨p, hp, hpn⟩ := List.mem_map.mp hm
          exact List.any_eq_true.mpr ⟨p, hp, by simpa using hpn⟩
        have hr' : ∀ p ∈ read, p.rest = false := by
          intro p hp
          cases read with
          | nil => cases hp
          | cons q read =>
            rcases List.mem_cons.mp hp with rfl | hp
            · simpa using hlast
            · exact hr p hp
        split
        · next _ comma afterComma h₂ =>
          have hlt : afterComma.length < ts.length := by
            simp only [List.length_cons] at h₂
            omega
          refine (params_proper close _ afterComma hd' hr').bind ?_
          rintro ⟨ps, left, h₃⟩ hps
          exact .pure hps
        · exact .pure (ProperParams.of_reverse hd' hr' : ProperParams (⟨name, rest, span⟩ :: read).reverse)
termination_by ts.length

/-! Expressions -/

mutual

theorem expr_isExpr (ts : List Token) : Yields (fun r => r.1.IsExpr) (expr ts) := by
  unfold expr
  split
  · next start rest =>
    refine (params_proper _ [] rest List.nodup_nil nofun).bind ?_
    rintro ⟨ps, r₁, h₁⟩ hp
    refine Yields.any.bind ?_
    rintro ⟨_, r₂, h₂⟩ _
    refine (expr_isExpr r₂).bind ?_
    rintro ⟨value, r₃, h₃⟩ hv
    exact .pure (.lambda hp hv)
  · exact ternary_isExpr ts
termination_by (ts.length, 11)
decreasing_by all_goals subst_vars; simp only [Prod.lex_def, List.length_cons, true_and]; omega

theorem ternary_isExpr (ts : List Token) : Yields (fun r => r.1.IsExpr) (ternary ts) := by
  simp only [ternary]
  refine (disjunction_isExpr ts).bind ?_
  rintro ⟨yes, r₁, h₁⟩ hy
  dsimp only
  split
  · next _ op r₂ h₁ =>
    have h₂ : r₂.length < ts.length := by simp only [List.length_cons] at h₁; omega
    refine (disjunction_isExpr r₂).bind ?_
    rintro ⟨test, r₃, h₃⟩ ht
    refine Yields.any.bind ?_
    rintro ⟨_, r₄, h₄⟩ _
    have hlt : r₄.length < ts.length := by
      dsimp only at h₄
      omega
    refine (expr_isExpr r₄).bind ?_
    rintro ⟨no, r₅, h₅⟩ hn
    exact .pure (.conditional ht hy hn)
  · exact .pure hy
termination_by (ts.length, 10)
decreasing_by all_goals subst_vars; simp only [Prod.lex_def, true_and]; omega

theorem disjunction_isExpr (ts : List Token) : Yields (fun r => r.1.IsExpr) (disjunction ts) := by
  simp only [disjunction]
  refine (conjunction_isExpr ts).bind ?_
  rintro ⟨left, r₁, h₁⟩ hl
  refine (disjunctionTail_isExpr hl r₁).bind ?_
  rintro ⟨all, r₂, h₂⟩ ha
  exact .pure ha
termination_by (ts.length, 9)
decreasing_by all_goals simp only [Prod.lex_def, true_and]; omega

theorem disjunctionTail_isExpr {left : Node} (hl : left.IsExpr) (ts : List Token) :
    Yields (fun r => r.1.IsExpr) (disjunctionTail left ts) := by
  unfold disjunctionTail
  split
  · next op rest =>
    refine (conjunction_isExpr rest).bind ?_
    rintro ⟨right, r₁, h₁⟩ hr
    refine (disjunctionTail_isExpr (.conditional hl .literal hr) r₁).bind ?_
    rintro ⟨all, r₂, h₂⟩ ha
    exact .pure ha
  · exact .pure hl
termination_by (ts.length, 9)
decreasing_by all_goals subst_vars; simp only [Prod.lex_def, List.length_cons]; omega

theorem conjunction_isExpr (ts : List Token) : Yields (fun r => r.1.IsExpr) (conjunction ts) := by
  simp only [conjunction]
  refine (negation_isExpr ts).bind ?_
  rintro ⟨left, r₁, h₁⟩ hl
  refine (conjunctionTail_isExpr hl r₁).bind ?_
  rintro ⟨all, r₂, h₂⟩ ha
  exact .pure ha
termination_by (ts.length, 8)
decreasing_by all_goals simp only [Prod.lex_def, true_and]; omega

theorem conjunctionTail_isExpr {left : Node} (hl : left.IsExpr) (ts : List Token) :
    Yields (fun r => r.1.IsExpr) (conjunctionTail left ts) := by
  unfold conjunctionTail
  split
  · next op rest =>
    refine (negation_isExpr rest).bind ?_
    rintro ⟨right, r₁, h₁⟩ hr
    refine (conjunctionTail_isExpr (.conditional hl hr .literal) r₁).bind ?_
    rintro ⟨all, r₂, h₂⟩ ha
    exact .pure ha
  · exact .pure hl
termination_by (ts.length, 8)
decreasing_by all_goals subst_vars; simp only [Prod.lex_def, List.length_cons]; omega

theorem negation_isExpr (ts : List Token) : Yields (fun r => r.1.IsExpr) (negation ts) := by
  unfold negation
  split
  · next start rest =>
    refine (negation_isExpr rest).bind ?_
    rintro ⟨operand, r₁, h₁⟩ ho
    exact .pure (.unary ho)
  · exact comparison_isExpr ts
termination_by (ts.length, 7)
decreasing_by all_goals subst_vars; simp only [Prod.lex_def, List.length_cons, true_and]; omega

theorem comparison_isExpr (ts : List Token) : Yields (fun r => r.1.IsExpr) (comparison ts) := by
  simp only [comparison]
  refine (sum_isExpr ts).bind ?_
  rintro ⟨left, r₁, h₁⟩ hl
  dsimp only
  split
  · next _ t r₂ h₁ =>
    have h₂ : r₂.length < ts.length := by simp only [List.length_cons] at h₁; omega
    split
    · next op _ =>
      refine (sum_isExpr r₂).bind ?_
      rintro ⟨right, r₃, h₃⟩ hr
      dsimp only
      split
      · exact .error
      · exact .pure (.binary hl hr)
    · exact .pure hl
  · exact .pure hl
termination_by (ts.length, 6)
decreasing_by all_goals subst_vars; simp only [Prod.lex_def, true_and]; omega

theorem sum_isExpr (ts : List Token) : Yields (fun r => r.1.IsExpr) (sum ts) := by
  simp only [sum]
  refine (product_isExpr ts).bind ?_
  rintro ⟨left, r₁, h₁⟩ hl
  refine (sumTail_isExpr hl r₁).bind ?_
  rintro ⟨all, r₂, h₂⟩ ha
  exact .pure ha
termination_by (ts.length, 5)
decreasing_by all_goals simp only [Prod.lex_def, true_and]; omega

theorem sumTail_isExpr {left : Node} (hl : left.IsExpr) (ts : List Token) :
    Yields (fun r => r.1.IsExpr) (sumTail left ts) := by
  unfold sumTail
  split
  · next t rest =>
    split
    · next op _ =>
      refine (product_isExpr rest).bind ?_
      rintro ⟨right, r₁, h₁⟩ hr
      refine (sumTail_isExpr (.binary hl hr) r₁).bind ?_
      rintro ⟨all, r₂, h₂⟩ ha
      exact .pure ha
    · exact .pure hl
  · exact .pure hl
termination_by (ts.length, 5)
decreasing_by all_goals subst_vars; simp only [Prod.lex_def, List.length_cons]; omega

theorem product_isExpr (ts : List Token) : Yields (fun r => r.1.IsExpr) (product ts) := by
  simp only [product]
  refine (factor_isExpr ts).bind ?_
  rintro ⟨left, r₁, h₁⟩ hl
  refine (productTail_isExpr hl r₁).bind ?_
  rintro ⟨all, r₂, h₂⟩ ha
  exact .pure ha
termination_by (ts.length, 4)
decreasing_by all_goals simp only [Prod.lex_def, true_and]; omega

theorem productTail_isExpr {left : Node} (hl : left.IsExpr) (ts : List Token) :
    Yields (fun r => r.1.IsExpr) (productTail left ts) := by
  unfold productTail
  split
  · next t rest =>
    split
    · next op _ =>
      refine (factor_isExpr rest).bind ?_
      rintro ⟨right, r₁, h₁⟩ hr
      refine (productTail_isExpr (.binary hl hr) r₁).bind ?_
      rintro ⟨all, r₂, h₂⟩ ha
      exact .pure ha
    · exact .pure hl
  · exact .pure hl
termination_by (ts.length, 4)
decreasing_by all_goals subst_vars; simp only [Prod.lex_def, List.length_cons]; omega

theorem factor_isExpr (ts : List Token) : Yields (fun r => r.1.IsExpr) (factor ts) := by
  unfold factor
  split
  · next t rest =>
    split
    · refine (factor_isExpr rest).bind ?_
      rintro ⟨operand, r₁, h₁⟩ ho
      exact .pure (.unary ho)
    · exact power_isExpr (t :: rest)
  · exact power_isExpr []
termination_by (ts.length, 3)
decreasing_by all_goals subst_vars; simp only [Prod.lex_def, List.length_cons, true_and]; omega

theorem power_isExpr (ts : List Token) : Yields (fun r => r.1.IsExpr) (power ts) := by
  simp only [power]
  refine (primary_isExpr ts).bind ?_
  rintro ⟨base, r₁, h₁⟩ hb
  dsimp only
  split
  · next _ op r₂ h₁ =>
    have h₂ : r₂.length < ts.length := by simp only [List.length_cons] at h₁; omega
    refine (factor_isExpr r₂).bind ?_
    rintro ⟨exponent, r₃, h₃⟩ he
    exact .pure (.binary hb he)
  · exact .pure hb
termination_by (ts.length, 2)
decreasing_by all_goals subst_vars; simp only [Prod.lex_def, true_and]; omega

theorem primary_isExpr (ts : List Token) : Yields (fun r => r.1.IsExpr) (primary ts) := by
  simp only [primary]
  refine (atom_isExpr ts).bind ?_
  rintro ⟨head, r₁, h₁⟩ hh
  refine (primaryTail_isExpr head hh r₁).bind ?_
  rintro ⟨all, r₂, h₂⟩ ha
  exact .pure ha
termination_by (ts.length, 1)
decreasing_by all_goals simp only [Prod.lex_def, true_and]; omega

theorem primaryTail_isExpr (head : Node) (hh : head.IsExpr) (ts : List Token) :
    Yields (fun r => r.1.IsExpr) (primaryTail head ts) := by
  unfold primaryTail
  split
  · next paren rest =>
    refine (commaList_isExpr _ rest).bind ?_
    rintro ⟨args, r₁, h₁⟩ ha
    refine Yields.any.bind ?_
    rintro ⟨stop, r₂, h₂⟩ _
    refine (primaryTail_isExpr (.call (head.span.merge stop) head args) (.call hh ha) r₂).bind ?_
    rintro ⟨all, r₃, h₃⟩ hall
    exact .pure hall
  · next bracket rest =>
    refine (expr_isExpr rest).bind ?_
    rintro ⟨index, r₁, h₁⟩ hi
    refine Yields.any.bind ?_
    rintro ⟨stop, r₂, h₂⟩ _
    refine (primaryTail_isExpr (.subscript (head.span.merge stop) head index) (.subscript hh hi) r₂).bind ?_
    rintro ⟨all, r₃, h₃⟩ hall
    exact .pure hall
  · exact .pure hh
termination_by (ts.length, 1)
decreasing_by all_goals subst_vars; simp only [Prod.lex_def, List.length_cons]; omega

theorem commaList_isExpr (close : Token.Kind) (ts : List Token) :
    Yields (fun r => ∀ n ∈ r.1, n.IsExpr) (commaList close ts) := by
  unfold commaList
  split
  · exact .ok nofun
  · refine (expr_isExpr ts).bind ?_
    rintro ⟨item, r₁, h₁⟩ hi
    dsimp only
    split
    · next _ comma r₂ h₁ =>
      have h₂ : r₂.length < ts.length := by simp only [List.length_cons] at h₁; omega
      refine (commaList_isExpr close r₂).bind ?_
      rintro ⟨items, r₃, h₃⟩ hall
      refine .pure fun n hn => ?_
      rcases List.mem_cons.mp hn with rfl | hn
      · exact hi
      · exact hall n hn
    · refine .pure fun n hn => ?_
      obtain rfl := List.mem_singleton.mp hn
      exact hi
termination_by (ts.length, 12)
decreasing_by all_goals subst_vars; simp only [Prod.lex_def, true_and]; omega

theorem atom_isExpr (ts : List Token) : Yields (fun r => r.1.IsExpr) (atom ts) := by
  unfold atom
  split
  · exact .ok .identifier
  · next paren rest =>
    refine (expr_isExpr rest).bind ?_
    rintro ⟨inner, r₁, h₁⟩ hi
    refine Yields.any.bind ?_
    rintro ⟨_, r₂, h₂⟩ _
    exact .pure hi
  · next start rest =>
    refine (commaList_isExpr _ rest).bind ?_
    rintro ⟨items, r₁, h₁⟩ hi
    refine Yields.any.bind ?_
    rintro ⟨stop, r₂, h₂⟩ _
    exact .pure (.list hi)
  · split
    · exact .ok .literal
    · exact .error
  · exact .error
termination_by (ts.length, 0)
decreasing_by all_goals subst_vars; simp only [Prod.lex_def, List.length_cons]; omega

end

end CseMachine.Parse
