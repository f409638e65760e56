import CseMachine.Proofs.Grammar.Completeness
import CseMachine.Proofs.Grammar.Soundness

/-!
# Expressions are read by their grammar

The reader of expressions takes exactly what the grammar derives. In front of a token
that goes on with no expression it takes a whole phrase, however many readers have to
stop there, so the grammar gives a text one tree.
-/
namespace CseMachine.Parse

open Token (Kind)

/-- A token that stands behind expressions and is in none: the end of a line or of the text, a separator or what
closes brackets. -/
def isStop : Kind → Bool
  | .newline | .eof | .symbol .colon | .symbol .comma | .symbol .assign | .symbol .rparen | .symbol .rbracket => true
  | _ => false

theorem ends_of_isStop {rest : List Token} (h : isStop (next rest).kind = true) : Ends 11 rest := by
  unfold Ends
  unfold isStop at h
  split at h
  case h_8 => cases h
  all_goals simp [*, looseness]

/-- A node that is read is the tree of the tokens that were taken, which the grammar derives; and of what it derives
before a token that stands behind expressions the reader takes all, and finds the tree. -/
theorem expr_follows_grammar (ts : List Token) :
    (∀ r, expr ts = .ok r → ∃ us, us ++ r.2.val = ts ∧ Derives .expr us r.1.bare) ∧
    (∀ us rest tree, us ++ rest = ts → Derives .expr us tree → isStop (next rest).kind = true →
      ∃ n h, expr ts = .ok (n, ⟨rest, h⟩) ∧ n.bare = tree) := by
  refine ⟨expr_reads ts, ?_⟩
  rintro us rest tree rfl htree hstop
  exact Completes.takes htree.completes (ends_of_isStop hstop)

/-- The grammar is unambiguous. -/
theorem Derives.unique {us : List Token} {x y : Node} (hx : Derives .expr us x) (hy : Derives .expr us y) : x = y := by
  have hends : Ends 11 [] := ends_of_isStop rfl
  obtain ⟨n, h, hread, rfl⟩ := Completes.takes hx.completes hends
  obtain ⟨m, h', hread', rfl⟩ := Completes.takes hy.completes hends
  obtain ⟨rfl, -⟩ := Prod.mk.inj (Except.ok.inj (hread.symm.trans hread'))
  rfl

/-- In `-2 ** -2` the first sign is outside the power and the second one inside. -/
theorem expr_follows_grammar_power :
    ∃ n h, expr [⟨.symbol .minus, .none⟩, ⟨.int 2, .none⟩, ⟨.symbol .starStar, .none⟩, ⟨.symbol .minus, .none⟩, ⟨.int 2, .none⟩,
        ⟨.newline, .none⟩] = .ok (n, ⟨[⟨.newline, .none⟩], h⟩) ∧
      n.bare = .unary .none .neg
        (.binary .none (.arith .pow) (.literal .none (.int 2)) (.unary .none .neg (.literal .none (.int 2)))) := by
  have htwo : Derives .primary [⟨.int 2, .none⟩] (.literal .none (.int 2)) := .primaryAtom (.literal rfl)
  have hminus : Derives .factor [⟨.symbol .minus, .none⟩, ⟨.int 2, .none⟩] (.unary .none .neg (.literal .none (.int 2))) :=
    .sign rfl (.factorPower (.powerPrimary htwo))
  have hpower : Derives .power [⟨.int 2, .none⟩, ⟨.symbol .starStar, .none⟩, ⟨.symbol .minus, .none⟩, ⟨.int 2, .none⟩]
      (.binary .none (.arith .pow) (.literal .none (.int 2)) (.unary .none .neg (.literal .none (.int 2)))) := .power htwo hminus
  have hsigned : Derives .factor [⟨.symbol .minus, .none⟩, ⟨.int 2, .none⟩, ⟨.symbol .starStar, .none⟩, ⟨.symbol .minus, .none⟩,
      ⟨.int 2, .none⟩] _ := .sign rfl (.factorPower hpower)
  have htree := Derives.exprTernary <| .ternaryDisjunction <| .disjunctionConjunction <| .conjunctionNegation <|
    .negationComparison <| .comparisonSum <| .sumProduct <| .productFactor hsigned
  exact (expr_follows_grammar _).2 _ [⟨.newline, .none⟩] _ rfl htree rfl

end CseMachine.Parse
