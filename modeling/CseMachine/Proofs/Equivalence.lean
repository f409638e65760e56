import Mathlib
import CseMachine.Proofs.Reference.Runs
import CseMachine.Proofs.Scoping.Parser

/-!
# The machine is the evaluator

A program that the parser accepts, loaded into a fresh context with the standard
builtins, comes to the same conclusion on the machine, by recursion on its tree and
on the machine without its savings, or to none at all.
-/
namespace CseMachine

theorem Variant.conclusion?_standard (c : Context) (bound : Nat) :
    standard.conclusion? c bound = c.conclusion? bound := by
  simp only [Variant.conclusion?, Context.conclusion?]
  rw [runWithin_standard]

namespace Setup

variable {source : String} {program : Node} {run : RunId} {bound : Nat} {start : Context}

/-- The tree of `print((lambda x: x)(1))`. -/
def identityCall : Node :=
  .program ⟨0, 23⟩ [] [.expression ⟨0, 23⟩ (.call ⟨0, 23⟩ (.identifier ⟨0, 5⟩ "print")
    [.call ⟨7, 22⟩ (.lambda ⟨7, 18⟩ {
        name := none
        params := [⟨"x", false, ⟨14, 15⟩⟩]
        body := .block ⟨17, 18⟩ [] [.ret ⟨17, 18⟩ (some (.identifier ⟨17, 18⟩ "x"))]
        locals := [] })
      [.literal ⟨20, 21⟩ (.int 1)]])]

theorem parse_identityCall : parse "print((lambda x: x)(1))" = .ok identityCall := by
  have hlex : lex "print((lambda x: x)(1))" = .ok
      [⟨.ident "print", 0, 5⟩, ⟨.symbol .lparen, 5, 6⟩, ⟨.symbol .lparen, 6, 7⟩, ⟨.keyword .lambda, 7, 13⟩,
        ⟨.ident "x", 14, 15⟩, ⟨.symbol .colon, 15, 16⟩, ⟨.ident "x", 17, 18⟩, ⟨.symbol .rparen, 18, 19⟩,
        ⟨.symbol .lparen, 19, 20⟩, ⟨.int 1, 20, 21⟩, ⟨.symbol .rparen, 21, 22⟩, ⟨.symbol .rparen, 22, 23⟩,
        ⟨.newline, 23, 23⟩, ⟨.eof, 23, 23⟩] := by decide +kernel
  rw [parse, hlex]
  cbv

theorem conclusion?_identityCall :
    Reference.conclusion? 1 ⟨0⟩ identityCall = some ⟨.value "None", "1\n"⟩ := rfl

/-- The machine without its savings ends as the machine does, or neither does. -/
theorem concludes_iff_plain (hp : parse source = .ok program) (hn : newContext {} bound run = some (.ok start)) :
    (∀ r, (∃ bound, (start.load program).conclusion? bound = some r) ↔
      ∃ bound, Variant.plain.conclusion? (start.load program) bound = some r) ∧
    ((∀ bound, (start.load program).conclusion? bound = none) ↔
      ∀ bound, Variant.plain.conclusion? (start.load program) bound = none) := by
  rw [newContext_eq] at hn
  cases hn
  have hsame : ∀ r, (∃ bound, ((Context.fresh run).load program).conclusion? bound = some r) ↔
      ∃ bound, Variant.plain.conclusion? ((Context.fresh run).load program) bound = some r := by
    intro r
    have hstandard := Reference.concludes_iff (parse_scoped hp) .standard run r
    have hplain := Reference.concludes_iff (parse_scoped hp) .plain run r
    simp only [Variant.conclusion?_standard] at hstandard
    exact hstandard.trans hplain.symm
  refine ⟨hsame, ?_⟩
  have hnever : ∀ f : Nat → Option Conclusion, (∀ bound, f bound = none) ↔ ∀ r, ¬∃ bound, f bound = some r := by
    intro f
    simp only [Option.eq_none_iff_forall_ne_some, not_exists]
    exact forall_comm
  rw [hnever, hnever]
  exact forall_congr' fun r => not_congr (hsame r)

theorem concludes_iff_plain_identity : parse "print((lambda x: x)(1))" = .ok identityCall ∧
    newContext {} 0 ⟨0⟩ = some (.ok (.fresh ⟨0⟩)) ∧
      ∃ bound, Variant.plain.conclusion? ((Context.fresh ⟨0⟩).load identityCall) bound =
        some ⟨.value "None", "1\n"⟩ := by
  have hp := parse_identityCall
  have hn := newContext_eq none 0 ⟨0⟩
  have hr := conclusion?_identityCall
  have hstandard := (Reference.concludes_iff (parse_scoped hp) .standard ⟨0⟩ _).mpr ⟨1, hr⟩
  simp only [Variant.conclusion?_standard] at hstandard
  exact ⟨hp, hn, ((concludes_iff_plain hp hn).1 _).mp hstandard⟩

end Setup
end CseMachine
