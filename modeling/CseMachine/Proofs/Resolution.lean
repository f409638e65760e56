import CseMachine.Proofs.Scoping.Parser

/-!
# Resolved programs

Every source that is accepted spells statements, and its tree says of them what each
body makes of its names. Declarations are those that the lines of the body ask for, no
matter in which order they come, and a statement is marked just if its name is among
the declarations of the body it stands in.
-/
namespace CseMachine

/-- The tree of a source resolves the statements that its tokens spell. -/
theorem parse_resolves {source : String} {tree : Node} (h : parse source = .ok tree) :
    ∃ tokens p, lex source = .ok tokens ∧ Written.Suite.Whole p tokens ∧ p.ResolvesProgram tree := by
  obtain ⟨tokens, hlex, hprogram⟩ := bind_ok_iff.mp h
  obtain ⟨p, hwhole, hresolves⟩ := Parse.program_reads tokens tree hprogram
  exact ⟨tokens, p, hlex, hwhole, hresolves⟩

theorem parse_resolves_outer : ∃ tree, parse "def f():\n nonlocal c\n c = 1\n" = .ok tree ∧ ∃ tokens p,
    lex "def f():\n nonlocal c\n c = 1\n" = .ok tokens ∧ Written.Suite.Whole p tokens ∧ p.ResolvesProgram tree := by
  have hlex : lex "def f():\n nonlocal c\n c = 1\n" = .ok
      [⟨.keyword .def_, 0, 3⟩, ⟨.ident "f", 4, 5⟩, ⟨.symbol .lparen, 5, 6⟩, ⟨.symbol .rparen, 6, 7⟩, ⟨.symbol .colon, 7, 8⟩,
        ⟨.newline, 8, 9⟩, ⟨.indent, 10, 10⟩, ⟨.keyword .nonlocal, 10, 18⟩, ⟨.ident "c", 19, 20⟩, ⟨.newline, 20, 21⟩,
        ⟨.ident "c", 22, 23⟩, ⟨.symbol .assign, 24, 25⟩, ⟨.int 1, 26, 27⟩, ⟨.newline, 27, 28⟩, ⟨.dedent, 28, 28⟩,
        ⟨.eof, 28, 28⟩] := by decide +kernel
  have hok : (parse "def f():\n nonlocal c\n c = 1\n").isOk = true := by
    rw [parse, hlex]
    cbv
  cases h : parse "def f():\n nonlocal c\n c = 1\n" with
  | error e =>
    rw [h] at hok
    cases hok
  | ok tree => exact ⟨tree, rfl, parse_resolves h⟩

end CseMachine
