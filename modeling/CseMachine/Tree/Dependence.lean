import CseMachine.Tree

/-!
Which nodes look at the current environment. Literals and `pass` do not;
names, assignments and function creation do; any other node does exactly if it
makes declarations or one of its parts does. The machine skips the restoring
of an environment that nothing left on Control depends on.
-/
namespace CseMachine

mutual

/-- Evaluating the node reads or writes the current environment. -/
def Node.isEnvDependent : Node → Bool
  | .literal .. | .pass _ => false
  | .identifier .. | .assign .. | .define .. | .lambda .. => true
  | .program _ ds body | .block _ ds body => !ds.isEmpty || anyEnvDependent body
  | .sequence _ body | .list _ body => anyEnvDependent body
  | .expression _ e | .unary _ _ e => e.isEnvDependent
  | .ret _ value => optionEnvDependent value
  | .branch _ test yes no =>
    test.isEnvDependent || yes.isEnvDependent || optionEnvDependent no
  | .conditional _ test yes no =>
    test.isEnvDependent || yes.isEnvDependent || no.isEnvDependent
  | .binary _ _ a b | .subscript _ a b => a.isEnvDependent || b.isEnvDependent
  | .call _ callee args => callee.isEnvDependent || anyEnvDependent args

def anyEnvDependent : List Node → Bool
  | [] => false
  | n :: rest => n.isEnvDependent || anyEnvDependent rest

def optionEnvDependent : Option Node → Bool
  | none => false
  | some n => n.isEnvDependent

end

theorem anyEnvDependent_eq_any (ns : List Node) : anyEnvDependent ns = ns.any Node.isEnvDependent := by
  induction ns with
  | nil => rfl
  | cons n rest ih => simp [anyEnvDependent, ih]

theorem optionEnvDependent_eq_any (n : Option Node) :
    optionEnvDependent n = n.any Node.isEnvDependent := by
  cases n <;> rfl

end CseMachine
