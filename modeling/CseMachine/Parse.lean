import CseMachine.Parse.Statement
import CseMachine.Token.Layout

/-!
From source text to program tree, up to the first error.
-/
namespace CseMachine

def parse (source : String) : Except ParseError Node := lex source >>= Parse.program

end CseMachine
