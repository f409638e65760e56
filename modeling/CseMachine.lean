import CseMachine.CommandLine.Directory
import CseMachine.Main
import CseMachine.NameTable
import CseMachine.Proofs.Application
import CseMachine.Proofs.BlankLines
import CseMachine.Proofs.Builtins
import CseMachine.Proofs.Chaining
import CseMachine.Proofs.Constants
import CseMachine.Proofs.Dependence
import CseMachine.Proofs.Equivalence
import CseMachine.Proofs.Extremes
import CseMachine.Proofs.Grammar
import CseMachine.Proofs.Interning
import CseMachine.Proofs.Layout
import CseMachine.Proofs.Lexing.Floats
import CseMachine.Proofs.Lexing.Quoted
import CseMachine.Proofs.LifeCycle
import CseMachine.Proofs.Lines
import CseMachine.Proofs.Memory.Freeing
import CseMachine.Proofs.Memory.Refusals
import CseMachine.Proofs.Mirror
import CseMachine.Proofs.Nesting
import CseMachine.Proofs.Number.Comparison
import CseMachine.Proofs.Number.Division
import CseMachine.Proofs.Number.Rounding
import CseMachine.Proofs.Number.Scaling
import CseMachine.Proofs.Numerals.Floats
import CseMachine.Proofs.Numerals.Integers
import CseMachine.Proofs.Ownership
import CseMachine.Proofs.Parsing.Progress
import CseMachine.Proofs.Places
import CseMachine.Proofs.Population
import CseMachine.Proofs.Resolution
import CseMachine.Proofs.Restores
import CseMachine.Proofs.Resumption
import CseMachine.Proofs.RoundTrip
import CseMachine.Proofs.Safety
import CseMachine.Proofs.TailCalls
import CseMachine.Proofs.Termination
import CseMachine.Proofs.Value.Equality
import CseMachine.Tree.Preorder
