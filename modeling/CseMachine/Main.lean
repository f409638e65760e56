import CseMachine.CommandLine

/-!
The program: files are read and texts are written here, all else is decided
by `Command`.
-/
namespace CseMachine

/-- The text of a file, or the reason why there is none. -/
def readText (path : String) : IO (Except String String) := do
  try
    let bytes ← IO.FS.readBinFile path
    match String.fromUTF8? bytes with
    | some text => return .ok text
    | none => return .error "stream did not contain valid UTF-8"
  catch
    | .noFileOrDirectory _ code _ => return .error s!"No such file or directory (os error {code})"
    | e => return .error (toString e)

/-- More steps than any evaluation takes. -/
def stepBound : Nat := Nat.pow 2 62

def runCommandLine (args : List String) : IO UInt32 := do
  let paths := match Command.parse? args with
    | .ok command => command.paths
    | .error _ => []
  let files ← paths.mapM fun path => return (path, ← readText path)
  let read := fun path => (files.lookup path).getD (.error "not read")
  let terminal ← (← IO.getStderr).isTty
  match Command.perform read terminal stepBound args with
  | some report =>
    IO.print report.out
    IO.eprint report.err
    return report.exit.toUInt32
  | none => return 1

end CseMachine

def main (args : List String) : IO UInt32 := CseMachine.runCommandLine args
