import CseMachine.Text.Bytes

/-!
Lines and columns of byte offsets. A line starts at offset zero and after each
newline; both lines and columns count from one, and a column counts characters.
-/
namespace CseMachine

/-- A text with the byte offsets at which its lines start, in ascending order. -/
structure Lines where
  chars : List Char
  starts : List Nat

namespace Lines

/-- Offsets right behind the newlines of a text that starts at `offset`. -/
def startsAfter (offset : Nat) : List Char → List Nat
  | [] => []
  | c :: rest =>
    let next := offset + c.utf8Size
    if c = '\n' then next :: startsAfter next rest else startsAfter next rest

def ofSource (source : String) : Lines :=
  ⟨source.toList, 0 :: startsAfter 0 source.toList⟩

def count (t : Lines) : Nat := t.starts.length

/-- The line that holds an offset. -/
def lineOf (t : Lines) (offset : Nat) : Nat := max 1 (t.starts.countP (· ≤ offset))

/-- Where a line starts; there is no line zero. -/
def startOf? (t : Lines) (line : Nat) : Option Nat :=
  if line = 0 then none else t.starts[line - 1]?

/-- Line and column of an offset; one inside a character is put in column one. -/
def locate (t : Lines) (offset : Nat) : Nat × Nat :=
  let line := t.lineOf offset
  let start := (t.startOf? line).getD 0
  let stop := min offset (Text.bytes t.chars)
  (line, ((Text.slice? t.chars start stop).getD []).length + 1)

/-- A carriage return at the end is not part of a line. -/
def dropReturn (cs : List Char) : List Char :=
  if cs.getLast? = some '\r' then cs.dropLast else cs

/-- The characters of a line without its end. -/
def lineText (t : Lines) (line : Nat) : List Char :=
  match t.startOf? line with
  | none => []
  | some start => dropReturn (((Text.dropBytes? start t.chars).getD []).takeWhile (· ≠ '\n'))

end Lines
end CseMachine
