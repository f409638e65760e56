import Std.Data.HashMap

/-!
Numbering of names. Each distinct text gets the next free number when it is
first seen and keeps it. The empty text and the reserved words come first.
-/
namespace CseMachine

/-- Names in the order of their numbers, with the inverse map beside them. -/
structure NameTable where
  texts : Array String
  numbers : Std.HashMap String Nat

namespace NameTable

/-- The number of `text`, and the table in which it has one. -/
def intern (t : NameTable) (text : String) : Nat × NameTable :=
  match t.numbers[text]? with
  | some n => (n, t)
  | none => (t.texts.size, ⟨t.texts.push text, t.numbers.insert text t.texts.size⟩)

/-- The text of a number; numbers never handed out have the empty text. -/
def lookup (t : NameTable) (n : Nat) : String := (t.texts[n]?).getD ""

def size (t : NameTable) : Nat := t.texts.size

/-- Nothing but the empty text has been numbered. -/
def isEmpty (t : NameTable) : Bool := t.size ≤ 1

/-- Words every table knows from the start. -/
def reserved : List String :=
  ["def", "return", "if", "elif", "else", "pass", "lambda", "and", "or", "not", "True",
   "False", "None", "nonlocal", "print"]

/-- The table every program starts from. -/
def new : NameTable :=
  reserved.foldl (fun t word => (t.intern word).2) ⟨#[""], Std.HashMap.ofList [("", 0)]⟩

end NameTable
end CseMachine
