import CseMachine.Text.Unshown

/-!
Texts in double quotes with every character made visible, as tree outlines
show them.
-/
namespace CseMachine.Text

/-- Lower-case hexadecimal digits. -/
def hex (n : Nat) : List Char := Nat.toDigits 16 n

def visibleChar (c : Char) : List Char :=
  if c = '\x00' then ['\\', '0']
  else if c = '\t' then ['\\', 't']
  else if c = '\r' then ['\\', 'r']
  else if c = '\n' then ['\\', 'n']
  else if c = '\\' then ['\\', '\\']
  else if c = '"' then ['\\', '"']
  else if isUnshown c then '\\' :: 'u' :: '\x7b' :: hex c.toNat ++ ['\x7d']
  else [c]

def visible (text : String) : String :=
  String.ofList ('"' :: text.toList.flatMap visibleChar ++ ['"'])

end CseMachine.Text
