/-!
Byte offsets into texts. Texts are lists of characters and offsets count the
bytes of their UTF-8 form; an offset inside a character cuts nothing.
-/
namespace CseMachine.Text

/-- Number of bytes of a text. -/
def bytes (cs : List Char) : Nat := cs.foldl (fun n c => n + c.utf8Size) 0

/-- The text from byte `n` on, unless `n` is behind the end or inside a character. -/
def dropBytes? : Nat → List Char → Option (List Char)
  | 0, cs => some cs
  | _ + 1, [] => none
  | n + 1, c :: cs => if c.utf8Size ≤ n + 1 then dropBytes? (n + 1 - c.utf8Size) cs else none

/-- The first `n` bytes, unless the text is shorter or byte `n` is inside a character. -/
def takeBytes? : Nat → List Char → Option (List Char)
  | 0, _ => some []
  | _ + 1, [] => none
  | n + 1, c :: cs =>
    if c.utf8Size ≤ n + 1 then (takeBytes? (n + 1 - c.utf8Size) cs).map (c :: ·) else none

/-- The characters of a byte range whose ends are character boundaries. -/
def slice? (cs : List Char) (start stop : Nat) : Option (List Char) :=
  if start ≤ stop then (dropBytes? start cs).bind (takeBytes? (stop - start)) else none

theorem foldl_bytes (n : Nat) (cs : List Char) :
    cs.foldl (fun n c => n + c.utf8Size) n = n + bytes cs := by
  induction cs generalizing n with
  | nil => simp [bytes]
  | cons c cs ih => simp only [bytes, List.foldl_cons]; rw [ih, ih]; omega

@[simp] theorem bytes_nil : bytes [] = 0 := rfl

@[simp] theorem bytes_cons (c : Char) (cs : List Char) : bytes (c :: cs) = c.utf8Size + bytes cs := by
  have h := foldl_bytes (0 + c.utf8Size) cs
  simpa [bytes] using h

@[simp] theorem bytes_append (a b : List Char) : bytes (a ++ b) = bytes a + bytes b := by
  induction a with
  | nil => simp
  | cons c a ih => simp [ih]; omega

end CseMachine.Text
