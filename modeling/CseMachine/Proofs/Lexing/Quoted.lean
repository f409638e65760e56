import CseMachine.Proofs.Surface.Pieces
import CseMachine.Token.Layout

/-!
# Texts as string literals

Whatever a text holds, it is written as one string literal, which is read as a single
token. The reader knows the escapes for all characters but most of the ASCII control
characters, and of those it leaves the escape as it stands; so it gives back the text
just if the text has none of them.
-/
namespace CseMachine

namespace Text

variable {c q : Char} {cs : List Char}

/-- What is read for a character that was written. -/
def reread (c : Char) : List Char := if Surface.isPlain c then [c] else '\\' :: 'x' :: hex2 c.toNat

theorem unescape_other (h : c ≠ '\\') : unescape (c :: cs) = c :: unescape cs := by
  rw [unescape]
  · exact fun hc => absurd hc h
  · exact fun _ _ hc => absurd hc h

theorem unescape_reread (hq : q = '"' ∨ q = '\'') (c : Char) :
    unescape (escapeChar q c ++ cs) = reread c ++ unescape cs := by
  cases hc : Surface.isPlain c with
  | true => rw [Lexeme.unescape_escapeChar hq hc, reread, if_pos hc, List.singleton_append]
  | false =>
    have hdigits : ∀ d ∈ hex2 c.toNat, d ≠ '\\' := fun d hd => (Lexeme.hexDigit_ne _ d hd).1
    simp only [hex2, List.forall_mem_cons] at hdigits
    obtain ⟨hhigh, hlow, -⟩ := hdigits
    rw [Lexeme.escapeChar_control hq hc, reread, hc]
    simp only [hex2, List.cons_append, List.nil_append]
    rw [unescape, unescape_other hhigh, unescape_other hlow]
    rfl

/-- The inside of a literal is read character by character of the text. -/
theorem unescape_flatMap (hq : q = '"' ∨ q = '\'') (cs : List Char) :
    unescape (cs.flatMap (escapeChar q)) = cs.flatMap reread := by
  induction cs with
  | nil => rfl
  | cons c cs ih => rw [List.flatMap_cons, unescape_reread hq, ih, List.flatMap_cons]

/-- A character that is left escaped is not read back: its escape starts with a backslash, which is none of them. -/
theorem flatMap_reread_eq_iff : cs.flatMap reread = cs ↔ ∀ c ∈ cs, Surface.isPlain c = true := by
  induction cs with
  | nil => exact iff_of_true rfl (List.forall_mem_nil _)
  | cons c cs ih =>
    rw [List.flatMap_cons, List.forall_mem_cons, ← ih, reread]
    cases hc : Surface.isPlain c with
    | true =>
      rw [if_pos rfl, List.singleton_append, List.cons_inj_right]
      exact (and_iff_right rfl).symm
    | false =>
      refine iff_of_false ?_ fun h => Bool.false_ne_true h.1
      intro h
      obtain ⟨rfl, -⟩ := List.cons.inj h
      cases hc

end Text

namespace Token

/-- A text with the quotes around it is one lexeme. -/
theorem scan_quote (s : String) : Lexeme.scan 0 (Text.quote s).toList =
    [⟨.string, (Text.quote s).toList, ⟨0, Text.bytes (Text.quote s).toList⟩⟩] := by
  have hq := Surface.quoteFor_cases s.toList
  have hlongest : Lexeme.longest ((Text.quote s).toList ++ []) = (.string, (Text.quote s).toList.length) := by
    rw [List.append_nil, Surface.quote_toList, Lexeme.longest_quoted hq (Lexeme.stringBody_escaped hq s.toList)]
    simp only [List.length_cons, List.length_append, List.length_nil]
  have hne : (Text.quote s).toList ≠ [] := by
    rw [Surface.quote_toList]
    exact List.cons_ne_nil _ _
  have hwhole := Lexeme.scan_append 0 hne hlongest
  rw [List.append_nil, Nat.zero_add, Lexeme.scan] at hwhole
  exact hwhole

/-- The text of a literal is a source of one string token, and its text is that of the literal just if there is no ASCII
control character in it but newlines, tabs and carriage returns. -/
theorem lex_quote (s : String) : ∃ (text : String) (stop : ℕ), stop = Text.bytes (Text.quote s).toList ∧
    lex (Text.quote s) = .ok [⟨.str text, ⟨0, stop⟩⟩, ⟨.newline, .point stop⟩, ⟨.eof, .point stop⟩] ∧
    (text = s ↔ ∀ c ∈ s.toList, c.toNat < 32 ∨ c.toNat = 127 → c = '\n' ∨ c = '\t' ∨ c = '\r') := by
  have hplain : (∀ c ∈ s.toList, c.toNat < 32 ∨ c.toNat = 127 → c = '\n' ∨ c = '\t' ∨ c = '\r') ↔
      ∀ c ∈ s.toList, Surface.isPlain c = true := by
    refine forall₂_congr fun c _ => ?_
    have hprinted : 32 ≤ c.toNat ∧ c.toNat ≠ 127 ↔ ¬(c.toNat < 32 ∨ c.toNat = 127) := by omega
    simp only [Surface.isPlain, Bool.or_eq_true, Bool.and_eq_true, decide_eq_true_eq, hprinted]
    tauto
  have hinside : Text.unescape (((Text.quote s).toList.drop 1).dropLast) = s.toList.flatMap Text.reread := by
    rw [Surface.quote_toList, List.drop_succ_cons, List.drop_zero, List.dropLast_concat,
      Text.unescape_flatMap (Surface.quoteFor_cases _)]
  refine ⟨String.ofList (s.toList.flatMap Text.reread), _, rfl, ?_, ?_⟩
  · rw [lex, scan_quote, ← hinside]
    rfl
  · rw [hplain, ← Text.flatMap_reread_eq_iff, ← String.ofList_inj, String.ofList_toList]

end Token
end CseMachine
