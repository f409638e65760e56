import CseMachine.Proofs.Lexing.Kinds
import CseMachine.Proofs.Surface.Text
import CseMachine.Token.Layout

/-!
# Pieces are lexemes

The text of a piece is the longest piece of the source if it is followed by a
character that it stops at. Which characters those are depends on the piece: a
word stops where no letter follows, a sign may grow into a longer one. The token
that the lexeme stands for is the one that was written.
-/
namespace CseMachine.Surface

namespace Piece

def kind : Piece → Lexeme.Kind
  | .space => .skip
  | .name _ | .keyword _ => .word
  | .number _ => .decimal
  | .str _ => .string
  | .sign s => .symbol s

/-- The piece ends in front of this character. -/
def stopsAt : Piece → Char → Bool
  | .space, c => !Lexeme.isBlank c
  | .name _, c | .keyword _, c => !Lexeme.isWordPart c
  | .number _, c => Lexeme.endsNumber c
  | .str _, _ => true
  | .sign s, c => !(s.canGrow && Lexeme.grows c)

end Piece

theorem isWord_text (k : Keyword) : isWord k.text.toList = true := by cases k <;> decide

theorem quoteFor_cases (cs : List Char) : Text.quoteFor cs = '"' ∨ Text.quoteFor cs = '\'' := by
  simp only [Text.quoteFor]
  split
  · exact .inl rfl
  · exact .inr rfl

theorem quote_toList (s : String) : (Text.quote s).toList =
    Text.quoteFor s.toList :: (s.toList.flatMap (Text.escapeChar (Text.quoteFor s.toList)) ++ [Text.quoteFor s.toList]) := by
  rw [Text.quote, String.toList_ofList, List.cons_append]

/-- The text of a piece is a lexeme of its own. -/
theorem Piece.longest_text (p : Piece) {cs : List Char} (hstop : ∀ c ∈ cs.head?, p.stopsAt c = true) :
    Lexeme.longest (p.text ++ cs) = (p.kind, p.text.length) := by
  cases p with
  | space =>
    refine Lexeme.longest_blanks (n := 1) (by decide) ?_
    intro c hc
    simpa [stopsAt] using hstop c hc
  | name x =>
    refine Lexeme.longest_word x.word ?_
    intro c hc
    simpa [stopsAt] using hstop c hc
  | keyword k =>
    refine Lexeme.longest_word (isWord_text k) ?_
    intro c hc
    simpa [stopsAt] using hstop c hc
  | number n =>
    simp only [text, kind, Nat.toList_repr]
    exact Lexeme.longest_digits Nat.toDigits_ne_nil (fun c hc => Nat.isDigit_of_mem_toDigits (by decide) (by decide) hc) hstop
  | str s =>
    have hq := quoteFor_cases s.text.toList
    have h := Lexeme.longest_quoted hq (@Lexeme.stringBody_escaped cs _ hq s.text.toList)
    simp only [text, kind, quote_toList, List.cons_append, List.append_assoc, List.length_cons, List.length_append,
      List.length_nil]
    exact h
  | sign s =>
    refine Lexeme.longest_symbol s ?_
    intro hgrow c hc
    simpa [stopsAt, hgrow] using hstop c hc

/-- The token that a piece stands for. -/
def Piece.token? : Piece → Option Token.Kind
  | .space => none
  | .name x => some (.ident x.text)
  | .keyword k => some (.keyword k)
  | .number n => some (.int n)
  | .str s => some (.str s.text)
  | .sign s => some (.symbol s)

theorem foldlM_digits {ds : List Char} (hd : ∀ c ∈ ds, c.isDigit = true) (n : Nat) :
    ds.foldlM (fun n c => (Token.digitOf? c).bind fun d => if d < 10 then some (10 * n + d) else none) n =
      some (Nat.ofDigitChars 10 ds n) := by
  induction ds generalizing n with
  | nil => rfl
  | cons c ds ih =>
    have hc := hd c (.head _)
    have hlt : c.toNat - '0'.toNat < 10 := by
      have : '0'.toNat = 48 := rfl
      have := Lexeme.isDigit_iff.mp hc
      omega
    rw [List.foldlM_cons, Nat.ofDigitChars_cons]
    simp only [Token.digitOf?, hc, if_true, Option.bind_some, hlt]
    exact ih (fun d hd' => hd d (.tail _ hd')) _

theorem ofDigits_repr (n : Nat) (span : Span) : Token.ofDigits 10 n.repr.toList span = .ok (.int n) := by
  have hd : ∀ c ∈ Nat.toDigits 10 n, c.isDigit = true :=
    fun c hc => Nat.isDigit_of_mem_toDigits (by decide) (by decide) hc
  have hplain : Token.withoutUnderscores (Nat.toDigits 10 n) = Nat.toDigits 10 n := by
    refine List.filter_eq_self.mpr fun c hc => ?_
    have hne : c ≠ '_' := by
      rintro rfl
      cases hd _ hc
    simp [hne]
  rw [Nat.toList_repr, Token.ofDigits, hplain, Token.ofBase?, foldlM_digits hd, Nat.ofDigitChars_ten_toDigits]
  simp [Nat.toDigits_ne_nil]

theorem Piece.ofLexeme (p : Piece) {t : Token.Kind} (h : p.token? = some t) (span : Span) :
    Token.Kind.ofLexeme ⟨p.kind, p.text, span⟩ = .ok t := by
  cases p with
  | space => cases h
  | name x =>
    cases h
    simp only [Token.Kind.ofLexeme, kind, text, Token.ofWord, String.ofList_toList, x.free]
  | keyword k =>
    cases h
    simp only [Token.Kind.ofLexeme, kind, text, Token.ofWord, String.ofList_toList, Keyword.ofText?_text]
  | number n =>
    cases h
    exact ofDigits_repr n span
  | str s =>
    cases h
    simp only [Token.Kind.ofLexeme, kind, text, quote_toList, List.drop_succ_cons, List.drop_zero, List.dropLast_concat]
    rw [Lexeme.unescape_escaped (quoteFor_cases _) s.plain, String.ofList_toList]
  | sign s =>
    cases h
    rfl

end CseMachine.Surface
