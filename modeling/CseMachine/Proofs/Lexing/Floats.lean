import CseMachine.Proofs.Decimal.Numerals
import CseMachine.Proofs.Lexing.LineEnds
import CseMachine.Token.Layout

/-!
# Written doubles as sources

Of the patterns for numbers the one with a point or an exponent takes all of a numeral
that has either; the others stop in front of the first of these marks. So the text of a
finite double is one token with the double as its value, behind a sign if it is negative.
-/
namespace CseMachine

namespace Lexeme

open Decimal (Numeral)

variable {c : Char} {cs ex : List Char}

theorem isDigitPart_of_endsNumber (h : endsNumber c = true) : isDigitPart c = false := by
  simp only [endsNumber, isWordPart, Char.isAlphanum, isDigitPart] at h ⊢
  simp_all

theorem isDigit_of_endsNumber (h : endsNumber c = true) : c.isDigit = false :=
  (Bool.or_eq_false_iff.mp (isDigitPart_of_endsNumber h)).1

theorem isDigitPart_of_isDigit (h : c.isDigit = true) : isDigitPart c = true := by rw [isDigitPart, h, Bool.true_or]

/-- An exponent is taken as a whole. -/
theorem exponent_scaled (h : Text.Exponent ex) (hstop : ∀ c ∈ cs.head?, endsNumber c = true) :
    exponent (ex ++ cs) = ex.length := by
  cases h with
  | none => exact exponent_eq_zero hstop
  | @power mark digits hmark sign hd =>
    have hrun : runLength Char.isDigit (digits ++ cs) = digits.length :=
      runLength_append hd.all fun c hc => isDigit_of_endsNumber (hstop c hc)
    have hpos : 0 < digits.length := List.length_pos_of_ne_nil hd.nonempty
    have hsign : signLength (sign.text ++ (digits ++ cs)) = sign.text.length := by
      cases sign with
      | plus => rfl
      | minus => rfl
      | absent =>
        obtain ⟨d, ds, rfl⟩ := List.exists_cons_of_ne_nil hd.nonempty
        have hdigit := hd.all d (.head _)
        show signLength (d :: (ds ++ cs)) = 0
        unfold signLength
        split
        · next h => cases (List.cons.inj h).1 ▸ hdigit
        · next h => cases (List.cons.inj h).1 ▸ hdigit
        · rfl
    rw [List.cons_append, List.append_assoc, exponent_cons, hsign, List.drop_left, hrun, if_pos ⟨hmark, hpos⟩, List.length_cons,
      List.length_append]
    omega

section

variable (l : Numeral) (hstop : ∀ c ∈ cs.head?, endsNumber c = true)

/-- Behind its first digits a numeral goes on with a mark. -/
theorem head?_tail : ∀ c ∈ (l.point ++ l.exponent).head?, c = '.' ∨ c = 'e' ∨ c = 'E' := by
  intro c hc
  have hscaled := l.scaled
  rw [Numeral.point] at hc
  split at hc
  · cases hex : l.exponent with
    | nil =>
      rw [hex] at hc
      cases hc
    | cons mark rest =>
      rw [hex] at hc hscaled
      obtain rfl := Option.some.inj hc
      cases hscaled with
      | power hmark => exact .inr hmark
  · exact .inl (Option.some.inj hc).symm

theorem tail_ne_nil : l.point ++ l.exponent ≠ [] := by
  rw [Numeral.point]
  rcases l.marked with h | h
  · split
    · next hnone => exact absurd hnone h
    · exact List.cons_ne_nil _ _
  · exact List.append_ne_nil_of_right_ne_nil _ h

theorem isDigitPart_tail : ∀ c ∈ (l.point ++ l.exponent ++ cs).head?, isDigitPart c = false := by
  intro c hc
  rw [List.head?_append_of_ne_nil _ (tail_ne_nil l)] at hc
  rcases head?_tail l c hc with rfl | rfl | rfl <;> rfl

theorem decimal_numeral : decimal (l.text ++ cs) = l.whole.length := by
  have hd := l.digits
  rw [Numeral.text, List.append_assoc]
  obtain ⟨c, w, hw⟩ := List.exists_cons_of_ne_nil hd.nonempty
  have hall := hd.all
  rw [hw] at hall ⊢
  have hc := hall c (.head _)
  have hrun : runLength isDigitPart (w ++ (l.point ++ l.exponent ++ cs)) = w.length :=
    runLength_append (fun d hd => isDigitPart_of_isDigit (hall d (.tail _ hd))) (isDigitPart_tail l)
  rw [List.cons_append, decimal, if_pos hc, hrun, List.length_cons, Nat.add_comm]

include hstop in
theorem float_numeral : float (l.text ++ cs) = l.text.length := by
  have hbehind := l.behind
  have hwhole : 0 < l.whole.length := List.length_pos_of_ne_nil l.digits.nonempty
  have hdrop : (l.text ++ cs).drop l.whole.length = l.point ++ (l.exponent ++ cs) := by
    rw [Numeral.text, List.append_assoc, List.drop_left, List.append_assoc]
  have hexponent := exponent_scaled l.scaled hstop
  rw [float, decimal_numeral, hdrop]
  cases hl : l.fraction with
  | some digits =>
    rw [hl, Option.getD_some] at hbehind
    have hstop' : ∀ c ∈ (l.exponent ++ cs).head?, isDigitPart c = false := by
      intro c hc
      cases hex : l.exponent with
      | nil =>
        rw [hex] at hc
        exact isDigitPart_of_endsNumber (hstop c hc)
      | cons mark rest =>
        have hscaled := l.scaled
        rw [hex] at hc hscaled
        obtain rfl := Option.some.inj hc
        cases hscaled with
        | power hmark => rcases hmark with rfl | rfl <;> rfl
    have hpoint : l.point = '.' :: digits := by rw [Numeral.point, hl]
    have hrun : runLength isDigitPart (digits ++ (l.exponent ++ cs)) = digits.length :=
      runLength_append (fun d hd => isDigitPart_of_isDigit (hbehind d hd)) hstop'
    have hne : ¬(l.whole.length = 0) := by omega
    rw [hpoint, List.cons_append]
    simp only [hne, hrun, false_and, if_false, List.drop_left, hexponent, Numeral.text, hpoint, List.length_append,
      List.length_cons]
    omega
  | none =>
    have hpoint : l.point = [] := by rw [Numeral.point, hl]
    have hne : l.exponent ≠ [] := l.marked.resolve_left fun h => h hl
    have hpos : 0 < l.exponent.length := List.length_pos_of_ne_nil hne
    rw [hpoint, List.nil_append]
    split
    · next rest heq =>
      have hhead := head?_tail l
      rw [hpoint, List.nil_append] at hhead
      have hscaled := l.scaled
      obtain ⟨mark, rest', hex⟩ := List.exists_cons_of_ne_nil hne
      rw [hex] at heq hscaled
      obtain ⟨rfl, -⟩ := List.cons.inj heq
      cases hscaled with
      | power hmark => rcases hmark with h | h <;> cases h
    · simp only [hexponent, hwhole, hpos, and_self, if_true, Numeral.text, hpoint, List.length_append, List.nil_append]

include hstop in
theorem imag_numeral : imag (l.text ++ cs) = 0 := by
  have hmax : max l.text.length l.whole.length = l.text.length := by
    rw [Numeral.text, List.length_append]
    omega
  rw [imag, float_numeral l hstop, decimal_numeral, hmax, List.drop_left]
  split
  · next c rest =>
    have hc := hstop c rfl
    have hj : ¬(c = 'j' ∨ c = 'J') := by rintro (rfl | rfl) <;> cases hc
    rw [if_neg fun h => hj h.2]
  · rfl

theorem marked_numeral {low high : Char} {p : Char → Bool}
    (hlow : low.isDigit = false ∧ low ≠ '.' ∧ low ≠ 'e' ∧ low ≠ 'E')
    (hhigh : high.isDigit = false ∧ high ≠ '.' ∧ high ≠ 'e' ∧ high ≠ 'E') :
    marked low high p (l.text ++ cs) = 0 := by
  obtain ⟨c, w, hw⟩ := List.exists_cons_of_ne_nil l.digits.nonempty
  have hall := l.digits.all
  have hsecond : ∀ d ∈ (w ++ (l.point ++ l.exponent ++ cs)).head?, d.isDigit = true ∨ d = '.' ∨ d = 'e' ∨ d = 'E' := by
    intro d hd
    cases w with
    | nil =>
      rw [List.nil_append, List.head?_append_of_ne_nil _ (tail_ne_nil l)] at hd
      exact .inr (head?_tail l d hd)
    | cons f w =>
      obtain rfl := Option.some.inj hd
      rw [hw] at hall
      exact .inl (hall _ (.tail _ (.head _)))
  have hother : ∀ {mark : Char}, mark.isDigit = false ∧ mark ≠ '.' ∧ mark ≠ 'e' ∧ mark ≠ 'E' →
      ∀ d ∈ (w ++ (l.point ++ l.exponent ++ cs)).head?, d ≠ mark := by
    rintro mark ⟨hdigit, hpoint, he, hE⟩ d hd rfl
    rcases hsecond d hd with h | h | h | h
    · rw [hdigit] at h
      cases h
    · exact hpoint h
    · exact he h
    · exact hE h
  rw [Numeral.text, List.append_assoc, hw, List.cons_append]
  unfold marked
  split
  · next d rest heq =>
    obtain ⟨-, heq⟩ := List.cons.inj heq
    have hd : d ∈ (w ++ (l.point ++ l.exponent ++ cs)).head? := by rw [heq]; rfl
    have hnone : ¬(d = low ∨ d = high) := fun h => h.elim (hother hlow d hd) (hother hhigh d hd)
    dsimp only
    rw [if_neg fun h => hnone h.1]
  · rfl

include hstop in
/-- A numeral with a point or an exponent is one piece. -/
theorem longest_numeral : longest (l.text ++ cs) = (.float, l.text.length) := by
  obtain ⟨c, w, hw⟩ := List.exists_cons_of_ne_nil l.digits.nonempty
  have hc : c.isDigit = true := l.digits.all c (by rw [hw]; exact .head _)
  have htext : l.text = c :: (w ++ (l.point ++ l.exponent)) := by rw [Numeral.text, hw, List.cons_append]
  have hpos : 0 < l.text.length := by
    rw [htext]
    exact Nat.succ_pos _
  have hfloat := float_numeral l hstop
  have hshorter : decimal (l.text ++ cs) < l.text.length := by
    have htail := List.length_pos_of_ne_nil (tail_ne_nil l)
    rw [decimal_numeral, Numeral.text, List.length_append]
    omega
  have hhex : hex (l.text ++ cs) = 0 := marked_numeral l (by decide) (by decide)
  have hoctal : octal (l.text ++ cs) = 0 := marked_numeral l (by decide) (by decide)
  have hbinary : binary (l.text ++ cs) = 0 := marked_numeral l (by decide) (by decide)
  have himag := imag_numeral l hstop
  obtain ⟨n, hn⟩ : ∃ n, l.text.length = n := ⟨_, rfl⟩
  rw [hn] at hpos hfloat hshorter ⊢
  rw [htext, List.cons_append] at hfloat hshorter hhex hoctal hbinary himag ⊢
  refine longest_eq_of_starts (by simp [rules]) (by decide) hfloat hpos ?_
  intro r hr hk hs
  rcases number_of_starts hc hs with h | h | h | h | h | h
  · rw [rule_of_kind hr (show (Kind.decimal, decimal) ∈ rules by simp [rules]) h (by rw [h]; decide)]
    exact hshorter
  · rw [rule_of_kind hr (show (Kind.hex, hex) ∈ rules by simp [rules]) h (by rw [h]; decide)]
    exact hhex.trans_lt hpos
  · rw [rule_of_kind hr (show (Kind.octal, octal) ∈ rules by simp [rules]) h (by rw [h]; decide)]
    exact hoctal.trans_lt hpos
  · rw [rule_of_kind hr (show (Kind.binary, binary) ∈ rules by simp [rules]) h (by rw [h]; decide)]
    exact hbinary.trans_lt hpos
  · exact absurd h hk
  · rw [rule_of_kind hr (show (Kind.imag, imag) ∈ rules by simp [rules]) h (by rw [h]; decide)]
    exact himag.trans_lt hpos

end

theorem scan_numeral (l : Numeral) (offset : ℕ) :
    scan offset l.text = [⟨.float, l.text, ⟨offset, offset + Text.bytes l.text⟩⟩] := by
  have hne : l.text ≠ [] := List.append_ne_nil_of_left_ne_nil l.digits.nonempty _
  have hlongest : longest (l.text ++ []) = _ := longest_numeral l nofun
  have hwhole := scan_append offset hne hlongest
  rw [List.append_nil, scan] at hwhole
  exact hwhole

end Lexeme

namespace Decimal.Numeral

/-- No underscore is written. -/
theorem withoutUnderscores_text (l : Numeral) : Token.withoutUnderscores l.text = l.text := by
  have hchars : ∀ c ∈ l.text, c.isDigit = true ∨ Text.isMark c = true := by
    intro c hc
    have hbehind := l.behind
    rw [text, point] at hc
    rcases List.mem_append.mp hc with hc | hc
    · exact .inl (l.digits.all c hc)
    rcases List.mem_append.mp hc with hc | hc
    · split at hc
      · cases hc
      · next digits hl =>
        rw [hl] at hbehind
        rcases List.mem_cons.mp hc with rfl | hc
        · exact .inr rfl
        · exact .inl (hbehind c hc)
    · exact l.scaled.chars c hc
  refine List.filter_eq_self.mpr fun c hc => decide_eq_true ?_
  rintro rfl
  rcases hchars '_' hc with h | h <;> cases h

end Decimal.Numeral

namespace Token

open Binary64
open Decimal (Numeral)

variable {x : Float} {m : ℕ} {e : ℤ}

theorem ofLexeme_numeral (l : Numeral) (span : Span) (h : (Decimal.read? l.text).map (Decimal.toFloat false) = some x) :
    Kind.ofLexeme ⟨.float, l.text, span⟩ = .ok (.float x) := by
  obtain ⟨d, hd, rfl⟩ := Option.map_eq_some_iff.mp h
  show (doubleOf l.text span).map Kind.float = _
  rw [doubleOf, l.withoutUnderscores_text, hd]
  rfl

/-- The text of a magnitude is one token. -/
theorem lex_magnitude (h : parts x = .finite false m e) {stop : ℕ} (hstop : Text.bytes (Decimal.magnitude m e).toList = stop) :
    lex (Decimal.magnitude m e) = .ok [⟨.float x, ⟨0, stop⟩⟩, ⟨.newline, .point stop⟩, ⟨.eof, .point stop⟩] := by
  obtain ⟨l, htext, hread⟩ := Decimal.exists_numeral h
  rw [htext] at hstop
  have hstep : Layout.step {} ⟨.float, l.text, ⟨0, stop⟩⟩ =
      .ok { fresh := false, column := l.text.length, tokens := [⟨.float x, ⟨0, stop⟩⟩] } := by
    show (Kind.ofLexeme ⟨.float, l.text, ⟨0, stop⟩⟩ >>= fun kind => Except.ok _) = _
    rw [ofLexeme_numeral l _ hread]
    show Except.ok _ = Except.ok _
    rw [Nat.zero_add]
    rfl
  rw [lex, htext, Lexeme.scan_numeral, Nat.zero_add, hstop, List.foldlM_cons, hstep]
  rfl

/-- Behind a minus sign it is another one. -/
theorem lex_minus_magnitude (h : parts x = .finite false m e) {stop : ℕ}
    (hstop : Text.bytes ("-" ++ Decimal.magnitude m e).toList = stop) : lex ("-" ++ Decimal.magnitude m e) =
      .ok [⟨.symbol .minus, ⟨0, 1⟩⟩, ⟨.float x, ⟨1, stop⟩⟩, ⟨.newline, .point stop⟩, ⟨.eof, .point stop⟩] := by
  obtain ⟨l, htext, hread⟩ := Decimal.exists_numeral h
  have hsource : ("-" ++ Decimal.magnitude m e).toList = Symbol.minus.text.toList ++ l.text := by
    rw [String.toList_append, htext]
    rfl
  have hbytes : Text.bytes (Symbol.minus.text.toList ++ l.text) = 1 + Text.bytes l.text := by
    rw [Text.bytes_append]
    rfl
  have hminus : Lexeme.longest (Symbol.minus.text.toList ++ l.text) = _ := Lexeme.longest_symbol .minus nofun
  have hscan : Lexeme.scan 0 (Symbol.minus.text.toList ++ l.text) =
      [⟨.symbol .minus, Symbol.minus.text.toList, ⟨0, 1⟩⟩, ⟨.float, l.text, ⟨1, 1 + Text.bytes l.text⟩⟩] := by
    rw [Lexeme.scan_append 0 (by decide) hminus]
    exact congrArg (_ :: ·) (Lexeme.scan_numeral l 1)
  rw [hsource, hbytes] at hstop
  have hstep : Layout.step { fresh := false, column := 1, tokens := [⟨.symbol .minus, ⟨0, 1⟩⟩] }
      ⟨.float, l.text, ⟨1, stop⟩⟩ = .ok
        { fresh := false, column := 1 + l.text.length, tokens := [⟨.float x, ⟨1, stop⟩⟩, ⟨.symbol .minus, ⟨0, 1⟩⟩] } := by
    show (Kind.ofLexeme ⟨.float, l.text, ⟨1, stop⟩⟩ >>= fun kind => Except.ok _) = _
    rw [ofLexeme_numeral l _ hread]
    rfl
  have hfirst : Layout.step {} ⟨.symbol .minus, Symbol.minus.text.toList, ⟨0, 1⟩⟩ =
      .ok { fresh := false, column := 1, tokens := [⟨.symbol .minus, ⟨0, 1⟩⟩] } := rfl
  rw [lex, hsource, hscan, hbytes, hstop, List.foldlM_cons, hfirst]
  show ((Layout.step _ _ >>= _) >>= _) = _
  rw [hstep]
  rfl

/-- The text of a finite double is a source of one token for the double, with all of its bits; a negative
one, zero included, is the double without its sign behind a minus sign. -/
theorem lex_repr (x : Float) (hx : x.isFinite = true) : ∃ stop, stop = Text.bytes (Number.float x).repr.toList ∧
    (isNegative x = false → lex (Number.float x).repr =
      .ok [⟨.float x, ⟨0, stop⟩⟩, ⟨.newline, .point stop⟩, ⟨.eof, .point stop⟩]) ∧
    (isNegative x = true → lex (Number.float x).repr =
      .ok [⟨.symbol .minus, ⟨0, 1⟩⟩, ⟨.float (-x), ⟨1, stop⟩⟩, ⟨.newline, .point stop⟩, ⟨.eof, .point stop⟩]) := by
  obtain ⟨negative, m, e, hparts⟩ := isFinite_iff.mp hx
  rw [isNegative_of_parts hparts, Decimal.repr_eq hparts]
  refine ⟨_, rfl, ?_, ?_⟩
  · rintro rfl
    exact lex_magnitude hparts rfl
  · rintro rfl
    have hneg : parts (-x) = .finite false m e := by
      rw [parts_neg, hparts]
      rfl
    exact lex_minus_magnitude hneg rfl

/-- The smallest double below zero. Its text has an exponent and no point. -/
theorem lex_repr_subnormal : (Float.ofBits 0x8000000000000001).isFinite = true ∧
    (Number.float (Float.ofBits 0x8000000000000001)).repr = "-5e-324" ∧
    lex "-5e-324" = .ok [⟨.symbol .minus, ⟨0, 1⟩⟩, ⟨.float (Float.ofBits 1), ⟨1, 7⟩⟩, ⟨.newline, .point 7⟩, ⟨.eof, .point 7⟩] := by
  have hfinite : (Float.ofBits 0x8000000000000001).isFinite = true := by decide
  have htext : (Number.float (Float.ofBits 0x8000000000000001)).repr = "-5e-324" := by decide +kernel
  have hneg : -Float.ofBits 0x8000000000000001 = Float.ofBits 1 := by decide
  obtain ⟨stop, hstop, -, hminus⟩ := lex_repr (Float.ofBits 0x8000000000000001) hfinite
  have hseven : stop = 7 := by
    rw [hstop, htext]
    decide
  refine ⟨hfinite, htext, ?_⟩
  rw [← htext, hminus (by decide), hneg, hseven]

end Token
end CseMachine
