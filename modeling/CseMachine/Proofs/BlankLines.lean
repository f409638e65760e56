import CseMachine.Proofs.Layout.Unplaced
import CseMachine.Proofs.Lexing.LineEnds

/-!
# Blank lines

Lines without tokens do not matter. Where a line starts that is not joined to the one
before, the layout has read nothing of it, and if no bracket is open it waits for the first
token of a logical line. Blanks and comments only count columns, and the newline behind
them takes the layout back to where it was.
-/
namespace CseMachine.Token

open Lexeme (scan)

variable {s : Layout} {line back filler : List Char}

/-- Blanks and, behind them, maybe a comment. -/
def BlankLine (line : List Char) : Prop := ∃ blanks comment, line = blanks ++ comment ∧
  (∀ c ∈ blanks, c = ' ' ∨ c = '\t' ∨ c = '\x0c' ∨ c = '\r') ∧
  (comment = [] ∨ ∃ text, comment = '#' :: text ∧ '\n' ∉ text)

/-- Blank lines in front of a text. The last one needs no newline where the source ends with it. -/
inductive BlankLines (back : List Char) : List Char → Prop
  | nil : BlankLines back []
  | line {line more : List Char} : BlankLine line → BlankLines back more → BlankLines back (line ++ '\n' :: more)
  | last {line : List Char} : BlankLine line → back = [] → BlankLines back line

/-- A backslash that is skipped joins the lines in front of and behind the offset. -/
def JoinedAt (source : List Char) (offset : Nat) : Prop := ∃ before l after s,
  scan 0 source = before ++ l :: after ∧ before.foldlM Layout.step {} = .ok s ∧ l.Joins ∧ l.span.stop = offset

/-- Between the two texts a line starts that is not joined to the one before. -/
structure LineBoundary (front back : List Char) : Prop where
  start : front = [] ∨ front.getLast? = some '\n'
  apart : ¬ JoinedAt (front ++ back) (Text.bytes front)

/-! The pieces of a blank line -/

theorem scan_blanks {blanks rest : List Char} (hblanks : ∀ c ∈ blanks, Lexeme.isBlank c = true)
    (hstop : ∀ c ∈ rest.head?, Lexeme.isBlank c = false) (offset : Nat) :
    ∃ ls, (∀ l ∈ ls, l.kind = .skip) ∧ scan offset (blanks ++ rest) = ls ++ scan (offset + Text.bytes blanks) rest := by
  by_cases hne : blanks = []
  · subst hne
    exact ⟨[], by simp, rfl⟩
  · exact ⟨[_], by simp, Lexeme.scan_append offset hne (Lexeme.longest_blank hne hblanks hstop)⟩

theorem scan_comment {text rest : List Char} (htext : '\n' ∉ text) (hstop : ∀ c ∈ rest.head?, c = '\n') (offset : Nat) :
    scan offset ('#' :: text ++ rest) =
      ⟨.skip, '#' :: text, ⟨offset, offset + Text.bytes ('#' :: text)⟩⟩ :: scan (offset + Text.bytes ('#' :: text)) rest :=
  Lexeme.scan_append offset (List.cons_ne_nil _ _) (Lexeme.longest_comment htext hstop)

/-- What stands on a blank line is skipped. -/
theorem BlankLine.scan (h : BlankLine line) {rest : List Char} (hstop : ∀ c ∈ rest.head?, c = '\n') (offset : Nat) :
    ∃ ls, (∀ l ∈ ls, l.kind = .skip) ∧ Lexeme.scan offset (line ++ rest) =
      ls ++ Lexeme.scan (offset + Text.bytes line) rest := by
  obtain ⟨blanks, comment, rfl, hblanks, hcomment⟩ := h
  have hblank : ∀ c ∈ blanks, Lexeme.isBlank c = true := by
    intro c hc
    rcases hblanks c hc with rfl | rfl | rfl | rfl <;> rfl
  rcases hcomment with rfl | ⟨text, rfl, htext⟩
  · have hnone : ∀ c ∈ rest.head?, Lexeme.isBlank c = false := by
      intro c hc
      rw [hstop c hc]
      rfl
    rw [List.append_nil]
    exact scan_blanks hblank hnone offset
  · have hmark : ∀ c ∈ ('#' :: text ++ rest).head?, Lexeme.isBlank c = false := by
      intro c hc
      rw [← Option.some.inj hc]
      rfl
    obtain ⟨ls, hls, hscan⟩ := scan_blanks hblank hmark offset
    rw [scan_comment htext hstop] at hscan
    refine ⟨ls ++ [_], ?_, by rw [List.append_assoc, hscan, Text.bytes_append, ← Nat.add_assoc, List.append_cons]⟩
    intro l hl
    rcases List.mem_append.mp hl with hl | hl
    · exact hls l hl
    · rw [List.mem_singleton.mp hl]

/-! Starting a line -/

/-- Nothing of the line has been read, and if no bracket is open, nothing of the logical line. -/
structure Layout.AtLineStart (s : Layout) : Prop where
  column : s.column = 0
  fresh : s.brackets = [] → s.fresh = true

theorem Layout.atLineStart_nil : ({} : Layout).AtLineStart := ⟨rfl, fun _ => rfl⟩

theorem Layout.atLineStart_endLine (s : Layout) (span : Span) : (s.endLine span).AtLineStart := by
  simp only [Layout.endLine]
  split
  · exact ⟨rfl, fun _ => rfl⟩
  · next hopen => exact ⟨rfl, fun hnone => absurd (List.isEmpty_iff.mpr hnone) hopen⟩

/-- At the end of a line without tokens the layout is back where the line started. -/
theorem Layout.AtLineStart.endLine (h : s.AtLineStart) (n : Nat) (span : Span) :
    Layout.endLine { s with column := n } span = s := by
  obtain ⟨hcolumn, hfresh⟩ := h
  simp only [Layout.endLine]
  split
  · next hnone =>
    rw [hfresh (List.isEmpty_iff.mp hnone), if_pos rfl, ← hfresh (List.isEmpty_iff.mp hnone), ← hcolumn]
  · rw [← hcolumn]

theorem Layout.step_of_newline {l : Lexeme} (h : l.kind = .newline) (s : Layout) : s.step l = .ok (s.endLine l.span) := by
  rw [Layout.step, h]

/-- Lexemes that are skipped only make the line wider. -/
theorem foldlM_skips {ls : List Lexeme} (h : ∀ l ∈ ls, l.kind = .skip) (s : Layout) :
    ∃ n, ls.foldlM Layout.step s = .ok { s with column := n } := by
  induction ls generalizing s with
  | nil => exact ⟨s.column, rfl⟩
  | cons l ls ih =>
    obtain ⟨hl, hls⟩ := List.forall_mem_cons.mp h
    obtain ⟨n, hn⟩ := ih hls { s with column := s.column + l.text.length }
    have hstep : s.step l = .ok { s with column := s.column + l.text.length } := by rw [Layout.step, hl]
    exact ⟨n, by rw [List.foldlM_cons, hstep]; exact hn⟩

/-! The rest of a source -/

/-- What the layout makes of the rest of a source, the spans forgotten. -/
def Layout.outcome (s : Layout) (rest : List Char) : Except ParseError (List Token) :=
  unplacedBy (List.map Token.unplaced) ((scan 0 rest).foldlM Layout.step s >>= (·.finish 0))

/-- Where the rest starts and where it ends makes no difference. -/
theorem Layout.outcome_eq (s : Layout) (rest : List Char) (offset stop : Nat) :
    unplacedBy (List.map Token.unplaced) ((scan offset rest).foldlM Layout.step s >>= (·.finish stop)) = s.outcome rest := by
  have hforget : ∀ offset stop, unplacedBy (List.map Token.unplaced)
      ((scan offset rest).foldlM Layout.step s >>= (·.finish stop)) =
      ((scan offset rest).map Lexeme.unplaced).foldlM Layout.step s.unplaced >>= (·.finish 0) := by
    intro offset stop
    rw [← Layout.unplaced_foldlM]
    exact unplacedBy_bind _ fun s' => s'.unplaced_finish stop
  rw [outcome, hforget, hforget, Lexeme.unplaced_scan offset 0]

/-- Lexemes in front of the rest that are read. -/
theorem Layout.outcome_of_scan {s' : Layout} {text rest : List Char} {ls : List Lexeme} {offset : Nat}
    (hscan : scan 0 text = ls ++ scan offset rest) (hs : ls.foldlM Layout.step s = .ok s') :
    s.outcome text = s'.outcome rest := by
  rw [← outcome_eq s' rest offset 0, outcome, hscan, List.foldlM_append, hs]
  rfl

theorem Layout.outcome_nil (s : Layout) : s.outcome [] = unplacedBy (List.map Token.unplaced) (s.finish 0) := by
  rw [outcome, scan]
  rfl

/-- At the end of a source it does not matter how wide its last line is. -/
theorem Layout.finish_column (s : Layout) (n stop : Nat) : Layout.finish { s with column := n } stop = s.finish stop := by
  simp only [Layout.finish]
  cases s.brackets with
  | nil => cases s.fresh <;> rfl
  | cons b rest => rfl

/-- Blank lines in front of a line leave the outcome as it is. -/
theorem BlankLines.outcome (h : BlankLines back filler) (hs : s.AtLineStart) :
    s.outcome (filler ++ back) = s.outcome back := by
  induction h with
  | nil => rfl
  | @line line more hline _ ih =>
    have hnewline : ∀ c ∈ ('\n' :: (more ++ back)).head?, c = '\n' := by simp
    obtain ⟨ls, hls, hscan⟩ := hline.scan hnewline 0
    obtain ⟨n, hn⟩ := foldlM_skips hls s
    rw [Lexeme.scan_newline, List.append_cons ls] at hscan
    rw [← ih, List.append_assoc, List.cons_append]
    refine Layout.outcome_of_scan hscan ?_
    rw [List.foldlM_append, hn]
    exact congrArg Except.ok (hs.endLine n _)
  | @last line hline hback =>
    subst hback
    have hend : ∀ c ∈ ([] : List Char).head?, c = '\n' := by simp
    obtain ⟨ls, hls, hscan⟩ := hline.scan hend 0
    obtain ⟨n, hn⟩ := foldlM_skips hls s
    rw [Layout.outcome_of_scan hscan hn, Layout.outcome_nil, Layout.finish_column, ← Layout.outcome_nil]

/-- Behind a newline a source has been refused, or the line goes on, or another one starts. -/
theorem outcome_line (line : List Char) :
    (∃ e, ∀ rest, Layout.outcome {} (line ++ '\n' :: rest) = .error e) ∨
      (∀ rest, JoinedAt (line ++ '\n' :: rest) (Text.bytes (line ++ ['\n']))) ∨
        ∃ s : Layout, s.AtLineStart ∧ ∀ rest, Layout.outcome {} (line ++ '\n' :: rest) = s.outcome rest := by
  obtain ⟨ls, l, hl, hstop, hscan⟩ := Lexeme.scan_line line 0
  rw [Nat.zero_add] at hstop hscan
  cases hfront : ls.foldlM Layout.step {} with
  | error e =>
    refine .inl ⟨e.unplaced, fun rest => ?_⟩
    rw [Layout.outcome, hscan, List.foldlM_append, hfront]
    rfl
  | ok s =>
    rcases hl with hnewline | hjoins
    · refine .inr (.inr ⟨s.endLine l.span, s.atLineStart_endLine l.span, fun rest => ?_⟩)
      have hread : (ls ++ [l]).foldlM Layout.step {} = .ok (s.endLine l.span) := by
        rw [List.foldlM_append, hfront]
        change (s.step l >>= fun s => [].foldlM Layout.step s) = _
        rw [Layout.step_of_newline hnewline]
        rfl
      exact Layout.outcome_of_scan ((hscan rest).trans (List.append_cons ..)) hread
    · exact .inr (.inl fun rest => ⟨ls, l, _, s, hscan rest, hfront, hjoins, hstop⟩)

theorem unplaced_lex (source : String) :
    unplacedBy (List.map Token.unplaced) (lex source) = Layout.outcome {} source.toList :=
  Layout.outcome_eq {} source.toList 0 (Text.bytes source.toList)

/-- Blank lines between two lines of a source, with any indentation and in any number, change
neither its tokens nor what it is refused for, but for the spans. The code and the message of
an error follow from its cause. -/
theorem lex_insert_blankLines (front filler back : String) (hboundary : LineBoundary front.toList back.toList)
    (hfiller : BlankLines back.toList filler.toList) :
    unplacedBy (List.map Token.unplaced) (lex (front ++ filler ++ back)) =
      unplacedBy (List.map Token.unplaced) (lex (front ++ back)) := by
  rw [unplaced_lex, unplaced_lex]
  simp only [String.toList_append]
  generalize front.toList = front at hboundary
  rcases hboundary.start with rfl | hlast
  · exact hfiller.outcome Layout.atLineStart_nil
  · obtain ⟨line, rfl⟩ := List.getLast?_eq_some_iff.mp hlast
    have hcons : ∀ rest, line ++ ['\n'] ++ rest = line ++ '\n' :: rest := fun rest => (List.append_cons ..).symm
    have hapart := hboundary.apart
    rw [hcons] at hapart
    rw [List.append_assoc, hcons, hcons]
    rcases outcome_line line with ⟨e, he⟩ | hjoined | ⟨s, hs, hread⟩
    · rw [he, he]
    · exact absurd (hjoined back.toList) hapart
    · rw [hread, hread]
      exact hfiller.outcome hs

/-- A comment and a line of blanks in front of an indented line. -/
theorem lex_insert_blankLines_indented :
    LineBoundary "if x:\n".toList "    y\n".toList ∧ BlankLines "    y\n".toList "  # c\n\t\n".toList ∧
      unplacedBy (List.map Token.unplaced) (lex ("if x:\n" ++ "  # c\n\t\n" ++ "    y\n")) =
        unplacedBy (List.map Token.unplaced) (lex ("if x:\n" ++ "    y\n")) := by
  have hboundary : LineBoundary "if x:\n".toList "    y\n".toList := by
    refine ⟨.inr rfl, ?_⟩
    rintro ⟨before, l, after, s, hscan, -, hjoins, hstop⟩
    have hnone : ∀ l ∈ scan 0 ("if x:\n".toList ++ "    y\n".toList), l.text.head? ≠ some '\\' := by
      decide +kernel
    exact hnone l (by rw [hscan]; simp) hjoins.2
  have hcomment : BlankLine "  # c".toList :=
    ⟨[' ', ' '], "# c".toList, rfl, by simp, .inr ⟨" c".toList, rfl, by decide⟩⟩
  have hblanks : BlankLine "\t".toList := ⟨['\t'], [], rfl, by simp, .inl rfl⟩
  have hfiller : BlankLines "    y\n".toList "  # c\n\t\n".toList := .line hcomment (.line hblanks .nil)
  exact ⟨hboundary, hfiller, lex_insert_blankLines _ _ _ hboundary hfiller⟩

end CseMachine.Token
