import CseMachine.Proofs.Surface.Rows

/-!
# Lines become tokens

The layout reads a neat row token by token, keeps the brackets that are open, and
ends the line where none is. In front of the first token of a line it opens or
closes as many levels as the line is deeper or less deep than the one before.
-/
namespace CseMachine.Surface

open Token (Kind Layout)

/-! Lexemes of a row -/

def Piece.lexeme (p : Piece) (offset : Nat) : Lexeme := ⟨p.kind, p.text, ⟨offset, offset + Text.bytes p.text⟩⟩

theorem Piece.text_ne_nil (p : Piece) : p.text ≠ [] := by
  have hword : ∀ {w}, isWord w = true → w ≠ [] := by
    rintro w hw rfl
    cases hw
  cases p with
  | space => exact List.cons_ne_nil _ _
  | name x => exact hword x.word
  | keyword k => exact hword (isWord_text k)
  | number n =>
    rw [text, Nat.toList_repr]
    exact Nat.toDigits_ne_nil
  | str s =>
    rw [text, quote_toList]
    exact List.cons_ne_nil _ _
  | sign s => cases s <;> exact List.cons_ne_nil _ _

theorem Piece.stopsAt_newline (p : Piece) : p.stopsAt '\n' = true := by
  cases p with
  | sign s => simp [stopsAt, Lexeme.grows]
  | _ => rfl

namespace Row

def lexemes (offset : Nat) : Row → List Lexeme
  | [] => []
  | p :: r => p.lexeme offset :: lexemes (offset + Text.bytes p.text) r

/-- The tokens that a row stands for. -/
def tokens (r : Row) : List Kind := r.filterMap Piece.token?

theorem tokens_cons (p : Piece) (r : Row) : tokens (p :: r) = p.token?.toList ++ tokens r := by
  simp only [tokens, List.filterMap_cons]
  cases p.token? <;> rfl

theorem tokens_append (a b : Row) : tokens (a ++ b) = tokens a ++ tokens b := List.filterMap_append

theorem scan_text {r : Row} (h : r.IsChain Piece.Apart) {cs : List Char}
    (hstop : ∀ p ∈ r.getLast?, ∀ c ∈ cs.head?, p.stopsAt c = true) (offset : Nat) :
    Lexeme.scan offset (text r ++ cs) = lexemes offset r ++ Lexeme.scan (offset + Text.bytes (text r)) cs := by
  induction r generalizing offset with
  | nil => rfl
  | cons p r ih =>
    have hlast : ∀ q ∈ r.getLast?, ∀ c ∈ cs.head?, q.stopsAt c = true := by
      intro q hq
      refine hstop q ?_
      rw [List.getLast?_cons, hq]
      rfl
    have hnext : ∀ c ∈ (text r ++ cs).head?, p.stopsAt c = true := by
      cases r with
      | nil => exact hstop p rfl
      | cons q r =>
        intro c hc
        rw [show text (q :: r) = q.text ++ text r from rfl, List.append_assoc,
          List.head?_append_of_ne_nil _ q.text_ne_nil] at hc
        exact (List.isChain_cons_cons.mp h).1 c hc
    have htext : text (p :: r) = p.text ++ text r := rfl
    rw [htext, List.append_assoc, Lexeme.scan_append offset p.text_ne_nil (p.longest_text hnext),
      ih (List.isChain_cons.mp h).2 hlast, Text.bytes_append, ← Nat.add_assoc]
    rfl

end Row

/-! The state of the layout -/

/-- The widths of so many levels, innermost first. -/
def levels : Nat → List Nat
  | 0 => []
  | n + 1 => 4 * (n + 1) :: levels n

theorem length_levels (n : Nat) : (levels n).length = n := by
  induction n with
  | zero => rfl
  | succ n ih => simp [levels, ih]

theorem headD_levels (n : Nat) : (levels n).headD 0 = 4 * n := by cases n <;> rfl

theorem dropWhile_levels {c d : Nat} (h : d ≤ c) : (levels c).dropWhile (4 * d < ·) = levels d := by
  induction c with
  | zero =>
    obtain rfl : d = 0 := by omega
    rfl
  | succ c ih =>
    by_cases hd : d = c + 1
    · subst hd
      simp [levels]
    · have hlt : 4 * d < 4 * (c + 1) := by omega
      rw [levels, List.dropWhile_cons_of_pos (by simpa using hlt)]
      exact ih (by omega)

/-- At the start of a line, behind blanks that reach up to the column. -/
structure AtStart (s : Layout) (column depth : Nat) (kinds : List Kind) : Prop where
  fresh : s.fresh = true
  column : s.column = column
  brackets : s.brackets = []
  levels : s.levels = levels depth
  kinds : s.tokens.reverse.map (·.kind) = kinds

/-- Inside a line. -/
structure Inside (s : Layout) (stack : List Bracket) (depth : Nat) (kinds : List Kind) : Prop where
  fresh : s.fresh = false
  brackets : s.brackets.map Prod.fst = stack
  levels : s.levels = levels depth
  kinds : s.tokens.reverse.map (·.kind) = kinds

variable {s : Layout} {stack stack' : List Bracket} {depth column : Nat} {kinds : List Kind} {p : Piece}

theorem Inside.bracket (h : Inside s stack depth kinds) {sign : Symbol} (hp : (Piece.sign sign).bracket stack = some stack')
    (span : Span) : ∃ s', s.bracket sign span = .ok s' ∧ Inside s' stack' depth kinds := by
  simp only [Piece.bracket] at hp
  simp only [Layout.bracket]
  cases ho : sign.opens? with
  | some b =>
    rw [ho] at hp
    obtain rfl := Option.some.inj hp
    exact ⟨_, rfl, h.fresh, by rw [List.map_cons, h.brackets], h.levels, h.kinds⟩
  | none =>
    rw [ho] at hp
    cases hc : sign.closes? with
    | none =>
      rw [hc] at hp
      obtain rfl := Option.some.inj hp
      exact ⟨s, rfl, h⟩
    | some b =>
      rw [hc] at hp
      have hb := h.brackets
      cases hs : s.brackets with
      | nil =>
        rw [hs] at hb
        subst hb
        cases hp
      | cons first rest =>
        rw [hs] at hb
        subst hb
        simp only [List.map_cons, Option.ite_none_right_eq_some, Option.some.injEq] at hp
        obtain ⟨rfl, rfl⟩ := hp
        exact ⟨{ s with brackets := rest }, by simp, h.fresh, rfl, h.levels, h.kinds⟩

/-- Reading a token adds it. -/
theorem Inside.token (h : Inside s stack depth kinds) (hp : p.bracket stack = some stack') {t : Kind}
    (ht : p.token? = some t) (offset : Nat) :
    ∃ s', s.token (p.lexeme offset) = .ok s' ∧ Inside s' stack' depth (kinds ++ [t]) := by
  have hadd : ∀ {s₁ : Layout}, Inside s₁ stack' depth kinds →
      Inside { s₁.emit t (p.lexeme offset).span with column := s₁.column + p.text.length } stack' depth (kinds ++ [t]) := by
    intro s₁ h₁
    exact ⟨h₁.fresh, h₁.brackets, h₁.levels, by simp [Layout.emit, h₁.kinds]⟩
  have hread := p.ofLexeme ht ⟨offset, offset + Text.bytes p.text⟩
  simp only [Layout.token, h.fresh, Bool.false_eq_true, if_false]
  cases p with
  | space => cases ht
  | sign sign =>
    obtain ⟨s₁, hs₁, h₁⟩ := h.bracket hp (Piece.lexeme (.sign sign) offset).span
    refine ⟨_, ?_, hadd h₁⟩
    change (s.bracket sign _ >>= fun s => _) = _
    rw [hs₁, show Kind.ofLexeme (Piece.lexeme (.sign sign) offset) = _ from hread]
    rfl
  | _ =>
    obtain rfl := Option.some.inj hp
    refine ⟨_, ?_, hadd h⟩
    rw [show Kind.ofLexeme (Piece.lexeme _ offset) = _ from hread]
    simp only [Piece.lexeme, Piece.kind, bind, Except.bind]

theorem Piece.step_eq_token (p : Piece) {t : Kind} (ht : p.token? = some t) (s : Layout) (offset : Nat) :
    s.step (p.lexeme offset) = s.token (p.lexeme offset) := by
  cases p with
  | space => cases ht
  | _ => rfl

theorem Inside.piece (h : Inside s stack depth kinds) (hp : p.bracket stack = some stack') (offset : Nat) :
    ∃ s', s.step (p.lexeme offset) = .ok s' ∧ Inside s' stack' depth (kinds ++ p.token?.toList) := by
  cases ht : p.token? with
  | some t =>
    rw [p.step_eq_token ht]
    exact h.token hp ht offset
  | none =>
    cases p with
    | space =>
      obtain rfl := Option.some.inj hp
      exact ⟨{ s with column := s.column + 1 }, rfl, h.fresh, h.brackets, h.levels, by simp [h.kinds]⟩
    | _ => cases ht

theorem Inside.row {r : Row} (h : Inside s stack depth kinds) (hr : Row.brackets stack r = some stack') (offset : Nat) :
    ∃ s', (r.lexemes offset).foldlM Layout.step s = .ok s' ∧ Inside s' stack' depth (kinds ++ r.tokens) := by
  induction r generalizing s stack kinds offset with
  | nil =>
    obtain rfl := Option.some.inj hr
    exact ⟨s, rfl, by simpa [Row.tokens] using h⟩
  | cons p r ih =>
    rw [Row.brackets_cons] at hr
    obtain ⟨mid, hp, hr⟩ := Option.bind_eq_some_iff.mp hr
    obtain ⟨s₁, hs₁, h₁⟩ := h.piece hp offset
    obtain ⟨s₂, hs₂, h₂⟩ := ih h₁ hr (offset + Text.bytes p.text)
    refine ⟨s₂, ?_, ?_⟩
    · rw [Row.lexemes, List.foldlM_cons, hs₁]
      exact hs₂
    · rw [List.append_assoc] at h₂
      rwa [Row.tokens_cons]

/-! Lines -/

/-- What stands between two lines of these depths. -/
def moves (c d : Nat) : List Kind := List.replicate (d - c) .indent ++ List.replicate (c - d) .dedent

/-- The first token of a line is preceded by the change of level. -/
theorem AtStart.enter {c d : Nat} (h : AtStart s (4 * d) c kinds) (hd : d ≤ c + 1) (span : Span) :
    ∃ s', s.enterLine span = .ok s' ∧ Inside s' [] d (kinds ++ moves c d) := by
  simp only [Layout.enterLine]
  rw [h.levels, h.column, headD_levels]
  by_cases hdeep : c < d
  · obtain rfl : d = c + 1 := by omega
    rw [if_pos (by omega)]
    refine ⟨_, rfl, rfl, by simp [Layout.emit, h.brackets], rfl, ?_⟩
    simp [Layout.emit, h.kinds, moves]
  · have hle : d ≤ c := by omega
    rw [if_neg (by omega), dropWhile_levels hle, headD_levels, if_pos rfl]
    refine ⟨_, rfl, rfl, by simp [h.brackets], rfl, ?_⟩
    have hzero : d - c = 0 := by omega
    simp [length_levels, h.kinds, moves, hzero]

theorem AtStart.blanks {c : Nat} (h : AtStart s 0 c kinds) (d : Nat) {cs : List Char}
    (hcs : ∀ c ∈ cs.head?, Lexeme.isBlank c = false) (offset : Nat) :
    ∃ s', (Lexeme.scan offset (List.replicate (4 * d) ' ' ++ cs)).foldlM Layout.step s =
        (Lexeme.scan (offset + Text.bytes (List.replicate (4 * d) ' ')) cs).foldlM Layout.step s' ∧
      AtStart s' (4 * d) c kinds := by
  cases d with
  | zero => exact ⟨s, rfl, h⟩
  | succ d =>
    have hlong := Lexeme.longest_blanks (show 0 < 4 * (d + 1) by omega) hcs
    have hne : List.replicate (4 * (d + 1)) ' ' ≠ [] := by simp
    rw [Lexeme.scan_append offset hne (by rw [hlong, List.length_replicate]), List.foldlM_cons]
    refine ⟨{ s with column := s.column + (List.replicate (4 * (d + 1)) ' ').length }, rfl, h.fresh, ?_, h.brackets,
      h.levels, h.kinds⟩
    rw [h.column, List.length_replicate, Nat.zero_add]

theorem token_eq_of_enterLine {s₁ : Layout} {l : Lexeme} (hs : s.fresh = true) (h : s.enterLine l.span = .ok s₁)
    (h₁ : s₁.fresh = false) : s.token l = s₁.token l := by
  simp only [Layout.token, hs, h₁, if_true, Bool.false_eq_true, if_false, h]

/-- A row at the start of a line is read like one inside a line, behind the change of level. -/
theorem AtStart.row {c d : Nat} (h : AtStart s (4 * d) c kinds) (hd : d ≤ c + 1) {r : Row} (hr : r.Neat) (offset : Nat) :
    ∃ s', (r.lexemes offset).foldlM Layout.step s = .ok s' ∧ Inside s' [] d (kinds ++ moves c d ++ r.tokens) := by
  obtain ⟨p, hp, hne⟩ := hr.first
  cases r with
  | nil => cases hp
  | cons q r =>
    obtain rfl := Option.some.inj hp
    obtain ⟨s₁, hs₁, h₁⟩ := h.enter hd (q.lexeme offset).span
    obtain ⟨t, ht⟩ : ∃ t, q.token? = some t := by
      cases q with
      | space => exact absurd rfl hne
      | _ => exact ⟨_, rfl⟩
    have hstep : s.step (q.lexeme offset) = s₁.step (q.lexeme offset) := by
      rw [q.step_eq_token ht, q.step_eq_token ht, token_eq_of_enterLine h.fresh hs₁ h₁.fresh]
    obtain ⟨s₂, hs₂, h₂⟩ := h₁.row (hr.balanced []) offset
    refine ⟨s₂, ?_, h₂⟩
    rw [← hs₂, Row.lexemes, List.foldlM_cons, List.foldlM_cons, hstep]

/-- Where no bracket is open the line ends. -/
theorem Inside.endLine (h : Inside s [] depth kinds) (span : Span) :
    AtStart (s.endLine span) 0 depth (kinds ++ [.newline]) := by
  have hb : s.brackets = [] := List.map_eq_nil_iff.mp h.brackets
  simp only [Layout.endLine, hb, List.isEmpty_nil, if_true, h.fresh, Bool.false_eq_true, if_false]
  exact ⟨rfl, rfl, hb, h.levels, by simp [Layout.emit, h.kinds]⟩

theorem Neat.head_not_isBlank {r : Row} (h : r.Neat) (cs : List Char) :
    ∀ c ∈ (r.text ++ cs).head?, Lexeme.isBlank c = false := by
  obtain ⟨p, hp, hne⟩ := h.first
  cases r with
  | nil => cases hp
  | cons q r =>
    obtain rfl := Option.some.inj hp
    intro c hc
    rw [show Row.text (q :: r) = q.text ++ Row.text r from rfl, List.append_assoc,
      List.head?_append_of_ne_nil _ q.text_ne_nil] at hc
    simpa [Piece.stopsAt] using Piece.space_apart hne c hc

/-- Reading a line adds the change of level, the tokens of the line and its end. -/
theorem AtStart.line {c : Nat} (h : AtStart s 0 c kinds) {l : Line} (hd : l.depth ≤ c + 1) (hl : l.row.Neat)
    (cs : List Char) (offset : Nat) :
    ∃ s', (Lexeme.scan offset (l.text ++ cs)).foldlM Layout.step s =
        (Lexeme.scan (offset + Text.bytes l.text) cs).foldlM Layout.step s' ∧
      AtStart s' 0 l.depth (kinds ++ moves c l.depth ++ l.row.tokens ++ [.newline]) := by
  have htext : l.text ++ cs = List.replicate (4 * l.depth) ' ' ++ (l.row.text ++ '\n' :: cs) := by
    simp [Line.text]
  have hstop : ∀ p ∈ l.row.getLast?, ∀ c ∈ ('\n' :: cs).head?, p.stopsAt c = true := by
    intro p _ c hc
    obtain rfl := Option.some.inj hc
    exact p.stopsAt_newline
  have hbytes : Text.bytes l.text = Text.bytes (List.replicate (4 * l.depth) ' ') + Text.bytes l.row.text + 1 := by
    rw [Line.text, Text.bytes_append, Text.bytes_append]
    rfl
  obtain ⟨s₁, hs₁, h₁⟩ := h.blanks l.depth (Neat.head_not_isBlank hl ('\n' :: cs)) offset
  generalize Text.bytes (List.replicate (4 * l.depth) ' ') = width at hbytes hs₁
  obtain ⟨s₂, hs₂, h₂⟩ := h₁.row hd hl (offset + width)
  let stop := offset + width + Text.bytes l.row.text
  refine ⟨s₂.endLine ⟨stop, stop + 1⟩, ?_, h₂.endLine _⟩
  rw [htext, hs₁, Row.scan_text hl.chain hstop, List.foldlM_append, hs₂, Lexeme.scan_newline, hbytes, ← Nat.add_assoc,
    ← Nat.add_assoc]
  rfl

/-! Whole texts -/

/-- Lines that become these tokens, behind a line of the given depth. -/
inductive Laid : Nat → List Line → List Kind → Prop where
  | nil (c : Nat) : Laid c [] (List.replicate c .dedent ++ [.eof])
  | cons {c : Nat} {l : Line} {lines : List Line} {ks : List Kind} (depth : l.depth ≤ c + 1) (neat : l.row.Neat)
      (rest : Laid l.depth lines ks) : Laid c (l :: lines) (moves c l.depth ++ l.row.tokens ++ .newline :: ks)

theorem AtStart.lines {c : Nat} {lines : List Line} {ks : List Kind} (hl : Laid c lines ks) (h : AtStart s 0 c kinds)
    (offset stop : Nat) :
    ∃ ts, ((Lexeme.scan offset (lines.flatMap Line.text)).foldlM Layout.step s >>= fun s => s.finish stop) = .ok ts ∧
      ts.map (·.kind) = kinds ++ ks := by
  induction hl generalizing s kinds offset with
  | nil c =>
    have hlevels : s.levels.length = c := by rw [h.levels, length_levels]
    refine ⟨s.tokens.reverse ++ List.replicate c ⟨.dedent, .point stop⟩ ++ [⟨.eof, .point stop⟩], ?_, ?_⟩
    · rw [List.flatMap_nil, Lexeme.scan]
      simp only [List.foldlM_nil, pure_bind, Layout.finish, h.brackets, h.fresh, if_true, hlevels]
    · simp only [List.map_append, h.kinds, List.map_replicate, List.append_assoc]
      rfl
  | @cons c l lines ks depth neat rest ih =>
    obtain ⟨s₁, hs₁, h₁⟩ := h.line depth neat (lines.flatMap Line.text) offset
    obtain ⟨ts, hts, hks⟩ := ih h₁ (offset + Text.bytes l.text)
    refine ⟨ts, ?_, ?_⟩
    · rw [List.flatMap_cons, hs₁, hts]
    · rw [hks]
      simp only [List.append_assoc, List.cons_append, List.nil_append]

/-- The tokens of a text are those of its lines. -/
theorem lex_text {lines : List Line} {ks : List Kind} (h : Laid 0 lines ks) :
    ∃ ts, lex (String.ofList (lines.flatMap Line.text)) = .ok ts ∧ ts.map (·.kind) = ks := by
  have hstart : AtStart {} 0 0 [] := ⟨rfl, rfl, rfl, rfl, rfl⟩
  simp only [lex, String.toList_ofList]
  simpa using hstart.lines h 0 (Text.bytes (lines.flatMap Line.text))

end CseMachine.Surface
