import CseMachine.Proofs.Layout.Lines
import CseMachine.Proofs.Results

/-!
# Reading lexemes

The layout reads lexemes one by one. What it keeps is where the lines stand, the
levels that are open, the brackets that are open, and a stream of tokens. Each
lexeme that is read extends the stream, and one that starts a logical line is
refused for its width just if it is misplaced.
-/
namespace CseMachine.Token

variable {s s' : Layout} {p : Place} {l : Lexeme} {offset : Nat}

/-- The layout keeps the levels and brackets of the place, and its tokens reach up to the offset. -/
structure Layout.Ready (s : Layout) (p : Place) (offset : Nat) : Prop where
  stream : Stream s.tokens.reverse s.levels.length (s.brackets.map Prod.fst) offset
  marked : ∀ t ∈ s.tokens, t.kind ≠ .eof
  fresh : s.fresh = p.fresh
  depth : s.brackets.length = p.depth
  width : s.column = p.width
  levels : s.levels ++ [0] = openLevels p.widths
  sorted : (s.levels ++ [0]).Pairwise (· > ·)

/-- The layout stands at the place: a logical line starts right behind another one, and goes on
behind one of its tokens. -/
structure Layout.Reads (s : Layout) (p : Place) (offset : Nat) : Prop extends s.Ready p offset where
  starting : s.fresh = true → s.brackets = [] ∧ (s.tokens = [] ∨ s.tokens.head?.map (·.kind) = some .newline)
  going : s.fresh = false → ∃ k, s.tokens.head?.map (·.kind) = some k ∧ k.isLayout = false

/-- The last token of the stream is the first one on the list. -/
theorem getLast?_reverse (s : Layout) : s.tokens.reverse.getLast? = s.tokens.head? := List.getLast?_reverse

theorem Layout.reads_nil : ({} : Layout).Reads {} 0 where
  stream := .nil
  marked := by simp
  fresh := rfl
  depth := rfl
  width := rfl
  levels := rfl
  sorted := List.pairwise_singleton _ _
  starting _ := ⟨rfl, .inl rfl⟩
  going h := nomatch h

/-! The tokens of a line -/

/-- A token that a lexeme stands for is none of the layout's and no end marker. -/
theorem inner_of_ofLexeme {k : Kind} (h : Kind.ofLexeme l = .ok k) (hl : Standing l) :
    k.isLayout = false ∧ k ≠ .eof ∧ ((∀ sign, l.kind ≠ .symbol sign) → k.opens? = none ∧ k.closes? = none) ∧
      ∀ sign, l.kind = .symbol sign → k = .symbol sign := by
  obtain ⟨hskip, hnewline, -⟩ := hl
  have hdigits : ∀ {base cs}, Token.ofDigits base cs l.span = .ok k → ∃ n, k = .int n := by
    intro base cs hd
    simp only [Token.ofDigits] at hd
    split at hd
    · exact ⟨_, (Except.ok.inj hd).symm⟩
    · cases hd
  have hplain : (∃ n, k = .int n) ∨ (∃ x, k = .float x) ∨ (∃ x, k = .imag x) ∨ (∃ t, k = .str t) ∨
      (∃ w, k = .keyword w) ∨ (∃ x, k = .ident x) →
      k.isLayout = false ∧ k ≠ .eof ∧ k.opens? = none ∧ k.closes? = none := by
    rintro (⟨_, rfl⟩ | ⟨_, rfl⟩ | ⟨_, rfl⟩ | ⟨_, rfl⟩ | ⟨_, rfl⟩ | ⟨_, rfl⟩)
    all_goals simp [Kind.isLayout, Kind.opens?, Kind.closes?]
  have hdouble : ∀ {cs} {f : Float → Kind}, (Token.doubleOf cs l.span).map f = .ok k → ∃ x, k = f x := by
    intro cs f hd
    cases hx : Token.doubleOf cs l.span with
    | error e => rw [hx] at hd; cases hd
    | ok x => rw [hx] at hd; exact ⟨x, (Except.ok.inj hd).symm⟩
  have hinner : (∀ sign, l.kind ≠ .symbol sign) → k.isLayout = false ∧ k ≠ .eof ∧ k.opens? = none ∧ k.closes? = none := by
    intro hsign
    refine hplain ?_
    simp only [Kind.ofLexeme] at h
    cases hk : l.kind with
    | skip => exact absurd hk hskip
    | newline => exact absurd hk hnewline
    | symbol sign => exact absurd hk (hsign sign)
    | decimal | hex | octal | binary =>
      rw [hk] at h
      exact .inl (hdigits h)
    | float =>
      rw [hk] at h
      exact .inr (.inl (hdouble h))
    | imag =>
      rw [hk] at h
      exact .inr (.inr (.inl (hdouble h)))
    | string =>
      rw [hk] at h
      exact .inr (.inr (.inr (.inl ⟨_, (Except.ok.inj h).symm⟩)))
    | openString | invalid =>
      rw [hk] at h
      cases h
    | word =>
      rw [hk] at h
      obtain rfl := Except.ok.inj h
      simp only [Token.ofWord]
      split <;> simp
  have hsign : ∀ sign, l.kind = .symbol sign → k = .symbol sign := by
    intro sign hk
    simp only [Kind.ofLexeme, hk] at h
    exact (Except.ok.inj h).symm
  by_cases hs : ∃ sign, l.kind = .symbol sign
  · obtain ⟨sign, hk⟩ := hs
    obtain rfl := hsign sign hk
    exact ⟨rfl, nofun, fun hn => absurd hk (hn sign), hsign⟩
  · obtain ⟨h₁, h₂, h₃⟩ := hinner fun sign hk => hs ⟨sign, hk⟩
    exact ⟨h₁, h₂, fun _ => h₃, hsign⟩

/-- What a lexeme does to the brackets. -/
def Layout.matched (s : Layout) (l : Lexeme) : Except ParseError Layout :=
  match l.kind with
  | .symbol sign => s.bracket sign l.span
  | _ => .ok s

theorem Layout.token_eq_bind (s : Layout) (l : Lexeme) :
    s.token l = (if s.fresh then s.enterLine l.span else .ok s) >>= fun s₁ => s₁.matched l >>= fun s₂ =>
      Kind.ofLexeme l >>= fun k => .ok { s₂.emit k l.span with column := s₂.column + l.text.length } := by
  simp only [Layout.token, Layout.matched]
  cases s.fresh <;> cases l.kind <;> rfl

/-- The brackets behind a sign are those that its token leaves open. -/
theorem Layout.bracket_eq {sign : Symbol} {span : Span} (h : s.bracket sign span = .ok s') :
    s' = { s with brackets := s'.brackets } ∧
      Kind.read (s.brackets.map Prod.fst) (.symbol sign) = some (s'.brackets.map Prod.fst) ∧
      s'.brackets.length = if sign.opens?.isSome then s.brackets.length + 1
        else if sign.closes?.isSome then s.brackets.length - 1 else s.brackets.length := by
  simp only [Layout.bracket] at h
  simp only [Kind.read, Kind.opens?, Kind.closes?]
  cases ho : sign.opens? with
  | some b =>
    rw [ho] at h
    obtain rfl := Except.ok.inj h
    exact ⟨rfl, rfl, rfl⟩
  | none =>
    rw [ho] at h
    cases hc : sign.closes? with
    | none =>
      rw [hc] at h
      obtain rfl := Except.ok.inj h
      exact ⟨rfl, rfl, rfl⟩
    | some b =>
      rw [hc] at h
      dsimp only at h
      split at h
      · next o at' rest hb =>
        split at h
        · next hob =>
          obtain rfl := Except.ok.inj h
          subst hob
          simp [hb]
        · cases h
      · cases h

/-! Starting a line -/

/-- The place once a token of the line is there. -/
def Place.entered (p : Place) : Place :=
  { p with fresh := false, widths := if p.fresh then p.widths ++ [p.width] else p.widths }

/-- A line may start at the place unless it is narrower than the innermost level and no open level
has its width. -/
def Place.Blocked (p : Place) : Prop :=
  p.fresh = true ∧ p.width < innermost p.widths ∧ p.width ∉ openLevels p.widths

/-- Levels are open only behind another line. -/
theorem Layout.Reads.behind_line (h : s.Reads p offset) (hf : s.fresh = true) (hn : s.levels ≠ []) :
    s.tokens.reverse.getLast?.map (·.kind) = some .newline := by
  rw [getLast?_reverse]
  refine (h.starting hf).2.resolve_left fun hnone => hn ?_
  have hdepth := h.stream.depth
  rw [hnone] at hdepth
  simpa using hdepth

/-- A line has been entered if its width is the innermost of the levels and those below it are kept. -/
theorem Layout.Reads.ready_entered (h : s.Reads p offset) (hf : s.fresh = true) {tokens : List Token} {levels : List Nat}
    {position : Nat} (hs : Stream tokens.reverse levels.length [] position) (hm : ∀ t ∈ tokens, t.kind ≠ .eof)
    (hl : levels ++ [0] = s.column :: (s.levels ++ [0]).filter (· < s.column)) :
    Layout.Ready { s with tokens, levels, fresh := false } p.entered position where
  stream := by rw [(h.starting hf).1]; exact hs
  marked := hm
  fresh := rfl
  depth := h.depth
  width := h.width
  levels := by
    have hp : p.fresh = true := h.fresh ▸ hf
    rw [Place.entered, hp, if_pos rfl, openLevels_concat, ← h.width, ← h.levels]
    exact hl
  sorted := by
    rw [show levels ++ [0] = _ from hl]
    exact sorted_opened h.sorted

/-- A line that is no wider than the innermost level has the width of an open one, unless it is misplaced. -/
theorem Layout.Reads.mem_levels (h : s.Reads p offset) (hf : s.fresh = true) (hb : ¬ p.Blocked)
    (hdeep : ¬ s.levels.headD 0 < s.column) : s.column ∈ s.levels ++ [0] := by
  refine Decidable.byContradiction fun hn => ?_
  have hne : s.levels.headD 0 ≠ s.column := by
    intro he
    refine hn (he ▸ ?_)
    cases s.levels <;> simp
  have hinner : innermost p.widths = s.levels.headD 0 := by rw [innermost, ← h.levels, headD_append_zero]
  rw [h.levels, h.width] at hn
  rw [h.width] at hdeep hne
  exact hb ⟨h.fresh ▸ hf, by omega, hn⟩

/-- In front of its first token a line opens a level or closes some. -/
theorem Layout.Reads.enterLine (h : s.Reads p offset) (hf : s.fresh = true) (hb : ¬ p.Blocked) {span : Span}
    (ho : offset ≤ span.start) : ∃ s', s.enterLine span = .ok s' ∧ s'.Ready p.entered span.start := by
  obtain ⟨hbrackets, hlast⟩ := h.starting hf
  have hstream := h.stream
  rw [hbrackets] at hstream
  simp only [Layout.enterLine]
  by_cases hdeep : s.levels.headD 0 < s.column
  · rw [if_pos hdeep]
    refine ⟨_, rfl, h.ready_entered hf ?_ ?_ (deeper_eq h.sorted hdeep)⟩
    · have hlast' : s.tokens.reverse.getLast?.map (·.kind) = none ∨
          s.tokens.reverse.getLast?.map (·.kind) = some .newline := by
        rw [getLast?_reverse]
        exact hlast.imp (fun hn => by rw [hn]; rfl) id
      have hs : Stream (s.tokens.reverse ++ [⟨.indent, Span.point span.start⟩]) (s.levels.length + 1) [] span.start :=
        hstream.concat hlast' rfl rfl ho (Nat.le_refl _) (Nat.le_refl _)
      simpa [Layout.emit] using hs
    · intro t ht
      rcases List.mem_cons.mp ht with rfl | ht
      · exact nofun
      · exact h.marked t ht
  · have hkept := (headD_kept h.sorted).mpr (h.mem_levels hf hb hdeep)
    rw [if_neg hdeep, if_pos hkept]
    refine ⟨_, rfl, h.ready_entered hf ?_ ?_ (kept_eq h.sorted hkept)⟩
    · have hle := (List.dropWhile_suffix (s.column < ·) : s.levels.dropWhile _ <:+ s.levels).length_le
      have hnew : s.levels.length - (s.levels.dropWhile (s.column < ·)).length ≠ 0 →
          s.tokens.reverse.getLast?.map (·.kind) = some .newline :=
        fun hne => h.behind_line hf fun hnil => hne (by rw [hnil]; rfl)
      have hs := hstream.dedents _ (Nat.sub_le _ _) ho hnew
      rw [Nat.sub_sub_self hle] at hs
      simpa using hs
    · intro t ht
      rcases List.mem_append.mp ht with ht | ht
      · rw [List.eq_of_mem_replicate ht]
        exact nofun
      · exact h.marked t ht

theorem Layout.Reads.enterLine_error (h : s.Reads p offset) (hb : p.Blocked) (span : Span) :
    s.enterLine span = .error ⟨.inconsistentDedent, span⟩ := by
  obtain ⟨-, hnarrow, hopen⟩ := hb
  rw [innermost, ← h.levels, headD_append_zero, ← h.width] at hnarrow
  rw [← h.levels, ← h.width] at hopen
  have hk : (s.levels.dropWhile (s.column < ·)).headD 0 ≠ s.column := fun hk => hopen ((headD_kept h.sorted).mp hk)
  simp only [Layout.enterLine]
  rw [if_neg (by omega), if_neg hk]

/-! One lexeme -/

/-- A token ends the front of its line. -/
theorem Place.after_of_standing (hl : Standing l) : p.after l =
    { fresh := false, depth := (p.after l).depth, width := p.width + l.text.length,
      widths := if p.fresh then p.widths ++ [p.width] else p.widths } := by
  obtain ⟨hskip, hnewline, -⟩ := hl
  cases hk : l.kind <;> first | exact absurd hk hskip | exact absurd hk hnewline | simp [Place.after, hk]

theorem Place.after_entered (hl : Standing l) : p.entered.after l = p.after l := by
  obtain ⟨hskip, hnewline, -⟩ := hl
  cases hk : l.kind <;> first | exact absurd hk hskip | exact absurd hk hnewline | simp [Place.after, Place.entered, hk]

theorem Place.depth_after {sign : Symbol} (hk : l.kind = .symbol sign) : (p.after l).depth =
    if sign.opens?.isSome then p.depth + 1 else if sign.closes?.isSome then p.depth - 1 else p.depth := by
  simp [Place.after, hk]

theorem Place.depth_after_other (hk : ∀ sign, l.kind ≠ .symbol sign) : (p.after l).depth = p.depth := by
  simp only [Place.after]
  split
  · rfl
  · rfl
  · dsimp only
    split
    · next sign hs => exact absurd hs (hk sign)
    · rfl

/-- A token goes behind what there is of its line. -/
theorem Layout.Ready.token (h : s.Ready p offset) (hp : p.fresh = false) (hl : Standing l) {k : Kind}
    (hs : s.matched l = .ok s')
    (hk : Kind.ofLexeme l = .ok k) (ho : offset ≤ l.span.start) (hspan : l.span.start ≤ l.span.stop) :
    Layout.Reads { s'.emit k l.span with column := s'.column + l.text.length } (p.after l) l.span.stop := by
  obtain ⟨hlayout, heof, hother, hsign⟩ := inner_of_ofLexeme hk hl
  obtain ⟨heq, hread, hdepth⟩ : s' = { s with brackets := s'.brackets } ∧
      Kind.read (s.brackets.map Prod.fst) k = some (s'.brackets.map Prod.fst) ∧ s'.brackets.length = (p.after l).depth := by
    rw [Layout.matched] at hs
    split at hs
    · next sign hsym =>
      obtain rfl := hsign sign hsym
      rw [Place.depth_after hsym, ← h.depth]
      exact Layout.bracket_eq hs
    · next hsym =>
      obtain rfl := Except.ok.inj hs
      obtain ⟨hopens, hcloses⟩ := hother hsym
      rw [Place.depth_after_other hsym]
      exact ⟨rfl, by simp [Kind.read, hopens, hcloses, hlayout], h.depth⟩
  have hfollows : k.Follows (s.tokens.reverse.getLast?.map (·.kind)) := by
    cases k <;> trivial
  have hnot : k ≠ .dedent ∧ k ≠ .indent := by
    constructor <;> (rintro rfl; cases hlayout)
  have hstream : Stream (s.tokens.reverse ++ [⟨k, l.span⟩]) s.levels.length (s'.brackets.map Prod.fst) l.span.stop :=
    h.stream.concat hfollows (by simp [hnot]) hread ho hspan (Nat.le_refl _)
  rw [heq, Place.after_of_standing hl, hp]
  refine ⟨⟨by simpa [Layout.emit] using hstream, ?_, h.fresh.trans hp, hdepth, congrArg (· + _) h.width, h.levels, h.sorted⟩,
    fun hf => ?_, fun _ => ⟨k, rfl, hlayout⟩⟩
  · intro t ht
    rcases List.mem_cons.mp ht with rfl | ht
    · exact heof
    · exact h.marked t ht
  · have hn : s.fresh = true := hf
    rw [h.fresh, hp] at hn
    cases hn

/-- What is skipped makes the line wider. -/
theorem Layout.Reads.skip (h : s.Reads p offset) (n : Nat) {offset' : Nat} (ho : offset ≤ offset') :
    Layout.Reads { s with column := s.column + n } { p with width := p.width + n } offset' :=
  { h with stream := h.stream.mono ho, width := congrArg (· + n) h.width }

/-- A newline ends a logical line that holds a token and leaves no bracket open. -/
theorem Layout.Reads.endLine (h : s.Reads p offset) {span : Span} (ho : offset ≤ span.start) (hspan : span.start ≤ span.stop) :
    (s.endLine span).Reads { p with fresh := p.fresh || p.depth == 0, width := 0 } span.stop := by
  have hstop := Nat.le_trans ho hspan
  simp only [Layout.endLine]
  cases hb : s.brackets with
  | cons b bs =>
    have hdepth : p.depth ≠ 0 := by
      rw [← h.depth, hb]
      exact Nat.succ_ne_zero _
    rw [← hb, if_neg (by simp [hb])]
    exact { h with stream := h.stream.mono hstop, fresh := by simp [h.fresh, hdepth], width := rfl }
  | nil =>
    have hdepth : p.depth = 0 := by rw [← h.depth, hb, List.length_nil]
    simp only [List.isEmpty_nil, if_true]
    cases hf : s.fresh with
    | true =>
      simp only [if_true]
      exact { h with
        stream := h.stream.mono hstop
        fresh := by simp [hdepth]
        width := rfl
        starting := fun _ => h.starting hf
        going := nofun }
    | false =>
      obtain ⟨k, hk, hlayout⟩ := h.going hf
      have hfollows : Kind.newline.Follows (s.tokens.reverse.getLast?.map (·.kind)) := by
        rw [getLast?_reverse]
        exact ⟨k, hk, hlayout⟩
      have hs : Stream (s.tokens.reverse ++ [⟨.newline, span⟩]) s.levels.length [] span.stop := by
        have hstream := h.stream
        rw [hb] at hstream
        exact hstream.concat hfollows rfl rfl ho hspan (Nat.le_refl _)
      simp only [Bool.false_eq_true, if_false]
      exact { h with
        stream := by simpa [Layout.emit, hb] using hs
        marked := fun t ht => by
          rcases List.mem_cons.mp ht with rfl | ht
          · exact nofun
          · exact h.marked t ht
        fresh := by simp [hdepth]
        width := rfl
        starting := fun _ => ⟨hb, .inr rfl⟩
        going := nofun }

theorem Layout.step_of_standing (hl : Standing l) : s.step l = s.token l := by
  obtain ⟨hskip, hnewline, hinvalid⟩ := hl
  cases hk : l.kind with
  | skip => exact absurd hk hskip
  | newline => exact absurd hk hnewline
  | invalid => exact absurd hk hinvalid
  | _ => simp only [Layout.step, hk]

/-- In front of a token its line is entered, unless it is there already. -/
theorem Layout.Reads.enter (h : s.Reads p offset) (hb : ¬ p.Blocked) {span : Span} (ho : offset ≤ span.start) :
    ∃ s', (if s.fresh then s.enterLine span else .ok s) = .ok s' ∧ s'.Ready p.entered span.start := by
  cases hf : s.fresh with
  | true => exact h.enterLine hf hb ho
  | false =>
    have hp : p.fresh = false := h.fresh ▸ hf
    have he : p.entered = p := by
      rw [Place.entered, hp]
      exact congrArg (fun fresh => { p with fresh }) hp.symm
    exact ⟨s, rfl, he.symm ▸ { h.toReady with stream := h.stream.mono ho }⟩

/-- Each lexeme that is read moves the layout on by its width. -/
theorem Layout.Reads.step (h : s.Reads p l.span.start) (hspan : l.span.start ≤ l.span.stop) (hs : s.step l = .ok s') :
    s'.Reads (p.after l) l.span.stop := by
  by_cases hl : Standing l
  · rw [Layout.step_of_standing hl, Layout.token_eq_bind] at hs
    obtain ⟨s₁, hs₁, hs⟩ := bind_ok_iff.mp hs
    obtain ⟨s₂, hs₂, hs⟩ := bind_ok_iff.mp hs
    obtain ⟨k, hk, hs⟩ := bind_ok_iff.mp hs
    obtain rfl := Except.ok.inj hs
    have hb : ¬ p.Blocked := by
      intro hb
      rw [h.fresh, hb.1, if_pos rfl, h.enterLine_error hb] at hs₁
      cases hs₁
    obtain ⟨s₁', hs₁', hready⟩ := h.enter hb (Nat.le_refl l.span.start)
    obtain rfl := Except.ok.inj (hs₁.symm.trans hs₁')
    rw [← Place.after_entered hl]
    exact hready.token rfl hl hs₂ hk (Nat.le_refl _) hspan
  · simp only [Layout.step] at hs
    split at hs
    · cases hs
    · next hk =>
      obtain rfl := Except.ok.inj hs
      simp only [Place.after, hk]
      exact h.endLine (Nat.le_refl _) hspan
    · next hk =>
      obtain rfl := Except.ok.inj hs
      simp only [Place.after, hk]
      exact h.skip _ hspan
    · next hinvalid hnewline hskip => exact absurd ⟨hskip, hnewline, hinvalid⟩ hl

/-- What else is wrong with a token is no matter of widths. -/
theorem Layout.matched_cause {e : ParseError} (h : s.matched l = .error e) : e.cause ≠ .inconsistentDedent := by
  simp only [Layout.matched, Layout.bracket] at h
  split at h
  · split at h
    · cases h
    · split at h
      · split at h
        · cases h
        · obtain rfl := Except.error.inj h
          exact nofun
      · obtain rfl := Except.error.inj h
        exact nofun
    · cases h
  · cases h

theorem ofLexeme_cause {e : ParseError} (h : Kind.ofLexeme l = .error e) : e.cause ≠ .inconsistentDedent := by
  have hdigits : ∀ {base cs}, Token.ofDigits base cs l.span = .error e → e.cause ≠ .inconsistentDedent := by
    intro base cs hd
    simp only [Token.ofDigits] at hd
    split at hd
    · cases hd
    · obtain rfl := Except.error.inj hd
      exact nofun
  have hdouble : ∀ {cs} {f : Float → Kind}, (Token.doubleOf cs l.span).map f = .error e → e.cause ≠ .inconsistentDedent := by
    intro cs f hd
    simp only [Token.doubleOf] at hd
    split at hd
    · cases hd
    · obtain rfl := Except.error.inj hd
      exact nofun
  simp only [Kind.ofLexeme] at h
  cases hk : l.kind with
  | decimal | hex | octal | binary =>
    rw [hk] at h
    exact hdigits h
  | float | imag =>
    rw [hk] at h
    exact hdouble h
  | openString | invalid =>
    rw [hk] at h
    obtain rfl := Except.error.inj h
    exact nofun
  | string | word | symbol _ | skip | newline =>
    rw [hk] at h
    cases h

/-- A lexeme is refused for the width of its line just if it starts one that is blocked. -/
theorem Layout.Reads.step_error (h : s.Reads p l.span.start) {e : ParseError} :
    (s.step l = .error e ∧ e.cause = .inconsistentDedent) ↔ Standing l ∧ p.Blocked ∧ e = ⟨.inconsistentDedent, l.span⟩ := by
  constructor
  · rintro ⟨hs, he⟩
    by_cases hl : Standing l
    · rw [Layout.step_of_standing hl, Layout.token_eq_bind] at hs
      by_cases hb : p.Blocked
      · rw [h.fresh, hb.1, if_pos rfl, h.enterLine_error hb] at hs
        exact ⟨hl, hb, (Except.error.inj hs).symm⟩
      · obtain ⟨s₁, hs₁, -⟩ := h.enter hb (Nat.le_refl l.span.start)
        rw [hs₁] at hs
        refine absurd he ?_
        rcases bind_error_iff.mp hs with h₁ | ⟨_, -, hs⟩
        · cases h₁
        rcases bind_error_iff.mp hs with h₂ | ⟨_, -, hs⟩
        · exact Layout.matched_cause h₂
        rcases bind_error_iff.mp hs with h₃ | ⟨_, -, hs⟩
        · exact ofLexeme_cause h₃
        · cases hs
    · simp only [Layout.step] at hs
      split at hs
      · obtain rfl := Except.error.inj hs
        cases he
      · cases hs
      · cases hs
      · next hinvalid hnewline hskip => exact absurd ⟨hskip, hnewline, hinvalid⟩ hl
  · rintro ⟨hl, hb, rfl⟩
    rw [Layout.step_of_standing hl, Layout.token_eq_bind, h.fresh, hb.1, if_pos rfl, h.enterLine_error hb]
    exact ⟨rfl, rfl⟩

end CseMachine.Token
