import CseMachine.Proofs.Layout.Reading

/-!
# Layout of sources

The lexemes of a source stand one behind the other, so reading them all keeps the
tokens laid out, and closing what is open at the end leaves nothing open. The first
logical line that fits no level is where a source is refused for its indentation.
-/
namespace CseMachine

namespace Lexeme

/-- Lexemes that fill a range of the source. -/
inductive Fill (stop : Nat) : (start : Nat) → List Lexeme → Prop
  | nil : Fill stop stop []
  | cons {l : Lexeme} {ls : List Lexeme} (span : l.span.start ≤ l.span.stop) (rest : Fill stop l.span.stop ls) :
      Fill stop l.span.start (l :: ls)

theorem scan_fill (offset : Nat) (cs : List Char) : Fill (offset + Text.bytes cs) offset (scan offset cs) := by
  fun_induction scan offset cs with
  | case1 offset => exact .nil
  | case2 offset c rest kind n _ text stop ih =>
    have hbytes : stop + Text.bytes ((c :: rest).drop (max 1 n)) = offset + Text.bytes (c :: rest) := by
      rw [Nat.add_assoc, ← Text.bytes_append, List.take_append_drop]
    rw [hbytes] at ih
    exact .cons (l := ⟨kind, text, ⟨offset, stop⟩⟩) (Nat.le_add_right ..) ih

theorem Fill.of_append {start stop : Nat} {front back : List Lexeme} (h : Fill stop start (front ++ back)) :
    ∃ middle, Fill middle start front ∧ Fill stop middle back := by
  induction front generalizing start with
  | nil => exact ⟨start, .nil, h⟩
  | cons l front ih =>
    cases h with
    | cons span rest =>
      obtain ⟨middle, hfront, hback⟩ := ih rest
      exact ⟨middle, .cons span hfront, hback⟩

end Lexeme

namespace Token

open Lexeme

variable {s s' : Layout} {p : Place} {start stop : Nat} {ls : List Lexeme}

/-! All lexemes -/

theorem Layout.Reads.foldlM (h : s.Reads p start) (hl : Fill stop start ls) (hs : ls.foldlM Layout.step s = .ok s') :
    s'.Reads (ls.foldl Place.after p) stop := by
  induction hl generalizing s p with
  | nil =>
    obtain rfl := Except.ok.inj hs
    exact h
  | cons span rest ih =>
    rw [List.foldlM_cons] at hs
    obtain ⟨s₁, hs₁, hs⟩ := bind_ok_iff.mp hs
    exact ih (h.step span hs₁) hs

/-- Lexemes are refused at the first one that is refused. -/
theorem foldlM_error_iff {σ α ε : Type} {f : σ → α → Except ε σ} {s : σ} {as : List α} {e : ε} :
    as.foldlM f s = .error e ↔
      ∃ front a back s', as = front ++ a :: back ∧ front.foldlM f s = .ok s' ∧ f s' a = .error e := by
  constructor
  · intro h
    induction as generalizing s with
    | nil => cases h
    | cons a as ih =>
      rw [List.foldlM_cons] at h
      rcases bind_error_iff.mp h with h | ⟨s₁, hs₁, h⟩
      · exact ⟨[], a, as, s, rfl, rfl, h⟩
      · obtain ⟨front, b, back, s', rfl, hfront, hb⟩ := ih h
        exact ⟨a :: front, b, back, s', rfl, by rw [List.foldlM_cons]; exact bind_ok_iff.mpr ⟨s₁, hs₁, hfront⟩, hb⟩
  · rintro ⟨front, a, back, s', rfl, hfront, ha⟩
    rw [List.foldlM_append, hfront]
    refine bind_error_iff.mpr (.inr ⟨s', rfl, ?_⟩)
    rw [List.foldlM_cons]
    exact bind_error_iff.mpr (.inl ha)

/-- A lexeme is misplaced just if it starts a line where none may start. -/
theorem misplaced_iff {front : List Lexeme} {l : Lexeme} : Misplaced front l ↔ Standing l ∧ (Place.behind front).Blocked :=
  ⟨fun h => ⟨h.standing, h.fresh, h.narrow, h.unmatched⟩, fun ⟨hl, hf, hn, hu⟩ => ⟨hl, hf, hn, hu⟩⟩

theorem foldlM_inconsistentDedent_iff (hl : Fill stop 0 ls) {e : ParseError} :
    (ls.foldlM Layout.step {} = .error e ∧ e.cause = .inconsistentDedent) ↔
      ∃ front l back s, ls = front ++ l :: back ∧ front.foldlM Layout.step {} = .ok s ∧ Misplaced front l ∧
        e = ⟨.inconsistentDedent, l.span⟩ := by
  have hreads : ∀ {front l back s}, ls = front ++ l :: back → front.foldlM Layout.step {} = .ok s →
      s.Reads (Place.behind front) l.span.start := by
    rintro front l back s rfl hs
    obtain ⟨middle, hfront, hback⟩ := hl.of_append
    cases hback with
    | cons => exact Layout.reads_nil.foldlM hfront hs
  rw [foldlM_error_iff]
  constructor
  · rintro ⟨⟨front, l, back, s, heq, hs, he⟩, hcause⟩
    obtain ⟨hl, hb, he⟩ := (hreads heq hs).step_error.mp ⟨he, hcause⟩
    exact ⟨front, l, back, s, heq, hs, misplaced_iff.mpr ⟨hl, hb⟩, he⟩
  · rintro ⟨front, l, back, s, heq, hs, hm, he⟩
    obtain ⟨hl, hb⟩ := misplaced_iff.mp hm
    obtain ⟨hstep, hcause⟩ := (hreads heq hs).step_error.mpr ⟨hl, hb, he⟩
    exact ⟨⟨front, l, back, s, heq, hs, hstep⟩, hcause⟩

/-! The end of the source -/

/-- A stream that is closed is laid out once it is marked. -/
theorem Stream.laidOut {source : String} {tokens : List Token} {span : Span} {n : Nat}
    (h : Stream (tokens ++ List.replicate n ⟨.dedent, span⟩ ++ [⟨.eof, span⟩]) 0 [] (Text.bytes source.toList))
    (hmarked : ∀ t ∈ tokens, t.kind ≠ .eof)
    (hlast : tokens = [] ∧ n = 0 ∨ tokens.getLast?.map (·.kind) = some .newline) :
    LaidOut source (tokens ++ List.replicate n ⟨.dedent, span⟩ ++ [⟨.eof, span⟩]) where
  eof := by
    refine ⟨_, span, rfl, fun t ht => ?_⟩
    rcases List.mem_append.mp ht with ht | ht
    · exact hmarked t ht
    · rw [List.eq_of_mem_replicate ht]
      exact nofun
  opened := h.opened
  closed := h.depth
  follows := h.follows
  ending := by
    rcases hlast with ⟨rfl, rfl⟩ | hlast
    · exact .inl ⟨span, rfl⟩
    · obtain ⟨t, ht, hk⟩ := Option.map_eq_some_iff.mp hlast
      obtain ⟨front, rfl⟩ := List.getLast?_eq_some_iff.mp ht
      exact .inr ⟨front.map (·.kind), n, by simp [hk]⟩
  nested := Kind.nested_of_read h.brackets
  inside := h.inside
  ordered := h.apart.imp_of_mem fun ht _ hle => Nat.le_trans (h.inside _ ht).1 hle
  apart := h.apart.sublist List.filter_sublist

/-- At the end the line is ended and all levels are closed. -/
theorem Layout.Reads.finish {source : String} (h : s.Reads p (Text.bytes source.toList)) {tokens : List Token}
    (hs : s.finish (Text.bytes source.toList) = .ok tokens) : LaidOut source tokens := by
  have hend : ∀ ts : List Token, Stream ts.reverse s.levels.length [] (Text.bytes source.toList) → (∀ t ∈ ts, t.kind ≠ .eof) →
      ts = [] ∨ ts.reverse.getLast?.map (·.kind) = some .newline →
      LaidOut source (ts.reverse ++ List.replicate s.levels.length ⟨.dedent, Span.point (Text.bytes source.toList)⟩ ++
        [⟨.eof, Span.point (Text.bytes source.toList)⟩]) := by
    intro ts hstream hmarked hlast
    have hlast' : ts.reverse = [] ∧ s.levels.length = 0 ∨ ts.reverse.getLast?.map (·.kind) = some .newline := by
      rcases hlast with rfl | hlast
      · -- without tokens no level is open
        have hd := hstream.depth
        rw [List.reverse_nil, List.countP_nil, List.countP_nil, Nat.zero_add] at hd
        exact .inl ⟨rfl, hd⟩
      · exact .inr hlast
    have hclosed := hstream.dedents s.levels.length (Nat.le_refl _) (Nat.le_refl _) fun hne =>
      hlast'.resolve_left fun hn => hne hn.2
    rw [Nat.sub_self] at hclosed
    exact (hclosed.concat (t := ⟨.eof, Span.point _⟩) trivial rfl rfl (Nat.le_refl _) (Nat.le_refl _) (Nat.le_refl _)).laidOut
      (fun t ht => hmarked t (List.mem_reverse.mp ht)) hlast'
  simp only [Layout.finish] at hs
  split at hs
  · cases hs
  · next hb =>
    obtain rfl := Except.ok.inj hs
    have hstream := h.stream
    rw [hb] at hstream
    cases hf : s.fresh with
    | true => exact hend s.tokens hstream h.marked ((h.starting hf).2.imp_right fun hn => by rw [getLast?_reverse, hn])
    | false =>
      obtain ⟨k, hk, hlayout⟩ := h.going hf
      have hfollows : Kind.newline.Follows (s.tokens.reverse.getLast?.map (·.kind)) := by
        rw [getLast?_reverse]
        exact ⟨k, hk, hlayout⟩
      refine hend (⟨.newline, Span.point (Text.bytes source.toList)⟩ :: s.tokens) ?_ ?_ (.inr (by simp))
      · rw [List.reverse_cons]
        exact hstream.concat hfollows rfl rfl (Nat.le_refl _) (Nat.le_refl _) (Nat.le_refl _)
      · intro t ht
        rcases List.mem_cons.mp ht with rfl | ht
        · exact nofun
        · exact h.marked t ht

theorem finish_cause {e : ParseError} (h : s.finish stop = .error e) : e.cause ≠ .inconsistentDedent := by
  simp only [Layout.finish] at h
  split at h
  · obtain rfl := Except.error.inj h
    exact nofun
  · cases h

theorem code_text_iff {e : ParseError} : e.code.text = "E0004" ↔ e.cause = .inconsistentDedent := by
  have htext : ∀ c : Code, c.text = "E0004" ↔ c = .inconsistentDedent := by
    intro c
    cases c <;> decide
  rw [htext, ParseError.code]
  cases e.cause <;> simp [ParseError.Cause.code]

/-- The tokens of a source are laid out, and a source is refused for its indentation just where a
logical line is narrower than the innermost open level and has the width of none. -/
theorem lex_laidOut (source : String) :
    (∀ tokens, lex source = .ok tokens → LaidOut source tokens) ∧
      ∀ e, (lex source = .error e ∧ e.code.text = "E0004") ↔
        ∃ front l back s, Lexeme.scan 0 source.toList = front ++ l :: back ∧ front.foldlM Layout.step {} = .ok s ∧
          Misplaced front l ∧ e = ⟨.inconsistentDedent, l.span⟩ := by
  have hfill : Fill (Text.bytes source.toList) 0 (scan 0 source.toList) := by
    simpa using scan_fill 0 source.toList
  constructor
  · intro tokens h
    obtain ⟨s, hs, h⟩ := bind_ok_iff.mp h
    exact (Layout.reads_nil.foldlM hfill hs).finish h
  · intro e
    rw [← foldlM_inconsistentDedent_iff hfill, code_text_iff]
    refine and_congr_left fun hcause => bind_error_iff.trans ⟨fun h => ?_, .inl⟩
    rcases h with h | ⟨s, -, h⟩
    · exact h
    · exact absurd hcause (finish_cause h)

theorem lex_laidOut_branches : ∃ tokens, lex "if a:\n    b((1,\n2))\nc\n" = .ok tokens ∧
    LaidOut "if a:\n    b((1,\n2))\nc\n" tokens := by
  have hok : (lex "if a:\n    b((1,\n2))\nc\n").isOk = true := by decide +kernel
  cases h : lex "if a:\n    b((1,\n2))\nc\n" with
  | ok tokens => exact ⟨tokens, rfl, (lex_laidOut _).1 tokens h⟩
  | error e =>
    rw [h] at hok
    cases hok

/-- Between two open levels there is no place for a line. -/
example : (lex "if a:\n    b\n  c\n").isOk = false := by decide +kernel

end Token
end CseMachine
