import CseMachine.Parse
import CseMachine.Proofs.Boundaries
import CseMachine.Proofs.Layout

/-!
# Where tokens stand

Lexemes are cut from the source one behind the other, and no character is cut by them. So are
their tokens, and what the layout adds to them stands in the gaps; an error of the lexer points
to a lexeme.
-/
namespace CseMachine

variable {cs : List Char} {n offset : Nat}

namespace Span

/-- The range is cut from the text: its ends are in order and within the text, and no character is
cut by them. -/
structure CutFrom (s : Span) (cs : List Char) : Prop where
  ordered : s.start ≤ s.stop
  inside : s.stop ≤ Text.bytes cs
  start : Text.IsBoundary cs s.start
  stop : Text.IsBoundary cs s.stop

/-- The first range lies within the second. -/
structure Within (s t : Span) : Prop where
  start : t.start ≤ s.start
  stop : s.stop ≤ t.stop

variable {s t u : Span}

theorem cutFrom_of_boundaries (ho : s.start ≤ s.stop) (hs : Text.IsBoundary cs s.start) (ht : Text.IsBoundary cs s.stop) :
    s.CutFrom cs :=
  ⟨ho, ht.le, hs, ht⟩

theorem cutFrom_point (h : Text.IsBoundary cs n) : (point n).CutFrom cs := cutFrom_of_boundaries (Nat.le_refl _) h h

theorem CutFrom.merge (hs : s.CutFrom cs) (ht : t.CutFrom cs) : (s.merge t).CutFrom cs := by
  have ho := hs.ordered
  have ho' := ht.ordered
  refine cutFrom_of_boundaries ?_ ?_ ?_
  · simp only [merge_start, merge_stop]
    omega
  · rcases Nat.le_total s.start t.start with h | h
    · rw [merge_start, Nat.min_eq_left h]
      exact hs.start
    · rw [merge_start, Nat.min_eq_right h]
      exact ht.start
  · rcases Nat.le_total s.stop t.stop with h | h
    · rw [merge_stop, Nat.max_eq_right h]
      exact ht.stop
    · rw [merge_stop, Nat.max_eq_left h]
      exact hs.stop

/-- In a text within the limit a span can hold the range. -/
theorem CutFrom.ofRange? (h : s.CutFrom cs) (hcs : Text.bytes cs ≤ limit) : Span.ofRange? s.start s.stop = .ok s := by
  have ho := h.ordered
  have hi := h.inside
  rw [Span.ofRange?, if_neg (by omega), if_neg (by omega)]

theorem Within.refl (s : Span) : s.Within s := ⟨Nat.le_refl _, Nat.le_refl _⟩

theorem Within.trans (h : s.Within t) (h' : t.Within u) : s.Within u :=
  ⟨Nat.le_trans h'.start h.start, Nat.le_trans h.stop h'.stop⟩

theorem within_merge_left (s t : Span) : s.Within (s.merge t) := ⟨Nat.min_le_left .., Nat.le_max_left ..⟩

theorem within_merge_right (s t : Span) : t.Within (s.merge t) := ⟨Nat.min_le_right .., Nat.le_max_right ..⟩

end Span

/-! Results -/

/-- A result that has the property, or an error that points to a range of the text. -/
def Traced {α : Type} (cs : List Char) (P : α → Prop) : Except ParseError α → Prop
  | .ok a => P a
  | .error e => e.span.CutFrom cs

namespace Traced

variable {α β : Type} {P : α → Prop} {Q : β → Prop} {r : Except ParseError α}

theorem ok {a : α} (h : P a) : Traced cs P (.ok a) := h

theorem pure {a : α} (h : P a) : Traced cs P (Pure.pure a) := h

theorem error {e : ParseError} (h : e.span.CutFrom cs) : Traced cs P (.error e) := h

theorem bind {f : α → Except ParseError β} (h : Traced cs P r) (hf : ∀ a, P a → Traced cs Q (f a)) :
    Traced cs Q (r >>= f) := by
  cases r with
  | error e => exact h
  | ok a => exact hf a h

theorem map {f : α → β} (h : Traced cs P r) (hf : ∀ a, P a → Q (f a)) : Traced cs Q (r.map f) := by
  cases r with
  | error e => exact h
  | ok a => exact hf a h

end Traced

/-! Tokens -/

namespace Token

/-- From the offset on the tokens stand one behind the other, and the end marker is where the text
ends. -/
inductive Ahead (cs : List Char) : Nat → List Token → Prop
  | done {lo : Nat} (inside : lo ≤ Text.bytes cs) : Ahead cs lo [⟨.eof, Span.point (Text.bytes cs)⟩]
  | cons {lo : Nat} {t : Token} {ts : List Token} (kind : t.kind ≠ .eof) (start : lo ≤ t.span.start)
      (range : t.span.CutFrom cs) (rest : Ahead cs t.span.stop ts) : Ahead cs lo (t :: ts)

namespace Ahead

variable {lo lo' : Nat} {t : Token} {ts : List Token}

theorem mono (h : Ahead cs lo ts) (hlo : lo' ≤ lo) : Ahead cs lo' ts := by
  cases h with
  | done inside => exact .done (Nat.le_trans hlo inside)
  | cons kind start range rest => exact .cons kind (Nat.le_trans hlo start) range rest

theorem tail (h : Ahead cs lo (t :: ts)) (hk : t.kind ≠ .eof) : Ahead cs t.span.stop ts := by
  cases h with
  | done => exact absurd rfl hk
  | cons _ _ _ rest => exact rest

/-- What is read next starts behind the offset and is cut from the text. -/
theorem head (h : Ahead cs lo (t :: ts)) : lo ≤ t.span.start ∧ t.span.CutFrom cs := by
  cases h with
  | done inside => exact ⟨inside, Span.cutFrom_point (Text.isBoundary_bytes cs)⟩
  | cons _ start range _ => exact ⟨start, range⟩

theorem ne_nil (h : Ahead cs lo ts) : ts ≠ [] := by cases h <;> exact List.cons_ne_nil _ _

/-- Dedents stand at one point. -/
theorem dedents (h : Ahead cs n ts) (hlo : lo ≤ n) (hn : Text.IsBoundary cs n) (count : Nat) :
    Ahead cs lo (List.replicate count ⟨.dedent, Span.point n⟩ ++ ts) := by
  induction count generalizing lo with
  | zero => exact h.mono hlo
  | succ count ih => exact .cons (by simp) hlo (Span.cutFrom_point hn) (ih (Nat.le_refl n))

end Ahead

end Token

/-! Lexemes -/

theorem Lexeme.scan_cutFrom (front rest : List Char) : ∀ l ∈ scan (Text.bytes front) rest, l.span.CutFrom (front ++ rest) := by
  generalize ho : Text.bytes front = offset
  fun_induction scan offset rest generalizing front with
  | case1 => exact List.forall_mem_nil _
  | case2 offset c rest kind n _ text stop ih =>
    subst ho
    have hcut : front ++ c :: rest = front ++ text ++ (c :: rest).drop (max 1 n) := by
      rw [List.append_assoc, List.take_append_drop]
    have hstop : Text.bytes (front ++ text) = stop := Text.bytes_append front text
    rw [hcut]
    refine List.forall_mem_cons.mpr ⟨Span.cutFrom_of_boundaries (Nat.le_add_right ..) ?_ ?_, ih _ hstop⟩
    · exact List.append_assoc front text _ ▸ Text.isBoundary_append front _
    · exact hstop ▸ Text.isBoundary_append _ _

namespace Token

variable {s : Layout} {l : Lexeme}

theorem Kind.ofLexeme_traced (hl : l.span.CutFrom cs) : Traced cs (fun _ => True) (Kind.ofLexeme l) := by
  have hdigits : ∀ base text, Traced cs (fun _ => True) (Token.ofDigits base text l.span) := by
    intro base text
    simp only [Token.ofDigits]
    split
    · exact .ok trivial
    · exact .error hl
  have hdouble : ∀ text, Traced cs (fun _ => True) (Token.doubleOf text l.span) := by
    intro text
    simp only [Token.doubleOf]
    split
    · exact .ok trivial
    · exact .error hl
  simp only [Kind.ofLexeme]
  cases l.kind with
  | decimal | hex | octal | binary => exact hdigits _ _
  | float | imag => exact (hdouble _).map fun _ _ => trivial
  | openString | invalid => exact .error hl
  | string | word | symbol _ | skip | newline => exact .ok trivial

namespace Layout

/-- Behind the tokens so far there is room from the offset on, and open brackets can be pointed to. -/
structure Aligned (s : Layout) (cs : List Char) (offset : Nat) : Prop where
  room : ∀ ts, Ahead cs offset ts → Ahead cs 0 (s.tokens.reverse ++ ts)
  brackets : ∀ b ∈ s.brackets, b.2.CutFrom cs

namespace Aligned

theorem nil : ({} : Layout).Aligned cs 0 := ⟨fun _ h => h, List.forall_mem_nil _⟩

theorem mono {offset' : Nat} (h : s.Aligned cs offset) (ho : offset ≤ offset') : s.Aligned cs offset' :=
  ⟨fun ts hts => h.room ts (hts.mono ho), h.brackets⟩

/-- A token takes the room up to its end. -/
theorem emit {kind : Kind} {span : Span} (h : s.Aligned cs offset) (hk : kind ≠ .eof) (ho : offset ≤ span.start)
    (hspan : span.CutFrom cs) : (s.emit kind span).Aligned cs span.stop := by
  refine ⟨fun ts hts => ?_, h.brackets⟩
  rw [Layout.emit, List.reverse_cons, List.append_assoc]
  exact h.room _ (.cons hk ho hspan hts)

theorem enterLine {span : Span} (h : s.Aligned cs offset) (ho : offset ≤ span.start) (hspan : span.CutFrom cs) :
    Traced cs (·.Aligned cs span.start) (s.enterLine span) := by
  simp only [Layout.enterLine]
  split
  · have hindent : (s.emit .indent (Span.point span.start)).Aligned cs span.start :=
      h.emit (by simp) ho (Span.cutFrom_point hspan.start)
    exact .ok ⟨hindent.room, h.brackets⟩
  · split
    · refine .ok ⟨fun ts hts => ?_, h.brackets⟩
      rw [List.reverse_append, List.reverse_replicate, List.append_assoc]
      exact h.room _ (hts.dedents ho hspan.start _)
    · exact .error hspan

theorem matched (h : s.Aligned cs offset) (hl : l.span.CutFrom cs) : Traced cs (·.Aligned cs offset) (s.matched l) := by
  simp only [Layout.matched, Layout.bracket]
  split
  · split
    · exact .ok ⟨h.room, List.forall_mem_cons.mpr ⟨hl, h.brackets⟩⟩
    · split
      · next hb =>
        split
        · exact .ok ⟨h.room, fun b hm => h.brackets b (hb ▸ .tail _ hm)⟩
        · exact .error hl
      · exact .error hl
    · exact .ok h
  · exact .ok h

theorem endLine {span : Span} (h : s.Aligned cs offset) (ho : offset ≤ span.start) (hspan : span.CutFrom cs) :
    (s.endLine span).Aligned cs span.stop := by
  have hstop := h.mono (Nat.le_trans ho hspan.ordered)
  simp only [Layout.endLine]
  split
  · split
    · exact ⟨hstop.room, hstop.brackets⟩
    · have hnewline : (s.emit .newline span).Aligned cs span.stop := h.emit (by simp) ho hspan
      exact ⟨hnewline.room, h.brackets⟩
  · exact ⟨hstop.room, hstop.brackets⟩

theorem token (h : s.Aligned cs l.span.start) (hl : l.span.CutFrom cs) (hs : Standing l) :
    Traced cs (·.Aligned cs l.span.stop) (s.token l) := by
  rw [Layout.token_eq_bind]
  refine Traced.bind (P := (·.Aligned cs l.span.start)) ?_ fun s₁ h₁ => (h₁.matched hl).bind fun s₂ h₂ => ?_
  · split
    · exact h.enterLine (Nat.le_refl _) hl
    · exact .ok h
  · have hkind := Kind.ofLexeme_traced hl
    cases hk : Kind.ofLexeme l with
    | error e =>
      rw [hk] at hkind
      exact .error hkind
    | ok kind =>
      have hinner := h₂.emit (inner_of_ofLexeme hk hs).2.1 (Nat.le_refl _) hl
      exact .ok ⟨hinner.room, hinner.brackets⟩

/-- Each lexeme takes its room. -/
theorem step (h : s.Aligned cs l.span.start) (hl : l.span.CutFrom cs) : Traced cs (·.Aligned cs l.span.stop) (s.step l) := by
  by_cases hs : Standing l
  · rw [Layout.step_of_standing hs]
    exact h.token hl hs
  · simp only [Layout.step]
    split
    · exact .error hl
    · exact .ok (h.endLine (Nat.le_refl _) hl)
    · exact .ok ⟨(h.mono hl.ordered).room, h.brackets⟩
    · next hinvalid hnewline hskip => exact absurd ⟨hskip, hnewline, hinvalid⟩ hs

theorem foldlM {ls : List Lexeme} {start stop : Nat} (h : s.Aligned cs start) (hfill : Lexeme.Fill stop start ls)
    (hls : ∀ l ∈ ls, l.span.CutFrom cs) : Traced cs (·.Aligned cs stop) (ls.foldlM Layout.step s) := by
  induction hfill generalizing s with
  | nil => exact .ok h
  | cons _ _ ih =>
    obtain ⟨hl, hrest⟩ := List.forall_mem_cons.mp hls
    exact (h.step hl).bind fun s' h' => ih h' hrest

theorem finish (h : s.Aligned cs (Text.bytes cs)) : Traced cs (Ahead cs 0) (s.finish (Text.bytes cs)) := by
  have hend := Text.isBoundary_bytes cs
  simp only [Layout.finish]
  split
  · next bracket span _ hb => exact .error (h.brackets (bracket, span) (hb ▸ List.mem_cons_self))
  · have hline : (if s.fresh then s else s.emit .newline (Span.point (Text.bytes cs))).Aligned cs (Text.bytes cs) := by
      split
      · exact h
      · exact h.emit (by simp) (Nat.le_refl _) (Span.cutFrom_point hend)
    rw [Traced, List.append_assoc]
    exact hline.room _ (Ahead.dedents (.done (Nat.le_refl _)) (Nat.le_refl _) hend _)

end Aligned
end Layout

/-- The tokens of a source stand one behind the other, and what is no token is a range of the source. -/
theorem lex_ahead (source : String) : Traced source.toList (Ahead source.toList 0) (lex source) := by
  have hfill : Lexeme.Fill (Text.bytes source.toList) 0 (Lexeme.scan 0 source.toList) := by
    simpa using Lexeme.scan_fill 0 source.toList
  exact (Layout.Aligned.nil.foldlM hfill (Lexeme.scan_cutFrom [] source.toList)).bind fun s h => h.finish

end Token
end CseMachine
