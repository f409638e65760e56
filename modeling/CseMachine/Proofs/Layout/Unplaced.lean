import CseMachine.Proofs.Layout.Reading

/-!
# Forgetting places

Spans say where lexemes and tokens stand, and the layout does no more than pass them on.
Lexemes whose spans are forgotten are read into the same tokens, their spans forgotten, or
are refused for the same cause. And a text is cut into the same pieces wherever it starts.
-/
namespace CseMachine

def Lexeme.unplaced (l : Lexeme) : Lexeme := { l with span := .none }

def Token.unplaced (t : Token) : Token := { t with span := .none }

def ParseError.unplaced (e : ParseError) : ParseError := { e with span := .none }

/-- An outcome that forgets where an error is and, by the given function, where anything else is. -/
def unplacedBy {α β : Type} (f : α → β) : Except ParseError α → Except ParseError β
  | .ok a => .ok (f a)
  | .error e => .error e.unplaced

theorem unplacedBy_bind {α β γ δ : Type} {f : β → δ} {g : α → Except ParseError β} {k : α → γ}
    {g' : γ → Except ParseError δ} (x : Except ParseError α) (h : ∀ a, unplacedBy f (g a) = g' (k a)) :
    unplacedBy f (x >>= g) = unplacedBy k x >>= g' := by
  cases x with
  | ok a => exact h a
  | error e => rfl

namespace Token

open Lexeme (scan)

/-! One lexeme -/

def Layout.unplaced (s : Layout) : Layout :=
  { s with brackets := s.brackets.map fun b => (b.1, .none), tokens := s.tokens.map Token.unplaced }

variable {s : Layout} {l : Lexeme}

theorem Layout.unplaced_enterLine (s : Layout) (span : Span) :
    unplacedBy Layout.unplaced (s.enterLine span) = s.unplaced.enterLine .none := by
  have hlevels : s.unplaced.levels = s.levels := rfl
  have hcolumn : s.unplaced.column = s.column := rfl
  simp only [Layout.enterLine, hlevels, hcolumn]
  by_cases hdeep : s.levels.headD 0 < s.column
  · rw [if_pos hdeep, if_pos hdeep]
    rfl
  · rw [if_neg hdeep, if_neg hdeep]
    by_cases hkept : (s.levels.dropWhile (s.column < ·)).headD 0 = s.column
    · rw [if_pos hkept, if_pos hkept]
      simp only [unplacedBy, Layout.unplaced, List.map_append, List.map_replicate]
      rfl
    · rw [if_neg hkept, if_neg hkept]
      rfl

theorem Layout.unplaced_matched (s : Layout) (l : Lexeme) :
    unplacedBy Layout.unplaced (s.matched l) = s.unplaced.matched l.unplaced := by
  have hkind : l.unplaced.kind = l.kind := rfl
  simp only [Layout.matched, Layout.bracket, hkind]
  cases l.kind with
  | symbol sign =>
    dsimp only
    cases hopens : sign.opens? with
    | some b => rfl
    | none =>
      cases hcloses : sign.closes? with
      | none => rfl
      | some b =>
        cases hb : s.brackets with
        | nil => simp [hb, Layout.unplaced, unplacedBy, ParseError.unplaced, Lexeme.unplaced]
        | cons first rest =>
          by_cases ho : first.1 = b
          · simp [hb, ho, Layout.unplaced, unplacedBy]
          · simp [hb, ho, Layout.unplaced, unplacedBy, ParseError.unplaced, Lexeme.unplaced]
  | _ => rfl

theorem unplaced_ofLexeme (l : Lexeme) : unplacedBy id (Kind.ofLexeme l) = Kind.ofLexeme l.unplaced := by
  have hdigits : ∀ base cs, unplacedBy id (Token.ofDigits base cs l.span) = Token.ofDigits base cs .none := by
    intro base cs
    simp only [Token.ofDigits]
    split <;> rfl
  have hdouble : ∀ (cs : List Char) (f : Float → Kind),
      unplacedBy id ((Token.doubleOf cs l.span).map f) = (Token.doubleOf cs .none).map f := by
    intro cs f
    simp only [Token.doubleOf]
    split <;> rfl
  have hkind : l.unplaced.kind = l.kind := rfl
  simp only [Kind.ofLexeme, hkind]
  cases l.kind with
  | decimal | hex | octal | binary => exact hdigits _ _
  | float | imag => exact hdouble _ _
  | _ => rfl

theorem Layout.unplaced_token (s : Layout) (l : Lexeme) :
    unplacedBy Layout.unplaced (s.token l) = s.unplaced.token l.unplaced := by
  have hfresh : s.unplaced.fresh = s.fresh := rfl
  rw [Layout.token_eq_bind, Layout.token_eq_bind, hfresh]
  have henter : unplacedBy Layout.unplaced (if s.fresh then s.enterLine l.span else .ok s) =
      if s.fresh then s.unplaced.enterLine l.unplaced.span else .ok s.unplaced := by
    cases s.fresh with
    | true => exact s.unplaced_enterLine l.span
    | false => rfl
  rw [← henter]
  refine unplacedBy_bind _ fun s₁ => ?_
  rw [← s₁.unplaced_matched l]
  refine unplacedBy_bind _ fun s₂ => ?_
  rw [← unplaced_ofLexeme l]
  exact unplacedBy_bind _ fun kind => rfl

theorem Layout.unplaced_endLine (s : Layout) (span : Span) : (s.endLine span).unplaced = s.unplaced.endLine .none := by
  have hfresh : s.unplaced.fresh = s.fresh := rfl
  have hbrackets : s.unplaced.brackets.isEmpty = s.brackets.isEmpty := List.isEmpty_map
  simp only [Layout.endLine, hfresh, hbrackets]
  cases s.brackets.isEmpty <;> cases s.fresh <;> rfl

theorem Layout.unplaced_step (s : Layout) (l : Lexeme) :
    unplacedBy Layout.unplaced (s.step l) = s.unplaced.step l.unplaced := by
  have hkind : l.unplaced.kind = l.kind := rfl
  have htoken := s.unplaced_token l
  simp only [Layout.step, hkind]
  cases l.kind with
  | newline => exact congrArg Except.ok (s.unplaced_endLine l.span)
  | skip | invalid => rfl
  | _ => exact htoken

/-! All lexemes -/

theorem Layout.unplaced_foldlM (ls : List Lexeme) (s : Layout) :
    unplacedBy Layout.unplaced (ls.foldlM Layout.step s) = (ls.map Lexeme.unplaced).foldlM Layout.step s.unplaced := by
  induction ls generalizing s with
  | nil => rfl
  | cons l ls ih =>
    rw [List.foldlM_cons, List.map_cons, List.foldlM_cons, ← s.unplaced_step l]
    exact unplacedBy_bind _ ih

theorem Layout.unplaced_finish (s : Layout) (stop : Nat) :
    unplacedBy (List.map Token.unplaced) (s.finish stop) = s.unplaced.finish 0 := by
  cases hb : s.brackets with
  | cons first rest => simp [Layout.finish, Layout.unplaced, hb, unplacedBy, ParseError.unplaced]
  | nil =>
    have hnone : Span.point 0 = .none := rfl
    cases hf : s.fresh <;>
      simp [Layout.finish, Layout.unplaced, Layout.emit, hb, hf, unplacedBy, Token.unplaced, hnone]

end Token

/-- A text is cut alike wherever it starts. -/
theorem Lexeme.unplaced_scan (offset offset' : Nat) (cs : List Char) :
    (scan offset cs).map unplaced = (scan offset' cs).map unplaced := by
  fun_induction scan offset cs generalizing offset' with
  | case1 => simp [scan]
  | case2 offset c rest kind n hl text stop ih =>
    rw [scan, hl]
    simp only [List.map_cons]
    rw [ih]
    rfl

end CseMachine
