import CseMachine.Proofs.Layout.Streams

/-!
# Logical lines

A line that ends where no bracket is open ends a logical line, which starts with its
first token. Its width is what stands in front of that token on its line. A logical
line closes the levels that are not narrower than it and opens its own. The layout
keeps just these levels, as long as each line that is not wider than the innermost
level has the width of one that is open.
-/
namespace CseMachine.Token

/-- Widths of the open levels behind logical lines of these widths, innermost first. Level zero is
always open. -/
def openLevels (widths : List Nat) : List Nat := widths.foldl (fun levels w => w :: levels.filter (· < w)) [0]

def innermost (widths : List Nat) : Nat := (openLevels widths).headD 0

theorem openLevels_concat (widths : List Nat) (w : Nat) :
    openLevels (widths ++ [w]) = w :: (openLevels widths).filter (· < w) := by
  simp [openLevels, List.foldl_append]

/-- Where the reading of lexemes stands. -/
structure Place where
  /-- No token of the logical line has been read. -/
  fresh : Bool := true
  /-- Number of open brackets. -/
  depth : Nat := 0
  /-- Characters since the last newline. -/
  width : Nat := 0
  /-- Widths of the logical lines so far. -/
  widths : List Nat := []

namespace Place

/-- The place behind one more lexeme. -/
def after (p : Place) (l : Lexeme) : Place :=
  match l.kind with
  | .newline => { p with fresh := p.fresh || p.depth == 0, width := 0 }
  | .skip => { p with width := p.width + l.text.length }
  | kind => {
    fresh := false
    depth := match kind with
      | .symbol s => if s.opens?.isSome then p.depth + 1 else if s.closes?.isSome then p.depth - 1 else p.depth
      | _ => p.depth
    width := p.width + l.text.length
    widths := if p.fresh then p.widths ++ [p.width] else p.widths }

def behind (ls : List Lexeme) : Place := ls.foldl after {}

end Place

/-- The lexeme stands for a token. -/
def Standing (l : Lexeme) : Prop := l.kind ≠ .skip ∧ l.kind ≠ .newline ∧ l.kind ≠ .invalid

/-- A logical line starts with the lexeme and fits no level: it is narrower than the innermost open
one, and none has its width. -/
structure Misplaced (front : List Lexeme) (l : Lexeme) : Prop where
  standing : Standing l
  fresh : (Place.behind front).fresh = true
  narrow : (Place.behind front).width < innermost (Place.behind front).widths
  unmatched : (Place.behind front).width ∉ openLevels (Place.behind front).widths

/-! Levels as the layout keeps them -/

section

variable {levels : List Nat} {w : Nat} (h : (levels ++ [0]).Pairwise (· > ·))
include h

/-- The levels that are left once the wider ones are closed start with the width of the line just if
it is open. -/
theorem headD_kept : (levels.dropWhile (w < ·)).headD 0 = w ↔ w ∈ levels ++ [0] := by
  induction levels with
  | nil => simp [eq_comm]
  | cons l levels ih =>
    obtain ⟨hl, hrest⟩ := List.pairwise_cons.mp h
    by_cases hw : w < l
    · rw [List.dropWhile_cons_of_pos (by simpa using hw), ih hrest]
      have hne : w ≠ l := Nat.ne_of_lt hw
      simp [hne]
    · rw [List.dropWhile_cons_of_neg (by simpa using hw), List.cons_append, List.mem_cons, List.headD_cons]
      refine ⟨fun he => .inl he.symm, fun hm => ?_⟩
      rcases hm with rfl | hm
      · rfl
      · have := hl w hm
        omega

theorem kept_eq (hk : (levels.dropWhile (w < ·)).headD 0 = w) :
    levels.dropWhile (w < ·) ++ [0] = w :: (levels ++ [0]).filter (· < w) := by
  induction levels with
  | nil =>
    obtain rfl : 0 = w := hk
    rfl
  | cons l levels ih =>
    obtain ⟨hl, hrest⟩ := List.pairwise_cons.mp h
    by_cases hw : w < l
    · rw [List.dropWhile_cons_of_pos (by simpa using hw)] at hk ⊢
      rw [List.cons_append, List.filter_cons_of_neg (by simp; omega)]
      exact ih hrest hk
    · rw [List.dropWhile_cons_of_neg (by simpa using hw)] at hk ⊢
      obtain rfl : l = w := hk
      rw [List.cons_append, List.filter_cons_of_neg (by simp), List.filter_eq_self.mpr fun x hx => by simpa using hl x hx]

/-- A line that is wider than the innermost level closes none. -/
theorem deeper_eq (hw : levels.headD 0 < w) : w :: levels ++ [0] = w :: (levels ++ [0]).filter (· < w) := by
  rw [List.cons_append, List.filter_eq_self.mpr fun x hx => ?_]
  cases levels with
  | nil =>
    obtain rfl := List.mem_singleton.mp hx
    simpa using hw
  | cons l levels =>
    have hl : l < w := hw
    rcases List.mem_cons.mp hx with rfl | hx
    · simpa using hl
    · have := (List.pairwise_cons.mp h).1 x hx
      simp only [decide_eq_true_eq]
      omega

theorem sorted_opened : (w :: (levels ++ [0]).filter (· < w)).Pairwise (· > ·) :=
  List.pairwise_cons.mpr ⟨fun x hx => by simpa using (List.mem_filter.mp hx).2, h.sublist List.filter_sublist⟩

end

theorem headD_append_zero (levels : List Nat) : (levels ++ [0]).headD 0 = levels.headD 0 := by cases levels <;> rfl

end CseMachine.Token
