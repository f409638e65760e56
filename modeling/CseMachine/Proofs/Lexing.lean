import CseMachine.Lexeme

/-!
# The longest piece

What `longest` finds is the piece of some rule, and no rule has a longer one. A
rule takes no piece that starts with a character outside of its class, so most
rules are out of the race at the first character.
-/
namespace CseMachine.Lexeme

variable {cs : List Char} {c : Char}

/-- The better of what was found so far and what a rule takes. -/
def better (cs : List Char) (best : Kind × Nat) (rule : Kind × (List Char → Nat)) : Kind × Nat :=
  if best.2 < rule.2 cs then (rule.1, rule.2 cs) else best

theorem longest_eq_foldl (cs : List Char) : longest cs = rules.foldl (better cs) (.invalid, 0) := rfl

theorem le_better (best : Kind × Nat) (rule : Kind × (List Char → Nat)) :
    best.2 ≤ (better cs best rule).2 ∧ rule.2 cs ≤ (better cs best rule).2 := by
  simp only [better]
  split
  · next h => exact ⟨Nat.le_of_lt h, Nat.le_refl _⟩
  · next h => exact ⟨Nat.le_refl _, Nat.le_of_not_lt h⟩

theorem le_foldl_better (rs : List (Kind × (List Char → Nat))) (best : Kind × Nat) :
    best.2 ≤ (rs.foldl (better cs) best).2 ∧ ∀ r ∈ rs, r.2 cs ≤ (rs.foldl (better cs) best).2 := by
  induction rs generalizing best with
  | nil => exact ⟨Nat.le_refl _, by simp⟩
  | cons first rest ih =>
    obtain ⟨hbest, hrest⟩ := ih (better cs best first)
    obtain ⟨hb, hf⟩ := @le_better cs best first
    refine ⟨Nat.le_trans hb hbest, ?_⟩
    intro r hr
    rcases List.mem_cons.mp hr with rfl | hr
    · exact Nat.le_trans hf hbest
    · exact hrest r hr

/-- No rule takes a longer piece. -/
theorem le_longest {r : Kind × (List Char → Nat)} (hr : r ∈ rules) : r.2 cs ≤ (longest cs).2 :=
  (le_foldl_better rules (.invalid, 0)).2 r hr

theorem foldl_better_mem (rs : List (Kind × (List Char → Nat))) (best : Kind × Nat) :
    rs.foldl (better cs) best = best ∨ ∃ r ∈ rs, rs.foldl (better cs) best = (r.1, r.2 cs) := by
  induction rs generalizing best with
  | nil => exact .inl rfl
  | cons first rest ih =>
    rw [List.foldl_cons]
    rcases ih (better cs best first) with h | h
    · rw [h]
      simp only [better]
      split
      · exact .inr ⟨first, .head _, rfl⟩
      · exact .inl rfl
    · obtain ⟨r, hr, h⟩ := h
      exact .inr ⟨r, .tail _ hr, h⟩

/-- A rule wins if no rule takes more and all that take as much are of its kind. -/
theorem longest_eq {k : Kind} {rule : List Char → Nat} {n : Nat} (hr : (k, rule) ∈ rules) (hn : rule cs = n)
    (hpos : 0 < n) (hle : ∀ r ∈ rules, r.2 cs ≤ n) (hlt : ∀ r ∈ rules, r.1 ≠ k → r.2 cs < n) :
    longest cs = (k, n) := by
  have hmost : n ≤ (longest cs).2 := hn ▸ @le_longest cs (k, rule) hr
  rcases @foldl_better_mem cs rules (.invalid, 0) with h | ⟨best, hbest, h⟩
  · rw [longest_eq_foldl, h] at hmost
    exact absurd hpos (Nat.not_lt_of_le hmost)
  · rw [longest_eq_foldl, h] at hmost ⊢
    by_cases hb : best.1 = k
    · rw [hb, Nat.le_antisymm (hle best hbest) hmost]
    · exact absurd (hlt best hbest hb) (Nat.not_lt_of_le hmost)

/-- A piece that is the longest is cut off. -/
theorem scan_append {piece rest : List Char} {k : Kind} (offset : Nat) (hne : piece ≠ [])
    (h : longest (piece ++ rest) = (k, piece.length)) :
    scan offset (piece ++ rest) =
      ⟨k, piece, ⟨offset, offset + Text.bytes piece⟩⟩ :: scan (offset + Text.bytes piece) rest := by
  cases piece with
  | nil => exact absurd rfl hne
  | cons c piece =>
    have hmax : max 1 (c :: piece).length = (c :: piece).length := by
      simp only [List.length_cons]
      omega
    rw [List.cons_append] at h ⊢
    rw [scan, h]
    simp only [hmax]
    rw [← List.cons_append, List.take_left, List.drop_left]

/-! First characters -/

/-- A rule of this kind takes only pieces that start so. -/
def Kind.starts : Kind → Char → Bool
  | .skip, c => isBlank c || c = '#' || c = '\\'
  | .newline, c => c = '\n'
  | .word, c => isWordStart c
  | .decimal, c | .hex, c | .octal, c | .binary, c => c.isDigit
  | .float, c | .imag, c => c.isDigit || c = '.'
  | .string, c | .openString, c => c = '"' || c = '\''
  | .symbol s, c => s.text.toList.head? = some c
  | .invalid, _ => false

theorem comment_eq_zero (h : c ≠ '#') : comment (c :: cs) = 0 := by
  unfold comment
  split
  · next heq => exact absurd (List.cons.inj heq).1 h
  · rfl

theorem joined_eq_zero (h : c ≠ '\\') : joined (c :: cs) = 0 := by
  unfold joined
  split
  · next heq => exact absurd (List.cons.inj heq).1 h
  · next heq => exact absurd (List.cons.inj heq).1 h
  · rfl

theorem newline_eq_zero (h : c ≠ '\n') : newline (c :: cs) = 0 := by
  unfold newline
  split
  · next heq => exact absurd (List.cons.inj heq).1 h
  · rfl

theorem decimal_eq_zero (h : c.isDigit = false) : decimal (c :: cs) = 0 := by
  simp only [decimal, h]
  rfl

theorem marked_eq_zero (low high : Char) (p : Char → Bool) (h : c.isDigit = false) :
    marked low high p (c :: cs) = 0 := by
  unfold marked
  split
  · next heq =>
    obtain ⟨rfl, _⟩ := List.cons.inj heq
    cases h
  · rfl

theorem float_eq_zero (hd : c.isDigit = false) (hp : c ≠ '.') : float (c :: cs) = 0 := by
  simp only [float, decimal_eq_zero hd, List.drop_zero]
  split
  · next heq => exact absurd (List.cons.inj heq).1 hp
  · rfl

theorem imag_eq_zero (hd : c.isDigit = false) (hp : c ≠ '.') : imag (c :: cs) = 0 := by
  simp only [imag, float_eq_zero hd hp, decimal_eq_zero hd]
  rfl

theorem openString_eq_zero (h : ¬(c = '"' ∨ c = '\'')) : openString (c :: cs) = 0 := if_neg h

theorem string_eq_zero (h : ¬(c = '"' ∨ c = '\'')) : string (c :: cs) = 0 := by
  simp only [string, openString_eq_zero h]
  rfl

theorem symbol_eq_zero (s : Symbol) (h : s.text.toList.head? ≠ some c) : symbol s (c :: cs) = 0 := by
  refine if_neg fun hp => h ?_
  obtain ⟨rest, hr⟩ := List.isPrefixOf_iff_prefix.mp hp
  cases ht : s.text.toList with
  | nil => cases s <;> cases ht
  | cons d text =>
    rw [ht] at hr
    rw [(List.cons.inj hr).1]
    rfl

/-- A rule takes nothing that starts otherwise. -/
theorem rule_eq_zero {r : Kind × (List Char → Nat)} (hr : r ∈ rules) (h : r.1.starts c = false) :
    r.2 (c :: cs) = 0 := by
  simp only [rules, List.mem_append, List.mem_map, List.mem_cons, List.not_mem_nil, or_false] at hr
  rcases hr with (rfl | rfl | rfl | rfl | rfl | rfl | rfl | rfl | rfl | rfl | rfl | rfl | rfl) | ⟨s, -, rfl⟩
  all_goals simp only [Kind.starts, Bool.or_eq_false_iff, decide_eq_false_iff_not] at h
  · simp only [blank, runLength, List.takeWhile_cons, h.1.1]
    rfl
  · exact comment_eq_zero h.1.2
  · exact joined_eq_zero h.2
  · exact newline_eq_zero h
  · simp only [word, h]
    rfl
  · exact decimal_eq_zero h
  · exact marked_eq_zero _ _ _ h
  · exact marked_eq_zero _ _ _ h
  · exact marked_eq_zero _ _ _ h
  · exact float_eq_zero h.1 h.2
  · exact imag_eq_zero h.1 h.2
  · exact string_eq_zero (not_or.mpr h)
  · exact openString_eq_zero (not_or.mpr h)
  · exact symbol_eq_zero s h

end CseMachine.Lexeme
