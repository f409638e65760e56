import CseMachine.Parse.Expression
import CseMachine.Proofs.Spans

/-!
# What the readers of expressions take

The readers of expressions stand on levels, from atoms to all expressions, and
each asks the one below it. If what is next starts no prefix of a higher level
and what is behind goes on with nothing, a reader takes what a lower one takes.
With operators between them, two parts are read where the operator is.
-/
namespace CseMachine.Parse

open Token (Kind)

variable {α β : Type} {p q : List Token → Prop} {P : α → Prop} {Q : β → Prop} {ts rest mid : List Token}
  {k : Kind} {span : Span}

/-- The reader succeeds with such a value and leaves the rest. -/
def Takes (P : α → Prop) (rest : List Token) (r : Except ParseError (α × Subtype p)) : Prop :=
  ∃ a h, r = .ok (a, ⟨rest, h⟩) ∧ P a

theorem Takes.ok {a : α} (h : p rest) (ha : P a) : Takes P rest (.ok (a, (⟨rest, h⟩ : Subtype p))) := ⟨a, h, rfl, ha⟩

theorem Takes.bind {r : Except ParseError (α × Subtype p)} {f : α × Subtype p → Except ParseError (β × Subtype q)}
    (h : Takes P mid r) (hf : ∀ a h, P a → Takes Q rest (f (a, ⟨mid, h⟩))) : Takes Q rest (r >>= f) := by
  obtain ⟨a, hm, rfl, ha⟩ := h
  exact hf a hm ha

/-- The node is this tree with spans. -/
def Shows (tree n : Node) : Prop := n.bare = tree

/-! Single tokens -/

/-- No operator and no literal is the end marker. -/
theorem ne_eof {f : Kind → Option α} (hf : f .eof = none) {a : α} (h : f k = some a) : k ≠ .eof := by
  rintro rfl
  rw [hf] at h
  cases h

theorem takes_expect : Takes (fun _ => True) rest (expect k (⟨k, span⟩ :: rest)) := by
  rw [expect, if_pos rfl]
  exact .ok _ trivial

theorem eat_next : eat k (⟨k, span⟩ :: ts) = (true, ⟨ts, Nat.le_succ _⟩) := by rw [eat, if_pos rfl]

theorem eat_other (h : (next ts).kind ≠ k) : eat k ts = (false, ⟨ts, Nat.le_refl _⟩) := by
  cases ts with
  | nil => rfl
  | cons t ts =>
    rw [eat]
    exact if_neg h

theorem takes_expectName {x : String} : Takes (· = (x, span)) rest (expectName (⟨.ident x, span⟩ :: rest)) :=
  .ok _ rfl

/-! What goes on with an expression, and what starts one -/

/-- How loosely a token binds that goes on with what stands before it. -/
def looseness : Kind → Nat
  | .symbol .lparen | .symbol .lbracket => 1
  | .symbol .starStar => 2
  | .symbol .star | .symbol .slash | .symbol .slashSlash | .symbol .percent => 4
  | .symbol .plus | .symbol .minus => 5
  | .symbol .eqEq | .symbol .notEq | .symbol .lt | .symbol .ltEq | .symbol .gt | .symbol .gtEq => 6
  | .keyword .and => 8
  | .keyword .or => 9
  | .keyword .if_ => 10
  | _ => 12

/-- The level that a token is a prefix of. -/
def prefixLevel : Kind → Nat
  | .symbol .plus | .symbol .minus => 3
  | .keyword .not => 7
  | .keyword .lambda => 11
  | _ => 0

/-- What is next does not go on with an expression of this level. -/
def Ends (level : Nat) (ts : List Token) : Prop := level < looseness (next ts).kind

/-- What is next is no prefix above this level. -/
def Starts (level : Nat) (ts : List Token) : Prop := prefixLevel (next ts).kind ≤ level

theorem Ends.mono {m n : Nat} (h : Ends n ts) (hmn : m ≤ n) : Ends m ts := Nat.lt_of_le_of_lt hmn h

theorem Starts.mono {m n : Nat} (h : Starts m ts) (hmn : m ≤ n) : Starts n ts := Nat.le_trans h hmn

theorem looseness_of_productOp {op : BinaryOp} (h : productOp? k = some op) : looseness k = 4 := by
  unfold productOp? at h
  split at h
  all_goals first | rfl | cases h

theorem looseness_of_sumOp {op : BinaryOp} (h : sumOp? k = some op) : looseness k = 5 := by
  unfold sumOp? at h
  split at h
  all_goals first | rfl | cases h

theorem looseness_of_relation {op : BinaryOp} (h : relation? k = some op) : looseness k = 6 := by
  unfold relation? at h
  split at h
  all_goals first | rfl | cases h

theorem prefixLevel_of_signOp {op : UnaryOp} (h : signOp? k = some op) : prefixLevel k = 3 := by
  unfold signOp? at h
  split at h
  all_goals first | rfl | cases h

/-! Nothing goes on -/

section

variable {head left : Node}

theorem primaryTail_ends (h : Ends 1 ts) : primaryTail head ts = .ok (head, ⟨ts, Nat.le_refl _⟩) := by
  unfold primaryTail
  split
  · exact absurd h (by simp [Ends, next, looseness])
  · exact absurd h (by simp [Ends, next, looseness])
  · rfl

theorem productTail_ends (h : Ends 4 ts) : productTail left ts = .ok (left, ⟨ts, Nat.le_refl _⟩) := by
  unfold productTail
  split
  · next t rest =>
    split
    · next op hop => exact absurd h (by simp [Ends, next, looseness_of_productOp hop])
    · rfl
  · rfl

theorem sumTail_ends (h : Ends 5 ts) : sumTail left ts = .ok (left, ⟨ts, Nat.le_refl _⟩) := by
  unfold sumTail
  split
  · next t rest =>
    split
    · next op hop => exact absurd h (by simp [Ends, next, looseness_of_sumOp hop])
    · rfl
  · rfl

theorem conjunctionTail_ends (h : Ends 8 ts) : conjunctionTail left ts = .ok (left, ⟨ts, Nat.le_refl _⟩) := by
  unfold conjunctionTail
  split
  · exact absurd h (by simp [Ends, next, looseness])
  · rfl

theorem disjunctionTail_ends (h : Ends 9 ts) : disjunctionTail left ts = .ok (left, ⟨ts, Nat.le_refl _⟩) := by
  unfold disjunctionTail
  split
  · exact absurd h (by simp [Ends, next, looseness])
  · rfl

end

/-! Levels -/

/-- The reader of a level. -/
def reader : Nat → (ts : List Token) → Read Node ts
  | 0 => atom
  | 1 => primary
  | 2 => power
  | 3 => factor
  | 4 => product
  | 5 => sum
  | 6 => comparison
  | 7 => negation
  | 8 => conjunction
  | 9 => disjunction
  | 10 => ternary
  | _ + 11 => expr

section

variable {P : Node → Prop}

theorem primary_of_atom (h : Takes P rest (atom ts)) (he : Ends 1 rest) : Takes P rest (primary ts) := by
  rw [primary]
  refine h.bind fun a hr ha => ?_
  dsimp only
  rw [primaryTail_ends he]
  exact .ok _ ha

theorem power_of_primary (h : Takes P rest (primary ts)) (he : Ends 2 rest) : Takes P rest (power ts) := by
  rw [power]
  refine h.bind fun a hr ha => ?_
  dsimp only
  split
  · exact absurd he (by simp [Ends, next, looseness])
  · exact .ok _ ha

theorem factor_of_power (h : Takes P rest (power ts)) (hs : Starts 2 ts) : Takes P rest (factor ts) := by
  unfold factor
  split
  · next t ts =>
    split
    · next op hop => exact absurd hs (by simp [Starts, next, prefixLevel_of_signOp hop])
    · exact h
  · exact h

theorem product_of_factor (h : Takes P rest (factor ts)) (he : Ends 4 rest) : Takes P rest (product ts) := by
  rw [product]
  refine h.bind fun a hr ha => ?_
  dsimp only
  rw [productTail_ends he]
  exact .ok _ ha

theorem sum_of_product (h : Takes P rest (product ts)) (he : Ends 5 rest) : Takes P rest (sum ts) := by
  rw [sum]
  refine h.bind fun a hr ha => ?_
  dsimp only
  rw [sumTail_ends he]
  exact .ok _ ha

theorem comparison_of_sum (h : Takes P rest (sum ts)) (he : Ends 6 rest) : Takes P rest (comparison ts) := by
  rw [comparison]
  refine h.bind fun a hr ha => ?_
  dsimp only
  split
  · next _ t r _ =>
    split
    · next op hop => exact absurd he (by simp [Ends, next, looseness_of_relation hop])
    · exact .ok _ ha
  · exact .ok _ ha

theorem negation_of_comparison (h : Takes P rest (comparison ts)) (hs : Starts 6 ts) : Takes P rest (negation ts) := by
  unfold negation
  split
  · exact absurd hs (by simp [Starts, next, prefixLevel])
  · exact h

theorem conjunction_of_negation (h : Takes P rest (negation ts)) (he : Ends 8 rest) : Takes P rest (conjunction ts) := by
  rw [conjunction]
  refine h.bind fun a hr ha => ?_
  dsimp only
  rw [conjunctionTail_ends he]
  exact .ok _ ha

theorem disjunction_of_conjunction (h : Takes P rest (conjunction ts)) (he : Ends 9 rest) :
    Takes P rest (disjunction ts) := by
  rw [disjunction]
  refine h.bind fun a hr ha => ?_
  dsimp only
  rw [disjunctionTail_ends he]
  exact .ok _ ha

theorem ternary_of_disjunction (h : Takes P rest (disjunction ts)) (he : Ends 10 rest) : Takes P rest (ternary ts) := by
  rw [ternary]
  refine h.bind fun a hr ha => ?_
  dsimp only
  split
  · exact absurd he (by simp [Ends, next, looseness])
  · exact .ok _ ha

theorem expr_of_ternary (h : Takes P rest (ternary ts)) (hs : Starts 10 ts) : Takes P rest (expr ts) := by
  unfold expr
  split
  · exact absurd hs (by simp [Starts, next, prefixLevel])
  · exact h

/-- The reader of a level takes what the reader below it takes. -/
theorem reader_succ {level : Nat} (h : Takes P rest (reader level ts)) (hs : Starts level ts)
    (he : Ends (level + 1) rest) : Takes P rest (reader (level + 1) ts) := by
  fun_cases reader level with
  | case1 => exact primary_of_atom h he
  | case2 => exact power_of_primary h he
  | case3 => exact factor_of_power h hs
  | case4 => exact product_of_factor h he
  | case5 => exact sum_of_product h he
  | case6 => exact comparison_of_sum h he
  | case7 => exact negation_of_comparison h hs
  | case8 => exact conjunction_of_negation h he
  | case9 => exact disjunction_of_conjunction h he
  | case10 => exact ternary_of_disjunction h he
  | case11 => exact expr_of_ternary h hs
  | case12 => exact h

/-- A reader takes what one of a lower level takes. -/
theorem Takes.climb {m n : Nat} (h : Takes P rest (reader m ts)) (hmn : m ≤ n) (hs : Starts m ts) (he : Ends n rest) :
    Takes P rest (reader n ts) := by
  induction hmn with
  | refl => exact h
  | step hmn ih => exact reader_succ (ih (he.mono (Nat.le_succ _))) (hs.mono hmn) he

end

end CseMachine.Parse
