import CseMachine.Proofs.Grammar.Phrases

/-!
# What is read is a phrase

Each reader takes a phrase of its category off the front, and its node is the tree of
the phrase with spans. A reader of what goes on with a phrase extends the one it is given.
-/
namespace CseMachine

theorem ProperParams.bare {ps : List Param} (h : ProperParams ps) : ProperParams (ps.map Param.bare) := by
  refine ⟨?_, ?_⟩
  · rw [List.map_map]
    exact h.distinct
  · intro q hq
    rw [← List.map_dropLast] at hq
    obtain ⟨p, hp, rfl⟩ := List.mem_map.mp hq
    exact h.single p hp

end CseMachine

namespace CseMachine.Parse

open Token (Kind)

variable {ts us vs before : List Token} {k : Kind} {c : Category} {x : Node} {p : List Token → Prop}

/-- What has been read, after what stands before it, is a phrase with this tree. -/
def Reads (c : Category) (before ts : List Token) (r : Node × Subtype p) : Prop :=
  ∃ us, us ++ r.2.val = ts ∧ Derives c (before ++ us) r.1.bare

section

variable {q : List Token → Prop} {rest left : List Token} {hp : p left} {hq : q left}

/-- The phrase ends before the first token. -/
theorem Reads.nothing (h : Derives c before x.bare) : Reads c before left (x, ⟨left, hp⟩) :=
  ⟨[], rfl, (List.append_nil before).symm ▸ h⟩

/-- Tokens that stand before what is read belong to it. -/
theorem Reads.prepend (h : Reads c (before ++ us) rest (x, ⟨left, hp⟩)) (hus : us ++ rest = ts) :
    Reads c before ts (x, ⟨left, hq⟩) := by
  obtain ⟨vs, hvs, hx⟩ := h
  refine ⟨us ++ vs, ?_, List.append_assoc before us vs ▸ hx⟩
  rw [List.append_assoc, hvs, hus]

/-- A phrase of one category is read as one of another. -/
theorem Reads.lift {c' : Category} {r : Node × Subtype p} (h : Reads c before ts r)
    (hc : ∀ {us x}, Derives c us x → Derives c' us x) : Reads c' before ts r := by
  obtain ⟨us, hus, hx⟩ := h
  exact ⟨us, hus, hc hx⟩

end

theorem expect_yields : Yields (fun r => ts = ⟨k, r.1⟩ :: r.2.val) (expect k ts) := by
  unfold expect
  split
  · next t rest =>
    split
    · next h => exact .ok (by rw [← h])
    · exact .error
  · exact .error

theorem expectName_yields : Yields (fun r => ts = ⟨.ident r.1.1, r.1.2⟩ :: r.2.val) (expectName ts) := by
  unfold expectName
  split
  · exact .ok rfl
  · exact .error

/-! Parameters -/

theorem eat_spells {name : String} {span : Span} {rest : List Token} (h : (eat (.symbol .star) ts).2.val = ⟨.ident name, span⟩ :: rest) :
    ∃ us, us ++ rest = ts ∧ SpellsParam us ⟨name, (eat (.symbol .star) ts).1, .none⟩ := by
  cases ts with
  | nil => cases h
  | cons t ts =>
    rw [eat] at h ⊢
    split at h
    · next hk =>
      rw [if_pos hk]
      obtain ⟨kind, star⟩ := t
      obtain rfl : kind = .symbol .star := hk
      obtain rfl : ts = _ := h
      exact ⟨_, rfl, .rest⟩
    · next hk =>
      rw [if_neg hk]
      obtain ⟨rfl, rfl⟩ := List.cons.inj h
      exact ⟨_, rfl, .plain⟩

/-- Parameters are read from names with commas between them. -/
theorem params_reads (close : Kind) (read : List Param) (ts : List Token) :
    Yields (fun r => ∃ items us, us ++ r.2.val = ts ∧ (∀ i ∈ items, SpellsParam i.1 i.2) ∧ Listed items us ∧
      r.1.map Param.bare = read.reverse.map Param.bare ++ items.map (·.2)) (params close read ts) := by
  unfold params
  split
  · exact .ok ⟨[], [], rfl, nofun, .nil, (List.append_nil _).symm⟩
  · have hstar := @eat_spells ts
    generalize eat (.symbol .star) ts = eaten at hstar ⊢
    obtain ⟨rest, afterStar, h₁⟩ := eaten
    dsimp only at hstar ⊢
    refine expectName_yields.bind ?_
    rintro ⟨⟨name, span⟩, afterName, h₂⟩ hname
    dsimp only at hname ⊢
    obtain ⟨us, hus, hspelt⟩ := hstar hname
    have hbare : ((⟨name, rest, span⟩ :: read).reverse.map Param.bare : List Param) =
        read.reverse.map Param.bare ++ [⟨name, rest, .none⟩] := by
      rw [List.reverse_cons, List.map_append]
      rfl
    split
    · exact .error
    · split
      · exact .error
      · split
        · next comma afterComma h₂ _ =>
          have hlt : afterComma.length < ts.length := by
            simp only [List.length_cons] at h₂
            omega
          refine (params_reads close _ afterComma).bind ?_
          rintro ⟨ps, left, h₃⟩ ⟨items, vs, hvs, hspells, hlisted, hps⟩
          refine .pure ⟨(us, ⟨name, rest, .none⟩) :: items, us ++ ⟨.symbol .comma, comma⟩ :: vs, ?_, ?_, .cons hlisted, ?_⟩
          · rw [List.append_assoc, List.cons_append, hvs, hus]
          · exact List.forall_mem_cons.mpr ⟨hspelt, hspells⟩
          · rw [hps, hbare, List.append_assoc]
            rfl
        · refine .pure ⟨[(us, ⟨name, rest, .none⟩)], us, hus, ?_, .last, hbare⟩
          exact List.forall_mem_singleton.mpr hspelt
termination_by ts.length

/-! Expressions -/

mutual

theorem expr_reads (ts : List Token) : Yields (Reads .expr [] ts) (expr ts) := by
  unfold expr
  split
  · next start rest =>
    refine Yields.bind (P := fun r => ProperParams r.1 ∧ _)
      (fun r hr => ⟨params_proper _ [] rest List.nodup_nil nofun r hr, params_reads _ [] rest r hr⟩) ?_
    rintro ⟨ps, r₁, h₁⟩ ⟨hproper, items, us, hus, hspelt, hlisted, hps⟩
    refine expect_yields.bind ?_
    rintro ⟨colon, r₂, h₂⟩ hcolon
    refine (expr_reads r₂).bind ?_
    rintro ⟨value, r₃, h₃⟩ ⟨vs, hvs, hvalue⟩
    dsimp only at hps hus hcolon hvs
    subst hvs hcolon hus
    have hbare := hproper.bare
    rw [hps] at hbare
    refine .pure ⟨⟨.keyword .lambda, start⟩ :: us ++ ⟨.symbol .colon, colon⟩ :: vs, by simp, ?_⟩
    have hself : (lambdaNode start ps value).bare =
        .lambda .none ⟨none, ps.map Param.bare, .block .none [] [.ret .none (some value.bare)], []⟩ := rfl
    rw [hself, hps]
    exact .lambda items hspelt hlisted hbare hvalue
  · exact fun r hr => (ternary_reads ts r hr).lift .exprTernary
termination_by (ts.length, 11)
decreasing_by all_goals subst_vars; simp only [Prod.lex_def, List.length_cons, true_and]; omega

theorem ternary_reads (ts : List Token) : Yields (Reads .ternary [] ts) (ternary ts) := by
  simp only [ternary]
  refine (disjunction_reads ts).bind ?_
  rintro ⟨yes, r₁, h₁⟩ ⟨us, hus, hyes⟩
  dsimp only at hus ⊢
  split
  · next _ word r₂ h₁ =>
    have h₂ : r₂.length < ts.length := by simp only [List.length_cons] at h₁; omega
    refine (disjunction_reads r₂).bind ?_
    rintro ⟨test, r₃, h₃⟩ ⟨vs, hvs, htest⟩
    refine expect_yields.bind ?_
    rintro ⟨word', r₄, h₄⟩ helse
    have hlt : r₄.length < ts.length := by
      dsimp only at h₄
      omega
    refine (expr_reads r₄).bind ?_
    rintro ⟨no, r₅, h₅⟩ ⟨ws, hws, hno⟩
    dsimp only at hvs helse hws
    subst hws helse hvs hus
    exact .pure ⟨us ++ ⟨.keyword .if_, word⟩ :: (vs ++ ⟨.keyword .else_, word'⟩ :: ws), by simp, .conditional hyes htest hno⟩
  · exact .pure ⟨us, hus, .ternaryDisjunction hyes⟩
termination_by (ts.length, 10)
decreasing_by all_goals subst_vars; simp only [Prod.lex_def, true_and]; omega

theorem disjunction_reads (ts : List Token) : Yields (Reads .disjunction [] ts) (disjunction ts) := by
  simp only [disjunction]
  refine (conjunction_reads ts).bind ?_
  rintro ⟨left, r₁, h₁⟩ ⟨us, hus, hleft⟩
  refine (disjunctionTail_reads (.disjunctionConjunction hleft) r₁).bind ?_
  rintro ⟨all, r₂, h₂⟩ hall
  exact .pure (hall.prepend hus)
termination_by (ts.length, 9)
decreasing_by all_goals simp only [Prod.lex_def, true_and]; omega

theorem disjunctionTail_reads {before : List Token} {left : Node} (hl : Derives .disjunction before left.bare) (ts : List Token) :
    Yields (Reads .disjunction before ts) (disjunctionTail left ts) := by
  unfold disjunctionTail
  split
  · next word rest =>
    refine (conjunction_reads rest).bind ?_
    rintro ⟨right, r₁, h₁⟩ ⟨us, hus, hright⟩
    have hor : Derives .disjunction (before ++ ⟨.keyword .or, word⟩ :: us) (disjoin word left right).bare := .or hl hright
    refine (disjunctionTail_reads hor r₁).bind ?_
    rintro ⟨all, r₂, h₂⟩ hall
    exact .pure (hall.prepend (congrArg (_ :: ·) hus))
  · exact .pure (.nothing hl)
termination_by (ts.length, 9)
decreasing_by all_goals subst_vars; simp only [Prod.lex_def, List.length_cons]; omega

theorem conjunction_reads (ts : List Token) : Yields (Reads .conjunction [] ts) (conjunction ts) := by
  simp only [conjunction]
  refine (negation_reads ts).bind ?_
  rintro ⟨left, r₁, h₁⟩ ⟨us, hus, hleft⟩
  refine (conjunctionTail_reads (.conjunctionNegation hleft) r₁).bind ?_
  rintro ⟨all, r₂, h₂⟩ hall
  exact .pure (hall.prepend hus)
termination_by (ts.length, 8)
decreasing_by all_goals simp only [Prod.lex_def, true_and]; omega

theorem conjunctionTail_reads {before : List Token} {left : Node} (hl : Derives .conjunction before left.bare) (ts : List Token) :
    Yields (Reads .conjunction before ts) (conjunctionTail left ts) := by
  unfold conjunctionTail
  split
  · next word rest =>
    refine (negation_reads rest).bind ?_
    rintro ⟨right, r₁, h₁⟩ ⟨us, hus, hright⟩
    have hand : Derives .conjunction (before ++ ⟨.keyword .and, word⟩ :: us) (conjoin word left right).bare := .and hl hright
    refine (conjunctionTail_reads hand r₁).bind ?_
    rintro ⟨all, r₂, h₂⟩ hall
    exact .pure (hall.prepend (congrArg (_ :: ·) hus))
  · exact .pure (.nothing hl)
termination_by (ts.length, 8)
decreasing_by all_goals subst_vars; simp only [Prod.lex_def, List.length_cons]; omega

theorem negation_reads (ts : List Token) : Yields (Reads .negation [] ts) (negation ts) := by
  unfold negation
  split
  · next word rest =>
    refine (negation_reads rest).bind ?_
    rintro ⟨operand, r₁, h₁⟩ ⟨us, hus, hoperand⟩
    dsimp only at hus
    subst hus
    exact .pure ⟨⟨.keyword .not, word⟩ :: us, rfl, .not hoperand⟩
  · exact fun r hr => (comparison_reads ts r hr).lift .negationComparison
termination_by (ts.length, 7)
decreasing_by all_goals subst_vars; simp only [Prod.lex_def, List.length_cons, true_and]; omega

theorem comparison_reads (ts : List Token) : Yields (Reads .comparison [] ts) (comparison ts) := by
  simp only [comparison]
  refine (sum_reads ts).bind ?_
  rintro ⟨left, r₁, h₁⟩ ⟨us, hus, hleft⟩
  dsimp only at hus ⊢
  split
  · next _ t r₂ h₁ =>
    have h₂ : r₂.length < ts.length := by simp only [List.length_cons] at h₁; omega
    split
    · next op hop =>
      refine (sum_reads r₂).bind ?_
      rintro ⟨right, r₃, h₃⟩ ⟨vs, hvs, hright⟩
      dsimp only at hvs ⊢
      subst hvs hus
      split
      · exact .error
      · exact .pure ⟨us ++ t :: vs, by simp, .relation hop hleft hright⟩
    · exact .pure ⟨us, hus, .comparisonSum hleft⟩
  · exact .pure ⟨us, hus, .comparisonSum hleft⟩
termination_by (ts.length, 6)
decreasing_by all_goals subst_vars; simp only [Prod.lex_def, true_and]; omega

theorem sum_reads (ts : List Token) : Yields (Reads .sum [] ts) (sum ts) := by
  simp only [sum]
  refine (product_reads ts).bind ?_
  rintro ⟨left, r₁, h₁⟩ ⟨us, hus, hleft⟩
  refine (sumTail_reads (.sumProduct hleft) r₁).bind ?_
  rintro ⟨all, r₂, h₂⟩ hall
  exact .pure (hall.prepend hus)
termination_by (ts.length, 5)
decreasing_by all_goals simp only [Prod.lex_def, true_and]; omega

theorem sumTail_reads {before : List Token} {left : Node} (hl : Derives .sum before left.bare) (ts : List Token) :
    Yields (Reads .sum before ts) (sumTail left ts) := by
  unfold sumTail
  split
  · next t rest =>
    split
    · next op hop =>
      refine (product_reads rest).bind ?_
      rintro ⟨right, r₁, h₁⟩ ⟨us, hus, hright⟩
      have hsum : Derives .sum (before ++ ⟨t.kind, t.span⟩ :: us) (binary op left right).bare := .sumOp hop hl hright
      refine (sumTail_reads hsum r₁).bind ?_
      rintro ⟨all, r₂, h₂⟩ hall
      exact .pure (hall.prepend (congrArg (_ :: ·) hus))
    · exact .pure (.nothing hl)
  · exact .pure (.nothing hl)
termination_by (ts.length, 5)
decreasing_by all_goals subst_vars; simp only [Prod.lex_def, List.length_cons]; omega

theorem product_reads (ts : List Token) : Yields (Reads .product [] ts) (product ts) := by
  simp only [product]
  refine (factor_reads ts).bind ?_
  rintro ⟨left, r₁, h₁⟩ ⟨us, hus, hleft⟩
  refine (productTail_reads (.productFactor hleft) r₁).bind ?_
  rintro ⟨all, r₂, h₂⟩ hall
  exact .pure (hall.prepend hus)
termination_by (ts.length, 4)
decreasing_by all_goals simp only [Prod.lex_def, true_and]; omega

theorem productTail_reads {before : List Token} {left : Node} (hl : Derives .product before left.bare) (ts : List Token) :
    Yields (Reads .product before ts) (productTail left ts) := by
  unfold productTail
  split
  · next t rest =>
    split
    · next op hop =>
      refine (factor_reads rest).bind ?_
      rintro ⟨right, r₁, h₁⟩ ⟨us, hus, hright⟩
      have hproduct : Derives .product (before ++ ⟨t.kind, t.span⟩ :: us) (binary op left right).bare := .productOp hop hl hright
      refine (productTail_reads hproduct r₁).bind ?_
      rintro ⟨all, r₂, h₂⟩ hall
      exact .pure (hall.prepend (congrArg (_ :: ·) hus))
    · exact .pure (.nothing hl)
  · exact .pure (.nothing hl)
termination_by (ts.length, 4)
decreasing_by all_goals subst_vars; simp only [Prod.lex_def, List.length_cons]; omega

theorem factor_reads (ts : List Token) : Yields (Reads .factor [] ts) (factor ts) := by
  unfold factor
  split
  · next t rest =>
    split
    · next op hop =>
      refine (factor_reads rest).bind ?_
      rintro ⟨operand, r₁, h₁⟩ ⟨us, hus, hoperand⟩
      dsimp only at hus
      subst hus
      exact .pure ⟨t :: us, rfl, .sign hop hoperand⟩
    · exact fun r hr => (power_reads (t :: rest) r hr).lift .factorPower
  · exact fun r hr => (power_reads [] r hr).lift .factorPower
termination_by (ts.length, 3)
decreasing_by all_goals subst_vars; simp only [Prod.lex_def, List.length_cons, true_and]; omega

theorem power_reads (ts : List Token) : Yields (Reads .power [] ts) (power ts) := by
  simp only [power]
  refine (primary_reads ts).bind ?_
  rintro ⟨base, r₁, h₁⟩ ⟨us, hus, hbase⟩
  dsimp only at hus ⊢
  split
  · next _ sign r₂ h₁ =>
    have h₂ : r₂.length < ts.length := by simp only [List.length_cons] at h₁; omega
    refine (factor_reads r₂).bind ?_
    rintro ⟨exponent, r₃, h₃⟩ ⟨vs, hvs, hexponent⟩
    dsimp only at hvs
    subst hvs hus
    exact .pure ⟨us ++ ⟨.symbol .starStar, sign⟩ :: vs, by simp, .power hbase hexponent⟩
  · exact .pure ⟨us, hus, .powerPrimary hbase⟩
termination_by (ts.length, 2)
decreasing_by all_goals subst_vars; simp only [Prod.lex_def, true_and]; omega

theorem primary_reads (ts : List Token) : Yields (Reads .primary [] ts) (primary ts) := by
  simp only [primary]
  refine (atom_reads ts).bind ?_
  rintro ⟨head, r₁, h₁⟩ ⟨us, hus, hhead⟩
  refine (primaryTail_reads (.primaryAtom hhead) r₁).bind ?_
  rintro ⟨all, r₂, h₂⟩ hall
  exact .pure (hall.prepend hus)
termination_by (ts.length, 1)
decreasing_by all_goals simp only [Prod.lex_def, true_and]; omega

theorem primaryTail_reads {before : List Token} {head : Node} (hh : Derives .primary before head.bare) (ts : List Token) :
    Yields (Reads .primary before ts) (primaryTail head ts) := by
  unfold primaryTail
  split
  · next start rest =>
    refine (commaList_reads _ rest).bind ?_
    rintro ⟨args, r₁, h₁⟩ ⟨items, us, hus, hitems, hlisted, hargs⟩
    refine expect_yields.bind ?_
    rintro ⟨stop, r₂, h₂⟩ hstop
    dsimp only at hus hargs hstop
    have hcall : Derives .primary (before ++ ⟨.symbol .lparen, start⟩ :: (us ++ [⟨.symbol .rparen, stop⟩]))
        (Node.call (head.span.merge stop) head args).bare := by
      show Derives _ _ (.call .none head.bare (bareAll args))
      rw [bareAll_eq_map, hargs]
      exact .call items hh hitems hlisted
    refine (primaryTail_reads hcall r₂).bind ?_
    rintro ⟨all, r₃, h₃⟩ hall
    subst hstop hus
    exact .pure (hall.prepend (by simp))
  · next start rest =>
    refine (expr_reads rest).bind ?_
    rintro ⟨index, r₁, h₁⟩ ⟨us, hus, hindex⟩
    refine expect_yields.bind ?_
    rintro ⟨stop, r₂, h₂⟩ hstop
    have hsubscript : Derives .primary (before ++ ⟨.symbol .lbracket, start⟩ :: (us ++ [⟨.symbol .rbracket, stop⟩]))
        (Node.subscript (head.span.merge stop) head index).bare := .subscript hh hindex
    refine (primaryTail_reads hsubscript r₂).bind ?_
    rintro ⟨all, r₃, h₃⟩ hall
    dsimp only at hus hstop
    subst hstop hus
    exact .pure (hall.prepend (by simp))
  · exact .pure (.nothing hh)
termination_by (ts.length, 1)
decreasing_by all_goals subst_vars; simp only [Prod.lex_def, List.length_cons]; omega

theorem commaList_reads (close : Kind) (ts : List Token) :
    Yields (fun r => ∃ items us, us ++ r.2.val = ts ∧ (∀ i ∈ items, Derives .expr i.1 i.2) ∧ Listed items us ∧
      r.1.map Node.bare = items.map (·.2)) (commaList close ts) := by
  unfold commaList
  split
  · exact .ok ⟨[], [], rfl, nofun, .nil, rfl⟩
  · refine (expr_reads ts).bind ?_
    rintro ⟨item, r₁, h₁⟩ ⟨us, hus, hitem⟩
    dsimp only at hus ⊢
    split
    · next _ comma r₂ h₁ =>
      have h₂ : r₂.length < ts.length := by simp only [List.length_cons] at h₁; omega
      refine (commaList_reads close r₂).bind ?_
      rintro ⟨all, r₃, h₃⟩ ⟨items, vs, hvs, hitems, hlisted, hall⟩
      dsimp only at hvs hall
      subst hvs hus
      refine .pure ⟨(us, item.bare) :: items, us ++ ⟨.symbol .comma, comma⟩ :: vs, by simp, ?_, .cons hlisted, ?_⟩
      · exact List.forall_mem_cons.mpr ⟨hitem, hitems⟩
      · exact congrArg (item.bare :: ·) hall
    · exact .pure ⟨[(us, item.bare)], us, hus, List.forall_mem_singleton.mpr hitem, .last, rfl⟩
termination_by (ts.length, 12)
decreasing_by all_goals subst_vars; simp only [Prod.lex_def, true_and]; omega

theorem atom_reads (ts : List Token) : Yields (Reads .atom [] ts) (atom ts) := by
  unfold atom
  split
  · next name span rest => exact .ok ⟨[⟨.ident name, span⟩], rfl, .name⟩
  · next start rest =>
    refine (expr_reads rest).bind ?_
    rintro ⟨inner, r₁, h₁⟩ ⟨us, hus, hinner⟩
    refine expect_yields.bind ?_
    rintro ⟨stop, r₂, h₂⟩ hstop
    dsimp only at hus hstop
    subst hstop hus
    refine .pure ⟨⟨.symbol .lparen, start⟩ :: (us ++ [⟨.symbol .rparen, stop⟩]), by simp, ?_⟩
    exact .paren hinner
  · next start rest =>
    refine (commaList_reads _ rest).bind ?_
    rintro ⟨all, r₁, h₁⟩ ⟨items, us, hus, hitems, hlisted, hall⟩
    refine expect_yields.bind ?_
    rintro ⟨stop, r₂, h₂⟩ hstop
    dsimp only at hus hstop hall
    subst hstop hus
    refine .pure ⟨⟨.symbol .lbracket, start⟩ :: (us ++ [⟨.symbol .rbracket, stop⟩]), by simp, ?_⟩
    show Derives _ _ (.list .none (bareAll all))
    rw [bareAll_eq_map, hall]
    exact .list items hitems hlisted
  · next t rest _ _ _ =>
    split
    · next value hvalue => exact .ok ⟨[t], rfl, .literal hvalue⟩
    · exact .error
  · exact .error
termination_by (ts.length, 0)
decreasing_by all_goals subst_vars; simp only [Prod.lex_def, List.length_cons]; omega

end

end CseMachine.Parse
