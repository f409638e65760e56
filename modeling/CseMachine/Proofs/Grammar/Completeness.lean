import CseMachine.Proofs.Grammar.Phrases
import CseMachine.Proofs.Parsing.Operators

/-!
# Phrases are read

A reader that is given a phrase of its category takes it all, unless what is behind
goes on with it. Where the grammar repeats, a phrase is the left part of a longer one;
therefore it is said of these categories that the reader, having taken the phrase,
does whatever its loop does with what is behind.
-/
namespace CseMachine

/-- One more parameter is another one, and none that takes further arguments was read. -/
theorem ProperParams.allowed {read : List Param} {p : Param} {ps : List Param}
    (h : ProperParams (read.reverse.map Param.bare ++ p :: ps)) : ∀ q ∈ read, q.rest = false ∧ q.name ≠ p.name := by
  intro q hq
  have hq' : q.bare ∈ read.reverse.map Param.bare := List.mem_map_of_mem (List.mem_reverse.mpr hq)
  refine ⟨h.single q.bare ?_, fun hname => ?_⟩
  · rw [List.dropLast_append_of_ne_nil (List.cons_ne_nil _ _)]
    exact List.mem_append_left _ hq'
  · have hd := h.distinct
    rw [List.map_append] at hd
    refine (List.nodup_append.mp hd).2.2 q.name (List.mem_map.mpr ⟨q.bare, hq', rfl⟩) p.name ?_ hname
    exact List.mem_map_of_mem (.head _)

end CseMachine

namespace CseMachine.Parse

open Token (Kind)

variable {us vs rest : List Token} {k : Kind} {c : Category} {x y : Node}

namespace Category

/-- The level of the reader of a category. -/
def level : Category → Nat
  | .atom => 0
  | .primary => 1
  | .power => 2
  | .factor => 3
  | .product => 4
  | .sum => 5
  | .comparison => 6
  | .negation => 7
  | .conjunction => 8
  | .disjunction => 9
  | .ternary => 10
  | .expr => 11

/-- The level of the parts that are repeated, where the grammar repeats. -/
def partLevel : Category → Nat
  | .primary => 0
  | .product => 3
  | .sum => 4
  | .conjunction => 7
  | .disjunction => 8
  | c => c.level

theorem partLevel_le (c : Category) : c.partLevel ≤ c.level := by cases c <;> decide

end Category

/-! Where a phrase starts and ends -/

/-- Nothing goes on with a sign or with a lambda as such. -/
theorem looseness_ne (k : Kind) : looseness k ≠ 3 ∧ looseness k ≠ 11 := by
  unfold looseness
  split <;> decide

theorem ends_of_looseness {n : Nat} (hk : looseness (next rest).kind ≠ n + 1) (h : Ends n rest) : Ends (n + 1) rest :=
  Nat.lt_of_le_of_ne h hk.symm

/-- There is a token that is next, it is no prefix above the level, and it closes no brackets. -/
def Opens (level : Nat) (us : List Token) : Prop :=
  ∃ t ts, us = t :: ts ∧ prefixLevel t.kind ≤ level ∧ t.kind ≠ .symbol .rparen ∧ t.kind ≠ .symbol .rbracket

namespace Opens

variable {m n : Nat}

theorem mono (h : Opens m us) (hmn : m ≤ n) : Opens n us := by
  obtain ⟨t, ts, rfl, hlevel, hclose⟩ := h
  exact ⟨t, ts, rfl, Nat.le_trans hlevel hmn, hclose⟩

theorem append (h : Opens n us) (rest : List Token) : Opens n (us ++ rest) := by
  obtain ⟨t, ts, rfl, ht⟩ := h
  exact ⟨t, ts ++ rest, rfl, ht⟩

theorem ne_nil (h : Opens n us) : us ≠ [] := by
  obtain ⟨t, ts, rfl, -⟩ := h
  exact List.cons_ne_nil _ _

theorem starts (h : Opens n us) : Starts n us := by
  obtain ⟨t, ts, rfl, hlevel, -⟩ := h
  exact hlevel

end Opens

theorem opens_of_literal {value : Literal} {span : Span} (h : literal? k = some value) : Opens 0 [⟨k, span⟩] := by
  refine ⟨_, _, rfl, ?_⟩
  dsimp only
  unfold literal? at h
  split at h
  case h_8 => cases h
  all_goals exact ⟨Nat.le_refl _, nofun, nofun⟩

theorem Derives.opens (h : Derives c us x) : Opens c.level us := by
  induction h with
  | lambda => exact ⟨_, _, rfl, Nat.le_refl _, nofun, nofun⟩
  | not => exact ⟨_, _, rfl, Nat.le_refl _, nofun, nofun⟩
  | sign hop =>
    refine ⟨_, _, rfl, Nat.le_of_eq (prefixLevel_of_signOp hop), ?_⟩
    constructor <;> rintro rfl <;> cases hop
  | literal hvalue => exact opens_of_literal hvalue
  | name => exact ⟨_, _, rfl, Nat.le_refl _, nofun, nofun⟩
  | paren => exact ⟨_, _, rfl, Nat.le_refl _, nofun, nofun⟩
  | list => exact ⟨_, _, rfl, Nat.le_refl _, nofun, nofun⟩
  | exprTernary _ ih | ternaryDisjunction _ ih | disjunctionConjunction _ ih | conjunctionNegation _ ih
  | negationComparison _ ih | comparisonSum _ ih | sumProduct _ ih | productFactor _ ih | factorPower _ ih
  | powerPrimary _ ih | primaryAtom _ ih => exact ih.mono (by decide)
  | conditional _ _ _ ih _ _ => exact (ih.mono (by decide)).append _
  | or _ _ ih _ => exact ih.append _
  | and _ _ ih _ => exact ih.append _
  | relation _ _ _ ih _ => exact (ih.mono (by decide)).append _
  | sumOp _ _ _ ih _ => exact ih.append _
  | productOp _ _ _ ih _ => exact ih.append _
  | power _ _ ih _ => exact (ih.mono (by decide)).append _
  | call _ _ _ _ ih _ => exact ih.append _
  | subscript _ _ ih _ => exact ih.append _

/-! What a reader does with a phrase -/

theorem length_le_self (ts : List Token) : ts.length ≤ ts.length := Nat.le_refl _

/-- What the reader of a category does after a phrase: a loop goes on. -/
def goOn : Category → Node → (ts : List Token) → Scan Node ts
  | .primary, n => primaryTail n
  | .product, n => productTail n
  | .sum, n => sumTail n
  | .conjunction, n => conjunctionTail n
  | .disjunction, n => disjunctionTail n
  | _, n => fun ts => .ok (n, ⟨ts, length_le_self ts⟩)

/-- The reader takes the phrase for the tree, and goes on. -/
def Completes (c : Category) (us : List Token) (x : Node) : Prop :=
  ∀ {P : Node → Prop} {rest rest' : List Token}, Ends c.partLevel rest →
    (∀ n, Shows x n → Takes P rest' (goOn c n rest)) → Takes P rest' (reader c.level (us ++ rest))

theorem goOn_ends {n : Node} (h : Ends c.level rest) : goOn c n rest = .ok (n, ⟨rest, Nat.le_refl _⟩) := by
  cases c with
  | primary => exact primaryTail_ends h
  | product => exact productTail_ends h
  | sum => exact sumTail_ends h
  | conjunction => exact conjunctionTail_ends h
  | disjunction => exact disjunctionTail_ends h
  | _ => rfl

namespace Completes

/-- If nothing goes on with it, the phrase is what is read. -/
theorem takes (h : Completes c us x) (he : Ends c.level rest) : Takes (Shows x) rest (reader c.level (us ++ rest)) := by
  refine h (he.mono c.partLevel_le) fun n hn => ?_
  rw [goOn_ends he]
  exact .ok _ hn

/-- A reader without a loop does nothing after the phrase. -/
theorem of_takes (hc : goOn c = fun n ts => .ok (n, ⟨ts, Nat.le_refl _⟩)) (hl : c.partLevel = c.level)
    (h : ∀ rest, Ends c.level rest → Takes (Shows x) rest (reader c.level (us ++ rest))) : Completes c us x := by
  intro P rest rest' he hgo
  obtain ⟨n, hr, hread, hn⟩ := h rest (hl ▸ he)
  have hP := hgo n hn
  rw [hc] at hP
  obtain ⟨m, hr', heq, hm⟩ := hP
  cases heq
  exact ⟨n, hr, hread, hm⟩

/-- A reader without a loop takes what the one below it takes. -/
theorem succ {d : Category} (hc : goOn c = fun n ts => .ok (n, ⟨ts, Nat.le_refl _⟩)) (hl : c.partLevel = c.level)
    (hlevel : c.level = d.level + 1) (hs : Starts d.level us) (hne : us ≠ []) (h : Completes d us x) : Completes c us x := by
  refine of_takes hc hl fun rest he => ?_
  have hnext : next (us ++ rest) = next us := by
    cases us with
    | nil => exact absurd rfl hne
    | cons t us => rfl
  have hs' : Starts d.level (us ++ rest) := by rwa [Starts, hnext]
  rw [hlevel] at he ⊢
  exact reader_succ (h.takes (he.mono (Nat.le_succ _))) hs' he

/-! Loops -/

theorem primaryAtom (h : Completes .atom us x) : Completes .primary us x := by
  intro P rest rest' he hgo
  show Takes P rest' (primary (us ++ rest))
  rw [primary]
  refine (h.takes he).bind fun n hr hn => ?_
  exact (hgo n hn).bind fun m hr hm => .ok _ hm

theorem productFactor (h : Completes .factor us x) : Completes .product us x := by
  intro P rest rest' he hgo
  show Takes P rest' (product (us ++ rest))
  rw [product]
  refine (h.takes he).bind fun n hr hn => ?_
  exact (hgo n hn).bind fun m hr hm => .ok _ hm

theorem sumProduct (h : Completes .product us x) : Completes .sum us x := by
  intro P rest rest' he hgo
  show Takes P rest' (sum (us ++ rest))
  rw [sum]
  refine (h.takes he).bind fun n hr hn => ?_
  exact (hgo n hn).bind fun m hr hm => .ok _ hm

theorem conjunctionNegation (h : Completes .negation us x) : Completes .conjunction us x := by
  intro P rest rest' he hgo
  show Takes P rest' (conjunction (us ++ rest))
  rw [conjunction]
  refine (h.takes he).bind fun n hr hn => ?_
  exact (hgo n hn).bind fun m hr hm => .ok _ hm

theorem disjunctionConjunction (h : Completes .conjunction us x) : Completes .disjunction us x := by
  intro P rest rest' he hgo
  show Takes P rest' (disjunction (us ++ rest))
  rw [disjunction]
  refine (h.takes he).bind fun n hr hn => ?_
  exact (hgo n hn).bind fun m hr hm => .ok _ hm

variable {sign : Span} {op : BinaryOp}

theorem productOp (hop : productOp? k = some op) (hx : Completes .product us x) (hy : Completes .factor vs y) :
    Completes .product (us ++ ⟨k, sign⟩ :: vs) (.binary .none op x y) := by
  intro P rest rest' he hgo
  rw [List.append_assoc]
  refine hx (by simp [Ends, next, looseness_of_productOp hop, Category.partLevel]) fun n hn => ?_
  show Takes P rest' (productTail n (⟨k, sign⟩ :: (vs ++ rest)))
  rw [productTail]
  simp only [hop]
  refine (hy.takes he).bind fun m hr hm => ?_
  exact (hgo _ (hn.binary hm)).bind fun a hr ha => .ok _ ha

theorem sumOp (hop : sumOp? k = some op) (hx : Completes .sum us x) (hy : Completes .product vs y) :
    Completes .sum (us ++ ⟨k, sign⟩ :: vs) (.binary .none op x y) := by
  intro P rest rest' he hgo
  rw [List.append_assoc]
  refine hx (by simp [Ends, next, looseness_of_sumOp hop, Category.partLevel]) fun n hn => ?_
  show Takes P rest' (sumTail n (⟨k, sign⟩ :: (vs ++ rest)))
  rw [sumTail]
  simp only [hop]
  refine (hy.takes he).bind fun m hr hm => ?_
  exact (hgo _ (hn.binary hm)).bind fun a hr ha => .ok _ ha

theorem and (hx : Completes .conjunction us x) (hy : Completes .negation vs y) :
    Completes .conjunction (us ++ ⟨.keyword .and, sign⟩ :: vs) (.conditional .none x y (.literal .none (.bool false))) := by
  intro P rest rest' he hgo
  rw [List.append_assoc]
  refine hx (by simp [Ends, next, looseness, Category.partLevel]) fun n hn => ?_
  show Takes P rest' (conjunctionTail n (⟨.keyword .and, sign⟩ :: (vs ++ rest)))
  rw [conjunctionTail]
  refine (hy.takes he).bind fun m hr hm => ?_
  exact (hgo _ (hn.conditional hm (c := .literal sign (.bool false)) rfl)).bind fun a hr ha => .ok _ ha

theorem or (hx : Completes .disjunction us x) (hy : Completes .conjunction vs y) :
    Completes .disjunction (us ++ ⟨.keyword .or, sign⟩ :: vs) (.conditional .none x (.literal .none (.bool true)) y) := by
  intro P rest rest' he hgo
  rw [List.append_assoc]
  refine hx (by simp [Ends, next, looseness, Category.partLevel]) fun n hn => ?_
  show Takes P rest' (disjunctionTail n (⟨.keyword .or, sign⟩ :: (vs ++ rest)))
  rw [disjunctionTail]
  refine (hy.takes he).bind fun m hr hm => ?_
  exact (hgo _ (hn.conditional (b := .literal sign (.bool true)) rfl hm)).bind fun a hr ha => .ok _ ha

theorem subscript {index : Node} {start stop : Span} (hx : Completes .primary us x) (hindex : Completes .expr vs index) :
    Completes .primary (us ++ ⟨.symbol .lbracket, start⟩ :: (vs ++ [⟨.symbol .rbracket, stop⟩])) (.subscript .none x index) := by
  intro P rest rest' he hgo
  rw [List.append_assoc, List.cons_append, List.append_assoc]
  refine hx (by simp [Ends, next, looseness, Category.partLevel]) fun n hn => ?_
  show Takes P rest' (primaryTail n (⟨.symbol .lbracket, start⟩ :: (vs ++ ⟨.symbol .rbracket, stop⟩ :: rest)))
  rw [primaryTail]
  refine (hindex.takes (by simp [Ends, next, looseness, Category.level])).bind fun m hr hm => ?_
  refine takes_expect.bind fun _ hr _ => ?_
  refine (hgo _ ?_).bind fun a hr ha => .ok _ ha
  show Node.subscript .none n.bare m.bare = .subscript .none x index
  rw [hn, hm]

end Completes

/-! Lists -/

/-- Phrases with commas between them are read up to what closes them. -/
theorem takes_listed {items : List (List Token × Node)} {close : Symbol} {stop : Span}
    (hclose : close = .rparen ∨ close = .rbracket) (h : Listed items us)
    (hitems : ∀ i ∈ items, Opens 11 i.1 ∧ Completes .expr i.1 i.2) :
    Takes (ShowsAll (items.map (·.2))) (⟨.symbol close, stop⟩ :: rest) (commaList (.symbol close) (us ++ ⟨.symbol close, stop⟩ :: rest)) := by
  have hends : Ends 11 (⟨.symbol close, stop⟩ :: rest) := by rcases hclose with rfl | rfl <;> simp [Ends, next, looseness]
  have hopens : ∀ {vs ts : List Token}, Opens 11 vs → (next (vs ++ ts)).kind ≠ .symbol close := by
    rintro vs ts ⟨t, ts', rfl, -, hparen, hbracket⟩
    rcases hclose with rfl | rfl
    · exact hparen
    · exact hbracket
  induction h with
  | nil => exact commaList_nil rfl
  | last =>
    obtain ⟨ho, hx⟩ := hitems _ (.head _)
    refine commaList_last (hopens ho) (hx.takes hends) ?_
    rcases hclose with rfl | rfl <;> simp [next]
  | cons _ ih =>
    obtain ⟨ho, hx⟩ := hitems _ (.head _)
    rw [List.append_assoc]
    refine commaList_cons (hopens ho) (hx.takes (by simp [Ends, next, looseness, Category.level])) ?_
    exact ih fun i hi => hitems i (.tail _ hi)

theorem Completes.call {args : List (List Token × Node)} {start stop : Span} (hx : Completes .primary us x)
    (hargs : ∀ a ∈ args, Opens 11 a.1 ∧ Completes .expr a.1 a.2) (h : Listed args vs) :
    Completes .primary (us ++ ⟨.symbol .lparen, start⟩ :: (vs ++ [⟨.symbol .rparen, stop⟩])) (.call .none x (args.map (·.2))) := by
  intro P rest rest' he hgo
  rw [List.append_assoc, List.cons_append, List.append_assoc]
  refine hx (by simp [Ends, next, looseness, Category.partLevel]) fun n hn => ?_
  show Takes P rest' (primaryTail n (⟨.symbol .lparen, start⟩ :: (vs ++ ⟨.symbol .rparen, stop⟩ :: rest)))
  rw [primaryTail]
  refine (takes_listed (.inl rfl) h hargs).bind fun ms hr hms => ?_
  refine takes_expect.bind fun _ hr _ => ?_
  refine (hgo _ ?_).bind fun a hr ha => .ok _ ha
  show Node.call .none n.bare (bareAll ms) = .call .none x (args.map (·.2))
  rw [hn, bareAll_eq_map, hms]

/-! Parameters -/

/-- Names with commas between them are read as parameters. -/
theorem takes_params (read : List Param) {params : List (List Token × Param)} {colon : Span} (h : Listed params us)
    (spelt : ∀ p ∈ params, SpellsParam p.1 p.2) (proper : ProperParams (read.reverse.map Param.bare ++ params.map (·.2))) :
    Takes (ShowsParams (read.reverse.map Param.bare ++ params.map (·.2))) (⟨.symbol .colon, colon⟩ :: rest)
      (Parse.params (.symbol .colon) read (us ++ ⟨.symbol .colon, colon⟩ :: rest)) := by
  induction h generalizing read with
  | nil =>
    rw [List.map_nil, List.append_nil]
    exact params_nil rfl
  | @last us p =>
    have hallowed := proper.allowed
    cases spelt _ (.head _) with
    | plain => exact params_last hallowed (by simp [next])
    | rest => exact params_star hallowed (by decide) (by simp [next])
  | @cons us vs p params comma _ ih =>
    have hallowed := proper.allowed
    have hspelt := fun p hp => spelt p (.tail _ hp)
    have hmore : ∀ q : Param, (q :: read).reverse.map Param.bare ++ params.map (·.2) =
        read.reverse.map Param.bare ++ q.bare :: params.map (·.2) := fun q => by simp
    rw [List.append_assoc]
    cases spelt _ (.head _) with
    | @plain name span =>
      have hnext := ih (⟨name, false, span⟩ :: read) hspelt (by rw [hmore]; exact proper)
      rw [hmore] at hnext
      exact params_cons hallowed hnext
    | @rest name star span =>
      have hnext := ih (⟨name, true, span⟩ :: read) hspelt (by rw [hmore]; exact proper)
      rw [hmore] at hnext
      exact params_star_cons hallowed (by decide) hnext

/-- Each phrase is read. -/
theorem Derives.completes (h : Derives c us x) : Completes c us x := by
  induction h with
  | lambda params spelt listed proper _ ih =>
    refine Completes.of_takes rfl rfl fun rest he => ?_
    rw [List.append_assoc]
    exact lambda_of_params (takes_params [] listed spelt proper) (ih.takes he)
  | exprTernary h ih => exact ih.succ rfl rfl rfl h.opens.starts h.opens.ne_nil
  | conditional hyes htest hno ihyes ihtest ihno =>
    refine Completes.of_takes rfl rfl fun rest he => ?_
    rw [List.append_assoc, List.cons_append, List.append_assoc]
    exact ternary_op (ihyes.takes (by simp [Ends, next, looseness, Category.level]))
      (ihtest.takes (by simp [Ends, next, looseness, Category.level])) (ihno.takes (ends_of_looseness (looseness_ne _).2 he))
  | ternaryDisjunction h ih => exact ih.succ rfl rfl rfl (h.opens.starts) h.opens.ne_nil
  | or _ _ ihx ihy => exact ihx.or ihy
  | disjunctionConjunction _ ih => exact ih.disjunctionConjunction
  | and _ _ ihx ihy => exact ihx.and ihy
  | conjunctionNegation _ ih => exact ih.conjunctionNegation
  | not operand ih =>
    refine Completes.of_takes rfl rfl fun rest he => ?_
    exact negation_not (ih.takes he)
  | negationComparison h ih => exact ih.succ rfl rfl rfl h.opens.starts h.opens.ne_nil
  | relation hop _ _ ihx ihy =>
    refine Completes.of_takes rfl rfl fun rest he => ?_
    rw [List.append_assoc]
    exact comparison_op hop (ihx.takes (by simp [Ends, next, looseness_of_relation hop, Category.level]))
      (ihy.takes (he.mono (by decide))) he
  | comparisonSum h ih => exact ih.succ rfl rfl rfl h.opens.starts h.opens.ne_nil
  | sumOp hop _ _ ihx ihy => exact ihx.sumOp hop ihy
  | sumProduct _ ih => exact ih.sumProduct
  | productOp hop _ _ ihx ihy => exact ihx.productOp hop ihy
  | productFactor _ ih => exact ih.productFactor
  | sign hop _ ih =>
    refine Completes.of_takes rfl rfl fun rest he => ?_
    exact factor_sign hop (ih.takes he)
  | factorPower h ih => exact ih.succ rfl rfl rfl h.opens.starts h.opens.ne_nil
  | power _ _ ihx ihy =>
    refine Completes.of_takes rfl rfl fun rest he => ?_
    rw [List.append_assoc]
    exact power_op (ihx.takes (by simp [Ends, next, looseness, Category.level])) (ihy.takes (ends_of_looseness (looseness_ne _).1 he))
  | powerPrimary h ih => exact ih.succ rfl rfl rfl h.opens.starts h.opens.ne_nil
  | call args _ hargs listed ihx ihargs => exact ihx.call (fun a ha => ⟨(hargs a ha).opens, ihargs a ha⟩) listed
  | subscript _ _ ihx ihindex => exact ihx.subscript ihindex
  | primaryAtom _ ih => exact ih.primaryAtom
  | literal hvalue => exact Completes.of_takes rfl rfl fun rest _ => atom_literal hvalue
  | name => exact Completes.of_takes rfl rfl fun rest _ => atom_name
  | paren _ ih =>
    refine Completes.of_takes rfl rfl fun rest _ => ?_
    rw [List.cons_append, List.append_assoc]
    exact atom_paren (ih.takes (by simp [Ends, next, looseness, Category.level]))
  | list items hitems listed ih =>
    refine Completes.of_takes rfl rfl fun rest _ => ?_
    rw [List.cons_append, List.append_assoc]
    exact atom_list (takes_listed (.inr rfl) listed fun i hi => ⟨(hitems i hi).opens, ih i hi⟩)

end CseMachine.Parse
