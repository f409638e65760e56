import CseMachine.Proofs.Parsing

/-!
# Expressions with parts

What a reader takes where an operator, brackets or commas put parts together,
said of the readers of the parts.
-/
namespace CseMachine.Parse

open Token (Kind)

variable {ts rest mid : List Token} {k : Kind} {span : Span}

/-! Operators between two parts -/

section

variable {x y z a : Node} {op : BinaryOp}

theorem Shows.unary {op : UnaryOp} (hx : Shows x a) : Shows (.unary .none op x) (.unary span op a) :=
  congrArg (Node.unary .none op) hx

theorem Shows.binary (hx : Shows x a) {b : Node} (hy : Shows y b) :
    Shows (.binary .none op x y) (binary op a b) := by
  show Node.binary .none op a.bare b.bare = .binary .none op x y
  rw [hx, hy]

theorem Shows.conditional {b c : Node} (hx : Shows x a) (hy : Shows y b) (hz : Shows z c) :
    Shows (.conditional .none x y z) (conditional a b c) := by
  show Node.conditional .none a.bare b.bare c.bare = .conditional .none x y z
  rw [hx, hy, hz]

theorem factor_sign {op : UnaryOp} (hop : signOp? k = some op) (h : Takes (Shows x) rest (factor ts)) :
    Takes (Shows (.unary .none op x)) rest (factor (⟨k, span⟩ :: ts)) := by
  rw [factor]
  simp only [hop]
  exact h.bind fun n hr hn => .ok _ hn.unary

theorem negation_not (h : Takes (Shows x) rest (negation ts)) :
    Takes (Shows (.unary .none .not x)) rest (negation (⟨.keyword .not, span⟩ :: ts)) := by
  rw [negation]
  exact h.bind fun n hr hn => .ok _ hn.unary

theorem power_op (hx : Takes (Shows x) (⟨.symbol .starStar, span⟩ :: mid) (primary ts))
    (hy : Takes (Shows y) rest (factor mid)) : Takes (Shows (.binary .none (.arith .pow) x y)) rest (power ts) := by
  rw [power]
  refine hx.bind fun a hr ha => ?_
  exact hy.bind fun b hr hb => .ok _ (ha.binary hb)

theorem product_op (hop : productOp? k = some op) (hx : Takes (Shows x) (⟨k, span⟩ :: mid) (factor ts))
    (hy : Takes (Shows y) rest (factor mid)) (he : Ends 4 rest) :
    Takes (Shows (.binary .none op x y)) rest (product ts) := by
  rw [product]
  refine hx.bind fun a hr ha => ?_
  have htail : Takes (Shows (.binary .none op x y)) rest (productTail a (⟨k, span⟩ :: mid)) := by
    rw [productTail]
    simp only [hop]
    refine hy.bind fun b hr hb => ?_
    dsimp only
    rw [productTail_ends he]
    exact .ok _ (ha.binary hb)
  exact htail.bind fun n hr hn => .ok _ hn

theorem sum_op (hop : sumOp? k = some op) (hx : Takes (Shows x) (⟨k, span⟩ :: mid) (product ts))
    (hy : Takes (Shows y) rest (product mid)) (he : Ends 5 rest) :
    Takes (Shows (.binary .none op x y)) rest (sum ts) := by
  rw [sum]
  refine hx.bind fun a hr ha => ?_
  have htail : Takes (Shows (.binary .none op x y)) rest (sumTail a (⟨k, span⟩ :: mid)) := by
    rw [sumTail]
    simp only [hop]
    refine hy.bind fun b hr hb => ?_
    dsimp only
    rw [sumTail_ends he]
    exact .ok _ (ha.binary hb)
  exact htail.bind fun n hr hn => .ok _ hn

theorem relation_ends (h : Ends 6 ts) : (relation? (next ts).kind).isSome = false := by
  cases hop : relation? (next ts).kind with
  | none => rfl
  | some op => exact absurd h (by simp [Ends, looseness_of_relation hop])

theorem comparison_op (hop : relation? k = some op) (hx : Takes (Shows x) (⟨k, span⟩ :: mid) (sum ts))
    (hy : Takes (Shows y) rest (sum mid)) (he : Ends 6 rest) :
    Takes (Shows (.binary .none op x y)) rest (comparison ts) := by
  rw [comparison]
  refine hx.bind fun a hr ha => ?_
  simp only [hop]
  refine hy.bind fun b hr hb => ?_
  simp only [relation_ends he]
  exact .ok _ (ha.binary hb)

theorem conjunction_op (hx : Takes (Shows x) (⟨.keyword .and, span⟩ :: mid) (negation ts))
    (hy : Takes (Shows y) rest (negation mid)) (he : Ends 8 rest) :
    Takes (Shows (.conditional .none x y (.literal .none (.bool false)))) rest (conjunction ts) := by
  rw [conjunction]
  refine hx.bind fun a hr ha => ?_
  have htail : Takes (Shows (.conditional .none x y (.literal .none (.bool false)))) rest
      (conjunctionTail a (⟨.keyword .and, span⟩ :: mid)) := by
    rw [conjunctionTail]
    refine hy.bind fun b hr hb => ?_
    dsimp only
    rw [conjunctionTail_ends he]
    exact .ok _ (ha.conditional hb rfl)
  exact htail.bind fun n hr hn => .ok _ hn

theorem disjunction_op (hx : Takes (Shows x) (⟨.keyword .or, span⟩ :: mid) (conjunction ts))
    (hy : Takes (Shows y) rest (conjunction mid)) (he : Ends 9 rest) :
    Takes (Shows (.conditional .none x (.literal .none (.bool true)) y)) rest (disjunction ts) := by
  rw [disjunction]
  refine hx.bind fun a hr ha => ?_
  have htail : Takes (Shows (.conditional .none x (.literal .none (.bool true)) y)) rest
      (disjunctionTail a (⟨.keyword .or, span⟩ :: mid)) := by
    rw [disjunctionTail]
    refine hy.bind fun b hr hb => ?_
    dsimp only
    rw [disjunctionTail_ends he]
    exact .ok _ (ha.conditional rfl hb)
  exact htail.bind fun n hr hn => .ok _ hn

theorem ternary_op {mid' : List Token} {span' : Span}
    (hy : Takes (Shows y) (⟨.keyword .if_, span⟩ :: mid) (disjunction ts))
    (hx : Takes (Shows x) (⟨.keyword .else_, span'⟩ :: mid') (disjunction mid))
    (hz : Takes (Shows z) rest (expr mid')) : Takes (Shows (.conditional .none x y z)) rest (ternary ts) := by
  rw [ternary]
  refine hy.bind fun b hr hb => ?_
  refine hx.bind fun a hr ha => ?_
  refine takes_expect.bind fun _ hr _ => ?_
  exact hz.bind fun c hr hc => .ok _ (ha.conditional hb hc)

end

/-! Brackets -/

section

variable {x y : Node} {xs : List Node} {close : Kind}

/-- The nodes are these trees with spans. -/
def ShowsAll (trees ns : List Node) : Prop := ns.map Node.bare = trees

theorem Shows.cons {n : Node} {ns : List Node} (h : Shows x n) (hs : ShowsAll xs ns) : ShowsAll (x :: xs) (n :: ns) := by
  rw [ShowsAll, List.map_cons, h, hs]

theorem commaList_nil (h : (next ts).kind = close) : Takes (ShowsAll []) ts (commaList close ts) := by
  rw [commaList, if_pos h]
  exact .ok _ rfl

theorem commaList_last (h : (next ts).kind ≠ close) (hx : Takes (Shows x) rest (expr ts))
    (hrest : (next rest).kind ≠ .symbol .comma) : Takes (ShowsAll [x]) rest (commaList close ts) := by
  rw [commaList, if_neg h]
  refine hx.bind fun n hr hn => ?_
  dsimp only
  split
  · exact absurd rfl hrest
  · exact .ok _ (hn.cons rfl)

theorem commaList_cons (h : (next ts).kind ≠ close) (hx : Takes (Shows x) (⟨.symbol .comma, span⟩ :: mid) (expr ts))
    (hxs : Takes (ShowsAll xs) rest (commaList close mid)) : Takes (ShowsAll (x :: xs)) rest (commaList close ts) := by
  rw [commaList, if_neg h]
  refine hx.bind fun n hr hn => ?_
  exact hxs.bind fun ns hr hns => .ok _ (hn.cons hns)

theorem atom_literal {value : Literal} (h : literal? k = some value) :
    Takes (Shows (.literal .none value)) rest (atom (⟨k, span⟩ :: rest)) := by
  unfold literal? at h
  split at h
  case h_8 => cases h
  all_goals
    cases h
    unfold atom
    exact .ok _ rfl

theorem atom_name {name : String} :
    Takes (Shows (.identifier .none name)) rest (atom (⟨.ident name, span⟩ :: rest)) := by
  rw [atom]
  exact .ok _ rfl

theorem atom_paren {P : Node → Prop} {span' : Span} (h : Takes P (⟨.symbol .rparen, span'⟩ :: rest) (expr ts)) :
    Takes P rest (atom (⟨.symbol .lparen, span⟩ :: ts)) := by
  rw [atom]
  refine h.bind fun n hr hn => ?_
  exact takes_expect.bind fun _ hr _ => .ok _ hn

theorem atom_list {span' : Span}
    (h : Takes (ShowsAll xs) (⟨.symbol .rbracket, span'⟩ :: rest) (commaList (.symbol .rbracket) ts)) :
    Takes (Shows (.list .none xs)) rest (atom (⟨.symbol .lbracket, span⟩ :: ts)) := by
  rw [atom]
  refine h.bind fun ns hr hns => ?_
  refine takes_expect.bind fun _ hr _ => .ok _ ?_
  show Node.list .none (bareAll ns) = .list .none xs
  rw [bareAll_eq_map, hns]

theorem primary_call {span' : Span} (hx : Takes (Shows x) (⟨.symbol .lparen, span⟩ :: mid) (atom ts))
    (hxs : Takes (ShowsAll xs) (⟨.symbol .rparen, span'⟩ :: rest) (commaList (.symbol .rparen) mid)) (he : Ends 1 rest) :
    Takes (Shows (.call .none x xs)) rest (primary ts) := by
  rw [primary]
  refine hx.bind fun a hr ha => ?_
  have htail : Takes (Shows (.call .none x xs)) rest (primaryTail a (⟨.symbol .lparen, span⟩ :: mid)) := by
    rw [primaryTail]
    refine hxs.bind fun ns hr hns => ?_
    refine takes_expect.bind fun _ hr _ => ?_
    dsimp only
    rw [primaryTail_ends he]
    refine .ok _ ?_
    show Node.call .none a.bare (bareAll ns) = .call .none x xs
    rw [ha, bareAll_eq_map, hns]
  exact htail.bind fun n hr hn => .ok _ hn

theorem primary_subscript {span' : Span} (hx : Takes (Shows x) (⟨.symbol .lbracket, span⟩ :: mid) (atom ts))
    (hy : Takes (Shows y) (⟨.symbol .rbracket, span'⟩ :: rest) (expr mid)) (he : Ends 1 rest) :
    Takes (Shows (.subscript .none x y)) rest (primary ts) := by
  rw [primary]
  refine hx.bind fun a hr ha => ?_
  have htail : Takes (Shows (.subscript .none x y)) rest (primaryTail a (⟨.symbol .lbracket, span⟩ :: mid)) := by
    rw [primaryTail]
    refine hy.bind fun b hr hb => ?_
    refine takes_expect.bind fun _ hr _ => ?_
    dsimp only
    rw [primaryTail_ends he]
    refine .ok _ ?_
    show Node.subscript .none a.bare b.bare = .subscript .none x y
    rw [ha, hb]
  exact htail.bind fun n hr hn => .ok _ hn

end

/-! Parameters -/

section

variable {read : List Param} {close : Kind} {name : String} {ps : List Param}

/-- The parameters are these, with spans. -/
def ShowsParams (ps qs : List Param) : Prop := qs.map Param.bare = ps

theorem params_nil (h : (next ts).kind = close) : Takes (ShowsParams (read.reverse.map Param.bare)) ts (params close read ts) := by
  rw [params, if_pos h]
  exact .ok _ rfl

section

variable {sign : Symbol} (hread : ∀ p ∈ read, p.rest = false ∧ p.name ≠ name)

include hread

theorem params_allowed : read.head?.any (·.rest) = false ∧ read.any (·.name = name) = false := by
  constructor
  · cases read with
    | nil => rfl
    | cons p read => exact (hread p (.head _)).1
  · rw [List.any_eq_false]
    intro p hp
    simpa using (hread p hp).2

section

variable {starred : Bool} {named : AtMost ts} (hmore : (next ts).kind ≠ .symbol sign)
  (heat : eat (.symbol .star) ts = (starred, named))

include hmore heat

/-- Behind a comma the parameters go on. -/
theorem params_comma {span' : Span} (hmid : named.val = ⟨.ident name, span⟩ :: ⟨.symbol .comma, span'⟩ :: mid)
    (h : Takes (ShowsParams ps) rest (params (.symbol sign) (⟨name, starred, span⟩ :: read) mid)) :
    Takes (ShowsParams ps) rest (params (.symbol sign) read ts) := by
  have hallowed := params_allowed hread
  obtain ⟨left, hle⟩ := named
  obtain rfl : left = _ := hmid
  rw [params, if_neg hmore, heat]
  refine takes_expectName.bind fun a hr ha => ?_
  cases ha
  simp only [hallowed, Bool.false_eq_true, if_false]
  exact h.bind fun qs hr hqs => .ok _ hqs

/-- Without a comma there are no more of them. -/
theorem params_end (hmid : named.val = ⟨.ident name, span⟩ :: rest) (hrest : (next rest).kind ≠ .symbol .comma) :
    Takes (ShowsParams (read.reverse.map Param.bare ++ [⟨name, starred, .none⟩])) rest (params (.symbol sign) read ts) := by
  have hallowed := params_allowed hread
  obtain ⟨left, hle⟩ := named
  obtain rfl : left = _ := hmid
  rw [params, if_neg hmore, heat]
  refine takes_expectName.bind fun a hr ha => ?_
  cases ha
  simp only [hallowed, Bool.false_eq_true, if_false]
  split
  · exact absurd rfl hrest
  · refine .ok _ ?_
    simp [ShowsParams, Param.bare]

end

theorem params_cons
    (h : Takes (ShowsParams ps) rest (params (.symbol sign) (⟨name, false, span⟩ :: read) mid)) {span' : Span} :
    Takes (ShowsParams ps) rest (params (.symbol sign) read (⟨.ident name, span⟩ :: ⟨.symbol .comma, span'⟩ :: mid)) :=
  params_comma hread (by simp [next]) (eat_other (by simp [next])) rfl h

theorem params_star_cons (hs : sign ≠ .star) {star span' : Span}
    (h : Takes (ShowsParams ps) rest (params (.symbol sign) (⟨name, true, span⟩ :: read) mid)) :
    Takes (ShowsParams ps) rest
      (params (.symbol sign) read (⟨.symbol .star, star⟩ :: ⟨.ident name, span⟩ :: ⟨.symbol .comma, span'⟩ :: mid)) :=
  params_comma hread (by simpa [next] using hs.symm) eat_next rfl h

theorem params_last (hrest : (next rest).kind ≠ .symbol .comma) :
    Takes (ShowsParams (read.reverse.map Param.bare ++ [⟨name, false, .none⟩])) rest
      (params (.symbol sign) read (⟨.ident name, span⟩ :: rest)) :=
  params_end hread (by simp [next]) (eat_other (by simp [next])) rfl hrest

theorem params_star (hs : sign ≠ .star) (hrest : (next rest).kind ≠ .symbol .comma) {span' : Span} :
    Takes (ShowsParams (read.reverse.map Param.bare ++ [⟨name, true, .none⟩])) rest
      (params (.symbol sign) read (⟨.symbol .star, span'⟩ :: ⟨.ident name, span⟩ :: rest)) :=
  params_end hread (by simpa [next] using hs.symm) eat_next rfl hrest

end

theorem lambda_of_params {value : Node} (hps : Takes (ShowsParams ps) (⟨.symbol .colon, span⟩ :: mid) (params (.symbol .colon) [] ts))
    (hv : Takes (Shows value) rest (expr mid)) {span' : Span} :
    Takes (Shows (.lambda .none ⟨none, ps, .block .none [] [.ret .none (some value)], []⟩)) rest
      (expr (⟨.keyword .lambda, span'⟩ :: ts)) := by
  rw [expr]
  refine hps.bind fun qs hr hqs => ?_
  refine takes_expect.bind fun _ hr _ => ?_
  refine hv.bind fun n hr hn => .ok _ ?_
  show Node.lambda .none ⟨none, qs.map Param.bare, .block .none [] [.ret .none (some n.bare)], []⟩ = _
  rw [hqs, hn]

end

end CseMachine.Parse
