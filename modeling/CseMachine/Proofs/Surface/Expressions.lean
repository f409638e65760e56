import CseMachine.Proofs.Parsing.Operators
import CseMachine.Proofs.Surface.Tokens

/-!
# Expressions are read back

A reader that is given the tokens of an expression, with something behind them that
does not belong to it, takes these tokens and answers the tree of the expression.
Parts of an expression are atoms, since those that have parts themselves stand in
parentheses; so each reader is only asked for one operator between atoms.
-/
namespace CseMachine.Surface

open Parse
open Token (Kind)

variable {ts rest : List Token} {ks ls : List Kind} {k : Kind} {r r' : Row} {rs : List Row} {p : Piece}

/-! Tokens in front of others -/

/-- The tokens start with some of the given kinds, and these stand in front of the rest. -/
def Spelt (ks : List Kind) (ts rest : List Token) : Prop := ∃ us, us.map (·.kind) = ks ∧ ts = us ++ rest

theorem Spelt.eq (h : Spelt [] ts rest) : ts = rest := by
  obtain ⟨us, hk, rfl⟩ := h
  rw [List.map_eq_nil_iff.mp hk]
  rfl

theorem Spelt.head (h : Spelt (k :: ks) ts rest) : ∃ span ts', ts = ⟨k, span⟩ :: ts' ∧ Spelt ks ts' rest := by
  obtain ⟨us, hk, rfl⟩ := h
  obtain ⟨t, us, rfl, rfl, hks⟩ := List.map_eq_cons_iff.mp hk
  exact ⟨t.span, us ++ rest, rfl, us, hks, rfl⟩

theorem Spelt.split (h : Spelt (ks ++ ls) ts rest) : ∃ mid, Spelt ks ts mid ∧ Spelt ls mid rest := by
  obtain ⟨us, hk, rfl⟩ := h
  obtain ⟨us, vs, rfl, hks, hls⟩ := List.map_eq_append_iff.mp hk
  exact ⟨vs ++ rest, ⟨us, hks, List.append_assoc ..⟩, vs, hls, rfl⟩

theorem Spelt.single (h : Spelt [k] ts rest) : ∃ span, ts = ⟨k, span⟩ :: rest := by
  obtain ⟨span, mid, rfl, hmid⟩ := h.head
  exact ⟨span, by rw [hmid.eq]⟩

/-- Some tokens, one more, and what is behind it. -/
theorem Spelt.around (h : Spelt (ks ++ k :: ls) ts rest) :
    ∃ span mid, Spelt ks ts (⟨k, span⟩ :: mid) ∧ Spelt ls mid rest := by
  obtain ⟨mid, hks, hmid⟩ := h.split
  obtain ⟨span, mid, rfl, hls⟩ := hmid.head
  exact ⟨span, mid, hks, hls⟩

theorem tokens_joined (hp : p.token? = some k) :
    Row.tokens (joined r p r') = Row.tokens r ++ k :: Row.tokens r' := by
  have hspace : Piece.space.token? = none := rfl
  simp [joined, Row.tokens, hp, hspace]

theorem tokens_separated :
    Row.tokens (separated (r :: r' :: rs)) =
      Row.tokens r ++ .symbol .comma :: Row.tokens (separated (r' :: rs)) := by
  have hspace : Piece.space.token? = none := rfl
  have hcomma : (Piece.sign .comma).token? = some (.symbol .comma) := rfl
  simp [separated, Row.tokens, hspace, hcomma]

theorem tokens_header (word : Keyword) (e : Expr) :
    Row.tokens (header word e) = .keyword word :: (Row.tokens e.row ++ [.symbol .colon]) := by
  rw [header, Row.tokens_append]
  rfl

/-- A row in brackets, of which the last is followed by the rest. -/
theorem Spelt.bracketed {b : Bracket} (h : Spelt (Row.tokens (.sign (Row.opening b) :: r ++ [.sign (Row.closing b)])) ts rest) :
    ∃ span mid span', ts = ⟨.symbol (Row.opening b), span⟩ :: mid ∧
      Spelt (Row.tokens r) mid (⟨.symbol (Row.closing b), span'⟩ :: rest) := by
  rw [List.cons_append, Row.tokens_cons, Row.tokens_append] at h
  obtain ⟨span, mid, rfl, hmid⟩ := Spelt.head h
  obtain ⟨span', last, hr, hlast⟩ := Spelt.around hmid
  rw [hlast.eq] at hr
  exact ⟨span, mid, span', rfl, hr⟩

/-! Parts -/

/-- Wherever the tokens of the expression are, they are read as its tree. -/
def Expr.Reads (e : Expr) : Prop :=
  ∀ ts rest, Spelt (Row.tokens e.row) ts rest → Ends 11 rest → Takes (Shows e.tree) rest (expr ts)

/-- The token starts a part of an expression. -/
def startsPart : Kind → Bool
  | .ident _ | .int _ | .str _ | .keyword .none | .keyword .true | .keyword .false | .symbol .lparen => true
  | _ => false

theorem Expr.operand_head (e : Expr) : ∃ k ks, Row.tokens e.operand = k :: ks ∧ startsPart k = true := by
  cases e with
  | constant c =>
    cases c with
    | bool b => cases b <;> exact ⟨_, _, rfl, rfl⟩
    | _ => exact ⟨_, _, rfl, rfl⟩
  | name x => exact ⟨_, _, rfl, rfl⟩
  | _ => exact ⟨.symbol .lparen, _, rfl, rfl⟩

theorem prefixLevel_of_startsPart (h : startsPart k = true) : prefixLevel k = 0 := by
  unfold startsPart at h
  split at h
  all_goals first | rfl | cases h

theorem Expr.startsPart_operand {e : Expr} (h : Spelt (Row.tokens e.operand) ts rest) :
    startsPart (next ts).kind = true := by
  obtain ⟨k, ks, hk, hstarts⟩ := e.operand_head
  rw [hk] at h
  obtain ⟨span, mid, rfl, -⟩ := h.head
  exact hstarts

theorem Expr.starts_operand {e : Expr} (h : Spelt (Row.tokens e.operand) ts rest) : Starts 0 ts :=
  Nat.le_of_eq (prefixLevel_of_startsPart (startsPart_operand h))

/-- An expression without parts is an atom. -/
theorem Expr.atom_of_simple {e : Expr} (hc : e.isCompound = false) (h : Spelt (Row.tokens e.row) ts rest) :
    Takes (Shows e.tree) rest (atom ts) := by
  cases e with
  | constant c =>
    cases c with
    | bool b =>
      cases b with
      | true =>
        obtain ⟨span, rfl⟩ := h.single
        exact atom_literal rfl
      | false =>
        obtain ⟨span, rfl⟩ := h.single
        exact atom_literal rfl
    | _ =>
      obtain ⟨span, rfl⟩ := h.single
      exact atom_literal rfl
  | name x =>
    obtain ⟨span, rfl⟩ := h.single
    exact atom_name
  | _ => cases hc

section

variable {e : Expr} (he : e.Reads)

include he

/-- A part is an atom. -/
theorem Expr.Reads.asAtom (h : Spelt (Row.tokens e.operand) ts rest) : Takes (Shows e.tree) rest (atom ts) := by
  cases hc : e.isCompound with
  | true =>
    rw [Expr.operand, hc] at h
    obtain ⟨span, mid, span', rfl, hrow⟩ := Spelt.bracketed (b := .round) h
    exact atom_paren (he _ _ hrow (by simp [Ends, next, looseness]))
  | false =>
    rw [Expr.operand, hc] at h
    exact Expr.atom_of_simple hc h

/-- A part is read on each level. -/
theorem Expr.Reads.onLevel (level : Nat) (h : Spelt (Row.tokens e.operand) ts rest) (hend : Ends level rest) :
    Takes (Shows e.tree) rest (reader level ts) :=
  (he.asAtom h).climb (m := 0) (Nat.zero_le level) (Expr.starts_operand h) hend

end

theorem startsPart_closing (b : Bracket) : startsPart (.symbol (Row.closing b)) = false := by cases b <;> rfl

theorem ends_closing {b : Bracket} (h : (next ts).kind = .symbol (Row.closing b)) : Ends 11 ts := by
  rw [Ends, h]
  cases b <;> decide

theorem commaList_of_reads {es : List Expr} (hes : ∀ e ∈ es, e.Reads) {b : Bracket}
    (h : Spelt (Row.tokens (separated (es.map Expr.operand))) ts rest) (hrest : (next rest).kind = .symbol (Row.closing b)) :
    Takes (ShowsAll (es.map Expr.tree)) rest (commaList (.symbol (Row.closing b)) ts) := by
  induction es generalizing ts with
  | nil =>
    rw [h.eq]
    exact commaList_nil hrest
  | cons e es ih =>
    have he := hes e (.head _)
    have hopen : ∀ {mid}, Spelt (Row.tokens e.operand) ts mid → (next ts).kind ≠ .symbol (Row.closing b) := by
      intro mid hs heq
      have hstarts := Expr.startsPart_operand hs
      rw [heq, startsPart_closing] at hstarts
      cases hstarts
    cases es with
    | nil =>
      refine commaList_last (hopen h) (he.onLevel 11 h (ends_closing hrest)) ?_
      rw [hrest]
      cases b <;> decide
    | cons e' es =>
      rw [List.map_cons, List.map_cons, tokens_separated] at h
      obtain ⟨span, mid, hs, hmid⟩ := h.around
      have hcomma : Ends 11 (⟨.symbol .comma, span⟩ :: mid) := by simp [Ends, next, looseness]
      exact commaList_cons (hopen hs) (he.onLevel 11 hs hcomma) (ih (fun e he => hes e (.tail _ he)) hmid)

/-! Parameters -/

theorem Name.text_inj {x y : Name} : x.text = y.text ↔ x = y := by
  cases x
  cases y
  simp

/-- The parameters that are read and those still to be read are apart. -/
theorem params_of_names {names : List Name} {last : Option Name} {read : List Param} {sign : Symbol}
    (hread : ∀ p ∈ read, p.rest = false ∧ ∀ x ∈ names ++ last.toList, p.name ≠ x.text)
    (hd : (names ++ last.toList).Nodup)
    (h : Spelt (Row.tokens (separated (names.map (fun x => [.name x]) ++ last.toList.map fun x => [.sign .star, .name x]))) ts rest)
    (hrest : (next rest).kind = .symbol sign) (hstar : sign ≠ .star) (hcomma : sign ≠ .comma) :
    Takes (ShowsParams (read.reverse.map Param.bare ++ (names.map (⟨·.text, false, .none⟩) ++
      last.toList.map (⟨·.text, true, .none⟩)))) rest (params (.symbol sign) read ts) := by
  have hends : (next rest).kind ≠ .symbol .comma := by simpa [hrest] using hcomma
  induction names generalizing read ts with
  | nil =>
    cases last with
    | none =>
      rw [h.eq]
      simpa using params_nil hrest
    | some x =>
      obtain ⟨span, mid, rfl, hmid⟩ := Spelt.head h
      obtain ⟨span', rfl⟩ := hmid.single
      exact params_star (fun p hp => ⟨(hread p hp).1, (hread p hp).2 x (by simp)⟩) hstar hends
  | cons x names ih =>
    have hx : ∀ p ∈ read, p.rest = false ∧ p.name ≠ x.text :=
      fun p hp => ⟨(hread p hp).1, (hread p hp).2 x (by simp)⟩
    have hd' := List.nodup_cons.mp hd
    cases hmore : names.map (fun x => [Piece.name x]) ++ last.toList.map fun x => [.sign .star, .name x] with
    | nil =>
      rw [List.map_cons, List.cons_append, hmore] at h
      obtain ⟨rfl, hnone⟩ : names = [] ∧ last = none := by simpa using hmore
      obtain ⟨span, rfl⟩ := Spelt.single h
      rw [hnone]
      exact params_last hx hends
    | cons r rs =>
      rw [List.map_cons, List.cons_append, hmore, tokens_separated, ← hmore] at h
      obtain ⟨span, mid, hs, hmid⟩ := h.around
      obtain ⟨span', rfl⟩ := Spelt.single hs
      refine params_cons hx ?_
      have hps := @ih _ (⟨x.text, false, span'⟩ :: read) ?_ hd'.2 hmid
      · simpa [Param.bare] using hps
      · intro p hp
        rcases List.mem_cons.mp hp with rfl | hp
        · refine ⟨rfl, fun y hy heq => hd'.1 ?_⟩
          rwa [Name.text_inj.mp heq]
        · exact ⟨(hread p hp).1, fun y hy => (hread p hp).2 y (.tail _ hy)⟩

theorem Params.reads (ps : Params) {sign : Symbol} (h : Spelt (Row.tokens (separated ps.rows)) ts rest)
    (hrest : (next rest).kind = .symbol sign) (hstar : sign ≠ .star) (hcomma : sign ≠ .comma) :
    Takes (ShowsParams ps.formals) rest (params (.symbol sign) [] ts) :=
  params_of_names (by simp) ps.distinct h hrest hstar hcomma

/-! Operators -/

theorem expr_of_reader {P : Node → Prop} (level : Nat) (h : Takes P rest (reader level ts)) (hlevel : level ≤ 11)
    (hs : Starts level ts) (he : Ends 11 rest) : Takes P rest (expr ts) :=
  h.climb (n := 11) hlevel hs he

section

variable {a b c : Expr} (ha : a.Reads) (hb : b.Reads)

include ha

theorem Expr.Reads.unary (op : UnaryOp) : (Expr.unary op a).Reads := by
  intro ts rest hs hend
  cases op with
  | neg =>
    obtain ⟨span, mid, rfl, hmid⟩ := Spelt.head hs
    exact expr_of_reader 3 (factor_sign rfl (ha.onLevel 3 hmid (hend.mono (by decide)))) (by decide) (Nat.le_refl 3) hend
  | plus =>
    obtain ⟨span, mid, rfl, hmid⟩ := Spelt.head hs
    exact expr_of_reader 3 (factor_sign rfl (ha.onLevel 3 hmid (hend.mono (by decide)))) (by decide) (Nat.le_refl 3) hend
  | not =>
    obtain ⟨span, mid, rfl, hmid⟩ := Spelt.head hs
    exact expr_of_reader 7 (negation_not (ha.onLevel 7 hmid (hend.mono (by decide)))) (by decide) (Nat.le_refl 7) hend

include hb

/-- Two parts with a token between them. -/
theorem Expr.Reads.parts {p : Piece} (h : Spelt (Row.tokens (joined a.operand p b.operand)) ts rest)
    (hp : p.token? = some k) (hend : Ends 11 rest) : ∃ span mid, Starts 0 ts ∧
      (∀ level, level < looseness k → Takes (Shows a.tree) (⟨k, span⟩ :: mid) (reader level ts)) ∧
      ∀ level ≤ 11, Takes (Shows b.tree) rest (reader level mid) := by
  rw [tokens_joined hp] at h
  obtain ⟨span, mid, hl, hr⟩ := h.around
  refine ⟨span, mid, Expr.starts_operand hl, ?_, ?_⟩
  · intro level hlevel
    exact ha.onLevel level hl hlevel
  · intro level hlevel
    exact hb.onLevel level hr (hend.mono hlevel)

theorem Expr.Reads.binary (op : BinaryOp) : (Expr.binary op a b).Reads := by
  intro ts rest h hend
  obtain ⟨span, mid, hs, hl, hr⟩ := ha.parts hb h rfl hend
  have product (hop : productOp? (.symbol (binarySign op)) = some op) :
      Takes (Shows (Expr.binary op a b).tree) rest (expr ts) := by
    have hleft := hl 3 (by rw [looseness_of_productOp hop]; decide)
    exact expr_of_reader 4 (product_op hop hleft (hr 3 (by decide)) (hend.mono (by decide))) (by decide)
      (hs.mono (by decide)) hend
  have sum (hop : sumOp? (.symbol (binarySign op)) = some op) :
      Takes (Shows (Expr.binary op a b).tree) rest (expr ts) := by
    have hleft := hl 4 (by rw [looseness_of_sumOp hop]; decide)
    exact expr_of_reader 5 (sum_op hop hleft (hr 4 (by decide)) (hend.mono (by decide))) (by decide)
      (hs.mono (by decide)) hend
  have comparison (hop : relation? (.symbol (binarySign op)) = some op) :
      Takes (Shows (Expr.binary op a b).tree) rest (expr ts) := by
    have hleft := hl 5 (by rw [looseness_of_relation hop]; decide)
    exact expr_of_reader 6 (comparison_op hop hleft (hr 5 (by decide)) (hend.mono (by decide))) (by decide)
      (hs.mono (by decide)) hend
  cases op with
  | arith op =>
    cases op with
    | add | sub => exact sum rfl
    | mul | div | floorDiv | mod => exact product rfl
    | pow =>
      have hleft := hl 1 (by decide)
      exact expr_of_reader 2 (power_op hleft (hr 3 (by decide))) (by decide) (hs.mono (by decide)) hend
  | eq | notEq => exact comparison rfl
  | order op => cases op <;> exact comparison rfl

theorem Expr.Reads.and : (Expr.and a b).Reads := by
  intro ts rest h hend
  obtain ⟨span, mid, hs, hl, hr⟩ := ha.parts hb h rfl hend
  have hleft := hl 7 (by decide)
  exact expr_of_reader 8 (conjunction_op hleft (hr 7 (by decide)) (hend.mono (by decide))) (by decide)
    (hs.mono (by decide)) hend

theorem Expr.Reads.or : (Expr.or a b).Reads := by
  intro ts rest h hend
  obtain ⟨span, mid, hs, hl, hr⟩ := ha.parts hb h rfl hend
  have hleft := hl 8 (by decide)
  exact expr_of_reader 9 (disjunction_op hleft (hr 8 (by decide)) (hend.mono (by decide))) (by decide)
    (hs.mono (by decide)) hend

theorem Expr.Reads.subscript : (Expr.subscript a b).Reads := by
  intro ts rest h hend
  rw [Expr.row, List.append_assoc, Row.tokens_append] at h
  obtain ⟨mid, hl, hmid⟩ := h.split
  obtain ⟨span, inner, span', rfl, hr⟩ := Spelt.bracketed (b := .square) hmid
  have hs : Starts 0 ts := Expr.starts_operand hl
  have hindex := hb.onLevel 11 hr (ends_closing (b := .square) rfl)
  exact expr_of_reader 1 (primary_subscript (ha.asAtom hl) hindex (hend.mono (by decide))) (by decide)
    (hs.mono (by decide)) hend

theorem Expr.Reads.conditional {test : Expr} (ht : test.Reads) : (Expr.conditional test a b).Reads := by
  intro ts rest h hend
  have htokens : Row.tokens (Expr.conditional test a b).row = Row.tokens a.operand ++ .keyword .if_ ::
      (Row.tokens test.operand ++ .keyword .else_ :: Row.tokens b.operand) := by
    rw [Expr.row, tokens_joined rfl, tokens_joined rfl, List.append_assoc]
    rfl
  rw [htokens] at h
  obtain ⟨span, mid, hyes, hmid⟩ := h.around
  obtain ⟨span', mid', htest, hno⟩ := hmid.around
  have hs : Starts 0 ts := Expr.starts_operand hyes
  have hif : Ends 9 (⟨.keyword .if_, span⟩ :: mid) := by simp [Ends, next, looseness]
  have helse : Ends 9 (⟨.keyword .else_, span'⟩ :: mid') := by simp [Ends, next, looseness]
  exact expr_of_reader 10 (ternary_op (ha.onLevel 9 hyes hif) (ht.onLevel 9 htest helse) (hb.onLevel 11 hno hend))
    (by decide) (hs.mono (by decide)) hend

end

section

variable {e : Expr} {es : List Expr}

theorem Expr.Reads.list (hes : ∀ e ∈ es, e.Reads) : (Expr.list es).Reads := by
  intro ts rest h hend
  rw [Expr.row, operands_eq_map] at h
  obtain ⟨span, inner, span', rfl, hitems⟩ := Spelt.bracketed (b := .square) h
  have hread := commaList_of_reads hes hitems rfl
  rw [Expr.tree, trees_eq_map]
  exact expr_of_reader 0 (atom_list hread) (by decide) (by simp [Starts, next, prefixLevel, Row.opening]) hend

theorem Expr.Reads.call (he : e.Reads) (hes : ∀ e ∈ es, e.Reads) : (Expr.call e es).Reads := by
  intro ts rest h hend
  rw [Expr.row, List.append_assoc, Row.tokens_append, operands_eq_map] at h
  obtain ⟨mid, hl, hmid⟩ := h.split
  obtain ⟨span, inner, span', rfl, hargs⟩ := Spelt.bracketed (b := .round) hmid
  have hs : Starts 0 ts := Expr.starts_operand hl
  have hread := primary_call (he.asAtom hl) (commaList_of_reads hes hargs rfl) (hend.mono (by decide))
  rw [Expr.tree, trees_eq_map]
  exact expr_of_reader 1 hread (by decide) (hs.mono (by decide)) hend

theorem Expr.Reads.lambda (he : e.Reads) (ps : Params) : (Expr.lambda ps e).Reads := by
  intro ts rest h hend
  have htokens : Row.tokens (Expr.lambda ps e).row = .keyword .lambda ::
      (Row.tokens (separated ps.rows) ++ .symbol .colon :: Row.tokens e.operand) := by
    rw [Expr.row, Row.tokens_append, Params.lambdaRow]
    split
    · next hrows =>
      rw [hrows]
      rfl
    · next rows hrows =>
      rw [Row.tokens_append, List.append_assoc]
      rfl
  rw [htokens] at h
  obtain ⟨span, mid, rfl, hmid⟩ := h.head
  obtain ⟨span', value, hps, hvalue⟩ := hmid.around
  exact lambda_of_params (ps.reads hps rfl (by decide) (by decide)) (he.onLevel 11 hvalue hend)

end

/-- Names and constants are read by themselves. -/
theorem Expr.reads_of_simple {e : Expr} (he : e.isCompound = false) : e.Reads := by
  intro ts rest h hend
  have hs : Starts 0 ts := by
    have hoperand : e.operand = e.row := by rw [operand, he, enclose, if_neg Bool.false_ne_true]
    rw [← hoperand] at h
    exact starts_operand h
  exact expr_of_reader 0 (atom_of_simple he h) (by decide) hs hend

mutual

theorem Expr.reads (e : Expr) : e.Reads := by
  cases e with
  | constant c => exact Expr.reads_of_simple rfl
  | name x => exact Expr.reads_of_simple rfl
  | unary op e => exact (Expr.reads e).unary op
  | binary op a b => exact (Expr.reads a).binary (Expr.reads b) op
  | and a b => exact (Expr.reads a).and (Expr.reads b)
  | or a b => exact (Expr.reads a).or (Expr.reads b)
  | conditional test yes no => exact (Expr.reads yes).conditional (Expr.reads no) (Expr.reads test)
  | lambda ps e => exact (Expr.reads e).lambda ps
  | call f args => exact (Expr.reads f).call (allRead args)
  | list items => exact Expr.Reads.list (allRead items)
  | subscript e i => exact (Expr.reads e).subscript (Expr.reads i)

theorem allRead (es : List Expr) : ∀ e ∈ es, e.Reads := by
  cases es with
  | nil => simp
  | cons e rest =>
    have he := Expr.reads e
    have hrest := allRead rest
    intro e' he'
    rcases List.mem_cons.mp he' with rfl | he'
    · exact he
    · exact hrest e' he'

end

/-- The token starts an expression. -/
def startsExpr : Kind → Bool
  | .symbol .plus | .symbol .minus | .keyword .not | .keyword .lambda | .symbol .lbracket => true
  | k => startsPart k

theorem startsExpr_of_startsPart (h : startsPart k = true) : startsExpr k = true := by
  unfold startsExpr
  split
  all_goals first | rfl | exact h

theorem Expr.row_head (e : Expr) : ∃ k ks, Row.tokens e.row = k :: ks ∧ startsExpr k = true := by
  have operand_first (a : Expr) (r : Row) : ∃ k ks, Row.tokens (a.operand ++ r) = k :: ks ∧ startsExpr k = true := by
    obtain ⟨k, ks, hk, hstarts⟩ := a.operand_head
    exact ⟨k, ks ++ Row.tokens r, by rw [Row.tokens_append, hk]; rfl, startsExpr_of_startsPart hstarts⟩
  cases e with
  | constant c =>
    obtain ⟨k, ks, hk, hstarts⟩ := (Expr.constant c).operand_head
    exact ⟨k, ks, hk, startsExpr_of_startsPart hstarts⟩
  | name x => exact ⟨_, _, rfl, rfl⟩
  | unary op e => cases op <;> exact ⟨_, _, rfl, rfl⟩
  | binary op a b | and a b | or a b =>
    rw [row, joined, List.append_assoc]
    exact operand_first a _
  | conditional test yes no =>
    rw [row, joined, joined, List.append_assoc, List.append_assoc, List.append_assoc]
    exact operand_first yes _
  | lambda ps e =>
    rw [row, Params.lambdaRow]
    split
    all_goals exact ⟨_, _, rfl, rfl⟩
  | call f args =>
    rw [row, List.append_assoc]
    exact operand_first f _
  | list items => exact ⟨_, _, rfl, rfl⟩
  | subscript e i =>
    rw [row, List.append_assoc]
    exact operand_first e _

theorem Expr.startsExpr_next {e : Expr} (h : Spelt (Row.tokens e.row) ts rest) : startsExpr (next ts).kind = true := by
  obtain ⟨k, ks, hk, hstarts⟩ := e.row_head
  rw [hk] at h
  obtain ⟨span, mid, rfl, -⟩ := h.head
  exact hstarts

end CseMachine.Surface
