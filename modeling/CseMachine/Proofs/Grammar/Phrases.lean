import CseMachine.Proofs.Parsing
import CseMachine.Proofs.Scoping.Expressions

/-!
# Phrases

The grammar of expressions as a relation between tokens and the trees they stand
for, one constructor for each alternative. What the grammar repeats is repeated to
the right of what it has, so operators of one level group to the left.
-/
namespace CseMachine.Parse

open Token (Kind)

/-- The nonterminals, tightest binding first. -/
inductive Category where
  | atom | primary | power | factor | product | sum | comparison | negation | conjunction | disjunction | ternary | expr
  deriving DecidableEq

/-- Phrases with commas between them, one of which may follow the last. -/
inductive Listed {α : Type} : List (List Token × α) → List Token → Prop
  | nil : Listed [] []
  | last {us : List Token} {a : α} : Listed [(us, a)] us
  | cons {us vs : List Token} {a : α} {items : List (List Token × α)} {comma : Span} (rest : Listed items vs) :
      Listed ((us, a) :: items) (us ++ ⟨.symbol .comma, comma⟩ :: vs)

/-- A name by itself, or one after a star that takes the further arguments. -/
inductive SpellsParam : List Token → Param → Prop
  | plain {name : String} {span : Span} : SpellsParam [⟨.ident name, span⟩] ⟨name, false, .none⟩
  | rest {name : String} {star span : Span} :
      SpellsParam [⟨.symbol .star, star⟩, ⟨.ident name, span⟩] ⟨name, true, .none⟩

/-- The tokens are a phrase of the category, and this is its tree without spans. -/
inductive Derives : Category → List Token → Node → Prop
  | lambda {us vs : List Token} {value : Node} {start colon : Span} (params : List (List Token × Param))
      (spelt : ∀ p ∈ params, SpellsParam p.1 p.2) (listed : Listed params us) (proper : ProperParams (params.map (·.2)))
      (hvalue : Derives .expr vs value) :
      Derives .expr (⟨.keyword .lambda, start⟩ :: us ++ ⟨.symbol .colon, colon⟩ :: vs)
        (.lambda .none ⟨none, params.map (·.2), .block .none [] [.ret .none (some value)], []⟩)
  | exprTernary {us : List Token} {x : Node} (h : Derives .ternary us x) : Derives .expr us x
  | conditional {us vs ws : List Token} {yes test no : Node} {word word' : Span} (hyes : Derives .disjunction us yes)
      (htest : Derives .disjunction vs test) (hno : Derives .expr ws no) :
      Derives .ternary (us ++ ⟨.keyword .if_, word⟩ :: (vs ++ ⟨.keyword .else_, word'⟩ :: ws)) (.conditional .none test yes no)
  | ternaryDisjunction {us : List Token} {x : Node} (h : Derives .disjunction us x) : Derives .ternary us x
  | or {us vs : List Token} {x y : Node} {word : Span} (left : Derives .disjunction us x) (right : Derives .conjunction vs y) :
      Derives .disjunction (us ++ ⟨.keyword .or, word⟩ :: vs) (.conditional .none x (.literal .none (.bool true)) y)
  | disjunctionConjunction {us : List Token} {x : Node} (h : Derives .conjunction us x) : Derives .disjunction us x
  | and {us vs : List Token} {x y : Node} {word : Span} (left : Derives .conjunction us x) (right : Derives .negation vs y) :
      Derives .conjunction (us ++ ⟨.keyword .and, word⟩ :: vs) (.conditional .none x y (.literal .none (.bool false)))
  | conjunctionNegation {us : List Token} {x : Node} (h : Derives .negation us x) : Derives .conjunction us x
  | not {us : List Token} {x : Node} {word : Span} (operand : Derives .negation us x) :
      Derives .negation (⟨.keyword .not, word⟩ :: us) (.unary .none .not x)
  | negationComparison {us : List Token} {x : Node} (h : Derives .comparison us x) : Derives .negation us x
  | relation {us vs : List Token} {x y : Node} {k : Kind} {sign : Span} {op : BinaryOp} (hop : relation? k = some op)
      (left : Derives .sum us x) (right : Derives .sum vs y) :
      Derives .comparison (us ++ ⟨k, sign⟩ :: vs) (.binary .none op x y)
  | comparisonSum {us : List Token} {x : Node} (h : Derives .sum us x) : Derives .comparison us x
  | sumOp {us vs : List Token} {x y : Node} {k : Kind} {sign : Span} {op : BinaryOp} (hop : sumOp? k = some op)
      (left : Derives .sum us x) (right : Derives .product vs y) :
      Derives .sum (us ++ ⟨k, sign⟩ :: vs) (.binary .none op x y)
  | sumProduct {us : List Token} {x : Node} (h : Derives .product us x) : Derives .sum us x
  | productOp {us vs : List Token} {x y : Node} {k : Kind} {sign : Span} {op : BinaryOp} (hop : productOp? k = some op)
      (left : Derives .product us x) (right : Derives .factor vs y) :
      Derives .product (us ++ ⟨k, sign⟩ :: vs) (.binary .none op x y)
  | productFactor {us : List Token} {x : Node} (h : Derives .factor us x) : Derives .product us x
  | sign {us : List Token} {x : Node} {k : Kind} {sign : Span} {op : UnaryOp} (hop : signOp? k = some op)
      (operand : Derives .factor us x) : Derives .factor (⟨k, sign⟩ :: us) (.unary .none op x)
  | factorPower {us : List Token} {x : Node} (h : Derives .power us x) : Derives .factor us x
  | power {us vs : List Token} {x y : Node} {sign : Span} (base : Derives .primary us x) (exponent : Derives .factor vs y) :
      Derives .power (us ++ ⟨.symbol .starStar, sign⟩ :: vs) (.binary .none (.arith .pow) x y)
  | powerPrimary {us : List Token} {x : Node} (h : Derives .primary us x) : Derives .power us x
  | call {us vs : List Token} {x : Node} {start stop : Span} (args : List (List Token × Node)) (callee : Derives .primary us x)
      (hargs : ∀ a ∈ args, Derives .expr a.1 a.2) (listed : Listed args vs) :
      Derives .primary (us ++ ⟨.symbol .lparen, start⟩ :: (vs ++ [⟨.symbol .rparen, stop⟩])) (.call .none x (args.map (·.2)))
  | subscript {us vs : List Token} {x index : Node} {start stop : Span} (container : Derives .primary us x)
      (hindex : Derives .expr vs index) :
      Derives .primary (us ++ ⟨.symbol .lbracket, start⟩ :: (vs ++ [⟨.symbol .rbracket, stop⟩])) (.subscript .none x index)
  | primaryAtom {us : List Token} {x : Node} (h : Derives .atom us x) : Derives .primary us x
  | literal {k : Kind} {span : Span} {value : Literal} (hvalue : literal? k = some value) :
      Derives .atom [⟨k, span⟩] (.literal .none value)
  | name {name : String} {span : Span} : Derives .atom [⟨.ident name, span⟩] (.identifier .none name)
  | paren {us : List Token} {x : Node} {start stop : Span} (inner : Derives .expr us x) :
      Derives .atom (⟨.symbol .lparen, start⟩ :: (us ++ [⟨.symbol .rparen, stop⟩])) x
  | list {us : List Token} {start stop : Span} (items : List (List Token × Node)) (hitems : ∀ i ∈ items, Derives .expr i.1 i.2)
      (listed : Listed items us) :
      Derives .atom (⟨.symbol .lbracket, start⟩ :: (us ++ [⟨.symbol .rbracket, stop⟩])) (.list .none (items.map (·.2)))

end CseMachine.Parse
