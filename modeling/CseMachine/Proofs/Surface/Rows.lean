import CseMachine.Proofs.Surface.Pieces
import Mathlib.Data.List.Chain

/-!
# Rows of pieces

A row is neat if every piece in it ends where the next one starts, and if it
closes the brackets that it opens. Neat rows can be put next to spaces, signs and
brackets, and what comes out is neat again; so the rows of all expressions are.
-/
namespace CseMachine.Surface

namespace Piece

/-- The first piece ends where the second starts. -/
def Apart (p q : Piece) : Prop := ∀ c ∈ q.text.head?, p.stopsAt c = true

/-- Spaces and all signs may follow. -/
def isFirm : Piece → Bool
  | .space => false
  | .sign s => !s.canGrow
  | _ => true

/-- Neither space nor sign. -/
def isSolid : Piece → Bool
  | .space | .sign _ => false
  | _ => true

/-- The open brackets behind a piece, innermost first, unless it closes one that is not open. -/
def bracket (stack : List Bracket) : Piece → Option (List Bracket)
  | .sign s =>
    match s.opens?, s.closes? with
    | some b, _ => some (b :: stack)
    | none, some b =>
      match stack with
      | o :: rest => if o = b then some rest else none
      | [] => none
    | none, none => some stack
  | _ => some stack

theorem isFirm_of_isSolid {p : Piece} (h : p.isSolid = true) : p.isFirm = true := by
  cases p with
  | space => cases h
  | sign s => cases h
  | _ => rfl

theorem ne_space_of_isFirm {p : Piece} (h : p.isFirm = true) : p ≠ .space := by
  rintro rfl
  cases h

theorem bracket_of_isSolid {p : Piece} (h : p.isSolid = true) (stack : List Bracket) : p.bracket stack = some stack := by
  cases p with
  | sign s => cases h
  | _ => rfl

theorem apart_space {p : Piece} (h : p ≠ .space) : p.Apart .space := by
  intro c hc
  obtain rfl := Option.some.inj hc
  cases p with
  | space => exact absurd rfl h
  | sign s => simp [stopsAt, Lexeme.grows]
  | _ => rfl

theorem isWordPart_of_head {w : List Char} (hw : isWord w = true) {c : Char} (hc : c ∈ w.head?) :
    Lexeme.isWordPart c = true := by
  cases w with
  | nil => cases hc
  | cons d w =>
    obtain rfl := Option.some.inj hc
    simp only [isWord, Lexeme.isWordStart, Bool.and_eq_true, Bool.or_eq_true] at hw
    simp only [Lexeme.isWordPart, Char.isAlphanum, Bool.or_eq_true]
    tauto

theorem not_isBlank_of_isWordPart {c : Char} (h : Lexeme.isWordPart c = true) : Lexeme.isBlank c = false := by
  refine eq_false_of_ne_true fun hb => ?_
  rcases Lexeme.isBlank_cases hb with rfl | rfl | rfl | rfl <;> cases h

theorem not_grows_of_isWordPart {c : Char} (h : Lexeme.isWordPart c = true) : Lexeme.grows c = false := by
  refine eq_false_of_ne_true fun hg => ?_
  simp only [Lexeme.grows, Bool.or_eq_true, decide_eq_true_eq] at hg
  rcases hg with (rfl | rfl) | rfl <;> cases h

/-- No piece but the space starts with a blank. -/
theorem space_apart {p : Piece} (h : p ≠ .space) : Apart .space p := by
  intro c hc
  simp only [stopsAt, Bool.not_eq_true']
  cases p with
  | space => exact absurd rfl h
  | name x => exact not_isBlank_of_isWordPart (isWordPart_of_head x.word hc)
  | keyword k => exact not_isBlank_of_isWordPart (isWordPart_of_head (isWord_text k) hc)
  | number n =>
    rw [text, Nat.toList_repr] at hc
    have hd := Nat.isDigit_of_mem_toDigits (by decide) (by decide) (List.mem_of_mem_head? hc)
    exact not_isBlank_of_isWordPart (by simp [Lexeme.isWordPart, Char.isAlphanum, hd])
  | str s =>
    rw [text, quote_toList] at hc
    obtain rfl := Option.some.inj hc
    rcases quoteFor_cases s.text.toList with hq | hq <;> rw [hq] <;> rfl
  | sign s => cases s <;> obtain rfl := Option.some.inj hc <;> rfl

theorem apart_sign {p : Piece} (h : p.isFirm = true) (s : Symbol) : p.Apart (.sign s) := by
  intro c hc
  cases p with
  | space => cases h
  | sign s' =>
    simp only [isFirm, Bool.not_eq_true'] at h
    simp [stopsAt, h]
  | str t => rfl
  | _ => cases s <;> obtain rfl := Option.some.inj hc <;> rfl

theorem sign_apart {s : Symbol} (h : s.canGrow = false) (p : Piece) : Apart (.sign s) p := by
  intro c _
  simp [stopsAt, h]

theorem sign_apart_name (s : Symbol) (x : Name) : Apart (.sign s) (.name x) := by
  intro c hc
  simp [stopsAt, not_grows_of_isWordPart (isWordPart_of_head x.word hc)]

end Piece

open Piece

namespace Row

/-- The open brackets behind a row. -/
def brackets (stack : List Bracket) (r : Row) : Option (List Bracket) := r.foldlM Piece.bracket stack

structure Neat (r : Row) : Prop where
  chain : r.IsChain Apart
  first : ∃ p ∈ r.head?, p ≠ .space
  last : ∃ p ∈ r.getLast?, p.isFirm = true
  balanced : ∀ stack, brackets stack r = some stack

variable {a b r : Row} {p : Piece} {s : Symbol}

theorem brackets_append (stack : List Bracket) (a b : Row) :
    brackets stack (a ++ b) = (brackets stack a).bind fun stack => brackets stack b := List.foldlM_append

theorem brackets_cons (stack : List Bracket) (p : Piece) (r : Row) :
    brackets stack (p :: r) = (p.bracket stack).bind fun stack => brackets stack r := List.foldlM_cons

theorem chain_space_cons (h : Neat r) : (Piece.space :: r).IsChain Apart := by
  obtain ⟨p, hp, hne⟩ := h.first
  cases r with
  | nil => cases hp
  | cons q r =>
    obtain rfl := Option.some.inj hp
    exact List.isChain_cons_cons.mpr ⟨space_apart hne, h.chain⟩

theorem Neat.chain_append (ha : Neat a) (hb : b.IsChain Apart)
    (h : ∀ p : Piece, p.isFirm = true → ∀ q ∈ b.head?, p.Apart q) : (a ++ b).IsChain Apart := by
  obtain ⟨p, hp, hfirm⟩ := ha.last
  refine List.isChain_append.mpr ⟨ha.chain, hb, ?_⟩
  intro p' hp'
  obtain rfl := Option.some.inj (hp.symm.trans hp')
  exact h p hfirm

theorem Neat.chain_append_space (ha : Neat a) (hb : (Piece.space :: b).IsChain Apart) :
    (a ++ Piece.space :: b).IsChain Apart := by
  refine ha.chain_append hb ?_
  intro p hfirm q hq
  obtain rfl := Option.some.inj hq
  exact apart_space (ne_space_of_isFirm hfirm)

theorem Neat.chain_append_sign (ha : Neat a) (hb : (Piece.sign s :: b).IsChain Apart) :
    (a ++ Piece.sign s :: b).IsChain Apart := by
  refine ha.chain_append hb ?_
  intro p hfirm q hq
  obtain rfl := Option.some.inj hq
  exact apart_sign hfirm s

theorem chain_sign_cons (hs : s.canGrow = false) (h : r.IsChain Apart) : (Piece.sign s :: r).IsChain Apart := by
  cases r with
  | nil => exact .singleton _
  | cons q r => exact List.isChain_cons_cons.mpr ⟨sign_apart hs q, h⟩

theorem Neat.single (hf : p.isFirm = true) (hb : ∀ stack, p.bracket stack = some stack) : Neat [p] where
  chain := .singleton p
  first := ⟨p, rfl, ne_space_of_isFirm hf⟩
  last := ⟨p, rfl, hf⟩
  balanced stack := by
    rw [brackets_cons, hb]
    rfl

theorem Neat.solid (h : p.isSolid = true) : Neat [p] := .single (isFirm_of_isSolid h) (bracket_of_isSolid h)

/-- A row starts and ends like the neat rows at its ends. -/
theorem Neat.of_ends (mid : Row) (ha : Neat a) (hb : Neat b) (hc : (a ++ (mid ++ b)).IsChain Apart)
    (hm : ∀ stack, brackets stack mid = some stack) : Neat (a ++ (mid ++ b)) where
  chain := hc
  first := by
    obtain ⟨p, hp, hne⟩ := ha.first
    refine ⟨p, ?_, hne⟩
    rw [List.head?_append, hp]
    rfl
  last := by
    obtain ⟨p, hp, hfirm⟩ := hb.last
    refine ⟨p, ?_, hfirm⟩
    rw [List.getLast?_append, List.getLast?_append, hp]
    rfl
  balanced stack := by
    rw [brackets_append, ha.balanced, Option.bind_some, brackets_append, hm, Option.bind_some, hb.balanced]

theorem Neat.joined (ha : Neat a) (hb : Neat b) (hp : p ≠ .space) (hn : ∀ stack, p.bracket stack = some stack) :
    Neat (joined a p b) := by
  rw [Surface.joined, List.append_assoc]
  refine Neat.of_ends _ ha hb (ha.chain_append_space ?_) ?_
  · exact List.isChain_cons_cons.mpr ⟨space_apart hp, List.isChain_cons_cons.mpr ⟨apart_space hp, chain_space_cons hb⟩⟩
  · intro stack
    simp only [brackets_cons, hn, Option.bind_some]
    rfl

theorem Neat.comma (ha : Neat a) (hb : Neat b) : Neat (a ++ [.sign .comma, .space] ++ b) := by
  rw [List.append_assoc]
  exact .of_ends _ ha hb (ha.chain_append_sign (chain_sign_cons rfl (chain_space_cons hb))) fun _ => rfl

theorem Neat.separated {rs : List Row} (hne : rs ≠ []) (h : ∀ r ∈ rs, Neat r) : Neat (separated rs) := by
  induction rs with
  | nil => exact absurd rfl hne
  | cons r rs ih =>
    cases rs with
    | nil => exact h r (.head _)
    | cons r' rs => exact (h r (.head _)).comma (ih (by simp) fun r'' hr => h r'' (.tail _ hr))

theorem Neat.spaced (ha : Neat a) (hb : Neat b) : Neat (a ++ .space :: b) :=
  .of_ends [.space] ha hb (ha.chain_append_space (chain_space_cons hb)) fun _ => rfl

theorem Neat.keyword (k : Keyword) (hr : Neat r) : Neat (.keyword k :: .space :: r) :=
  have hk : Neat [.keyword k] := .solid rfl
  hk.spaced hr

/-- A sign that is no bracket and cannot grow may stand in front of a row. -/
theorem Neat.signed (hs : s.canGrow = false) (hn : ∀ stack, (Piece.sign s).bracket stack = some stack) (hr : Neat r) :
    Neat (.sign s :: r) :=
  have hsign : Neat [.sign s] := .single (by simp [isFirm, hs]) hn
  .of_ends [] hsign hr (chain_sign_cons hs hr.chain) fun _ => rfl

theorem Neat.colon (hr : Neat r) : Neat (r ++ [.sign .colon]) :=
  have hcolon : Neat [.sign .colon] := .single rfl fun _ => rfl
  .of_ends [] hr hcolon (hr.chain_append_sign hcolon.chain) fun _ => rfl

/-- A row and one that starts with a sign. -/
theorem Neat.append_sign (ha : Neat a) (hb : Neat (.sign s :: b)) : Neat (a ++ .sign s :: b) :=
  .of_ends [] ha hb (ha.chain_append_sign hb.chain) fun _ => rfl

def opening : Bracket → Symbol
  | .round => .lparen
  | .square => .lbracket

def closing : Bracket → Symbol
  | .round => .rparen
  | .square => .rbracket

theorem bracket_opening (k : Bracket) (stack : List Bracket) :
    (Piece.sign (opening k)).bracket stack = some (k :: stack) := by
  cases k <;> rfl

theorem bracket_closing (k : Bracket) (stack : List Bracket) :
    (Piece.sign (closing k)).bracket (k :: stack) = some stack := by
  cases k <;> rfl

/-- Nothing or a neat row in brackets. -/
theorem Neat.bracketed (k : Bracket) (hr : r = [] ∨ Neat r) :
    Neat (.sign (opening k) :: r ++ [.sign (closing k)]) where
  chain := by
    have hopen : (opening k).canGrow = false := by cases k <;> rfl
    refine chain_sign_cons hopen ?_
    rcases hr with rfl | hr
    · exact .singleton _
    · exact hr.chain_append_sign (.singleton _)
  first := ⟨_, rfl, by simp⟩
  last := by
    refine ⟨.sign (closing k), by rw [List.getLast?_concat]; rfl, ?_⟩
    cases k <;> rfl
  balanced stack := by
    have hinner : brackets (k :: stack) r = some (k :: stack) := by
      rcases hr with rfl | hr
      · rfl
      · exact hr.balanced _
    rw [List.cons_append, brackets_cons, bracket_opening, Option.bind_some, brackets_append, hinner, Option.bind_some,
      brackets_cons, bracket_closing]
    rfl

theorem Neat.enclosed (h : Neat r) (needed : Bool) : Neat (enclose needed r) := by
  cases needed with
  | false => exact h
  | true => exact .bracketed .round (.inr h)

end Row

open Row

/-! Expressions and the lines that they stand in -/

theorem Params.rows_neat (ps : Params) : ∀ r ∈ ps.rows, Neat r := by
  intro r hr
  simp only [rows, List.mem_append, List.mem_map] at hr
  rcases hr with ⟨x, -, rfl⟩ | ⟨x, -, rfl⟩
  · exact .solid rfl
  · have hx : Neat [.name x] := .solid rfl
    refine ⟨?_, ⟨_, rfl, by simp⟩, hx.last, hx.balanced⟩
    exact List.isChain_cons_cons.mpr ⟨sign_apart_name .star x, hx.chain⟩

theorem separated_neat {rs : List Row} (h : ∀ r ∈ rs, Neat r) : separated rs = [] ∨ Neat (separated rs) := by
  cases rs with
  | nil => exact .inl rfl
  | cons r rs => exact .inr (.separated (by simp) h)

theorem Params.lambdaRow_neat (ps : Params) : Neat ps.lambdaRow := by
  have hrows := ps.rows_neat
  simp only [lambdaRow]
  cases h : ps.rows with
  | nil => exact .colon (.solid rfl)
  | cons r rs =>
    rw [h] at hrows
    exact ((Neat.separated (by simp) hrows).keyword .lambda).colon

theorem Constant.piece_isSolid (c : Constant) : c.piece.isSolid = true := by
  cases c with
  | bool b => cases b <;> rfl
  | _ => rfl

theorem bracket_binarySign (op : BinaryOp) (stack : List Bracket) :
    (Piece.sign (binarySign op)).bracket stack = some stack := by
  cases op with
  | arith op => cases op <;> rfl
  | order op => cases op <;> rfl
  | _ => rfl

mutual

theorem Expr.row_neat (e : Expr) : Neat e.row := by
  cases e with
  | constant c => exact .solid c.piece_isSolid
  | name x => exact .solid rfl
  | unary op e =>
    have he := (Expr.row_neat e).enclosed e.isCompound
    cases op with
    | neg => exact he.signed rfl fun _ => rfl
    | plus => exact he.signed rfl fun _ => rfl
    | not => exact he.keyword .not
  | binary op a b =>
    have ha := (Expr.row_neat a).enclosed a.isCompound
    have hb := (Expr.row_neat b).enclosed b.isCompound
    exact ha.joined hb (by simp) (bracket_binarySign op)
  | and a b =>
    have ha := (Expr.row_neat a).enclosed a.isCompound
    have hb := (Expr.row_neat b).enclosed b.isCompound
    exact ha.joined hb (by simp) fun _ => rfl
  | or a b =>
    have ha := (Expr.row_neat a).enclosed a.isCompound
    have hb := (Expr.row_neat b).enclosed b.isCompound
    exact ha.joined hb (by simp) fun _ => rfl
  | conditional test yes no =>
    have ht := (Expr.row_neat test).enclosed test.isCompound
    have hy := (Expr.row_neat yes).enclosed yes.isCompound
    have hn := (Expr.row_neat no).enclosed no.isCompound
    exact (hy.joined ht (by simp) fun _ => rfl).joined hn (by simp) fun _ => rfl
  | lambda ps e =>
    have he := (Expr.row_neat e).enclosed e.isCompound
    exact ps.lambdaRow_neat.spaced he
  | call f args =>
    have hf := (Expr.row_neat f).enclosed f.isCompound
    have hargs := separated_neat (operands_neat args)
    rw [Expr.row, List.append_assoc]
    exact hf.append_sign (.bracketed .round hargs)
  | list items => exact .bracketed .square (separated_neat (operands_neat items))
  | subscript e i =>
    have he := (Expr.row_neat e).enclosed e.isCompound
    have hi := (Expr.row_neat i).enclosed i.isCompound
    rw [Expr.row, List.append_assoc]
    exact he.append_sign (.bracketed .square (.inr hi))

theorem operands_neat (es : List Expr) : ∀ r ∈ operands es, Neat r := by
  cases es with
  | nil => simp [operands]
  | cons e rest =>
    have he := (Expr.row_neat e).enclosed e.isCompound
    have hrest := operands_neat rest
    intro r hr
    rcases List.mem_cons.mp hr with rfl | hr
    · exact he
    · exact hrest r hr

end

theorem header_neat (word : Keyword) (e : Expr) : Neat (header word e) := (e.row_neat.keyword word).colon

theorem defHeader_neat (f : Name) (ps : Params) : Neat (defHeader f ps) := by
  have hf : Neat [.name f] := .solid rfl
  have hall := ((hf.append_sign (.bracketed .round (separated_neat ps.rows_neat))).keyword .def_).colon
  simpa [defHeader, opening, closing] using hall

theorem outerRow_neat (x : Name) (xs : List Name) : Neat (outerRow x xs) := by
  have hall : ∀ r ∈ (x :: xs).map fun x => [Piece.name x], Neat r := by
    intro r hr
    obtain ⟨y, -, rfl⟩ := List.mem_map.mp hr
    exact .solid rfl
  exact (Neat.separated (by simp) hall).keyword .nonlocal

end CseMachine.Surface
