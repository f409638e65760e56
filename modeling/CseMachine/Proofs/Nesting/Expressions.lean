import CseMachine.Proofs.Nesting.Trees
import CseMachine.Proofs.Parsing

/-!
# Where expressions stand

A reader that is given tokens from an offset on reads a node that starts there or later, is
nested in the source and ends in front of the tokens that are left. What it refuses is a
token, or a few of them.
-/
namespace CseMachine.Parse

open Token (Ahead Kind)

variable {cs : List Char} {lo : Nat} {ts us rest : List Token} {k : Kind} {n e : Node} {ns ms : List Node} {word stop : Span}

theorem next_range (h : Ahead cs lo ts) : (next ts).span.CutFrom cs := by
  cases ts with
  | nil => exact absurd rfl h.ne_nil
  | cons t ts => exact h.head.2

/-- A token is taken: it stands behind everything in front of the tokens, and the others are ahead of it. -/
structure Taken (cs : List Char) (ts : List Token) (span : Span) (rest : List Token) : Prop where
  behind : ∀ lo, Ahead cs lo ts → lo ≤ span.start
  range : span.CutFrom cs
  ahead : Ahead cs span.stop rest

/-- What is ahead of an offset with the token is ahead of it without. -/
theorem Taken.skip (h : Taken cs ts word rest) (hts : Ahead cs lo ts) : Ahead cs lo rest :=
  h.ahead.mono (Nat.le_trans (h.behind lo hts) h.range.ordered)

theorem taken {t : Token} (h : Ahead cs lo (t :: rest)) (hk : t.kind ≠ .eof) : Taken cs (t :: rest) t.span rest :=
  ⟨fun _ h' => h'.head.1, h.head.2, h.tail hk⟩

theorem expect_taken (h : Ahead cs lo ts) (hk : k ≠ .eof) : Traced cs (fun r => Taken cs ts r.1 r.2.val) (expect k ts) := by
  unfold expect
  split
  · split
    · next hkind => exact .ok (taken h (hkind ▸ hk))
    · exact .error h.head.2
  · exact absurd rfl h.ne_nil

theorem expectSymbol_taken (s : Symbol) (h : Ahead cs lo ts) :
    Traced cs (fun r => Taken cs ts r.1 r.2.val) (expectSymbol s ts) :=
  expect_taken h (by simp)

theorem expectName_taken (h : Ahead cs lo ts) : Traced cs (fun r => Taken cs ts r.1.2 r.2.val) (expectName ts) := by
  unfold expectName
  split
  · exact .ok (taken h (by simp))
  · exact .error (next_range h)

/-! Nodes from what has been read -/

/-- The range is between the offset and the tokens. -/
def Between (cs : List Char) (lo : Nat) (ts : List Token) (s : Span) : Prop := lo ≤ s.start ∧ Ahead cs s.stop ts

theorem Between.merge {s t : Span} (hs : Between cs lo ts s) (ht : Between cs lo ts t) : Between cs lo ts (s.merge t) := by
  refine ⟨Nat.le_min.mpr ⟨hs.1, ht.1⟩, ?_⟩
  rcases Nat.le_total s.stop t.stop with h | h
  · rw [Span.merge_stop, Nat.max_eq_right h]
    exact ht.2
  · rw [Span.merge_stop, Nat.max_eq_left h]
    exact hs.2

namespace Lined

theorem between (h : Lined cs lo ns ts) (hn : n ∈ ns) : Between cs lo ts n.span :=
  ⟨(h.forall_mem n hn).1, (h.forall_mem n hn).2.2⟩

theorem nested (h : Lined cs lo ns ts) (hn : n ∈ ns) : n.Nested cs := (h.forall_mem n hn).2.1

theorem single (hb : Between cs lo ts n.span) (hn : n.Nested cs) : Lined cs lo [n] ts := ⟨hb.1, hn, hb.2⟩

/-- More nodes behind a token. -/
theorem past (h : Lined cs lo ns ts) (hw : Taken cs ts word rest) (hms : Lined cs word.stop ms us) :
    Lined cs lo (ns ++ ms) us := by
  obtain ⟨hi, hts, happend⟩ := h.behind
  exact happend ms us (hms.mono (Nat.le_trans (hw.behind hi hts) hw.range.ordered))

/-- The nodes end in front of the token as well as behind it. -/
theorem before (h : Lined cs lo ns ts) (hw : Taken cs ts word rest) : Lined cs lo ns rest := by
  have hpast : Lined cs lo (ns ++ []) rest := h.past hw hw.ahead
  rwa [List.append_nil] at hpast

/-- The word itself may be a node. -/
theorem pastWord {value : Literal} (h : Lined cs lo ns ts) (hw : Taken cs ts word rest) (hms : Lined cs word.stop ms us) :
    Lined cs lo (ns ++ .literal word value :: ms) us := by
  obtain ⟨hi, hts, happend⟩ := h.behind
  exact happend _ us ⟨hw.behind hi hts, Node.nested_leaf ⟨rfl, rfl⟩ rfl hw.range, hms⟩

theorem binary {op : BinaryOp} {a b : Node} (h : Lined cs lo [a, b] ts) : Lined cs lo [binary op a b] ts := by
  have ha : a ∈ [a, b] := List.mem_cons_self
  have hb : b ∈ [a, b] := List.mem_cons_of_mem a List.mem_cons_self
  refine single ((h.between ha).merge (h.between hb)) ?_
  refine Node.nested_of_plain ⟨rfl, rfl⟩ ((h.nested ha).range.merge (h.nested hb).range) ?_
  refine List.forall_mem_cons.mpr ⟨⟨h.nested ha, Span.within_merge_left ..⟩, ?_⟩
  exact List.forall_mem_singleton.mpr ⟨h.nested hb, Span.within_merge_right ..⟩

/-- The parts of a conditional may stand in any order. -/
theorem conditional {test yes no : Node} (h : Lined cs lo ns ts) (ht : test ∈ ns) (hy : yes ∈ ns) (hn : no ∈ ns) :
    Lined cs lo [conditional test yes no] ts := by
  have hleft := Span.within_merge_left (test.span.merge yes.span) no.span
  refine single (((h.between ht).merge (h.between hy)).merge (h.between hn)) ?_
  refine Node.nested_of_plain ⟨rfl, rfl⟩ (((h.nested ht).range.merge (h.nested hy).range).merge (h.nested hn).range) ?_
  refine List.forall_mem_cons.mpr ⟨⟨h.nested ht, (Span.within_merge_left ..).trans hleft⟩, ?_⟩
  refine List.forall_mem_cons.mpr ⟨⟨h.nested hy, (Span.within_merge_right ..).trans hleft⟩, ?_⟩
  exact List.forall_mem_singleton.mpr ⟨h.nested hn, Span.within_merge_right ..⟩

/-- A node from a word to the last of the nodes behind it. -/
theorem worded {last : Node} (hp : n.IsPlain) (hc : n.children = ns) (hl : ns.getLast? = some last)
    (hspan : n.span = word.merge last.span) (hlo : lo ≤ word.start) (hw : word.CutFrom cs) (h : Lined cs word.stop ns ts) :
    Lined cs lo [n] ts := by
  obtain ⟨front, rfl⟩ := List.getLast?_eq_some_iff.mp hl
  have hmem : last ∈ front ++ [last] := List.mem_concat_self
  have hlast := h.nested hmem
  have hstart := (h.between hmem).1
  have hw' := hw.ordered
  refine single ⟨?_, ?_⟩ (Node.nested_of_plain hp (hspan ▸ hw.merge hlast.range) fun child hm => ?_)
  · rw [hspan, Span.merge_start]
    omega
  · rw [hspan, Span.merge_stop, Nat.max_eq_right (Nat.le_trans hstart hlast.ordered)]
    exact (h.between hmem).2
  · rw [hc] at hm
    refine ⟨h.nested hm, hspan ▸ ?_⟩
    rcases List.mem_append.mp hm with hm' | hm'
    · refine Span.within_merge_between hw' hlast.ordered (h.between hm).1 ?_
      exact (List.pairwise_append.mp h.pairwise).2.2 child hm' last List.mem_cons_self
    · obtain rfl := List.mem_singleton.mp hm'
      exact Span.within_merge_right ..

theorem headed (hp : n.IsPlain) (hc : n.children = [e]) (hspan : n.span = word.merge e.span) (hlo : lo ≤ word.start)
    (hw : word.CutFrom cs) (h : Lined cs word.stop [e] ts) : Lined cs lo [n] ts :=
  worded hp hc rfl hspan hlo hw h

/-- A node up to a closing sign, from a node or a sign in front of the others. -/
theorem closed {start : Span} {lo' : Nat} (hp : n.IsPlain) (hc : n.children = ns) (hspan : n.span = start.merge stop)
    (hlo : lo ≤ start.start) (hstart : start.CutFrom cs) (h : Lined cs lo' ns ts) (hs : Taken cs ts stop rest)
    (hahead : Ahead cs start.stop ts) (hin : ∀ n ∈ ns, n.span = start ∨ start.stop ≤ n.span.start) :
    Lined cs lo [n] rest := by
  have hbehind := hs.behind start.stop hahead
  have h₁ := hstart.ordered
  have h₂ := hs.range.ordered
  refine single ⟨?_, ?_⟩ (Node.nested_of_plain hp (hspan ▸ hstart.merge hs.range) fun child hm => ?_)
  · rw [hspan, Span.merge_start]
    omega
  · rw [hspan, Span.merge_stop, Nat.max_eq_right (by omega)]
    exact hs.ahead
  · rw [hc] at hm
    refine ⟨h.nested hm, hspan ▸ ?_⟩
    rcases hin child hm with heq | hle
    · exact heq ▸ Span.within_merge_left ..
    · exact Span.within_merge_between h₁ h₂ hle (hs.behind _ (h.between hm).2)

/-- A node is applied to others. -/
theorem applied {args : List Node} (hp : n.IsPlain) (hc : n.children = e :: args) (hspan : n.span = e.span.merge stop)
    (h : Lined cs lo (e :: args) ts) (hs : Taken cs ts stop rest) : Lined cs lo [n] rest := by
  have ⟨hlo, he, hargs⟩ := h
  refine closed hp hc hspan hlo he.range h hs hargs.ahead ?_
  exact List.forall_mem_cons.mpr ⟨.inl rfl, fun a ha => .inr (hargs.between ha).1⟩

theorem leaf (hp : n.IsPlain) (hc : n.children = []) (hs : Taken cs ts n.span rest) (h : Ahead cs lo ts) : Lined cs lo [n] rest :=
  ⟨hs.behind lo h, Node.nested_leaf hp hc hs.range, hs.ahead⟩

/-- A function from its word to its body. -/
theorem func {f : Func} (hf : n.func? = some f) (hspan : n.span = word.merge f.body.span) (hlo : lo ≤ word.start)
    (hw : word.CutFrom cs) (hb : Lined cs word.stop [f.body] ts)
    (hp : ∀ p ∈ f.params, p.span.CutFrom cs ∧ word.stop ≤ p.span.start ∧ p.span.stop ≤ f.body.span.start) :
    Lined cs lo [n] ts := by
  obtain ⟨hle, hbody, hts⟩ := hb
  have hw' := hw.ordered
  refine single ⟨?_, ?_⟩ (Node.nested_func hf hspan hw hbody hp)
  · rw [hspan, Span.merge_start]
    omega
  · rw [hspan, Span.merge_stop, Nat.max_eq_right (Nat.le_trans hle hbody.ordered)]
    exact hts

end Lined

/-! Parameters -/

theorem eat_ahead (h : Ahead cs lo ts) (hk : k ≠ .eof) : Ahead cs lo (eat k ts).2.val := by
  unfold eat
  split
  · split
    · next hkind => exact (taken h (hkind ▸ hk)).skip h
    · exact h
  · exact absurd rfl h.ne_nil

/-- The parameter is cut from what is between the offset and the tokens. -/
def Holds (cs : List Char) (lo : Nat) (ts : List Token) (p : Param) : Prop := p.span.CutFrom cs ∧ Between cs lo ts p.span

theorem Taken.holds {p : Param} (h : Taken cs ts word rest) (hp : Holds cs lo ts p) : Holds cs lo rest p :=
  ⟨hp.1, hp.2.1, h.skip hp.2.2⟩

theorem params_hold (close : Kind) (read : List Param) (ts : List Token) {lo : Nat} (h : Ahead cs lo ts)
    (hr : ∀ p ∈ read, Holds cs lo ts p) :
    Traced cs (fun r => Ahead cs lo r.2.val ∧ ∀ p ∈ r.1, Holds cs lo r.2.val p) (params close read ts) := by
  unfold params
  split
  · exact .ok ⟨h, fun p hp => hr p (List.mem_reverse.mp hp)⟩
  · have hstar : ∀ n, Ahead cs n ts → Ahead cs n (eat (.symbol .star) ts).2.val := fun n hn => eat_ahead hn (by simp)
    generalize eat (.symbol .star) ts = eaten at hstar ⊢
    obtain ⟨rest, afterStar, h₁⟩ := eaten
    dsimp only at hstar ⊢
    refine (expectName_taken (hstar lo h)).bind ?_
    rintro ⟨⟨name, span⟩, afterName, h₂⟩ hname
    dsimp only at hname ⊢
    split
    · exact .error ((next_range h).merge hname.range)
    · split
      · exact .error hname.range
      · have hall : ∀ p ∈ (⟨name, rest, span⟩ :: read : List Param), Holds cs lo afterName p := by
          refine List.forall_mem_cons.mpr ⟨⟨hname.range, hname.behind lo (hstar lo h), hname.ahead⟩, fun p hp => ?_⟩
          obtain ⟨hcut, hle, hts⟩ := hr p hp
          exact hname.holds ⟨hcut, hle, hstar _ hts⟩
        have hafter := hname.skip (hstar lo h)
        split
        · next comma afterComma h₂ _ =>
          have hlt : afterComma.length < ts.length := by
            simp only [List.length_cons] at h₂
            omega
          have hcomma := taken hafter (by simp)
          have hall' := fun p hp => hcomma.holds (hall p hp)
          exact (params_hold close _ afterComma (hcomma.skip hafter) hall').bind fun _ hps => .pure hps
        · exact .pure ⟨hafter, fun p hp => hall p (List.mem_reverse.mp hp)⟩
termination_by ts.length

/-- The function of a lambda is around its value. -/
theorem Lined.lambda {start colon : Span} {ps : List Param} {value : Node} (hlo : lo ≤ start.start) (hs : start.CutFrom cs)
    (hps : ∀ p ∈ ps, Holds cs start.stop us p) (hc : Taken cs us colon rest) (hstart : Ahead cs start.stop us)
    (hv : Lined cs colon.stop [value] ts) : Lined cs lo [lambdaNode start ps value] ts := by
  obtain ⟨hle, hvalue, hts⟩ := hv
  have hcolon := hc.range.ordered
  have hret : (Node.ret value.span (some value)).Nested cs :=
    Node.nested_of_plain ⟨rfl, rfl⟩ hvalue.range (List.forall_mem_singleton.mpr ⟨hvalue, .refl _⟩)
  have hbody : (Node.block value.span [] [.ret value.span (some value)]).Nested cs :=
    Node.nested_body rfl rfl rfl hvalue.range (List.forall_mem_singleton.mpr ⟨hret, .refl _⟩) (List.pairwise_singleton _ _)
  have hstart' := hc.behind _ hstart
  refine Lined.func rfl rfl hlo hs ⟨?_, hbody, hts⟩ fun p hp => ?_
  · exact Nat.le_trans hstart' (Nat.le_trans hcolon hle)
  · obtain ⟨hcut, hfrom, hto⟩ := hps p hp
    exact ⟨hcut, hfrom, Nat.le_trans (hc.behind _ hto) (Nat.le_trans hcolon hle)⟩

/-! Expressions -/

/-- Wherever the tokens stand, the reader reads a node that stands in front of those it leaves. -/
def Lines (cs : List Char) {p : List Token → Prop} (ts : List Token) (r : Except ParseError (Node × Subtype p)) : Prop :=
  ∀ lo, Ahead cs lo ts → Traced cs (fun r => Lined cs lo [r.1] r.2.val) r

mutual

theorem expr_lines (ts : List Token) : Lines cs ts (expr ts) := by
  intro lo h
  unfold expr
  split
  · next start rest =>
    have hstart := taken h (by simp)
    refine (params_hold _ [] rest hstart.ahead (List.forall_mem_nil _)).bind ?_
    rintro ⟨ps, r₁, h₁⟩ ⟨hr₁, hps⟩
    dsimp only at hr₁ hps
    refine (expectSymbol_taken .colon hr₁).bind ?_
    rintro ⟨colon, r₂, h₂⟩ hcolon
    refine (expr_lines r₂ _ hcolon.ahead).bind ?_
    rintro ⟨value, r₃, h₃⟩ hvalue
    exact .pure (.lambda (hstart.behind lo h) hstart.range hps hcolon hr₁ hvalue)
  · exact ternary_lines ts lo h
termination_by (ts.length, 11)
decreasing_by all_goals subst_vars; simp only [Prod.lex_def, List.length_cons, true_and]; omega

theorem ternary_lines (ts : List Token) : Lines cs ts (ternary ts) := by
  intro lo h
  simp only [ternary]
  refine (disjunction_lines ts lo h).bind ?_
  rintro ⟨yes, r₁, h₁⟩ hyes
  dsimp only at hyes ⊢
  split
  · next _ word r₂ h₁ =>
    have h₂ : r₂.length < ts.length := by simp only [List.length_cons] at h₁; omega
    have hword := taken hyes.ahead (by simp)
    refine (disjunction_lines r₂ _ hword.ahead).bind ?_
    rintro ⟨test, r₃, h₃⟩ htest
    dsimp only at htest
    refine (expect_taken (k := .keyword .else_) htest.ahead (by simp)).bind ?_
    rintro ⟨word', r₄, h₄⟩ hword'
    have hlt : r₄.length < ts.length := by omega
    refine (expr_lines r₄ _ hword'.ahead).bind ?_
    rintro ⟨no, r₅, h₅⟩ hno
    have hall : Lined cs lo [yes, test, no] r₅ := hyes.past hword (htest.past hword' hno)
    exact .pure (hall.conditional (by simp) (by simp) (by simp))
  · exact .pure hyes
termination_by (ts.length, 10)
decreasing_by all_goals subst_vars; simp only [Prod.lex_def, true_and]; omega

theorem disjunction_lines (ts : List Token) : Lines cs ts (disjunction ts) := by
  intro lo h
  simp only [disjunction]
  refine (conjunction_lines ts lo h).bind ?_
  rintro ⟨left, r₁, h₁⟩ hleft
  exact (disjunctionTail_lined hleft).bind fun _ hall => .pure hall
termination_by (ts.length, 9)
decreasing_by all_goals simp only [Prod.lex_def, true_and]; omega

theorem disjunctionTail_lined {lo : Nat} {left : Node} {ts : List Token} (h : Lined cs lo [left] ts) :
    Traced cs (fun r => Lined cs lo [r.1] r.2.val) (disjunctionTail left ts) := by
  unfold disjunctionTail
  split
  · next op rest =>
    have hop := taken h.ahead (by simp)
    refine (conjunction_lines rest _ hop.ahead).bind ?_
    rintro ⟨right, r₁, h₁⟩ hright
    have hall : Lined cs lo [left, .literal op (.bool true), right] r₁ := h.pastWord hop hright
    exact (disjunctionTail_lined (hall.conditional (by simp) (by simp) (by simp))).bind fun _ hall => .pure hall
  · exact .pure h
termination_by (ts.length, 9)
decreasing_by all_goals subst_vars; simp only [Prod.lex_def, List.length_cons]; omega

theorem conjunction_lines (ts : List Token) : Lines cs ts (conjunction ts) := by
  intro lo h
  simp only [conjunction]
  refine (negation_lines ts lo h).bind ?_
  rintro ⟨left, r₁, h₁⟩ hleft
  exact (conjunctionTail_lined hleft).bind fun _ hall => .pure hall
termination_by (ts.length, 8)
decreasing_by all_goals simp only [Prod.lex_def, true_and]; omega

theorem conjunctionTail_lined {lo : Nat} {left : Node} {ts : List Token} (h : Lined cs lo [left] ts) :
    Traced cs (fun r => Lined cs lo [r.1] r.2.val) (conjunctionTail left ts) := by
  unfold conjunctionTail
  split
  · next op rest =>
    have hop := taken h.ahead (by simp)
    refine (negation_lines rest _ hop.ahead).bind ?_
    rintro ⟨right, r₁, h₁⟩ hright
    have hall : Lined cs lo [left, .literal op (.bool false), right] r₁ := h.pastWord hop hright
    exact (conjunctionTail_lined (hall.conditional (by simp) (by simp) (by simp))).bind fun _ hall => .pure hall
  · exact .pure h
termination_by (ts.length, 8)
decreasing_by all_goals subst_vars; simp only [Prod.lex_def, List.length_cons]; omega

theorem negation_lines (ts : List Token) : Lines cs ts (negation ts) := by
  intro lo h
  unfold negation
  split
  · next start rest =>
    have hstart := taken h (by simp)
    refine (negation_lines rest _ hstart.ahead).bind ?_
    rintro ⟨operand, r₁, h₁⟩ hoperand
    exact .pure (.headed ⟨rfl, rfl⟩ rfl rfl (hstart.behind lo h) hstart.range hoperand)
  · exact comparison_lines ts lo h
termination_by (ts.length, 7)
decreasing_by all_goals subst_vars; simp only [Prod.lex_def, List.length_cons, true_and]; omega

theorem comparison_lines (ts : List Token) : Lines cs ts (comparison ts) := by
  intro lo h
  simp only [comparison]
  refine (sum_lines ts lo h).bind ?_
  rintro ⟨left, r₁, h₁⟩ hleft
  dsimp only at hleft ⊢
  split
  · next _ t r₂ h₁ =>
    have h₂ : r₂.length < ts.length := by simp only [List.length_cons] at h₁; omega
    split
    · next op hop =>
      have ht := taken hleft.ahead (ne_eof rfl hop)
      refine (sum_lines r₂ _ ht.ahead).bind ?_
      rintro ⟨right, r₃, h₃⟩ hright
      dsimp only at hright ⊢
      split
      · exact .error (next_range hright.ahead)
      · exact .pure (hleft.past ht hright).binary
    · exact .pure hleft
  · exact .pure hleft
termination_by (ts.length, 6)
decreasing_by all_goals subst_vars; simp only [Prod.lex_def, true_and]; omega

theorem sum_lines (ts : List Token) : Lines cs ts (sum ts) := by
  intro lo h
  simp only [sum]
  refine (product_lines ts lo h).bind ?_
  rintro ⟨left, r₁, h₁⟩ hleft
  exact (sumTail_lined hleft).bind fun _ hall => .pure hall
termination_by (ts.length, 5)
decreasing_by all_goals simp only [Prod.lex_def, true_and]; omega

theorem sumTail_lined {lo : Nat} {left : Node} {ts : List Token} (h : Lined cs lo [left] ts) :
    Traced cs (fun r => Lined cs lo [r.1] r.2.val) (sumTail left ts) := by
  unfold sumTail
  split
  · next t rest =>
    split
    · next op hop =>
      have ht := taken h.ahead (ne_eof rfl hop)
      refine (product_lines rest _ ht.ahead).bind ?_
      rintro ⟨right, r₁, h₁⟩ hright
      exact (sumTail_lined (h.past ht hright).binary).bind fun _ hall => .pure hall
    · exact .pure h
  · exact .pure h
termination_by (ts.length, 5)
decreasing_by all_goals subst_vars; simp only [Prod.lex_def, List.length_cons]; omega

theorem product_lines (ts : List Token) : Lines cs ts (product ts) := by
  intro lo h
  simp only [product]
  refine (factor_lines ts lo h).bind ?_
  rintro ⟨left, r₁, h₁⟩ hleft
  exact (productTail_lined hleft).bind fun _ hall => .pure hall
termination_by (ts.length, 4)
decreasing_by all_goals simp only [Prod.lex_def, true_and]; omega

theorem productTail_lined {lo : Nat} {left : Node} {ts : List Token} (h : Lined cs lo [left] ts) :
    Traced cs (fun r => Lined cs lo [r.1] r.2.val) (productTail left ts) := by
  unfold productTail
  split
  · next t rest =>
    split
    · next op hop =>
      have ht := taken h.ahead (ne_eof rfl hop)
      refine (factor_lines rest _ ht.ahead).bind ?_
      rintro ⟨right, r₁, h₁⟩ hright
      exact (productTail_lined (h.past ht hright).binary).bind fun _ hall => .pure hall
    · exact .pure h
  · exact .pure h
termination_by (ts.length, 4)
decreasing_by all_goals subst_vars; simp only [Prod.lex_def, List.length_cons]; omega

theorem factor_lines (ts : List Token) : Lines cs ts (factor ts) := by
  intro lo h
  unfold factor
  split
  · next t rest =>
    split
    · next op hop =>
      have ht := taken h (ne_eof rfl hop)
      refine (factor_lines rest _ ht.ahead).bind ?_
      rintro ⟨operand, r₁, h₁⟩ hoperand
      exact .pure (.headed ⟨rfl, rfl⟩ rfl rfl (ht.behind lo h) ht.range hoperand)
    · exact power_lines (t :: rest) lo h
  · exact power_lines [] lo h
termination_by (ts.length, 3)
decreasing_by all_goals subst_vars; simp only [Prod.lex_def, List.length_cons, true_and]; omega

theorem power_lines (ts : List Token) : Lines cs ts (power ts) := by
  intro lo h
  simp only [power]
  refine (primary_lines ts lo h).bind ?_
  rintro ⟨base, r₁, h₁⟩ hbase
  dsimp only at hbase ⊢
  split
  · next _ sign r₂ h₁ =>
    have h₂ : r₂.length < ts.length := by simp only [List.length_cons] at h₁; omega
    have hsign := taken hbase.ahead (by simp)
    refine (factor_lines r₂ _ hsign.ahead).bind ?_
    rintro ⟨exponent, r₃, h₃⟩ hexponent
    exact .pure (hbase.past hsign hexponent).binary
  · exact .pure hbase
termination_by (ts.length, 2)
decreasing_by all_goals subst_vars; simp only [Prod.lex_def, true_and]; omega

theorem primary_lines (ts : List Token) : Lines cs ts (primary ts) := by
  intro lo h
  simp only [primary]
  refine (atom_lines ts lo h).bind ?_
  rintro ⟨head, r₁, h₁⟩ hhead
  exact (primaryTail_lined hhead).bind fun _ hall => .pure hall
termination_by (ts.length, 1)
decreasing_by all_goals simp only [Prod.lex_def, true_and]; omega

theorem primaryTail_lined {lo : Nat} {head : Node} {ts : List Token} (h : Lined cs lo [head] ts) :
    Traced cs (fun r => Lined cs lo [r.1] r.2.val) (primaryTail head ts) := by
  unfold primaryTail
  split
  · next start rest =>
    have hstart := taken h.ahead (by simp)
    refine (commaList_lined _ rest hstart.ahead).bind ?_
    rintro ⟨args, r₁, h₁⟩ hargs
    dsimp only at hargs
    have hall : Lined cs lo (head :: args) r₁ := h.past hstart hargs
    refine (expectSymbol_taken .rparen hargs.ahead).bind ?_
    rintro ⟨stop, r₂, h₂⟩ hstop
    exact (primaryTail_lined (hall.applied ⟨rfl, rfl⟩ rfl rfl hstop)).bind fun _ hall => .pure hall
  · next start rest =>
    have hstart := taken h.ahead (by simp)
    refine (expr_lines rest _ hstart.ahead).bind ?_
    rintro ⟨index, r₁, h₁⟩ hindex
    dsimp only at hindex
    have hall : Lined cs lo [head, index] r₁ := h.past hstart hindex
    refine (expectSymbol_taken .rbracket hindex.ahead).bind ?_
    rintro ⟨stop, r₂, h₂⟩ hstop
    exact (primaryTail_lined (hall.applied ⟨rfl, rfl⟩ rfl rfl hstop)).bind fun _ hall => .pure hall
  · exact .pure h
termination_by (ts.length, 1)
decreasing_by all_goals subst_vars; simp only [Prod.lex_def, List.length_cons]; omega

theorem commaList_lined (close : Kind) (ts : List Token) {lo : Nat} (h : Ahead cs lo ts) :
    Traced cs (fun r => Lined cs lo r.1 r.2.val) (commaList close ts) := by
  unfold commaList
  split
  · exact .ok h
  · refine (expr_lines ts lo h).bind ?_
    rintro ⟨item, r₁, h₁⟩ hitem
    dsimp only at hitem ⊢
    split
    · next _ comma r₂ h₁ =>
      have h₂ : r₂.length < ts.length := by simp only [List.length_cons] at h₁; omega
      have hcomma := taken hitem.ahead (by simp)
      exact (commaList_lined close r₂ hcomma.ahead).bind fun _ hitems => .pure (hitem.past hcomma hitems)
    · exact .pure hitem
termination_by (ts.length, 12)
decreasing_by all_goals subst_vars; simp only [Prod.lex_def, true_and]; omega

theorem atom_lines (ts : List Token) : Lines cs ts (atom ts) := by
  intro lo h
  unfold atom
  split
  · next name span rest =>
    have hname := taken h (by simp)
    exact .ok (.leaf ⟨rfl, rfl⟩ rfl hname h)
  · next start rest =>
    have hstart := taken h (by simp)
    refine (expr_lines rest _ hstart.ahead).bind ?_
    rintro ⟨inner, r₁, h₁⟩ hinner
    refine (expectSymbol_taken .rparen hinner.ahead).bind ?_
    rintro ⟨stop, r₂, h₂⟩ hstop
    -- the parentheses leave no trace in the node
    exact .pure ((hinner.before hstop).mono (Nat.le_trans (hstart.behind lo h) hstart.range.ordered))
  · next start rest =>
    have hstart := taken h (by simp)
    refine (commaList_lined _ rest hstart.ahead).bind ?_
    rintro ⟨items, r₁, h₁⟩ hitems
    refine (expectSymbol_taken .rbracket hitems.ahead).bind ?_
    rintro ⟨stop, r₂, h₂⟩ hstop
    exact .pure (hitems.closed ⟨rfl, rfl⟩ rfl rfl (hstart.behind lo h) hstart.range hstop hitems.ahead
      fun n hn => .inr (hitems.between hn).1)
  · next t rest _ _ _ =>
    split
    · next value hvalue => exact .ok (.leaf ⟨rfl, rfl⟩ rfl (taken h (ne_eof rfl hvalue)) h)
    · exact .error h.head.2
  · exact absurd rfl h.ne_nil
termination_by (ts.length, 0)
decreasing_by all_goals subst_vars; simp only [Prod.lex_def, List.length_cons]; omega

end

end CseMachine.Parse
