import CseMachine.Proofs.Nesting.Tokens
import CseMachine.Proofs.Origins

/-!
# Trees that are nested in the source

A node is cut from the source, what stands directly below it lies within it, and the
statements of a body stand one behind the other. A span that is merged from the spans of
the parts covers them in any case. Where it is merged from the first and the last part only,
what is between them is covered because the parts stand in order.
-/
namespace CseMachine

variable {cs : List Char} {lo lo' : Nat}

theorem Span.within_merge_between {s t u : Span} (hs : s.start ≤ s.stop) (ht : t.start ≤ t.stop) (hsu : s.stop ≤ u.start)
    (hut : u.stop ≤ t.start) : u.Within (s.merge t) := by
  constructor
  · rw [merge_start]
    omega
  · rw [merge_stop]
    omega

namespace Node

variable {n : Node}

/-- The statements of a body; no other node has any. -/
def statements : Node → List Node
  | .program _ _ body | .block _ _ body | .sequence _ body => body
  | _ => []

/-- The node is cut from the text, what it is made of lies within it, and its statements do not
overlap. -/
structure WellPlaced (cs : List Char) (n : Node) : Prop where
  range : n.span.CutFrom cs
  children : ∀ child ∈ n.children, child.span.Within n.span
  params : ∀ func, n.func? = some func → ∀ p ∈ func.params, p.span.CutFrom cs ∧ p.span.Within n.span
  apart : n.statements.Pairwise fun a b => a.span.stop ≤ b.span.start

/-- Every node of the tree is well placed. -/
def Nested (cs : List Char) (tree : Node) : Prop := ∀ n, tree.Contains n → n.WellPlaced cs

theorem Nested.wellPlaced (h : n.Nested cs) : n.WellPlaced cs := h n .refl

theorem Nested.range (h : n.Nested cs) : n.span.CutFrom cs := h.wellPlaced.range

theorem Nested.ordered (h : n.Nested cs) : n.span.start ≤ n.span.stop := h.range.ordered

theorem nested_of_children (h : n.WellPlaced cs) (hc : ∀ child ∈ n.children, child.Nested cs) : n.Nested cs := by
  intro m hm
  rcases Relation.ReflTransGen.cases_head hm with rfl | ⟨child, hmem, hm⟩
  · exact h
  · exact hc child hmem m hm

/-! Nodes without functions and bodies -/

/-- The node is neither a function nor a body. -/
def IsPlain (n : Node) : Prop := n.func? = none ∧ n.statements = []

theorem nested_of_plain (hp : n.IsPlain) (range : n.span.CutFrom cs)
    (hc : ∀ child ∈ n.children, child.Nested cs ∧ child.span.Within n.span) : n.Nested cs := by
  refine nested_of_children ⟨range, fun child hm => (hc child hm).2, fun func hf => ?_, ?_⟩ fun child hm => (hc child hm).1
  · rw [hp.1] at hf
    cases hf
  · rw [hp.2]
    exact .nil

theorem nested_leaf (hp : n.IsPlain) (hc : n.children = []) (range : n.span.CutFrom cs) : n.Nested cs :=
  nested_of_plain hp range (by rw [hc]; exact List.forall_mem_nil _)

/-! Functions and bodies -/

/-- A function from its word to its body, its parameters between them. -/
theorem nested_func {func : Func} {start : Span} (hf : n.func? = some func) (hspan : n.span = start.merge func.body.span)
    (hs : start.CutFrom cs) (hb : func.body.Nested cs)
    (hp : ∀ p ∈ func.params, p.span.CutFrom cs ∧ start.stop ≤ p.span.start ∧ p.span.stop ≤ func.body.span.start) :
    n.Nested cs := by
  have hc : n.children = [func.body] ∧ n.statements = [] := by
    cases n <;> cases hf <;> exact ⟨rfl, rfl⟩
  refine nested_of_children ⟨hspan ▸ hs.merge hb.range, ?_, fun func' hf' p hm => ?_, ?_⟩ ?_
  · rw [hc.1, hspan]
    exact List.forall_mem_singleton.mpr (Span.within_merge_right ..)
  · obtain rfl := Option.some.inj (hf.symm.trans hf')
    obtain ⟨hcut, hstart, hstop⟩ := hp p hm
    exact ⟨hcut, hspan ▸ Span.within_merge_between hs.ordered hb.ordered hstart hstop⟩
  · rw [hc.2]
    exact .nil
  · rw [hc.1]
    exact List.forall_mem_singleton.mpr hb

theorem nested_body {body : List Node} (hf : n.func? = none) (hc : n.children = body) (hs : n.statements = body)
    (range : n.span.CutFrom cs) (hb : ∀ child ∈ body, child.Nested cs ∧ child.span.Within n.span)
    (hapart : body.Pairwise fun a b => a.span.stop ≤ b.span.start) : n.Nested cs := by
  subst hc
  refine nested_of_children ⟨range, fun child hm => (hb child hm).2, fun func hf' => ?_, hs ▸ hapart⟩ ?_
  · rw [hf] at hf'
    cases hf'
  · exact fun child hm => (hb child hm).1

end Node

namespace Parse

open Token (Ahead)

variable {n : Node} {ns ms body : List Node} {ts us : List Token} {colon : Span}

/-- From the offset on stand the nodes, one behind the other, and then the tokens. -/
def Lined (cs : List Char) : Nat → List Node → List Token → Prop
  | lo, [], ts => Ahead cs lo ts
  | lo, n :: ns, ts => lo ≤ n.span.start ∧ n.Nested cs ∧ Lined cs n.span.stop ns ts

namespace Lined

theorem mono (h : Lined cs lo ns ts) (hlo : lo' ≤ lo) : Lined cs lo' ns ts := by
  cases ns with
  | nil => exact Ahead.mono h hlo
  | cons n ns => exact ⟨Nat.le_trans hlo h.1, h.2⟩

theorem ahead (h : Lined cs lo ns ts) : Ahead cs lo ts := by
  induction ns generalizing lo with
  | nil => exact h
  | cons n ns ih =>
    obtain ⟨hstart, hn, hrest⟩ := h
    exact (ih hrest).mono (Nat.le_trans hstart hn.ordered)

theorem forall_mem (h : Lined cs lo ns ts) : ∀ n ∈ ns, lo ≤ n.span.start ∧ n.Nested cs ∧ Ahead cs n.span.stop ts := by
  induction ns generalizing lo with
  | nil => exact List.forall_mem_nil _
  | cons n ns ih =>
    obtain ⟨hstart, hn, hrest⟩ := h
    refine List.forall_mem_cons.mpr ⟨⟨hstart, hn, hrest.ahead⟩, fun m hm => ?_⟩
    exact ih (hrest.mono (Nat.le_trans hstart hn.ordered)) m hm

theorem pairwise (h : Lined cs lo ns ts) : ns.Pairwise fun a b => a.span.stop ≤ b.span.start := by
  induction ns generalizing lo with
  | nil => exact .nil
  | cons n ns ih => exact .cons (fun m hm => (h.2.2.forall_mem m hm).1) (ih h.2.2)

/-- What stands behind the nodes may be further nodes. -/
theorem behind (h : Lined cs lo ns ts) : ∃ hi, Ahead cs hi ts ∧ ∀ ms us, Lined cs hi ms us → Lined cs lo (ns ++ ms) us := by
  induction ns generalizing lo with
  | nil => exact ⟨lo, h, fun ms us hms => hms⟩
  | cons n ns ih =>
    obtain ⟨hstart, hn, hrest⟩ := h
    obtain ⟨hi, hts, happend⟩ := ih hrest
    exact ⟨hi, hts, fun ms us hms => ⟨hstart, hn, happend ms us hms⟩⟩

end Lined

/-- A body covers its statements, and an empty one is where its colon is. -/
theorem suiteSpan_covers (hc : colon.CutFrom cs) (h : Lined cs colon.stop body ts) :
    (suiteSpan colon body).CutFrom cs ∧ colon.start ≤ (suiteSpan colon body).start ∧
      Ahead cs (suiteSpan colon body).stop ts ∧ ∀ n ∈ body, n.span.Within (suiteSpan colon body) := by
  cases body with
  | nil => exact ⟨hc, Nat.le_refl _, h, List.forall_mem_nil _⟩
  | cons first rest =>
    obtain ⟨last, hlast⟩ : ∃ last, (first :: rest).getLast? = some last := ⟨_, List.getLast?_cons⟩
    obtain ⟨front, hfront⟩ := List.getLast?_eq_some_iff.mp hlast
    have hmem : last ∈ first :: rest := hfront ▸ List.mem_concat_self
    have hall := h.forall_mem
    obtain ⟨hfirst, hn, -⟩ := hall first List.mem_cons_self
    obtain ⟨hle, hn', hts⟩ := hall last hmem
    have hspan : suiteSpan colon (first :: rest) = first.span.merge last.span := by
      rw [suiteSpan, hlast]
      rfl
    have hstart : ∀ n ∈ first :: rest, first.span.start ≤ n.span.start := by
      refine List.forall_mem_cons.mpr ⟨Nat.le_refl _, fun n hm => ?_⟩
      exact Nat.le_trans hn.ordered ((List.pairwise_cons.mp h.pairwise).1 n hm)
    have hstop : ∀ n ∈ first :: rest, n.span.stop ≤ last.span.stop := by
      have hpair := h.pairwise
      rw [hfront] at hpair ⊢
      refine List.forall_mem_append.mpr ⟨fun n hm => ?_, List.forall_mem_singleton.mpr (Nat.le_refl _)⟩
      exact Nat.le_trans ((List.pairwise_append.mp hpair).2.2 n hm last List.mem_cons_self) hn'.ordered
    rw [hspan]
    refine ⟨hn.range.merge hn'.range, ?_, ?_, fun n hm => ⟨?_, ?_⟩⟩
    · have := hc.ordered
      rw [Span.merge_start]
      omega
    · rw [Span.merge_stop, Nat.max_eq_right (hstop first List.mem_cons_self)]
      exact hts
    · exact Nat.le_trans (Nat.min_le_left ..) (hstart n hm)
    · exact Nat.le_trans (hstop n hm) (Nat.le_max_right ..)

/-- The `return` that is added to a body stands at its end. -/
theorem functionOf_nested {name : Option String} {ps : List Param} {scope : Scope} (hc : colon.CutFrom cs)
    (h : Lined cs colon.stop body ts) : (functionOf name ps scope colon body).body.Nested cs := by
  obtain ⟨hcut, -, -, hwithin⟩ := suiteSpan_covers hc h
  have hbody : ∀ n ∈ body, n.Nested cs ∧ n.span.Within (suiteSpan colon body) :=
    fun n hm => ⟨(h.forall_mem n hm).2.1, hwithin n hm⟩
  simp only [functionOf]
  split
  · exact Node.nested_body rfl rfl rfl hcut hbody h.pairwise
  · refine Node.nested_body rfl rfl rfl hcut (List.forall_mem_append.mpr ⟨hbody, List.forall_mem_singleton.mpr ?_⟩) ?_
    · exact ⟨Node.nested_leaf ⟨rfl, rfl⟩ rfl (Span.cutFrom_point hcut.stop), hcut.ordered, Nat.le_refl _⟩
    · refine List.pairwise_append.mpr ⟨h.pairwise, List.pairwise_singleton _ _, fun n hm => ?_⟩
      exact List.forall_mem_singleton.mpr (hwithin n hm).stop

end Parse
end CseMachine
