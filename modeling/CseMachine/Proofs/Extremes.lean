import CseMachine.Builtin.Call
import CseMachine.Proofs.Number.Comparison
import CseMachine.Proofs.Results

/-!
# The largest and the smallest item

The choice goes through the items once and keeps the best one so far until a later one
beats it. What it ends with is the first of the extreme items, because integers and
doubles of any size are in one order and so are strings; items that are not all of one
of these two kinds have no extreme one, and the choice fails.
-/
namespace CseMachine

namespace OrderOp

variable {α : Type*} [LinearOrder α] {a b : α}

theorem holds_lt : OrderOp.lt.holds (cmp a b) = true ↔ a < b := beq_iff_eq.trans (cmp_eq_lt_iff a b)

theorem holds_gt : OrderOp.gt.holds (cmp a b) = true ↔ b < a := beq_iff_eq.trans (cmp_eq_gt_iff a b)

theorem holds_ltEq : OrderOp.ltEq.holds (cmp a b) = true ↔ a ≤ b := by
  rw [holds, bne_iff_ne, Ne, cmp_eq_gt_iff, not_lt]

theorem holds_gtEq : OrderOp.gtEq.holds (cmp a b) = true ↔ b ≤ a := by
  rw [holds, bne_iff_ne, Ne, cmp_eq_lt_iff, not_lt]

end OrderOp

namespace Value

variable {v w : Value}

/-- An integer or a double. -/
def IsReal : Value → Prop
  | .number n => n.IsReal
  | _ => False

def IsText : Value → Prop
  | .str _ => True
  | _ => False

def IsNaN : Value → Prop
  | .number n => n.IsNaN
  | _ => False

theorem IsReal.not_isText (h : v.IsReal) : ¬ v.IsText := by
  cases v with
  | number n => exact id
  | _ => exact h.elim

/-- Only real numbers and strings have an order, each among themselves. -/
theorem kind_of_compare? {o : Option Ordering} (h : compare? v w = some o) : v.IsReal ∧ w.IsReal ∨ v.IsText ∧ w.IsText := by
  cases v with
  | number m =>
    cases w with
    | number n =>
      refine .inl ?_
      cases m <;> cases n <;> first | exact ⟨trivial, trivial⟩ | cases h
    | _ => cases h
  | str s =>
    cases w with
    | str t => exact .inr ⟨trivial, trivial⟩
    | _ => cases h
  | _ => cases w <;> cases h

end Value

namespace Builtin

open Value (compare? order)

variable {α : Type*} {store : Store} {f : Builtin} {strict weak better : OrderOp} {v : Value} {args items rest : List Value}

/-- The functions that choose an item, with the comparison by which an item beats another one and the one by which it
is not beaten. -/
inductive Chooses : Builtin → OrderOp → OrderOp → Prop
  | max : Chooses .max .gt .gtEq
  | min : Chooses .min .lt .ltEq

/-- What there is to choose from: several arguments, or the elements of a list that is the only one. -/
inductive Offers (store : Store) : List Value → List Value → Prop
  | several (v w : Value) (rest : List Value) : Offers store (v :: w :: rest) (v :: w :: rest)
  | elements {id : ObjId} {v : Value} {rest : List Value} (found : store.list? id = some (v :: rest)) :
      Offers store [.list id] (v :: rest)

theorem Offers.call (h : Offers store args (v :: rest)) (hf : Chooses f strict weak) :
    f.call store args = best strict v rest := by
  have hextreme : f.call store args = extreme f strict store args := by
    cases h <;> cases hf <;> rfl
  rw [hextreme, extreme]
  cases h with
  | several v w rest =>
    have hcandidates : candidates store (v :: w :: rest) = .ok (v :: w :: rest) := by cases v <;> rfl
    rw [hcandidates]
    rfl
  | elements found =>
    rw [candidates, found]
    rfl

/-- The items are ranked by a key: one beats another if its key is above, and leads if it is not below. -/
structure Ranked [LinearOrder α] (strict weak : OrderOp) (key : Value → α) (items : List Value) : Prop where
  beats : ∀ v ∈ items, ∀ w ∈ items, order strict w v = .ok (decide (key v < key w))
  leads : ∀ v ∈ items, ∀ w ∈ items, order weak v w = .ok (decide (key w ≤ key v))

/-- Values that are compared by their keys are ranked by them, from below for the largest and from above for the smallest. -/
theorem ranked_of_compare? [LinearOrder α] {key : Value → α} (hf : Chooses f strict weak)
    (h : ∀ v ∈ items, ∀ w ∈ items, compare? v w = some (some (cmp (key v) (key w)))) :
    Ranked strict weak key items ∨ Ranked strict weak (OrderDual.toDual ∘ key) items := by
  have horder : ∀ op : OrderOp, ∀ v ∈ items, ∀ w ∈ items, order op v w = .ok (op.holds (cmp (key v) (key w))) := by
    intro op v hv w hw
    rw [order, h v hv w hw]
  have hdecide : ∀ {b : Bool} {p : Prop} [Decidable p], (b = true ↔ p) → b = decide p := fun hb => by
    rw [Bool.eq_iff_iff, hb, decide_eq_true_iff]
  cases hf with
  | max =>
    refine .inl ⟨fun v hv w hw => ?_, fun v hv w hw => ?_⟩
    · rw [horder _ w hw v hv, hdecide OrderOp.holds_gt]
    · rw [horder _ v hv w hw, hdecide OrderOp.holds_gtEq]
  | min =>
    refine .inr ⟨fun v hv w hw => ?_, fun v hv w hw => ?_⟩
    · rw [horder _ w hw v hv, hdecide OrderOp.holds_lt]
      rfl
    · rw [horder _ v hv w hw, hdecide OrderOp.holds_ltEq]
      rfl

/-- What is kept in the end is above all before it and not below any behind it. -/
theorem best_ranked [LinearOrder α] {key : Value → α}
    (h : ∀ x ∈ v :: rest, ∀ y ∈ v :: rest, order better y x = .ok (decide (key x < key y))) :
    ∃ before r after, v :: rest = before ++ r :: after ∧ best better v rest = .ok r ∧
      (∀ x ∈ before, key x < key r) ∧ ∀ x ∈ after, key x ≤ key r := by
  induction rest generalizing v with
  | nil => exact ⟨[], v, [], rfl, rfl, List.forall_mem_nil _, List.forall_mem_nil _⟩
  | cons w rest ih =>
    have hstep : best better v (w :: rest) = best better (if key v < key w then w else v) rest := by
      rw [best, h v (.head _) w (.tail _ (.head _))]
      by_cases hvw : key v < key w
      · rw [if_pos hvw, decide_eq_true hvw]
        rfl
      · rw [if_neg hvw, decide_eq_false hvw]
        rfl
    rw [hstep]
    by_cases hvw : key v < key w
    · rw [if_pos hvw]
      obtain ⟨before, r, after, hsplit, hbest, hbefore, hafter⟩ := ih fun x hx y hy => h x (.tail _ hx) y (.tail _ hy)
      have hwr : key w ≤ key r := by
        cases before with
        | nil => rw [(List.cons.inj hsplit).1]
        | cons x before => exact (List.cons.inj hsplit).1 ▸ (hbefore x (.head _)).le
      refine ⟨v :: before, r, after, by rw [hsplit]; rfl, hbest, ?_, hafter⟩
      exact List.forall_mem_cons.mpr ⟨hvw.trans_le hwr, hbefore⟩
    · rw [if_neg hvw]
      have hsub : ∀ x ∈ v :: rest, x ∈ v :: w :: rest := by
        intro x hx
        rcases List.mem_cons.mp hx with rfl | hx
        · exact .head _
        · exact .tail _ (.tail _ hx)
      obtain ⟨before, r, after, hsplit, hbest, hbefore, hafter⟩ := ih fun x hx y hy => h x (hsub x hx) y (hsub y hy)
      cases before with
      | nil =>
        obtain ⟨rfl, rfl⟩ := List.cons.inj hsplit
        exact ⟨[], v, w :: rest, rfl, hbest, List.forall_mem_nil _, List.forall_mem_cons.mpr ⟨not_lt.mp hvw, hafter⟩⟩
      | cons x before =>
        obtain ⟨rfl, rfl⟩ := List.cons.inj hsplit
        obtain ⟨hvr, hbefore⟩ := List.forall_mem_cons.mp hbefore
        refine ⟨v :: w :: before, r, after, rfl, hbest, ?_, hafter⟩
        exact List.forall_mem_cons.mpr ⟨hvr, List.forall_mem_cons.mpr ⟨(not_lt.mp hvw).trans_lt hvr, hbefore⟩⟩

/-- Items of which neither all are real numbers nor all are strings have no best one. -/
theorem best_fails (hne : rest ≠ []) (hreal : ¬ ∀ x ∈ v :: rest, x.IsReal) (htext : ¬ ∀ x ∈ v :: rest, x.IsText) :
    ∃ x ∈ v :: rest, ∃ y ∈ v :: rest, best better v rest = fail (.ordering better x.typeName y.typeName) := by
  induction rest generalizing v with
  | nil => exact absurd rfl hne
  | cons w rest ih =>
    cases hc : compare? w v with
    | none =>
      refine ⟨w, .tail _ (.head _), v, .head _, ?_⟩
      rw [best, order, hc]
      rfl
    | some o =>
      obtain ⟨next, hnext, hstep⟩ : ∃ next, (next = v ∨ next = w) ∧ best better v (w :: rest) = best better next rest := by
        rw [best, order, hc]
        cases o with
        | none => exact ⟨v, .inl rfl, rfl⟩
        | some o =>
          cases ho : better.holds o with
          | true => exact ⟨w, .inr rfl, by simp only [ho]; rfl⟩
          | false => exact ⟨v, .inl rfl, by simp only [ho]; rfl⟩
      -- the two are of one kind, so what spoils the choice is further on
      have hrest : rest ≠ [] ∧ (¬ ∀ x ∈ next :: rest, x.IsReal) ∧ ¬ ∀ x ∈ next :: rest, x.IsText := by
        simp only [List.forall_mem_cons] at hreal htext ⊢
        rcases Value.kind_of_compare? hc with ⟨hw, hv⟩ | ⟨hw, hv⟩
        · have hnextReal : next.IsReal := by rcases hnext with rfl | rfl <;> assumption
          refine ⟨?_, fun h => hreal ⟨hv, hw, h.2⟩, fun h => hnextReal.not_isText h.1⟩
          rintro rfl
          exact hreal ⟨hv, hw, List.forall_mem_nil _⟩
        · have hnextText : next.IsText := by rcases hnext with rfl | rfl <;> assumption
          refine ⟨?_, fun h => h.1.not_isText hnextText, fun h => htext ⟨hv, hw, h.2⟩⟩
          rintro rfl
          exact htext ⟨hv, hw, List.forall_mem_nil _⟩
      have hsub : ∀ x ∈ next :: rest, x ∈ v :: w :: rest := by
        intro x hx
        rcases List.mem_cons.mp hx with rfl | hx
        · rcases hnext with rfl | rfl
          · exact .head _
          · exact .tail _ (.head _)
        · exact .tail _ (.tail _ hx)
      obtain ⟨x, hx, y, hy, hfail⟩ := ih hrest.1 hrest.2.1 hrest.2.2
      exact ⟨x, hsub x hx, y, hsub y hy, hstep.trans hfail⟩

/-- Items that have an order: integers and doubles without a NaN, or strings. -/
def Comparable (items : List Value) : Prop := (∀ v ∈ items, v.IsReal ∧ ¬ v.IsNaN) ∨ ∀ v ∈ items, v.IsText

/-- The extended real that a real number is. -/
noncomputable def realKey : Value → EReal
  | .number n => n.extended?.getD ⊥
  | _ => ⊥

def textKey : Value → String
  | .str t => t
  | _ => ""

theorem compare?_realKey {w : Value} (hv : v.IsReal ∧ ¬ v.IsNaN) (hw : w.IsReal ∧ ¬ w.IsNaN) :
    compare? v w = some (some (cmp (realKey v) (realKey w))) := by
  cases v with
  | number m =>
    cases w with
    | number n =>
      obtain ⟨x, hx⟩ := Option.ne_none_iff_exists'.mp (mt (Number.extended?_eq_none hv.1).mp hv.2)
      obtain ⟨y, hy⟩ := Option.ne_none_iff_exists'.mp (mt (Number.extended?_eq_none hw.1).mp hw.2)
      rw [compare?, Number.compare?_eq hv.1 hw.1, realKey, realKey, hx, hy]
      rfl
    | _ => exact hw.1.elim
  | _ => exact hv.1.elim

theorem compare?_textKey {w : Value} (hv : v.IsText) (hw : w.IsText) :
    compare? v w = some (some (cmp (textKey v) (textKey w))) := by
  cases v with
  | str s =>
    cases w with
    | str t => rw [compare?, textKey, textKey, cmp_eq_compare]
    | _ => exact hw.elim
  | _ => exact hv.elim

/-- The item at which the choice ends leads all the others, and each item in front of it is behind it. -/
theorem Ranked.first [LinearOrder α] {key : Value → α} (h : Ranked strict weak key (v :: rest)) :
    ∃ before r after, v :: rest = before ++ r :: after ∧ best strict v rest = .ok r ∧
      (∀ w ∈ v :: rest, order weak r w = .ok true) ∧ ∀ w ∈ before, order weak w r = .ok false := by
  obtain ⟨before, r, after, hsplit, hbest, hbefore, hafter⟩ := best_ranked h.beats
  have hmem : ∀ w ∈ before ++ r :: after, w ∈ v :: rest := fun w hw => hsplit ▸ hw
  have hr : r ∈ v :: rest := hmem r (List.mem_append_right _ (.head _))
  refine ⟨before, r, after, hsplit, hbest, fun w hw => ?_, fun w hw => ?_⟩
  · have hle : key w ≤ key r := by
      rw [hsplit] at hw
      rcases List.mem_append.mp hw with hw | hw
      · exact (hbefore w hw).le
      · rcases List.mem_cons.mp hw with rfl | hw
        · exact le_refl _
        · exact hafter w hw
    rw [h.leads r hr w hw, decide_eq_true hle]
  · rw [h.leads w (hmem w (List.mem_append_left _ hw)) r hr, decide_eq_false (not_le.mpr (hbefore w hw))]

theorem Comparable.first (h : Comparable (v :: rest)) (hf : Chooses f strict weak) :
    ∃ before r after, v :: rest = before ++ r :: after ∧ best strict v rest = .ok r ∧
      (∀ w ∈ v :: rest, order weak r w = .ok true) ∧ ∀ w ∈ before, order weak w r = .ok false := by
  rcases h with h | h
  · exact (ranked_of_compare? hf fun v hv w hw => compare?_realKey (h v hv) (h w hw)).elim Ranked.first Ranked.first
  · exact (ranked_of_compare? hf fun v hv w hw => compare?_textKey (h v hv) (h w hw)).elim Ranked.first Ranked.first

/-- Of integers and doubles, or of strings, the largest or smallest item is chosen, the first one if there are several:
no item beats it, and none in front of it is unbeaten. Other items, of which there are at least two, have no order, and
the choice fails with the kinds of two of them. -/
theorem call_chooses_first (hf : Chooses f strict weak) (hargs : Offers store args items) :
    (Comparable items → ∃ before r after, items = before ++ r :: after ∧ f.call store args = .ok r ∧
      (∀ w ∈ items, Value.binary store (.order weak) r w = .ok (.bool true)) ∧
      ∀ v ∈ before, Value.binary store (.order weak) v r = .ok (.bool false)) ∧
    (2 ≤ items.length → (¬ ∀ v ∈ items, v.IsReal) → (¬ ∀ v ∈ items, v.IsText) →
      ∃ v ∈ items, ∃ w ∈ items, f.call store args = fail (.ordering strict v.typeName w.typeName)) := by
  obtain ⟨v, rest, rfl⟩ : ∃ v rest, items = v :: rest := by cases hargs <;> exact ⟨_, _, rfl⟩
  rw [hargs.call hf]
  refine ⟨fun h => ?_, fun hlen hreal htext => ?_⟩
  · obtain ⟨before, r, after, hsplit, hbest, hleads, hbehind⟩ := h.first hf
    refine ⟨before, r, after, hsplit, hbest, fun w hw => ?_, fun w hw => ?_⟩
    · rw [Value.binary, hleads w hw]
      rfl
    · rw [Value.binary, hbehind w hw]
      rfl
  · refine best_fails ?_ hreal htext
    rintro rfl
    exact absurd hlen (Nat.not_succ_le_self 1)

/-- The integer one and the double one are equal, and the first of them is the largest item. -/
theorem call_chooses_first_equal :
    Chooses .max .gt .gtEq ∧ Offers .empty [.int 0, .int 1, .float 1.0] [.int 0, .int 1, .float 1.0] ∧
      Comparable [.int 0, .int 1, .float 1.0] ∧ call .empty .max [.int 0, .int 1, .float 1.0] = .ok (.int 1) := by
  have hargs : Offers .empty [.int 0, .int 1, .float 1.0] [.int 0, .int 1, .float 1.0] := .several _ _ _
  have hkinds : Comparable [.int 0, .int 1, .float 1.0] := by
    refine .inl ?_
    simp only [List.forall_mem_cons]
    exact ⟨⟨trivial, id⟩, ⟨trivial, id⟩, ⟨trivial, show ¬ Float.isNaN 1.0 = true by decide +kernel⟩, List.forall_mem_nil _⟩
  obtain ⟨hfirst, -⟩ := call_chooses_first .max hargs
  obtain ⟨before, r, after, hsplit, hcall, hleads, hbehind⟩ := hfirst hkinds
  refine ⟨.max, hargs, hkinds, ?_⟩
  rw [hcall]
  rcases before with _ | ⟨x, _ | ⟨y, _ | ⟨z, before⟩⟩⟩
  · cases hsplit
    exact absurd (hleads (.int 1) (.tail _ (.head _))) (by decide +kernel)
  · cases hsplit
    rfl
  · cases hsplit
    exact absurd (hbehind (.int 1) (.tail _ (.head _))) (by decide +kernel)
  · cases before <;> cases hsplit

end Builtin
end CseMachine
