import CseMachine.Proofs.WellFormed

/-!
# Lookups, texts and comparisons end

The machine follows links without a bound: outwards from frame to frame, and
from a list to its elements. Links lead to what is older, so every such walk
ends in a well-formed context, and the bounds that are given to it here are
never reached.
-/
namespace CseMachine

/-- How the search for a name goes on outwards until it ends, from one environment that is there to
the next. -/
inductive Memory.Finds (m : Memory) (name : String) : EnvId → Resolution → Prop
  | here {id : EnvId} {e : Environment} {slot : Slot} (found : m.environment? id = some e)
      (bound : e.lookup? name = some slot) : Finds m name id (.found id e slot)
  | outermost {id : EnvId} {e : Environment} (found : m.environment? id = some e) (unbound : e.lookup? name = none)
      (last : e.tail = none) : Finds m name id .absent
  | outwards {id tail : EnvId} {e : Environment} {r : Resolution} (found : m.environment? id = some e)
      (unbound : e.lookup? name = none) (next : e.tail = some tail) (rest : Finds m name tail r) : Finds m name id r

/-- How the text of a value is put together from the texts of its elements. -/
inductive Value.Shows (s : Store) : Value → String → Prop
  | atom {w : Value} (h : ∀ id, w ≠ .list id) : Shows s w (reprWithin s 0 w)
  | list {id : ObjId} {items : List Value} {texts : List String} (found : s.list? id = some items)
      (elements : List.Forall₂ (Shows s) items texts) : Shows s (.list id) ("[" ++ ", ".intercalate texts ++ "]")

/-- How two values are compared, lists by their elements. -/
inductive Value.Compares (s : Store) : Value → Value → Bool → Prop
  | atom {v w : Value} (h : ∀ a b, ¬(v = .list a ∧ w = .list b)) : Compares s v w (equalWithin s 0 v w)
  | same (id : ObjId) : Compares s (.list id) (.list id) true
  | sizes {a b : ObjId} {xs ys : List Value} (other : a ≠ b) (left : s.list? a = some xs) (right : s.list? b = some ys)
      (differ : xs.length ≠ ys.length) : Compares s (.list a) (.list b) false
  | elements {a b : ObjId} {xs ys : List Value} {results : List Bool} (other : a ≠ b) (left : s.list? a = some xs)
      (right : s.list? b = some ys) (same : xs.length = ys.length)
      (each : List.Forall₂ (fun p r => Compares s p.1 p.2 r) (xs.zip ys) results) :
      Compares s (.list a) (.list b) (results.all id)

namespace Memory.Linked

variable {m : Memory} (h : m.Linked)
include h

/-- Tails are older, so no walk is longer than the number of the environment that it starts in. -/
theorem finds_resolveFrom (name : String) {steps : Nat} {id : EnvId} (hp : m.Present id) (hs : id.index < steps) :
    m.Finds name id (m.resolveFrom name steps id) := by
  induction steps generalizing id with
  | zero => exact absurd hs (Nat.not_lt_zero _)
  | succ steps ih =>
    obtain ⟨e, he⟩ := Option.isSome_iff_exists.mp hp
    simp only [resolveFrom, he]
    cases hl : e.lookup? name with
    | some slot => exact .here he hl
    | none =>
      dsimp only
      by_cases hid : id = .global
      · obtain ⟨g, hg, ht⟩ := h.global
        obtain rfl := Option.some.inj (he.symm.trans (hid ▸ hg))
        rw [ht]
        exact .outermost he hl ht
      · obtain ⟨t, ht, hpt, hlt⟩ := h.tail id e he hid
        have hrest := ih hpt (Nat.lt_of_lt_of_le hlt (Nat.le_of_lt_succ hs))
        rw [ht]
        exact .outwards he hl ht hrest

theorem finds_resolve (name : String) : m.Finds name m.current (m.resolve name) := by
  have hp := h.present_current
  exact h.finds_resolveFrom name hp (Nat.lt_succ_of_lt (h.envIds _ hp))

/-- Elements are older than their list, so lists are nested no deeper than the number of the outermost. -/
theorem shows_reprWithin {bound : Nat} {w : Value} (hw : w.Resolves m.store)
    (hb : ∀ id, w.objectId? = some id → id.index < bound) : w.Shows m.store (w.reprWithin m.store bound) := by
  induction bound generalizing w with
  | zero =>
    refine .atom fun id hid => ?_
    subst hid
    exact absurd (hb id rfl) (Nat.not_lt_zero _)
  | succ bound ih =>
    cases w with
    | list id =>
      obtain ⟨items, hi⟩ := Option.isSome_iff_exists.mp hw
      simp only [Value.reprWithin, hi, Option.getD_some]
      refine .list hi ?_
      rw [List.forall₂_map_right_iff, List.forall₂_same]
      intro v hv
      obtain ⟨hr, hlt⟩ := h.element id items hi v hv
      exact ih hr fun k hk => Nat.lt_of_lt_of_le (hlt k hk) (Nat.le_of_lt_succ (hb id rfl))
    | _ =>
      refine .atom fun id hid => ?_
      cases hid

theorem shows_repr {w : Value} (hw : w.Resolves m.store) : w.Shows m.store (w.repr m.store) :=
  h.shows_reprWithin hw fun _ hk => h.lt_next hw hk

theorem compares_equalWithin {bound : Nat} {v w : Value} (hv : v.Resolves m.store) (hw : w.Resolves m.store)
    (hb : ∀ id, v.objectId? = some id → id.index < bound) : v.Compares m.store w (v.equalWithin m.store bound w) := by
  induction bound generalizing v w with
  | zero =>
    refine .atom fun a b hab => ?_
    obtain ⟨rfl, -⟩ := hab
    exact absurd (hb a rfl) (Nat.not_lt_zero _)
  | succ bound ih =>
    by_cases hlists : ∃ a b, v = .list a ∧ w = .list b
    · obtain ⟨a, b, rfl, rfl⟩ := hlists
      by_cases hab : a = b
      · subst hab
        simp only [Value.equalWithin, BEq.rfl, Bool.true_or]
        exact .same a
      · obtain ⟨xs, hxs⟩ := Option.isSome_iff_exists.mp hv
        obtain ⟨ys, hys⟩ := Option.isSome_iff_exists.mp hw
        simp only [Value.equalWithin, beq_eq_false_iff_ne.mpr hab, Bool.false_or, hxs, hys]
        by_cases hl : xs.length = ys.length
        · have heach : List.Forall₂ (fun p r => Value.Compares m.store p.1 p.2 r) (xs.zip ys)
              ((xs.zip ys).map fun p => p.1.equalWithin m.store bound p.2) := by
            rw [List.forall₂_map_right_iff, List.forall₂_same]
            rintro ⟨x, y⟩ hp
            obtain ⟨hx, hy⟩ := List.of_mem_zip hp
            obtain ⟨hrx, hlt⟩ := h.element a xs hxs x hx
            exact ih hrx (h.element b ys hys y hy).1 fun k hk =>
              Nat.lt_of_lt_of_le (hlt k hk) (Nat.le_of_lt_succ (hb a rfl))
          have hall := Value.Compares.elements hab hxs hys hl heach
          rw [List.all_map] at hall
          rw [hl, BEq.rfl, Bool.true_and]
          exact hall
        · rw [beq_eq_false_iff_ne.mpr hl, Bool.false_and]
          exact .sizes hab hxs hys hl
    · have hflat : ∀ n k, v.equalWithin m.store n w = v.equalWithin m.store k w := by
        intro n k
        cases v with
        | list a =>
          cases w with
          | list b => exact absurd ⟨a, b, rfl, rfl⟩ hlists
          | _ => simp only [Value.equalWithin]
        | _ => cases w <;> simp only [Value.equalWithin]
      rw [hflat _ 0]
      exact .atom fun a b hab => hlists ⟨a, b, hab⟩

theorem compares_equal {v w : Value} (hv : v.Resolves m.store) (hw : w.Resolves m.store) :
    v.Compares m.store w (v.equal m.store w) :=
  h.compares_equalWithin hv hw fun _ hk => h.lt_next hv hk

end Memory.Linked

/-- Every walk that the machine starts here ends, with the result that it is given. -/
structure Context.WalksEnd (c : Context) : Prop where
  lookup : ∀ name, c.memory.Finds name c.memory.current (c.memory.resolve name)
  text : ∀ w : Value, w.Resolves c.memory.store → w.Shows c.memory.store (w.repr c.memory.store)
  comparison : ∀ v w : Value, v.Resolves c.memory.store → w.Resolves c.memory.store →
    v.Compares c.memory.store w (v.equal c.memory.store w)

namespace Setup

variable {s : Setup} {run : RunId} {c : Context}

/-- Whatever trees are loaded and however they are run, all that a context refers to is there, and
every walk along its links ends. -/
theorem reachable_wellFormed (h : s.Reachable run c) : c.WellFormed ∧ c.WalksEnd := by
  have hw := h.wellFormed
  refine ⟨hw, fun name => ?_, fun w hr => ?_, fun v w hv hr => ?_⟩
  · exact hw.memory.finds_resolve name
  · exact hw.memory.shows_repr hr
  · exact hw.memory.compares_equal hv hr

/-- The expression `[[], 1]` on its own, without a program around it. -/
def nestedList : Node :=
  .list ⟨0, 7⟩ [.list ⟨1, 3⟩ [], .literal ⟨5, 6⟩ (.int 1)]

theorem reachable_wellFormed_nestedList :
    ∃ c, Reachable {} ⟨0⟩ c ∧ c.memory.store.list? ⟨1⟩ = some [.list ⟨0⟩, .int 1] ∧ c.WellFormed ∧ c.WalksEnd := by
  have hstart : Reachable {} ⟨0⟩ (.fresh ⟨0⟩) := .started (newContext_eq none 0 ⟨0⟩)
  have hdone := (hstart.loaded nestedList).stepped.stepped.stepped.stepped.stepped
  refine ⟨_, hdone, ?_, reachable_wellFormed hdone⟩
  rfl

end Setup
end CseMachine
