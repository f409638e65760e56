import CseMachine.Proofs.Settling

/-!
# What lasts between collections

Whatever items and the return to the program's environment do to a memory, they do by changes
to a well-formed memory and by entering and leaving environments. A property of memories that
these keep can only be lost in a collection.
-/
namespace CseMachine.Memory

open Relation (ReflTransGen)

/-- Each change to a well-formed memory keeps the property, and who is active has no say in it. -/
structure Lasting (P : Memory → Prop) : Prop where
  changed : ∀ {m m' : Memory}, m.WellFormed → Change m m' → P m → P m'
  active : ∀ {m : Memory} (active : List EnvId), P m → P { m with active }

namespace Lasting

variable {P : Memory → Prop} (hP : Lasting P) {m m' : Memory} {c d : Context}
include hP

theorem changes (hw : m.WellFormed) (hc : ReflTransGen Change m m') (h : P m) : P m' := by
  induction hc with
  | refl => exact h
  | tail hc hlast ih => exact hP.changed (hw.changes hc).1 hlast ih

theorem contextChange (hw : c.WellFormed) (hc : Context.Change c d) (h : P c.memory) : P d.memory := by
  cases hc with
  | memory change => exact hP.changed hw.memory change h
  | enter => exact hP.active _ h
  | replace unneeded left =>
    obtain ⟨rfl, -⟩ := Memory.pop?_eq_some left
    exact hP.active _ h
  | _ => exact h

theorem contextChanges (hw : c.WellFormed) (hc : ReflTransGen Context.Change c d) (h : P c.memory) : P d.memory := by
  induction hc with
  | refl => exact h
  | tail hc hlast ih => exact hP.contextChange (hw.changes hc).1 hlast ih

/-- A result that is kept is moved at most. -/
theorem keepResult (hw : c.memory.WellFormed) (target : EnvId) (left : List EnvId) (h : P c.memory) :
    P (c.keepResult target left).memory := by
  simp only [Context.keepResult]
  split
  · split
    · split
      · exact hP.changed hw (.move c.memory _ target) h
      · exact h
    · exact h
  · exact h

/-- The property holds behind every item, whether it fails or not. -/
theorem execute (hw : c.WellFormed) (item : Item) (h : P c.memory) : match Action.execute item c with
    | .ok _ d => P d.memory
    | .error _ d => P d.memory := by
  cases hr : item.restoreTarget? with
  | none =>
    have hl := Variant.leads_execute hw hr
    rw [Variant.execute_standard] at hl
    split
    · next heq =>
      rw [heq] at hl
      exact hP.contextChanges hw hl.1 h
    · next heq =>
      rw [heq] at hl
      exact hP.contextChanges hw hl h
  | some target =>
    obtain ⟨span, rfl⟩ := Item.eq_restore hr
    by_cases ht : target ∈ c.memory.active
    · rw [← Variant.execute_standard, Variant.execute_restore _ (Memory.restore_ok ht)]
      obtain ⟨below, hd⟩ := Memory.dropWhile_eq_cons ht
      have hm := hw.memory.withSuffix (List.dropWhile_suffix (· ≠ target)) (hd ▸ List.cons_ne_nil target below)
      exact hP.keepResult hm target _ (hP.active _ h)
    · rw [Context.execute_restore_inactive span ht]
      exact h

theorem returned (hw : c.WellFormed) (h : P c.memory) : P c.returned.memory := by
  simp only [Context.returned]
  split
  · next program hp => exact hP.keepResult (hw.memory.unwindTo (hw.program program hp)) program _ (hP.active _ h)
  · exact h

end Lasting
end CseMachine.Memory
