import CseMachine.Proofs.WellFormed
import Mathlib.Data.List.TakeWhile

/-!
# Pending restores

A return to an environment is arranged only if something left depends on the
environment, and only to the current one. So below each pending restore something
still depends on the environment, and the restores lead outwards in the order in
which they lie. Then the environment that a restore leads to is still active when
its turn comes.
-/
namespace CseMachine

open Relation (ReflTransGen)
open Control (ofItems targets)

namespace Control

variable {item : Item} {items rest : List Item}

/-- Strictly below each restore something depends on the environment. -/
def Guarded : List Item → Prop
  | [] => True
  | item :: rest => (item.isRestore = true → ∃ i ∈ rest, i.isEnvDependent = true) ∧ Guarded rest

theorem Guarded.append (h : Guarded rest) (hi : targets items = []) : Guarded (items ++ rest) := by
  induction items with
  | nil => exact h
  | cons item items ih =>
    rw [targets_cons, List.append_eq_nil_iff] at hi
    obtain ⟨hitem, hitems⟩ := hi
    refine ⟨fun hr => ?_, ih hitems⟩
    rw [Item.isRestore, Option.isSome_iff_exists] at hr
    obtain ⟨target, ht⟩ := hr
    rw [ht] at hitem
    cases hitem

theorem Guarded.suffix (h : Guarded items) (hs : rest <:+ items) : Guarded rest := by
  obtain ⟨front, rfl⟩ := hs
  induction front with
  | nil => exact h
  | cons item front ih => exact ih h.2

/-- Where nothing depends on the environment, no restore is pending. -/
theorem Guarded.targets_eq_nil (h : Guarded items) (hd : ∀ i ∈ items, i.isEnvDependent = false) : targets items = [] := by
  induction items with
  | nil => rfl
  | cons item rest ih =>
    have hnone : item.restoreTarget? = none := by
      cases hr : item.restoreTarget? with
      | none => rfl
      | some target =>
        obtain ⟨i, hi, hdep⟩ := h.1 (by rw [Item.isRestore, hr]; rfl)
        rw [hd i (.tail _ hi)] at hdep
        cases hdep
    rw [targets_cons, hnone, ih h.2 fun i hi => hd i (.tail _ hi)]
    rfl

end Control

/-- All of them are active, and one that comes earlier in the list is not further out. -/
structure Outward (active : List EnvId) (targets : List EnvId) : Prop where
  mem : ∀ id ∈ targets, id ∈ active
  ordered : targets.Pairwise fun t u => active.idxOf t ≤ active.idxOf u

namespace Outward

variable {active ids ids' : List EnvId} {env target : EnvId}

theorem nil : Outward active [] := ⟨by simp, .nil⟩

theorem sublist (h : Outward active ids) (hs : ids'.Sublist ids) : Outward active ids' :=
  ⟨fun id hi => h.mem id (hs.subset hi), h.ordered.sublist hs⟩

/-- The innermost environment comes before all others. -/
theorem cons (h : Outward active ids) (hc : active.head? = some env) : Outward active (env :: ids) := by
  obtain ⟨rest, rfl⟩ := List.head?_eq_some_iff.mp hc
  constructor
  · intro id hi
    rcases List.mem_cons.mp hi with rfl | hi
    · exact .head _
    · exact h.mem id hi
  · refine List.pairwise_cons.mpr ⟨fun id _ => ?_, h.ordered⟩
    rw [List.idxOf_cons_self]
    exact Nat.zero_le _

theorem enter (h : Outward active ids) (hn : env ∉ active) : Outward (env :: active) ids := by
  have hidx : ∀ id ∈ ids, (env :: active).idxOf id = active.idxOf id + 1 := by
    intro id hi
    refine List.idxOf_cons_ne _ ?_
    rintro rfl
    exact hn (h.mem _ hi)
  refine ⟨fun id hi => .tail _ (h.mem id hi), h.ordered.imp_of_mem fun ht hu hle => ?_⟩
  rw [hidx _ ht, hidx _ hu]
  exact Nat.succ_le_succ hle

/-- What is not further in than the target stays when the target is returned to. -/
theorem leave (h : Outward active (target :: ids)) : Outward (active.dropWhile (· ≠ target)) ids := by
  have hsplit := List.takeWhile_append_dropWhile (p := (· ≠ target)) (l := active)
  have hnot : target ∉ active.takeWhile (· ≠ target) := by
    intro hm
    simpa using List.mem_takeWhile_imp hm
  obtain ⟨hfirst, hrest⟩ := List.pairwise_cons.mp h.ordered
  generalize hfront : active.takeWhile (· ≠ target) = front at hsplit hnot
  generalize hback : active.dropWhile (· ≠ target) = back at hsplit
  -- an environment further in would come before the target in the list
  have houter : ∀ id ∈ ids, id ∉ front := by
    intro id hi hm
    have hle := hfirst id hi
    rw [← hsplit, List.idxOf_append_of_notMem hnot, List.idxOf_append_of_mem hm] at hle
    have hlt := List.idxOf_lt_length_of_mem hm
    omega
  constructor
  · intro id hi
    have hm := h.mem id (.tail _ hi)
    rw [← hsplit] at hm
    exact (List.mem_append.mp hm).resolve_left (houter id hi)
  · refine hrest.imp_of_mem fun ht hu hle => ?_
    rw [← hsplit, List.idxOf_append_of_notMem (houter _ ht), List.idxOf_append_of_notMem (houter _ hu)] at hle
    exact Nat.le_of_add_le_add_left hle

end Outward

namespace Context

variable {c d : Context}

/-- Control counts what depends on the environment, and its restores are guarded and lead outwards. -/
structure Anchored (c : Context) : Prop where
  counted : c.control = ofItems c.control.items.items
  guarded : Control.Guarded c.control.items.items
  outward : Outward c.memory.active c.control.pending

namespace Anchored

variable (h : c.Anchored)
include h

theorem congr (hc : d.control = c.control) (hm : d.memory.active = c.memory.active) : d.Anchored :=
  ⟨by rw [hc]; exact h.counted, by rw [hc]; exact h.guarded, by rw [hc, hm]; exact h.outward⟩

theorem pending_eq_nil (hn : c.control.canAvoidRestore = true) : c.control.pending = [] := by
  rw [h.counted] at hn
  exact h.guarded.targets_eq_nil (Control.canAvoidRestore_ofItems.mp hn)

theorem change (hw : c.WellFormed) (hc : Change c d) : d.Anchored := by
  cases hc with
  | push plain =>
    refine ⟨?_, ?_, ?_⟩
    · dsimp only
      rw [h.counted, Variant.pushAll_ofItems]
      rfl
    · simp only [Control.items_pushAll]
      exact h.guarded.append ((Variant.targets_shapes _ _).trans plain)
    · simp only [Control.pending_pushAll plain]
      exact h.outward
  | unwind =>
    refine ⟨?_, ?_, h.outward.sublist Control.pending_unwind⟩
    · dsimp only
      rw [h.counted, Control.unwind_ofItems]
      rfl
    · simp only [Control.unwind, Control.items_dropToMarker]
      exact h.guarded.suffix (Control.belowMarker_suffix _)
  | arrange span needed =>
    refine ⟨?_, ⟨fun _ => ?_, h.guarded⟩, ?_⟩
    · dsimp only
      rw [h.counted, Variant.pushInstr_ofItems]
      rfl
    · rw [h.counted] at needed
      by_contra hn
      refine absurd (Control.canAvoidRestore_ofItems.mpr fun i hi => ?_) (ne_true_of_eq_false needed)
      exact Bool.eq_false_iff.mpr fun hd => hn ⟨i, hi, hd⟩
    · dsimp only
      rw [Control.pending_restore]
      exact h.outward.cons hw.memory.head?_active
  | memory change => exact h.congr rfl change.active_eq
  | enter present inactive => exact ⟨h.counted, h.guarded, h.outward.enter inactive⟩
  | replace unneeded left =>
    refine ⟨h.counted, h.guarded, ?_⟩
    rw [show Control.pending _ = _ from h.pending_eq_nil unneeded]
    exact .nil
  | _ => exact h.congr rfl rfl

theorem changes (hw : c.WellFormed) (hc : ReflTransGen Change c d) : d.Anchored := by
  induction hc with
  | refl => exact h
  | tail hcs hc ih => exact ih.change (hw.changes hcs).1 hc

end Anchored

/-- The item on top with what lies below it. -/
theorem Anchored.pop? {item : Item} {rest : Control} (h : c.Anchored) (hp : c.control.pop? = some (item, rest)) :
    c.control.items.items = item :: rest.items.items ∧ rest = ofItems rest.items.items := by
  rw [h.counted] at hp
  cases hi : c.control.items.items with
  | nil =>
    rw [hi] at hp
    cases hp
  | cons top below =>
    rw [hi, Control.pop?_ofItems] at hp
    cases hp
    exact ⟨rfl, rfl⟩

/-- A restore whose target is active leaves the environments above it. -/
theorem execute_restore_active {target : EnvId} (span : Span) (h : target ∈ c.memory.active) :
    ∃ m, Action.execute (.instr (.restore target) span) c = .ok () { c with memory := m } ∧
      m.active = c.memory.active.dropWhile (· ≠ target) := by
  obtain ⟨m, hk, ha⟩ := ({ c with
    memory := { c.memory with active := c.memory.active.dropWhile (· ≠ target) } } : Context).keepResult_eq target
      (c.memory.active.takeWhile (· ≠ target))
  have hx := @Variant.execute_restore Variant.standard c span _ _ _ (Memory.restore_ok h)
  rw [Variant.execute_standard, hk] at hx
  exact ⟨m, hx, ha.active.symm⟩

namespace Anchored

variable (h : c.Anchored)
include h

/-- Executing what is on top keeps the order, a restore by going where it leads. -/
theorem execute (hw : c.WellFormed) {item : Item} {rest : Control} (hp : c.control.pop? = some (item, rest)) :
    match Action.execute item (c.taken rest) with
    | .ok _ d => d.Anchored
    | .error _ d => d.Anchored := by
  obtain ⟨hitems, hrest⟩ := h.pop? hp
  have hpending := Control.pending_pop? hp
  have hg := h.guarded
  rw [hitems] at hg
  cases hr : item.restoreTarget? with
  | none =>
    have ht : (c.taken rest).Anchored := by
      refine ⟨hrest, hg.2, ?_⟩
      rw [hr] at hpending
      exact h.outward.sublist (hpending ▸ List.Sublist.refl _)
    have hl := Variant.leads_execute (hw.taken hp) hr
    rw [Variant.execute_standard] at hl
    split
    · next heq =>
      rw [heq] at hl
      exact ht.changes (hw.taken hp) hl.1
    · next heq =>
      rw [heq] at hl
      exact ht.changes (hw.taken hp) hl
  | some target =>
    obtain ⟨span, rfl⟩ := Item.eq_restore hr
    have ho := h.outward
    rw [hpending, hr] at ho
    obtain ⟨m, hx, hm⟩ := execute_restore_active (c := c.taken rest) span (ho.mem target (.head _))
    rw [hx]
    refine ⟨hrest, hg.2, ?_⟩
    rw [hm]
    exact ho.leave

theorem advance (hw : c.WellFormed) {item : Item} (ha : c.advance? = some (item, d)) : d.Anchored := by
  refine of_advance? (P := Anchored) ha (fun rest hp => h.execute hw hp) (fun he => ?_) fun he => ?_
  · exact he.congr rfl (Memory.agreeOn_collect _ _ _).active.symm
  · exact he.congr rfl rfl

theorem load (hw : c.WellFormed) (program : Node) : (c.load program).Anchored := by
  simp only [Context.load]
  split
  · exact h
  · have hpush : Change c { c with control := Variant.standard.pushAll c.control [.node program false] } := .push rfl
    exact (h.change hw hpush).congr rfl rfl

theorem finish (hn : c.control.isEmpty = true) : c.finish.Anchored := by
  have hc : c.finish.control = c.control := c.control_settle
  have hp : c.control.pending = [] := by
    simp only [Control.pending, List.isEmpty_iff.mp hn]
    rfl
  refine ⟨by rw [hc]; exact h.counted, by rw [hc]; exact h.guarded, ?_⟩
  rw [hc, hp]
  exact .nil

end Anchored

/-- Restores stay in order whatever is called. -/
theorem anchored_invariant : Invariant fun c => c.WellFormed ∧ c.Anchored where
  fresh run hm := ⟨wellFormed_invariant.fresh run hm, rfl, trivial, .nil⟩
  loaded program h := ⟨wellFormed_invariant.loaded program h.1, h.2.load h.1 program⟩
  advanced h hp ha := ⟨wellFormed_invariant.advanced h.1 hp ha, h.2.advance h.1 ha⟩
  finished h hp hn := ⟨wellFormed_invariant.finished h.1 hp hn, h.2.finish hn⟩
  suspended h := ⟨wellFormed_invariant.suspended h.1, h.2.congr rfl rfl⟩
  predefining predefined h := ⟨wellFormed_invariant.predefining predefined h.1, h.2.congr rfl rfl⟩
  started h := ⟨wellFormed_invariant.started h.1, h.2.congr rfl rfl⟩

end Context

/-! Positions -/

/-- In a list without duplicates an element has as many others before it as behind it in the
reversed list. -/
theorem idxOf_reverse {α : Type} [BEq α] [LawfulBEq α] {l : List α} {a : α} (hn : l.Nodup) (h : a ∈ l) :
    l.reverse.idxOf a + l.idxOf a + 1 = l.length := by
  obtain ⟨front, back, rfl⟩ := List.append_of_mem h
  obtain ⟨-, hback, hdisjoint⟩ := List.nodup_append.mp hn
  have hfront : a ∉ front := fun hm => hdisjoint a hm a (.head _) rfl
  have hrev : a ∉ back.reverse := fun hm => (List.nodup_cons.mp hback).1 (List.mem_reverse.mp hm)
  rw [List.reverse_append, List.reverse_cons, List.append_assoc, List.idxOf_append_of_notMem hrev,
    List.singleton_append, List.idxOf_cons_self, List.idxOf_append_of_notMem hfront, List.idxOf_cons_self]
  simp only [List.length_reverse, List.length_append, List.length_cons]
  omega

theorem Control.Guarded.below {items above below : List Item} {item : Item} (h : Guarded items)
    (hi : items = above ++ item :: below) (hr : item.isRestore = true) : ∃ i ∈ below, i.isEnvDependent = true := by
  have hg : Guarded (item :: below) := h.suffix (hi ▸ List.suffix_append above (item :: below))
  exact hg.1 hr

namespace Context

/-- The position of an environment on the active stack, from the outermost one. -/
def place (c : Context) (env : EnvId) : Nat := c.memory.active.reverse.idxOf env

/-- Pending restores always have something to restore to. -/
structure Restorable (c : Context) : Prop where
  guarded : ∀ above item below, c.control.items.items = above ++ item :: below → item.isRestore = true →
    ∃ i ∈ below, i.isEnvDependent = true
  active : ∀ target ∈ c.control.pending, target ∈ c.memory.active
  /-- From the bottom of Control to its top the positions never decrease. -/
  ordered : ((c.control.toList.filterMap Item.restoreTarget?).map c.place).Pairwise (· ≤ ·)
  /-- Executing a restore goes to its target. -/
  restores : ∀ target span rest, c.control.pop? = some (.instr (.restore target) span, rest) →
    ∃ d, Action.execute (.instr (.restore target) span) (c.taken rest) = .ok () d ∧ d.memory.current = target
  /-- A call leaves the caller's frame for good only if no restore is pending at all, least of all one
  that names this frame. -/
  replaces : ∀ count span rest, c.control.pop? = some (.instr (.application count) span, rest) →
    rest.canAvoidRestore = true → rest.pending = [] ∧ ∀ frame m, c.memory.pop? = some (frame, m) → frame ∉ rest.pending

theorem Anchored.restorable {c : Context} (h : c.Anchored) (hw : c.WellFormed) : c.Restorable := by
  constructor
  · exact fun above item below hi hr => h.guarded.below hi hr
  · exact h.outward.mem
  · have hp : c.control.toList.filterMap Item.restoreTarget? = c.control.pending.reverse := List.filterMap_reverse
    rw [hp, List.pairwise_map, List.pairwise_reverse]
    refine h.outward.ordered.imp_of_mem fun {t u} ht hu hle => ?_
    have hpt := idxOf_reverse hw.memory.nodup (h.outward.mem t ht)
    have hpu := idxOf_reverse hw.memory.nodup (h.outward.mem u hu)
    simp only [place]
    omega
  · intro target span rest hp
    have ht : target ∈ c.memory.active := h.outward.mem target (by rw [Control.pending_pop? hp]; exact .head _)
    obtain ⟨m, hx, hm⟩ := execute_restore_active (c := c.taken rest) span ht
    refine ⟨_, hx, ?_⟩
    obtain ⟨below, hd⟩ := Memory.dropWhile_eq_cons ht
    simp only [Memory.current, hm]
    rw [show (c.taken rest).memory.active = c.memory.active from rfl, hd]
    rfl
  · intro count span rest hp hn
    obtain ⟨hitems, hrest⟩ := h.pop? hp
    have hg := h.guarded
    rw [hitems] at hg
    rw [hrest] at hn
    have hnil : rest.pending = [] := hg.2.targets_eq_nil (Control.canAvoidRestore_ofItems.mp hn)
    exact ⟨hnil, fun frame m _ => by rw [hnil]; exact List.not_mem_nil⟩

end Context

namespace Setup

/-- Whatever trees are loaded, at whatever moment, and however they are run, pending restores have
something to restore to. -/
theorem reachable_restorable {s : Setup} {run : RunId} {c : Context} (h : s.Reachable run c) : c.Restorable := by
  obtain ⟨hw, ha⟩ := Context.anchored_invariant.reachable h
  exact ha.restorable hw

/-- A block with a name of its own, and after it a name that is looked up outside. -/
def innerBlock : Node :=
  .program ⟨0, 9⟩ [] [.block ⟨0, 4⟩ [⟨"x", false⟩] [.pass ⟨0, 4⟩], .identifier ⟨4, 9⟩ "print"]

theorem reachable_restorable_innerBlock : ∃ c, Reachable {} ⟨0⟩ c ∧ c.control.pending = [⟨1⟩] ∧ c.Restorable := by
  have hstart : Reachable {} ⟨0⟩ (.fresh ⟨0⟩) := .started (newContext_eq none 0 ⟨0⟩)
  have hblock := (hstart.loaded innerBlock).stepped.stepped
  refine ⟨_, hblock, ?_, reachable_restorable hblock⟩
  rfl

end Setup
end CseMachine
