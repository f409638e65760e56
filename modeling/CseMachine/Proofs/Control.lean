import CseMachine.Proofs.Variant.Standard
import Mathlib.Data.List.Basic

/-!
# Control as its items

A Control whose count is right is its list of items, and pushing, popping and
giving up the rest of a call are operations on this list.
-/
namespace CseMachine

namespace Control

/-- The Control with these items. -/
def ofItems (items : List Item) : Control := ⟨⟨items⟩, items.countP Item.isEnvDependent⟩

@[simp] theorem items_ofItems (items : List Item) : (ofItems items).items.items = items := rfl

variable {item : Item} {items rest : List Item}

theorem countWithout_cons : countWithout ((item :: rest).countP Item.isEnvDependent) item =
    rest.countP Item.isEnvDependent := by
  simp only [countWithout]
  rw [List.countP_cons]
  split <;> omega

theorem pop?_ofItems : (ofItems (item :: rest)).pop? = some (item, ofItems rest) := by
  simp only [pop?]
  simp only [ofItems, Stack.pop?, countWithout_cons]

theorem canAvoidRestore_ofItems :
    (ofItems items).canAvoidRestore = true ↔ ∀ i ∈ items, i.isEnvDependent = false := by
  simp only [canAvoidRestore, ofItems]
  simp [List.countP_eq_zero]

/-- What lies below the nearest marker. -/
def belowMarker : List Item → List Item
  | [] => []
  | item :: rest => if item.isMarker then rest else belowMarker rest

theorem belowMarker_suffix (items : List Item) : belowMarker items <:+ items := by
  induction items with
  | nil => exact List.suffix_rfl
  | cons item rest ih =>
    simp only [belowMarker]
    split
    · exact List.suffix_cons item rest
    · exact ih.trans (List.suffix_cons item rest)

theorem dropToMarker_eq (items : List Item) :
    dropToMarker items (items.countP Item.isEnvDependent) = ofItems (belowMarker items) := by
  induction items with
  | nil => rfl
  | cons item rest ih =>
    simp only [dropToMarker, belowMarker]
    rw [countWithout_cons]
    split
    · rfl
    · exact ih

theorem unwind_ofItems : (ofItems items).unwind = ofItems (belowMarker items) := dropToMarker_eq items

/-- Something looks at the current environment before any restore leads elsewhere. -/
def Cares : List Item → Prop
  | [] => False
  | item :: rest => item.isRestore = false ∧ (item.isEnvDependent = true ∨ Cares rest)

theorem not_cares_of_canAvoidRestore (h : (ofItems items).canAvoidRestore = true) : ¬Cares items := by
  have hd := canAvoidRestore_ofItems.mp h
  clear h
  induction items with
  | nil => exact id
  | cons item rest ih =>
    rintro ⟨-, hi | hr⟩
    · rw [hd item (.head _)] at hi
      cases hi
    · exact ih (fun i hi => hd i (.tail _ hi)) hr

theorem not_cares_of_peek? (h : (ofItems items).peek?.any Item.isRestore = true) : ¬Cares items := by
  cases items with
  | nil => exact id
  | cons item rest =>
    have hi : item.isRestore = true := h
    rintro ⟨hn, -⟩
    rw [hi] at hn
    cases hn

/-- Environments that pending restores lead back to. -/
def targets (items : List Item) : List EnvId := items.filterMap Item.restoreTarget?

theorem targets_cons : targets (item :: rest) = item.restoreTarget?.toList ++ targets rest := by
  simp only [targets]
  rw [List.filterMap_cons]
  cases item.restoreTarget? <;> rfl

theorem targets_append (xs ys : List Item) : targets (xs ++ ys) = targets xs ++ targets ys :=
  List.filterMap_append

theorem targets_belowMarker (items : List Item) : (targets (belowMarker items)).Sublist (targets items) :=
  (belowMarker_suffix items).sublist.filterMap _

end Control

/-- The context in which an item is executed that was taken off from above the rest. -/
def Context.taking (c : Context) (rest : List Item) : Context :=
  { c with control := .ofItems rest, phase := .running, steps := c.steps + 1 }

namespace Variant

open Control (ofItems targets)

variable (v : Variant)

theorem shape_isEnvDependent (item : Item) : (v.shape item).isEnvDependent = item.isEnvDependent := by
  simp only [shape]
  split
  · exact item.isEnvDependent_flatten
  · rfl

theorem shape_restoreTarget? (item : Item) : (v.shape item).restoreTarget? = item.restoreTarget? := by
  simp only [shape, Item.flatten]
  split
  · split <;> rfl
  · rfl

@[simp] theorem shape_instr (i : Instr) (span : Span) : v.shape (.instr i span) = .instr i span := by
  simp only [shape]
  split <;> rfl

theorem push_ofItems (item : Item) (rest : List Item) :
    v.push (ofItems rest) item = ofItems (v.shape item :: rest) := by
  simp only [push, ofItems]
  simp only [List.countP_cons, Stack.push]
  split <;> simp_all

theorem pushAll_ofItems (items rest : List Item) :
    v.pushAll (ofItems rest) items = ofItems (items.map v.shape ++ rest) := by
  induction items with
  | nil => rfl
  | cons item items ih =>
    have hp : v.pushAll (ofItems rest) (item :: items) = v.push (v.pushAll (ofItems rest) items) item := rfl
    rw [hp, ih, push_ofItems]
    rfl

theorem pushInstr_ofItems (i : Instr) (span : Span) (rest : List Item) :
    (ofItems rest).pushInstr i span = ofItems (.instr i span :: rest) := standard.push_ofItems (.instr i span) rest

/-- A step of the machine that never collects. -/
theorem advance?_cons {c : Context} {item : Item} {rest : List Item} (h : c.control = ofItems (item :: rest)) :
    v.hoarding.advance? c = match v.execute item (c.taking rest) with
      | .ok _ d => some (item, d)
      | .error e d => some (item, d.failWith (e.withSpan item.span)) := by
  simp only [advance?]
  rw [h, Control.pop?_ofItems]
  rfl

theorem advance?_nil {c : Context} (h : c.control = ofItems []) : v.advance? c = none := by
  simp only [advance?]
  rw [h]
  rfl

theorem targets_shapes (items : List Item) : targets (items.map v.shape) = targets items := by
  simp only [targets]
  rw [List.filterMap_map]
  congr 1
  funext item
  exact v.shape_restoreTarget? item

end Variant

namespace Node

open Control (targets)

theorem targets_operands (nodes : List Node) : targets (operands nodes) = [] := by
  simp only [targets, operands]
  rw [List.filterMap_map]
  exact List.filterMap_eq_nil_iff.mpr fun _ _ => rfl

theorem targets_statementItems (body : List Node) : targets (statementItems body) = [] := by
  induction body with
  | nil => rfl
  | cons first rest ih =>
    cases rest with
    | nil => rfl
    | cons second rest => exact ih

/-- No part of a node is a restore. -/
theorem targets_parts {n : Node} {items : List Item} (h : n.parts? = some items) : targets items = [] := by
  simp only [parts?] at h
  split at h <;> cases h
  · exact targets_statementItems _
  · exact targets_operands _
  all_goals
    rw [Control.targets_append, targets_operands]
    rfl

end Node
end CseMachine
