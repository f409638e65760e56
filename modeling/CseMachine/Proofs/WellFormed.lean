import CseMachine.Proofs.Changes
import CseMachine.Proofs.Reachable

/-!
# Reachable contexts are well formed

Items, collections and the return to the program's environment at the end all
leave a well-formed context, so every context there is is well formed.
-/
namespace CseMachine

open Relation (ReflTransGen)

namespace Memory

variable {m : Memory} {target : EnvId}

/-- All above the target's outermost place is left. -/
theorem unwindTo_of_mem (h : target ∈ m.active) :
    ∃ below, (m.unwindTo target).2 = { m with active := target :: below } ∧ target :: below <:+ m.active := by
  obtain ⟨i, hi⟩ := Option.isSome_iff_exists.mp (List.isSome_idxOf?.mpr (List.mem_reverse.mpr h))
  obtain ⟨hlt, hget, -⟩ := List.idxOf?_eq_some_iff.mp hi
  have hkept : (m.active.reverse.take (i + 1)).reverse = target :: (m.active.reverse.take i).reverse := by
    rw [List.take_succ_eq_append_getElem hlt, hget, List.reverse_append]
    rfl
  refine ⟨(m.active.reverse.take i).reverse, ?_, ?_⟩
  · simp only [unwindTo, hi, hkept, List.head?_cons, if_true]
  · rw [← hkept]
    exact List.reverse_prefix.mp (by rw [List.reverse_reverse]; exact List.take_prefix _ _)

/-- Without a place of its own the target is entered from the outermost environment. -/
theorem unwindTo_of_not_mem (h : target ∉ m.active) :
    (m.unwindTo target).2 = { m with active := target :: (m.active.reverse.take 1).reverse } := by
  have hi : m.active.reverse.idxOf? target = none :=
    List.idxOf?_eq_none_iff.mpr fun hm => h (List.mem_reverse.mp hm)
  have hhead : (m.active.reverse.take 1).reverse.head? ≠ some target := fun hh =>
    h (List.mem_reverse.mp (List.mem_of_mem_take (List.mem_reverse.mp (List.mem_of_head? hh))))
  simp only [unwindTo, hi, hhead, if_false]

theorem WellFormed.unwindTo (h : m.WellFormed) (hp : m.Present target) : (m.unwindTo target).2.WellFormed := by
  by_cases hm : target ∈ m.active
  · obtain ⟨below, hu, hs⟩ := unwindTo_of_mem hm
    rw [hu]
    exact h.withSuffix hs (List.cons_ne_nil _ _)
  · have hs : (m.active.reverse.take 1).reverse <:+ m.active :=
      List.reverse_prefix.mp (by rw [List.reverse_reverse]; exact List.take_prefix _ _)
    have hn : (m.active.reverse.take 1).reverse ≠ [] := by
      intro hnil
      have ho := h.outermost
      rw [← List.head?_reverse] at ho
      rw [List.reverse_eq_nil_iff, List.take_eq_nil_iff] at hnil
      rcases hnil with hnil | hnil
      · cases hnil
      · rw [hnil] at ho
        cases ho
    rw [unwindTo_of_not_mem hm]
    have hw := h.withSuffix hs hn
    exact hw.enter hp fun hi => hm (hs.subset hi)

theorem unwindTo_grows (m : Memory) (target : EnvId) : m.Grows (m.unwindTo target).2 := .withActive m _

end Memory

/-- The context in which an item is executed that was taken off from above the rest. -/
def Context.taken (c : Context) (rest : Control) : Context :=
  { c with control := rest, phase := .running, steps := c.steps + 1 }

theorem Item.eq_restore {item : Item} {target : EnvId} (h : item.restoreTarget? = some target) :
    ∃ span, item = .instr (.restore target) span := by
  cases item with
  | node n skipEnv => cases h
  | instr i span =>
    cases i with
    | restore target' => exact ⟨span, Option.some.inj h ▸ rfl⟩
    | _ => cases h

namespace Context

variable {c d : Context}

/-- A step takes an item off Control and executes it; a collection may follow, or the context fails. -/
theorem advance?_eq_some {item : Item} (h : c.advance? = some (item, d)) :
    ∃ rest e, c.control.pop? = some (item, rest) ∧
      ((Action.execute item (c.taken rest) = .ok () e ∧ d = if e.memory.isDue then e.collectGarbage else e) ∨
        ∃ error, Action.execute item (c.taken rest) = .error error e ∧ d = e.failWith (error.withSpan item.span)) := by
  simp only [advance?] at h
  split at h
  · cases h
  · next top control hp =>
    split at h
    · next e he =>
      cases h
      exact ⟨control, e, hp, .inl ⟨he, rfl⟩⟩
    · next error e he =>
      cases h
      exact ⟨control, e, hp, .inr ⟨error, he, rfl⟩⟩

/-- What executing an item brings about holds after the step, if a collection and the failure keep it. -/
theorem of_advance? {P : Context → Prop} {E : EvalError → Context → Prop} {item : Item} (h : c.advance? = some (item, d))
    (executed : ∀ rest, c.control.pop? = some (item, rest) → match Action.execute item (c.taken rest) with
      | .ok _ e => P e
      | .error error e => E error e)
    (collected : ∀ {e}, P e → P e.collectGarbage)
    (failed : ∀ {error e}, E error e → P (e.failWith (error.withSpan item.span))) : P d := by
  obtain ⟨rest, e, hp, hx⟩ := advance?_eq_some h
  have he := executed rest hp
  rcases hx with ⟨hx, rfl⟩ | ⟨error, hx, rfl⟩
  · rw [hx] at he
    split
    · exact collected he
    · exact he
  · rw [hx] at he
    exact failed he

/-- A restore whose target is not active fails and does nothing. -/
theorem execute_restore_inactive {target : EnvId} (span : Span) (h : target ∉ c.memory.active) :
    Action.execute (.instr (.restore target) span) c =
      .error { cause := .internal (.inactiveEnvironment target) } c := by
  have he : Memory.restore target c.memory = .error { cause := .internal (.inactiveEnvironment target) } c.memory := by
    simp only [Memory.restore]
    rw [if_neg (fun hc => h (List.contains_iff_mem.mp hc))]
  exact bind_of_error (Action.onMemory_error he)

namespace WellFormed

variable (h : c.WellFormed)
include h

/-- A context that refers to nothing else. -/
theorem congr (hm : d.memory = c.memory) (hs : ∀ w ∈ d.stash.items, w ∈ c.stash.items ∨ w.objectId? = .none)
    (hc : ∀ id ∈ d.control.pending, id ∈ c.control.pending) (hp : d.programEnv = c.programEnv) : d.WellFormed := by
  refine ⟨hm ▸ h.memory, fun w hw => ?_, fun id hi => hm ▸ h.pending id (hc id hi), fun id hi => ?_⟩
  · rcases hs w hw with hw | hw
    · exact hm ▸ h.stash w hw
    · exact Value.resolves_of_no_handle hw
  · exact hm ▸ h.program id (hp ▸ hi)

theorem keepResult (target : EnvId) (left : List EnvId) : (c.keepResult target left).WellFormed := by
  simp only [Context.keepResult]
  split
  · next id _ =>
    split
    · split
      · exact h.change (.memory (.move c.memory id target))
      · exact h
    · exact h
  · exact h

theorem execute (item : Item) : match Action.execute item c with
    | .ok _ d => d.WellFormed
    | .error _ d => d.WellFormed := by
  cases hr : item.restoreTarget? with
  | none =>
    have hl := Variant.leads_execute h hr
    rw [Variant.execute_standard] at hl
    split
    · next heq =>
      rw [heq] at hl
      exact (h.changes hl.1).1
    · next heq =>
      rw [heq] at hl
      exact (h.changes hl).1
  | some target =>
    obtain ⟨span, rfl⟩ := Item.eq_restore hr
    by_cases ht : target ∈ c.memory.active
    · rw [← Variant.execute_standard, Variant.execute_restore _ (Memory.restore_ok ht)]
      obtain ⟨below, hd⟩ := Memory.dropWhile_eq_cons ht
      have hw := h.memory.withSuffix (List.dropWhile_suffix (· ≠ target)) (hd ▸ List.cons_ne_nil target below)
      exact (h.withMemory hw (.withActive _ _)).keepResult target _
    · rw [execute_restore_inactive span ht]
      exact h

theorem roots_present : ∀ id ∈ c.rootEnvs, c.memory.Present id := by
  intro id hi
  rcases List.mem_append.mp hi with hi | hi
  · exact h.pending id hi
  · exact h.program id (Option.mem_toList.mp hi)

theorem collectGarbage : c.collectGarbage.WellFormed := by
  have hroots := h.roots_present
  have hm := h.memory.collect hroots c.rootObjects
  have ha := Memory.agreeOn_collect c.memory c.rootEnvs c.rootObjects
  have hpresent : ∀ id ∈ c.rootEnvs, (c.memory.collect c.rootEnvs c.rootObjects).2.Present id :=
    fun id hi => (ha.present (Memory.kept_env (List.mem_append_right _ hi))).mp (hroots id hi)
  refine ⟨hm, fun w hw => ?_, fun id hi => hpresent id (List.mem_append_left _ hi),
    fun id hi => hpresent id (List.mem_append_right _ (Option.mem_toList.mpr hi))⟩
  have hkept : w.Within (c.memory.kept c.rootEnvs c.rootObjects).objects :=
    fun id hi => Memory.kept_object (List.mem_filterMap.mpr ⟨w, hw, hi⟩)
  exact (ha.resolves hkept).mp (h.stash w hw)

theorem taken {item : Item} {control : Control} (hp : c.control.pop? = some (item, control)) :
    (c.taken control).WellFormed := by
  refine h.congr rfl (fun w hw => .inl hw) (fun id hi => ?_) rfl
  rw [Control.pending_pop? hp]
  exact List.mem_append_right _ hi

theorem failWith (e : EvalError) : (c.failWith e).WellFormed := by
  refine h.congr rfl (fun w hw => ?_) (fun id hi => hi) rfl
  rcases List.mem_cons.mp hw with rfl | hw
  · exact .inr rfl
  · exact .inl hw

theorem advance {item : Item} (ha : c.advance? = some (item, d)) : d.WellFormed :=
  of_advance? (P := WellFormed) ha (fun _ hp => (h.taken hp).execute item) (fun he => he.collectGarbage) fun he =>
    he.failWith _

theorem load (program : Node) : (c.load program).WellFormed := by
  simp only [Context.load]
  split
  · exact h
  · refine h.congr rfl (by rintro _ ⟨⟩) (fun id hi => ?_) rfl
    have hp := @Control.pending_pushAll c.control [.node program false] rfl
    exact hp ▸ hi

theorem settle : c.settle.WellFormed := by
  simp only [Context.settle]
  split
  · next program hp =>
    have hw := h.memory.unwindTo (h.program program hp)
    have hu := h.withMemory hw (Memory.unwindTo_grows c.memory program)
    exact (hu.keepResult program _).collectGarbage
  · exact h.collectGarbage

end WellFormed

/-- Every move leaves a well-formed context. -/
theorem wellFormed_invariant : Invariant WellFormed where
  fresh run hm := by
    obtain ⟨hw, -⟩ := Memory.initial_wellFormed.changes hm
    exact ⟨hw, by rintro _ ⟨⟩, by rintro _ ⟨⟩, by rintro _ ⟨⟩⟩
  loaded program h := h.load program
  advanced h _ ha := h.advance ha
  finished h _ _ := h.settle.congr rfl (fun _ hw => .inl hw) (fun _ hi => hi) rfl
  suspended h := h.congr rfl (fun _ hw => .inl hw) (fun _ hi => hi) rfl
  predefining _ h := h.congr rfl (fun _ hw => .inl hw) (fun _ hi => hi) rfl
  started h := h.congr rfl (by rintro _ ⟨⟩) (fun _ hi => hi) rfl

end Context

theorem Setup.Reachable.wellFormed {s : Setup} {run : RunId} {c : Context} (h : s.Reachable run c) : c.WellFormed :=
  Context.wellFormed_invariant.reachable h

end CseMachine
