import CseMachine.Proofs.Deeds

/-!
# What a collection leaves

Collections free frames and objects and move objects from owner to owner. What is
there afterwards was there before, with the same names and the same content.
-/
namespace CseMachine

open Relation (ReflTransGen)

namespace Memory

variable {m m' m'' : Memory}

/-- What is there afterwards was there before and looks the same. -/
structure Survives (m m' : Memory) : Prop where
  nextEnv : m'.nextEnv = m.nextEnv
  nextObject : m'.store.next = m.store.next
  frame : ∀ {id e'}, m'.environment? id = some e' → ∃ e, m.environment? id = some e ∧ e'.core = e.core
  object : ∀ {id o'}, m'.store.get? id = some o' → ∃ o, m.store.get? id = some o ∧ o'.content = o.content

namespace Survives

theorem trans (h : m.Survives m') (h' : m'.Survives m'') : m.Survives m'' := by
  refine ⟨h'.nextEnv.trans h.nextEnv, h'.nextObject.trans h.nextObject, fun he => ?_, fun ho => ?_⟩
  · obtain ⟨e', he', hc'⟩ := h'.frame he
    obtain ⟨e, he, hc⟩ := h.frame he'
    exact ⟨e, he, hc'.trans hc⟩
  · obtain ⟨o', ho', hc'⟩ := h'.object ho
    obtain ⟨o, ho, hc⟩ := h.object ho'
    exact ⟨o, ho, hc'.trans hc⟩

theorem withActive (m : Memory) (active : List EnvId) : m.Survives { m with active } :=
  ⟨rfl, rfl, fun he => ⟨_, he, rfl⟩, fun ho => ⟨_, ho, rfl⟩⟩

/-- Memories that agree on what of the second is there. -/
theorem of_agreeOn {L : Live} (ha : AgreeOn L m m') (he : ∀ {id}, m'.Present id → L.envs id)
    (ho : ∀ {id}, (m'.store.get? id).isSome → L.objects id) : m.Survives m' := by
  refine ⟨ha.nextEnv.symm, ha.nextObject.symm, fun {id e'} he' => ?_, fun {id o'} ho' => ?_⟩
  · have hcores := ha.frames id (he (Option.isSome_iff_exists.mpr ⟨e', he'⟩))
    rw [he'] at hcores
    exact Option.map_eq_some_iff.mp hcores |>.imp fun e h => ⟨h.1, h.2.symm⟩
  · have hcontents := ha.contents id (ho (Option.isSome_iff_exists.mpr ⟨o', ho'⟩))
    rw [ho'] at hcontents
    exact Option.map_eq_some_iff.mp hcontents |>.imp fun o h => ⟨h.1, h.2.symm⟩

theorem of_agreeOn_all (ha : AgreeOn .all m m') : m.Survives m' :=
  of_agreeOn ha (fun _ => trivial) fun _ => trivial

/-- Only what is marked is still there. -/
theorem collect (m : Memory) (envs : List EnvId) (objects : List ObjId) : m.Survives (m.collect envs objects).2 := by
  refine of_agreeOn (agreeOn_collect m envs objects) kept_of_present_collect fun {id} ho => ?_
  obtain ⟨o, ho⟩ := Option.isSome_iff_exists.mp ho
  exact (get?_of_sweep ho).1

theorem closure? (h : m.Survives m') {id : ObjId} {c : Closure} (hc : m'.store.closure? id = some c) :
    m.store.closure? id = some c := by
  obtain ⟨owner, ho'⟩ := Store.closure?_eq_some.mp hc
  obtain ⟨o, ho, heq⟩ := h.object ho'
  exact Store.closure?_eq_some.mpr ⟨o.owner, ho.trans (congrArg some (by cases o; cases heq; rfl))⟩

end Survives
end Memory

namespace Context

open Memory (Survives)

variable {c : Context}

theorem survives_collectGarbage (c : Context) : c.memory.Survives c.collectGarbage.memory :=
  .collect c.memory c.rootEnvs c.rootObjects

/-- Going back to the program's environment makes and changes nothing. -/
theorem settle_eq (c : Context) : ∃ m, c.settle = { c with memory := m } ∧ c.memory.Survives m := by
  simp only [settle]
  split
  · next program _ =>
    obtain ⟨m, hk, ha⟩ := keepResult_eq { c with memory := (c.memory.unwindTo program).2 } program (c.memory.unwindTo program).1
    rw [hk]
    have hleft : c.memory.Survives (c.memory.unwindTo program).2 := .withActive c.memory _
    exact ⟨_, rfl, (hleft.trans (.of_agreeOn_all ha)).trans (survives_collectGarbage { c with memory := m })⟩
  · exact ⟨_, rfl, c.survives_collectGarbage⟩

/-- A restore leaves the environments that it is told to leave and does nothing else that evaluation can see. -/
theorem execute_restore_cases (c : Context) (target : EnvId) (span : Span) :
    (∃ m, Action.execute (.instr (.restore target) span) c = .ok () { c with memory := m } ∧ c.memory.Survives m) ∨
      ∃ cause, Action.execute (.instr (.restore target) span) c = .error { cause } c := by
  by_cases ht : target ∈ c.memory.active
  · obtain ⟨m, below, hx, ha, -⟩ := Variant.execute_restore_active .standard ht span
    rw [Variant.execute_standard] at hx
    exact .inl ⟨m, hx, (Survives.withActive _ _).trans (.of_agreeOn_all ha)⟩
  · exact .inr ⟨_, execute_restore_inactive span ht⟩

/-- What an item brings about, if what it does is made of deeds, a restore changes nothing to be seen, and a failure
keeps what was done. -/
theorem of_execute {P : Context → Prop} {E : EvalError → Context → Prop}
    (hs : ∀ w ∈ c.stash.items, w.Resolves c.memory.store) (item : Item)
    (done : ∀ {d}, ReflTransGen (Deed c.memory item) c d → P d)
    (restored : ∀ {m}, c.memory.Survives m → P { c with memory := m })
    (failed : ∀ {error d}, Item.Fails c.memory.store error → P d → E error d) : match Action.execute item c with
      | .ok _ d => P d
      | .error error d => E error d := by
  cases hr : item.restoreTarget? with
  | none =>
    have hdoes := Variant.does_execute hs hr
    split
    · next hx =>
      rw [hx] at hdoes
      exact done hdoes.1
    · next hx =>
      rw [hx] at hdoes
      exact failed hdoes.2 (done hdoes.1)
  | some target =>
    obtain ⟨span, rfl⟩ := Item.eq_restore hr
    rcases c.execute_restore_cases target span with ⟨m, hx, hm⟩ | ⟨cause, hx⟩
    · rw [hx]
      exact restored hm
    · rw [hx]
      exact failed (.inl (.ofCause cause)) (done .refl)

end Context
end CseMachine
