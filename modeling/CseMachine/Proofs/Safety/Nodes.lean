import CseMachine.Proofs.Safety.Running

/-!
# Nodes are safe

A node that stands where it is well scoped is replaced by items that fit, or leaves
a value that resolves, or fails regularly.
-/
namespace CseMachine.Variant

open Context (Safe)

variable (v : Variant) {c : Context} {ret : Option Nat} {env : Option EnvId} {rest : List Item}

theorem stated_running {body : List Node} (h : c.Pending ret env (c.height + 1) rest)
    (hs : AllScoped (c.memory.Declares env) (ret = some (c.height + 1)) body) : (v.stated body c).Running := by
  cases body with
  | nil => exact h.pushValue trivial
  | cons first body =>
    have hf := Fits.statementItems (List.cons_ne_nil first body) hs h.fits
    exact (h.pushAll v (Node.targets_statementItems _) hf).running

/-- The closure of a well-scoped function. -/
theorem closure_stored (h : c.Pending ret env (c.height + 1) rest) (closure : Closure)
    (he : closure.env = c.memory.current) (hr : closure.run = c.run) (hf : closure.func.Scoped) :
    ∃ id m, Memory.alloc (.closure closure) c.memory = .ok id m ∧ c.memory.Grows m ∧
      { c with memory := m }.Pending ret env (c.height + 1) rest ∧ (Value.closure id).Resolves m.store := by
  obtain ⟨m, hm, ha, hs, hg⟩ := h.sound.memory.alloc (.closure closure) (fun _ hi => nomatch hi)
    fun closure' hc => by
      cases hc
      exact ⟨he ▸ h.sound.memory.current_present, hr, hf⟩
  refine ⟨_, m, hm, hg, h.withMemory hs hg ha.active.symm, ?_⟩
  have hget := Memory.get?_alloc c.memory.store c.memory.current (.closure closure) ⟨c.memory.store.next⟩
  rw [if_pos rfl] at hget
  have hclosure := Store.closure?_eq_some.mpr ⟨_, hget⟩
  exact Option.isSome_iff_exists.mpr ⟨closure, (ha.closure?_eq trivial).symm.trans hclosure⟩

theorem node_safe {n : Node} {skip : Bool} (h : c.Pending ret env (c.height + 1) rest)
    (hs : n.Scoped (c.memory.Declares env) (ret = some (c.height + 1)) skip) :
    Safe (v.execute (.node n skip) c) := by
  cases hp : n.parts? with
  | some items =>
    rw [execute_parts v hp]
    exact (h.pushAll v (Node.targets_parts hp) (Fits.parts hp ⟨hs, h.fits⟩)).running
  | none =>
    cases n with
    | program => exact hs.elim
    | block span declarations body =>
      obtain ⟨rfl, rfl, hb⟩ := hs
      rw [execute_skippedBlock v rfl]
      exact stated_running v h hb
    | sequence span body =>
      cases body with
      | nil =>
        rw [execute_value v rfl]
        exact h.pushValue trivial
      | cons => cases hp
    | ret span value =>
      cases value with
      | none =>
        have hf : Fits c.memory ret env (c.height + 1) (.instr .reset span :: rest) := ⟨hs.1, h.fits⟩
        rw [execute_ret]
        exact (h.pushInstr rfl hf).pushValue trivial
      | some e => cases hp
    | pass span =>
      rw [execute_value v rfl]
      exact h.pushValue trivial
    | literal span l =>
      rw [execute_value v rfl]
      exact h.pushValue (Value.resolves_of_no_handle (by cases l <;> rfl))
    | identifier span name =>
      rw [execute_identifier]
      exact h.answer (c.memory.get_plain name).regular fun w => h.sound.memory.get_resolves
    | lambda span func =>
      obtain ⟨id, m, ha, -, hm, hw⟩ :=
        closure_stored h (.ofLambda func c.memory.current c.run c.predefined span) rfl rfl hs
      rw [execute_lambda v ha]
      exact hm.pushValue hw
    | define span name func declaration =>
      obtain ⟨id, m, ha, hg, hm, hw⟩ :=
        closure_stored h (.ofDefine func c.memory.current c.run c.predefined span) rfl rfl hs.1
      rw [execute_define v ha]
      have hf : Fits m ret env (c.height + 1) (.instr (.assignment name false declaration) span :: rest) :=
        ⟨c.height, rfl, fun hd => (hs.2 hd).mono hg, hm.fits⟩
      exact (hm.pushInstr rfl hf).pushValue hw
    | _ => cases hp

end CseMachine.Variant
