import CseMachine.Proofs.Memory.Changes

/-!
# Which environments an operation writes

An operation on the memory binds names in an environment that it is given, in one
that it makes or in the one that a name is found in. What is bound in any other
environment stays as it is.
-/
namespace CseMachine.Memory

open Relation (ReflTransGen)

variable {W : EnvId → Prop} {m m' m'' : Memory} {env : EnvId} {e : Environment}

/-- The names that an environment has and what they are bound to, if there is such an environment. -/
def bindings? (m : Memory) (id : EnvId) : Option (List (String × Slot)) := (m.environment? id).map (·.bindings)

theorem bindings?_eq (h : m.environment? env = some e) : m.bindings? env = some e.bindings := by
  simp only [bindings?, h, Option.map_some]

theorem bindings?_eq_none (h : m.environment? env = none) : m.bindings? env = none := by
  simp only [bindings?, h, Option.map_none]

theorem AgreeOn.bindings? {L : Live} (h : AgreeOn L m m') {id : EnvId} (hi : L.envs id) : m'.bindings? id = m.bindings? id := by
  rcases h.environment?_cases hi with ⟨h₁, h₂⟩ | ⟨e, heap, h₁, h₂⟩
  · simp only [Memory.bindings?, h₁, h₂]
  · simp only [Memory.bindings?, h₁, h₂, Option.map_some]

/-- No environment gets or loses names or values, but those that may be written. -/
structure Spares (W : EnvId → Prop) (m m' : Memory) : Prop where
  bindings : ∀ id, ¬W id → m'.bindings? id = m.bindings? id
  nextEnv : m.nextEnv ≤ m'.nextEnv

/-- Only those environments are written, and none is entered or left. -/
structure Writes (W : EnvId → Prop) (m m' : Memory) : Prop extends Spares W m m' where
  active : m'.active = m.active

namespace Spares

theorem refl (W : EnvId → Prop) (m : Memory) : Spares W m m := ⟨fun _ _ => rfl, Nat.le_refl _⟩

theorem trans (h : Spares W m m') (h' : Spares W m' m'') : Spares W m m'' :=
  ⟨fun id hi => (h'.bindings id hi).trans (h.bindings id hi), Nat.le_trans h.nextEnv h'.nextEnv⟩

theorem of_agreeOn (h : AgreeOn .all m m') : Spares W m m' :=
  ⟨fun _ _ => h.bindings? trivial, Nat.le_of_eq h.nextEnv⟩

theorem withActive (m : Memory) (active : List EnvId) : Spares W m { m with active } := ⟨fun _ _ => rfl, Nat.le_refl _⟩

end Spares

namespace Writes

theorem refl (W : EnvId → Prop) (m : Memory) : Writes W m m := ⟨.refl W m, rfl⟩

theorem trans (h : Writes W m m') (h' : Writes W m' m'') : Writes W m m'' :=
  ⟨h.toSpares.trans h'.toSpares, h'.active.trans h.active⟩

theorem of_changes (h : ReflTransGen (Writes W) m m') : Writes W m m' := by
  induction h with
  | refl => exact refl W m
  | tail _ h ih => exact ih.trans h

theorem of_agreeOn (h : AgreeOn .all m m') : Writes W m m' := ⟨.of_agreeOn h, h.active.symm⟩

/-- Nothing but the store has changed. -/
theorem of_environments (he : m'.environments = m.environments) (hn : m'.nextEnv = m.nextEnv)
    (ha : m'.active = m.active) : Writes W m m' := by
  refine ⟨⟨fun id _ => ?_, Nat.le_of_eq hn.symm⟩, ha⟩
  simp only [bindings?, environment?, he]

theorem named (m : Memory) (w : Value) (name : String) : Writes W m (m.named w name) := by
  cases w with
  | closure id => exact of_environments rfl rfl rfl
  | _ => exact refl W m

theorem create (hw : W ⟨m.nextEnv⟩) (name : String) (tail : Option EnvId) : Writes W m (m.create name tail).2 := by
  refine ⟨⟨fun id hi => ?_, Nat.le_succ _⟩, rfl⟩
  have hne : (⟨m.nextEnv⟩ : EnvId) ≠ id := fun he => hi (he ▸ hw)
  simp only [bindings?, environment?_create, if_neg hne]

theorem withCallSite (hw : W env) (callSite : Span) : Writes W m (m.withCallSite env callSite) := by
  refine ⟨⟨fun id hi => ?_, Nat.le_refl _⟩, rfl⟩
  have hne : env ≠ id := fun he => hi (he ▸ hw)
  simp only [bindings?, environment?_withCallSite, if_neg hne]

/-- An environment that may be written. -/
theorem set (hw : W env) (e : Environment) : Writes W m (m.setEnvironment env e) := by
  refine ⟨⟨fun id hi => ?_, Nat.le_refl _⟩, rfl⟩
  have hne : env ≠ id := fun he => hi (he ▸ hw)
  simp only [bindings?, environment?_setEnvironment, if_neg hne]

end Writes

/-- Where a name is found is a matter of the environments. -/
theorem resolveFrom_congr (he : m'.environments = m.environments) (name : String) (steps : Nat) (id : EnvId) :
    m'.resolveFrom name steps id = m.resolveFrom name steps id := by
  induction steps generalizing id with
  | zero => rfl
  | succ steps ih => simp only [resolveFrom, environment?, he, ih]

theorem resolve_named (m : Memory) (w : Value) (name x : String) : (m.named w name).resolve x = m.resolve x := by
  cases w with
  | closure id =>
    have he : (m.named (.closure id) name).environments = m.environments := rfl
    exact resolveFrom_congr he x _ _
  | _ => rfl

/-! Operations -/

theorem writes_declare (hw : W env) (name : String) (constant : Bool) :
    Leads (Writes W) m Any (declare env name constant m) := by
  simp only [declare]
  split
  · exact .error _ _ _ _
  · split
    · exact .single (.set hw _) trivial
    · exact .error _ _ _ _

theorem writes_define (hw : W env) (name : String) (w : Value) (constant : Bool) :
    Leads (Writes W) m Any (define env name w constant m) := by
  simp only [define]
  split
  · exact .error _ _ _ _
  · split
    · exact .single (.set hw _) trivial
    · exact .error _ _ _ _

/-- Only a variable that may change is overwritten. -/
theorem writes_assign {name : String}
    (hw : ∀ id e slot, m.resolve name = .found id e slot → slot.constant = false → W id) (w : Value) :
    Leads (Writes W) m Any (assign name w m) := by
  simp only [assign]
  split
  · next id e slot hr =>
    split
    · exact .error _ _ _ _
    · next hc => exact .single (.set (hw id e slot hr (Bool.eq_false_iff.mpr hc)) _) trivial
  · exact .error _ _ _ _
  · exact .error _ _ _ _

/-- No name is bound to a new object yet. -/
theorem writes_allocIn (W : EnvId → Prop) (m : Memory) (env : EnvId) (content : Content) :
    Leads (Writes W) m Any (allocIn env content m) := by
  have hstored : Writes W m (m.stored env content) := .of_environments rfl rfl rfl
  rw [allocIn_eq]
  split
  · exact ReflTransGen.single hstored
  · next e he =>
    have hheap : Writes W (m.stored env content) (m.withObject env e content) := .of_agreeOn (agreeOn_withObject he)
    exact .single (hstored.trans hheap) trivial

/-- A name with its value in an environment that may be written. -/
theorem writes_param (hw : W env) (name : String) (w : Value) :
    Leads (Writes W) m Any ((declare env name false >>= fun _ => define env name w false) m) :=
  (writes_declare hw name false).bind fun _ _ _ _ => writes_define hw name w false

/-- The frame of a call is the environment that is made next, and no other is written. -/
theorem writes_createFrame (hw : W ⟨m.nextEnv⟩) (c : Closure) (args : List Value) (callSite : Span) :
    Leads (Writes W) m (fun _ env => env = ⟨m.nextEnv⟩) (createFrame c args callSite m) := by
  have hmade : Writes W m (m.create c.displayName (some c.env)).2 := .create hw _ _
  rw [createFrame_eq]
  refine Leads.after ?_ (.single (hmade.trans (.withCallSite hw callSite)))
  refine (leads_bindParams (fun _ => writes_param hw) _ _ args).bind fun m' _ _ _ => ?_
  exact (leads_bindRest (fun _ => writes_param hw) (fun m _ => writes_allocIn W m _ _) m' _ _).bind fun _ _ _ _ => .ok rfl

/-- A declaration writes the current environment, any other assignment the one that the name is found in. -/
theorem writes_bindName {name : String} {declaration : Bool} (hd : declaration = true → W m.current)
    (ha : declaration = false → ∀ id e slot, m.resolve name = .found id e slot → slot.constant = false → W id) (w : Value)
    (constant : Bool) : Leads (Writes W) m Any (bindName name w constant declaration m) := by
  cases declaration with
  | true => exact writes_define (hd rfl) name w constant
  | false => exact writes_assign (ha rfl) w

end CseMachine.Memory
