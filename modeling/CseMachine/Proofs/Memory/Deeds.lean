import CseMachine.Proofs.Memory.Changes

/-!
# What operations do to frames and objects

Of an operation on the memory it is said what it may make of a frame and which
objects it may add. All it does is made of a few deeds within these limits,
whether it succeeds or fails, and its errors point nowhere.
-/
namespace CseMachine

open Relation (ReflTransGen)

/-- The computation comes from one state to another by steps of the relation. If it succeeds its
result has one property, and if it fails its error has the other. -/
def Ends {σ α : Type} (R : σ → σ → Prop) (E : EvalError → Prop) (s : σ) (Q : σ → α → Prop) :
    EStateM.Result EvalError σ α → Prop
  | .ok a t => ReflTransGen R s t ∧ Q t a
  | .error e t => ReflTransGen R s t ∧ E e

namespace Ends

variable {σ α β : Type} {R : σ → σ → Prop} {E : EvalError → Prop} {s t : σ} {Q Q' : σ → α → Prop}
  {P : σ → β → Prop}

theorem ok {a : α} (h : Q s a) : Ends R E s Q (.ok a s) := ⟨.refl, h⟩

theorem error {e : EvalError} (h : E e) : Ends R E s Q (.error e s) := ⟨.refl, h⟩

theorem single {a : α} (h : R s t) (hq : Q t a) : Ends R E s Q (.ok a t) := ⟨.single h, hq⟩

theorem mono {E' : EvalError → Prop} {x : EStateM.Result EvalError σ α} (h : Ends R E s Q x) (he : ∀ e, E e → E' e)
    (hq : ∀ t a, ReflTransGen R s t → Q t a → Q' t a) : Ends R E' s Q' x := by
  cases x with
  | ok a t => exact ⟨h.1, hq t a h.1 h.2⟩
  | error e t => exact ⟨h.1, he e h.2⟩

theorem after {x : EStateM.Result EvalError σ α} (h : Ends R E t Q x) (hs : ReflTransGen R s t) : Ends R E s Q x := by
  cases x with
  | ok a u => exact ⟨hs.trans h.1, h.2⟩
  | error e u => exact ⟨hs.trans h.1, h.2⟩

theorem bind {x : EStateM EvalError σ α} {f : α → EStateM EvalError σ β} (hx : Ends R E s Q (x s))
    (hf : ∀ t a, ReflTransGen R s t → Q t a → Ends R E t P (f a t)) : Ends R E s P ((x >>= f) s) := by
  cases h : x s with
  | ok a t =>
    rw [h] at hx
    rw [bind_of_ok h]
    exact (hf t a hx.1 hx.2).after hx.1
  | error e t =>
    rw [h] at hx
    rw [bind_of_error h]
    exact hx

end Ends

namespace Environment

variable {e e' : Environment}

/-- Whatever may have become of the frame, only variables have got values in it. -/
def BindsVariables (e e' : Environment) : Prop :=
  ∀ b ∈ e'.bindings, b.2.constant = true → b.2.value = none ∨ b ∈ e.bindings

namespace BindsVariables

theorem of_bindings (h : e'.bindings = e.bindings) : e.BindsVariables e' := fun _ hb _ => .inr (h ▸ hb)

theorem extend (e : Environment) {bindings : List (String × Slot)} (h : ∀ b ∈ bindings, b.2.value = none) :
    e.BindsVariables (e.extend bindings) :=
  fun b hb _ => (List.mem_append.mp hb).elim .inr fun hb => .inl (h b hb)

theorem setSlot (e : Environment) (name : String) (w : Value) : e.BindsVariables (e.setSlot name ⟨some w, false⟩) := by
  intro b hb hc
  obtain ⟨⟨n, slot⟩, hm, rfl⟩ := List.mem_map.mp hb
  dsimp only at hc ⊢
  split at hc
  · cases hc
  · next hn =>
    rw [if_neg hn]
    exact .inr hm

end BindsVariables
end Environment

namespace Memory

open EvalError (Placeless)

variable {F : EnvId → Environment → Environment → Prop} {M : Content → Prop} {m m' : Memory} {env : EnvId}
  {name : String} {constant : Bool}

/-- One thing that is done to the memory, where `F` says what may become of a frame and `M` what may
become an object. -/
inductive Deed (F : EnvId → Environment → Environment → Prop) (M : Content → Prop) : Memory → Memory → Prop
  | frame {m : Memory} {env : EnvId} {e e' : Environment} (found : m.environment? env = some e)
      (becomes : F env e e') : Deed F M m (m.setEnvironment env e')
  | create (m : Memory) (name : String) (tail : Option EnvId) : Deed F M m (m.create name tail).2
  | object {m : Memory} {content : Content} (env : EnvId) (made : M content) : Deed F M m (m.stored env content)
  | name (m : Memory) (id : ObjId) (name : String) : Deed F M m { m with store := m.store.nameClosure id name }
  | count (m : Memory) (allocated : Nat) : Deed F M m { m with allocated }

theorem deeds_declare
    (hf : ∀ e, m.environment? env = some e → e.lookup? name = none → F env e (e.extend [(name, ⟨none, constant⟩)])) :
    Ends (Deed F M) Placeless m Any (declare env name constant m) := by
  simp only [declare]
  cases he : m.environment? env with
  | none => exact .error (.ofCause _)
  | some e =>
    dsimp only
    cases hl : e.lookup? name with
    | some slot =>
      simp only [Environment.declare?, hl, Option.isSome_some, if_true]
      exact .error (.ofCause _)
    | none =>
      rw [Environment.declare?_eq hl]
      exact .single (.frame he (hf e he hl)) trivial

theorem deeds_define {w : Value} (hf : ∀ e, m.environment? env = some e → (e.lookup? name).isSome →
    F env e (e.setSlot name ⟨some w, constant⟩)) :
    Ends (Deed F M) Placeless m Any (define env name w constant m) := by
  simp only [define]
  cases he : m.environment? env with
  | none => exact .error (.ofCause _)
  | some e =>
    dsimp only
    by_cases hl : (e.lookup? name).isSome
    · rw [Environment.define?_eq hl]
      exact .single (.frame he (hf e he hl)) trivial
    · simp only [Environment.define?, hl]
      exact .error (.ofCause _)

theorem deeds_assign {w : Value} (hf : ∀ env e slot, m.resolve name = .found env e slot → slot.constant = false →
    F env e (e.setSlot name ⟨some w, false⟩)) : Ends (Deed F M) Placeless m Any (assign name w m) := by
  simp only [assign]
  split
  · next env e slot hr =>
    split
    · exact .error (.ofCause _)
    · next hc => exact .single (.frame (resolveFrom_found hr).1 (hf env e slot hr (Bool.eq_false_iff.mpr hc))) trivial
  · exact .error (.ofCause _)
  · exact .error (.ofCause _)

/-- A closure that has no name yet gets the one it is bound to. -/
theorem deeds_named (m : Memory) (w : Value) (name : String) : ReflTransGen (Deed F M) m (m.named w name) := by
  cases w with
  | closure id => exact .single (.name m id name)
  | _ => exact .refl

theorem deeds_bindName {w : Value} {constant declaration : Bool}
    (hd : declaration = true → ∀ e, m.environment? m.current = some e → (e.lookup? name).isSome →
      F m.current e (e.setSlot name ⟨some w, constant⟩))
    (ha : declaration = false → ∀ env e slot, m.resolve name = .found env e slot → slot.constant = false →
      F env e (e.setSlot name ⟨some w, false⟩)) :
    Ends (Deed F M) Placeless m Any (bindName name w constant declaration m) := by
  cases declaration with
  | true => exact deeds_define (hd rfl)
  | false => exact deeds_assign (ha rfl)

/-- The object is stored before its owner is looked for, and then put in the owner's heap. -/
theorem deeds_allocIn {content : Content} (hm : M content)
    (hf : ∀ e heap, m.environment? env = some e → F env e { e with heap }) :
    Ends (Deed F M) Placeless m Any (allocIn env content m) := by
  rw [allocIn_eq]
  cases he : m.environment? env with
  | none => exact ⟨.single (.object env hm), .ofCause _⟩
  | some e =>
    have hstored : (m.stored env content).environment? env = some e := he
    have howned := Deed.frame (M := M) hstored (hf e (e.heap.insert ⟨m.store.next⟩) he)
    exact ⟨.tail (.tail (.single (.object env hm)) howned) (.count _ _), trivial⟩

/-! The frame of a call, in which only variables get values -/

section

variable (hf : ∀ e e', e.BindsVariables e' → F env e e')
include hf

theorem deeds_param (name : String) (w : Value) :
    Ends (Deed F M) Placeless m Any ((declare env name false >>= fun _ => define env name w false) m) :=
  (deeds_declare fun e _ _ => hf _ _ (.extend e fun b hb => by rw [List.mem_singleton.mp hb])).bind fun _ _ _ _ =>
    deeds_define fun e _ _ => hf _ _ (.setSlot e name w)

theorem deeds_bindParams (ps : List Param) (args : List Value) :
    Ends (Deed F M) Placeless m Any (bindParams env ps args m) := by
  induction ps generalizing args m with
  | nil => exact .ok trivial
  | cons p ps ih =>
    cases args with
    | nil => exact .ok trivial
    | cons w args =>
      rw [bindParams_cons]
      exact (deeds_param hf p.name w).bind fun _ _ _ _ => ih args

theorem deeds_bindRest (hm : ∀ items, M (.list items)) (rest : Option Param) (extra : List Value) :
    Ends (Deed F M) Placeless m Any (bindRest env rest extra m) := by
  cases rest with
  | none => exact .ok trivial
  | some p =>
    refine (deeds_allocIn (hm _) fun _ _ _ => hf _ _ (.of_bindings rfl)).bind fun _ id _ _ => ?_
    exact deeds_param hf p.name (.list id)

end

/-- The frame of a call is the environment that is made next. -/
theorem deeds_createFrame (hf : ∀ e e', e.BindsVariables e' → F ⟨m.nextEnv⟩ e e') (hm : ∀ items, M (.list items)) (c : Closure)
    (args : List Value) (callSite : Span) : Ends (Deed F M) Placeless m Any (createFrame c args callSite m) := by
  have henv : (m.create c.displayName (some c.env)).2.environment? ⟨m.nextEnv⟩ =
      some { name := c.displayName, tail := some c.env } := by
    rw [environment?_create, if_pos rfl]
  have hmarked : ReflTransGen (Deed F M) m ((m.create c.displayName (some c.env)).2.withCallSite ⟨m.nextEnv⟩ callSite) := by
    rw [withCallSite_eq henv]
    exact .tail (.single (.create m _ _)) (.frame henv (hf _ _ (.of_bindings rfl)))
  rw [createFrame_eq]
  refine Ends.after ?_ hmarked
  refine (deeds_bindParams hf _ args).bind fun _ _ _ _ => ?_
  exact (deeds_bindRest hf hm _ _).bind fun _ _ _ _ => .ok trivial

end Memory
end CseMachine
