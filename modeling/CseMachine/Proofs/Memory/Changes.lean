import CseMachine.Proofs.Memory.WellFormed
import Mathlib.Logic.Relation

/-!
# Operations as changes

Whatever an operation does to a well-formed memory, whether it succeeds or
fails, it does by changes that keep the memory well formed.
-/
namespace CseMachine

open Relation (ReflTransGen)

/-- The computation comes from one state to another by steps of the relation, and if it succeeds
its result has the property. -/
def Leads {σ α : Type} (R : σ → σ → Prop) (s : σ) (Q : σ → α → Prop) : EStateM.Result EvalError σ α → Prop
  | .ok a t => ReflTransGen R s t ∧ Q t a
  | .error _ t => ReflTransGen R s t

namespace Leads

variable {σ α β : Type} {R : σ → σ → Prop} {s t : σ} {Q Q' : σ → α → Prop} {P : σ → β → Prop}

theorem ok {a : α} (h : Q s a) : Leads R s Q (.ok a s) := ⟨.refl, h⟩

theorem error (R : σ → σ → Prop) (s : σ) (Q : σ → α → Prop) (e : EvalError) : Leads R s Q (.error e s) :=
  .refl

theorem single {a : α} (h : R s t) (hq : Q t a) : Leads R s Q (.ok a t) := ⟨.single h, hq⟩

theorem mono {x : EStateM.Result EvalError σ α} (h : Leads R s Q x) (hq : ∀ t a, ReflTransGen R s t → Q t a → Q' t a) :
    Leads R s Q' x := by
  cases x with
  | ok a t => exact ⟨h.1, hq t a h.1 h.2⟩
  | error e t => exact h

theorem after {x : EStateM.Result EvalError σ α} (h : Leads R t Q x) (hs : ReflTransGen R s t) : Leads R s Q x := by
  cases x with
  | ok a u => exact ⟨hs.trans h.1, h.2⟩
  | error e u => exact hs.trans h

theorem bind {x : EStateM EvalError σ α} {f : α → EStateM EvalError σ β} (hx : Leads R s Q (x s))
    (hf : ∀ t a, ReflTransGen R s t → Q t a → Leads R t P (f a t)) : Leads R s P ((x >>= f) s) := by
  cases h : x s with
  | ok a t =>
    rw [h] at hx
    rw [bind_of_ok h]
    exact (hf t a hx.1 hx.2).after hx.1
  | error e t =>
    rw [h] at hx
    rw [bind_of_error h]
    exact hx

end Leads

namespace Memory

variable {m m' : Memory} {env : EnvId} {e : Environment} {name : String}

/-- Nothing is known of a result that is not used. -/
abbrev Any {σ α : Type} (_ : σ) (_ : α) : Prop := True

section

variable {R : Memory → Memory → Prop}
  (hone : ∀ m name w, Leads R m Any ((declare env name false >>= fun _ => define env name w false) m))
include hone

/-- If one parameter gets its value by steps of the relation, all of them do. -/
theorem leads_bindParams (m : Memory) (ps : List Param) (args : List Value) :
    Leads R m Any (Memory.bindParams env ps args m) := by
  induction ps generalizing args m with
  | nil => exact .ok trivial
  | cons p ps ih =>
    cases args with
    | nil => exact .ok trivial
    | cons w args =>
      rw [bindParams_cons]
      exact (hone m p.name w).bind fun m' _ _ _ => ih m' args

/-- So does the rest parameter, if its list is made by steps of the relation. -/
theorem leads_bindRest (hmade : ∀ m items, Leads R m Any (allocIn env (.list items) m)) (m : Memory) (rest : Option Param)
    (extra : List Value) : Leads R m Any (Memory.bindRest env rest extra m) := by
  cases rest with
  | none => exact .ok trivial
  | some p => exact (hmade m extra).bind fun m' id _ _ => hone m' p.name (.list id)

end

theorem WellFormed.changes (h : m.WellFormed) (hc : ReflTransGen Change m m') : m'.WellFormed ∧ m.Grows m' := by
  induction hc with
  | refl => exact ⟨h, .refl m⟩
  | tail _ hc ih => exact ⟨ih.1.change hc, ih.2.trans (ih.1.toLinked.change_grows hc)⟩

/-- What follows an operation starts from a well-formed memory in which all is there that was there
before. -/
theorem WellFormed.bind {α β : Type} {x : Op α} {f : α → Op β} {Q : Memory → α → Prop} {P : Memory → β → Prop}
    (h : m.WellFormed) (hx : Leads Change m Q (x m))
    (hf : ∀ m' a, m'.WellFormed → m.Grows m' → Q m' a → Leads Change m' P (f a m')) : Leads Change m P ((x >>= f) m) := by
  refine hx.bind fun m' a hc hq => ?_
  obtain ⟨h', hg⟩ := h.changes hc
  exact hf m' a h' hg hq

/-- A new object can be referred to. -/
theorem leads_allocIn {content : Content} (hp : m.Present env) (hc : m.Holds content) :
    Leads Change m (fun m' id => m'.store.get? id = some ⟨env, content⟩) (Memory.allocIn env content m) := by
  obtain ⟨e, he⟩ := Option.isSome_iff_exists.mp hp
  rw [allocIn_eq, he]
  exact .single (.object he hc) ((get?_alloc m.store env content _).trans (if_pos rfl))

namespace Linked

variable (h : m.Linked)
include h

/-- A declared name has no value yet. -/
theorem declare (hp : m.Present env) (name : String) (constant : Bool) :
    Leads Change m Any (Memory.declare env name constant m) := by
  obtain ⟨e, he⟩ := Option.isSome_iff_exists.mp hp
  simp only [Memory.declare, he]
  cases hl : e.lookup? name with
  | some slot =>
    simp only [Environment.declare?, hl, Option.isSome_some, if_true]
    exact .error _ _ _ _
  | none =>
    rw [Environment.declare?_eq hl]
    refine .single (.frame he rfl rfl (fun x hx => ?_) fun b hb w hw => ?_) trivial
    · rw [Environment.lookup?_extend]
      simp [hx]
    · rcases List.mem_append.mp hb with hb | hb
      · exact h.bound env e b w he hb hw
      · obtain rfl := List.mem_singleton.mp hb
        cases hw

/-- A slot that gets a value. -/
theorem setSlot {w : Value} (he : m.environment? env = some e) (name : String) (constant : Bool) (hw : w.Resolves m.store) :
    Change m (m.setEnvironment env (e.setSlot name ⟨some w, constant⟩)) := by
  refine .frame he rfl rfl (fun x hx => ?_) fun b hb v hv => ?_
  · rw [Environment.lookup?_setSlot]
    split
    · rwa [Option.isSome_map]
    · exact hx
  · simp only [Environment.setSlot, Environment.replace] at hb
    obtain ⟨⟨n, s⟩, hm, rfl⟩ := List.mem_map.mp hb
    dsimp only at hv
    split at hv
    · exact Option.some.inj hv ▸ hw
    · exact h.bound env e _ v he hm hv

theorem define {w : Value} (hp : m.Present env) (name : String) (constant : Bool) (hw : w.Resolves m.store) :
    Leads Change m Any (Memory.define env name w constant m) := by
  obtain ⟨e, he⟩ := Option.isSome_iff_exists.mp hp
  simp only [Memory.define, he]
  cases hd : e.define? name w constant with
  | none => exact .error _ _ _ _
  | some e' =>
    obtain rfl := Environment.eq_setSlot_of_define? hd
    exact .single (h.setSlot he name constant hw) trivial

theorem assign {w : Value} (name : String) (hw : w.Resolves m.store) :
    Leads Change m Any (Memory.assign name w m) := by
  simp only [Memory.assign]
  split
  · next env e slot hr =>
    split
    · exact .error _ _ _ _
    · exact .single (h.setSlot (resolveFrom_found hr).1 name false hw) trivial
  · exact .error _ _ _ _
  · exact .error _ _ _ _

theorem alloc {content : Content} (hc : m.Holds content) :
    Leads Change m (fun m' id => m'.store.get? id = some ⟨m.current, content⟩) (Memory.alloc content m) :=
  leads_allocIn h.present_current hc

end Linked

theorem active_eq_of_changes (hc : ReflTransGen Change m m') : m'.active = m.active := by
  induction hc with
  | refl => rfl
  | tail _ hc ih => exact hc.active_eq.trans ih

namespace WellFormed

variable (h : m.WellFormed)
include h

theorem bindName {w : Value} (name : String) (constant declaration : Bool) (hw : w.Resolves m.store) :
    Leads Change m Any (Memory.bindName name w constant declaration (m.named w name)) := by
  have hc : ReflTransGen Change m (m.named w name) := by
    cases w with
    | closure id => exact .single (.name m id name)
    | _ => exact .refl
  obtain ⟨hn, hg⟩ := h.changes hc
  refine Leads.after ?_ hc
  simp only [Memory.bindName]
  split
  · exact hn.define hn.present_current name constant (hw.mono hg.store)
  · exact hn.assign name (hw.mono hg.store)

theorem declare_define {w : Value} (hp : m.Present env) (name : String) (hw : w.Resolves m.store) :
    Leads Change m Any ((Memory.declare env name false >>= fun _ => Memory.define env name w false) m) := by
  refine h.bind (h.declare hp name false) fun m' _ h' hg _ => ?_
  exact h'.define (hp.mono hg) name false (hw.mono hg.store)

theorem bindParams {ps : List Param} {args : List Value} (hp : m.Present env) (hw : ∀ w ∈ args, w.Resolves m.store) :
    Leads Change m Any (Memory.bindParams env ps args m) := by
  induction ps generalizing args m with
  | nil => exact .ok trivial
  | cons p ps ih =>
    cases args with
    | nil => exact .ok trivial
    | cons w args =>
      rw [bindParams_cons]
      refine h.bind (h.declare_define hp p.name (hw w (.head _))) fun m' _ h' hg _ => ?_
      exact ih h' (hp.mono hg) fun v hv => (hw v (.tail _ hv)).mono hg.store

theorem bindRest {rest : Option Param} {extra : List Value} (hp : m.Present env)
    (hw : ∀ w ∈ extra, w.Resolves m.store) : Leads Change m Any (Memory.bindRest env rest extra m) := by
  cases rest with
  | none => exact .ok trivial
  | some p =>
    have hholds : m.Holds (.list extra) := hw
    refine h.bind (leads_allocIn hp hholds) fun m' id h' hg hid => ?_
    refine h'.declare_define (hp.mono hg) p.name ?_
    exact Option.isSome_iff_exists.mpr ⟨_, Store.list?_eq_some.mpr ⟨_, hid⟩⟩

/-- The frame of a call is new, and nothing has entered it yet. -/
theorem createFrame {c : Closure} {args : List Value} (callSite : Span) (hp : m.Present c.env)
    (hw : ∀ w ∈ args, w.Resolves m.store) :
    Leads Change m (fun m' env => m'.Present env ∧ env ∉ m'.active) (Memory.createFrame c args callSite m) := by
  let made := (m.create c.displayName (some c.env)).2
  have henv : made.environment? ⟨m.nextEnv⟩ = some { name := c.displayName, tail := some c.env } := by
    rw [environment?_create, if_pos rfl]
  have hcreate : Change m made := .create c.displayName hp
  have hmade := h.change hcreate
  have hmark : Change made (made.withCallSite ⟨m.nextEnv⟩ callSite) := by
    rw [withCallSite_eq henv]
    exact .frame henv rfl rfl (fun _ hx => hx) fun b hb w hw => hmade.bound _ _ b w henv hb hw
  have hmarked : ReflTransGen Change m (made.withCallSite ⟨m.nextEnv⟩ callSite) := .tail (.single hcreate) hmark
  obtain ⟨hw₁, hg₁⟩ := h.changes hmarked
  have hp₁ : (made.withCallSite ⟨m.nextEnv⟩ callSite).Present ⟨m.nextEnv⟩ :=
    Present.mono (hmade.toLinked.change_grows hmark) (Option.isSome_iff_exists.mpr ⟨_, henv⟩)
  have hnew : (⟨m.nextEnv⟩ : EnvId) ∉ m.active := fun hi => h.fresh_env (h.active _ hi)
  rw [createFrame_eq]
  refine Leads.after ?_ hmarked
  refine (hw₁.bindParams hp₁ fun w hi => (hw w hi).mono hg₁.store).bind fun m₂ _ hc₂ _ => ?_
  obtain ⟨hw₂, hg₂⟩ := hw₁.changes hc₂
  have hextra : ∀ w ∈ args.drop c.func.required.length, w.Resolves m₂.store :=
    fun w hi => ((hw w (List.mem_of_mem_drop hi)).mono hg₁.store).mono hg₂.store
  refine (hw₂.bindRest (hp₁.mono hg₂) hextra).bind fun m₃ _ hc₃ _ => .ok ?_
  obtain ⟨-, hg₃⟩ := hw₂.changes hc₃
  have hactive : m₃.active = m.active :=
    ((active_eq_of_changes hc₃).trans (active_eq_of_changes hc₂)).trans (active_eq_of_changes hmarked)
  exact ⟨(hp₁.mono hg₂).mono hg₃, hactive ▸ hnew⟩

end WellFormed
end Memory
end CseMachine
