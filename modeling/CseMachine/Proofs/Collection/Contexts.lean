import CseMachine.Proofs.Memory.Marking
import CseMachine.Proofs.Variant.Standard

/-!
# Contexts that agree on what is live

Contexts agree if they are the same but for memories that agree on a set of live
ids, which holds what the Stash and the program environment refer to. The parts
that items are executed by run in lockstep on such contexts.
-/
namespace CseMachine

variable {α : Type} {L M : Live} {c₁ c₂ : Context} {m₁ m₂ : Memory}

namespace Context

structure Agree (L : Live) (c₁ c₂ : Context) : Prop where
  same : c₂ = { c₁ with memory := c₂.memory }
  memory : c₁.memory.Agree L c₂.memory
  stashLive : ∀ w ∈ c₁.stash.items, w.Within L.objects
  programLive : ∀ env, c₁.programEnv = some env → L.envs env

namespace Agree

theorem refl (c : Context) : Agree .all c c :=
  ⟨rfl, .refl _, fun _ _ _ _ => trivial, fun _ _ => trivial⟩

theorem symm (h : Agree L c₁ c₂) : Agree L c₂ c₁ := by
  have hs := h.same
  obtain ⟨control, stash, memory, errors, phase, steps, run, predefined, programEnv, output⟩ := c₂
  simp only at hs
  injections
  subst_vars
  exact ⟨rfl, h.memory.symm, h.stashLive, h.programLive⟩

variable (h : Agree L c₁ c₂)
include h

theorem withMemory (hl : L ≤ M) (hm : m₁.Agree M m₂) :
    Agree M { c₁ with memory := m₁ } { c₂ with memory := m₂ } := by
  refine ⟨?_, hm, fun w hw => (h.stashLive w hw).mono hl.2, fun env he => hl.1 env (h.programLive env he)⟩
  rw [h.same]

theorem withControl (f : Control → Control) :
    Agree L { c₁ with control := f c₁.control } { c₂ with control := f c₂.control } := by
  refine ⟨?_, h.memory, h.stashLive, h.programLive⟩
  rw [h.same]

theorem withStash (f : Stack Value → Stack Value) (hf : ∀ w ∈ (f c₁.stash).items, w.Within L.objects) :
    Agree L { c₁ with stash := f c₁.stash } { c₂ with stash := f c₂.stash } := by
  refine ⟨?_, h.memory, hf, h.programLive⟩
  rw [h.same]

theorem control_eq : c₁.control = c₂.control := by rw [h.same]

theorem stash_eq : c₁.stash = c₂.stash := by rw [h.same]

theorem run_eq : c₁.run = c₂.run := by rw [h.same]

theorem predefined_eq : c₁.predefined = c₂.predefined := by rw [h.same]

theorem programEnv_eq : c₁.programEnv = c₂.programEnv := by rw [h.same]

theorem output_eq : c₁.output = c₂.output := by rw [h.same]

theorem errors_eq : c₁.errors = c₂.errors := by rw [h.same]

theorem phase_eq : c₁.phase = c₂.phase := by rw [h.same]

theorem steps_eq : c₁.steps = c₂.steps := by rw [h.same]

/-- The stores answer alike on live handles. -/
theorem stores : c₁.memory.store.Alike L.objects c₂.memory.store :=
  ⟨h.memory.nextObject, h.memory.contents, fun _ _ hi hl => h.memory.closed.list hi hl⟩

theorem pushValue {w : Value} (hw : w.Within L.objects) : Agree L (c₁.pushValue w) (c₂.pushValue w) := by
  apply h.withStash (·.push w)
  intro x hx
  rcases List.mem_cons.mp hx with rfl | hx
  · exact hw
  · exact h.stashLive x hx

theorem failWith (e : EvalError) : Agree L (c₁.failWith e) (c₂.failWith e) := by
  have hw := h.pushValue (w := .error e) fun id hi => nomatch hi
  refine ⟨?_, hw.memory, hw.stashLive, hw.programLive⟩
  rw [h.same]
  rfl

end Agree
end Context

namespace Action

open Context (Agree)

theorem lockstep_modify {f g : Context → Context} (hf : Agree L (f c₁) (g c₂)) :
    Lockstep Agree Same L ((modify f : Action Unit) c₁) ((modify g : Action Unit) c₂) := .ok hf rfl

theorem lockstep_raise {P : Live → α → α → Prop} (h : Agree L c₁ c₂) (cause : EvalError.Cause) :
    Lockstep Agree P L ((raise cause : Action α) c₁) ((raise cause : Action α) c₂) := .error h

variable (h : Agree L c₁ c₂)
include h

theorem lockstep_get : Lockstep Agree Agree L ((get : Action Context) c₁) ((get : Action Context) c₂) :=
  .ok h h

theorem lockstep_pushControl (f : Control → Control) :
    Lockstep Agree Same L (pushControl f c₁) (pushControl f c₂) := .ok (h.withControl f) rfl

theorem lockstep_pushValue {w : Value} (hw : w.Within L.objects) :
    Lockstep Agree Same L (pushValue w c₁) (pushValue w c₂) := .ok (h.pushValue hw) rfl

theorem lockstep_onMemory {P : Live → α → α → Prop} {op : Memory.Op α}
    (ho : Lockstep Memory.Agree P L (op c₁.memory) (op c₂.memory)) :
    Lockstep Agree P L (onMemory op c₁) (onMemory op c₂) := by
  simp only [onMemory]
  cases h₁ : op c₁.memory with
  | ok a m₁ =>
    cases h₂ : op c₂.memory with
    | ok b m₂ =>
      rw [h₁, h₂] at ho
      obtain ⟨M, hl, hm, hp⟩ := ho
      exact ⟨M, hl, h.withMemory hl hm, hp⟩
    | error f m₂ =>
      rw [h₁, h₂] at ho
      exact ho.elim
  | error e m₁ =>
    cases h₂ : op c₂.memory with
    | ok b m₂ =>
      rw [h₁, h₂] at ho
      exact ho.elim
    | error f m₂ =>
      rw [h₁, h₂] at ho
      obtain ⟨he, M, hl, hm⟩ := ho
      exact ⟨he, M, hl, h.withMemory hl hm⟩

/-- A result that is the same on both sides. -/
theorem lockstep_ofExcept {P : Live → α → α → Prop} {r : Except EvalError α} (hr : ∀ a, r = .ok a → P L a a) :
    Lockstep Agree P L (ofExcept r c₁) (ofExcept r c₂) := by
  cases r with
  | error e => exact .error h
  | ok a => exact .ok h (hr a rfl)

theorem lockstep_popValue : Lockstep Agree SameValue L (popValue c₁) (popValue c₂) := by
  simp only [popValue]
  rw [← h.stash_eq]
  cases hs : c₁.stash.items with
  | nil =>
    simp only [Stack.pop?, hs]
    exact .error h
  | cons w rest =>
    simp only [Stack.pop?, hs]
    refine .ok (h.withStash (fun _ => ⟨rest⟩) ?_) ⟨rfl, h.stashLive w (hs ▸ .head _)⟩
    exact fun x hx => h.stashLive x (hs ▸ .tail _ hx)

theorem lockstep_popValues (count : Nat) (fault : EvalError.Fault) :
    Lockstep Agree SameValues L (popValues count fault c₁) (popValues count fault c₂) := by
  simp only [popValues, Stack.popN?]
  rw [← h.stash_eq]
  by_cases hn : (c₁.stash.items.take count).length = count
  · simp only [hn, if_true]
    refine .ok (h.withStash (fun _ => ⟨c₁.stash.items.drop count⟩) ?_) ⟨rfl, ?_⟩
    · exact fun x hx => h.stashLive x (List.mem_of_mem_drop hx)
    · exact fun x hx => h.stashLive x (List.mem_of_mem_take (List.mem_reverse.mp hx))
  · simp only [hn, if_false]
    exact .error h

theorem lockstep_enter {create : Memory → EnvId × Memory}
    (hc : (create c₁.memory).1 = (create c₂.memory).1 ∧
      Memory.Agree (L.addEnv (create c₁.memory).1) (create c₁.memory).2 (create c₂.memory).2) :
    Lockstep Agree (fun M env env' => env = env' ∧ M.envs env) L (enter create c₁) (enter create c₂) := by
  obtain ⟨hid, hm⟩ := hc
  refine ⟨L.addEnv (create c₁.memory).1, L.le_addEnv _, ?_, hid, .inl rfl⟩
  have hp := h.withMemory (L.le_addEnv _) (hm.push (.inl rfl))
  rw [hid] at hp ⊢
  exact hp

theorem lockstep_declareAll {env : EnvId} (hi : L.envs env) (declarations : List Declaration) :
    Lockstep Agree Same L (declareAll env declarations c₁) (declareAll env declarations c₂) := by
  induction declarations generalizing L c₁ c₂ with
  | nil => exact .ok h rfl
  | cons d rest ih =>
    refine (lockstep_onMemory h (h.memory.declare d.name d.constant hi)).bind fun M _ _ c₁ c₂ hl h _ => ?_
    exact ih h (hl.1 env hi)

theorem lockstep_closureHere (make : Func → EnvId → RunId → Bool → Span → Closure)
    (hmake : ∀ f env run predefined span, (make f env run predefined span).env = env)
    (func : Func) (span : Span) :
    Lockstep Agree SameValue L (closureHere make func span c₁) (closureHere make func span c₂) := by
  have hc : L.envs (make func c₁.memory.current c₁.run c₁.predefined span).env := by
    rw [hmake]
    exact h.memory.current_live
  have ha := lockstep_onMemory h (h.memory.alloc (Content.within_closure hc))
  have heq : make func c₂.memory.current c₂.run c₂.predefined span =
      make func c₁.memory.current c₁.run c₁.predefined span := by
    rw [h.memory.current_eq, h.run_eq, h.predefined_eq]
  have hu : ∀ c, closureHere make func span c =
      (onMemory (Memory.alloc (.closure (make func c.memory.current c.run c.predefined span))) >>=
        fun id => pure (Value.closure id)) c := fun c => rfl
  rw [hu, hu, heq]
  refine ha.bind fun M id _ c₁ c₂ hl h hid => ?_
  obtain ⟨rfl, hid⟩ := hid
  exact .ok h ⟨rfl, fun k hk => Option.some.inj hk ▸ hid⟩

end Action
end CseMachine
