import CseMachine.Proofs.Collection.Items
import CseMachine.Proofs.Session

/-!
# Runs with other collections

Contexts that agree on some closed set of live ids are alike: no collection tells
them apart, and steps and runs of alike contexts give the same records and
outcomes and leave alike contexts, however often either side collects.
-/
namespace CseMachine

variable {c₁ c₂ c₃ d₁ d₂ : Context}

namespace Context

/-- Nothing but what a collection may free differs. -/
def Alike (c₁ c₂ : Context) : Prop := ∃ L, Agree L c₁ c₂

theorem Agree.collectGarbage {L : Live} (h : Agree L c₁ c₂) :
    Agree (L.meet (c₁.memory.kept c₁.rootEnvs c₁.rootObjects)) c₁.collectGarbage c₂ := by
  refine ⟨h.same, h.memory.collect c₁.rootEnvs c₁.rootObjects, fun w hw id hi => ?_, fun env he => ?_⟩
  · exact ⟨h.stashLive w hw id hi, Memory.kept_object (List.mem_filterMap.mpr ⟨w, hw, hi⟩)⟩
  · refine ⟨h.programLive env he, Memory.kept_env (List.mem_append_right _ ?_)⟩
    exact List.mem_append_right _ (Option.mem_toList.mpr he)

namespace Alike

theorem refl (c : Context) : Alike c c := ⟨_, .refl c⟩

theorem symm (h : Alike c₁ c₂) : Alike c₂ c₁ := by
  obtain ⟨L, h⟩ := h
  exact ⟨L, h.symm⟩

theorem collectLeft (h : Alike c₁ c₂) (n : Nat) : Alike (collectGarbage^[n] c₁) c₂ := by
  induction n generalizing c₁ with
  | zero => exact h
  | succ n ih =>
    obtain ⟨L, h⟩ := h
    exact ih ⟨_, h.collectGarbage⟩

/-- Any number of collections on both sides. -/
theorem collect (h : Alike c₁ c₂) (n k : Nat) : Alike (collectGarbage^[n] c₁) (collectGarbage^[k] c₂) :=
  (((h.collectLeft n).symm).collectLeft k).symm

end Alike

namespace Agree

variable {L : Live} (h : Agree L c₁ c₂)
include h

theorem result_within : c₁.result.Within L.objects := by
  simp only [result, Stack.peek?]
  cases hs : c₁.stash.items with
  | nil => exact fun id hi => nomatch hi
  | cons w rest => exact h.stashLive w (hs ▸ .head _)

theorem result_eq : c₁.result = c₂.result := by
  simp only [result]
  rw [h.stash_eq]

theorem repr_result_eq : c₁.result.repr c₁.memory.store = c₂.result.repr c₂.memory.store := by
  rw [Value.repr_eq h.stores h.result_within, h.result_eq]

theorem snapshot_eq : c₁.snapshot = c₂.snapshot := by
  have hstash : c₁.stashTexts = c₂.stashTexts := by
    simp only [stashTexts, Stack.toList]
    rw [← h.stash_eq]
    exact List.map_congr_left fun w hw => Value.repr_eq h.stores (h.stashLive w (List.mem_reverse.mp hw))
  have henv : c₁.snapshot.environments = c₂.snapshot.environments := by
    simp only [snapshot]
    simp only [← h.memory.active]
    refine List.map_congr_left fun id hid => ?_
    rcases h.memory.environment?_cases (h.memory.activeLive id (List.mem_reverse.mp hid)) with
      ⟨h₁, h₂⟩ | ⟨e, heap, h₁, h₂⟩
    · rw [h₁, h₂]
    · rw [h₁, h₂]
      rfl
  simp only [snapshot] at henv ⊢
  rw [hstash, h.control_eq]
  exact congrArg _ henv

theorem view_eq : c₁.view = c₂.view := by
  simp only [view]
  rw [h.snapshot_eq, h.repr_result_eq, h.memory.active, h.memory.nextEnv, h.memory.nextObject]
  rw [h.control_eq, h.stash_eq, h.output_eq, h.phase_eq, h.steps_eq, h.errors_eq]

end Agree

theorem Alike.view_eq (h : Alike c₁ c₂) : c₁.view = c₂.view := by
  obtain ⟨L, h⟩ := h
  exact h.view_eq

end Context

namespace Variant

open Context (Agree Alike)

variable (v : Variant) (f₁ f₂ g₁ g₂ : Context → Nat)

theorem execute_collecting (item : Item) : (v.collecting f₁ g₁).execute item = v.execute item := rfl

/-- A step executes the same item on alike contexts, or finds Control empty in both. -/
theorem advance?_alike (h : Alike c₁ c₂) :
    ((v.collecting f₁ g₁).advance? c₁ = none ∧ (v.collecting f₂ g₂).advance? c₂ = none) ∨
      ∃ item d₁ d₂, (v.collecting f₁ g₁).advance? c₁ = some (item, d₁) ∧
        (v.collecting f₂ g₂).advance? c₂ = some (item, d₂) ∧ Alike d₁ d₂ := by
  obtain ⟨L, h⟩ := h
  simp only [advance?]
  rw [← h.control_eq]
  cases hp : c₁.control.pop? with
  | none => exact .inl ⟨rfl, rfl⟩
  | some top =>
    obtain ⟨item, control⟩ := top
    refine .inr ?_
    have hb : Agree L { c₁ with control, phase := .running, steps := c₁.steps + 1 }
        { c₂ with control, phase := .running, steps := c₂.steps + 1 } := by
      refine ⟨?_, h.memory, h.stashLive, h.programLive⟩
      rw [h.same]
    have hl := lockstep_execute v hb item
    simp only [execute_collecting]
    cases h₁ : v.execute item { c₁ with control, phase := .running, steps := c₁.steps + 1 } with
    | ok _ e₁ =>
      cases h₂ : v.execute item { c₂ with control, phase := .running, steps := c₂.steps + 1 } with
      | ok _ e₂ =>
        rw [h₁, h₂] at hl
        obtain ⟨M, _, he, _⟩ := hl
        exact ⟨item, _, _, rfl, rfl, Alike.collect ⟨M, he⟩ (f₁ e₁) (f₂ e₂)⟩
      | error e e₂ =>
        rw [h₁, h₂] at hl
        exact hl.elim
    | error e e₁ =>
      cases h₂ : v.execute item { c₂ with control, phase := .running, steps := c₂.steps + 1 } with
      | ok _ e₂ =>
        rw [h₁, h₂] at hl
        exact hl.elim
      | error e' e₂ =>
        rw [h₁, h₂] at hl
        obtain ⟨rfl, M, _, he⟩ := hl
        exact ⟨item, _, _, rfl, rfl, M, he.failWith (e.withSpan item.span)⟩

theorem finish_alike (h : Alike c₁ c₂) :
    Alike ((v.collecting f₁ g₁).finish c₁) ((v.collecting f₂ g₂).finish c₂) := by
  have hphase : ∀ {d₁ d₂ : Context}, Alike d₁ d₂ →
      Alike { d₁ with phase := .finished } { d₂ with phase := .finished } := by
    rintro d₁ d₂ ⟨M, h⟩
    refine ⟨M, ?_, h.memory, h.stashLive, h.programLive⟩
    rw [h.same]
  have hu : Alike (unwind c₁) (unwind c₂) := by
    obtain ⟨L, h⟩ := h
    simp only [unwind]
    rw [← h.programEnv_eq]
    cases hp : c₁.programEnv with
    | none => exact ⟨L, h⟩
    | some program =>
      obtain ⟨hleft, hm⟩ := h.memory.unwindTo (h.programLive program hp)
      have ha := agree_keepResult (h.withMemory L.le_refl hm) program (c₁.memory.unwindTo program).1
      rw [← h.programEnv_eq, hp] at ha
      simp only [← hleft]
      exact ⟨L, ha⟩
  exact hphase (hu.collect _ _)

/-- What a run gives is the same, and what it leaves is alike. -/
def SameEnd : Option (Outcome × Context) → Option (Outcome × Context) → Prop
  | some (o₁, c₁), some (o₂, c₂) => o₁ = o₂ ∧ Alike c₁ c₂
  | none, none => True
  | _, _ => False

theorem step_alike (h : Alike c₁ c₂) :
    ((v.collecting f₁ g₁).step c₁).1 = ((v.collecting f₂ g₂).step c₂).1 ∧
      Alike ((v.collecting f₁ g₁).step c₁).2 ((v.collecting f₂ g₂).step c₂).2 := by
  have hv := h.view_eq
  have hphase : c₁.phase = c₂.phase := congrArg Context.View.phase hv
  have hsteps : c₁.steps = c₂.steps := congrArg Context.View.steps hv
  simp only [step]
  rw [← hphase]
  split
  · exact ⟨rfl, h⟩
  · rcases advance?_alike v f₁ f₂ g₁ g₂ h with ⟨h₁, h₂⟩ | ⟨item, d₁, d₂, h₁, h₂, hd⟩
    · rw [h₁, h₂]
      exact ⟨rfl, finish_alike v f₁ f₂ g₁ g₂ h⟩
    · rw [h₁, h₂]
      have hp : d₁.phase = d₂.phase := congrArg Context.View.phase hd.view_eq
      refine ⟨?_, hd⟩
      simp only [hsteps, hp]

theorem runFrom_alike (limits : Limits) (bound taken changes : Nat) (h : Alike c₁ c₂) :
    SameEnd ((v.collecting f₁ g₁).runFrom limits bound taken changes c₁)
      ((v.collecting f₂ g₂).runFrom limits bound taken changes c₂) := by
  induction bound generalizing taken changes c₁ c₂ with
  | zero => trivial
  | succ bound ih =>
    have hcontrol : c₁.control = c₂.control := congrArg Context.View.control h.view_eq
    have hsuspend : ∀ {d₁ d₂ : Context} (reason : SuspendReason) (n : Nat), Alike d₁ d₂ →
        SameEnd (some (d₁.suspend reason n)) (some (d₂.suspend reason n)) := by
      rintro d₁ d₂ reason n ⟨M, h⟩
      refine ⟨rfl, M, ?_, h.memory, h.stashLive, h.programLive⟩
      rw [h.same]
    simp only [runFrom]
    rw [← hcontrol]
    split
    · have hf := finish_alike v f₁ f₂ g₁ g₂ h
      refine ⟨?_, hf⟩
      obtain ⟨L, hf⟩ := hf
      simp only [Context.finishedOutcome]
      rw [hf.repr_result_eq, hf.result_eq]
    · cases Context.stepLimit? limits taken with
      | some reason => exact hsuspend reason taken h
      | none =>
        rcases advance?_alike v f₁ f₂ g₁ g₂ h with ⟨h₁, h₂⟩ | ⟨item, d₁, d₂, h₁, h₂, hd⟩
        · rw [h₁, h₂]
          trivial
        · rw [h₁, h₂]
          have hp : d₁.phase = d₂.phase := congrArg Context.View.phase hd.view_eq
          have he : d₁.errors = d₂.errors := congrArg Context.View.errors hd.view_eq
          have hmark : ∀ {d₁ d₂ : Context}, Alike d₁ d₂ → d₁.envMark = d₂.envMark := by
            rintro d₁ d₂ ⟨M, h⟩
            simp only [Context.envMark]
            rw [h.memory.active, h.memory.current_eq]
          have hc : Context.countChange limits changes c₁ d₁ = Context.countChange limits changes c₂ d₂ := by
            simp only [Context.countChange]
            rw [hmark h, hmark hd]
          simp only [← hp, ← hc]
          split
          · refine ⟨?_, hd⟩
            simp only [Context.errorOutcome, Context.error?]
            rw [he]
          · cases Context.envLimit? limits changes (Context.countChange limits changes c₁ d₁) with
            | some reason => exact hsuspend reason _ hd
            | none => exact ih _ _ hd

theorem runWithin_alike (limits : Limits) (bound : Nat) (h : Alike c₁ c₂) :
    SameEnd ((v.collecting f₁ g₁).runWithin bound limits c₁)
      ((v.collecting f₂ g₂).runWithin bound limits c₂) := by
  have hphase : c₁.phase = c₂.phase := congrArg Context.View.phase h.view_eq
  have herrors : c₁.errors = c₂.errors := congrArg Context.View.errors h.view_eq
  simp only [runWithin]
  rw [← hphase]
  split
  · refine ⟨?_, h⟩
    simp only [Context.errorOutcome, Context.error?]
    rw [herrors]
  · exact runFrom_alike v f₁ f₂ g₁ g₂ limits bound 0 0 h

end Variant
end CseMachine
