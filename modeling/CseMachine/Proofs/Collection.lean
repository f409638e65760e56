import CseMachine.Proofs.Collection.Runs

/-!
# Garbage collection is unobservable

Whatever a caller does with a context, the replies and all that can be seen in
between are the same, however often the machine collects.
-/
namespace CseMachine

variable {c₁ c₂ : Context}

namespace Context

theorem Alike.load (h : Alike c₁ c₂) (program : Node) : Alike (c₁.load program) (c₂.load program) := by
  obtain ⟨L, h⟩ := h
  simp only [Context.load]
  rw [← h.phase_eq]
  split
  · exact ⟨L, h⟩
  · refine ⟨L, ?_, h.memory, fun w hw => (by cases hw), h.programLive⟩
    rw [h.same]

end Context

namespace Variant

open Context (Alike)

variable (v : Variant) (f₁ f₂ g₁ g₂ : Context → Nat)

/-- The same reply, or none on either side. -/
theorem perform_alike (h : Alike c₁ c₂) (call : Call) :
    ((v.collecting f₁ g₁).perform c₁ call = none ∧ (v.collecting f₂ g₂).perform c₂ call = none) ∨
      ∃ reply d₁ d₂, (v.collecting f₁ g₁).perform c₁ call = some (reply, d₁) ∧
        (v.collecting f₂ g₂).perform c₂ call = some (reply, d₂) ∧ Alike d₁ d₂ := by
  cases call with
  | load program => exact .inr ⟨_, _, _, rfl, rfl, h.load program⟩
  | step =>
    obtain ⟨hr, hs⟩ := step_alike v f₁ f₂ g₁ g₂ h
    refine .inr ⟨_, _, _, rfl, ?_, hs⟩
    simp only [perform, hr]
  | run limits bound =>
    have hr := runWithin_alike v f₁ f₂ g₁ g₂ limits bound h
    simp only [perform]
    cases h₁ : (v.collecting f₁ g₁).runWithin bound limits c₁ with
    | none =>
      cases h₂ : (v.collecting f₂ g₂).runWithin bound limits c₂ with
      | none => exact .inl ⟨rfl, rfl⟩
      | some end₂ =>
        rw [h₁, h₂] at hr
        exact hr.elim
    | some end₁ =>
      cases h₂ : (v.collecting f₂ g₂).runWithin bound limits c₂ with
      | none =>
        rw [h₁, h₂] at hr
        exact hr.elim
      | some end₂ =>
        rw [h₁, h₂] at hr
        obtain ⟨ho, hc⟩ := hr
        refine .inr ⟨.ran end₁.1, end₁.2, end₂.2, rfl, ?_, hc⟩
        simp only [Option.map_some, ho]

theorem replies_alike (h : Alike c₁ c₂) (calls : List (Nat × Nat × Call)) :
    (v.collecting f₁ g₁).replies c₁ (calls.map fun (n, _, call) => (n, call)) =
      (v.collecting f₂ g₂).replies c₂ (calls.map fun (_, k, call) => (k, call)) := by
  induction calls generalizing c₁ c₂ with
  | nil => rfl
  | cons first calls ih =>
    obtain ⟨n, k, call⟩ := first
    simp only [List.map_cons, replies]
    rcases perform_alike v f₁ f₂ g₁ g₂ (h.collect n k) call with ⟨h₁, h₂⟩ | ⟨reply, d₁, d₂, h₁, h₂, hd⟩
    · rw [h₁, h₂]
    · rw [h₁, h₂]
      simp only [hd.view_eq, ih hd]

/-- A variant that never collects before a call and collects like the machine is the machine. -/
theorem replies_standard (c : Context) (calls : List Call) :
    standard.replies c (calls.map fun call => (0, call)) = c.replies calls := by
  induction calls generalizing c with
  | nil => rfl
  | cons call calls ih =>
    simp only [List.map_cons, replies, Context.replies, Function.iterate_zero, id_eq, perform_standard]
    cases c.perform call with
    | none => rfl
    | some next => simp only [ih]

/-- From any context on, a machine that collects at other times, any number of times after each
step, after the last one and before each call, answers all calls as the machine does: with the same
step records and outcomes, and after each call with the same snapshot, output and next ids. -/
theorem collections_unobservable (afterStep atEnd : Context → Nat) (c : Context) (calls : List (Nat × Call)) :
    (standard.collecting afterStep atEnd).replies c calls = c.replies (calls.map Prod.snd) := by
  have ha := replies_alike standard afterStep standard.afterStep atEnd standard.atEnd (.refl c)
    (calls.map fun (n, call) => (n, 0, call))
  have hs : standard.collecting standard.afterStep standard.atEnd = standard := rfl
  rw [hs] at ha
  rw [← replies_standard]
  simpa only [List.map_map, Function.comp_def, List.map_id'] using ha

end Variant
end CseMachine
