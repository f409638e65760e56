import CseMachine.Proofs.Memory.Agreement

/-!
# Two runs side by side

One computation from two states that are related over a set of live ids. Both
runs fail with the same error or both succeed with related values, and what
they leave is related over a set that has only grown.
-/
namespace CseMachine

variable {ε σ α β : Type} {R : Live → σ → σ → Prop} {P : Live → α → α → Prop}
  {Q : Live → β → β → Prop} {L M : Live}

/-- The two runs end alike. -/
def Lockstep (R : Live → σ → σ → Prop) (P : Live → α → α → Prop) (L : Live) :
    EStateM.Result ε σ α → EStateM.Result ε σ α → Prop
  | .ok a s, .ok b t => ∃ M, L ≤ M ∧ R M s t ∧ P M a b
  | .error e s, .error f t => e = f ∧ ∃ M, L ≤ M ∧ R M s t
  | _, _ => False

/-- The values are the same. -/
def Same (_ : Live) (a b : α) : Prop := a = b

/-- The values are the same, and what they refer to is live. -/
def SameValue (L : Live) (v w : Value) : Prop := v = w ∧ v.Within L.objects

def SameValues (L : Live) (vs ws : List Value) : Prop := vs = ws ∧ ∀ v ∈ vs, v.Within L.objects

namespace Lockstep

theorem ok {a b : α} {s t : σ} (hr : R L s t) (hp : P L a b) :
    Lockstep (ε := ε) R P L (.ok a s) (.ok b t) := ⟨L, L.le_refl, hr, hp⟩

theorem error {e : ε} {s t : σ} (hr : R L s t) :
    Lockstep (α := α) R P L (.error e s) (.error e t) := ⟨rfl, L, L.le_refl, hr⟩

theorem weaken {x y : EStateM.Result ε σ α} (h : Lockstep R P M x y) (hl : L ≤ M) : Lockstep R P L x y := by
  cases x with
  | ok a s =>
    cases y with
    | ok b t =>
      obtain ⟨N, hn, hr, hp⟩ := h
      exact ⟨N, Live.le_trans hl hn, hr, hp⟩
    | error f t => exact h
  | error e s =>
    cases y with
    | ok b t => exact h
    | error f t =>
      obtain ⟨he, N, hn, hr⟩ := h
      exact ⟨he, N, Live.le_trans hl hn, hr⟩

/-- Runs in lockstep go on in lockstep. -/
theorem bind {x y : EStateM ε σ α} {f g : α → EStateM ε σ β} {s t : σ} (h : Lockstep R P L (x s) (y t))
    (hf : ∀ M a b s t, L ≤ M → R M s t → P M a b → Lockstep R Q M (f a s) (g b t)) :
    Lockstep R Q L ((x >>= f) s) ((y >>= g) t) := by
  have hx : (x >>= f) s = match x s with | .ok a s => f a s | .error e s => .error e s := rfl
  have hy : (y >>= g) t = match y t with | .ok a s => g a s | .error e s => .error e s := rfl
  rw [hx, hy]
  cases hxs : x s with
  | ok a s' =>
    cases hyt : y t with
    | ok b t' =>
      rw [hxs, hyt] at h
      obtain ⟨N, hn, hr, hp⟩ := h
      exact (hf N a b s' t' hn hr hp).weaken hn
    | error e' t' =>
      rw [hxs, hyt] at h
      exact h.elim
  | error e s' =>
    cases hyt : y t with
    | ok b t' =>
      rw [hxs, hyt] at h
      exact h.elim
    | error e' t' =>
      rw [hxs, hyt] at h
      exact h

end Lockstep
end CseMachine
