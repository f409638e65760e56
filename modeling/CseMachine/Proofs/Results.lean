/-!
# Results of sequences

How a sequence of two computations succeeds or fails.
-/
namespace CseMachine

variable {ε α β σ : Type}

/-- A sequence succeeds if the first part does, and the second on what the first gives. -/
theorem bind_ok_iff {first : Except ε α} {next : α → Except ε β} {r : β} :
    first >>= next = .ok r ↔ ∃ a, first = .ok a ∧ next a = .ok r := by
  rcases first with e | a
  · exact ⟨fun h => (nomatch h), fun ⟨_, h, _⟩ => (nomatch h)⟩
  · exact ⟨fun h => ⟨a, rfl, h⟩, fun ⟨_, ha, h⟩ => Except.ok.inj ha ▸ h⟩

/-- A sequence fails with its first part, or with the second on what the first gives. -/
theorem bind_error_iff {first : Except ε α} {next : α → Except ε β} {e : ε} :
    first >>= next = .error e ↔ first = .error e ∨ ∃ a, first = .ok a ∧ next a = .error e := by
  rcases first with e' | a
  · exact ⟨fun h => .inl (congrArg _ (Except.error.inj h)), fun h => h.elim (fun h => congrArg _ (Except.error.inj h)) nofun⟩
  · exact ⟨fun h => .inr ⟨a, rfl, h⟩, fun h => h.elim nofun fun ⟨_, ha, h⟩ => Except.ok.inj ha ▸ h⟩

theorem map_ok_iff {first : Except ε α} {f : α → β} {r : β} :
    f <$> first = .ok r ↔ ∃ a, first = .ok a ∧ f a = r := by
  rcases first with e | a
  · exact ⟨fun h => (nomatch h), fun ⟨_, h, _⟩ => (nomatch h)⟩
  · exact ⟨fun h => ⟨a, rfl, Except.ok.inj h⟩, fun ⟨_, ha, h⟩ => Except.ok.inj ha ▸ congrArg _ h⟩

section

variable {x : EStateM ε σ α} {f : α → EStateM ε σ β} {s t : σ}

/-- After a first part that succeeds the second one runs on what it leaves. -/
theorem bind_of_ok {a : α} (h : x s = .ok a t) : (x >>= f) s = f a t := by
  simp only [bind, EStateM.bind, h]

theorem bind_of_error {e : ε} (h : x s = .error e t) : (x >>= f) s = .error e t := by
  simp only [bind, EStateM.bind, h]

/-- If a sequence succeeds both of its parts do. -/
theorem of_bind_ok {b : β} {u : σ} (h : (x >>= f) s = .ok b u) : ∃ a t, x s = .ok a t ∧ f a t = .ok b u := by
  cases hx : x s with
  | ok a t => exact ⟨a, t, rfl, (bind_of_ok hx).symm.trans h⟩
  | error e t => cases (bind_of_error hx).symm.trans h

end

end CseMachine
