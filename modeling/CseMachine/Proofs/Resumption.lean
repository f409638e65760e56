import CseMachine.Proofs.Settling

/-!
# Runs that stop and go on

However a run is cut into calls, by limits or by single steps, the items are
executed one after the other as they would be in one piece: where the calls stop
depends on the number of steps alone, and where they end on nothing. Limits are
exact.
-/
namespace CseMachine

/-- The call goes on with what is loaded. -/
def Call.GoesOn : Call → Prop
  | .load _ => False
  | _ => True

namespace Context

variable {c d e e' : Context} {limits : Limits} {outcome : Outcome} {bound taken changes n k : Nat}

/-- The context but for the mark of being new, running or suspended. -/
def untagged (c : Context) : Context := if c.phase.isTerminal then c else { c with phase := .idle }

/-- What so many steps make of the context, if it takes so many. -/
def advances : Nat → Context → Option Context
  | 0, c => some c
  | n + 1, c => if c.phase = .errored then none else c.advance?.bind fun next => advances n next.2

/-- How many of so many steps change the depth or the top of the active environments. -/
def envChanges : Nat → Context → Nat
  | 0, _ => 0
  | n + 1, c =>
    match c.advance? with
    | some (_, d) => (if d.envMark = c.envMark then 0 else 1) + envChanges n d
    | none => 0

/-- Contexts that runs with any limits and single steps come to. -/
inductive Continued (c : Context) : Context → Prop
  | refl : Continued c c
  | call {d e : Context} {call : Call} {reply : Reply} (before : Continued c d) (goesOn : call.GoesOn)
      (h : d.perform call = some (reply, e)) : Continued c e

/-! The mark -/

theorem untagged_cases (h : c.untagged = d.untagged) :
    d = c ∨ c.phase.isTerminal = false ∧ d.phase.isTerminal = false ∧ d = { c with phase := d.phase } := by
  obtain ⟨control, stash, memory, errors, phase, steps, run, predefined, programEnv, output⟩ := c
  obtain ⟨control', stash', memory', errors', phase', steps', run', predefined', programEnv', output'⟩ := d
  cases phase <;> cases phase' <;> cases h
  all_goals first
    | exact .inl rfl
    | exact .inr ⟨rfl, rfl, rfl⟩

/-- Nothing but the phase differs. -/
theorem eq_of_untagged (h : c.untagged = d.untagged) : d = { c with phase := d.phase } := by
  rcases untagged_cases h with rfl | ⟨-, -, hd⟩
  · rfl
  · exact hd

theorem errored_iff_of_untagged (h : c.untagged = d.untagged) : c.phase = .errored ↔ d.phase = .errored := by
  rcases untagged_cases h with rfl | ⟨hc, hd, -⟩
  · exact Iff.rfl
  · constructor
    · intro he
      rw [he] at hc
      cases hc
    · intro he
      rw [he] at hd
      cases hd

theorem untagged_withPhase {phase : Phase} (hc : c.phase.isTerminal = false) (hp : phase.isTerminal = false) :
    ({ c with phase } : Context).untagged = c.untagged := by
  simp only [untagged, hc, hp, Bool.false_eq_true, if_false]

theorem advance?_of_untagged (h : c.untagged = d.untagged) : c.advance? = d.advance? := by
  rw [eq_of_untagged h]
  rfl

theorem finish_withPhase (c : Context) (phase : Phase) : ({ c with phase } : Context).finish = c.finish := by
  obtain ⟨control, stash, memory, errors, phase', steps, run, predefined, programEnv, output⟩ := c
  cases programEnv with
  | none => rfl
  | some program =>
    simp only [finish, settle, keepResult]
    split
    · split
      · split <;> rfl
      · rfl
    · rfl

theorem finish_of_untagged (h : c.untagged = d.untagged) : c.finish = d.finish := by
  have hd := eq_of_untagged h
  rw [hd]
  exact (finish_withPhase c d.phase).symm

/-! Steps in a row -/

theorem advances_of_untagged (h : c.untagged = d.untagged) (n : Nat) :
    (c.advances n).map untagged = (d.advances n).map untagged := by
  cases n with
  | zero => exact congrArg some h
  | succ n => simp only [advances, errored_iff_of_untagged h, advance?_of_untagged h]

theorem advances_add (c : Context) (n k : Nat) : c.advances (n + k) = (c.advances n).bind (advances k) := by
  induction n generalizing c with
  | zero => rw [Nat.zero_add]; rfl
  | succ n ih =>
    rw [Nat.succ_add]
    simp only [advances]
    split
    · rfl
    · cases c.advance? with
      | none => rfl
      | some next => exact ih next.2

theorem advances_one {item : Item} (hp : c.phase ≠ .errored) (ha : c.advance? = some (item, d)) :
    c.advances 1 = some d := by
  simp only [advances, hp, if_false, ha]
  rfl

theorem advances_succ {item : Item} (hp : c.phase ≠ .errored) (ha : c.advance? = some (item, d)) :
    c.advances (n + 1) = d.advances n := by
  simp only [advances, hp, if_false, ha]
  rfl

theorem steps_of_advances (h : c.advances n = some d) : d.steps = c.steps + n := by
  induction n generalizing c with
  | zero => cases h; rfl
  | succ n ih =>
    simp only [advances] at h
    split at h
    · cases h
    · obtain ⟨⟨item, next⟩, ha, hn⟩ := Option.bind_eq_some_iff.mp h
      rw [ih hn, (advance?_books ha).1]
      omega

theorem advance?_eq_none (h : c.control.isEmpty = true) : c.advance? = none := by
  simp only [advance?, Control.pop?, Stack.pop?]
  rw [List.isEmpty_iff.mp h]

/-- Without anything on Control no step is taken. -/
theorem eq_of_advances (hn : c.control.isEmpty = true) (h : c.advances n = some d) : n = 0 ∧ d = c := by
  cases n with
  | zero => exact ⟨rfl, (Option.some.inj h).symm⟩
  | succ n =>
    simp only [advances, advance?_eq_none hn] at h
    split at h <;> cases h

theorem envChanges_succ_le (c : Context) (n : Nat) : c.envChanges (n + 1) ≤ c.envChanges n + 1 := by
  induction n generalizing c with
  | zero =>
    simp only [envChanges]
    split
    · split <;> omega
    · omega
  | succ n ih =>
    rw [envChanges, envChanges]
    cases c.advance? with
    | none => exact Nat.zero_le _
    | some next =>
      have := ih next.2
      dsimp only
      omega

theorem envChanges_succ {item : Item} (ha : c.advance? = some (item, d)) (n : Nat) :
    c.envChanges (n + 1) = c.envChanges 1 + d.envChanges n := by
  simp only [envChanges, ha]
  omega

/-! How runs end -/

/-- Ends of a run that has come to a context after so many steps, of which so many changed the
environment. -/
inductive Ends (limits : Limits) (taken changed : Nat) (e : Context) : Outcome → Context → Prop
  | finished (sound : e.phase ≠ .errored) (done : e.control.isEmpty = true) :
      Ends limits taken changed e e.finish.finishedOutcome e.finish
  | failed (errored : e.phase = .errored) : Ends limits taken changed e e.errorOutcome e
  | spent {limit : Nat} (sound : e.phase.isTerminal = false) (limited : limits.steps = some limit)
      (reached : limit ≤ taken) :
      Ends limits taken changed e (.suspended (.stepLimit limit) taken) { e with phase := .suspended }
  | changed {limit : Nat} (sound : e.phase.isTerminal = false) (limited : limits.envSteps = some limit)
      (reached : limit ≤ changed) :
      Ends limits taken changed e (.suspended (.envSteps limit) taken) { e with phase := .suspended }

/-- Without a limit on them changes do not matter. -/
theorem Ends.congr {changed changed' : Nat} (h : Ends limits taken changed e outcome d) (hn : limits.envSteps = none) :
    Ends limits taken changed' e outcome d := by
  cases h with
  | finished sound done => exact .finished sound done
  | failed errored => exact .failed errored
  | spent sound limited reached => exact .spent sound limited reached
  | changed sound limited reached => cases hn.symm.trans limited

theorem isTerminal_of_advance {item : Item} (ha : c.advance? = some (item, d)) (hd : d.phase ≠ .errored) :
    d.phase.isTerminal = false := by
  rcases (advance?_books ha).2 with hr | hr
  · rw [hr]
    rfl
  · exact absurd hr hd

theorem countChange_some {limit : Nat} {item : Item} (hl : limits.envSteps = some limit) (ha : c.advance? = some (item, d)) :
    countChange limits changes c d = changes + c.envChanges 1 := by
  simp only [countChange, hl, envChanges, ha, Option.isSome_some, Bool.true_and, bne_iff_ne, ne_eq, ite_not]
  split <;> rfl

/-- No limit is reached before any of so many steps. -/
structure Unreached (limits : Limits) (taken changes n : Nat) (c : Context) : Prop where
  steps : ∀ m < n, ∀ limit, limits.steps = some limit → taken + m < limit
  envSteps : ∀ limit, limits.envSteps = some limit → changes < limit → ∀ m < n, changes + c.envChanges m < limit

theorem unreached_zero : Unreached limits taken changes 0 c :=
  ⟨fun m hm => absurd hm (Nat.not_lt_zero m), fun _ _ _ m hm => absurd hm (Nat.not_lt_zero m)⟩

theorem unreached_one (hs : ∀ limit, limits.steps = some limit → taken < limit) : Unreached limits taken changes 1 c := by
  constructor
  · intro m hm limit hl
    have := hs limit hl
    omega
  · intro limit _ hlt m hm
    obtain rfl : m = 0 := by omega
    exact hlt

theorem Unreached.succ {item : Item} (h : Unreached limits (taken + 1) (countChange limits changes c d) n d)
    (ha : c.advance? = some (item, d)) (hs : ∀ limit, limits.steps = some limit → taken < limit)
    (he : ∀ limit, limits.envSteps = some limit → changes < limit → countChange limits changes c d < limit) :
    Unreached limits taken changes (n + 1) c := by
  constructor
  · intro m hm limit hl
    cases m with
    | zero => exact hs limit hl
    | succ m =>
      have := h.steps m (by omega) limit hl
      omega
  · intro limit hl hlt m hm
    cases m with
    | zero => exact hlt
    | succ m =>
      have := h.envSteps limit hl (he limit hl hlt) m (by omega)
      rw [countChange_some hl ha] at this
      rw [envChanges_succ ha]
      omega

/-- What a step adds to the counters counts as taken before it. -/
theorem Ends.advance {item : Item} (ha : c.advance? = some (item, e))
    (h : Ends limits (taken + 1 + n) (countChange limits changes c e + e.envChanges n) e' outcome d) :
    Ends limits (taken + (n + 1)) (changes + c.envChanges (n + 1)) e' outcome d := by
  rw [Nat.add_right_comm, Nat.add_assoc] at h
  cases hl : limits.envSteps with
  | none => exact h.congr hl
  | some limit =>
    rw [countChange_some hl ha, Nat.add_assoc, ← envChanges_succ ha] at h
    exact h

/-- A run executes items one after the other up to where it ends, and before each of them no limit
was reached. -/
theorem runFrom_ends (hp : c.phase ≠ .errored) (hf : c.phase = .finished → c.control.isEmpty = true)
    (h : c.runFrom limits bound taken changes = some (outcome, d)) :
    ∃ n e, c.advances n = some e ∧ Ends limits (taken + n) (changes + c.envChanges n) e outcome d ∧
      Unreached limits taken changes n c := by
  induction bound generalizing c taken changes with
  | zero => cases h
  | succ bound ih =>
    cases runFrom_proceeds h with
    | finished done => exact ⟨0, c, rfl, .finished hp done, unreached_zero⟩
    | spent more limited reached =>
      have hterminal : c.phase.isTerminal = false := by
        cases hc : c.phase with
        | finished => cases more.symm.trans (hf hc)
        | errored => exact absurd hc hp
        | _ => rfl
      exact ⟨0, c, rfl, .spent hterminal limited reached, unreached_zero⟩
    | failed unspent ha errored => exact ⟨1, d, advances_one hp ha, .failed errored, unreached_one unspent⟩
    | @changed _ next _ unspent ha sound limited reached =>
      rw [countChange_some limited ha] at reached
      exact ⟨1, next, advances_one hp ha, .changed (isTerminal_of_advance ha sound) limited reached, unreached_one unspent⟩
    | goesOn unspent ha sound unchanged rest =>
      have hrunning := isTerminal_of_advance ha sound
      obtain ⟨n, e, hn, hends, hbelow⟩ := ih sound (fun hf => by rw [hf] at hrunning; cases hrunning) rest
      exact ⟨n + 1, e, (advances_succ hp ha).trans hn, hends.advance ha, hbelow.succ ha unspent unchanged⟩

/-! Calls one after the other -/

/-- What calls make of a context in so many steps: it has taken them, or it has finished after them. -/
def Progress (c : Context) (n : Nat) (d : Context) : Prop :=
  ∃ e, c.advances n = some e ∧
    (d.untagged = e.untagged ∨ e.phase ≠ .errored ∧ e.control.isEmpty = true ∧ d = e.finish)

theorem Progress.steps (h : c.Progress n d) : d.steps = c.steps + n := by
  obtain ⟨e, ha, ht | ⟨-, -, rfl⟩⟩ := h
  · rw [← steps_of_advances ha, eq_of_untagged ht.symm]
  · rw [e.steps_finish]
    exact steps_of_advances ha

theorem progress_refl (c : Context) : c.Progress 0 c := ⟨c, rfl, .inl rfl⟩

theorem Ends.progress {changed : Nat} (ha : c.advances n = some e) (h : Ends limits taken changed e outcome d) :
    c.Progress n d := by
  cases h with
  | finished sound done => exact ⟨e, ha, .inr ⟨sound, done, rfl⟩⟩
  | failed errored => exact ⟨_, ha, .inl rfl⟩
  | spent sound limited reached => exact ⟨e, ha, .inl (untagged_withPhase sound rfl)⟩
  | changed sound limited reached => exact ⟨e, ha, .inl (untagged_withPhase sound rfl)⟩

theorem progress_step (c : Context) : ∃ n, c.Progress n c.step.2 := by
  simp only [step]
  split
  · exact ⟨0, c.progress_refl⟩
  · next ht =>
    have hp : c.phase ≠ .errored := by
      intro he
      rw [he] at ht
      exact ht rfl
    cases ha : c.advance? with
    | none => exact ⟨0, c, rfl, .inr ⟨hp, isEmpty_of_advance?_eq_none ha, rfl⟩⟩
    | some next => exact ⟨1, next.2, advances_one hp ha, .inl rfl⟩

theorem Settled.progress_run (h : c.Settled) (hr : c.runWithin bound limits = some (outcome, d)) :
    ∃ n, c.Progress n d := by
  simp only [runWithin] at hr
  split at hr
  · cases hr
    exact ⟨0, c.progress_refl⟩
  · next hp =>
    obtain ⟨n, e, ha, hends, -⟩ := runFrom_ends hp (fun hf => (h hf).1) hr
    exact ⟨n, hends.progress ha⟩

/-- Progress from where calls have come to is progress from where they started. -/
theorem Progress.trans (h : c.Progress n d) (hs : d.Settled) (h' : d.Progress k e) : ∃ m, c.Progress m e := by
  obtain ⟨c', hc', htag | ⟨hp, hn, rfl⟩⟩ := h
  · obtain ⟨d', hd', hend⟩ := h'
    have hmap := advances_of_untagged htag k
    rw [hd'] at hmap
    obtain ⟨e', he', htag'⟩ := Option.map_eq_some_iff.mp hmap.symm
    refine ⟨n + k, e', ?_, ?_⟩
    · rw [advances_add, hc']
      exact he'
    · rcases hend with hend | ⟨hp, hn, rfl⟩
      · exact .inl (hend.trans htag'.symm)
      · refine .inr ⟨fun he => hp ((errored_iff_of_untagged htag').mp he), ?_, finish_of_untagged htag'.symm⟩
        rw [eq_of_untagged htag'] at hn
        exact hn
  · -- the calls so far have finished, so the ones that follow take no step and settle what is settled
    obtain ⟨hn', hself⟩ := hs rfl
    obtain ⟨d', hd', hend⟩ := h'
    obtain ⟨-, rfl⟩ := eq_of_advances hn' hd'
    refine ⟨n, c', hc', .inr ⟨hp, hn, ?_⟩⟩
    rcases hend with hend | ⟨-, -, rfl⟩
    · rcases untagged_cases hend with hd | ⟨-, hterminal, -⟩
      · exact hd.symm
      · cases hterminal
    · exact hself

theorem Continued.reachable {s : Setup} {run : RunId} (hr : s.Reachable run c) (h : c.Continued d) :
    s.Reachable run d := by
  induction h with
  | refl => exact hr
  | call _ _ h ih => exact .called ih h

theorem Continued.progress {s : Setup} {run : RunId} (hr : s.Reachable run c) (h : c.Continued d) :
    ∃ n, c.Progress n d := by
  induction h with
  | refl => exact ⟨0, c.progress_refl⟩
  | @call d e call reply before goesOn h ih =>
    obtain ⟨n, hn⟩ := ih
    have hs : d.Settled := (settled_invariant.reachable (before.reachable hr)).2
    cases call with
    | load program => exact goesOn.elim
    | step =>
      cases h
      obtain ⟨k, hk⟩ := d.progress_step
      exact hn.trans hs hk
    | run limits bound =>
      obtain ⟨⟨outcome, d'⟩, hrun, he⟩ := Option.map_eq_some_iff.mp h
      cases he
      obtain ⟨k, hk⟩ := hs.progress_run hrun
      exact hn.trans hs hk

/-- After equally many steps calls have come to the same, unless one of them has finished. -/
theorem Progress.unique {d₁ d₂ : Context} (h₁ : c.Progress n d₁) (h₂ : c.Progress n d₂)
    (hn₁ : d₁.control.isEmpty = false) (hn₂ : d₂.control.isEmpty = false) : d₁.untagged = d₂.untagged := by
  have hopen : ∀ {d e : Context}, d.control.isEmpty = false →
      (d.untagged = e.untagged ∨ e.phase ≠ .errored ∧ e.control.isEmpty = true ∧ d = e.finish) →
        d.untagged = e.untagged := by
    rintro d e hn (ht | ⟨-, he, rfl⟩)
    · exact ht
    · rw [show e.finish.control = e.control from e.control_settle, he] at hn
      cases hn
  obtain ⟨e₁, ha₁, ht₁⟩ := h₁
  obtain ⟨e₂, ha₂, ht₂⟩ := h₂
  obtain rfl := Option.some.inj (ha₁.symm.trans ha₂)
  exact (hopen hn₁ ht₁).trans (hopen hn₂ ht₂).symm

/-! Runs without limits -/

theorem runFrom_counters (bound taken changes taken' changes' : Nat) (c : Context) :
    c.runFrom {} bound taken changes = c.runFrom {} bound taken' changes' := by
  induction bound generalizing c taken changes taken' changes' with
  | zero => rfl
  | succ bound ih =>
    simp only [runFrom, stepLimit?, envLimit?]
    split
    · rfl
    · cases c.advance? with
      | none => rfl
      | some next =>
        dsimp only
        split
        · rfl
        · exact ih _ _ _ _ _

theorem runFrom_advance {item : Item} (ha : c.advance? = some (item, d)) (bound : Nat) :
    c.runFrom {} (bound + 1) 0 0 =
      if d.phase = .errored then some (d.errorOutcome, d) else d.runFrom {} bound 0 0 := by
  have hn : c.control.isEmpty = false := by
    cases he : c.control.isEmpty with
    | false => rfl
    | true => cases (advance?_eq_none he).symm.trans ha
  simp only [runFrom, hn, Bool.false_eq_true, if_false, stepLimit?, ha, envLimit?]
  split
  · rfl
  · exact runFrom_counters _ _ _ _ _ _

theorem runFrom_finished (hn : c.control.isEmpty = true) (limits : Limits) (bound taken changes : Nat) :
    c.runFrom limits (bound + 1) taken changes = some (c.finish.finishedOutcome, c.finish) := by
  simp only [runFrom, hn, if_true]

theorem runFrom_mono (h : c.runFrom {} bound 0 0 = some (outcome, d)) :
    c.runFrom {} (bound + 1) 0 0 = some (outcome, d) := by
  induction bound generalizing c with
  | zero => cases h
  | succ bound ih =>
    cases hn : c.control.isEmpty with
    | true =>
      rw [runFrom_finished hn] at h ⊢
      exact h
    | false =>
      cases ha : c.advance? with
      | none =>
        rw [isEmpty_of_advance?_eq_none ha] at hn
        cases hn
      | some next =>
        rw [runFrom_advance ha] at h ⊢
        split at h
        · next he => rw [if_pos he, h]
        · next he =>
          rw [if_neg he]
          exact ih h

/-- A run that ends passes through all contexts that steps lead to. -/
theorem runFrom_of_advances (ha : c.advances n = some e) (hp : c.phase ≠ .errored)
    (h : c.runFrom {} bound 0 0 = some (outcome, d)) :
    e.phase = .errored ∧ outcome = e.errorOutcome ∧ d = e ∨
      e.phase ≠ .errored ∧ e.runFrom {} bound 0 0 = some (outcome, d) := by
  induction n generalizing c bound with
  | zero =>
    cases ha
    exact .inr ⟨hp, h⟩
  | succ n ih =>
    simp only [advances, hp, if_false] at ha
    obtain ⟨next, hnext, hn⟩ := Option.bind_eq_some_iff.mp ha
    cases bound with
    | zero => cases h
    | succ bound =>
      rw [runFrom_advance hnext] at h
      split at h
      · next he =>
        cases h
        cases n with
        | zero =>
          cases hn
          exact .inl ⟨he, rfl, rfl⟩
        | succ n =>
          simp only [advances, he, if_true] at hn
          cases hn
      · next he =>
        rcases ih hn he h with herr | ⟨he', hrun⟩
        · exact .inl herr
        · exact .inr ⟨he', runFrom_mono hrun⟩

theorem runFrom_of_untagged (h : c.untagged = d.untagged) (bound : Nat) :
    c.runFrom {} bound 0 0 = d.runFrom {} bound 0 0 := by
  cases bound with
  | zero => rfl
  | succ bound =>
    simp only [runFrom, stepLimit?, envLimit?, countChange, advance?_of_untagged h, finish_of_untagged h]
    rw [eq_of_untagged h]
    rfl

/-- An unlimited run ends as it would have without the calls before it. -/
theorem Progress.run {outcome : Outcome} {final : Context} (hp : c.phase ≠ .errored) (hs : d.Settled)
    (h : c.runWithin bound {} = some (outcome, final)) (hd : c.Progress n d) :
    d.runWithin bound {} = some (outcome, final) := by
  simp only [runWithin, hp, if_false] at h
  obtain ⟨e, ha, hend⟩ := hd
  rcases runFrom_of_advances ha hp h with ⟨he, rfl, rfl⟩ | ⟨he, hrun⟩
  · rcases hend with ht | ⟨hne, -⟩
    · have hd := (errored_iff_of_untagged ht).mpr he
      rcases untagged_cases ht with rfl | ⟨hterminal, -⟩
      · simp only [runWithin, he, if_true]
      · rw [hd] at hterminal
        cases hterminal
    · exact absurd he hne
  · rcases hend with ht | ⟨-, hn, rfl⟩
    · have hd : d.phase ≠ .errored := fun hd => he ((errored_iff_of_untagged ht).mp hd)
      simp only [runWithin, hd, if_false]
      rw [runFrom_of_untagged ht]
      exact hrun
    · cases bound with
      | zero => cases hrun
      | succ bound =>
        obtain ⟨hn', hself⟩ := hs rfl
        rw [runFrom_finished hn] at hrun
        have hphase : e.finish.phase ≠ .errored := by simp [finish]
        simp only [runWithin, hphase, if_false]
        rw [runFrom_finished hn', hself]
        exact hrun

/-- If a run without limits ends, so does every run with limits. -/
theorem runFrom_isSome (h : (c.runFrom {} bound 0 0).isSome) (limits : Limits) (taken changes : Nat) :
    (c.runFrom limits bound taken changes).isSome := by
  induction bound generalizing c taken changes with
  | zero => cases h
  | succ bound ih =>
    cases hn : c.control.isEmpty with
    | true =>
      rw [runFrom_finished hn]
      rfl
    | false =>
      cases ha : c.advance? with
      | none =>
        rw [isEmpty_of_advance?_eq_none ha] at hn
        cases hn
      | some next =>
        rw [runFrom_advance ha] at h
        simp only [runFrom, hn, Bool.false_eq_true, if_false, ha]
        split
        · rfl
        · split
          · rfl
          · next he =>
            split
            · rfl
            · rw [if_neg he] at h
              exact ih h _ _

/-- Runs of the context may be cut and continued at will. -/
structure Resumable (c : Context) : Prop where
  /-- Calls that have taken equally many steps, and left something on Control, have come to the same. -/
  same : ∀ d₁ d₂, c.Continued d₁ → c.Continued d₂ → d₁.steps = d₂.steps →
    d₁.control.isEmpty = false → d₂.control.isEmpty = false → d₁.untagged = d₂.untagged ∧ d₁.output = d₂.output
  /-- If a run without limits ends, then so it does after any calls, which end too. -/
  ends : ∀ bound outcome final, c.runWithin bound {} = some (outcome, final) → ∀ d, c.Continued d →
    d.runWithin bound {} = some (outcome, final) ∧ ∀ limits, (d.runWithin bound limits).isSome
  /-- A step limit is reached with exactly so many steps. -/
  stepLimit : ∀ bound limits limit taken d, c.runWithin bound limits = some (.suspended (.stepLimit limit) taken, d) →
    limits.steps = some limit ∧ taken = limit ∧ d.steps = c.steps + limit
  /-- Before each step fewer than the limit have changed the environment, and a run that the limit stops
  ends with the step that reaches it. -/
  envLimit : ∀ bound limits limit outcome d, limits.envSteps = some limit → 1 ≤ limit →
    c.runWithin bound limits = some (outcome, d) → ∃ n, d.steps = c.steps + n ∧ (∀ m < n, c.envChanges m < limit) ∧
      ∀ reached taken, outcome = .suspended (.envSteps reached) taken → reached = limit ∧ taken = n ∧ c.envChanges n = limit
  /-- A finished context stays as it is, and what it answers does too. -/
  finished : ∀ bound limits value text d, c.runWithin bound limits = some (.finished value text, d) →
    ∀ bound limits, d.runWithin (bound + 1) limits = some (.finished value text, d)
  again : c.phase = .finished → ∀ bound limits, c.runWithin (bound + 1) limits = some (c.finishedOutcome, c)

theorem Settled.runWithin_finished (h : c.Settled) (hf : c.phase = .finished) (bound : Nat) (limits : Limits) :
    c.runWithin (bound + 1) limits = some (c.finishedOutcome, c) := by
  obtain ⟨hn, hself⟩ := h hf
  have hp : c.phase ≠ .errored := by
    rw [hf]
    exact nofun
  simp only [runWithin, hp, if_false]
  rw [runFrom_finished hn, hself]

/-! What runs of sound contexts take -/

theorem runWithin_ends (hp : c.phase ≠ .errored) (hs : c.Settled) (h : c.runWithin bound limits = some (outcome, d)) :
    ∃ n e, c.advances n = some e ∧ Ends limits n (c.envChanges n) e outcome d ∧ Unreached limits 0 0 n c := by
  simp only [runWithin, hp, if_false] at h
  have hends := runFrom_ends hp (fun hf => (hs hf).1) h
  simpa only [Nat.zero_add] using hends

theorem runWithin_stepLimit {limit taken : Nat} (hp : c.phase ≠ .errored) (hs : c.Settled)
    (h : c.runWithin bound limits = some (.suspended (.stepLimit limit) taken, d)) :
    limits.steps = some limit ∧ taken = limit ∧ d.steps = c.steps + limit := by
  obtain ⟨n, e, ha, hends, hbelow⟩ := runWithin_ends hp hs h
  have hprogress := (hends.progress ha).steps
  generalize hout : Outcome.suspended (.stepLimit limit) taken = outcome at hends
  cases hends with
  | spent sound limited reached =>
    cases hout
    have hn : ¬limit < taken := by
      intro hlt
      have := hbelow.steps limit hlt limit limited
      omega
    refine ⟨limited, ?_, ?_⟩ <;> omega
  | _ => cases hout

theorem runWithin_envLimit {limit : Nat} (hp : c.phase ≠ .errored) (hs : c.Settled) (hl : limits.envSteps = some limit)
    (hpos : 1 ≤ limit) (h : c.runWithin bound limits = some (outcome, d)) :
    ∃ n, d.steps = c.steps + n ∧ (∀ m < n, c.envChanges m < limit) ∧
      ∀ reached taken, outcome = .suspended (.envSteps reached) taken →
        reached = limit ∧ taken = n ∧ c.envChanges n = limit := by
  obtain ⟨n, e, ha, hends, hbelow⟩ := runWithin_ends hp hs h
  have hbefore : ∀ m < n, c.envChanges m < limit := by
    intro m hm
    have := hbelow.envSteps limit hl hpos m hm
    omega
  refine ⟨n, (hends.progress ha).steps, hbefore, fun reached taken hout => ?_⟩
  cases hends with
  | @changed limit' sound limited reached' =>
    cases hout
    obtain rfl := Option.some.inj (hl.symm.trans limited)
    refine ⟨rfl, rfl, ?_⟩
    cases n with
    | zero =>
      have : c.envChanges 0 = 0 := rfl
      omega
    | succ k =>
      -- a single step changes the environment at most once
      have := hbefore k (Nat.lt_succ_self k)
      have := c.envChanges_succ_le k
      omega
  | _ => cases hout

theorem runWithin_finished {value : Value} {text : String} (hp : c.phase ≠ .errored) (hs : c.Settled)
    (h : c.runWithin bound limits = some (.finished value text, d)) :
    d.phase = .finished ∧ d.finishedOutcome = .finished value text := by
  obtain ⟨n, e, -, hends, -⟩ := runWithin_ends hp hs h
  generalize hout : Outcome.finished value text = outcome at hends
  cases hends with
  | finished sound done => exact ⟨rfl, rfl⟩
  | _ => cases hout

theorem runWithin_isSome (h : (c.runWithin bound {}).isSome) (limits : Limits) : (c.runWithin bound limits).isSome := by
  simp only [runWithin] at h ⊢
  split
  · rfl
  · next hp =>
    rw [if_neg hp] at h
    exact runFrom_isSome h limits 0 0

end Context

/-- However a run of a context that has not failed is cut into calls, it comes to the same. -/
theorem Setup.reachable_resumable {s : Setup} {run : RunId} {c : Context} (h : s.Reachable run c)
    (hp : c.phase ≠ .errored) : c.Resumable := by
  have hsettled : ∀ {d}, s.Reachable run d → d.Settled := fun hd => (Context.settled_invariant.reachable hd).2
  constructor
  · intro d₁ d₂ h₁ h₂ hsteps hn₁ hn₂
    obtain ⟨n₁, hp₁⟩ := h₁.progress h
    obtain ⟨n₂, hp₂⟩ := h₂.progress h
    obtain rfl : n₁ = n₂ := by
      have := hp₁.steps
      have := hp₂.steps
      omega
    have htag := hp₁.unique hp₂ hn₁ hn₂
    refine ⟨htag, ?_⟩
    rw [Context.eq_of_untagged htag]
  · intro bound outcome final hrun d hd
    obtain ⟨n, hn⟩ := hd.progress h
    have hrun' := hn.run hp (hsettled (hd.reachable h)) hrun
    exact ⟨hrun', Context.runWithin_isSome (Option.isSome_of_mem hrun')⟩
  · exact fun bound limits limit taken d hrun => Context.runWithin_stepLimit hp (hsettled h) hrun
  · exact fun bound limits limit outcome d hl hpos hrun => Context.runWithin_envLimit hp (hsettled h) hl hpos hrun
  · intro bound limits value text d hrun bound' limits'
    obtain ⟨hf, hout⟩ := Context.runWithin_finished hp (hsettled h) hrun
    rw [← hout]
    exact (hsettled (h.ran hrun)).runWithin_finished hf bound' limits'
  · exact fun hf => (hsettled h).runWithin_finished hf

theorem Setup.reachable_resumable_literal :
    ∃ c, Setup.Reachable {} ⟨0⟩ c ∧ c.phase ≠ .errored ∧ (c.runWithin 2 {}).isSome = true ∧ c.Resumable := by
  have hstart : Setup.Reachable {} ⟨0⟩ (.fresh ⟨0⟩) := .started (newContext_eq none 0 ⟨0⟩)
  have hload := hstart.loaded (.literal ⟨0, 1⟩ (.int 1))
  have hphase : ((Context.fresh ⟨0⟩).load (.literal ⟨0, 1⟩ (.int 1))).phase ≠ .errored := nofun
  refine ⟨_, hload, hphase, ?_, reachable_resumable hload hphase⟩
  rfl

end CseMachine
