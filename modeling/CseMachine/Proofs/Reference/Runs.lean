import CseMachine.Proofs.Reference.Programs

/-!
# Runs that end as an evaluation does

A run that does not collect takes the steps of a walk one by one, so it ends as
the evaluation did, and not within as many steps as calls are nested if this is
too deep.
-/
namespace CseMachine

open Control (ofItems)

namespace Variant

variable {v : Variant} {bound taken changes : Nat} {c : Context} {r : Conclusion}

theorem runFrom_unlimited (v : Variant) (bound taken changes : Nat) (c : Context) :
    v.runFrom {} (bound + 1) taken changes c =
      if c.control.isEmpty then some ((v.finish c).finishedOutcome, v.finish c)
      else match v.advance? c with
        | none => none
        | some (_, next) =>
          if next.phase = .errored then some (next.errorOutcome, next)
          else v.runFrom {} bound (taken + 1) changes next := rfl

/-- A run that ends within a bound ends so within any larger one. -/
theorem runFrom_mono {e : Outcome × Context} (h : v.runFrom {} bound taken changes c = some e) (more : Nat) :
    v.runFrom {} (bound + more) taken changes c = some e := by
  induction bound generalizing taken changes c with
  | zero => cases h
  | succ bound ih =>
    rw [Nat.add_right_comm]
    rw [runFrom_unlimited] at h ⊢
    split
    · next hempty => rwa [if_pos hempty] at h
    · next hempty =>
      rw [if_neg hempty] at h
      cases ha : v.advance? c with
      | none =>
        rw [ha] at h
        cases h
      | some next =>
        rw [ha] at h
        dsimp only at h ⊢
        split
        · next he => rwa [if_pos he] at h
        · next he =>
          rw [if_neg he] at h
          exact ih h

theorem conclusion?_eq (hp : c.phase ≠ .errored) (bound : Nat) :
    v.conclusion? c bound = (v.runFrom {} bound 0 0 c).map fun (o, d) => ⟨o.ending, d.output⟩ := by
  simp only [conclusion?, runWithin]
  rw [if_neg hp]

theorem conclusion?_mono (hp : c.phase ≠ .errored) (h : v.conclusion? c bound = some r) (more : Nat) :
    v.conclusion? c (bound + more) = some r := by
  rw [conclusion?_eq hp] at h ⊢
  obtain ⟨e, he, hr⟩ := Option.map_eq_some_iff.mp h
  exact Option.map_eq_some_iff.mpr ⟨e, runFrom_mono he more, hr⟩

/-- Collections do not change how a run ends. -/
theorem conclusion?_hoarding (v : Variant) (c : Context) (bound : Nat) :
    v.conclusion? c bound = v.hoarding.conclusion? c bound := by
  have ha := runWithin_alike v v.afterStep (fun _ => 0) v.atEnd (fun _ => 0) {} bound (.refl c)
  have hv : v.collecting v.afterStep v.atEnd = v := rfl
  have hh : v.collecting (fun _ => 0) (fun _ => 0) = v.hoarding := rfl
  rw [hv, hh] at ha
  simp only [conclusion?]
  cases h₁ : v.runWithin bound {} c with
  | none =>
    cases h₂ : v.hoarding.runWithin bound {} c with
    | none => rfl
    | some e =>
      rw [h₁, h₂] at ha
      exact ha.elim
  | some e =>
    cases h₂ : v.hoarding.runWithin bound {} c with
    | none =>
      rw [h₁, h₂] at ha
      exact ha.elim
    | some e' =>
      rw [h₁, h₂] at ha
      obtain ⟨ho, hd⟩ := ha
      have hout : e.2.output = e'.2.output := congrArg Context.View.output hd.view_eq
      show some (Conclusion.mk e.1.ending e.2.output) = some (Conclusion.mk e'.1.ending e'.2.output)
      rw [ho, hout]

end Variant

namespace Reference

variable {v : Variant} {n depth bound taken changes : Nat} {c d : Context} {w : World} {item : Item}
  {rest : List Item} {r : Conclusion}

/-! The steps of a run -/

theorem executed_books (he : v.execute item (c.taking rest) = .ok () d) :
    d.errors = c.errors ∧ d.phase = .running := by
  have hbooks := v.keepsBooks_execute item (c.taking rest)
  rw [he] at hbooks
  exact ⟨congrArg Context.Books.errors hbooks, congrArg Context.Books.phase hbooks⟩

theorem runFrom_step (hc : c.control = ofItems (item :: rest)) (he : v.execute item (c.taking rest) = .ok () d) :
    v.hoarding.runFrom {} (bound + 1) taken changes c = v.hoarding.runFrom {} bound (taken + 1) changes d := by
  have hphase := (executed_books he).2
  have hempty : c.control.isEmpty = false := by
    rw [hc]
    rfl
  rw [Variant.runFrom_unlimited, hempty, v.advance?_cons hc, he]
  simp only [hphase, reduceCtorEq, Bool.false_eq_true, if_false]

theorem runFrom_walk (h : Walk v n c d) (bound taken changes : Nat) :
    v.hoarding.runFrom {} (n + bound) taken changes c = v.hoarding.runFrom {} bound (taken + n) changes d := by
  induction h generalizing taken with
  | refl c => rw [Nat.zero_add, Nat.add_zero]
  | step hc he _ ih =>
    rw [Nat.add_right_comm, runFrom_step hc he, ih, Nat.add_right_comm, Nat.add_assoc]

theorem walk_errors (h : Walk v n c d) : d.errors = c.errors := by
  induction h with
  | refl => rfl
  | step _ he _ ih => exact ih.trans (executed_books he).1

theorem runFrom_fails {e : EvalError} {output : String} (h : Fails v c e output) (he : c.errors = [])
    (bound taken changes : Nat) : ∃ d, v.hoarding.runFrom {} (bound + 1) taken changes c = some (.error e, d) ∧
      d.output = output := by
  obtain ⟨item, rest, cause, d, hc, hexec, rfl, hout⟩ := h
  have hbooks := v.keepsBooks_execute item (c.taking rest)
  rw [hexec] at hbooks
  have herrors : d.errors = [] := (congrArg Context.Books.errors hbooks).trans he
  have hempty : c.control.isEmpty = false := by
    rw [hc]
    rfl
  refine ⟨d.failWith (cause.withSpan item.span), ?_, hout⟩
  rw [Variant.runFrom_unlimited, hempty, v.advance?_cons hc, hexec]
  have houtcome : (d.failWith (cause.withSpan item.span)).errorOutcome = .error (cause.withSpan item.span) := by
    simp only [Context.errorOutcome, Context.error?, Context.failWith]
    rw [herrors]
    rfl
  have hphase : (d.failWith (cause.withSpan item.span)).phase = .errored := rfl
  simp only [hphase, Bool.false_eq_true, if_false, if_true, houtcome]

/-- Settling neither loses the result nor changes what can be seen of it. -/
theorem finish_shows {x : Value} (hs : c.stash.items = [x]) (hw : Shows c w) :
    (v.hoarding.finish c).finishedOutcome = .finished x (x.repr w.store) ∧
      (v.hoarding.finish c).output = w.output := by
  obtain ⟨m, m', hf, ha, hcases⟩ := v.finish_eq c
  have hmirror : Mirror m w := by
    rcases hcases with rfl | ⟨program, -, rfl⟩
    · exact hw.memory
    · exact hw.memory.withActive _
  have hresult : (v.hoarding.finish c).result = x := by
    rw [hf]
    simp only [Context.result, Stack.peek?]
    rw [hs]
    rfl
  constructor
  · simp only [Context.finishedOutcome]
    rw [hresult, Value.repr_eq (hmirror.congr ha).stores (fun _ _ => trivial), hf]
  · rw [hf]
    exact hw.output

/-! How runs end -/

/-- A run that does not collect comes to what the evaluation comes to. -/
theorem Ends.concludes {result : EStateM.Result Exit World Value} (he : c.errors = []) (hp : c.phase ≠ .errored)
    (h : Ends v depth False c [] [] (fun x => [x]) result) (hr : conclude? result = some r) :
    ∃ bound, v.hoarding.conclusion? c bound = some r := by
  cases result with
  | ok x w =>
    cases hr
    obtain ⟨n, d, hwalk, hd, hs, hw, -⟩ := h
    obtain ⟨ho, hout⟩ := finish_shows (v := v) hs hw
    have hempty : d.control.isEmpty = true := by
      rw [hd]
      rfl
    refine ⟨n + (0 + 1), ?_⟩
    rw [Variant.conclusion?_eq hp, runFrom_walk hwalk, Variant.runFrom_unlimited, if_pos hempty, ho]
    exact congrArg (fun output => some (Conclusion.mk _ output)) hout
  | error exit w =>
    cases exit with
    | failed e =>
      cases hr
      obtain ⟨n, d, hwalk, hf⟩ := h
      obtain ⟨d', hrun, hout⟩ := runFrom_fails hf ((walk_errors hwalk).trans he) 0 (0 + n) 0
      refine ⟨n + (0 + 1), ?_⟩
      rw [Variant.conclusion?_eq hp, runFrom_walk hwalk, hrun]
      exact congrArg (fun output => some (Conclusion.mk _ output)) hout
    | returned x => cases hr
    | tooDeep => cases hr

/-- A run that ends within the depth of calls has an evaluation that ends. -/
theorem Ends.conclude?_isSome {result : EStateM.Result Exit World Value} (hp : c.phase ≠ .errored)
    (h : Ends v depth False c [] [] (fun x => [x]) result) (hr : v.hoarding.conclusion? c depth = some r) :
    ∃ r', conclude? result = some r' := by
  cases result with
  | ok x w => exact ⟨_, rfl⟩
  | error exit w =>
    cases exit with
    | failed e => exact ⟨_, rfl⟩
    | returned x => exact h.1.elim
    | tooDeep =>
      obtain ⟨n, d, hle, hwalk⟩ := h
      obtain ⟨more, rfl⟩ := Nat.exists_eq_add_of_le hle
      have hlater := Variant.conclusion?_mono hp hr more
      rw [Variant.conclusion?_eq hp, ← Nat.add_zero (depth + more), runFrom_walk hwalk] at hlater
      cases hlater

/-- However the machine saves work and collects, it comes to what the evaluation of the program comes to. -/
theorem concludes_iff {program : Node} (hs : program.ScopedProgram) (v : Variant) (run : RunId) (r : Conclusion) :
    (∃ bound, v.conclusion? ((Context.fresh run).load program) bound = some r) ↔
      ∃ depth, conclusion? depth run program = some r := by
  have hload := (Context.fresh_loadable run).load_eq hs
  have hp : ((Context.fresh run).load program).phase ≠ .errored := by
    rw [hload]
    exact nofun
  have he : ((Context.fresh run).load program).errors = [] := by
    rw [hload]
    rfl
  have hends := fun depth => program_ends hs v depth run
  simp only [v.conclusion?_hoarding]
  constructor
  · rintro ⟨bound, hr⟩
    -- calls nested as deep as the run is long
    obtain ⟨r', hr'⟩ := (hends bound).conclude?_isSome hp hr
    obtain ⟨bound', hagain⟩ := (hends bound).concludes he hp hr'
    have hboth := Variant.conclusion?_mono hp hagain bound
    rw [Nat.add_comm, Variant.conclusion?_mono hp hr bound'] at hboth
    cases hboth
    exact ⟨bound, hr'⟩
  · rintro ⟨depth, hr⟩
    exact (hends depth).concludes he hp hr

end Reference
end CseMachine
