import CseMachine.Proofs.Safety.Steps

/-!
# Runs are safe

Without collections every step and every run, under any limits, leads from a
healthy context to a healthy one: its errors are regular, and unless it failed it
can run.
-/
namespace CseMachine

variable {c d : Context}

namespace Context

structure Healthy (c : Context) : Prop where
  regular : ∀ e ∈ c.errors, e.cause.Regular
  running : c.phase ≠ .errored → c.Running
  finished : c.phase = .finished → c.control = .ofItems []
  failed : c.phase = .errored → c.errors ≠ []

/-- Nothing is left to run and one value is on the Stash. -/
theorem Runs.height_eq_one (h : c.Runs []) : c.height = 1 := by
  cases h.expects with
  | fits ret env hcur hf => exact hf.2

/-- The context can be loaded with a program. -/
structure Loadable (c : Context) : Prop where
  regular : ∀ e ∈ c.errors, e.cause.Regular
  phase : c.phase ≠ .errored
  sound : c.Sound
  control : c.control = .ofItems []

theorem load_ne_errored {program : Node} (hp : c.phase ≠ .errored) : (c.load program).phase ≠ .errored := by
  simp only [load]
  rw [if_neg hp]
  exact nofun

/-- A program is the only item of an empty Control that it is put on. -/
theorem load_eq {program : Node} (hp : c.phase ≠ .errored) (hc : c.control = .ofItems []) (hs : program.ScopedProgram) :
    c.load program =
      { c with stash := Stack.empty, control := .ofItems [.node program false], phase := .idle } := by
  have hf : Variant.standard.shape (.node program false) = .node program false := by
    cases program with
    | program => rfl
    | _ => exact hs.elim
  have hpush : c.control.pushNode program = .ofItems [.node program false] := by
    have hpush := Variant.standard.push_ofItems (.node program false) []
    rw [hf] at hpush
    rw [hc]
    exact hpush
  simp only [load]
  rw [if_neg hp, hpush]

theorem Loadable.load_eq {program : Node} (h : c.Loadable) (hs : program.ScopedProgram) : c.load program =
    { c with stash := Stack.empty, control := .ofItems [.node program false], phase := .idle } :=
  Context.load_eq h.phase h.control hs

theorem Loadable.load {program : Node} (h : c.Loadable) (hs : program.ScopedProgram) :
    (c.load program).Healthy := by
  rw [h.load_eq hs]
  refine ⟨h.regular, fun _ => ⟨_, rfl, ?_, List.nil_sublist _, .starts hs rfl⟩, nofun, nofun⟩
  exact ⟨h.sound.memory, (fun _ h => nomatch h), h.sound.program⟩

theorem Healthy.loadable (h : c.Healthy) (hp : c.phase = .finished) : c.Loadable := by
  have hne : c.phase ≠ .errored := by
    rw [hp]
    exact nofun
  obtain ⟨items, hc, hr⟩ := h.running hne
  exact ⟨h.regular, hne, hr.sound, h.finished hp⟩

theorem Healthy.suspend (h : c.Healthy) (hp : c.phase ≠ .errored) (reason : SuspendReason) (taken : Nat) :
    (c.suspend reason taken).2.Healthy := by
  obtain ⟨items, hc, hr⟩ := h.running hp
  exact ⟨h.regular, fun _ => ⟨items, hc, hr.congr rfl rfl rfl rfl⟩, nofun, nofun⟩

end Context

/-- What an outcome says of the context that the run leaves. -/
def Outcome.Leaves (o : Outcome) (d : Context) : Prop :=
  match o with
  | .finished .. => d.phase = .finished
  | .suspended .. => d.phase = .suspended
  | .error e => d.phase = .errored ∧ d.error? = some e

namespace Variant

variable (v : Variant)

theorem advance?_healthy (h : c.Healthy) (hp : c.phase ≠ .errored) {item : Item}
    (ha : v.hoarding.advance? c = some (item, d)) :
    d.Healthy ∧ (d.phase = .running ∨ d.phase = .errored) := by
  obtain ⟨items, hc, hr⟩ := h.running hp
  cases items with
  | nil =>
    rw [advance?_nil _ hc] at ha
    cases ha
  | cons first rest =>
    have hsafe := execute_safe v (c := c.taking rest) (hr.congr rfl rfl rfl rfl) rfl
    have hbooks := v.keepsBooks_execute first (c.taking rest)
    rw [v.advance?_cons hc] at ha
    cases he : v.execute first (c.taking rest) with
    | ok _ next =>
      rw [he] at ha hsafe hbooks
      cases ha
      have herrors : d.errors = c.errors := congrArg Context.Books.errors hbooks
      have hphase : d.phase = .running := congrArg Context.Books.phase hbooks
      refine ⟨⟨herrors ▸ h.regular, fun _ => hsafe, ?_, ?_⟩, .inl hphase⟩
      · rw [hphase]
        exact nofun
      · rw [hphase]
        exact nofun
    | error e next =>
      rw [he] at ha hsafe hbooks
      cases ha
      have herrors : next.errors = c.errors := congrArg Context.Books.errors hbooks
      refine ⟨⟨fun e' hmem => ?_, fun hn => absurd rfl hn, nofun, fun _ => ?_⟩, .inr rfl⟩
      · rcases List.mem_append.mp hmem with hmem | hmem
        · exact h.regular e' (herrors ▸ hmem)
        · obtain rfl := List.mem_singleton.mp hmem
          exact hsafe
      · exact List.append_ne_nil_of_right_ne_nil _ (List.cons_ne_nil _ _)

/-- The program's environment is current again, or still. -/
theorem unwindTo_sound {run : RunId} {m : Memory} (h : m.Sound run) {target : EnvId}
    (ht : target.index < m.nextEnv) : (m.unwindTo target).2.Sound run ∧ m.Grows (m.unwindTo target).2 := by
  unfold Memory.unwindTo
  dsimp only
  generalize hk : (m.active.reverse.take _).reverse = kept
  have hsub : ∀ id ∈ kept, id.index < m.nextEnv := by
    intro id hi
    rw [← hk] at hi
    exact h.activePresent id (List.mem_reverse.mp (List.mem_of_mem_take (List.mem_reverse.mp hi)))
  apply h.withActive
  · split
    · next hhead =>
      rintro rfl
      cases hhead
    · exact List.cons_ne_nil _ _
  · split
    · exact hsub
    · intro id hi
      rcases List.mem_cons.mp hi with rfl | hi
      · exact ht
      · exact hsub id hi

/-- Settling makes the program's environment current, if there is a program, and changes nothing else that
can be seen. -/
theorem finish_eq (c : Context) : ∃ m m', v.hoarding.finish c = { c with memory := m', phase := .finished } ∧
    Memory.AgreeOn .all m m' ∧
      (m = c.memory ∨ ∃ program, c.programEnv = some program ∧ m = (c.memory.unwindTo program).2) := by
  have hu : ∃ m m', unwind c = { c with memory := m' } ∧ Memory.AgreeOn .all m m' ∧
      (m = c.memory ∨ ∃ program, c.programEnv = some program ∧ m = (c.memory.unwindTo program).2) := by
    simp only [unwind]
    split
    · next program hp =>
      obtain ⟨m', hk, ha⟩ := Context.keepResult_eq { c with memory := (c.memory.unwindTo program).2 } program
        (c.memory.unwindTo program).1
      exact ⟨_, m', hk, ha, .inr ⟨program, hp, rfl⟩⟩
    · exact ⟨c.memory, c.memory, rfl, .refl _ _, .inl rfl⟩
  obtain ⟨m, m', hm, ha, hcases⟩ := hu
  refine ⟨m, m', ?_, ha, hcases⟩
  simp only [finish]
  rw [hm]
  rfl

theorem finish_healthy (h : c.Healthy) (hp : c.phase ≠ .errored) (hc : c.control = .ofItems []) :
    (v.hoarding.finish c).Healthy ∧ (v.hoarding.finish c).phase = .finished := by
  obtain ⟨items, hc', hr⟩ := h.running hp
  obtain rfl : items = [] := by
    have hi := hc.symm.trans hc'
    exact (congrArg (fun k : Control => k.items.items) hi).symm
  obtain ⟨m, m', hf, ha, hcases⟩ := v.finish_eq c
  have hm : m.Sound c.run ∧ c.memory.Grows m := by
    rcases hcases with rfl | ⟨program, hprog, rfl⟩
    · exact ⟨hr.sound.memory, .refl _⟩
    · exact unwindTo_sound hr.sound.memory (hr.sound.program program hprog)
  obtain ⟨hs, hg⟩ := hm.1.congr ha
  rw [hf]
  refine ⟨⟨h.regular, fun _ => ⟨[], hc, ?_, List.nil_sublist _, ?_⟩, fun _ => hc, nofun⟩, rfl⟩
  · have hs' := hr.sound.withMemory hs (hm.2.trans hg)
    exact ⟨hs'.memory, hs'.values, hs'.program⟩
  · exact .fits none none (fun _ h => nomatch h) ⟨rfl, hr.height_eq_one⟩

theorem step_healthy (h : c.Healthy) : (v.hoarding.step c).2.Healthy := by
  simp only [step]
  split
  · exact h
  · next hterm =>
    have hp : c.phase ≠ .errored := by
      intro hp
      rw [hp] at hterm
      exact hterm rfl
    cases ha : v.hoarding.advance? c with
    | some taken => exact (v.advance?_healthy h hp ha).1
    | none =>
      obtain ⟨items, hc, hr⟩ := h.running hp
      cases items with
      | nil => exact (v.finish_healthy h hp hc).1
      | cons item rest =>
        rw [v.advance?_cons hc] at ha
        split at ha <;> cases ha

theorem runFrom_healthy (limits : Limits) {bound taken changes : Nat} {o : Outcome} (h : c.Healthy)
    (hp : c.phase ≠ .errored) (hr : v.hoarding.runFrom limits bound taken changes c = some (o, d)) :
    d.Healthy ∧ o.Leaves d ∧ (limits = {} → d.phase ≠ .suspended) := by
  induction bound generalizing taken changes c with
  | zero => cases hr
  | succ bound ih =>
    obtain ⟨items, hc, hruns⟩ := h.running hp
    simp only [runFrom] at hr
    split at hr
    · next hempty =>
      cases hr
      obtain rfl : items = [] := by
        rw [hc] at hempty
        exact List.isEmpty_iff.mp hempty
      obtain ⟨hf, hphase⟩ := v.finish_healthy h hp hc
      refine ⟨hf, hphase, fun _ => ?_⟩
      rw [hphase]
      rintro ⟨⟩
    · split at hr
      · next reason hs =>
        cases hr
        refine ⟨h.suspend hp reason taken, rfl, fun hl => ?_⟩
        subst hl
        cases hs
      · cases ha : v.hoarding.advance? c with
        | none =>
          rw [ha] at hr
          cases hr
        | some next =>
          obtain ⟨item, next⟩ := next
          obtain ⟨hnext, hphase⟩ := v.advance?_healthy h hp ha
          rw [ha] at hr
          dsimp only at hr
          split at hr
          · next he =>
            cases hr
            refine ⟨hnext, ⟨he, ?_⟩, fun _ => ?_⟩
            · obtain ⟨e, rest, herrors⟩ := List.exists_cons_of_ne_nil (hnext.failed he)
              simp only [Context.error?]
              rw [herrors]
              rfl
            · rw [he]
              rintro ⟨⟩
          · next hne =>
            split at hr
            · next reason hl =>
              cases hr
              refine ⟨hnext.suspend hne reason (taken + 1), rfl, fun hlim => ?_⟩
              subst hlim
              cases hl
            · exact ih hnext hne hr

end Variant
end CseMachine
