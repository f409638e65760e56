import CseMachine.Proofs.Resumption

/-!
# The life of a context

A context fails at most once, and from then on it only repeats its error. A finished
context stays as it is until another program is loaded. The steps are counted as the
items are executed, one for each, whatever calls they are executed by.
-/
namespace CseMachine

/-- The answer of a context that has failed. -/
def Call.refused (e : EvalError) : Call → Reply
  | .load _ => .loaded
  | .step => .stepped none
  | .run _ _ => .ran (.error e)

namespace Context

variable {c d e : Context} {call : Call} {reply : Reply} {item : Item} {items : List Item} {n : Nat}

/-- The replies to calls in turn, and the context that the last of them leaves. -/
def performs (c : Context) : List Call → Option (List Reply × Context)
  | [] => some ([], c)
  | call :: calls =>
    (c.perform call).bind fun (reply, d) => (d.performs calls).map fun (replies, e) => (reply :: replies, e)

/-- The records of an iteration over steps that is dropped after so many, unless it has ended before. -/
def stepper : Nat → Context → List StepRecord × Context
  | 0, c => ([], c)
  | n + 1, c =>
    match c.step with
    | (some record, d) => (record :: (stepper n d).1, (stepper n d).2)
    | (none, d) => ([], d)

/-- Items are taken off Control and executed one after the other. -/
inductive Executes : Context → List Item → Context → Prop
  | none {c : Context} : Executes c [] c
  | next {c d e : Context} {item : Item} {items : List Item} (sound : c.phase ≠ .errored)
      (taken : c.advance? = some (item, d)) (rest : Executes d items e) : Executes c (item :: items) e

/-- What a call does: which items it executes, what it replies and what it leaves. -/
inductive Does (c : Context) : Call → List Item → Reply → Context → Prop
  | loads (program : Node) : Does c (.load program) [] .loaded (c.load program)
  | rests (terminal : c.phase.isTerminal = true) : Does c .step [] (.stepped none) c
  | finishes (more : c.phase.isTerminal = false) (done : c.control.isEmpty = true) :
      Does c .step [] (.stepped none) c.finish
  | steps {d : Context} {item : Item} (more : c.phase.isTerminal = false) (taken : c.advance? = some (item, d)) :
      Does c .step [item] (.stepped (some ⟨c.steps, item.describe, d.phase⟩)) d
  | repeats {limits : Limits} {bound : Nat} (errored : c.phase = .errored) :
      Does c (.run limits bound) [] (.ran c.errorOutcome) c
  | runs {limits : Limits} {bound : Nat} {outcome : Outcome} {items : List Item} {e d : Context}
      (sound : c.phase ≠ .errored) (executed : c.Executes items e)
      (ends : Ends limits items.length (c.envChanges items.length) e outcome d) :
      Does c (.run limits bound) items (.ran outcome) d

/-! Counting -/

theorem steps_load (c : Context) (program : Node) : (c.load program).steps = c.steps := by
  simp only [load]
  split <;> rfl

theorem Executes.steps (h : c.Executes items d) : d.steps = c.steps + items.length := by
  induction h with
  | none => rfl
  | next sound taken rest ih =>
    rw [ih, (advance?_books taken).1, List.length_cons]
    omega

theorem executes_of_advances (h : c.advances n = some d) : ∃ items, items.length = n ∧ c.Executes items d := by
  induction n generalizing c with
  | zero =>
    cases h
    exact ⟨[], rfl, .none⟩
  | succ n ih =>
    simp only [advances] at h
    split at h
    · cases h
    · next hp =>
      obtain ⟨⟨item, next⟩, ha, hn⟩ := Option.bind_eq_some_iff.mp h
      obtain ⟨items, rfl, hx⟩ := ih hn
      exact ⟨item :: items, rfl, .next hp ha hx⟩

theorem Ends.steps {limits : Limits} {taken changed : Nat} {outcome : Outcome} (h : Ends limits taken changed e outcome d) :
    d.steps = e.steps := by
  cases h with
  | finished => exact e.steps_finish
  | failed | spent | changed => rfl

theorem Does.steps_eq (h : c.Does call items reply d) : d.steps = c.steps + items.length := by
  cases h with
  | loads program => exact c.steps_load program
  | rests | repeats => rfl
  | finishes => exact c.steps_finish
  | steps more taken => exact (advance?_books taken).1
  | runs sound executed ends => rw [ends.steps, executed.steps]

/-- Every call that ends does one of these things. -/
theorem Settled.does (hs : c.Settled) (h : c.perform call = some (reply, d)) : ∃ items, c.Does call items reply d := by
  cases call with
  | load program =>
    cases h
    exact ⟨[], .loads program⟩
  | step =>
    cases h
    simp only [step]
    split
    · next ht => exact ⟨[], .rests ht⟩
    · next ht =>
      have hmore : c.phase.isTerminal = false := Bool.eq_false_iff.mpr ht
      cases ha : c.advance? with
      | none => exact ⟨[], .finishes hmore (isEmpty_of_advance?_eq_none ha)⟩
      | some next => exact ⟨[next.1], .steps hmore ha⟩
  | run limits bound =>
    obtain ⟨⟨outcome, d'⟩, hr, he⟩ := Option.map_eq_some_iff.mp h
    cases he
    by_cases hp : c.phase = .errored
    · simp only [runWithin, hp, if_true] at hr
      cases hr
      exact ⟨[], .repeats hp⟩
    · obtain ⟨n, e, ha, hends, -⟩ := runWithin_ends hp hs hr
      obtain ⟨items, rfl, hx⟩ := executes_of_advances ha
      exact ⟨items, .runs hp hx hends⟩

/-! Failing -/

/-- A context that has failed holds one error, which is on top of the Stash too and points into a source;
any other context holds none. -/
structure Recorded (c : Context) : Prop where
  sound : c.phase ≠ .errored → c.errors = []
  failed : c.phase = .errored → ∃ error, c.errors = [error] ∧ c.stash.peek? = some (.error error) ∧ error.span.isSome = true

theorem Recorded.congr (h : c.Recorded) (hp : d.phase = c.phase) (he : d.errors = c.errors) (hs : d.stash = c.stash) :
    d.Recorded :=
  ⟨fun hd => he.trans (h.sound (hp ▸ hd)), fun hd => by rw [he, hs]; exact h.failed (hp ▸ hd)⟩

theorem recorded_of_sound (hp : c.phase ≠ .errored) (he : c.errors = []) : c.Recorded := ⟨fun _ => he, fun h => absurd h hp⟩

theorem Recorded.load (h : c.Recorded) (program : Node) : (c.load program).Recorded := by
  simp only [Context.load]
  split
  · exact h
  · next hp => exact recorded_of_sound (fun he => by cases he) (h.sound hp)

theorem recorded_kept : Kept Recorded where
  advanced {c d item} h hp ha := by
    rcases advance?_errors ha with ⟨hd, he⟩ | ⟨hd, error, he, hs, hspan⟩
    · exact recorded_of_sound (by rw [hd]; exact nofun) (he.trans (h.sound hp))
    · refine ⟨fun hne => absurd hd hne, fun _ => ⟨error, ?_, hs, hspan⟩⟩
      rw [he, h.sound hp, List.nil_append]
  finished {c} h hp _ := by
    obtain ⟨m, hm⟩ := c.finish_memory
    rw [hm]
    exact recorded_of_sound nofun (h.sound hp)
  suspended h hp := recorded_of_sound nofun (h.sound hp)

theorem recorded_reachable {s : Setup} {run : RunId} (h : s.Reachable run c) : c.Recorded := by
  refine recorded_kept.reachable (fun _ => recorded_of_sound nofun rfl) (fun _ => recorded_of_sound nofun rfl) (fun hd hf _ => ?_)
    (fun program hd => hd.load program) (fun _ hd => hd.congr rfl rfl rfl) h
  exact recorded_of_sound nofun (hd.sound (by rw [hf]; exact nofun))

namespace Recorded

variable (h : c.Recorded)
include h

theorem of_mem {error : EvalError} (he : error ∈ c.errors) :
    c.phase = .errored ∧ c.errors = [error] ∧ c.stash.peek? = some (.error error) ∧ error.span.isSome = true := by
  by_cases hp : c.phase = .errored
  · obtain ⟨error', herrors, hstash, hspan⟩ := h.failed hp
    rw [herrors] at he
    obtain rfl := List.mem_singleton.mp he
    exact ⟨hp, herrors, hstash, hspan⟩
  · rw [h.sound hp] at he
    cases he

theorem errors_length : c.errors.length = if c.phase = .errored then 1 else 0 := by
  split
  · next hp =>
    obtain ⟨error, herrors, -⟩ := h.failed hp
    rw [herrors]
    rfl
  · next hp =>
    rw [h.sound hp]
    rfl

end Recorded

theorem performs_of_fixed {answer : Call → Reply} (h : ∀ call, c.perform call = some (answer call, c)) (calls : List Call) :
    c.performs calls = some (calls.map answer, c) := by
  induction calls with
  | nil => rfl
  | cons call calls ih =>
    simp only [performs, h, Option.bind_some, ih]
    rfl

theorem perform_refused {error : EvalError} (hp : c.phase = .errored) (he : c.errors = [error]) (call : Call) :
    c.perform call = some (call.refused error, c) := by
  cases call with
  | load program => simp only [perform, load, hp, if_true, Call.refused]
  | step => simp only [perform, step, hp, Phase.isTerminal, if_true, Call.refused]
  | run limits bound =>
    simp only [perform, runWithin, hp, if_true, errorOutcome, error?, he, List.head?_cons, Option.getD_some, Option.map_some,
      Call.refused]

/-! Steps one by one -/

theorem step_of_terminal (h : c.phase.isTerminal = true) : c.step = (none, c) := if_pos h

theorem stepper_of_terminal (h : c.phase.isTerminal = true) (n : Nat) : c.stepper n = ([], c) := by
  cases n with
  | zero => rfl
  | succ n => simp only [stepper, step_of_terminal h]

theorem step_some {record : StepRecord} (h : c.step = (some record, d)) :
    record.index = c.steps ∧ d.steps = c.steps + 1 := by
  simp only [step] at h
  split at h
  · cases h
  · split at h
    · next ha =>
      cases h
      exact ⟨rfl, (advance?_books ha).1⟩
    · cases h

theorem step_none (h : c.step = (none, d)) : d.steps = c.steps ∧ d.phase.isTerminal = true := by
  simp only [step] at h
  split at h
  · next ht =>
    cases h
    exact ⟨rfl, ht⟩
  · split at h
    · cases h
    · cases h
      exact ⟨c.steps_finish, rfl⟩

/-- The records of an iteration are numbered in turn, and it ends early only with the life of the context. -/
structure Numbered (c : Context) (n : Nat) (records : List StepRecord) (d : Context) : Prop where
  indices : records.map (·.index) = List.range' c.steps records.length
  steps : d.steps = c.steps + records.length
  length : records.length ≤ n
  ended : records.length < n → d.phase.isTerminal = true

theorem numbered_stepper (c : Context) (n : Nat) : c.Numbered n (c.stepper n).1 (c.stepper n).2 := by
  induction n generalizing c with
  | zero => exact ⟨rfl, rfl, Nat.le_refl 0, fun h => absurd h (Nat.lt_irrefl 0)⟩
  | succ n ih =>
    simp only [stepper]
    split
    · next record d hstep =>
      obtain ⟨hindex, hsteps⟩ := step_some hstep
      have hd := ih d
      constructor
      · rw [List.map_cons, hd.indices, List.length_cons, List.range'_succ, hindex, hsteps]
      · rw [hd.steps, hsteps, List.length_cons]
        omega
      · exact Nat.succ_le_succ hd.length
      · exact fun h => hd.ended (Nat.lt_of_succ_lt_succ h)
    · next d hstep =>
      obtain ⟨hsteps, hterminal⟩ := step_none hstep
      exact ⟨rfl, hsteps, Nat.zero_le _, fun _ => hterminal⟩

theorem stepper_reachable {s : Setup} {run : RunId} (h : s.Reachable run c) (n : Nat) :
    s.Reachable run (c.stepper n).2 := by
  induction n generalizing c with
  | zero => exact h
  | succ n ih =>
    have hstepped := h.stepped
    simp only [stepper]
    split
    · next hstep =>
      rw [hstep] at hstepped
      exact ih hstepped
    · next hstep =>
      rw [hstep] at hstepped
      exact hstepped

/-! Finishing -/

theorem Settled.continued (h : c.Settled) (hf : c.phase = .finished) (hd : c.Continued d) : d = c := by
  induction hd with
  | refl => rfl
  | @call d e call reply before goesOn hcall ih =>
    subst ih
    cases call with
    | load program => exact goesOn.elim
    | step =>
      cases hcall
      rw [step_of_terminal (by rw [hf]; rfl)]
    | run limits bound =>
      obtain ⟨⟨outcome, d'⟩, hr, he⟩ := Option.map_eq_some_iff.mp hcall
      cases he
      cases bound with
      | zero =>
        simp only [runWithin, hf, reduceCtorEq, if_false] at hr
        cases hr
      | succ bound =>
        rw [h.runWithin_finished hf] at hr
        cases hr
        rfl

/-- A program that was just loaded is not yet executed. -/
theorem step_load (hp : c.phase ≠ .errored) (program : Node) : (c.load program).step.1.isSome = true := by
  have hphase : (c.load program).phase.isTerminal = false := by simp only [load, hp, if_false]; rfl
  simp only [step, hphase, Bool.false_eq_true, if_false]
  cases ha : (c.load program).advance? with
  | none =>
    have hn := isEmpty_of_advance?_eq_none ha
    simp only [load, hp, if_false] at hn
    cases hn
  | some next => rfl

/-- How a context lives, whatever calls have made it and whatever calls follow. -/
structure LifeCycle (c : Context) : Prop where
  /-- It fails at most once, and then it holds the error. -/
  errors : c.errors.length ≤ 1
  errored : c.phase = .errored ↔ c.errors.length = 1
  /-- The error is also on top of the Stash, and it points into a source. -/
  recorded : ∀ error ∈ c.errors, c.stash.peek? = some (.error error) ∧ error.span.isSome = true
  /-- Whatever is called then, nothing changes, and the error is all there is to answer. -/
  refuses : ∀ error ∈ c.errors, ∀ calls, c.performs calls = some (calls.map (Call.refused error), c)
  finished : c.phase = .finished → c.control.isEmpty = true
  /-- Until the next program is loaded a finished context stays as it is and steps yield nothing. -/
  rests : c.phase = .finished → ∀ d, c.Continued d → d = c ∧ d.step = (none, d)
  reopens : c.phase = .finished → ∀ program, (c.load program).step.1.isSome = true
  /-- The counter grows by the number of items that a call executes. -/
  counts : ∀ call reply d, c.perform call = some (reply, d) →
    ∃ items, c.Does call items reply d ∧ d.steps = c.steps + items.length
  /-- So it does under iteration. -/
  iterates : ∀ n, c.Numbered n (c.stepper n).1 (c.stepper n).2
  exhausted : c.phase.isTerminal = true → ∀ n, c.stepper n = ([], c)

theorem Recorded.lifeCycle (h : c.Recorded) (hs : c.Settled) : c.LifeCycle where
  errors := by
    rw [h.errors_length]
    split <;> omega
  errored := by simp [h.errors_length]
  recorded error he := (h.of_mem he).2.2
  refuses error he := by
    obtain ⟨hp, herrors, -⟩ := h.of_mem he
    exact performs_of_fixed (perform_refused hp herrors)
  finished hf := (hs hf).1
  rests hf d hd := by
    rw [hs.continued hf hd]
    exact ⟨rfl, step_of_terminal (by rw [hf]; rfl)⟩
  reopens hf := step_load (by rw [hf]; exact nofun)
  counts call reply d hc := (hs.does hc).imp fun items hd => ⟨hd, hd.steps_eq⟩
  iterates := c.numbered_stepper
  exhausted := stepper_of_terminal

end Context

namespace Setup

/-- All contexts there are live so, and iterations lead to such contexts too. -/
theorem reachable_lifeCycle {s : Setup} {run : RunId} {c : Context} (h : s.Reachable run c) :
    c.LifeCycle ∧ ∀ n, s.Reachable run (c.stepper n).2 :=
  ⟨(Context.recorded_reachable h).lifeCycle (Context.settled_invariant.reachable h).2, Context.stepper_reachable h⟩

/-- A program that reads a name that is nowhere bound. -/
def unboundName : Node := .program ⟨0, 4⟩ [] [.expression ⟨0, 4⟩ (.identifier ⟨0, 4⟩ "nope")]

/-- Its context after the step that fails. -/
def unboundRead : Context := ((Context.fresh ⟨0⟩).load unboundName).step.2.step.2.step.2

theorem reachable_lifeCycle_unboundRead : Reachable {} ⟨0⟩ unboundRead ∧ unboundRead.phase = .errored ∧
    unboundRead.steps = 3 ∧ unboundRead.LifeCycle ∧ ∀ n, Reachable {} ⟨0⟩ (unboundRead.stepper n).2 := by
  have hstart : Reachable {} ⟨0⟩ (.fresh ⟨0⟩) := .started (newContext_eq none 0 ⟨0⟩)
  have hread : Reachable {} ⟨0⟩ unboundRead := (hstart.loaded unboundName).stepped.stepped.stepped
  have hphase : unboundRead.phase = .errored := by decide +kernel
  have hsteps : unboundRead.steps = 3 := by decide +kernel
  exact ⟨hread, hphase, hsteps, reachable_lifeCycle hread⟩

end Setup
end CseMachine
