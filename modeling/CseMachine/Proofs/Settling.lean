import CseMachine.Proofs.Variant.Frame
import CseMachine.Proofs.WellFormed

/-!
# Finished contexts

Settling after the last item goes back to the program's environment and frees
what cannot be reached. A context that has settled stays as it is when it settles
again, and every finished context has settled with Control empty.
-/
namespace CseMachine

namespace Memory

variable {m : Memory} {target : EnvId}

/-- There is nothing to leave if the target is current. -/
theorem unwindTo_self (h : m.active.head? = some target) (hn : m.active.Nodup) : m.unwindTo target = ([], m) := by
  obtain ⟨below, ha⟩ := List.head?_eq_some_iff.mp h
  have hnot : target ∉ below.reverse := by
    rw [ha] at hn
    exact fun hm => (List.nodup_cons.mp hn).1 (List.mem_reverse.mp hm)
  have hrev : m.active.reverse = below.reverse ++ [target] := by rw [ha, List.reverse_cons]
  have hidx : m.active.reverse.idxOf? target = some below.length := by
    rw [List.idxOf?_eq_some_iff]
    refine ⟨by simp [hrev], by simp [hrev], fun j hj hjt => hnot ?_⟩
    rw [List.getElem_of_eq hrev, List.getElem_append_left (by simpa using hj)] at hjt
    exact hjt ▸ List.getElem_mem _
  have hlen : below.length + 1 = m.active.reverse.length := by simp [hrev]
  simp only [unwindTo, hidx, hlen, List.take_length, List.drop_length, List.reverse_reverse, h, if_true]

theorem head?_unwindTo (m : Memory) (target : EnvId) : (m.unwindTo target).2.active.head? = some target := by
  by_cases hm : target ∈ m.active
  · obtain ⟨below, hu, -⟩ := unwindTo_of_mem hm
    rw [hu]
    rfl
  · rw [unwindTo_of_not_mem hm]
    rfl

end Memory

namespace Context

variable {c d : Context}

theorem keepResult_nil (c : Context) (target : EnvId) : c.keepResult target [] = c := by
  simp only [keepResult]
  split
  · split
    · rfl
    · rfl
  · rfl

/-- The context once it is back in the program's environment. -/
def returned (c : Context) : Context :=
  match c.programEnv with
  | some program => { c with memory := (c.memory.unwindTo program).2 }.keepResult program (c.memory.unwindTo program).1
  | none => c

theorem returned_memory (c : Context) : ∃ m, c.returned = { c with memory := m } := by
  simp only [returned]
  split
  · obtain ⟨m, hk, -⟩ := ({ c with memory := _ } : Context).keepResult_eq _ _
    exact ⟨m, hk⟩
  · exact ⟨c.memory, rfl⟩

/-- Finishing changes the memory and the phase alone. -/
theorem finish_memory (c : Context) : ∃ m, c.finish = { c with memory := m, phase := .finished } := by
  obtain ⟨m, hm⟩ := c.returned_memory
  refine ⟨c.returned.collectGarbage.memory, ?_⟩
  show { c.returned.collectGarbage with phase := .finished } = _
  rw [hm]
  rfl

theorem steps_finish (c : Context) : c.finish.steps = c.steps := by
  obtain ⟨m, hm⟩ := c.finish_memory
  rw [hm]

/-- Handing the result on changes nothing else that evaluation can see. -/
theorem returned_eq {program : EnvId} (hp : c.programEnv = some program) :
    ∃ m, c.returned = { c with memory := m } ∧ Memory.AgreeOn .all (c.memory.unwindTo program).2 m := by
  have hr : c.returned = ({ c with memory := (c.memory.unwindTo program).2 } : Context).keepResult program
      (c.memory.unwindTo program).1 := by
    simp only [returned]
    split
    · next program' hp' =>
      obtain rfl := Option.some.inj (hp.symm.trans hp')
      rfl
    · next hn => cases hp.symm.trans hn
  obtain ⟨m, hk, ha⟩ := ({ c with memory := (c.memory.unwindTo program).2 } : Context).keepResult_eq program
    (c.memory.unwindTo program).1
  exact ⟨m, hr.trans hk, ha⟩

theorem head?_returned {program : EnvId} (hp : c.programEnv = some program) :
    c.returned.memory.active.head? = some program := by
  obtain ⟨m, hr, ha⟩ := returned_eq hp
  rw [hr]
  exact ha.active ▸ Memory.head?_unwindTo c.memory program

theorem active_finish {program : EnvId} (hp : c.programEnv = some program) :
    c.finish.memory.active = (c.memory.unwindTo program).2.active := by
  obtain ⟨m, hr, ha⟩ := returned_eq hp
  show c.returned.collectGarbage.memory.active = _
  rw [hr]
  exact (Memory.agreeOn_collect _ _ _).active.symm.trans ha.active.symm

theorem WellFormed.returned (h : c.WellFormed) : c.returned.WellFormed := by
  simp only [Context.returned]
  split
  · next program hp =>
    have hw := h.memory.unwindTo (h.program program hp)
    exact (h.withMemory hw (Memory.unwindTo_grows c.memory program)).keepResult program _
  · exact h

/-- A context that is in the program's environment stays there. -/
theorem returned_eq_self (h : c.WellFormed)
    (hp : ∀ program, c.programEnv = some program → c.memory.active.head? = some program) : c.returned = c := by
  simp only [returned]
  split
  · next program hprogram =>
    rw [Memory.unwindTo_self (hp program hprogram) h.memory.nodup]
    exact keepResult_nil c program
  · rfl

theorem WellFormed.collectGarbage_collectGarbage (h : c.WellFormed) :
    c.collectGarbage.collectGarbage = c.collectGarbage := by
  have hm := @Memory.Owned.collect_collect _ _ c.rootObjects h.memory.toOwned
    fun _ hk => h.memory.present_of_kept h.roots_present hk
  exact congrArg (fun memory => { c with memory }) hm

/-- Settling twice is settling once. -/
theorem WellFormed.finish_finish (h : c.WellFormed) : c.finish.finish = c.finish := by
  have hr := h.returned
  obtain ⟨m, hm⟩ := c.returned_memory
  have hprogram : c.returned.programEnv = c.programEnv := by rw [hm]
  have hactive : ∀ program, c.finish.programEnv = some program → c.finish.memory.active.head? = some program := by
    intro program hp
    have hh := head?_returned (hprogram ▸ hp : c.programEnv = some program)
    exact (Memory.agreeOn_collect _ _ _).active ▸ hh
  have hself : c.finish.returned = c.finish := by
    refine returned_eq_self ?_ hactive
    exact h.settle.congr rfl (fun _ hw => .inl hw) (fun _ hi => hi) rfl
  have hcollect : c.finish.collectGarbage = c.finish :=
    congrArg (fun d : Context => { d with phase := .finished }) hr.collectGarbage_collectGarbage
  show { c.finish.returned.collectGarbage with phase := .finished } = c.finish
  rw [hself, hcollect]
  rfl

theorem returned_predefining (c : Context) (predefined : Bool) :
    ({ c with predefined } : Context).returned = { c.returned with predefined } := by
  obtain ⟨control, stash, memory, errors, phase, steps, run, predefined', programEnv, output⟩ := c
  cases programEnv with
  | none => rfl
  | some program =>
    simp only [returned, keepResult]
    split
    · split
      · split <;> rfl
      · rfl
    · rfl

/-- A step is counted, and the context runs on or has failed. -/
theorem advance?_books {item : Item} (ha : c.advance? = some (item, d)) :
    d.steps = c.steps + 1 ∧ (d.phase = .running ∨ d.phase = .errored) := by
  obtain ⟨rest, e, -, hx⟩ := advance?_eq_some ha
  have hb := Variant.standard.keepsBooks_execute item (c.taken rest)
  rw [Variant.execute_standard] at hb
  rcases hx with ⟨hx, rfl⟩ | ⟨error, hx, rfl⟩
  · rw [hx] at hb
    have hsteps : e.steps = c.steps + 1 := congrArg Books.steps hb
    have hphase : e.phase = .running := congrArg Books.phase hb
    split
    · exact ⟨hsteps, .inl hphase⟩
    · exact ⟨hsteps, .inl hphase⟩
  · rw [hx] at hb
    exact ⟨congrArg Books.steps hb, .inr rfl⟩

/-- A step that fails adds its error, puts it on the Stash and makes it point into a source; any other leaves the errors
alone. -/
theorem advance?_errors {item : Item} (ha : c.advance? = some (item, d)) :
    (d.phase = .running ∧ d.errors = c.errors) ∨ d.phase = .errored ∧ ∃ error, d.errors = c.errors ++ [error] ∧
      d.stash.peek? = some (.error error) ∧ error.span.isSome = true := by
  obtain ⟨rest, e, -, hx⟩ := advance?_eq_some ha
  have hb := Variant.standard.keepsBooks_execute item (c.taken rest)
  rw [Variant.execute_standard] at hb
  rcases hx with ⟨hx, rfl⟩ | ⟨error, hx, rfl⟩
  · rw [hx] at hb
    have herrors : e.errors = c.errors := congrArg Books.errors hb
    have hphase : e.phase = .running := congrArg Books.phase hb
    left
    split
    · exact ⟨hphase, herrors⟩
    · exact ⟨hphase, herrors⟩
  · rw [hx] at hb
    have herrors : e.errors = c.errors := congrArg Books.errors hb
    refine .inr ⟨rfl, error.withSpan item.span, ?_, rfl, ?_⟩
    · exact congrArg (· ++ [error.withSpan item.span]) herrors
    · cases hspan : error.span <;> simp [EvalError.withSpan, hspan]

/-- A finished context has settled, and nothing is left on Control. -/
def Settled (c : Context) : Prop := c.phase = .finished → c.control.isEmpty = true ∧ c.finish = c

theorem settled_invariant : Invariant fun c => c.WellFormed ∧ c.Settled where
  fresh run hm := ⟨wellFormed_invariant.fresh run hm, by rintro ⟨⟩⟩
  loaded {c} program h := by
    refine ⟨wellFormed_invariant.loaded program h.1, ?_⟩
    simp only [load]
    split
    · exact h.2
    · simp [Settled]
  advanced h hp ha := by
    refine ⟨wellFormed_invariant.advanced h.1 hp ha, fun hf => ?_⟩
    rcases (advance?_books ha).2 with hr | hr
    · cases hr.symm.trans hf
    · cases hr.symm.trans hf
  finished {c} h hp hn := by
    refine ⟨wellFormed_invariant.finished h.1 hp hn, fun _ => ⟨?_, h.1.finish_finish⟩⟩
    rw [show c.finish.control = c.control from c.control_settle]
    exact hn
  suspended h := ⟨wellFormed_invariant.suspended h.1, by rintro ⟨⟩⟩
  predefining {c} predefined h := by
    refine ⟨wellFormed_invariant.predefining predefined h.1, fun hf => ?_⟩
    obtain ⟨hn, hs⟩ := h.2 hf
    refine ⟨hn, ?_⟩
    have hr := congrArg (fun d : Context => { d.collectGarbage with phase := .finished }) (c.returned_predefining predefined)
    exact hr.trans (congrArg (fun d : Context => { d with predefined }) hs)
  started h := ⟨wellFormed_invariant.started h.1, by rintro ⟨⟩⟩

end Context
end CseMachine
