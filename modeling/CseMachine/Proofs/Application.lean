import CseMachine.Proofs.WellFormed

/-!
# Calls of closures

A call has to give every required parameter an argument, and what is left over goes to
the rest parameter. If the numbers do not fit, the call fails before it has done anything.
Else it makes one frame, whose bindings are the parameters with their arguments.
-/
namespace CseMachine

open Memory (called)

variable {closure : Closure} {args : List Value} {span : Span}

namespace Memory

theorem environment?_called (m : Memory) (env : EnvId) : (m.called closure args span).environment? env =
    if (⟨m.nextEnv⟩ : EnvId) = env then some (closure.frame args span ⟨m.store.next⟩) else m.environment? env := by
  have hadopt : (m.called closure args span).environment? env = _ := environment?_adopt _ _ env
  have hrest : (m.withRest closure args).nextEnv = m.nextEnv ∧
      (m.withRest closure args).environment? env = m.environment? env := by
    simp only [withRest]
    split <;> exact ⟨rfl, rfl⟩
  rw [hadopt, ← hrest.1, ← hrest.2]
  rfl

theorem get?_called (m : Memory) (id : ObjId) : (m.called closure args span).store.get? id =
    if closure.func.rest?.isSome ∧ (⟨m.store.next⟩ : ObjId) = id then
      some ⟨⟨m.nextEnv⟩, .list (args.drop closure.func.required.length)⟩
    else m.store.get? id := by
  show (m.withRest closure args).store.get? id = _
  simp only [withRest]
  cases closure.func.rest? with
  | none => simp only [Option.isSome_none, Bool.false_eq_true, false_and, if_false]
  | some p =>
    simp only [Option.isSome_some, true_and]
    exact get?_alloc m.store _ _ id

end Memory

namespace Action

variable {given : Nat}

theorem checkArguments_missing (h : given < closure.func.required.length) : checkArguments closure given = .error
    { cause := .missingArguments closure.displayName ((closure.func.required.drop given).map (·.name))
      notes := [definedHere closure] } := by
  simp only [checkArguments, h, if_true]

theorem checkArguments_tooMany (h : closure.func.required.length < given) (hr : closure.func.rest? = none) :
    checkArguments closure given = .error
      { cause := .tooManyArguments closure.displayName closure.func.required.length given
        notes := [definedHere closure] } := by
  simp only [checkArguments, if_neg (Nat.lt_asymm h), h, hr, Option.isNone_none, and_self, if_true]

theorem checkArguments_fits (h : closure.func.required.length ≤ given)
    (hr : closure.func.rest? = none → given = closure.func.required.length)
    (hl : ∀ p ∈ closure.func.params, p.name ∉ closure.func.locals) : checkArguments closure given = .ok () := by
  have hmany : ¬(closure.func.required.length < given ∧ closure.func.rest?.isNone = true) :=
    fun ⟨hlt, hn⟩ => Nat.ne_of_gt hlt (hr (Option.isNone_iff_eq_none.mp hn))
  have hfind : closure.func.params.find? (fun p => closure.func.locals.contains p.name) = none :=
    List.find?_eq_none.mpr fun p hp hc => hl p hp (List.contains_iff_mem.mp hc)
  simp only [checkArguments, if_neg (Nat.not_lt.mpr h), if_neg hmany, hfind]

end Action

namespace Context

variable {c d : Context} {rest : Control} {below : List Value}

/-- The next item calls the closure with these arguments; behind it so much is left on Control and on
the Stash. -/
structure Applies (c : Context) (closure : Closure) (args : List Value) (span : Span) (rest : Control)
    (below : List Value) : Prop where
  running : c.phase.isTerminal = false
  next : c.control.pop? = some (.instr (.application args.length) span, rest)
  callee : ∃ id, c.stash.items = args.reverse ++ .closure id :: below ∧ c.memory.store.closure? id = some closure
  sameRun : closure.run = c.run

/-- A step that only fails. -/
structure Refuses (c : Context) (e : EvalError) (d : Context) : Prop where
  memory : d.memory = c.memory
  phase : d.phase = .errored
  errors : d.errors = c.errors ++ [e]

/-- The call has succeeded. It has made its frame and, for a rest parameter, the list of the arguments
that are left over, and nothing else. -/
structure Enters (c : Context) (closure : Closure) (args : List Value) (span : Span) (d : Context) : Prop where
  phase : d.phase = .running
  errors : d.errors = c.errors
  newFrame : c.memory.environment? ⟨c.memory.nextEnv⟩ = none
  newObject : c.memory.store.get? ⟨c.memory.store.next⟩ = none
  current : d.memory.current = ⟨c.memory.nextEnv⟩
  environments : ∀ env, d.memory.environment? env = if (⟨c.memory.nextEnv⟩ : EnvId) = env then
    some (closure.frame args span ⟨c.memory.store.next⟩) else c.memory.environment? env
  objects : ∀ id, d.memory.store.get? id =
    if closure.func.rest?.isSome ∧ (⟨c.memory.store.next⟩ : ObjId) = id then
      some ⟨⟨c.memory.nextEnv⟩, .list (args.drop closure.func.required.length)⟩
    else c.memory.store.get? id

namespace Applies

variable (h : c.Applies closure args span rest below)
include h

theorem step_eq : ∃ d, c.advance? = some (.instr (.application args.length) span, d) ∧ c.step.2 = d := by
  obtain ⟨d, hd⟩ : ∃ d, c.advance? = some (.instr (.application args.length) span, d) := by
    simp only [advance?, h.next]
    split <;> exact ⟨_, rfl⟩
  refine ⟨d, hd, ?_⟩
  simp only [step, h.running, Bool.false_eq_true, if_false, hd]

/-- Wrong numbers of arguments are found before anything is made. -/
theorem refuses {e : EvalError} (hc : Action.checkArguments closure args.length = .error e) :
    c.Refuses (e.withSpan span) c.step.2 := by
  obtain ⟨id, hs, hclosure⟩ := h.callee
  have hx : Action.execute (.instr (.application args.length) span) (c.taken rest) = .error e { c.taken rest with stash := ⟨below⟩ } :=
    Variant.execute_standard _ ▸ Variant.standard.execute_call_arguments hs hclosure h.sameRun hc
  obtain ⟨d, ha, hd⟩ := h.step_eq
  obtain ⟨rest', e', hp, hx'⟩ := advance?_eq_some ha
  cases h.next.symm.trans hp
  rw [hx] at hx'
  rcases hx' with ⟨hx', -⟩ | ⟨error, hx', hd'⟩
  · cases hx'
  · cases hx'
    rw [hd, hd']
    exact ⟨rfl, rfl, rfl⟩

theorem enters (hw : c.WellFormed) (hc : Action.checkArguments closure args.length = .ok ())
    (hd : (closure.func.params.map (·.name)).Nodup) :
    ∃ d, c.Enters closure args span d ∧ c.step.2 = if d.memory.isDue then d.collectGarbage else d := by
  obtain ⟨id, hs, hclosure⟩ := h.callee
  obtain ⟨control, active, hleft⟩ := Variant.standard.left_eq span { c.taken rest with stash := ⟨below⟩ }
  have hframe := Memory.createFrame_called
    (m := (Variant.standard.left span ({ c.taken rest with stash := ⟨below⟩ } : Context)).memory) hd args span
  have hx := Variant.standard.execute_call (c := c.taken rest) hs hclosure h.sameRun hc hframe
  rw [Variant.execute_standard, hleft] at hx
  obtain ⟨d, ha, hstep⟩ := h.step_eq
  obtain ⟨rest', e, hp, hx'⟩ := advance?_eq_some ha
  cases h.next.symm.trans hp
  rw [hx] at hx'
  rcases hx' with ⟨hx', hcollected⟩ | ⟨error, hx', -⟩
  · cases hx'
    refine ⟨_, ?_, hstep.trans hcollected⟩
    refine ⟨rfl, rfl, ?_, hw.memory.fresh_object, rfl, fun env => ?_, fun id => ?_⟩
    · exact Option.not_isSome_iff_eq_none.mp hw.memory.fresh_env
    · exact Memory.environment?_called _ env
    · exact @Memory.get?_called closure args span _ id
  · cases hx'

end Applies
end Context

namespace Setup

variable {s : Setup} {run : RunId} {c : Context} {rest : Control} {below : List Value}

/-- A function of one parameter and a rest parameter. -/
def gathering : Func where
  name := none
  params := [⟨"a", false, ⟨8, 9⟩⟩, ⟨"r", true, ⟨11, 13⟩⟩]
  body := .block ⟨15, 16⟩ [] [.ret ⟨15, 16⟩ (some (.identifier ⟨15, 16⟩ "a"))]
  locals := []

/-- `(lambda a, *r: a)(1, 2)` as a tree. -/
def gatheringCall : Node :=
  .program ⟨0, 23⟩ [] [.expression ⟨0, 23⟩ (.call ⟨0, 23⟩ (.lambda ⟨1, 16⟩ gathering)
    [.literal ⟨18, 19⟩ (.int 1), .literal ⟨21, 22⟩ (.int 2)])]

end Setup
end CseMachine
