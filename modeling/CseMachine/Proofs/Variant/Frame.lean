import CseMachine.Proofs.Variant.Execution

/-!
# What items leave alone

No item touches the errors, the phase, the step count, the run or the mark of the
prelude: these change between steps only.
-/
namespace CseMachine

namespace Context

/-- What no item changes. -/
structure Books where
  errors : List EvalError
  phase : Phase
  steps : Nat
  run : RunId
  predefined : Bool

def books (c : Context) : Books := ⟨c.errors, c.phase, c.steps, c.run, c.predefined⟩

theorem books_keepResult (c : Context) (target : EnvId) (left : List EnvId) :
    (c.keepResult target left).books = c.books := by
  simp only [keepResult]
  split
  · split
    · split <;> rfl
    · rfl
  · rfl

end Context

namespace Action

variable {α β : Type}

/-- However the action ends, it has not touched the books. -/
def KeepsBooks (a : Action α) : Prop := ∀ c, match a c with
  | .ok _ c' => c'.books = c.books
  | .error _ c' => c'.books = c.books

theorem KeepsBooks.bind {a : Action α} {f : α → Action β} (ha : a.KeepsBooks) (hf : ∀ x, (f x).KeepsBooks) :
    (a >>= f).KeepsBooks := by
  intro c
  have hc := ha c
  cases h : a c with
  | error e c' =>
    rw [h] at hc
    rw [bind_of_error h]
    exact hc
  | ok x c' =>
    rw [h] at hc
    rw [bind_of_ok h]
    have hx := hf x c'
    dsimp only at hc
    cases hfx : f x c' with
    | error e c'' =>
      rw [hfx] at hx
      exact hx.trans hc
    | ok y c'' =>
      rw [hfx] at hx
      exact hx.trans hc

theorem keepsBooks_pure (a : α) : (pure a : Action α).KeepsBooks := fun _ => rfl

theorem keepsBooks_get : (get : Action Context).KeepsBooks := fun _ => rfl

theorem keepsBooks_raise (cause : EvalError.Cause) : (raise cause : Action α).KeepsBooks := fun _ => rfl

theorem keepsBooks_modify {f : Context → Context} (hf : ∀ c, (f c).books = c.books) :
    (modify f : Action Unit).KeepsBooks := hf

theorem keepsBooks_pushControl (f : Control → Control) : (pushControl f).KeepsBooks := fun _ => rfl

theorem keepsBooks_pushValue (w : Value) : (pushValue w).KeepsBooks := fun _ => rfl

theorem keepsBooks_onMemory (op : Memory.Op α) : (onMemory op).KeepsBooks := by
  intro c
  simp only [onMemory]
  cases op c.memory <;> rfl

theorem keepsBooks_ofExcept (r : Except EvalError α) : (ofExcept r).KeepsBooks := by
  cases r <;> exact fun _ => rfl

theorem keepsBooks_popValue : popValue.KeepsBooks := by
  intro c
  simp only [popValue]
  cases c.stash.pop? <;> rfl

theorem keepsBooks_popValues (count : Nat) (fault : EvalError.Fault) : (popValues count fault).KeepsBooks := by
  intro c
  simp only [popValues]
  cases c.stash.popN? count <;> rfl

theorem keepsBooks_enter (create : Memory → EnvId × Memory) : (enter create).KeepsBooks := fun _ => rfl

theorem keepsBooks_declareAll (env : EnvId) (declarations : List Declaration) :
    (declareAll env declarations).KeepsBooks := by
  simp only [declareAll]
  induction declarations with
  | nil => exact keepsBooks_pure ()
  | cons d rest ih => exact (keepsBooks_onMemory _).bind fun _ => ih

theorem keepsBooks_closureHere (make : Func → EnvId → RunId → Bool → Span → Closure) (func : Func)
    (span : Span) : (closureHere make func span).KeepsBooks :=
  keepsBooks_get.bind fun _ => (keepsBooks_onMemory _).bind fun _ => keepsBooks_pure _

theorem keepsBooks_callBuiltin (f : Builtin) (args : List Value) : (callBuiltin f args).KeepsBooks := by
  simp only [callBuiltin]
  refine keepsBooks_get.bind fun c => (keepsBooks_ofExcept _).bind fun w => KeepsBooks.bind ?_ fun _ => ?_
  · exact keepsBooks_modify fun _ => rfl
  · exact keepsBooks_pushValue w

theorem keepsBooks_assign (name : String) (constant declaration : Bool) :
    (assign name constant declaration).KeepsBooks := by
  rw [assign_eq]
  refine keepsBooks_popValue.bind fun w => (keepsBooks_onMemory _).bind fun _ => ?_
  exact keepsBooks_pushValue _

/-- An operator or a builtin operation on values that were popped. -/
theorem keepsBooks_answer (f : Context → Except EvalError Value) :
    (do pushValue (← ofExcept (f (← get))) : Action Unit).KeepsBooks := by
  refine keepsBooks_get.bind fun c => (keepsBooks_ofExcept _).bind fun w => ?_
  exact keepsBooks_pushValue w

end Action

namespace Variant

open CseMachine.Action

variable (v : Variant)

theorem keepsBooks_pushRestore (span : Span) : (v.pushRestore span).KeepsBooks := by
  refine keepsBooks_modify fun c => ?_
  split <;> rfl

theorem keepsBooks_pushStatements (body : List Node) : (v.pushStatements body).KeepsBooks := by
  simp only [pushStatements]
  split
  · exact keepsBooks_pushValue _
  · exact keepsBooks_pushControl _

theorem keepsBooks_evalSelf (skipEnv : Bool) (n : Node) (hp : n.parts? = none) :
    (v.evalSelf skipEnv n).KeepsBooks := by
  cases n with
  | program span declarations body =>
    simp only [evalSelf]
    refine keepsBooks_get.bind fun c => (keepsBooks_enter _).bind fun env => KeepsBooks.bind ?_ fun _ => ?_
    · exact keepsBooks_modify fun _ => rfl
    · exact (keepsBooks_declareAll env declarations).bind fun _ => v.keepsBooks_pushStatements body
  | block span declarations body =>
    unfold evalSelf
    have hrest : ∀ env, (declareAll env declarations >>= fun _ => v.pushStatements body).KeepsBooks :=
      fun env => (keepsBooks_declareAll env declarations).bind fun _ => v.keepsBooks_pushStatements body
    dsimp only
    split
    · exact keepsBooks_get.bind fun c => (keepsBooks_pure _).bind hrest
    · exact (v.keepsBooks_pushRestore span).bind fun _ => (keepsBooks_enter _).bind hrest
  | sequence span body =>
    cases body with
    | nil => exact keepsBooks_pushValue _
    | cons => cases hp
  | ret span value =>
    cases value with
    | none => exact (keepsBooks_pushControl _).bind fun _ => keepsBooks_pushValue _
    | some e => cases hp
  | define span name func declaration =>
    refine (keepsBooks_closureHere _ func span).bind fun w => (keepsBooks_pushControl _).bind fun _ => ?_
    exact keepsBooks_pushValue w
  | lambda span func => exact (keepsBooks_closureHere _ func span).bind fun w => keepsBooks_pushValue w
  | identifier span name => exact keepsBooks_answer fun c => c.memory.get name
  | pass | literal => exact keepsBooks_pushValue _
  | _ => cases hp

theorem keepsBooks_evalNode (skipEnv : Bool) (n : Node) : (v.evalNode skipEnv n).KeepsBooks := by
  simp only [evalNode]
  split
  · exact keepsBooks_pushControl _
  · next hp => exact v.keepsBooks_evalSelf skipEnv n hp

theorem keepsBooks_leaveCaller (span : Span) : (v.leaveCaller span).KeepsBooks := by
  refine keepsBooks_get.bind fun c => ?_
  split
  · refine keepsBooks_modify fun c => ?_
    split <;> rfl
  · exact v.keepsBooks_pushRestore span

theorem keepsBooks_callClosure (id : ObjId) (args : List Value) (span : Span) :
    (v.callClosure id args span).KeepsBooks := by
  simp only [callClosure]
  refine keepsBooks_get.bind fun c => ?_
  split
  · exact keepsBooks_raise _
  · next closure _ =>
    split
    · exact keepsBooks_raise _
    · refine (keepsBooks_ofExcept _).bind fun _ => (v.keepsBooks_leaveCaller span).bind fun _ => ?_
      refine (keepsBooks_onMemory _).bind fun env => KeepsBooks.bind ?_ fun _ => keepsBooks_pushControl _
      exact keepsBooks_modify fun _ => rfl

theorem keepsBooks_execInstr (span : Span) (i : Instr) : (v.execInstr span i).KeepsBooks := by
  cases i with
  | pop => exact keepsBooks_popValue.bind fun _ => keepsBooks_pure _
  | assignment name constant declaration => exact keepsBooks_assign name constant declaration
  | unary op => exact keepsBooks_popValue.bind fun x => keepsBooks_answer fun _ => x.unary op
  | binary op =>
    refine keepsBooks_popValue.bind fun y => keepsBooks_popValue.bind fun x => ?_
    exact keepsBooks_answer fun c => x.binary c.memory.store op y
  | application count =>
    refine (keepsBooks_popValues count _).bind fun args => keepsBooks_popValue.bind fun w => ?_
    cases w with
    | builtin f => exact keepsBooks_callBuiltin f args
    | closure id => exact v.keepsBooks_callClosure id args span
    | _ => exact keepsBooks_raise _
  | branch yes no =>
    refine keepsBooks_popValue.bind fun w => ?_
    cases w with
    | bool taken =>
      dsimp only
      split
      · exact keepsBooks_pushControl _
      · exact keepsBooks_pushValue _
    | _ => exact keepsBooks_raise _
  | restore target =>
    refine (keepsBooks_onMemory _).bind fun left => ?_
    exact keepsBooks_modify fun c => c.books_keepResult target left
  | marker => exact keepsBooks_pure _
  | reset => exact keepsBooks_pushControl _
  | list count =>
    refine (keepsBooks_popValues count _).bind fun items => (keepsBooks_onMemory _).bind fun id => ?_
    exact keepsBooks_pushValue _
  | subscript =>
    refine keepsBooks_popValue.bind fun y => keepsBooks_popValue.bind fun x => ?_
    exact keepsBooks_answer fun c => x.subscript c.memory.store y

theorem keepsBooks_execute (item : Item) : (v.execute item).KeepsBooks := by
  cases item with
  | node n skipEnv => exact v.keepsBooks_evalNode skipEnv n
  | instr i span => exact v.keepsBooks_execInstr span i

end Variant
end CseMachine
