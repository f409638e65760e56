import CseMachine.Proofs.Variant

/-!
# The standard variant is the machine

Every function of the standard variant equals the function of the machine it
stands for, so that what holds of all variants holds of the machine.
-/
namespace CseMachine.Variant

open CseMachine.Action (pushControl pushValue)

theorem push_standard (c : Control) (item : Item) : standard.push c item = c.push item := rfl

theorem pushAll_append (v : Variant) (c : Control) (xs ys : List Item) :
    v.pushAll c (xs ++ ys) = v.pushAll (v.pushAll c ys) xs := by
  simp [pushAll]

theorem pushAll_operands (c : Control) (nodes : List Node) :
    standard.pushAll c (Node.operands nodes) = c.pushNodes nodes := by
  simp only [pushAll, Node.operands, List.foldr_map]
  rfl

theorem pushAll_statementItems (c : Control) (body : List Node) :
    standard.pushAll c (Node.statementItems body) = c.pushStatements body := by
  induction body with
  | nil => rfl
  | cons first rest ih =>
    cases rest with
    | nil => rfl
    | cons second rest =>
      simp only [Control.pushStatements, ← ih]
      rfl

theorem pushStatements_standard (body : List Node) :
    standard.pushStatements body = Action.pushStatements body := by
  cases body with
  | nil => rfl
  | cons first rest => simp only [pushStatements, Action.pushStatements, pushAll_statementItems]

theorem pushRestore_standard (span : Span) : standard.pushRestore span = Action.pushRestore span := by
  simp only [pushRestore, Action.pushRestore, push_standard]
  rfl

theorem evalSelf_standard (skipEnv : Bool) (n : Node) :
    standard.evalSelf skipEnv n = Action.evalNode skipEnv n := by
  cases n with
  | program span declarations body =>
    simp only [evalSelf, Action.evalNode, pushStatements_standard]
  | block span declarations body =>
    simp only [evalSelf, Action.evalNode, pushStatements_standard, pushRestore_standard]
  | _ => rfl

/-- A node that is replaced by its parts does nothing else. -/
theorem evalNode_parts {n : Node} {items : List Item} (skipEnv : Bool) (h : n.parts? = some items) :
    Action.evalNode skipEnv n = pushControl (standard.pushAll · items) := by
  have hi : ∀ (c : Control) (nodes : List Node) (i : Instr) (span : Span),
      standard.pushAll c (Node.operands nodes ++ [.instr i span]) =
        (c.pushInstr i span).pushNodes nodes := by
    intro c nodes i span
    rw [pushAll_append, pushAll_operands]
    rfl
  cases n <;> simp only [Node.parts?, reduceCtorEq, Option.some.injEq] at h
  case sequence span body =>
    cases body with
    | nil => simp at h
    | cons first rest =>
      obtain rfl := Option.some.inj h
      simp only [Action.evalNode, Action.pushStatements, pushAll_statementItems]
  case ret span value =>
    cases value with
    | none => simp at h
    | some e =>
      obtain rfl := Option.some.inj h
      simp only [hi]
      rfl
  case expression =>
    subst h
    simp only [pushAll_operands]
    rfl
  all_goals
    subst h
    simp only [hi]
    rfl

theorem evalNode_standard (skipEnv : Bool) (n : Node) :
    standard.evalNode skipEnv n = Action.evalNode skipEnv n := by
  simp only [evalNode]
  split
  · next items h => exact (evalNode_parts skipEnv h).symm
  · exact evalSelf_standard skipEnv n

theorem leaveCaller_standard (span : Span) : standard.leaveCaller span = Action.leaveCaller span := by
  simp only [leaveCaller, Action.leaveCaller, pushRestore_standard]
  rfl

theorem pushBody_standard (func : Func) (span : Span) :
    pushControl (standard.pushAll · (standard.bodyItems func span)) = Action.pushBody func span := by
  cases h : func.singleReturn? with
  | none => simp only [bodyItems, Action.pushBody, h]; rfl
  | some e => simp only [bodyItems, Action.pushBody, h]; rfl

theorem execInstr_standard (span : Span) (i : Instr) :
    standard.execInstr span i = Action.execInstr span i := by
  cases i with
  | application count =>
    simp only [execInstr, Action.execInstr, apply, Action.apply, callClosure, Action.callClosure,
      leaveCaller_standard, pushBody_standard] <;> rfl
  | branch yes no => rfl
  | _ => rfl

theorem execute_standard (item : Item) : standard.execute item = Action.execute item := by
  cases item with
  | node n skipEnv => exact evalNode_standard skipEnv n
  | instr i span => exact execInstr_standard span i

/-- One collection when one is due is what the machine does after a step. -/
theorem advance?_standard (c : Context) : standard.advance? c = c.advance? := by
  simp only [advance?, Context.advance?]
  cases c.control.pop? with
  | none => rfl
  | some top =>
    obtain ⟨item, control⟩ := top
    simp only [execute_standard]
    cases Action.execute item { c with control, phase := .running, steps := c.steps + 1 } with
    | error e next => rfl
    | ok _ next => by_cases hd : next.memory.isDue <;> simp [standard, hd]

theorem finish_standard (c : Context) : standard.finish c = c.finish := by
  simp only [finish, Context.finish, Context.settle, unwind]
  cases c.programEnv <;> rfl

theorem step_standard (c : Context) : standard.step c = c.step := by
  simp only [step, Context.step, advance?_standard, finish_standard] <;> rfl

theorem runFrom_standard (limits : Limits) (bound taken changes : Nat) (c : Context) :
    standard.runFrom limits bound taken changes c = c.runFrom limits bound taken changes := by
  induction bound generalizing taken changes c with
  | zero => rfl
  | succ bound ih =>
    simp only [runFrom, Context.runFrom, advance?_standard, finish_standard, ih] <;> rfl

theorem runWithin_standard (limits : Limits) (bound : Nat) (c : Context) :
    standard.runWithin bound limits c = c.runWithin bound limits := by
  simp only [runWithin, Context.runWithin, runFrom_standard]

end CseMachine.Variant
