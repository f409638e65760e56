import CseMachine.Proofs.Memory.Effects
import CseMachine.Proofs.Variant.Standard

/-!
# Items without their bookkeeping

What some items do, written as one operation on the memory between what they
take from the Stash and what they leave there.
-/
namespace CseMachine

/-- The current environment is left, and it is not the last one. -/
theorem Memory.pop?_eq_some {m m' : Memory} {env : EnvId} (h : m.pop? = some (env, m')) :
    m' = { m with active := m.active.tail } ∧ m.active.tail ≠ [] := by
  simp only [Memory.pop?] at h
  split at h
  · next top next below ha =>
    cases h
    rw [ha]
    exact ⟨rfl, List.cons_ne_nil _ _⟩
  · cases h

namespace Action

theorem assign_eq (name : String) (constant declaration : Bool) :
    assign name constant declaration = popValue >>= fun w =>
      onMemory (fun m => Memory.bindName name w constant declaration (m.named w name)) >>= fun _ =>
        pushValue .none := by
  funext c
  unfold assign popValue
  cases hp : c.stash.pop? with
  | none => simp [Bind.bind, EStateM.bind, hp]
  | some top =>
    obtain ⟨w, stash⟩ := top
    cases w <;> cases declaration <;> simp [Bind.bind, EStateM.bind, hp, Memory.named, Memory.bindName] <;> rfl

variable {c : Context}

theorem popValue_eq {w : Value} {rest : List Value} (h : c.stash.items = w :: rest) :
    popValue c = .ok w { c with stash := ⟨rest⟩ } := by
  simp only [popValue, Stack.pop?, h]

theorem popValues_eq {args rest : List Value} (h : c.stash.items = args.reverse ++ rest)
    (fault : EvalError.Fault) :
    popValues args.length fault c = .ok args { c with stash := ⟨rest⟩ } := by
  have ht : c.stash.items.take args.length = args.reverse := by
    rw [h, ← List.length_reverse, List.take_left]
  have hd : c.stash.items.drop args.length = rest := by
    rw [h, ← List.length_reverse, List.drop_left]
  simp only [popValues, Stack.popN?, ht, hd, List.length_reverse, if_true, List.reverse_reverse]

theorem onMemory_ok {α : Type} {op : Memory.Op α} {a : α} {m : Memory} (h : op c.memory = .ok a m) :
    onMemory op c = .ok a { c with memory := m } := by
  simp only [onMemory, h]

theorem onMemory_error {α : Type} {op : Memory.Op α} {e : EvalError} {m : Memory}
    (h : op c.memory = .error e m) : onMemory op c = .error e { c with memory := m } := by
  simp only [onMemory, h]

/-- An environment that is entered depends on the memory at hand only. -/
theorem enter_congr {make make' : Memory → EnvId × Memory} (h : make c.memory = make' c.memory) :
    enter make c = enter make' c := by
  change EStateM.Result.ok (make c.memory).1 { c with memory := (make c.memory).2.push (make c.memory).1 } = _
  rw [h]
  rfl

/-- The environment of a block is inside the current one. -/
theorem enter_createBlock (name : String) (c : Context) :
    enter (fun m => m.createBlock name) c = enter (fun m => m.create name (some c.memory.current)) c :=
  enter_congr rfl

theorem closureHere_ok {make : Func → EnvId → RunId → Bool → Span → Closure} {func : Func} {span : Span}
    {id : ObjId} {m : Memory}
    (h : Memory.alloc (.closure (make func c.memory.current c.run c.predefined span)) c.memory = .ok id m) :
    closureHere make func span c = .ok (.closure id) { c with memory := m } :=
  bind_of_ok (onMemory_ok h)

/-- All of them are new in the frame. -/
theorem declareAll_ok {env : EnvId} {e : Environment} {declarations : List Declaration}
    (h : c.memory.environment? env = some e) (hd : (declarations.map (·.name)).Nodup)
    (hn : ∀ d ∈ declarations, e.lookup? d.name = none) :
    declareAll env declarations c = .ok () { c with
      memory := c.memory.setEnvironment env (e.extend (Memory.declaredSlots declarations)) } := by
  induction declarations generalizing c e with
  | nil =>
    simp only [Memory.declaredSlots, List.map_nil, Environment.extend_nil, Memory.setEnvironment_self h]
    rfl
  | cons d rest ih =>
    have hfirst := onMemory_ok (Memory.declare_ok h (hn d (.head _)) d.constant)
    have hrest := Environment.lookup?_extend_head hd hn ⟨none, d.constant⟩
    apply (bind_of_ok hfirst).trans
    refine (ih (Memory.environment?_set c.memory env _) (List.nodup_cons.mp hd).2 hrest).trans ?_
    simp only [Memory.setEnvironment_setEnvironment, Environment.extend_extend]
    rfl

end Action

namespace Context

/-- Push a value or fail. -/
def answer (c : Context) : Except EvalError Value → EStateM.Result EvalError Context Unit
  | .ok w => .ok () (c.pushValue w)
  | .error e => .error e c

theorem answer_eq (c : Context) (r : Except EvalError Value) :
    (Action.ofExcept r >>= Action.pushValue) c = c.answer r := by
  cases r <;> rfl

/-- Handing the result on changes nothing that evaluation can see. -/
theorem keepResult_eq (c : Context) (target : EnvId) (left : List EnvId) :
    ∃ m, c.keepResult target left = { c with memory := m } ∧ Memory.AgreeOn .all c.memory m := by
  simp only [keepResult]
  split
  · split
    · split
      · exact ⟨_, rfl, Memory.agreeOn_move _ _ _⟩
      · exact ⟨c.memory, rfl, .refl _ _⟩
    · exact ⟨c.memory, rfl, .refl _ _⟩
  · exact ⟨c.memory, rfl, .refl _ _⟩

end Context

namespace Node

/-- The value of a node that does nothing but give one. -/
def value? : Node → Option Value
  | .pass _ | .sequence _ [] => some .none
  | .literal _ l => some (.ofLiteral l)
  | _ => none

end Node

namespace Variant

open CseMachine.Action (popValue_eq popValues_eq onMemory_ok onMemory_error closureHere_ok)

variable (v : Variant) {c : Context} {span : Span} {skipEnv : Bool} {m : Memory}

/-! Nodes -/

section

variable (declarations : List Declaration) (body : List Node)

/-- A program enters an environment of its own. -/
theorem evalSelf_program (skipEnv : Bool) (span : Span) (c : Context) :
    v.evalSelf skipEnv (.program span declarations body) c =
      (Action.enter (fun m => m.create "programEnvironment" (some (Action.programTail c))) >>= fun env =>
        (modify fun d : Context => { d with programEnv := some env }) >>= fun _ =>
          Action.declareAll env declarations >>= fun _ => v.pushStatements body) c := rfl

/-- A block whose frame is arranged is in it. -/
theorem evalSelf_skippedBlock (span : Span) (c : Context) :
    v.evalSelf true (.block span declarations body) c =
      (Action.declareAll c.memory.current declarations >>= fun _ => v.pushStatements body) c := rfl

/-- Any other block enters one and arranges the way back. -/
theorem evalSelf_block (span : Span) :
    v.evalSelf false (.block span declarations body) =
      v.pushRestore span >>= fun _ => Action.enter (fun m => m.createBlock "blockEnvironment") >>= fun env =>
        Action.declareAll env declarations >>= fun _ => v.pushStatements body := by
  simp only [evalSelf]
  simp only [Bool.false_eq_true, if_false]

end

theorem execute_parts {n : Node} {items : List Item} (h : n.parts? = some items) :
    v.execute (.node n skipEnv) c = .ok () { c with control := v.pushAll c.control items } := by
  simp only [execute, evalNode, h]
  rfl

theorem execute_value {n : Node} {w : Value} (h : n.value? = some w) :
    v.execute (.node n skipEnv) c = .ok () (c.pushValue w) := by
  simp only [Node.value?] at h
  split at h <;> cases h <;> rfl

theorem execute_identifier (name : String) :
    v.execute (.node (.identifier span name) skipEnv) c = c.answer (c.memory.get name) :=
  c.answer_eq (c.memory.get name)

theorem execute_ret :
    v.execute (.node (.ret span none) skipEnv) c =
      .ok () ({ c with control := c.control.pushInstr .reset span }.pushValue .none) := rfl

theorem execute_lambda {func : Func} {id : ObjId}
    (h : Memory.alloc (.closure (.ofLambda func c.memory.current c.run c.predefined span)) c.memory =
      .ok id m) :
    v.execute (.node (.lambda span func) skipEnv) c =
      .ok () ({ c with memory := m }.pushValue (.closure id)) :=
  bind_of_ok (closureHere_ok h)

theorem execute_define {name : String} {func : Func} {declaration : Bool} {id : ObjId}
    (h : Memory.alloc (.closure (.ofDefine func c.memory.current c.run c.predefined span)) c.memory =
      .ok id m) :
    v.execute (.node (.define span name func declaration) skipEnv) c =
      .ok () ({ c with
        memory := m
        control := c.control.pushInstr (.assignment name false declaration) span }.pushValue (.closure id)) :=
  bind_of_ok (closureHere_ok h)

/-- Statements of a body as the machine goes on with them. -/
def stated (body : List Node) (c : Context) : Context :=
  match body with
  | [] => c.pushValue .none
  | _ => { c with control := v.pushAll c.control (Node.statementItems body) }

theorem pushStatements_eq (body : List Node) (c : Context) :
    v.pushStatements body c = .ok () (v.stated body c) := by
  cases body <;> rfl

/-- A block whose frame is arranged declares its names there. -/
theorem execute_skippedBlock {declarations : List Declaration} {body : List Node}
    (h : Action.declareAll c.memory.current declarations c = .ok () { c with memory := m }) :
    v.execute (.node (.block span declarations body) true) c =
      .ok () (v.stated body { c with memory := m }) :=
  (bind_of_ok h).trans (pushStatements_eq v body _)

theorem execute_program {declarations : List Declaration} {body : List Node} {env : EnvId}
    {m' : Memory}
    (hc : c.memory.create "programEnvironment" (some (Action.programTail c)) = (env, m'))
    (h : Action.declareAll env declarations { c with memory := m'.push env, programEnv := some env } =
      .ok () { c with memory := m, programEnv := some env }) :
    v.execute (.node (.program span declarations body) skipEnv) c =
      .ok () (v.stated body { c with memory := m, programEnv := some env }) := by
  have hu : v.execute (.node (.program span declarations body) skipEnv) c =
      (Action.declareAll env declarations >>= fun _ => v.pushStatements body)
        { c with memory := m'.push env, programEnv := some env } := by
    have he : env = (c.memory.create "programEnvironment" (some (Action.programTail c))).1 := by rw [hc]
    have hm : m' = (c.memory.create "programEnvironment" (some (Action.programTail c))).2 := by rw [hc]
    rw [he, hm]
    rfl
  rw [hu, bind_of_ok h]
  exact pushStatements_eq v body _

/-! Instructions -/

section

variable {x y w : Value} {rest : List Value}

theorem execute_pop (h : c.stash.items = w :: rest) :
    v.execute (.instr .pop span) c = .ok () { c with stash := ⟨rest⟩ } :=
  bind_of_ok (popValue_eq h)

theorem execute_unary (op : UnaryOp) (h : c.stash.items = w :: rest) :
    v.execute (.instr (.unary op) span) c = { c with stash := ⟨rest⟩ }.answer (w.unary op) :=
  (bind_of_ok (popValue_eq h)).trans (Context.answer_eq _ _)

theorem execute_binary (op : BinaryOp) (h : c.stash.items = y :: x :: rest) :
    v.execute (.instr (.binary op) span) c =
      { c with stash := ⟨rest⟩ }.answer (x.binary c.memory.store op y) :=
  (bind_of_ok (popValue_eq h)).trans ((bind_of_ok (popValue_eq rfl)).trans (Context.answer_eq _ _))

theorem execute_subscript (h : c.stash.items = y :: x :: rest) :
    v.execute (.instr .subscript span) c =
      { c with stash := ⟨rest⟩ }.answer (x.subscript c.memory.store y) :=
  (bind_of_ok (popValue_eq h)).trans ((bind_of_ok (popValue_eq rfl)).trans (Context.answer_eq _ _))

theorem execute_assignment {name : String} {constant declaration : Bool} (h : c.stash.items = w :: rest)
    (hb : Memory.bindName name w constant declaration (c.memory.named w name) = .ok () m) :
    v.execute (.instr (.assignment name constant declaration) span) c =
      .ok () { c with memory := m, stash := ⟨.none :: rest⟩ } := by
  show Action.assign name constant declaration c = _
  rw [Action.assign_eq]
  apply (bind_of_ok (popValue_eq h)).trans
  exact bind_of_ok (onMemory_ok (c := { c with stash := ⟨rest⟩ }) hb)

theorem execute_assignment_error {name : String} {constant declaration : Bool} {e : EvalError}
    (h : c.stash.items = w :: rest)
    (hb : Memory.bindName name w constant declaration (c.memory.named w name) = .error e m) :
    v.execute (.instr (.assignment name constant declaration) span) c =
      .error e { c with memory := m, stash := ⟨rest⟩ } := by
  show Action.assign name constant declaration c = _
  rw [Action.assign_eq]
  apply (bind_of_ok (popValue_eq h)).trans
  exact bind_of_error (onMemory_error (c := { c with stash := ⟨rest⟩ }) hb)

/-- The branch that is taken, if there is one. -/
def chosen (taken : Bool) (yes : Node) (no : Option Node) : Option Node := if taken then some yes else no

theorem execute_branch {taken : Bool} {yes n : Node} {no : Option Node} (h : c.stash.items = .bool taken :: rest)
    (hn : chosen taken yes no = some n) :
    v.execute (.instr (.branch yes no) span) c =
      .ok () { c with stash := ⟨rest⟩, control := v.push c.control (.node n true) } := by
  rw [chosen] at hn
  refine (bind_of_ok (popValue_eq h)).trans ?_
  dsimp only
  rw [hn]
  rfl

theorem execute_branch_none {taken : Bool} {yes : Node} {no : Option Node}
    (h : c.stash.items = .bool taken :: rest) (hn : chosen taken yes no = none) :
    v.execute (.instr (.branch yes no) span) c = .ok () { c with stash := ⟨.none :: rest⟩ } := by
  rw [chosen] at hn
  refine (bind_of_ok (popValue_eq h)).trans ?_
  dsimp only
  rw [hn]
  rfl

theorem execute_branch_error {yes : Node} {no : Option Node} (h : c.stash.items = w :: rest)
    (hw : ∀ b, w ≠ .bool b) :
    v.execute (.instr (.branch yes no) span) c =
      .error { cause := .notABool .condition w.typeName } { c with stash := ⟨rest⟩ } := by
  apply (bind_of_ok (popValue_eq h)).trans
  cases w with
  | bool b => exact absurd rfl (hw b)
  | _ => rfl

theorem execute_restore {target : EnvId} {left : List EnvId}
    (h : Memory.restore target c.memory = .ok left m) :
    v.execute (.instr (.restore target) span) c =
      .ok () ({ c with memory := m }.keepResult target left) :=
  bind_of_ok (onMemory_ok h)

theorem execute_list {items : List Value} {id : ObjId} (h : c.stash.items = items.reverse ++ rest)
    (ha : Memory.alloc (.list items) c.memory = .ok id m) :
    v.execute (.instr (.list items.length) span) c =
      .ok () { c with memory := m, stash := ⟨.list id :: rest⟩ } :=
  (bind_of_ok (popValues_eq h _)).trans (bind_of_ok (onMemory_ok (c := { c with stash := ⟨rest⟩ }) ha))

/-! Calls -/

variable {args : List Value}

theorem callBuiltin_eq (f : Builtin) (args : List Value) (c : Context) :
    Action.callBuiltin f args c = (Action.ofExcept (f.call c.memory.store args) >>= fun value => do
      modify fun d => { d with output := d.output ++ f.printed c.memory.store args }
      Action.pushValue value) c := rfl

theorem execute_call_builtin {f : Builtin} (h : c.stash.items = args.reverse ++ .builtin f :: rest) {r : Value}
    (hr : f.call c.memory.store args = .ok r) :
    v.execute (.instr (.application args.length) span) c =
      .ok () { c with stash := ⟨r :: rest⟩, output := c.output ++ f.printed c.memory.store args } := by
  refine (bind_of_ok (popValues_eq h _)).trans ((bind_of_ok (popValue_eq rfl)).trans ?_)
  apply (callBuiltin_eq f args _).trans
  simp only [hr]
  rfl

theorem execute_call_builtin_error {f : Builtin} (h : c.stash.items = args.reverse ++ .builtin f :: rest)
    {e : EvalError} (hr : f.call c.memory.store args = .error e) :
    v.execute (.instr (.application args.length) span) c = .error e { c with stash := ⟨rest⟩ } := by
  refine (bind_of_ok (popValues_eq h _)).trans ((bind_of_ok (popValue_eq rfl)).trans ?_)
  apply (callBuiltin_eq f args _).trans
  simp only [hr]
  rfl

theorem execute_call_error (h : c.stash.items = args.reverse ++ w :: rest) (hf : ∀ f, w ≠ .builtin f)
    (hc : ∀ id, w ≠ .closure id) :
    v.execute (.instr (.application args.length) span) c =
      .error { cause := .notCallable w.typeName } { c with stash := ⟨rest⟩ } := by
  refine (bind_of_ok (popValues_eq h _)).trans ((bind_of_ok (popValue_eq rfl)).trans ?_)
  cases w with
  | builtin f => exact absurd rfl (hf f)
  | closure id => exact absurd rfl (hc id)
  | _ => rfl

/-- The context once the return to the caller is arranged or the caller's frame is left. -/
def left (span : Span) (c : Context) : Context :=
  if v.replacesFrames && c.control.canAvoidRestore then
    match c.memory.pop? with
    | some (_, memory) => { c with memory }
    | none => c
  else if v.sparesRestores && (c.control.canAvoidRestore || c.control.peek?.any Item.isRestore) then c
  else { c with control := v.push c.control (.instr (.restore c.memory.current) span) }

/-- Nothing but Control and the active environments is changed by it. -/
theorem left_eq (span : Span) (c : Context) :
    ∃ control active, v.left span c = { c with control, memory := { c.memory with active } } := by
  simp only [left]
  split
  · split
    · next env m hp =>
      obtain ⟨rfl, -⟩ := Memory.pop?_eq_some hp
      exact ⟨_, _, rfl⟩
    · exact ⟨_, _, rfl⟩
  · split <;> exact ⟨_, _, rfl⟩

theorem leaveCaller_eq (span : Span) (c : Context) : v.leaveCaller span c = .ok () (v.left span c) := by
  have hu : v.leaveCaller span c = (if v.replacesFrames && c.control.canAvoidRestore then
      modify fun c => match c.memory.pop? with
        | some (_, memory) => { c with memory }
        | none => c
    else v.pushRestore span : Action Unit) c := rfl
  rw [hu]
  simp only [left]
  split <;> rfl

variable {id : ObjId} {closure : Closure}

theorem callClosure_eq (id : ObjId) (args : List Value) (span : Span) (c : Context) :
    v.callClosure id args span c = (match c.memory.store.closure? id with
      | none => Action.raise (.internal (.notAClosure id))
      | some closure =>
        if closure.run ≠ c.run then Action.raise (.internal .foreignClosure)
        else Action.ofExcept (Action.checkArguments closure args.length) >>= fun _ =>
          v.leaveCaller span >>= fun _ =>
            Action.onMemory (Memory.createFrame closure args span) >>= fun env =>
              (modify fun c : Context => { c with memory := c.memory.push env }) >>= fun _ =>
                Action.pushControl (v.pushAll · (v.bodyItems closure.func span))) c := rfl

theorem execute_call {env : EnvId} (h : c.stash.items = args.reverse ++ .closure id :: rest)
    (hc : c.memory.store.closure? id = some closure) (hr : closure.run = c.run)
    (ha : Action.checkArguments closure args.length = .ok ())
    (hf : Memory.createFrame closure args span (v.left span { c with stash := ⟨rest⟩ }).memory = .ok env m) :
    v.execute (.instr (.application args.length) span) c =
      .ok () { v.left span { c with stash := ⟨rest⟩ } with
        memory := m.push env
        control := v.pushAll (v.left span { c with stash := ⟨rest⟩ }).control
          (v.bodyItems closure.func span) } := by
  refine (bind_of_ok (popValues_eq h _)).trans ((bind_of_ok (popValue_eq rfl)).trans ?_)
  apply (callClosure_eq v id args span _).trans
  simp only [hc, hr, ne_eq, not_true_eq_false, if_false, ha]
  exact (bind_of_ok rfl).trans ((bind_of_ok (leaveCaller_eq v span _)).trans (bind_of_ok (onMemory_ok hf)))

theorem execute_call_arguments {e : EvalError} (h : c.stash.items = args.reverse ++ .closure id :: rest)
    (hc : c.memory.store.closure? id = some closure) (hr : closure.run = c.run)
    (ha : Action.checkArguments closure args.length = .error e) :
    v.execute (.instr (.application args.length) span) c = .error e { c with stash := ⟨rest⟩ } := by
  refine (bind_of_ok (popValues_eq h _)).trans ((bind_of_ok (popValue_eq rfl)).trans ?_)
  apply (callClosure_eq v id args span _).trans
  simp only [hc, hr, ne_eq, not_true_eq_false, if_false, ha]
  rfl

end

end Variant
end CseMachine
