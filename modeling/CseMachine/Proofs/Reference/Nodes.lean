import CseMachine.Proofs.Reference.Items

/-!
# Nodes by what takes their place

A node gives way to its parts, a body to its statements and a branch to the node
that is taken. If these simulate what they evaluate to, so does the node.
-/
namespace CseMachine

/-! What parts depend on -/

namespace Variant

variable (v : Variant) {n : Node} {skip : Bool}

theorem shape_node (h : ∀ span body, n ≠ .block span [] body) : v.shape (.node n skip) = .node n skip := by
  simp only [shape]
  split
  · simp only [Item.flatten]
    split
    · next heq =>
      cases heq
      exact absurd rfl (h _ _)
    · rfl
  · rfl

theorem shape_block (span : Span) (body : List Node) (skip : Bool) :
    v.shape (.node (.block span [] body) skip) = .node (.block span [] body) skip ∨
      v.shape (.node (.block span [] body) skip) = .node (.sequence span body) skip := by
  simp only [shape]
  split
  · exact .inr rfl
  · exact .inl rfl

@[simp] theorem shape_isRestore (item : Item) : (v.shape item).isRestore = item.isRestore := by
  simp only [Item.isRestore]
  rw [shape_restoreTarget?]

@[simp] theorem shape_isMarker (item : Item) : (v.shape item).isMarker = item.isMarker := by
  simp only [shape, Item.flatten]
  split
  · split <;> rfl
  · rfl

theorem shapes_dependent (items : List Item) :
    (items.map v.shape).any Item.isEnvDependent = items.any Item.isEnvDependent := by
  rw [List.any_map]
  congr 1
  funext item
  exact v.shape_isEnvDependent item

end Variant

namespace Node

variable {items : List Item} {body : List Node} {n : Node}

theorem operands_dependent (nodes : List Node) :
    (operands nodes).any Item.isEnvDependent = anyEnvDependent nodes := by
  simp only [operands]
  rw [List.any_map, anyEnvDependent_eq_any]
  rfl

theorem statementItems_dependent (body : List Node) :
    (statementItems body).any Item.isEnvDependent = anyEnvDependent body := by
  induction body with
  | nil => rfl
  | cons first rest ih =>
    cases rest with
    | nil => rfl
    | cons second rest =>
      simp only [statementItems, List.any_cons, anyEnvDependent, Item.isEnvDependent,
        Instr.isEnvDependent, Bool.false_or] at ih ⊢
      rw [ih]

/-- A node depends on the environment exactly if one of its parts does. -/
theorem parts_dependent (h : n.parts? = some items) : items.any Item.isEnvDependent = n.isEnvDependent := by
  simp only [parts?] at h
  split at h <;> cases h <;>
    simp [operands_dependent, statementItems_dependent, isEnvDependent, anyEnvDependent, Item.isEnvDependent,
      Instr.isEnvDependent, optionEnvDependent, optionEnvDependent_eq_any, Bool.or_assoc]

end Node

namespace Reference

open Node (operands statementItems)
open Variant (chosen)

variable {v : Variant} {depth : Nat} {returns : Prop} {α : Type} {items : List Item} {n : Node} {skip : Bool}
  {names : String → Prop} {span : Span} {body : List Node}

/-- The node, wherever it was pushed, simulates its evaluation. -/
def NodeSimulates (v : Variant) (depth : Nat) (returns : Prop) (n : Node) (skip : Bool) : Prop :=
  Simulates v depth returns [] [v.shape (.node n skip)] (fun env => eval (enter depth) env n) fun r => [r]

def StatementsSimulate (v : Variant) (depth : Nat) (returns : Prop) (body : List Node) : Prop :=
  Simulates v depth returns (idle body) ((statementItems body).map v.shape)
    (fun env => evalStatements (enter depth) env body) fun r => [r]

/-- The values end on the Stash with the last one on top. -/
def OperandsSimulate (v : Variant) (depth : Nat) (nodes : List Node) : Prop :=
  Simulates v depth False [] ((operands nodes).map v.shape) (fun env => evalAll (enter depth) env nodes)
    List.reverse

def OptionSimulates (v : Variant) (depth : Nat) (returns : Prop) (node : Option Node) : Prop :=
  Simulates v depth returns (idle node.toList) (node.toList.map fun n => v.shape (.node n true))
    (fun env => evalOption (enter depth) env node) fun r => [r]

/-- Calls at most so deep simulate what applying a value does. -/
def CallsSimulate (v : Variant) (depth : Nat) : Prop :=
  ∀ span f args, Simulates v depth False (args.reverse ++ [f]) [.instr (.application args.length) span]
    (fun _ => apply (enter depth) span f args) fun r => [r]

/-! Items that lead out of no frame -/

theorem inner_node (n : Node) (skip : Bool) : Inner [v.shape (.node n skip)] := by
  rw [inner_cons, v.shape_isRestore, v.shape_isMarker]
  exact ⟨⟨rfl, rfl⟩, inner_nil⟩

/-- An instruction that is neither a restore nor a marker. -/
theorem inner_instr {i : Instr} (hr : i.restoreTarget?.isSome = false) (hm : (Item.instr i span).isMarker = false) :
    Inner [.instr i span] := inner_cons.mpr ⟨⟨hr, hm⟩, inner_nil⟩

theorem inner_shapes (h : Inner items) : Inner (items.map v.shape) := by
  intro shaped hs
  obtain ⟨item, hi, rfl⟩ := List.mem_map.mp hs
  simpa using h item hi

theorem inner_operands (nodes : List Node) : Inner (operands nodes) := by
  intro item hi
  obtain ⟨n, -, rfl⟩ := List.mem_map.mp hi
  exact ⟨rfl, rfl⟩

theorem inner_statementItems (body : List Node) : Inner (statementItems body) := by
  induction body with
  | nil => exact inner_nil
  | cons first rest ih =>
    cases rest with
    | nil => exact inner_cons.mpr ⟨⟨rfl, rfl⟩, inner_nil⟩
    | cons second rest => exact inner_cons.mpr ⟨⟨rfl, rfl⟩, inner_cons.mpr ⟨⟨rfl, rfl⟩, ih⟩⟩

theorem inner_parts (h : n.parts? = some items) : Inner items := by
  simp only [Node.parts?] at h
  split at h <;> cases h
  case h_1 => exact inner_statementItems _
  case h_2 => exact inner_operands _
  all_goals exact inner_append.mpr ⟨inner_operands _, inner_instr rfl rfl⟩

/-! Nodes by what takes their place -/

theorem parts_simulate {x : EnvId → Eval α} {push : α → List Value} (hp : n.parts? = some items)
    (h : Simulates v depth returns [] (items.map v.shape) x push) :
    Simulates v depth returns [] [.node n skip] x push := by
  have hperf : Performs v [] (.node n skip) (fun _ => pure ()) (fun _ => items.map v.shape) fun _ => [] := by
    intro c rest stash env w hr hc hs hw hcur
    refine ⟨_, v.execute_parts hp, ?_, hs, hw.withControl _, rfl⟩
    show v.pushAll c.control items = _
    rw [hc, v.pushAll_ofItems]
  have hs : Simulates v depth returns [] [.node n skip] (fun env => pure () >>= fun _ => x env) push :=
    hperf.andThen rfl (fun _ => inner_shapes (inner_parts hp))
      (fun _ hd => by rwa [v.shapes_dependent, Node.parts_dependent hp] at hd) fun _ _ => h
  simpa only [pure_bind] using hs

/-- Going on with the statements of a body. -/
theorem stated_shows {c : Context} {w : World} {rest : List Item} {stash : List Value} (hw : Shows c w)
    (hc : c.control = Control.ofItems rest) (hs : c.stash.items = stash) (body : List Node) :
    (v.stated body c).control = Control.ofItems ((statementItems body).map v.shape ++ rest) ∧
      (v.stated body c).stash.items = idle body ++ stash ∧ Shows (v.stated body c) w ∧
      (v.stated body c).memory.current = c.memory.current := by
  cases body with
  | nil => exact ⟨hc, congrArg (Value.none :: ·) hs, hw.withStash _, rfl⟩
  | cons first body =>
    refine ⟨?_, hs, hw.withControl _, rfl⟩
    show v.pushAll c.control _ = _
    rw [hc, v.pushAll_ofItems]

theorem sequence_performs (span : Span) (body : List Node) :
    Performs v [] (.node (.sequence span body) skip) (fun _ => pure ())
      (fun _ => (statementItems body).map v.shape) fun _ => idle body := by
  intro c rest stash env w hr hc hs hw hcur
  have he : v.execute (.node (.sequence span body) skip) c = .ok () (v.stated body c) := by
    cases body with
    | nil => exact v.execute_value rfl
    | cons first body => exact v.execute_parts rfl
  exact ⟨_, he, stated_shows hw hc hs body⟩

theorem declare_nil (env : EnvId) : declare env [] = pure () := by
  funext w
  have hw : w.update env (· ++ []) = w := by
    simp only [World.update]
    have hid : (fun frame : Frame => { frame with names := frame.names ++ [] }) = id := by
      funext frame
      simp
    rw [hid, List.modify_id]
  show EStateM.Result.ok () (w.update env (· ++ [])) = _
  rw [hw]
  rfl

/-- A block whose frame is arranged declares its names there before its statements. -/
theorem block_performs {declarations : List Declaration} :
    Performs v [] (.node (.block span declarations body) true) (fun env => declare env declarations)
      (fun _ => (statementItems body).map v.shape) fun _ => idle body := by
  intro c rest stash env w hr hc hs hw hcur
  cases declarations with
  | nil =>
    show Steps v _ c rest stash _ _ (declare env [] w)
    rw [declare_nil]
    exact ⟨_, v.execute_skippedBlock rfl, stated_shows hw hc hs body⟩
  | cons d rest' =>
    obtain rfl := hcur ⟨rfl, .inl rfl⟩
    obtain ⟨e, he, hd, hn⟩ := hr.undeclared (List.cons_ne_nil _ _)
    have hm : Mirror (c.memory.setEnvironment c.memory.current (e.extend (Memory.declaredSlots (d :: rest'))))
        (w.update c.memory.current (· ++ Memory.declaredSlots (d :: rest'))) :=
      hw.memory.update hr.sound.memory he rfl rfl
    have hw' := hw.withMemory hm rfl rfl
    exact ⟨_, v.execute_skippedBlock (Action.declareAll_ok he hd hn), stated_shows hw' hc hs body⟩

theorem sequence_simulates {x : EnvId → Eval Value}
    (h : Simulates v depth returns (idle body) ((statementItems body).map v.shape) x fun r => [r]) :
    Simulates v depth returns [] [.node (.sequence span body) skip] x fun r => [r] := by
  have hs : Simulates v depth returns [] [.node (.sequence span body) skip]
      (fun env => pure () >>= fun _ => x env) fun r => [r] :=
    (sequence_performs span body).andThen rfl (fun _ => inner_shapes (inner_statementItems body))
      (fun _ hd => by rwa [v.shapes_dependent, Node.statementItems_dependent] at hd) fun _ _ => h
  simpa only [pure_bind] using hs

theorem block_simulates (declarations : List Declaration) {x : EnvId → Eval Value}
    (h : Simulates v depth returns (idle body) ((statementItems body).map v.shape) x fun r => [r]) :
    Simulates v depth returns [] [.node (.block span declarations body) true]
      (fun env => declare env declarations >>= fun _ => x env) fun r => [r] := by
  refine block_performs.andThen rfl (fun _ => inner_shapes (inner_statementItems body)) (fun _ hd => ?_)
    fun _ _ => h
  rw [v.shapes_dependent, Node.statementItems_dependent] at hd
  simp [Item.isEnvDependent, Node.isEnvDependent, hd]

/-- A block for which a frame is arranged, however it is pushed. -/
theorem scope_simulates (span : Span) (declarations : List Declaration)
    (h : StatementsSimulate v depth returns body) :
    NodeSimulates v depth returns (.block span declarations body) true := by
  simp only [NodeSimulates]
  simp only [eval]
  cases declarations with
  | nil =>
    rcases v.shape_block span body true with hshape | hshape
    · rw [hshape]
      exact block_simulates [] h
    · rw [hshape]
      simp only [declare_nil, pure_bind]
      exact sequence_simulates h
  | cons d rest =>
    rw [v.shape_node (n := .block span (d :: rest) body) fun _ _ h => nomatch h]
    exact block_simulates (d :: rest) h

theorem evalAll_length {enter : Closure → List Value → Eval Value} {env : EnvId} {nodes : List Node}
    {ws : List Value} {w w' : World} (h : evalAll enter env nodes w = .ok ws w') : ws.length = nodes.length := by
  induction nodes generalizing ws w w' with
  | nil =>
    cases h
    rfl
  | cons n rest ih =>
    simp only [evalAll] at h
    obtain ⟨a, w₁, -, h⟩ := of_bind_ok h
    obtain ⟨rs, w₂, hr, h⟩ := of_bind_ok h
    cases h
    rw [List.length_cons, List.length_cons, ih hr]

/-! Operands above an instruction -/

section

variable {e a b : Node} {i : Instr} {nodes : List Node} {push : α → List Value}

theorem operands_simulate {x : EnvId → Eval α} (hp : n.parts? = some (operands nodes ++ [.instr i span]))
    (h : Simulates v depth returns [] ((operands nodes).map v.shape ++ [.instr i span]) x push) :
    Simulates v depth returns [] [.node n skip] x push := by
  apply parts_simulate hp
  rw [List.map_append, List.map_singleton, Variant.shape_instr]
  exact h

theorem operand_simulates {f : Value → EnvId → Eval α}
    (hp : n.parts? = some (operands [e] ++ [.instr i span])) (he : NodeSimulates v depth False e false)
    (hf : ∀ r, Simulates v depth returns [r] [.instr i span] (f r) push) :
    Simulates v depth returns [] [.node n skip] (fun env => eval (enter depth) env e >>= fun r => f r env) push := by
  have hi : Inner [.instr i span] := (inner_append.mp (inner_parts hp)).2
  exact operands_simulate hp ((he.mono False.elim).bind (inner_node e false) hi fun r _ => hf r)

theorem operandPair_simulates {f : Value → Value → EnvId → Eval α}
    (hp : n.parts? = some (operands [a, b] ++ [.instr i span]))
    (ha : NodeSimulates v depth False a false) (hb : NodeSimulates v depth False b false)
    (hf : ∀ x y, Simulates v depth returns [y, x] [.instr i span] (f x y) push) :
    Simulates v depth returns [] [.node n skip]
      (fun env => eval (enter depth) env a >>= fun x => eval (enter depth) env b >>= fun y => f x y env) push := by
  have hi : Inner [.instr i span] := (inner_append.mp (inner_parts hp)).2
  have hlast : ∀ x, Simulates v depth returns [x] ([v.shape (.node b false)] ++ [.instr i span])
      (fun env => eval (enter depth) env b >>= fun y => f x y env) push := by
    intro x
    exact (hb.under [x]).bind (inner_node b false) hi fun y _ => hf x y
  have hpair := (ha.mono False.elim).bind (inner_node a false) (inner_append.mpr ⟨inner_node b false, hi⟩)
    fun x _ => hlast x
  exact operands_simulate hp hpair

end

/-- Each branch for itself, then the instruction that takes one of them. -/
theorem branch_simulates (yes : Node) (no : Option Node)
    (hyes : NodeSimulates v depth returns yes true) (hno : OptionSimulates v depth returns no) (r : Value) :
    Simulates v depth returns [r] [.instr (.branch yes no) span]
      (fun env => do
        if ← test span r then eval (enter depth) env yes else evalOption (enter depth) env no) fun r => [r] := by
  refine (branch_performs yes no).andThen rfl (fun taken => ?_) (fun taken hd => ?_) fun taken _ => ?_
  · intro item hi
    obtain ⟨n, -, rfl⟩ := List.mem_map.mp hi
    exact inner_node n true _ (.head _)
  · obtain ⟨item, hi, hitem⟩ := List.any_eq_true.mp hd
    obtain ⟨n, hn, rfl⟩ := List.mem_map.mp hi
    rw [v.shape_isEnvDependent] at hitem
    apply Bool.or_eq_true_iff.mpr
    cases taken with
    | true =>
      obtain rfl := List.mem_singleton.mp hn
      exact .inl hitem
    | false =>
      obtain rfl := Option.mem_toList.mp hn
      exact .inr hitem
  · cases taken with
    | true => exact hyes
    | false => exact hno

theorem list_simulates {nodes : List Node} (hnodes : OperandsSimulate v depth nodes) :
    Simulates v depth returns [] [.node (.list span nodes) skip]
      (fun env => eval (enter depth) env (.list span nodes)) fun r => [r] := by
  simp only [eval]
  refine operands_simulate rfl ((hnodes.mono False.elim).bind (inner_shapes (inner_operands nodes))
    (inner_instr rfl rfl) fun ws hws => ?_)
  obtain ⟨env, w, w', hws⟩ := hws
  rw [← evalAll_length hws]
  exact (list_performs ws).simulates rfl

/-- What is called, then the arguments above it, then the call. -/
theorem call_simulates (hcalls : CallsSimulate v depth) {callee : Node} {args : List Node}
    (hcallee : NodeSimulates v depth False callee false) (hargs : OperandsSimulate v depth args) :
    Simulates v depth returns [] [.node (.call span callee args) skip]
      (fun env => eval (enter depth) env (.call span callee args)) fun r => [r] := by
  simp only [eval]
  have hi : Inner [.instr (.application args.length) span] := inner_instr rfl rfl
  have hinner : Inner ((operands args).map v.shape) := inner_shapes (inner_operands args)
  have hcall : ∀ f, Simulates v depth returns [f]
      ((operands args).map v.shape ++ [.instr (.application args.length) span])
      (fun env => evalAll (enter depth) env args >>= fun values => apply (enter depth) span f values)
      fun r => [r] := by
    intro f
    refine (hargs.under [f]).bind hinner hi fun ws hws => ?_
    obtain ⟨env, w, w', hws⟩ := hws
    rw [← evalAll_length hws]
    exact (hcalls span f ws).mono False.elim
  have hboth := (hcallee.mono False.elim).bind (inner_node callee false) (inner_append.mpr ⟨hinner, hi⟩)
    fun f _ => hcall f
  exact operands_simulate rfl hboth

theorem ret_simulates {value : Option Node} (hret : returns)
    (hvalue : ∀ e, value = some e → NodeSimulates v depth False e false) :
    Simulates v depth returns [] [.node (.ret span value) skip]
      (fun env => eval (enter depth) env (.ret span value)) fun r => [r] := by
  simp only [eval]
  cases value with
  | none =>
    simp only [evalOption]
    exact ret_performs.andThen rfl (fun _ => inner_instr rfl rfl) (fun _ h => nomatch h) fun r _ =>
      reset_simulates hret r
  | some e =>
    simp only [evalOption]
    exact operand_simulates rfl (hvalue e rfl) fun r => reset_simulates hret r

/-! Statements and operands one by one -/

theorem statements_cons {first second : Node} {rest : List Node} (hfirst : NodeSimulates v depth returns first false)
    (hrest : StatementsSimulate v depth returns (second :: rest)) :
    StatementsSimulate v depth returns (first :: second :: rest) := by
  simp only [StatementsSimulate]
  simp only [evalStatements, statementItems, List.map_cons, Variant.shape_instr]
  have hinner := inner_shapes (v := v) (inner_statementItems (second :: rest))
  have hnext : ∀ r, Simulates v depth returns [r]
      ([.instr .pop second.span] ++ (statementItems (second :: rest)).map v.shape)
      (fun env => evalStatements (enter depth) env (second :: rest)) fun r => [r] := by
    intro r
    have hpop : Simulates v depth returns [r] [.instr .pop second.span] (fun _ => pure ()) fun _ => [] :=
      pop_performs.simulates rfl
    have hboth := hpop.bind (inner_instr rfl rfl) hinner fun _ _ => hrest
    simpa only [pure_bind] using hboth
  have hboth := hfirst.bind (inner_node first false) (inner_cons.mpr ⟨⟨rfl, rfl⟩, hinner⟩) fun r _ => hnext r
  exact hboth

theorem operands_cons {first : Node} {rest : List Node} (hfirst : NodeSimulates v depth False first false)
    (hrest : OperandsSimulate v depth rest) : OperandsSimulate v depth (first :: rest) := by
  simp only [OperandsSimulate]
  simp only [evalAll]
  have hcons : ∀ (r : Value) (rs : List Value), Simulates v depth False (rs.reverse ++ [r]) []
      (fun _ => pure (r :: rs)) List.reverse := by
    intro r rs
    exact .nil List.reverse_cons.symm
  have hinner := inner_shapes (v := v) (inner_operands rest)
  have hnext : ∀ r, Simulates v depth False [r] ((operands rest).map v.shape)
      (fun env => evalAll (enter depth) env rest >>= fun rs => pure (r :: rs)) List.reverse := by
    intro r
    have hvalues := (hrest.under [r]).bind hinner inner_nil fun rs _ => hcons r rs
    rwa [List.append_nil] at hvalues
  exact hfirst.bind (inner_node first false) hinner fun r _ => hnext r

end Reference
end CseMachine
