import CseMachine.Proofs.Reference.Nodes

/-!
# Trees do what their evaluation does

By induction on the tree a node on Control simulates its evaluation, if calls do.
-/
namespace CseMachine.Reference

variable {v : Variant} {depth : Nat}

mutual

theorem node_simulates (hcalls : CallsSimulate v depth) {names : String → Prop} {returns : Prop} {skip : Bool}
    {n : Node} (hs : n.Scoped names returns skip) : NodeSimulates v depth returns n skip := by
  have hshape : (∀ span body, n ≠ .block span [] body) → v.shape (.node n skip) = .node n skip := v.shape_node
  simp only [NodeSimulates]
  cases n
  case program => exact hs.elim
  case block span declarations body =>
    obtain ⟨rfl, rfl, hb⟩ := hs
    exact scope_simulates span [] (statements_simulate hcalls hb)
  -- no other node changes its shape
  all_goals rw [hshape (fun _ _ h => nomatch h)]
  case list => exact list_simulates (operands_simulates hcalls hs)
  case call => exact call_simulates hcalls (node_simulates hcalls hs.1) (operands_simulates hcalls hs.2)
  case ret span value =>
    exact ret_simulates hs.1 fun e he => node_simulates hcalls (optionScoped_iff.mp hs.2 e he)
  all_goals simp only [eval]
  case sequence => exact sequence_simulates (statements_simulate hcalls hs)
  case expression span e => exact parts_simulate rfl ((node_simulates hcalls (n := e) hs).mono False.elim)
  case assign span target value declaration =>
    exact operand_simulates rfl (node_simulates hcalls hs.1) fun r =>
      (assignment_performs target r declaration).simulates rfl
  case define span name func declaration =>
    exact (define_performs name func declaration).andThen rfl (fun _ => inner_instr rfl rfl) (fun _ _ => rfl)
      fun r _ => (assignment_performs name r declaration).simulates rfl
  case branch span test yes no =>
    exact operand_simulates rfl (node_simulates hcalls hs.1)
      (branch_simulates yes no (node_simulates hcalls hs.2.1) (option_simulates hcalls hs.2.2))
  case conditional span test yes no =>
    exact operand_simulates rfl (node_simulates hcalls hs.1)
      (branch_simulates yes (some no) ((node_simulates hcalls hs.2.1).mono False.elim)
        ((node_simulates hcalls hs.2.2).mono False.elim))
  case pass => exact (value_performs rfl).simulates rfl
  case literal => exact (value_performs rfl).simulates rfl
  case identifier span name => exact (identifier_performs name).simulates rfl
  case unary span op e =>
    exact operand_simulates rfl (node_simulates hcalls (n := e) hs) fun r => (unary_performs op).simulates rfl
  case binary span op a b =>
    exact operandPair_simulates rfl (node_simulates hcalls hs.1) (node_simulates hcalls hs.2) fun x y =>
      (binary_performs op).simulates rfl
  case lambda span func => exact (lambda_performs func).simulates rfl
  case subscript span value index =>
    exact operandPair_simulates rfl (node_simulates hcalls hs.1) (node_simulates hcalls hs.2) fun x y =>
      subscript_performs.simulates rfl
termination_by sizeOf n
decreasing_by
  all_goals subst_vars
  all_goals simp only [Node.assign.sizeOf_spec, Node.binary.sizeOf_spec, Node.block.sizeOf_spec, Node.branch.sizeOf_spec,
    Node.call.sizeOf_spec, Node.conditional.sizeOf_spec, Node.expression.sizeOf_spec, Node.list.sizeOf_spec,
    Node.ret.sizeOf_spec, Node.sequence.sizeOf_spec, Node.subscript.sizeOf_spec, Node.unary.sizeOf_spec,
    Option.some.sizeOf_spec]
  all_goals omega

theorem statements_simulate (hcalls : CallsSimulate v depth) {names : String → Prop} {returns : Prop}
    {body : List Node} (hs : AllScoped names returns body) : StatementsSimulate v depth returns body := by
  cases body with
  | nil =>
    simp only [StatementsSimulate]
    simp only [evalStatements]
    exact .nil rfl
  | cons first rest =>
    have hfirst := node_simulates hcalls hs.1
    cases rest with
    | nil =>
      simp only [StatementsSimulate]
      simp only [evalStatements]
      exact hfirst
    | cons second rest => exact statements_cons hfirst (statements_simulate hcalls hs.2)
termination_by sizeOf body

theorem operands_simulates (hcalls : CallsSimulate v depth) {names : String → Prop} {nodes : List Node}
    (hs : AllScoped names False nodes) : OperandsSimulate v depth nodes := by
  cases nodes with
  | nil =>
    simp only [OperandsSimulate]
    simp only [evalAll]
    exact .nil rfl
  | cons first rest => exact operands_cons (node_simulates hcalls hs.1) (operands_simulates hcalls hs.2)
termination_by sizeOf nodes

theorem option_simulates (hcalls : CallsSimulate v depth) {names : String → Prop} {returns : Prop}
    {node : Option Node} (hs : OptionScoped names returns true node) : OptionSimulates v depth returns node := by
  simp only [OptionSimulates]
  cases node with
  | none =>
    simp only [evalOption]
    exact .nil rfl
  | some n =>
    simp only [evalOption]
    exact node_simulates hcalls hs
termination_by sizeOf node

end

end CseMachine.Reference
