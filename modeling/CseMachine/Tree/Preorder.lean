import CseMachine.Tree

/-!
All nodes of a tree, each before the nodes below it, with its depth.
-/
namespace CseMachine.Node

theorem sizeOf_body_lt (f : Func) : sizeOf f.body < sizeOf f := by
  cases f
  simp
  omega

theorem sizeOf_lt_of_mem_toList {c : Node} {o : Option Node} (h : c ∈ o.toList) :
    sizeOf c < sizeOf o := by
  cases o with
  | none => simp at h
  | some n => simp at h; simp [h]

theorem sizeOf_lt_of_mem_children {c n : Node} (h : c ∈ n.children) : sizeOf c < sizeOf n := by
  cases n <;> simp only [children, List.mem_cons, List.not_mem_nil, or_false] at h
  case program | block | sequence | list =>
    have := List.sizeOf_lt_of_mem h
    simp only [program.sizeOf_spec, block.sizeOf_spec, sequence.sizeOf_spec, list.sizeOf_spec]
    omega
  case expression | assign | unary =>
    subst h
    simp only [expression.sizeOf_spec, assign.sizeOf_spec, unary.sizeOf_spec]
    omega
  case define _ _ f _ | lambda _ f =>
    have := sizeOf_body_lt f
    subst h
    simp only [define.sizeOf_spec, lambda.sizeOf_spec]
    omega
  case ret =>
    have := sizeOf_lt_of_mem_toList h
    simp only [ret.sizeOf_spec]
    omega
  case branch =>
    simp only [branch.sizeOf_spec]
    rcases h with rfl | rfl | h
    · omega
    · omega
    · have := sizeOf_lt_of_mem_toList h
      omega
  case conditional =>
    simp only [conditional.sizeOf_spec]
    rcases h with rfl | rfl | rfl <;> omega
  case binary | subscript =>
    simp only [binary.sizeOf_spec, subscript.sizeOf_spec]
    rcases h with rfl | rfl <;> omega
  case call =>
    simp only [call.sizeOf_spec]
    rcases h with rfl | h
    · omega
    · have := List.sizeOf_lt_of_mem h
      omega

/-- The nodes of a tree whose root is `depth` levels down. -/
def preorder (depth : Nat) (node : Node) : List (Nat × Node) :=
  (depth, node) :: node.children.attach.flatMap fun ⟨c, _⟩ => preorder (depth + 1) c
termination_by node
decreasing_by exact sizeOf_lt_of_mem_children (by assumption)

end CseMachine.Node
