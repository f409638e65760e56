import CseMachine.Tree

/-!
# Trees without their spans

Two sources that differ in their layout give trees that differ in their spans.
What is left of a tree without them is its shape.
-/
namespace CseMachine

def Param.bare (p : Param) : Param := { p with span := .none }

mutual

/-- The tree with no span in it. -/
def Node.bare : Node → Node
  | .program _ declarations body => .program .none declarations (bareAll body)
  | .block _ declarations body => .block .none declarations (bareAll body)
  | .sequence _ body => .sequence .none (bareAll body)
  | .expression _ e => .expression .none e.bare
  | .assign _ target value declaration => .assign .none target value.bare declaration
  | .define _ name func declaration => .define .none name func.bare declaration
  | .ret _ value => .ret .none (bareOption value)
  | .branch _ test yes no => .branch .none test.bare yes.bare (bareOption no)
  | .pass _ => .pass .none
  | .literal _ value => .literal .none value
  | .identifier _ name => .identifier .none name
  | .unary _ op e => .unary .none op e.bare
  | .binary _ op a b => .binary .none op a.bare b.bare
  | .conditional _ test yes no => .conditional .none test.bare yes.bare no.bare
  | .lambda _ func => .lambda .none func.bare
  | .call _ callee args => .call .none callee.bare (bareAll args)
  | .list _ items => .list .none (bareAll items)
  | .subscript _ value index => .subscript .none value.bare index.bare

def Func.bare : Func → Func
  | ⟨name, params, body, locals⟩ => ⟨name, params.map Param.bare, body.bare, locals⟩

def bareAll : List Node → List Node
  | [] => []
  | n :: rest => n.bare :: bareAll rest

def bareOption : Option Node → Option Node
  | none => none
  | some n => some n.bare

end

@[simp] theorem bareAll_eq_map (ns : List Node) : bareAll ns = ns.map Node.bare := by
  induction ns with
  | nil => rfl
  | cons n rest ih =>
    simp only [bareAll, List.map_cons]
    rw [ih]

end CseMachine
