import CseMachine.Proofs.Variant

/-!
# Well-scoped trees

A tree is well scoped if every assignment that is a declaration has its name
among those that its body declares, a `return` stands only where a function can
be left, and a block that makes no frame stands only where one is entered. This
is what the parser promises and what the machine relies on.
-/
namespace CseMachine

mutual

/-- The node is well scoped where `names` are declared, a `return` is allowed if `returns` holds, and
`skip` tells that a block makes no frame of its own. -/
def Node.Scoped (names : String → Prop) (returns : Prop) (skip : Bool) : Node → Prop
  | .program .. => False
  | .block _ declarations body => skip = true ∧ declarations = [] ∧ AllScoped names returns body
  | .sequence _ body => AllScoped names returns body
  | .expression _ e => e.Scoped names False false
  | .assign _ target value declaration =>
    value.Scoped names False false ∧ (declaration = true → names target)
  | .define _ name func declaration => func.Scoped ∧ (declaration = true → names name)
  | .ret _ value => returns ∧ OptionScoped names False false value
  | .branch _ test yes no =>
    test.Scoped names False false ∧ yes.Scoped names returns true ∧ OptionScoped names returns true no
  | .pass _ | .literal .. | .identifier .. => True
  | .unary _ _ e => e.Scoped names False false
  | .binary _ _ a b | .subscript _ a b => a.Scoped names False false ∧ b.Scoped names False false
  | .conditional _ test yes no =>
    test.Scoped names False false ∧ yes.Scoped names False true ∧ no.Scoped names False true
  | .lambda _ func => func.Scoped
  | .call _ callee args => callee.Scoped names False false ∧ AllScoped names False args
  | .list _ items => AllScoped names False items

def AllScoped (names : String → Prop) (returns : Prop) : List Node → Prop
  | [] => True
  | n :: rest => n.Scoped names returns false ∧ AllScoped names returns rest

def OptionScoped (names : String → Prop) (returns : Prop) (skip : Bool) : Option Node → Prop
  | none => True
  | some n => n.Scoped names returns skip

/-- Parameters and local names of a function are all different, and its body is well scoped where the
local names are declared. -/
def Func.Scoped : Func → Prop
  | ⟨_, params, .block _ declarations body, locals⟩ =>
    locals = declarations.map (·.name) ∧ (params.map (·.name) ++ locals).Nodup ∧
      AllScoped (· ∈ declarations.map (·.name)) True body
  | _ => False

end

/-- A program whose declarations are all different and which is well scoped where they are made. -/
def Node.ScopedProgram : Node → Prop
  | .program _ declarations body =>
    (declarations.map (·.name)).Nodup ∧ AllScoped (· ∈ declarations.map (·.name)) False body
  | _ => False

theorem Func.Scoped.body {f : Func} (h : f.Scoped) :
    ∃ span declarations body, f.body = .block span declarations body ∧
      f.locals = declarations.map (·.name) ∧ (f.params.map (·.name) ++ f.locals).Nodup ∧
      AllScoped (· ∈ declarations.map (·.name)) True body := by
  obtain ⟨name, params, body, locals⟩ := f
  cases body with
  | block span declarations body => exact ⟨span, declarations, body, rfl, h⟩
  | _ => exact h.elim

variable {names names' : String → Prop} {returns returns' : Prop} {skip skip' : Bool}

theorem allScoped_iff {nodes : List Node} :
    AllScoped names returns nodes ↔ ∀ n ∈ nodes, n.Scoped names returns false := by
  induction nodes with
  | nil => simp [AllScoped]
  | cons n rest ih => simp [AllScoped, ih]

theorem optionScoped_iff {node : Option Node} :
    OptionScoped names returns skip node ↔ ∀ n, node = some n → n.Scoped names returns skip := by
  cases node <;> simp [OptionScoped]

mutual

/-- More names, a place to return to and a frame arranged already do no harm. -/
theorem Node.Scoped.mono {names names' : String → Prop} {returns returns' : Prop} {skip skip' : Bool}
    (hn : ∀ x, names x → names' x) (hr : returns → returns') (hs : skip = true → skip' = true)
    {n : Node} (h : n.Scoped names returns skip) : n.Scoped names' returns' skip' := by
  cases n with
  | program => exact h.elim
  | block => exact ⟨hs h.1, h.2.1, h.2.2.mono hn hr⟩
  | sequence => exact AllScoped.mono hn hr h
  | expression span e => exact Node.Scoped.mono (n := e) hn id id h
  | assign => exact ⟨h.1.mono hn id id, fun hd => hn _ (h.2 hd)⟩
  | define => exact ⟨h.1, fun hd => hn _ (h.2 hd)⟩
  | ret => exact ⟨hr h.1, h.2.mono hn id id⟩
  | branch => exact ⟨h.1.mono hn id id, h.2.1.mono hn hr id, h.2.2.mono hn hr id⟩
  | pass | literal | identifier => trivial
  | unary span op e => exact Node.Scoped.mono (n := e) hn id id h
  | binary => exact ⟨h.1.mono hn id id, h.2.mono hn id id⟩
  | subscript => exact ⟨h.1.mono hn id id, h.2.mono hn id id⟩
  | conditional => exact ⟨h.1.mono hn id id, h.2.1.mono hn id id, h.2.2.mono hn id id⟩
  | lambda => exact h
  | call => exact ⟨h.1.mono hn id id, h.2.mono hn id⟩
  | list => exact AllScoped.mono hn id h

theorem AllScoped.mono {names names' : String → Prop} {returns returns' : Prop}
    (hn : ∀ x, names x → names' x) (hr : returns → returns')
    {nodes : List Node} (h : AllScoped names returns nodes) : AllScoped names' returns' nodes := by
  cases nodes with
  | nil => trivial
  | cons n rest => exact ⟨h.1.mono hn hr id, h.2.mono hn hr⟩

theorem OptionScoped.mono {names names' : String → Prop} {returns returns' : Prop} {skip skip' : Bool}
    (hn : ∀ x, names x → names' x) (hr : returns → returns') (hs : skip = true → skip' = true)
    {node : Option Node} (h : OptionScoped names returns skip node) :
    OptionScoped names' returns' skip' node := by
  cases node with
  | none => trivial
  | some n => exact Node.Scoped.mono (n := n) hn hr hs h

end

mutual

/-- Where nothing depends on the environment no name has to be declared. -/
theorem Node.Scoped.forget {names names' : String → Prop} {returns : Prop} {skip : Bool} {n : Node}
    (h : n.Scoped names returns skip) (hd : n.isEnvDependent = false) :
    n.Scoped names' returns skip := by
  cases n with
  | program => exact h.elim
  | block =>
    simp only [Node.isEnvDependent, Bool.or_eq_false_iff] at hd
    exact ⟨h.1, h.2.1, h.2.2.forget hd.2⟩
  | sequence => exact AllScoped.forget h hd
  | expression span e => exact Node.Scoped.forget (n := e) h hd
  | assign => cases hd
  | define => cases hd
  | ret => exact ⟨h.1, h.2.forget hd⟩
  | branch =>
    simp only [Node.isEnvDependent, Bool.or_eq_false_iff] at hd
    exact ⟨h.1.forget hd.1.1, h.2.1.forget hd.1.2, h.2.2.forget hd.2⟩
  | pass | literal | identifier => trivial
  | unary span op e => exact Node.Scoped.forget (n := e) h hd
  | binary =>
    simp only [Node.isEnvDependent, Bool.or_eq_false_iff] at hd
    exact ⟨h.1.forget hd.1, h.2.forget hd.2⟩
  | subscript =>
    simp only [Node.isEnvDependent, Bool.or_eq_false_iff] at hd
    exact ⟨h.1.forget hd.1, h.2.forget hd.2⟩
  | conditional =>
    simp only [Node.isEnvDependent, Bool.or_eq_false_iff] at hd
    exact ⟨h.1.forget hd.1.1, h.2.1.forget hd.1.2, h.2.2.forget hd.2⟩
  | lambda => cases hd
  | call =>
    simp only [Node.isEnvDependent, Bool.or_eq_false_iff] at hd
    exact ⟨h.1.forget hd.1, h.2.forget hd.2⟩
  | list => exact AllScoped.forget h hd

theorem AllScoped.forget {names names' : String → Prop} {returns : Prop} {nodes : List Node}
    (h : AllScoped names returns nodes) (hd : anyEnvDependent nodes = false) :
    AllScoped names' returns nodes := by
  cases nodes with
  | nil => trivial
  | cons n rest =>
    simp only [anyEnvDependent, Bool.or_eq_false_iff] at hd
    exact ⟨h.1.forget hd.1, h.2.forget hd.2⟩

theorem OptionScoped.forget {names names' : String → Prop} {returns : Prop} {skip : Bool}
    {node : Option Node} (h : OptionScoped names returns skip node)
    (hd : optionEnvDependent node = false) : OptionScoped names' returns skip node := by
  cases node with
  | none => trivial
  | some n => exact Node.Scoped.forget (n := n) h hd

end

end CseMachine
