import CseMachine.Proofs.Parsing
import CseMachine.Proofs.Scoping.Expressions
import CseMachine.Proofs.Surface

/-!
# Statements as they are written

The statements that tokens spell. Among them are the `nonlocal` lines, of which a tree
keeps nothing, so it takes the statements to tell which names a body makes. A tree is
resolved if each body lists just these names and marks just the statements that make
one of them.
-/
namespace CseMachine.Written

open Parse
open Surface (Binding)

mutual

inductive Stmt where
  | pass
  | ret (value : Option Node)
  /-- A `nonlocal` line. -/
  | outer (names : List String)
  | expression (value : Node)
  | assign (target : String) (value : Node)
  | define (name : String) (params : List Param) (body : Suite)
  | branch (test : Node) (yes : Suite) (no : Alternate)

inductive Suite where
  | nil
  | cons (s : Stmt) (rest : Suite)

/-- What follows the first suite of an `if`. -/
inductive Alternate where
  | none
  | otherwise (body : Suite)
  | elif (test : Node) (yes : Suite) (no : Alternate)

end

mutual

/-- In source order, what a statement does to the names of the body around it. The suites of an `if`
belong to that body, that of a `def` does not. -/
def Stmt.bindings : Stmt → List Binding
  | .assign x _ => [.assigned x]
  | .define f _ _ => [.assigned f]
  | .branch _ yes no => yes.bindings ++ no.bindings
  | .outer xs => xs.map .outer
  | .expression _ | .ret _ | .pass => []

def Suite.bindings : Suite → List Binding
  | .nil => []
  | .cons s rest => s.bindings ++ rest.bindings

def Alternate.bindings : Alternate → List Binding
  | .none => []
  | .otherwise body => body.bindings
  | .elif _ yes no => yes.bindings ++ no.bindings

end

/-! Spelling -/

/-- Names with commas between them. -/
inductive Names : List String → List Token → List Token → Prop
  | last {x : String} {span : Span} {rest : List Token} : Names [x] (⟨.ident x, span⟩ :: rest) rest
  | cons {x : String} {xs : List String} {span comma : Span} {ts rest : List Token} (others : Names xs ts rest) :
      Names (x :: xs) (⟨.ident x, span⟩ :: ⟨.symbol .comma, comma⟩ :: ts) rest

/-- A statement on one line, whose end is left. -/
inductive Stmt.Simple : Stmt → List Token → List Token → Prop
  | pass {span : Span} {rest : List Token} : Simple .pass (⟨.keyword .pass, span⟩ :: rest) rest
  | ret {span : Span} {rest : List Token} : Simple (.ret none) (⟨.keyword .return_, span⟩ :: rest) rest
  | answer {span : Span} {ts rest : List Token} {e : Node} (value : Takes (· = e) rest (expr ts)) :
      Simple (.ret (some e)) (⟨.keyword .return_, span⟩ :: ts) rest
  | outer {span : Span} {ts rest : List Token} {xs : List String} (names : Names xs ts rest) :
      Simple (.outer xs) (⟨.keyword .nonlocal, span⟩ :: ts) rest
  | expression {ts rest : List Token} {e : Node} (value : Takes (· = e) rest (expr ts)) : Simple (.expression e) ts rest
  | assign {span sign : Span} {ts mid rest : List Token} {x : String} {e : Node}
      (target : Takes (· = .identifier span x) (⟨.symbol .assign, sign⟩ :: mid) (expr ts))
      (value : Takes (· = e) rest (expr mid)) : Simple (.assign x e) ts rest

mutual

/-- The tokens from the first list on to the second spell the statement. -/
inductive Stmt.Spelt : Stmt → List Token → List Token → Prop
  | simple {s : Stmt} {span : Span} {ts rest : List Token} (line : s.Simple ts (⟨.newline, span⟩ :: rest)) :
      Stmt.Spelt s ts rest
  | define {f : String} {ps : List Param} {b : Suite} {word name lparen rparen colon : Span} {ts mid rest : List Token}
      (params : Takes (· = ps) (⟨.symbol .rparen, rparen⟩ :: ⟨.symbol .colon, colon⟩ :: mid)
        (params (.symbol .rparen) [] ts))
      (body : Suite.Spelt b mid rest) : Stmt.Spelt (.define f ps b)
        (⟨.keyword .def_, word⟩ :: ⟨.ident f, name⟩ :: ⟨.symbol .lparen, lparen⟩ :: ts) rest
  | branch {e : Node} {b : Suite} {a : Alternate} {word colon : Span} {ts mid mid' rest : List Token}
      (test : Takes (· = e) (⟨.symbol .colon, colon⟩ :: mid) (expr ts)) (yes : Suite.Spelt b mid mid')
      (no : Alternate.Spelt a mid' rest) : Stmt.Spelt (.branch e b a) (⟨.keyword .if_, word⟩ :: ts) rest

/-- Statements behind a colon, one of them on the same line or any number below it. -/
inductive Suite.Spelt : Suite → List Token → List Token → Prop
  | line {s : Stmt} {span : Span} {ts rest : List Token} (line : s.Simple ts (⟨.newline, span⟩ :: rest)) :
      Suite.Spelt (.cons s .nil) ts rest
  | block {b : Suite} {newline indent dedent : Span} {ts rest : List Token}
      (run : Suite.Run b ts (⟨.dedent, dedent⟩ :: rest)) :
      Suite.Spelt b (⟨.newline, newline⟩ :: ⟨.indent, indent⟩ :: ts) rest

/-- Statements one behind the other. -/
inductive Suite.Run : Suite → List Token → List Token → Prop
  | nil {ts : List Token} : Suite.Run .nil ts ts
  | cons {s : Stmt} {b : Suite} {ts mid rest : List Token} (first : Stmt.Spelt s ts mid) (others : Suite.Run b mid rest) :
      Suite.Run (.cons s b) ts rest

inductive Alternate.Spelt : Alternate → List Token → List Token → Prop
  | none {ts : List Token} : Alternate.Spelt .none ts ts
  | otherwise {b : Suite} {word colon : Span} {ts rest : List Token} (body : Suite.Spelt b ts rest) :
      Alternate.Spelt (.otherwise b) (⟨.keyword .else_, word⟩ :: ⟨.symbol .colon, colon⟩ :: ts) rest
  | elif {e : Node} {b : Suite} {a : Alternate} {word colon : Span} {ts mid mid' rest : List Token}
      (test : Takes (· = e) (⟨.symbol .colon, colon⟩ :: mid) (expr ts)) (yes : Suite.Spelt b mid mid')
      (no : Alternate.Spelt a mid' rest) : Alternate.Spelt (.elif e b a) (⟨.keyword .elif, word⟩ :: ts) rest

end

/-- Statements up to the end of the source. -/
inductive Suite.Whole : Suite → List Token → Prop
  | nil : Suite.Whole .nil []
  | eof {span : Span} {rest : List Token} : Suite.Whole .nil (⟨.eof, span⟩ :: rest)
  | blank {b : Suite} {span : Span} {ts : List Token} (whole : Suite.Whole b ts) : Suite.Whole b (⟨.newline, span⟩ :: ts)
  | cons {s : Stmt} {b : Suite} {ts mid : List Token} (first : s.Spelt ts mid) (others : Suite.Whole b mid) :
      Suite.Whole (.cons s b) ts

/-! Resolution -/

/-- The declarations of a body are of the names that its lines assign, apart from parameters and the
names that a line takes from outside, in the order of their first assignment. -/
structure Declares (params : List String) (bs : List Binding) (ds : List Declaration) : Prop where
  distinct : (ds.map (·.name)).Nodup
  changeable : ∀ d ∈ ds, d.constant = false
  exact : ds.map (·.name) = Surface.madeNames params bs

/-- The last node is a `return`. -/
def EndsInReturn (nodes : List Node) : Prop := ∃ front span value, nodes = front ++ [.ret span value]

mutual

/-- The node of a statement in a body that declares the names. A `return` stands in functions only, and
`nonlocal` leaves no node. -/
inductive Stmt.Resolves : List String → Bool → Stmt → Option Node → Prop
  | pass {names : List String} {inside : Bool} {span : Span} : Stmt.Resolves names inside .pass (some (.pass span))
  | ret {names : List String} {span : Span} {e : Option Node} (value : ∀ n, e = some n → n.IsExpr) :
      Stmt.Resolves names true (.ret e) (some (.ret span e))
  | outer {names xs : List String} : Stmt.Resolves names true (.outer xs) none
  | expression {names : List String} {inside : Bool} {span : Span} {e : Node} (value : e.IsExpr) :
      Stmt.Resolves names inside (.expression e) (some (.expression span e))
  | assign {names : List String} {inside d : Bool} {span : Span} {x : String} {e : Node} (value : e.IsExpr)
      (marked : d = true ↔ x ∈ names) : Stmt.Resolves names inside (.assign x e) (some (.assign span x e d))
  | define {names : List String} {inside d : Bool} {f : String} {ps : List Param} {b : Suite} {ds : List Declaration}
      {nodes tail : List Node} {span within : Span} (marked : d = true ↔ f ∈ names) (params : ProperParams ps)
      (made : Declares (ps.map (·.name)) b.bindings ds) (body : Suite.Resolves (ds.map (·.name)) true b nodes)
      (added : tail = [] ∨ ∃ span, tail = [.ret span none]) (returns : EndsInReturn (nodes ++ tail)) :
      Stmt.Resolves names inside (.define f ps b)
        (some (.define span f ⟨some f, ps, .block within ds (nodes ++ tail), ds.map (·.name)⟩ d))
  | branch {names : List String} {inside : Bool} {e : Node} {b : Suite} {a : Alternate} {nodes : List Node}
      {node : Option Node} {span within : Span} (test : e.IsExpr) (yes : Suite.Resolves names inside b nodes)
      (no : Alternate.Resolves names inside a node) :
      Stmt.Resolves names inside (.branch e b a) (some (.branch span e (.block within [] nodes) node))

inductive Suite.Resolves : List String → Bool → Suite → List Node → Prop
  | nil {names : List String} {inside : Bool} : Suite.Resolves names inside .nil []
  | cons {names : List String} {inside : Bool} {s : Stmt} {b : Suite} {node : Option Node} {nodes : List Node}
      (first : Stmt.Resolves names inside s node) (others : Suite.Resolves names inside b nodes) :
      Suite.Resolves names inside (.cons s b) (node.toList ++ nodes)

/-- An `else` is a block that declares nothing, an `elif` a branch. -/
inductive Alternate.Resolves : List String → Bool → Alternate → Option Node → Prop
  | none {names : List String} {inside : Bool} : Alternate.Resolves names inside .none none
  | otherwise {names : List String} {inside : Bool} {b : Suite} {nodes : List Node} {within : Span}
      (body : Suite.Resolves names inside b nodes) :
      Alternate.Resolves names inside (.otherwise b) (some (.block within [] nodes))
  | elif {names : List String} {inside : Bool} {e : Node} {b : Suite} {a : Alternate} {nodes : List Node}
      {node : Option Node} {span within : Span} (test : e.IsExpr) (yes : Suite.Resolves names inside b nodes)
      (no : Alternate.Resolves names inside a node) :
      Alternate.Resolves names inside (.elif e b a) (some (.branch span e (.block within [] nodes) node))

end

/-- The tree of a whole program. -/
inductive Suite.ResolvesProgram : Suite → Node → Prop
  | program {p : Suite} {span : Span} {ds : List Declaration} {nodes : List Node} (made : Declares [] p.bindings ds)
      (body : p.Resolves (ds.map (·.name)) false nodes) : ResolvesProgram p (.program span ds nodes)

/-! Resolved trees are well scoped -/

theorem Declares.not_mem_params {params : List String} {bs : List Binding} {ds : List Declaration} (h : Declares params bs ds)
    {x : String} (hx : x ∈ ds.map (·.name)) : x ∉ params := by
  rw [h.exact, Surface.madeNames, List.mem_eraseDups, List.mem_filter] at hx
  intro hp
  simp [Surface.isOuter, hp] at hx

mutual

theorem Stmt.Resolves.scoped {names : List String} {inside : Bool} {s : Stmt} {node : Option Node}
    (h : s.Resolves names inside node) : OptionScoped (· ∈ names) (inside = true) false node := by
  cases h with
  | pass | outer => trivial
  | ret value => exact ⟨rfl, optionScoped_iff.mpr fun e he => (value e he).scoped⟩
  | expression value => exact value.scoped
  | assign value marked => exact ⟨value.scoped, marked.mp⟩
  | define marked params made body added returns =>
    refine ⟨⟨rfl, ?_, ?_⟩, marked.mp⟩
    · refine List.nodup_append.mpr ⟨params.distinct, made.distinct, fun x hx y hy => ?_⟩
      rintro rfl
      exact made.not_mem_params hy hx
    · refine allScoped_iff.mpr fun n hn => ?_
      rcases List.mem_append.mp hn with hn | hn
      · exact (allScoped_iff.mp (Suite.Resolves.scoped body) n hn).mono (fun _ => id) (fun _ => trivial) id
      · rcases added with rfl | ⟨span, rfl⟩
        · cases hn
        · rw [List.mem_singleton.mp hn]
          exact ⟨trivial, trivial⟩
  | branch test yes no =>
    exact ⟨test.scoped, ⟨rfl, rfl, Suite.Resolves.scoped yes⟩, Alternate.Resolves.scoped no⟩

theorem Suite.Resolves.scoped {names : List String} {inside : Bool} {b : Suite} {nodes : List Node}
    (h : b.Resolves names inside nodes) : AllScoped (· ∈ names) (inside = true) nodes := by
  cases h with
  | nil => trivial
  | @cons _ _ s b node nodes first others =>
    have hfirst := Stmt.Resolves.scoped first
    have hothers := Suite.Resolves.scoped others
    cases node with
    | none => exact hothers
    | some n => exact ⟨hfirst, hothers⟩

theorem Alternate.Resolves.scoped {names : List String} {inside : Bool} {a : Alternate} {node : Option Node}
    (h : a.Resolves names inside node) : OptionScoped (· ∈ names) (inside = true) true node := by
  cases h with
  | none => trivial
  | otherwise body => exact ⟨rfl, rfl, Suite.Resolves.scoped body⟩
  | elif test yes no =>
    exact ⟨test.scoped, ⟨rfl, rfl, Suite.Resolves.scoped yes⟩, Alternate.Resolves.scoped no⟩

end

theorem Suite.ResolvesProgram.scoped {p : Suite} {tree : Node} (h : p.ResolvesProgram tree) : tree.ScopedProgram := by
  cases h with
  | program made body => exact ⟨made.distinct, body.scoped.mono (fun _ => id) nofun⟩

end CseMachine.Written
