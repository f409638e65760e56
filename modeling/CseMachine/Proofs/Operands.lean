import CseMachine.Proofs.WellFormed

/-!
# Operands

Whatever is loaded at whatever moment, an instruction that takes values off the Stash
finds one there: what drops a value stands above a node, and a node leaves one.
-/
namespace CseMachine

namespace Item

/-- The item leaves a value on the Stash and takes none from it. -/
def gives : Item → Bool
  | .node .. => true
  | .instr (.list 0) _ => true
  | _ => false

def isPop : Item → Bool
  | .instr .pop _ => true
  | _ => false

end Item

namespace Control

variable {b : Bool} {item : Item} {items below : List Item}

/-- From the top on, each item leaves a value by itself or finds one; `b` tells whether there is one for the first. -/
def Supplied : Bool → List Item → Prop
  | _, [] => True
  | b, item :: below => (item.gives = true ∨ b = true) ∧ Supplied (!item.isPop) below

namespace Supplied

/-- A value more does no harm. -/
theorem mono (h : Supplied b items) : Supplied true items := by
  cases items with
  | nil => trivial
  | cons item below => exact ⟨.inr rfl, h.2⟩

theorem tail (h : Supplied b (item :: below)) : Supplied true below := h.2.mono

theorem belowMarker (h : Supplied true items) : Supplied true (Control.belowMarker items) := by
  induction items with
  | nil => trivial
  | cons item below ih =>
    simp only [Control.belowMarker]
    split
    · exact h.tail
    · exact ih h.tail

/-- A node needs nothing on the Stash. -/
theorem node (h : Supplied true below) (n : Node) (skip : Bool) : Supplied b (.node n skip :: below) := ⟨.inl rfl, h⟩

theorem operands (h : Supplied true below) (nodes : List Node) : Supplied true (Node.operands nodes ++ below) := by
  induction nodes with
  | nil => exact h
  | cons n nodes ih => exact ih.node n false

theorem statementItems (h : Supplied true below) (first : Node) (others : List Node) :
    Supplied b (Node.statementItems (first :: others) ++ below) := by
  induction others generalizing first b with
  | nil => exact h.node first false
  | cons second others ih => exact ⟨.inl rfl, .inr rfl, ih second⟩

/-- A block that declares nothing may be pushed as a sequence. -/
theorem shapes (h : Supplied b (items ++ below)) : Supplied b (items.map Variant.standard.shape ++ below) := by
  have hshape : ∀ item : Item, item.flatten.gives = item.gives ∧ item.flatten.isPop = item.isPop := by
    intro item
    unfold Item.flatten
    split <;> exact ⟨rfl, rfl⟩
  induction items generalizing b with
  | nil => exact h
  | cons item items ih =>
    obtain ⟨hgives, hpop⟩ := hshape item
    exact ⟨hgives.symm ▸ h.1, ih (hpop.symm ▸ h.2)⟩

/-- What takes the place of a node starts with something that needs no value. -/
theorem parts (h : Supplied true below) {n : Node} (hp : n.parts? = some items) : Supplied b (items ++ below) := by
  have hoperands : ∀ (first : Node) (others : List Node) (i : Instr) (span : Span), (Item.instr i span).isPop = false →
      Supplied b (Node.operands (first :: others) ++ [.instr i span] ++ below) := by
    intro first others i span hpop
    have hinstr : Supplied true (.instr i span :: below) := ⟨.inr rfl, hpop.symm ▸ h⟩
    rw [List.append_assoc]
    exact (hinstr.operands others).node first false
  simp only [Node.parts?] at hp
  split at hp <;> cases hp
  · exact h.statementItems _ _
  · exact h.node _ false
  · exact hoperands _ [] _ _ rfl
  · exact hoperands _ [] _ _ rfl
  · exact hoperands _ [] _ _ rfl
  · exact hoperands _ [] _ _ rfl
  · exact hoperands _ [] _ _ rfl
  · exact hoperands _ [_] _ _ rfl
  · exact hoperands _ _ _ _ rfl
  · next items =>
    cases items with
    | nil => exact ⟨.inl rfl, h⟩
    | cons first others => exact hoperands first others _ _ rfl
  · exact hoperands _ [_] _ _ rfl

end Supplied
end Control

namespace Context

variable {c d : Context}

/-- The next item leaves a value by itself or finds one on the Stash. -/
def Supplied (c : Context) : Prop := Control.Supplied (!c.stash.items.isEmpty) c.control.items.items

/-- So it is once a value has been pushed. -/
def Awaits (c : Context) : Prop := Control.Supplied true c.control.items.items

/-- It may end in any context, but one that succeeds has the property. -/
abbrev Succeeds {α : Type} (c : Context) (Q : Context → α → Prop) : EStateM.Result EvalError Context α → Prop :=
  Leads (fun _ _ => True) c Q

end Context

namespace Action

open Context (Awaits Supplied Succeeds)

variable {c : Context} {α : Type}

theorem succeeds_onMemory (h : c.Awaits) (op : Memory.Op α) : Succeeds c (fun d _ => d.Awaits) (onMemory op c) := by
  simp only [onMemory]
  split
  · exact .single trivial h
  · exact Relation.ReflTransGen.single trivial

variable (h : c.Awaits)
include h

theorem succeeds_ofExcept (r : Except EvalError α) : Succeeds c (fun d _ => d.Awaits) (ofExcept r c) := by
  cases r with
  | ok a => exact .ok h
  | error e => exact .error _ _ _ e

theorem succeeds_pushValue (w : Value) : Succeeds c (fun d _ => d.Supplied) (pushValue w c) := .single trivial h

theorem succeeds_popValue : Succeeds c (fun d _ => d.Awaits) (popValue c) := by
  simp only [popValue]
  split
  · exact .single trivial h
  · exact .error _ _ _ _

theorem succeeds_popValues (count : Nat) (fault : EvalError.Fault) : Succeeds c (fun d _ => d.Awaits) (popValues count fault c) := by
  simp only [popValues]
  split
  · exact .single trivial h
  · exact .error _ _ _ _

theorem succeeds_declareAll (env : EnvId) (declarations : List Declaration) :
    Succeeds c (fun d _ => d.Awaits) (declareAll env declarations c) := by
  induction declarations generalizing c with
  | nil => exact .ok h
  | cons d rest ih => exact (succeeds_onMemory h _).bind fun _ _ _ hd => ih hd

theorem succeeds_closureHere (make : Func → EnvId → RunId → Bool → Span → Closure) (func : Func) (span : Span) :
    Succeeds c (fun d _ => d.Awaits) (closureHere make func span c) :=
  (succeeds_onMemory h _).bind fun _ _ _ hd => .ok hd

/-- Push the value of an operation or fail. -/
theorem succeeds_answer (f : Context → Except EvalError Value) :
    Succeeds c (fun d _ => d.Supplied) ((do pushValue (← ofExcept (f (← get))) : Action Unit) c) :=
  (succeeds_ofExcept h (f c)).bind fun _ w _ hd => succeeds_pushValue hd w

omit h in
theorem succeeds_pushControl {items : List Item} (hi : Control.Supplied (!c.stash.items.isEmpty) (items ++ c.control.items.items)) :
    Succeeds c (fun d _ => d.Supplied) (pushControl (Variant.standard.pushAll · items) c) := by
  refine .single trivial ?_
  simp only [Context.Supplied, Control.items_pushAll]
  exact hi.shapes

theorem succeeds_instr {i : Instr} {span : Span} (hi : (Item.instr i span).isPop = false) :
    Succeeds c (fun d _ => d.Awaits) (pushControl (·.pushInstr i span) c) :=
  .single trivial ⟨.inr rfl, hi.symm ▸ h⟩

theorem succeeds_assign (name : String) (constant declaration : Bool) :
    Succeeds c (fun d _ => d.Supplied) (assign name constant declaration c) := by
  rw [assign_eq]
  refine (succeeds_popValue h).bind fun d w _ hd => ?_
  exact (succeeds_onMemory hd _).bind fun d' _ _ hd' => succeeds_pushValue hd' .none

theorem succeeds_callBuiltin (f : Builtin) (args : List Value) : Succeeds c (fun d _ => d.Supplied) (callBuiltin f args c) := by
  rw [Variant.callBuiltin_eq]
  refine (succeeds_ofExcept h _).bind fun d w _ hd => ?_
  have hprint : ({ d with output := d.output ++ f.printed c.memory.store args } : Context).Awaits := hd
  exact (succeeds_pushValue hprint w).after (.single trivial)

end Action

namespace Variant

open Context (Awaits Supplied Succeeds)
open CseMachine.Action

variable {c : Context} (h : c.Awaits)
include h

theorem succeeds_pushRestore (span : Span) : Succeeds c (fun d _ => d.Awaits) (standard.pushRestore span c) := by
  refine .single trivial ?_
  dsimp only
  split
  · exact h
  · exact ⟨.inr rfl, h⟩

theorem succeeds_pushStatements (body : List Node) : Succeeds c (fun d _ => d.Supplied) (standard.pushStatements body c) := by
  cases body with
  | nil => exact succeeds_pushValue h .none
  | cons first others => exact succeeds_pushControl (h.statementItems first others)

theorem succeeds_body (env : EnvId) (declarations : List Declaration) (body : List Node) :
    Succeeds c (fun d _ => d.Supplied) ((declareAll env declarations >>= fun _ => standard.pushStatements body) c) :=
  (succeeds_declareAll h env declarations).bind fun _ _ _ hd => succeeds_pushStatements hd body

omit h in
/-- What follows the environment of a program or a block that was entered. -/
theorem succeeds_entered {create : Memory → EnvId × Memory} {f : EnvId → Action Unit} (h : c.Awaits)
    (hf : ∀ {d : Context} (env : EnvId), d.Awaits → Succeeds d (fun d _ => d.Supplied) (f env d)) :
    Succeeds c (fun d _ => d.Supplied) ((enter create >>= f) c) := by
  have henter : Succeeds c (fun d _ => d.Awaits) (enter create c) := .single trivial h
  exact henter.bind fun _ env _ hd => hf env hd

theorem succeeds_evalNode (skipEnv : Bool) (n : Node) : Succeeds c (fun d _ => d.Supplied) (standard.evalNode skipEnv n c) := by
  cases hp : n.parts? with
  | some items =>
    simp only [evalNode, hp]
    exact succeeds_pushControl (Control.Supplied.parts h hp)
  | none =>
    cases n with
    | program span declarations body =>
      change Succeeds c _ (standard.evalSelf skipEnv (.program span declarations body) c)
      rw [evalSelf_program]
      refine succeeds_entered h fun {d} env hd => ?_
      have hprogram : ({ d with programEnv := some env } : Context).Awaits := hd
      exact (succeeds_body hprogram env declarations body).after (.single trivial)
    | block span declarations body =>
      cases skipEnv with
      | true => exact succeeds_body h _ declarations body
      | false =>
        change Succeeds c _ (standard.evalSelf false (.block span declarations body) c)
        rw [evalSelf_block]
        refine (succeeds_pushRestore h span).bind fun d _ _ hd => ?_
        exact succeeds_entered hd fun env hd' => succeeds_body hd' env declarations body
    | sequence span body =>
      cases body with
      | nil => exact succeeds_pushValue h .none
      | cons => cases hp
    | ret span value =>
      cases value with
      | none => exact (succeeds_instr h (i := .reset) rfl).bind fun _ _ _ hd => succeeds_pushValue hd .none
      | some e => cases hp
    | define span name func declaration =>
      refine (succeeds_closureHere h Closure.ofDefine func span).bind fun _ w _ hd => ?_
      exact (succeeds_instr hd (i := .assignment name false declaration) rfl).bind fun _ _ _ hd' => succeeds_pushValue hd' w
    | lambda span func =>
      exact (succeeds_closureHere h Closure.ofLambda func span).bind fun _ w _ hd => succeeds_pushValue hd w
    | identifier span name => exact succeeds_answer h (·.memory.get name)
    | literal span l => exact succeeds_pushValue h (.ofLiteral l)
    | pass => exact succeeds_pushValue h .none
    | _ => cases hp

/-! Calls -/

theorem succeeds_leaveCaller (span : Span) : Succeeds c (fun d _ => d.Awaits) (standard.leaveCaller span c) := by
  rw [leaveCaller_eq]
  simp only [left]
  split
  · split <;> exact .single trivial h
  · exact succeeds_pushRestore h span

theorem succeeds_callClosure (id : ObjId) (args : List Value) (span : Span) :
    Succeeds c (fun d _ => d.Supplied) (standard.callClosure id args span c) := by
  rw [callClosure_eq]
  cases c.memory.store.closure? id with
  | none => exact .error _ _ _ _
  | some closure =>
    dsimp only
    split
    · exact .error _ _ _ _
    · refine (succeeds_ofExcept h _).bind fun d _ _ hd => ?_
      refine (succeeds_leaveCaller hd span).bind fun d₁ _ _ h₁ => ?_
      refine (succeeds_onMemory h₁ _).bind fun d₂ env _ h₂ => ?_
      have hentered : ({ d₂ with memory := d₂.memory.push env } : Context).Awaits := h₂
      refine Leads.after (succeeds_pushControl ?_) (.single trivial)
      simp only [bodyItems]
      split
      · exact Control.Supplied.node hentered _ _
      · exact ⟨.inl rfl, .inr rfl, hentered⟩

/-! All items -/

omit h in
/-- A value that lies on the Stash is enough for what follows. -/
theorem supplied_of_value (h : c.Awaits) (hv : (!c.stash.items.isEmpty) = true) : c.Supplied := by
  simp only [Context.Supplied, hv]
  exact h

omit h in
theorem succeeds_execute {item : Item} (h : Control.Supplied (!c.stash.items.isEmpty) (item :: c.control.items.items)) :
    Succeeds c (fun d _ => d.Supplied) (standard.execute item c) := by
  have ha : c.Awaits := h.tail
  cases item with
  | node n skipEnv => exact succeeds_evalNode ha skipEnv n
  | instr i span =>
    cases i with
    | pop =>
      have hbelow : Control.Supplied false c.control.items.items := h.2
      refine Leads.bind (Q := fun d _ => Control.Supplied false d.control.items.items) ?_ fun d _ _ hd => .ok ?_
      · simp only [popValue]
        split
        · exact .single trivial hbelow
        · exact .error _ _ _ _
      · simp only [Context.Supplied]
        cases d.stash.items.isEmpty with
        | true => exact hd
        | false => exact hd.mono
    | assignment name constant declaration => exact succeeds_assign ha name constant declaration
    | unary op => exact (succeeds_popValue ha).bind fun _ w _ hd => succeeds_answer hd fun _ => w.unary op
    | binary op =>
      refine (succeeds_popValue ha).bind fun _ y _ hd => ?_
      exact (succeeds_popValue hd).bind fun _ x _ hd' => succeeds_answer hd' fun c => x.binary c.memory.store op y
    | application count =>
      refine (succeeds_popValues ha count _).bind fun _ args _ hd => ?_
      refine (succeeds_popValue hd).bind fun _ w _ hd' => ?_
      cases w with
      | builtin f => exact succeeds_callBuiltin hd' f args
      | closure id => exact succeeds_callClosure hd' id args span
      | _ => exact .error _ _ _ _
    | branch yes no =>
      refine (succeeds_popValue ha).bind fun _ w _ hd => ?_
      cases w with
      | bool taken =>
        dsimp only
        cases (if taken then some yes else no) with
        | some n => exact @succeeds_pushControl _ [.node n true] (Control.Supplied.node hd n true)
        | none => exact succeeds_pushValue hd .none
      | _ => exact .error _ _ _ _
    | restore target =>
      have hs := supplied_of_value ha (h.1.resolve_left Bool.false_ne_true)
      have hleft : Succeeds c (fun d _ => d.Supplied) (onMemory (Memory.restore target) c) := by
        simp only [onMemory]
        split
        · exact .single trivial hs
        · exact Relation.ReflTransGen.single trivial
      refine hleft.bind fun d left _ hd => .single trivial ?_
      obtain ⟨m, hk, -⟩ := d.keepResult_eq target left
      show (d.keepResult target left).Supplied
      rw [hk]
      exact hd
    | marker => exact .ok (supplied_of_value ha (h.1.resolve_left Bool.false_ne_true))
    | reset =>
      refine .single trivial (supplied_of_value ?_ (h.1.resolve_left Bool.false_ne_true))
      simp only [Context.Awaits, Control.unwind, Control.items_dropToMarker]
      exact ha.belowMarker
    | list count =>
      refine (succeeds_popValues ha count _).bind fun _ items _ hd => ?_
      exact (succeeds_onMemory hd _).bind fun _ id _ hd' => succeeds_pushValue hd' (.list id)
    | subscript =>
      refine (succeeds_popValue ha).bind fun _ y _ hd => ?_
      exact (succeeds_popValue hd).bind fun _ x _ hd' => succeeds_answer hd' fun c => x.subscript c.memory.store y

end Variant

namespace Context

variable {c d : Context} {item : Item}

namespace Supplied

variable (h : c.Supplied)
include h

theorem taken {rest : Control} (hp : c.control.pop? = some (item, rest)) :
    Control.Supplied (!c.stash.items.isEmpty) (item :: rest.items.items) := by
  simp only [Control.pop?, Stack.pop?] at hp
  simp only [Supplied] at h
  cases hi : c.control.items.items with
  | nil =>
    rw [hi] at hp
    cases hp
  | cons top below =>
    rw [hi] at hp h
    cases hp
    exact h

theorem advance (ha : c.advance? = some (item, d)) (hd : d.phase ≠ .errored) : d.Supplied := by
  obtain ⟨rest, e, hp, hx⟩ := advance?_eq_some ha
  have he := Variant.succeeds_execute (c := c.taken rest) (h.taken hp)
  rw [Variant.execute_standard] at he
  rcases hx with ⟨hx, rfl⟩ | ⟨error, hx, rfl⟩
  · rw [hx] at he
    split
    · exact he.2
    · exact he.2
  · exact absurd rfl hd

theorem load (program : Node) : (c.load program).Supplied := by
  simp only [Context.load]
  split
  · exact h
  · have hitems : Control.Supplied false ([.node program false].map Variant.standard.shape ++ c.control.items.items) :=
      @Control.Supplied.shapes _ [.node program false] _ (Control.Supplied.node h.mono program false)
    exact hitems

end Supplied

/-- With nothing on Control nothing is needed. -/
theorem supplied_of_isEmpty (hc : c.control.isEmpty = true) : c.Supplied := by
  simp only [Supplied, List.isEmpty_iff.mp hc]
  trivial

theorem supplied_kept : Kept fun c => c.phase ≠ .errored → c.Supplied where
  advanced h hp ha hd := (h hp).advance ha hd
  finished _ _ hn _ := supplied_of_isEmpty ((congrArg Control.isEmpty (control_settle _)).trans hn)
  suspended h hp _ := h hp

/-- An instruction other than one that makes an empty list has a value on the Stash when its turn comes. -/
theorem Supplied.exists_value (h : c.Supplied) {rest : Control} (hp : c.control.pop? = some (item, rest))
    (hg : item.gives = false) : ∃ w stash, c.stash.items = w :: stash := by
  have hv := (h.taken hp).1
  rw [hg] at hv
  cases hs : c.stash.items with
  | nil =>
    rw [hs] at hv
    cases hv.resolve_left Bool.false_ne_true
  | cons w stash => exact ⟨w, stash, rfl⟩

end Context

/-- Until a step fails what is next has what it takes, in every context there is. -/
theorem Setup.Reachable.supplied {s : Setup} {run : RunId} {c : Context} (h : s.Reachable run c) :
    c.phase ≠ .errored → c.Supplied := by
  refine Context.supplied_kept.reachable (fun _ _ => Context.supplied_of_isEmpty rfl)
    (fun _ _ => Context.supplied_of_isEmpty rfl) (fun _ _ hn _ => Context.supplied_of_isEmpty hn) (fun {c} program hc hp => ?_)
    (fun _ hc => hc) h
  by_cases he : c.phase = .errored
  · simp only [Context.load, if_pos he] at hp
    exact absurd he hp
  · exact (hc he).load program

end CseMachine
