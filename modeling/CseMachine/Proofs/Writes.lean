import CseMachine.Proofs.Memory.Writes
import CseMachine.Proofs.Safety.Instructions
import CseMachine.Proofs.WellFormed

/-!
# What items write

A block, a call and a program bind names in an environment that they make, a
declaration binds in the current one, and any other assignment in the one that its
name is found in. The machine never comes back to the global environment once it has
left it for that of a program.
-/
namespace CseMachine

open Relation (ReflTransGen)

/-- The environments in which executing the item may bind names. -/
def Item.Writes (m : Memory) : Item → EnvId → Prop
  | .node (.block ..) true, id => id = m.current
  | .instr (.assignment _ _ true) _, id => id = m.current
  | .instr (.assignment name _ false) _, id =>
    ∃ frame slot, m.resolve name = .found id frame slot ∧ slot.constant = false
  | _, id => m.nextEnv ≤ id.index

namespace Context

variable {c d : Context}

/-- Nothing leads back to the global environment. -/
structure Apart (c : Context) : Prop where
  program : c.programEnv ≠ some .global
  pending : EnvId.global ∉ c.control.pending
  made : 0 < c.memory.nextEnv

/-- The machine is in some other environment than the global one. -/
structure Inside (c : Context) : Prop extends Apart c where
  current : c.memory.current ≠ .global

theorem Apart.congr (h : c.Apart) (hm : c.memory.nextEnv ≤ d.memory.nextEnv) (hp : d.programEnv = c.programEnv)
    (hc : d.control.pending ⊆ c.control.pending) : d.Apart :=
  ⟨hp ▸ h.program, fun hi => h.pending (hc hi), Nat.lt_of_lt_of_le h.made hm⟩

theorem Apart.new_ne_global (h : c.Apart) : (⟨c.memory.nextEnv⟩ : EnvId) ≠ .global := by
  intro he
  exact absurd (congrArg EnvId.index he) (Nat.ne_of_gt h.made)

/-- A change of Control, Stash and output that arranges no restore. -/
theorem Inside.quiet (h : c.Inside) (hm : d.memory = c.memory) (hp : d.programEnv = c.programEnv)
    (hc : d.control.pending ⊆ c.control.pending) : d.Inside :=
  ⟨h.toApart.congr (Nat.le_of_eq (congrArg Memory.nextEnv hm).symm) hp hc, hm ▸ h.current⟩

/-- An operation on the memory that enters and leaves no environment. -/
theorem Inside.withMemory (h : c.Inside) {m : Memory} (hn : c.memory.nextEnv ≤ m.nextEnv)
    (ha : m.active = c.memory.active) : ({ c with memory := m } : Context).Inside := by
  refine ⟨h.toApart.congr hn rfl (List.Subset.refl _), ?_⟩
  show m.active.headD .global ≠ _
  rw [ha]
  exact h.current

/-- What is bound in other environments than those stays as it is. -/
def Writes (W : EnvId → Prop) (c d : Context) : Prop := c.memory.Spares W d.memory

namespace Writes

variable {W : EnvId → Prop}

theorem of_eq (h : d.memory = c.memory) : Writes W c d := by
  rw [Writes, h]
  exact .refl W _

theorem of_changes (h : ReflTransGen (Writes W) c d) : Writes W c d := by
  induction h with
  | refl => exact of_eq rfl
  | tail _ h ih => exact ih.trans h

end Writes
end Context

namespace Action

open Context (Inside Apart Writes)

variable {W : EnvId → Prop} {c : Context} {α : Type}

/-! Actions -/

/-- An operation on the memory leaves all but the memory as it is. -/
theorem writes_onMemory {op : Memory.Op α} {Q : Memory → α → Prop}
    (h : Leads (Memory.Writes W) c.memory Q (op c.memory)) :
    Leads (Writes W) c (fun d a => Q d.memory a ∧ d = { c with memory := d.memory }) (onMemory op c) :=
  lift_onMemory (fun hm => hm.toSpares) h

theorem writes_ofExcept (r : Except EvalError α) : Leads (Writes W) c (fun d a => d = c ∧ r = .ok a) (ofExcept r c) := by
  cases r with
  | ok a => exact .ok ⟨rfl, rfl⟩
  | error e => exact .error _ _ _ e

variable (h : c.Inside)
include h

theorem writes_pushValue (w : Value) : Leads (Writes W) c (fun d _ => d.Inside) (pushValue w c) :=
  .single (.of_eq rfl) (h.quiet rfl rfl (List.Subset.refl _))

theorem writes_pushControl {items : List Item} (ht : Control.targets items = []) :
    Leads (Writes W) c (fun d _ => d.Inside) (pushControl (Variant.standard.pushAll · items) c) := by
  refine .single (.of_eq rfl) (h.quiet rfl rfl fun id hi => ?_)
  exact Control.pending_pushAll ht ▸ hi

theorem writes_instr {i : Instr} {span : Span} (hi : i.restoreTarget? = none) :
    Leads (Writes W) c (fun d _ => d.Inside) (pushControl (·.pushInstr i span) c) := by
  refine writes_pushControl h (show Control.targets [.instr i span] = [] from ?_)
  rw [Control.targets_cons, show (Item.instr i span).restoreTarget? = i.restoreTarget? from rfl, hi]
  rfl

theorem writes_popValue : Leads (Writes W) c (fun d _ => d.Inside ∧ d.memory = c.memory) (popValue c) := by
  simp only [popValue]
  split
  · exact .single (.of_eq rfl) ⟨h.quiet rfl rfl (List.Subset.refl _), rfl⟩
  · exact .error _ _ _ _

theorem writes_popValues (count : Nat) (fault : EvalError.Fault) :
    Leads (Writes W) c (fun d _ => d.Inside ∧ d.memory = c.memory) (popValues count fault c) := by
  simp only [popValues]
  split
  · exact .single (.of_eq rfl) ⟨h.quiet rfl rfl (List.Subset.refl _), rfl⟩
  · exact .error _ _ _ _

/-- Push the value of an operation or fail. -/
theorem writes_answer (f : Context → Except EvalError Value) :
    Leads (Writes W) c (fun d _ => d.Inside) ((do pushValue (← ofExcept (f (← get))) : Action Unit) c) := by
  refine (writes_ofExcept (f c)).bind fun d w _ hq => ?_
  rw [hq.1]
  exact writes_pushValue h w

/-- An operation on the memory that may write there. -/
theorem writes_operation {op : Memory.Op α} (hop : Leads (Memory.Writes W) c.memory Memory.Any (op c.memory)) :
    Leads (Writes W) c (fun d _ => d.Inside) (onMemory op c) := by
  cases ho : op c.memory with
  | ok a m =>
    rw [ho] at hop
    have hw := Memory.Writes.of_changes hop.1
    rw [onMemory_ok ho]
    exact .single hw.toSpares (h.withMemory hw.nextEnv hw.active)
  | error e m =>
    rw [ho] at hop
    have hw := Memory.Writes.of_changes hop
    rw [onMemory_error ho]
    exact ReflTransGen.single hw.toSpares

theorem writes_declareAll {env : EnvId} (hw : W env) (declarations : List Declaration) :
    Leads (Writes W) c (fun d _ => d.Inside) (declareAll env declarations c) := by
  induction declarations generalizing c with
  | nil => exact .ok h
  | cons d rest ih =>
    exact (writes_operation h (Memory.writes_declare hw d.name d.constant)).bind fun _ _ _ hd => ih hd

theorem writes_closureHere (make : Func → EnvId → RunId → Bool → Span → Closure) (func : Func) (span : Span) :
    Leads (Writes W) c (fun d _ => d.Inside) (closureHere make func span c) :=
  (writes_operation h (Memory.writes_allocIn W c.memory _ _)).bind fun _ _ _ hd => .ok hd

theorem writes_callBuiltin (f : Builtin) (args : List Value) :
    Leads (Writes W) c (fun d _ => d.Inside) (callBuiltin f args c) := by
  rw [Variant.callBuiltin_eq]
  refine (writes_ofExcept _).bind fun d w _ hq => ?_
  obtain ⟨rfl, -⟩ := hq
  have hprint : ({ d with output := d.output ++ f.printed d.memory.store args } : Context).Inside :=
    h.quiet rfl rfl (List.Subset.refl _)
  exact Leads.after (writes_pushValue hprint w) (.single (.of_eq rfl))

theorem writes_assign {name : String} {declaration : Bool} (hd : declaration = true → W c.memory.current)
    (ha : declaration = false → ∀ id e slot, c.memory.resolve name = .found id e slot → slot.constant = false → W id)
    (constant : Bool) : Leads (Writes W) c (fun d _ => d.Inside) (assign name constant declaration c) := by
  rw [assign_eq]
  refine (writes_popValue h).bind fun d w _ hq => ?_
  obtain ⟨hi, hm⟩ := hq
  have hcurrent : (c.memory.named w name).current = c.memory.current := by cases w <;> rfl
  have hbind : Leads (Memory.Writes W) d.memory Memory.Any
      (Memory.bindName name w constant declaration (d.memory.named w name)) := by
    rw [hm]
    refine Leads.after ?_ (.single (.named c.memory w name))
    exact Memory.writes_bindName (hcurrent ▸ hd) (c.memory.resolve_named w name name ▸ ha) w constant
  exact (writes_operation hi hbind).bind fun _ _ _ hi => writes_pushValue hi .none

end Action

namespace Variant

open Context (Inside Apart Writes)
open CseMachine.Action

variable {W : EnvId → Prop} {c : Context}

/-- A new environment is entered, which is not the global one. -/
theorem writes_enter (h : c.Apart) (hw : W ⟨c.memory.nextEnv⟩) {create : Memory → EnvId × Memory} {name : String}
    {tail : Option EnvId} (hc : create c.memory = c.memory.create name tail) :
    Leads (Writes W) c (fun d env => d.Inside ∧ W env ∧ env ≠ .global) (enter create c) := by
  have hcreate : c.memory.Writes W (c.memory.create name tail).2 := .create hw name tail
  have hnew := h.new_ne_global
  have henter : enter create c = .ok (create c.memory).1 { c with memory := (create c.memory).2.push (create c.memory).1 } :=
    rfl
  rw [henter, hc]
  exact .single (hcreate.toSpares.trans (.withActive _ _)) ⟨⟨h.congr hcreate.nextEnv rfl (List.Subset.refl _), hnew⟩, hw, hnew⟩

theorem writes_pushRestore (h : c.Inside) (span : Span) :
    Leads (Writes W) c (fun d _ => d.Inside ∧ d.memory = c.memory) (standard.pushRestore span c) := by
  refine .single (.of_eq ?_) ?_
  · dsimp only
    split <;> rfl
  · dsimp only
    split
    · exact ⟨h, rfl⟩
    · refine ⟨⟨⟨h.program, fun hi => ?_, h.made⟩, h.current⟩, rfl⟩
      rcases List.mem_cons.mp (Control.pending_restore (c := c.control) _ span ▸ hi) with hi | hi
      · exact h.current hi.symm
      · exact h.pending hi

theorem writes_pushStatements (h : c.Inside) (body : List Node) :
    Leads (Writes W) c (fun d _ => d.Inside) (standard.pushStatements body c) := by
  simp only [pushStatements]
  split
  · exact writes_pushValue h .none
  · exact writes_pushControl h (Node.targets_statementItems body)

theorem writes_body {env : EnvId} (h : c.Inside) (hw : W env) (declarations : List Declaration) (body : List Node) :
    Leads (Writes W) c (fun d _ => d.Inside)
      ((declareAll env declarations >>= fun _ => standard.pushStatements body) c) :=
  (writes_declareAll h hw declarations).bind fun _ _ _ hd => writes_pushStatements hd body

/-- A program enters an environment of its own, from wherever it is. -/
theorem writes_program (h : c.Apart) (hw : W ⟨c.memory.nextEnv⟩) (skipEnv : Bool) (span : Span)
    (declarations : List Declaration) (body : List Node) :
    Leads (Writes W) c (fun d _ => d.Inside) (standard.evalNode skipEnv (.program span declarations body) c) := by
  change Leads _ c _ (standard.evalSelf skipEnv (.program span declarations body) c)
  rw [evalSelf_program]
  refine (writes_enter h hw rfl).bind fun d env _ hq => ?_
  obtain ⟨hd, henv, hne⟩ := hq
  have hprogram : ({ d with programEnv := some env } : Context).Inside :=
    ⟨⟨fun he => hne (Option.some.inj he), hd.pending, hd.made⟩, hd.current⟩
  exact Leads.after (writes_body hprogram henv declarations body) (.single (.of_eq rfl))

theorem writes_block (h : c.Inside) {skipEnv : Bool} (hw : W (if skipEnv then c.memory.current else ⟨c.memory.nextEnv⟩))
    (span : Span) (declarations : List Declaration) (body : List Node) :
    Leads (Writes W) c (fun d _ => d.Inside) (standard.evalNode skipEnv (.block span declarations body) c) := by
  cases skipEnv with
  | true => exact writes_body h hw declarations body
  | false =>
    change Leads _ c _ (standard.evalSelf false (.block span declarations body) c)
    rw [evalSelf_block]
    refine (writes_pushRestore h span).bind fun d _ _ hq => ?_
    obtain ⟨hd, hm⟩ := hq
    have hnew : W ⟨d.memory.nextEnv⟩ := hm ▸ hw
    refine (writes_enter hd.toApart hnew rfl).bind fun d' env _ hq' => ?_
    exact writes_body hq'.1 hq'.2.1 declarations body

/-- A node that does more than leave its parts behind. -/
theorem writes_evalNode (h : c.Inside) {n : Node} {skipEnv : Bool} (hw : ∀ id, (Item.node n skipEnv).Writes c.memory id → W id) :
    Leads (Writes W) c (fun d _ => d.Inside) (standard.evalNode skipEnv n c) := by
  cases hp : n.parts? with
  | some items =>
    simp only [evalNode, hp]
    exact writes_pushControl h (Node.targets_parts hp)
  | none =>
    cases n with
    | program span declarations body => exact writes_program h.toApart (hw _ (Nat.le_refl _)) skipEnv span declarations body
    | block span declarations body =>
      refine writes_block h ?_ span declarations body
      cases skipEnv with
      | true => exact hw _ rfl
      | false => exact hw _ (Nat.le_refl _)
    | sequence span body =>
      cases body with
      | nil => exact writes_pushValue h .none
      | cons => cases hp
    | ret span value =>
      cases value with
      | none =>
        have hplain : Instr.reset.restoreTarget? = none := rfl
        exact (writes_instr h hplain).bind fun _ _ _ hd => writes_pushValue hd .none
      | some e => cases hp
    | define span name func declaration =>
      have hplain : (Instr.assignment name false declaration).restoreTarget? = none := rfl
      refine (writes_closureHere h Closure.ofDefine func span).bind fun _ w _ hd => ?_
      exact (writes_instr hd hplain).bind fun _ _ _ hd' => writes_pushValue hd' w
    | lambda span func =>
      exact (writes_closureHere h Closure.ofLambda func span).bind fun _ w _ hd => writes_pushValue hd w
    | identifier span name => exact writes_answer h (·.memory.get name)
    | literal span l => exact writes_pushValue h (.ofLiteral l)
    | pass => exact writes_pushValue h .none
    | _ => cases hp

/-! Calls -/

/-- The caller's frame may be left for good, so nothing is said of where the machine is then. -/
theorem writes_leaveCaller (h : c.Inside) (span : Span) :
    Leads (Writes W) c (fun d _ => d.Apart ∧ d.memory.nextEnv = c.memory.nextEnv) (standard.leaveCaller span c) := by
  rw [leaveCaller_eq]
  simp only [left]
  split
  · split
    · next env m hp =>
      obtain ⟨rfl, -⟩ := Memory.pop?_eq_some hp
      exact .single (Memory.Spares.withActive _ _) ⟨h.toApart.congr (Nat.le_refl _) rfl (List.Subset.refl _), rfl⟩
    · exact .single (.of_eq rfl) ⟨h.toApart, rfl⟩
  · exact (writes_pushRestore (W := W) h span).mono fun d _ _ hq => ⟨hq.1.toApart, congrArg Memory.nextEnv hq.2⟩

theorem writes_callClosure (h : c.Inside) (hw : W ⟨c.memory.nextEnv⟩) (id : ObjId) (args : List Value) (span : Span) :
    Leads (Writes W) c (fun d _ => d.Inside) (standard.callClosure id args span c) := by
  rw [callClosure_eq]
  cases c.memory.store.closure? id with
  | none => exact .error _ _ _ _
  | some closure =>
    dsimp only
    split
    · exact .error _ _ _ _
    · refine (writes_ofExcept _).bind fun d _ _ hq => ?_
      obtain ⟨rfl, -⟩ := hq
      refine (writes_leaveCaller h span).bind fun d₁ _ _ hq₁ => ?_
      obtain ⟨h₁, hnext⟩ := hq₁
      have hframe := Memory.writes_createFrame (W := W) (m := d₁.memory) (hnext ▸ hw) closure args span
      refine (writes_onMemory hframe).bind fun d₂ env hc₂ hq₂ => ?_
      obtain ⟨rfl, hd₂⟩ := hq₂
      have hentered : ({ d₂ with memory := d₂.memory.push ⟨d₁.memory.nextEnv⟩ } : Context).Inside := by
        have h₂ : d₂.Apart := h₁.congr (Context.Writes.of_changes hc₂).nextEnv (by rw [hd₂]) (by rw [hd₂]; exact List.Subset.refl _)
        exact ⟨h₂.congr (Nat.le_refl _) rfl (List.Subset.refl _), h₁.new_ne_global⟩
      have hbody : Control.targets (standard.bodyItems closure.func span) = [] := by
        simp only [bodyItems]
        split <;> rfl
      exact Leads.after (writes_pushControl hentered hbody) (.single (Memory.Spares.withActive _ _))

theorem writes_apply (h : c.Inside) (hw : W ⟨c.memory.nextEnv⟩) (count : Nat) (span : Span) :
    Leads (Writes W) c (fun d _ => d.Inside) (standard.apply count span c) := by
  refine (writes_popValues h count _).bind fun d args _ hq => ?_
  refine (writes_popValue hq.1).bind fun d' w _ hq' => ?_
  have hm : d'.memory = c.memory := hq'.2.trans hq.2
  cases w with
  | builtin f => exact writes_callBuiltin hq'.1 f args
  | closure id => exact writes_callClosure hq'.1 (hm ▸ hw) id args span
  | _ => exact .error _ _ _ _

/-! Instructions -/

theorem writes_restore (h : c.Inside) {target : EnvId} (ht : target ≠ .global) (span : Span) :
    Leads (Writes W) c (fun d _ => d.Inside) (standard.execute (.instr (.restore target) span) c) := by
  by_cases hm : target ∈ c.memory.active
  · obtain ⟨m, below, hx, ha, hactive⟩ := execute_restore_active standard hm span
    have hw : c.memory.Spares W m := (Memory.Spares.withActive _ _).trans (.of_agreeOn ha)
    rw [hx]
    refine .single hw ⟨h.toApart.congr hw.nextEnv rfl (List.Subset.refl _), ?_⟩
    simp only [Memory.current, hactive, List.headD_cons]
    exact ht
  · rw [execute_standard, Context.execute_restore_inactive span hm]
    exact .error _ _ _ _

theorem writes_execInstr (h : c.Inside) {i : Instr} {span : Span} (ht : i.restoreTarget? ≠ some .global)
    (hw : ∀ id, (Item.instr i span).Writes c.memory id → W id) :
    Leads (Writes W) c (fun d _ => d.Inside) (standard.execInstr span i c) := by
  cases i with
  | pop => exact (writes_popValue h).bind fun _ _ _ hq => .ok hq.1
  | assignment name constant declaration =>
    refine writes_assign h (fun hd => ?_) (fun hd id e slot hr hc => ?_) constant
    · subst hd
      exact hw _ rfl
    · subst hd
      exact hw id ⟨e, slot, hr, hc⟩
  | unary op => exact (writes_popValue h).bind fun _ w _ hq => writes_answer hq.1 fun _ => w.unary op
  | binary op =>
    refine (writes_popValue h).bind fun _ y _ hq => ?_
    exact (writes_popValue hq.1).bind fun _ x _ hq' => writes_answer hq'.1 fun c => x.binary c.memory.store op y
  | application count => exact writes_apply h (hw _ (Nat.le_refl _)) count span
  | branch yes no =>
    refine (writes_popValue h).bind fun _ w _ hq => ?_
    cases w with
    | bool taken =>
      dsimp only
      cases (if taken then some yes else no) with
      | some n => exact writes_pushControl hq.1 (show Control.targets [.node n true] = [] from rfl)
      | none => exact writes_pushValue hq.1 .none
    | _ => exact .error _ _ _ _
  | restore target => exact writes_restore h (fun he => ht (congrArg some he)) span
  | marker => exact .ok h
  | reset => exact .single (.of_eq rfl) (h.quiet rfl rfl Control.pending_unwind.subset)
  | list count =>
    refine (writes_popValues h count _).bind fun _ items _ hq => ?_
    exact (writes_operation hq.1 (Memory.writes_allocIn W _ _ _)).bind fun _ id _ hd => writes_pushValue hd (.list id)
  | subscript =>
    refine (writes_popValue h).bind fun _ y _ hq => ?_
    exact (writes_popValue hq.1).bind fun _ x _ hq' => writes_answer hq'.1 fun c => x.subscript c.memory.store y

end Variant

namespace Context

variable {c d : Context} {item : Item} {rest : Control}

/-- An item writes just where it may, and if it succeeds the machine is outside the global environment again. -/
theorem Inside.execute (h : c.Inside) (ht : item.restoreTarget? ≠ some .global) :
    Leads (Writes (item.Writes c.memory)) c (fun d _ => d.Inside) (Action.execute item c) := by
  rw [← Variant.execute_standard]
  cases item with
  | node n skipEnv => exact Variant.writes_evalNode h fun _ hw => hw
  | instr i span => exact Variant.writes_execInstr h ht fun _ hw => hw

/-- A program can also be started from the global environment. -/
theorem Apart.execute_program (h : c.Apart) (skipEnv : Bool) (span : Span) (declarations : List Declaration)
    (body : List Node) :
    Leads (Writes ((Item.node (.program span declarations body) skipEnv).Writes c.memory)) c (fun d _ => d.Inside)
      (Action.execute (.node (.program span declarations body) skipEnv) c) := by
  rw [← Variant.execute_standard]
  exact Variant.writes_program h (Nat.le_refl _) skipEnv span declarations body

end Context
end CseMachine
