import CseMachine.Proofs.Control
import CseMachine.Proofs.Memory.Changes
import CseMachine.Proofs.Memory.Reclaiming
import CseMachine.Proofs.Variant.Execution

/-!
# What items do

However an item ends, it has done a few kinds of things to the context: each is a
change, and a restore alone does something else. A context is well formed if its
memory is and what the context refers to is there; changes keep this.
-/
namespace CseMachine

open Relation (ReflTransGen)

namespace Control

variable {c : Control}

theorem items_pushAll (c : Control) (items : List Item) :
    (Variant.standard.pushAll c items).items.items = items.map Variant.standard.shape ++ c.items.items := by
  induction items with
  | nil => rfl
  | cons item items ih => exact congrArg (Variant.standard.shape item :: ·) ih

theorem items_dropToMarker (items : List Item) (count : Nat) :
    (dropToMarker items count).items.items = belowMarker items := by
  induction items generalizing count with
  | nil => rfl
  | cons item rest ih =>
    simp only [dropToMarker, belowMarker]
    split
    · rfl
    · exact ih _

/-- The environments that pending restores lead back to. -/
def pending (c : Control) : List EnvId := targets c.items.items

theorem pending_pushAll {items : List Item} (h : targets items = []) :
    (Variant.standard.pushAll c items).pending = c.pending := by
  simp only [pending, items_pushAll, targets_append, Variant.targets_shapes, h, List.nil_append]

theorem pending_unwind : c.unwind.pending.Sublist c.pending := by
  simp only [pending, unwind, items_dropToMarker]
  exact targets_belowMarker _

theorem pending_restore (target : EnvId) (span : Span) :
    (c.pushInstr (.restore target) span).pending = target :: c.pending := by
  simp only [pending, pushInstr, push, Stack.push, Item.flatten]
  exact targets_cons

theorem items_pop? {item : Item} {rest : Control} (h : c.pop? = some (item, rest)) :
    c.items.items = item :: rest.items.items := by
  simp only [pop?, Stack.pop?] at h
  cases hi : c.items.items with
  | nil =>
    rw [hi] at h
    cases h
  | cons top below =>
    rw [hi] at h
    cases h
    rfl

theorem pending_pop? {item : Item} {rest : Control} (h : c.pop? = some (item, rest)) :
    c.pending = item.restoreTarget?.toList ++ rest.pending := by
  simp only [pending, items_pop? h]
  exact targets_cons

end Control

namespace Context

variable {c d : Context}

/-- All that the context refers to is there. -/
structure WellFormed (c : Context) : Prop where
  memory : c.memory.WellFormed
  stash : ∀ w ∈ c.stash.items, w.Resolves c.memory.store
  pending : ∀ id ∈ c.control.pending, c.memory.Present id
  program : ∀ id, c.programEnv = some id → c.memory.Present id

/-- One thing that an item does to a context, if it is no restore. -/
inductive Change : Context → Context → Prop
  | stash {c : Context} {items : List Value} (resolves : ∀ w ∈ items, w.Resolves c.memory.store) :
      Change c { c with stash := ⟨items⟩ }
  | print (c : Context) (text : String) : Change c { c with output := c.output ++ text }
  | push {c : Context} {items : List Item} (plain : Control.targets items = []) :
      Change c { c with control := Variant.standard.pushAll c.control items }
  | unwind (c : Context) : Change c { c with control := c.control.unwind }
  /-- A return is arranged only if something left depends on the environment. -/
  | arrange {c : Context} (span : Span) (needed : c.control.canAvoidRestore = false) :
      Change c { c with control := c.control.pushInstr (.restore c.memory.current) span }
  | program {c : Context} {env : EnvId} (present : c.memory.Present env) : Change c { c with programEnv := some env }
  | memory {c : Context} {m : Memory} (change : Memory.Change c.memory m) : Change c { c with memory := m }
  | enter {c : Context} {env : EnvId} (present : c.memory.Present env) (inactive : env ∉ c.memory.active) :
      Change c { c with memory := c.memory.push env }
  /-- A frame is left for good only if nothing left depends on the environment. -/
  | replace {c : Context} {env : EnvId} {m : Memory} (unneeded : c.control.canAvoidRestore = true)
      (left : c.memory.pop? = some (env, m)) : Change c { c with memory := m }

theorem Change.grows (h : c.memory.WellFormed) (hc : Change c d) : c.memory.Grows d.memory := by
  cases hc with
  | memory change => exact h.toLinked.change_grows change
  | enter => exact .withActive _ _
  | replace unneeded left =>
    obtain ⟨rfl, -⟩ := Memory.pop?_eq_some left
    exact .withActive _ _
  | _ => exact .refl _

namespace WellFormed

variable (h : c.WellFormed)
include h

/-- A memory in which all is there that was there before. -/
theorem withMemory {m : Memory} (hm : m.WellFormed) (hg : c.memory.Grows m) : ({ c with memory := m } : Context).WellFormed :=
  ⟨hm, fun w hw => (h.stash w hw).mono hg.store, fun id hi => (h.pending id hi).mono hg,
    fun id hi => (h.program id hi).mono hg⟩

theorem change (hc : Change c d) : d.WellFormed := by
  have hg := hc.grows h.memory
  cases hc with
  | stash resolves => exact ⟨h.memory, resolves, h.pending, h.program⟩
  | print text => exact ⟨h.memory, h.stash, h.pending, h.program⟩
  | push plain => exact ⟨h.memory, h.stash, fun id hi => h.pending id (Control.pending_pushAll plain ▸ hi), h.program⟩
  | unwind => exact ⟨h.memory, h.stash, fun id hi => h.pending id (Control.pending_unwind.subset hi), h.program⟩
  | arrange span needed =>
    refine ⟨h.memory, h.stash, fun id hi => ?_, h.program⟩
    rcases List.mem_cons.mp (Control.pending_restore _ span ▸ hi) with rfl | hi
    · exact h.memory.present_current
    · exact h.pending id hi
  | program present => exact ⟨h.memory, h.stash, h.pending, fun id hi => Option.some.inj hi ▸ present⟩
  | memory change => exact h.withMemory (h.memory.change change) hg
  | enter present inactive => exact h.withMemory (h.memory.enter present inactive) hg
  | replace unneeded left =>
    obtain ⟨rfl, hn⟩ := Memory.pop?_eq_some left
    exact h.withMemory (h.memory.withSuffix (List.tail_suffix _) hn) hg

theorem changes (hc : ReflTransGen Change c d) : d.WellFormed ∧ c.memory.Grows d.memory := by
  induction hc with
  | refl => exact ⟨h, .refl _⟩
  | tail _ hc ih => exact ⟨ih.1.change hc, ih.2.trans (hc.grows ih.1.memory)⟩

/-- What follows a part starts from a well-formed context in which all is there that was there before. -/
theorem bind {α β : Type} {x : Action α} {f : α → Action β} {Q : Context → α → Prop} {P : Context → β → Prop}
    (hx : Leads Change c Q (x c))
    (hf : ∀ d a, d.WellFormed → c.memory.Grows d.memory → Q d a → Leads Change d P (f a d)) :
    Leads Change c P ((x >>= f) c) := by
  refine hx.bind fun d a hc hq => ?_
  obtain ⟨hd, hg⟩ := h.changes hc
  exact hf d a hd hg hq

end WellFormed
end Context

namespace Action

open Context (Change)
open Memory (Any)

variable {c : Context} {α : Type}

/-! Actions -/

/-- An operation on the memory alone does to the context what it does to the memory. -/
theorem lift_onMemory {R : Memory → Memory → Prop} {S : Context → Context → Prop} {op : Memory.Op α}
    {Q : Memory → α → Prop} (hs : ∀ {m m' : Memory}, R m m' → S { c with memory := m } { c with memory := m' })
    (h : Leads R c.memory Q (op c.memory)) :
    Leads S c (fun d a => Q d.memory a ∧ d = { c with memory := d.memory }) (onMemory op c) := by
  have hlift : ∀ {m}, ReflTransGen R c.memory m → ReflTransGen S c { c with memory := m } :=
    fun hm => hm.lift (fun m => { c with memory := m }) fun _ _ => hs
  simp only [onMemory]
  cases hop : op c.memory with
  | ok a m =>
    rw [hop] at h
    exact ⟨hlift h.1, h.2, rfl⟩
  | error e m =>
    rw [hop] at h
    exact hlift h

theorem leads_onMemory {op : Memory.Op α} {Q : Memory → α → Prop} (h : Leads Memory.Change c.memory Q (op c.memory)) :
    Leads Change c (fun d a => Q d.memory a) (onMemory op c) :=
  (lift_onMemory (S := Change) (fun hm => .memory (c := { c with memory := _ }) hm) h).mono fun _ _ _ hq => hq.1

theorem leads_ofExcept (r : Except EvalError α) : Leads Change c (fun d a => d = c ∧ r = .ok a) (ofExcept r c) := by
  cases r with
  | ok a => exact .ok ⟨rfl, rfl⟩
  | error e => exact .error _ _ _ e

theorem leads_pushControl {items : List Item} (h : Control.targets items = []) :
    Leads Change c Any (pushControl (Variant.standard.pushAll · items) c) := .single (.push h) trivial

theorem leads_instr {i : Instr} {span : Span} (h : i.restoreTarget? = none) :
    Leads Change c Any (pushControl (·.pushInstr i span) c) := by
  refine leads_pushControl (show Control.targets [.instr i span] = [] from ?_)
  rw [Control.targets_cons, show (Item.instr i span).restoreTarget? = i.restoreTarget? from rfl, h]
  rfl

theorem leads_declareAll (h : c.WellFormed) {env : EnvId} (hp : c.memory.Present env) (declarations : List Declaration) :
    Leads Change c Any (declareAll env declarations c) := by
  induction declarations generalizing c with
  | nil => exact .ok trivial
  | cons d rest ih =>
    refine h.bind (leads_onMemory (h.memory.declare hp d.name d.constant)) fun c' _ h' hg _ => ?_
    exact ih h' (hp.mono hg)

variable (h : c.WellFormed)
include h

theorem leads_pushValue {w : Value} (hw : w.Resolves c.memory.store) : Leads Change c Any (pushValue w c) := by
  refine .single (@Change.stash c (w :: c.stash.items) fun v hv => ?_) trivial
  rcases List.mem_cons.mp hv with rfl | hv
  · exact hw
  · exact h.stash v hv

theorem leads_popValue : Leads Change c (fun d w => w.Resolves d.memory.store) (popValue c) := by
  simp only [popValue, Stack.pop?]
  cases hs : c.stash.items with
  | nil => exact .error _ _ _ _
  | cons w rest =>
    have hr : ∀ v ∈ w :: rest, v.Resolves c.memory.store := hs ▸ h.stash
    exact .single (.stash fun v hv => hr v (.tail _ hv)) (hr w (.head _))

theorem leads_popValues (count : Nat) (fault : EvalError.Fault) :
    Leads Change c (fun d ws => ∀ w ∈ ws, w.Resolves d.memory.store) (popValues count fault c) := by
  simp only [popValues, Stack.popN?]
  split
  · next ws rest hp =>
    split at hp
    · cases hp
      refine .single (.stash fun w hw => h.stash w (List.mem_of_mem_drop hw)) fun w hw => ?_
      exact h.stash w (List.mem_of_mem_take (List.mem_reverse.mp hw))
    · cases hp
  · exact .error _ _ _ _

/-- Push the value of an operation or fail. -/
theorem leads_answer {f : Context → Except EvalError Value} (hf : ∀ w, f c = .ok w → w.Resolves c.memory.store) :
    Leads Change c Any ((do pushValue (← ofExcept (f (← get))) : Action Unit) c) := by
  refine (leads_ofExcept (f c)).bind fun d w _ hq => ?_
  obtain ⟨rfl, hw⟩ := hq
  exact leads_pushValue h (hf w hw)

/-- A new environment inside one that is there is entered. -/
theorem leads_enter (name : String) {tail : EnvId} (hp : c.memory.Present tail) :
    Leads Change c (fun d env => d.memory.Present env) (enter (fun m => m.create name (some tail)) c) := by
  have hcreate : Memory.Change c.memory (c.memory.create name (some tail)).2 := .create name hp
  have hpresent : (c.memory.create name (some tail)).2.Present ⟨c.memory.nextEnv⟩ :=
    Memory.present_create.mpr (.inl rfl)
  have hnew : (⟨c.memory.nextEnv⟩ : EnvId) ∉ c.memory.active :=
    fun hi => h.memory.fresh_env (h.memory.active _ hi)
  exact ⟨.tail (.single (.memory hcreate)) (.enter (c := { c with memory := _ }) hpresent hnew), hpresent⟩

theorem leads_closureHere {make : Func → EnvId → RunId → Bool → Span → Closure}
    (hm : ∀ func env run predefined span, (make func env run predefined span).env = env) (func : Func) (span : Span) :
    Leads Change c (fun d w => w.Resolves d.memory.store) (closureHere make func span c) := by
  have hholds : c.memory.Holds (.closure (make func c.memory.current c.run c.predefined span)) := by
    show c.memory.Present _
    rw [hm]
    exact h.memory.present_current
  refine (leads_onMemory (h.memory.alloc hholds)).bind fun d id _ hid => .ok ?_
  exact Option.isSome_iff_exists.mpr ⟨_, Store.closure?_eq_some.mpr ⟨_, hid⟩⟩

theorem leads_callBuiltin (f : Builtin) {args : List Value} (ha : ∀ w ∈ args, w.Resolves c.memory.store) :
    Leads Change c Any (callBuiltin f args c) := by
  rw [Variant.callBuiltin_eq]
  refine (leads_ofExcept _).bind fun d w _ hq => ?_
  obtain ⟨rfl, hw⟩ := hq
  have hprint := Change.print d (f.printed d.memory.store args)
  refine Leads.after ?_ (.single hprint)
  exact leads_pushValue (h.change hprint) (h.memory.call_resolves ha hw)

theorem leads_assign (name : String) (constant declaration : Bool) :
    Leads Change c Any (assign name constant declaration c) := by
  rw [assign_eq]
  refine h.bind (leads_popValue h) fun d w hd _ hw => ?_
  refine hd.bind (leads_onMemory (hd.memory.bindName name constant declaration hw)) fun d' _ hd' _ _ => ?_
  exact leads_pushValue hd' trivial

end Action

namespace Variant

open Context (Change)
open Memory (Any)
open Control (targets)
open CseMachine.Action

variable {c : Context} (h : c.WellFormed)
include h

omit h in
theorem changes_arrange (span : Span) (c : Context) : ReflTransGen Change c
    (if c.control.canAvoidRestore || c.control.peek?.any Item.isRestore then c
      else { c with control := standard.push c.control (.instr (.restore c.memory.current) span) }) := by
  split
  · exact .refl
  · next hn =>
    have hneeded : c.control.canAvoidRestore = false := by
      rw [Bool.or_eq_true, not_or, Bool.not_eq_true] at hn
      exact hn.1
    exact .single (.arrange span hneeded)

omit h in
theorem leads_pushRestore (span : Span) : Leads Change c Any (standard.pushRestore span c) :=
  ⟨changes_arrange span c, trivial⟩

theorem leads_pushStatements (body : List Node) : Leads Change c Any (standard.pushStatements body c) := by
  simp only [pushStatements]
  split
  · exact leads_pushValue h trivial
  · exact leads_pushControl (Node.targets_statementItems body)

theorem leads_evalSelf (skipEnv : Bool) (n : Node) (hp : n.parts? = none) :
    Leads Change c Any (standard.evalSelf skipEnv n c) := by
  have hstatements : ∀ {c : Context} {env : EnvId} (declarations : List Declaration) (body : List Node),
      c.WellFormed → c.memory.Present env →
        Leads Change c Any ((declareAll env declarations >>= fun _ => standard.pushStatements body) c) := by
    intro c env declarations body h hp
    refine h.bind (leads_declareAll h hp declarations) fun d _ hd _ _ => ?_
    exact leads_pushStatements hd body
  cases n with
  | program span declarations body =>
    have htail : c.memory.Present (programTail c) := by
      simp only [programTail]
      cases hpe : c.programEnv with
      | none => exact h.memory.present_current
      | some env => exact h.program env hpe
    rw [evalSelf_program]
    refine h.bind (leads_enter h "programEnvironment" htail) fun d env hd _ henv => ?_
    have hprogram : Change d { d with programEnv := some env } := .program henv
    refine Leads.after ?_ (.single hprogram)
    exact hstatements declarations body (hd.change hprogram) henv
  | block span declarations body =>
    cases skipEnv with
    | true =>
      rw [evalSelf_skippedBlock]
      exact hstatements declarations body h h.memory.present_current
    | false =>
      rw [evalSelf_block]
      refine h.bind (leads_pushRestore span) fun d _ hd _ _ => ?_
      have hblock := leads_enter hd "blockEnvironment" hd.memory.present_current
      rw [← enter_createBlock] at hblock
      refine hd.bind hblock fun d' env hd' _ henv => ?_
      exact hstatements declarations body hd' henv
  | sequence span body =>
    cases body with
    | nil => exact leads_pushValue h trivial
    | cons => cases hp
  | ret span value =>
    cases value with
    | none =>
      refine h.bind (leads_instr (show Instr.reset.restoreTarget? = none from rfl)) fun d _ hd _ _ => ?_
      exact leads_pushValue hd trivial
    | some e => cases hp
  | define span name func declaration =>
    refine h.bind (leads_closureHere h (fun _ _ _ _ _ => rfl) func span) fun d w hd _ hw => ?_
    have hplain : (Instr.assignment name false declaration).restoreTarget? = none := rfl
    refine hd.bind (leads_instr hplain) fun d' _ hd' hg _ => ?_
    exact leads_pushValue hd' (hw.mono hg.store)
  | lambda span func =>
    refine h.bind (leads_closureHere h (fun _ _ _ _ _ => rfl) func span) fun d w hd _ hw => ?_
    exact leads_pushValue hd hw
  | identifier span name => exact leads_answer h fun w => h.memory.get_resolves
  | literal span l =>
    refine leads_pushValue h ?_
    cases l <;> trivial
  | pass => exact leads_pushValue h trivial
  | _ => cases hp

theorem leads_evalNode (skipEnv : Bool) (n : Node) : Leads Change c Any (standard.evalNode skipEnv n c) := by
  simp only [evalNode]
  cases hp : n.parts? with
  | some items => exact leads_pushControl (Node.targets_parts hp)
  | none => exact leads_evalSelf h skipEnv n hp

omit h in
theorem leads_leaveCaller (span : Span) : Leads Change c Any (standard.leaveCaller span c) := by
  rw [leaveCaller_eq]
  refine ⟨?_, trivial⟩
  simp only [left]
  split
  · next hn =>
    split
    · next env m hp => exact .single (.replace hn hp)
    · exact .refl
  · exact changes_arrange span c

theorem leads_callClosure (id : ObjId) {args : List Value} (ha : ∀ w ∈ args, w.Resolves c.memory.store) (span : Span) :
    Leads Change c Any (standard.callClosure id args span c) := by
  rw [callClosure_eq]
  cases hc : c.memory.store.closure? id with
  | none => exact .error _ _ _ _
  | some closure =>
    dsimp only
    split
    · exact .error _ _ _ _
    · refine (leads_ofExcept _).bind fun d _ _ hq => ?_
      obtain ⟨rfl, -⟩ := hq
      refine h.bind (leads_leaveCaller span) fun d₁ _ h₁ hg₁ _ => ?_
      have hframe := h₁.memory.createFrame span ((h.memory.captured id closure hc).mono hg₁)
        fun w hw => (ha w hw).mono hg₁.store
      refine (leads_onMemory hframe).bind fun d₂ env hc₂ hq => ?_
      refine Leads.after (leads_pushControl ?_) (.single (.enter hq.1 hq.2))
      simp only [bodyItems]
      split <;> rfl

theorem leads_execInstr (span : Span) {i : Instr} (hr : i.restoreTarget? = none) :
    Leads Change c Any (standard.execInstr span i c) := by
  cases i with
  | pop => exact (leads_popValue h).bind fun d _ _ _ => .ok trivial
  | assignment name constant declaration => exact leads_assign h name constant declaration
  | unary op =>
    refine h.bind (leads_popValue h) fun d w hd _ hw => ?_
    exact leads_answer (f := fun _ => w.unary op) hd fun r hr => Value.resolves_of_no_handle (Value.unary_no_handle hr)
  | binary op =>
    refine h.bind (leads_popValue h) fun d y hd _ hy => ?_
    refine hd.bind (leads_popValue hd) fun d' x hd' _ hx => ?_
    exact leads_answer (f := fun c => x.binary c.memory.store op y) hd' fun r hr =>
      Value.resolves_of_no_handle (Value.binary_no_handle hr)
  | application count =>
    refine h.bind (leads_popValues h count _) fun d args hd _ ha => ?_
    refine hd.bind (leads_popValue hd) fun d' w hd' hg hw => ?_
    have ha' : ∀ w ∈ args, w.Resolves d'.memory.store := fun w hw => (ha w hw).mono hg.store
    cases w with
    | builtin f => exact leads_callBuiltin hd' f ha'
    | closure id => exact leads_callClosure hd' id ha' span
    | _ => exact .error _ _ _ _
  | branch yes no =>
    refine h.bind (leads_popValue h) fun d w hd _ hw => ?_
    cases w with
    | bool taken =>
      dsimp only
      cases hn : (if taken then some yes else no) with
      | some n => exact leads_pushControl (show Control.targets [.node n true] = [] from rfl)
      | none => exact leads_pushValue hd trivial
    | _ => exact .error _ _ _ _
  | restore target => cases hr
  | marker => exact .ok trivial
  | reset => exact .single (.unwind c) trivial
  | list count =>
    refine h.bind (leads_popValues h count _) fun d items hd _ hi => ?_
    have hholds : d.memory.Holds (.list items) := hi
    refine hd.bind (leads_onMemory (hd.memory.alloc hholds)) fun d' id hd' _ hid => ?_
    refine leads_pushValue hd' ?_
    exact Option.isSome_iff_exists.mpr ⟨_, Store.list?_eq_some.mpr ⟨_, hid⟩⟩
  | subscript =>
    refine h.bind (leads_popValue h) fun d y hd _ hy => ?_
    refine hd.bind (leads_popValue hd) fun d' x hd' _ hx => ?_
    exact leads_answer (f := fun c => x.subscript c.memory.store y) hd' fun r hr =>
      hd'.memory.subscript_resolves hx hr

/-- Whatever an item other than a restore does, it does by changes. -/
theorem leads_execute {item : Item} (hr : item.restoreTarget? = none) : Leads Change c Any (standard.execute item c) := by
  cases item with
  | node n skipEnv => exact leads_evalNode h skipEnv n
  | instr i span => exact leads_execInstr h span hr

end Variant
end CseMachine
