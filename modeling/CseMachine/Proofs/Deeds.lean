import CseMachine.Proofs.Memory.Deeds
import CseMachine.Proofs.Memory.Writes
import CseMachine.Proofs.Safety.Instructions
import CseMachine.Proofs.WellFormed

/-!
# What each item may do

An item leaves its own parts on Control or the body of a function that is there,
makes lists and the closures of its own node, and binds names in environments that
it makes. Of the frames that were there before it, an assignment changes the one that
has its name and a block without a frame of its own the current one. This is said once
here, of items that fail too, and what holds of whole runs is drawn from it.
-/
namespace CseMachine

open Relation (ReflTransGen)
open EvalError (Placeless)

/-- The nodes that an instruction may go on with. -/
def Instr.nodes : Instr → List Node
  | .branch yes no => yes :: no.toList
  | _ => []

/-- Whether the instruction makes a constant of the name that it binds. -/
def Instr.bindsConstant : Instr → Bool
  | .assignment _ constant _ => constant
  | _ => false

namespace Item

/-- What executing an item may put on Control. -/
inductive Leaves (s : Store) : Item → Item → Prop
  | part {n child : Node} {skip skip' : Bool} (below : child ∈ n.children) : Leaves s (.node n skip) (.node child skip')
  /-- Between two statements a value is dropped. -/
  | between {n child : Node} {skip : Bool} (below : child ∈ n.children) : Leaves s (.node n skip) (.instr .pop child.span)
  | instr {n : Node} {skip : Bool} {i : Instr} (below : i.nodes ⊆ n.children) (plain : i.bindsConstant = false) :
      Leaves s (.node n skip) (.instr i n.span)
  | chosen {i : Instr} {span : Span} {n : Node} (one : n ∈ i.nodes) : Leaves s (.instr i span) (.node n true)
  | back (item : Item) (target : EnvId) : Leaves s item (.instr (.restore target) item.span)
  | body {count : Nat} {span : Span} {id : ObjId} {closure : Closure} {item : Item} (called : s.closure? id = some closure)
      (entered : item ∈ Variant.standard.bodyItems closure.func span) : Leaves s (.instr (.application count) span) item

/-- The objects that executing an item may make. -/
def Makes : Item → Content → Prop
  | _, .list _ => True
  | .node n _, .closure c => n.func? = some c.func ∧ c.span = n.span
  | .instr .., .closure _ => False

/-- The bindings that an item may give to a frame that was there before it. -/
inductive Rebinds (m : Memory) : Item → EnvId → List (String × Slot) → List (String × Slot) → Prop
  /-- A declaration is given its value in the current environment. -/
  | declared {name : String} {constant : Bool} {span : Span} {bindings : List (String × Slot)} (w : Value)
      (bound : (bindings.lookup name).isSome) : Rebinds m (.instr (.assignment name constant true) span) m.current bindings
        (Environment.replace name ⟨some w, constant⟩ bindings)
  /-- Another assignment overwrites the name where it is found. -/
  | assigned {name : String} {constant : Bool} {span : Span} {env : EnvId} {frame : Environment} {slot : Slot}
      {bindings : List (String × Slot)} (w : Value) (found : m.resolve name = .found env frame slot)
      (notConstant : slot.constant = false) (bound : (bindings.lookup name).isSome) :
      Rebinds m (.instr (.assignment name constant false) span) env bindings (Environment.replace name ⟨some w, false⟩ bindings)
  /-- A block without a frame of its own adds new names to the current environment. -/
  | added {span : Span} {declarations made : List Declaration} {body : List Node} {bindings : List (String × Slot)}
      (among : made ⊆ declarations) (once : (made.map (·.name)).Nodup) (new : ∀ d ∈ made, bindings.lookup d.name = none) :
      Rebinds m (.node (.block span declarations body) true) m.current bindings (bindings ++ Memory.declaredSlots made)

/-- What executing an item may make of a frame: anything of a new one but constants with values, and of any
other one no more than other bindings and another heap. -/
def Changes (m : Memory) (item : Item) (env : EnvId) (e e' : Environment) : Prop :=
  (m.nextEnv ≤ env.index ∧ e.BindsVariables e') ∨ ∃ bindings heap, e' = { e with bindings, heap } ∧
    (bindings = e.bindings ∨ item.Rebinds m env e.bindings bindings)

/-- An error of an item points nowhere, or a call says what is wrong with its arguments. -/
def Fails (s : Store) (e : EvalError) : Prop :=
  e.Placeless ∨ ∃ id closure given, s.closure? id = some closure ∧ Action.checkArguments closure given = .error e

end Item

namespace Context

/-- One thing that executing an item does to a context, where the memory was `m` when it started. -/
inductive Deed (m : Memory) (item : Item) : Context → Context → Prop
  | stash (c : Context) (stash : Stack Value) : Deed m item c { c with stash }
  | print (c : Context) (output : String) : Deed m item c { c with output }
  | program (c : Context) (env : EnvId) : Deed m item c { c with programEnv := some env }
  | push {c : Context} {items : List Item} (left : ∀ i ∈ items, item.Leaves m.store i) :
      Deed m item c { c with control := Variant.standard.pushAll c.control items }
  | unwind (c : Context) : Deed m item c { c with control := c.control.unwind }
  | active (c : Context) (active : List EnvId) : Deed m item c { c with memory := { c.memory with active } }
  | memory {c : Context} {m' : Memory} (deed : Memory.Deed (item.Changes m) item.Makes c.memory m') :
      Deed m item c { c with memory := m' }

end Context

namespace Node

/-- The parts that take the place of a node are its children and an instruction for it. -/
theorem leaves_statementItems {s : Store} {n : Node} {skip : Bool} {body : List Node} (hb : body ⊆ n.children) :
    ∀ i ∈ statementItems body, (Item.node n skip).Leaves s i := by
  induction body with
  | nil => exact fun _ hi => nomatch hi
  | cons first rest ih =>
    obtain ⟨hfirst, hrest⟩ := List.cons_subset.mp hb
    cases rest with
    | nil =>
      intro i hi
      obtain rfl := List.mem_singleton.mp hi
      exact .part hfirst
    | cons second rest =>
      intro i hi
      rcases List.mem_cons.mp hi with rfl | hi
      · exact .part hfirst
      · rcases List.mem_cons.mp hi with rfl | hi
        · exact .between (hrest (.head _))
        · exact ih hrest i hi

theorem leaves_operands {s : Store} {n : Node} {skip : Bool} {nodes : List Node} {i : Instr} (hn : nodes ⊆ n.children)
    (hi : i.nodes ⊆ n.children) (hv : i.bindsConstant = false) :
    ∀ j ∈ operands nodes ++ [.instr i n.span], (Item.node n skip).Leaves s j := by
  intro j hj
  rcases List.mem_append.mp hj with hj | hj
  · obtain ⟨child, hc, rfl⟩ := List.mem_map.mp hj
    exact .part (hn hc)
  · obtain rfl := List.mem_singleton.mp hj
    exact .instr hi hv

theorem leaves_parts {s : Store} {n : Node} {skip : Bool} {items : List Item} (hp : n.parts? = some items) :
    ∀ i ∈ items, (Item.node n skip).Leaves s i := by
  cases n with
  | sequence span body =>
    cases body with
    | nil => cases hp
    | cons first rest =>
      cases hp
      exact leaves_statementItems (List.Subset.refl _)
  | ret span value =>
    cases value with
    | none => cases hp
    | some e =>
      cases hp
      exact leaves_operands (n := .ret span (some e)) (List.Subset.refl _) (List.nil_subset _) rfl
  | expression span e =>
    cases hp
    intro i hi
    obtain rfl := List.mem_singleton.mp hi
    exact .part (.head _)
  | assign span target value declaration =>
    cases hp
    exact leaves_operands (n := .assign span target value declaration) (List.Subset.refl _) (List.nil_subset _) rfl
  | unary span op e =>
    cases hp
    exact leaves_operands (n := .unary span op e) (List.Subset.refl _) (List.nil_subset _) rfl
  | binary span op a b =>
    cases hp
    exact leaves_operands (n := .binary span op a b) (List.Subset.refl _) (List.nil_subset _) rfl
  | call span callee args =>
    cases hp
    exact leaves_operands (n := .call span callee args) (List.Subset.refl _) (List.nil_subset _) rfl
  | list span items =>
    cases hp
    exact leaves_operands (n := .list span items) (List.Subset.refl _) (List.nil_subset _) rfl
  | subscript span a b =>
    cases hp
    exact leaves_operands (n := .subscript span a b) (List.Subset.refl _) (List.nil_subset _) rfl
  | branch span test yes no =>
    cases hp
    exact leaves_operands (n := .branch span test yes no) (List.cons_subset.mpr ⟨.head _, List.nil_subset _⟩)
      (List.subset_cons_self _ _) rfl
  | conditional span test yes no =>
    cases hp
    exact leaves_operands (n := .conditional span test yes no) (List.cons_subset.mpr ⟨.head _, List.nil_subset _⟩)
      (List.subset_cons_self _ _) rfl
  | _ => cases hp

end Node

namespace Action

open Context (Deed)
open Memory (Any)

variable {m : Memory} {item : Item} {c : Context} {α : Type}

/-- How an item ends that starts with memory `m`, or a part of what it does. -/
abbrev Does (m : Memory) (item : Item) (c : Context) (Q : Context → α → Prop) :
    EStateM.Result EvalError Context α → Prop :=
  Ends (Deed m item) (Item.Fails m.store) c Q

theorem does_raise {Q : Context → α → Prop} (cause : EvalError.Cause) : Does m item c Q (raise cause c) :=
  .error (.inl (.ofCause cause))

theorem does_ofExcept {r : Except EvalError α} (hr : ∀ e, r = .error e → Item.Fails m.store e) :
    Does m item c (fun d a => d = c ∧ r = .ok a) (ofExcept r c) := by
  cases r with
  | ok a => exact .ok ⟨rfl, rfl⟩
  | error e => exact .error (hr e rfl)

theorem does_pushValue (w : Value) : Does m item c Any (pushValue w c) := .single (.stash c _) trivial

theorem does_pushControl {items : List Item} (hi : ∀ i ∈ items, item.Leaves m.store i) :
    Does m item c Any (pushControl (Variant.standard.pushAll · items) c) := .single (.push hi) trivial

theorem does_popValue : Does m item c (fun d w => w ∈ c.stash.items ∧ ∃ stash, d = { c with stash := ⟨stash⟩ } ∧
    stash ⊆ c.stash.items) (popValue c) := by
  simp only [popValue, Stack.pop?]
  cases hs : c.stash.items with
  | nil => exact .error (.inl (.ofCause _))
  | cons w rest => exact .single (.stash c _) ⟨.head _, rest, rfl, List.subset_cons_self w rest⟩

theorem does_popValues (count : Nat) (fault : EvalError.Fault) : Does m item c (fun d ws => ws ⊆ c.stash.items ∧
    ∃ stash, d = { c with stash := ⟨stash⟩ } ∧ stash ⊆ c.stash.items) (popValues count fault c) := by
  simp only [popValues, Stack.popN?]
  split
  · next ws rest hp =>
    split at hp
    · cases hp
      refine .single (.stash c _) ⟨fun w hw => ?_, _, rfl, List.drop_subset _ _⟩
      exact List.mem_of_mem_take (List.mem_reverse.mp hw)
    · cases hp
  · exact .error (.inl (.ofCause _))

/-- Push the value of an operation that fails plainly if it fails. -/
theorem does_answer {f : Context → Except EvalError Value} (hf : FailsPlainly (f c)) :
    Does m item c Any ((do pushValue (← ofExcept (f (← get))) : Action Unit) c) := by
  refine (does_ofExcept (r := f c) fun e he => .inl (hf e he).2).bind fun d w _ hq => ?_
  exact does_pushValue w

theorem does_onMemory {op : Memory.Op α} {Q : Memory → α → Prop}
    (h : Ends (Memory.Deed (item.Changes m) item.Makes) Placeless c.memory Q (op c.memory)) :
    Does m item c (fun d a => Q d.memory a ∧ d = { c with memory := d.memory }) (onMemory op c) := by
  have hlift : ∀ {m'}, ReflTransGen (Memory.Deed (item.Changes m) item.Makes) c.memory m' →
      ReflTransGen (Deed m item) c { c with memory := m' } :=
    fun hm => hm.lift (fun m' => { c with memory := m' }) fun _ _ hd => .memory (c := { c with memory := _ }) hd
  simp only [onMemory]
  cases hop : op c.memory with
  | ok a m' =>
    rw [hop] at h
    exact ⟨hlift h.1, h.2, rfl⟩
  | error e m' =>
    rw [hop] at h
    exact ⟨hlift h.1, .inl h.2⟩

/-- Names that are declared in a new environment, or by a block in the current one. -/
theorem does_declareAll {env : EnvId} {declarations : List Declaration}
    (hf : ∀ d ∈ declarations, ∀ e : Environment, e.lookup? d.name = none →
      item.Changes m env e (e.extend [(d.name, ⟨none, d.constant⟩)])) :
    Does m item c Any (declareAll env declarations c) := by
  induction declarations generalizing c with
  | nil => exact .ok trivial
  | cons d rest ih =>
    refine (does_onMemory (Memory.deeds_declare fun e _ hl => hf d (.head _) e hl)).bind fun _ _ _ _ => ?_
    exact ih fun d' hd => hf d' (.tail _ hd)

/-- A new environment is entered. -/
theorem does_enter (name : String) (tail : Option EnvId) (hn : m.nextEnv ≤ c.memory.nextEnv) :
    Does m item c (fun _ env => m.nextEnv ≤ env.index) (enter (fun m => m.create name tail) c) :=
  ⟨.tail (.single (.memory (.create c.memory name tail))) (.active { c with memory := (c.memory.create name tail).2 } _), hn⟩

/-- A new object belongs to the current environment. -/
theorem does_alloc {content : Content} (hm : item.Makes content) :
    Does m item c Any (onMemory (Memory.alloc content) c) := by
  have hheap : ∀ (e : Environment) (heap : Heap), item.Changes m c.memory.current e { e with heap } :=
    fun e heap => .inr ⟨e.bindings, heap, rfl, .inl rfl⟩
  exact (does_onMemory (Memory.deeds_allocIn hm fun e heap _ => hheap e heap)).mono (fun _ he => he) fun _ _ _ _ => trivial

theorem does_closureHere {make : Func → EnvId → RunId → Bool → Span → Closure} {func : Func} {span : Span}
    (hm : item.Makes (.closure (make func c.memory.current c.run c.predefined span))) :
    Does m item c Any (closureHere make func span c) :=
  (does_alloc hm).bind fun _ _ _ _ => .ok trivial

theorem does_callBuiltin (f : Builtin) {args : List Value} (ha : ∀ w ∈ args, w.Resolves c.memory.store) :
    Does m item c Any (callBuiltin f args c) := by
  rw [Variant.callBuiltin_eq]
  refine (does_ofExcept fun e he => .inl (Builtin.call_plain f ha e he).2).bind fun d w _ _ => ?_
  exact (does_pushValue w).after (.single (.print d _))

/-- An assignment binds its name in a frame that has it. -/
theorem does_assign {name : String} {constant declaration : Bool} {span : Span} :
    Does c.memory (.instr (.assignment name constant declaration) span) c Any (assign name constant declaration c) := by
  have hnamed : ∀ w, (c.memory.named w name).current = c.memory.current := fun w => by cases w <;> rfl
  rw [assign_eq]
  refine does_popValue.bind fun d w _ hq => ?_
  obtain ⟨-, stash, rfl, -⟩ := hq
  refine (does_onMemory (c := { c with stash := ⟨stash⟩ }) (Q := Any) ?_).bind fun _ _ _ _ => does_pushValue .none
  refine Ends.after ?_ (Memory.deeds_named c.memory w name)
  refine Memory.deeds_bindName (fun hd e _ hl => ?_) fun hd env e slot hr hc => ?_
  · subst hd
    exact .inr ⟨_, e.heap, rfl, .inr (hnamed w ▸ .declared w hl)⟩
  · subst hd
    have hl : (e.lookup? name).isSome := by rw [(Memory.resolveFrom_found hr).2]; rfl
    exact .inr ⟨_, e.heap, rfl, .inr (.assigned w (c.memory.resolve_named w name name ▸ hr) hc hl)⟩

end Action

namespace Variant

open Context (Deed)
open Memory (Any)
open CseMachine.Action

variable {m : Memory} {item : Item} {c : Context}

theorem does_pushRestore (c : Context) {span : Span} (hs : item.span = span) :
    Does m item c (fun d _ => d.memory = c.memory) (standard.pushRestore span c) := by
  subst hs
  show Ends _ _ _ _ (EStateM.Result.ok () _)
  dsimp only
  split
  · exact .ok rfl
  · have hback : ∀ i ∈ [Item.instr (.restore c.memory.current) item.span], item.Leaves m.store i := by
      intro i hi
      obtain rfl := List.mem_singleton.mp hi
      exact .back item _
    exact .single (.push hback) rfl

theorem does_pushStatements {n : Node} {skip : Bool} {body : List Node} (hb : body ⊆ n.children) :
    Does m (.node n skip) c Any (standard.pushStatements body c) := by
  simp only [pushStatements]
  split
  · exact does_pushValue .none
  · exact does_pushControl (Node.leaves_statementItems hb)

/-- Names are declared in an environment of the item's own, then the statements are left to do. -/
theorem does_body {n : Node} {skip : Bool} {env : EnvId} {declarations : List Declaration} {body : List Node}
    (hb : body ⊆ n.children) (hn : m.nextEnv ≤ env.index) :
    Does m (.node n skip) c Any ((declareAll env declarations >>= fun _ => standard.pushStatements body) c) :=
  (does_declareAll fun _ _ e _ => .inl ⟨hn, .extend e fun b hb => by rw [List.mem_singleton.mp hb]⟩).bind fun _ _ _ _ =>
    does_pushStatements hb

theorem does_evalSelf (skip : Bool) (n : Node) (hp : n.parts? = none) :
    Does c.memory (.node n skip) c Any (standard.evalSelf skip n c) := by
  cases n with
  | program span declarations body =>
    rw [evalSelf_program]
    refine (does_enter _ _ (Nat.le_refl _)).bind fun d env _ hn => ?_
    exact Ends.after (does_body (List.Subset.refl _) hn) (.single (.program d env))
  | block span declarations body =>
    cases skip with
    | true =>
      rw [evalSelf_skippedBlock]
      refine (does_declareAll fun d hd e hl => ?_).bind fun _ _ _ _ => does_pushStatements (List.Subset.refl _)
      have hnew : ∀ d' ∈ [d], e.bindings.lookup d'.name = none := fun d' hd' => by rw [List.mem_singleton.mp hd']; exact hl
      have hmade : [d] ⊆ declarations := List.cons_subset.mpr ⟨hd, List.nil_subset _⟩
      exact .inr ⟨_, e.heap, rfl, .inr (.added hmade (List.nodup_singleton d.name) hnew)⟩
    | false =>
      rw [evalSelf_block]
      refine (does_pushRestore c rfl).bind fun d _ _ hm => ?_
      have hentered := @does_enter c.memory (.node (.block span declarations body) false) d "blockEnvironment"
        (some d.memory.current) (Nat.le_of_eq (congrArg Memory.nextEnv hm.symm))
      rw [← enter_createBlock] at hentered
      exact hentered.bind fun _ _ _ hn => does_body (List.Subset.refl _) hn
  | sequence span body =>
    cases body with
    | nil => exact does_pushValue .none
    | cons => cases hp
  | ret span value =>
    cases value with
    | none =>
      have hreset : ∀ i ∈ [Item.instr .reset span], (Item.node (.ret span none) skip).Leaves c.memory.store i := by
        intro i hi
        obtain rfl := List.mem_singleton.mp hi
        exact .instr (List.nil_subset _) rfl
      exact (does_pushControl hreset).bind fun _ _ _ _ => does_pushValue .none
    | some e => cases hp
  | define span name func declaration =>
    have hassign : ∀ i ∈ [Item.instr (.assignment name false declaration) span],
        (Item.node (.define span name func declaration) skip).Leaves c.memory.store i := by
      intro i hi
      obtain rfl := List.mem_singleton.mp hi
      exact .instr (List.nil_subset _) rfl
    have hmake : (Item.node (.define span name func declaration) skip).Makes
        (.closure (.ofDefine func c.memory.current c.run c.predefined span)) := ⟨rfl, rfl⟩
    refine (does_closureHere hmake).bind fun _ w _ _ => ?_
    exact (does_pushControl hassign).bind fun _ _ _ _ => does_pushValue w
  | lambda span func =>
    have hmake : (Item.node (.lambda span func) skip).Makes
        (.closure (.ofLambda func c.memory.current c.run c.predefined span)) := ⟨rfl, rfl⟩
    exact (does_closureHere hmake).bind fun _ w _ _ => does_pushValue w
  | identifier span name => exact does_answer (f := fun c => c.memory.get name) (c.memory.get_plain name)
  | literal span l => exact does_pushValue _
  | pass => exact does_pushValue .none
  | _ => cases hp

theorem does_evalNode (skip : Bool) (n : Node) : Does c.memory (.node n skip) c Any (standard.evalNode skip n c) := by
  simp only [evalNode]
  cases hp : n.parts? with
  | some items => exact does_pushControl (Node.leaves_parts hp)
  | none => exact does_evalSelf skip n hp

theorem does_leaveCaller (c : Context) {span : Span} (hs : item.span = span) :
    Does m item c (fun d _ => d.memory.nextEnv = c.memory.nextEnv) (standard.leaveCaller span c) := by
  rw [leaveCaller_eq]
  simp only [left]
  split
  · split
    · next env m' hp =>
      obtain ⟨rfl, -⟩ := Memory.pop?_eq_some hp
      exact .single (.active c _) rfl
    · exact .ok rfl
  · exact (does_pushRestore c hs).mono (fun _ he => he) fun d _ _ hm => congrArg Memory.nextEnv hm

theorem does_callClosure (id : ObjId) (args : List Value) (count : Nat) (span : Span) :
    Does c.memory (.instr (.application count) span) c Any (standard.callClosure id args span c) := by
  rw [callClosure_eq]
  cases hc : c.memory.store.closure? id with
  | none => exact does_raise _
  | some closure =>
    dsimp only
    split
    · exact does_raise _
    · refine (does_ofExcept fun e he => .inr ⟨id, closure, args.length, hc, he⟩).bind fun d _ _ hq => ?_
      obtain ⟨rfl, -⟩ := hq
      refine (does_leaveCaller d rfl).bind fun d₁ _ _ hn => ?_
      have hnew : ∀ e e', e.BindsVariables e' →
          Item.Changes d.memory (.instr (.application count) span) ⟨d₁.memory.nextEnv⟩ e e' :=
        fun _ _ hb => .inl ⟨Nat.le_of_eq hn.symm, hb⟩
      refine (does_onMemory (Memory.deeds_createFrame hnew (fun _ => trivial) closure args span)).bind fun d₂ env _ _ => ?_
      refine Ends.after (does_pushControl fun i hi => ?_) (.single (.active d₂ _))
      exact .body hc hi

theorem does_apply (h : ∀ w ∈ c.stash.items, w.Resolves c.memory.store) (count : Nat) (span : Span) :
    Does c.memory (.instr (.application count) span) c Any (standard.apply count span c) := by
  refine (does_popValues count _).bind fun d args _ hq => ?_
  obtain ⟨hargs, stash, rfl, -⟩ := hq
  refine does_popValue.bind fun d w _ hq => ?_
  obtain ⟨-, below, rfl, -⟩ := hq
  cases w with
  | builtin f => exact does_callBuiltin f fun w hw => h w (hargs hw)
  | closure id => exact does_callClosure (c := { c with stash := ⟨below⟩ }) id args count span
  | _ => exact does_raise _

theorem does_execInstr (h : ∀ w ∈ c.stash.items, w.Resolves c.memory.store) {i : Instr} {span : Span}
    (hr : i.restoreTarget? = none) : Does c.memory (.instr i span) c Any (standard.execInstr span i c) := by
  cases i with
  | pop => exact does_popValue.bind fun _ _ _ _ => .ok trivial
  | assignment name constant declaration => exact does_assign
  | unary op =>
    refine does_popValue.bind fun d w _ _ => ?_
    exact does_answer (f := fun _ => w.unary op) (Value.unary_plain op w)
  | binary op =>
    refine does_popValue.bind fun _ y _ _ => does_popValue.bind fun d x _ _ => ?_
    exact does_answer (f := fun c => x.binary c.memory.store op y) (Value.binary_plain op x y)
  | application count => exact does_apply h count span
  | branch yes no =>
    refine does_popValue.bind fun d w _ _ => ?_
    cases w with
    | bool taken =>
      dsimp only
      cases hn : (if taken then some yes else no) with
      | some n =>
        suffices h : ∀ i ∈ [Item.node n true], (Item.instr (.branch yes no) span).Leaves c.memory.store i from does_pushControl h
        intro i hi
        obtain rfl := List.mem_singleton.mp hi
        refine .chosen ?_
        cases taken with
        | true => exact Option.some.inj hn ▸ .head _
        | false => exact .tail _ (Option.mem_toList.mpr hn)
      | none => exact does_pushValue .none
    | _ => exact does_raise _
  | restore target => cases hr
  | marker => exact .ok trivial
  | reset => exact .single (.unwind c) trivial
  | list count =>
    refine (does_popValues count _).bind fun d items _ _ => ?_
    have hmake : (Item.instr (.list count) span).Makes (.list items) := trivial
    exact (does_alloc hmake).bind fun _ id _ _ => does_pushValue (.list id)
  | subscript =>
    refine does_popValue.bind fun d y _ hq => ?_
    obtain ⟨-, stash, rfl, hs⟩ := hq
    refine does_popValue.bind fun d x _ hq => ?_
    obtain ⟨hx, below, rfl, -⟩ := hq
    exact does_answer (f := fun c => x.subscript c.memory.store y) (Value.subscript_plain y (h x (hs hx)))

/-- Whatever an item other than a restore does, it does by its deeds. -/
theorem does_execute (h : ∀ w ∈ c.stash.items, w.Resolves c.memory.store) {item : Item} (hr : item.restoreTarget? = none) :
    Does c.memory item c Any (Action.execute item c) := by
  rw [← execute_standard]
  cases item with
  | node n skip => exact does_evalNode skip n
  | instr i span => exact does_execInstr h hr

end Variant
end CseMachine
