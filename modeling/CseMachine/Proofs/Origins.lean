import CseMachine.Proofs.Memory.Survivors
import CseMachine.Proofs.Reachable

/-!
# Where nodes come from

The machine works on nodes of the trees that it was given and makes no place of its
own. A set of nodes that is closed under what stands below a node is never left, so
whatever an error points to is the place of a node in the set, or of a parameter of
such a node.
-/
namespace CseMachine

open Relation (ReflTransGen)

namespace Node

/-- The second node is somewhere in the tree of the first. -/
def Contains : Node → Node → Prop := ReflTransGen fun n child => child ∈ n.children

/-- The place of a node and those of its parameters. -/
inductive Marks (n : Node) : Span → Prop
  | self : Marks n n.span
  | param {func : Func} {p : Param} (made : n.func? = some func) (taken : p ∈ func.params) : Marks n p.span

/-- The place of some node or parameter of the tree. -/
def HasSpan (tree : Node) (span : Span) : Prop := ∃ n, tree.Contains n ∧ n.Marks span

/-- The place of a function of the tree or of something in it. -/
def HasFunctionSpan (tree : Node) (span : Span) : Prop :=
  ∃ n func, tree.Contains n ∧ n.func? = some func ∧ n.HasSpan span

/-- Nodes of one place with the same parts, as a block without declarations and the sequence that is pushed for it. -/
structure Alike (n n' : Node) : Prop where
  span : n'.span = n.span
  children : n'.children = n.children
  func? : n'.func? = n.func?

theorem Alike.marks {n n' : Node} (h : Alike n n') {span : Span} (hm : n'.Marks span) : n.Marks span := by
  cases hm with
  | self => exact h.span ▸ .self
  | param made taken => exact .param (h.func? ▸ made) taken

end Node

/-- A set of nodes with all that is below them. -/
structure Origin (O : Node → Prop) : Prop where
  children : ∀ {n child : Node}, O n → child ∈ n.children → O child
  alike : ∀ {n n' : Node}, O n → n.Alike n' → O n'

namespace Node

/-- The node is in the tree, but for what pushing makes of it. -/
def Of (tree n : Node) : Prop := ∃ n', tree.Contains n' ∧ n'.Alike n

/-- The node is in a function of the tree. -/
def OfFunction (tree n : Node) : Prop := ∃ n' func, tree.Contains n' ∧ n'.func? = some func ∧ n'.Of n

theorem of_self (tree : Node) : tree.Of tree := ⟨tree, .refl, rfl, rfl, rfl⟩

theorem origin_of (tree : Node) : Origin tree.Of where
  children := by
    rintro n child ⟨n', hn, ha⟩ hc
    exact ⟨child, .tail hn (ha.children ▸ hc), rfl, rfl, rfl⟩
  alike := by
    rintro n m ⟨n', hn, ha⟩ hm
    exact ⟨n', hn, hm.span.trans ha.span, hm.children.trans ha.children, hm.func?.trans ha.func?⟩

theorem origin_ofFunction (tree : Node) : Origin tree.OfFunction where
  children := fun ⟨n', func, hn, hf, ho⟩ hc => ⟨n', func, hn, hf, (origin_of n').children ho hc⟩
  alike := fun ⟨n', func, hn, hf, ho⟩ ha => ⟨n', func, hn, hf, (origin_of n').alike ho ha⟩

theorem Of.hasSpan {tree n : Node} (h : tree.Of n) {span : Span} (hm : n.Marks span) : tree.HasSpan span := by
  obtain ⟨n', hn, ha⟩ := h
  exact ⟨n', hn, ha.marks hm⟩

theorem OfFunction.hasFunctionSpan {tree n : Node} (h : tree.OfFunction n) {span : Span} (hm : n.Marks span) :
    tree.HasFunctionSpan span := by
  obtain ⟨n', func, hn, hf, ho⟩ := h
  exact ⟨n', func, hn, hf, ho.hasSpan hm⟩

/-- A function of the tree is in itself. -/
theorem Of.ofFunction {tree n : Node} {func : Func} (h : tree.Of n) (hf : n.func? = some func) : tree.OfFunction n := by
  obtain ⟨n', hn, ha⟩ := h
  exact ⟨n', func, hn, ha.func? ▸ hf, n', .refl, ha⟩

end Node

theorem Origin.or {O O' : Node → Prop} (h : Origin O) (h' : Origin O') : Origin fun n => O n ∨ O' n where
  children ho hc := ho.imp (fun ho => h.children ho hc) fun ho => h'.children ho hc
  alike ho ha := ho.imp (fun ho => h.alike ho ha) fun ho => h'.alike ho ha

/-- The error points to something, and so does every one of its notes. -/
structure EvalError.PointsTo (P : Span → Prop) (e : EvalError) : Prop where
  span : ∃ span, e.span = some span ∧ P span
  notes : ∀ note ∈ e.notes, ∃ span, note.span = some span ∧ P span

theorem EvalError.PointsTo.mono {P Q : Span → Prop} {e : EvalError} (h : e.PointsTo P) (hpq : ∀ span, P span → Q span) :
    e.PointsTo Q := by
  obtain ⟨⟨span, hs, hp⟩, hn⟩ := h
  refine ⟨⟨span, hs, hpq span hp⟩, fun note hnote => ?_⟩
  obtain ⟨span, hs, hp⟩ := hn note hnote
  exact ⟨span, hs, hpq span hp⟩

/-- The place of a node of the set or of a parameter. -/
def Marked (O : Node → Prop) (span : Span) : Prop := ∃ n, O n ∧ n.Marks span

/-- The item works on nodes of the set and fails at the place of one. -/
def Item.Drawn (O : Node → Prop) : Item → Prop
  | .node n _ => O n
  | .instr i span => Marked O span ∧ ∀ n ∈ i.nodes, O n

/-- Every closure was made by a node of the set. -/
def Store.Drawn (O : Node → Prop) (s : Store) : Prop :=
  ∀ {id c}, s.closure? id = some c → ∃ n, O n ∧ n.func? = some c.func ∧ n.span = c.span

/-- All the context does is about nodes of the set. -/
structure Context.Drawn (O : Node → Prop) (c : Context) : Prop where
  items : ∀ item ∈ c.control.items.items, item.Drawn O
  closures : c.memory.store.Drawn O
  errors : ∀ e ∈ c.errors, e.PointsTo (Marked O)

variable {O : Node → Prop} {item : Item} {m m' : Memory} {c d : Context}

namespace Item

theorem Drawn.marked (h : item.Drawn O) : Marked O item.span := by
  cases item with
  | node n skip => exact ⟨n, h, .self⟩
  | instr i span => exact h.1

theorem Drawn.mono {O' : Node → Prop} (h : item.Drawn O) (ho : ∀ n, O n → O' n) : item.Drawn O' := by
  cases item with
  | node n skip => exact ho n h
  | instr i span =>
    obtain ⟨⟨n, hn, hm⟩, hnodes⟩ := h
    exact ⟨⟨n, ho n hn, hm⟩, fun n hn => ho n (hnodes n hn)⟩

/-- A block that declares nothing and the sequence that takes its place are alike. -/
theorem Drawn.shape (hO : Origin O) (h : item.Drawn O) : (Variant.standard.shape item).Drawn O := by
  show item.flatten.Drawn O
  unfold flatten
  split
  · exact hO.alike h ⟨rfl, rfl, rfl⟩
  · exact h

end Item

/-- The returned expression is in the body that is one return. -/
theorem Func.mem_children_of_singleReturn? {func : Func} {e : Node} (h : func.singleReturn? = some e) :
    ∃ n ∈ func.body.children, e ∈ n.children := by
  simp only [singleReturn?] at h
  split at h
  · next s s' e' hb =>
    cases h
    rw [hb]
    exact ⟨.ret s' (some e), .head _, .head _⟩
  · cases h

namespace Origin

variable (hO : Origin O)
include hO

theorem body {n : Node} {func : Func} (h : O n) (hf : n.func? = some func) : O func.body := by
  refine hO.children h ?_
  cases n with
  | define span name f declaration => cases hf; exact .head _
  | lambda span f => cases hf; exact .head _
  | _ => cases hf

theorem leaves {i : Item} (h : item.Drawn O) (hs : m.store.Drawn O) (hl : item.Leaves m.store i) : i.Drawn O := by
  cases hl with
  | part below => exact hO.children h below
  | between below => exact ⟨⟨_, hO.children h below, .self⟩, by rintro _ ⟨⟩⟩
  | instr below => exact ⟨⟨_, h, .self⟩, fun n hn => hO.children h (below hn)⟩
  | chosen one => exact h.2 _ one
  | back target => exact ⟨h.marked, by rintro _ ⟨⟩⟩
  | body called entered =>
    obtain ⟨n, hn, hf, -⟩ := hs called
    have hbody := hO.body hn hf
    simp only [Variant.bodyItems, Variant.standard, if_true] at entered
    split at entered
    · next e he =>
      obtain rfl := List.mem_singleton.mp entered
      obtain ⟨r, hr, hchild⟩ := Func.mem_children_of_singleReturn? he
      exact hO.children (hO.children hbody hr) hchild
    · rcases List.mem_cons.mp entered with rfl | entered
      · exact hbody
      · obtain rfl := List.mem_singleton.mp entered
        exact ⟨h.marked, by rintro _ ⟨⟩⟩

omit hO in
theorem memoryDeed {F : EnvId → Environment → Environment → Prop} (h : item.Drawn O)
    (hd : Memory.Deed F item.Makes m m') (hs : m.store.Drawn O) : m'.store.Drawn O := by
  cases hd with
  | frame | create | count => exact hs
  | object env made =>
    intro id c hc
    obtain ⟨owner, ho⟩ := Store.closure?_eq_some.mp hc
    rcases Memory.get?_of_stored ho with ⟨-, ho⟩ | ho
    · cases ho
      cases item with
      | node n skip => exact ⟨n, h, made.1, made.2.symm⟩
      | instr i span => exact made.elim
    · exact hs (Store.closure?_eq_some.mpr ⟨owner, ho⟩)
  | name id name =>
    intro k c hc
    rw [Store.closure?_nameClosure] at hc
    split at hc
    · obtain ⟨c', hc', rfl⟩ := Option.map_eq_some_iff.mp hc
      obtain ⟨n, hn, hf, hspan⟩ := hs hc'
      exact ⟨n, hn, hf, hspan⟩
    · exact hs hc

/-- No deed brings in anything from outside the set. -/
theorem deed (h : item.Drawn O) (hm : m.store.Drawn O) (hd : Context.Deed m item c d) (hc : c.Drawn O) : d.Drawn O := by
  cases hd with
  | stash | print | program | active => exact ⟨hc.items, hc.closures, hc.errors⟩
  | push left =>
    refine ⟨fun i hi => ?_, hc.closures, hc.errors⟩
    rw [Control.items_pushAll] at hi
    rcases List.mem_append.mp hi with hi | hi
    · obtain ⟨j, hj, rfl⟩ := List.mem_map.mp hi
      exact (hO.leaves h hm (left j hj)).shape hO
    · exact hc.items i hi
  | unwind =>
    refine ⟨fun i hi => hc.items i ?_, hc.closures, hc.errors⟩
    simp only [Control.unwind, Control.items_dropToMarker] at hi
    exact (Control.belowMarker_suffix _).subset hi
  | memory deed => exact ⟨hc.items, Origin.memoryDeed h deed hc.closures, hc.errors⟩

theorem deeds (h : item.Drawn O) (hm : m.store.Drawn O) (hd : ReflTransGen (Context.Deed m item) c d) (hc : c.Drawn O) :
    d.Drawn O := by
  induction hd with
  | refl => exact hc
  | tail _ hd ih => exact hO.deed h hm hd ih

omit hO in
/-- An error that points nowhere gets the place of its item, and a call points to its function or to a parameter. -/
theorem fails {e : EvalError} (h : item.Drawn O) (hs : m.store.Drawn O) (he : Item.Fails m.store e) :
    (e.withSpan item.span).PointsTo (Marked O) := by
  rcases he with hp | ⟨id, closure, given, hc, he⟩
  · refine ⟨⟨item.span, ?_, h.marked⟩, fun note hn => ?_⟩
    · simp only [EvalError.withSpan, hp.span, Option.none_or]
    · cases hp.notes ▸ hn
  · obtain ⟨n, hn, hf, hspan⟩ := hs hc
    have hdefined : ∀ note ∈ [Action.definedHere closure], ∃ span, note.span = some span ∧ Marked O span := by
      intro note hnote
      obtain rfl := List.mem_singleton.mp hnote
      exact ⟨closure.span, rfl, n, hn, hspan ▸ .self⟩
    simp only [Action.checkArguments] at he
    split at he
    · cases he
      exact ⟨⟨item.span, rfl, h.marked⟩, hdefined⟩
    · split at he
      · cases he
        exact ⟨⟨item.span, rfl, h.marked⟩, hdefined⟩
      · split at he
        · next p hp =>
          cases he
          exact ⟨⟨p.span, rfl, n, hn, .param hf (List.mem_of_find?_eq_some hp)⟩, by rintro _ ⟨⟩⟩
        · cases he

end Origin

namespace Context.Drawn

theorem mono {O' : Node → Prop} (h : c.Drawn O) (ho : ∀ n, O n → O' n) : c.Drawn O' := by
  refine ⟨fun i hi => (h.items i hi).mono ho, fun hc => ?_, fun e he => (h.errors e he).mono fun span hs => ?_⟩
  · obtain ⟨n, hn, hf, hs⟩ := h.closures hc
    exact ⟨n, ho n hn, hf, hs⟩
  · obtain ⟨n, hn, hm⟩ := hs
    exact ⟨n, ho n hn, hm⟩

/-- A memory in which no closure is new. -/
theorem survives (h : c.Drawn O) (hi : ∀ i ∈ d.control.items.items, i ∈ c.control.items.items)
    (hm : c.memory.Survives d.memory) (he : d.errors = c.errors) : d.Drawn O :=
  ⟨fun i hd => h.items i (hi i hd), fun hc => h.closures (hm.closure? hc), he ▸ h.errors⟩

variable (hO : Origin O)
include hO

theorem execute (h : c.Drawn O) (hw : c.WellFormed) (hi : item.Drawn O) : match Action.execute item c with
    | .ok _ d => d.Drawn O
    | .error e d => d.Drawn O ∧ (e.withSpan item.span).PointsTo (Marked O) := by
  refine of_execute (P := Drawn O) (E := fun e d => d.Drawn O ∧ (e.withSpan item.span).PointsTo (Marked O)) hw.stash item
    (fun hd => ?_) (fun hm => ?_) fun hf hd => ?_
  · exact hO.deeds hi h.closures hd h
  · exact h.survives (fun _ hi => hi) hm rfl
  · exact ⟨hd, Origin.fails hi h.closures hf⟩

theorem advance (h : c.Drawn O) (hw : c.WellFormed) (ha : c.advance? = some (item, d)) : d.Drawn O := by
  refine of_advance? (P := Drawn O) (E := fun error e => e.Drawn O ∧ (error.withSpan item.span).PointsTo (Marked O)) ha
    (fun rest hpop => ?_) (fun {e} he => ?_) fun ⟨he, hpoints⟩ => ?_
  · have hitems := Control.items_pop? hpop
    have htaken : (c.taken rest).Drawn O :=
      ⟨fun i hi => h.items i (hitems ▸ .tail _ hi), h.closures, h.errors⟩
    exact htaken.execute hO (hw.taken hpop) (h.items item (hitems ▸ .head _))
  · exact he.survives (fun _ hi => hi) e.survives_collectGarbage rfl
  · refine ⟨he.items, he.closures, fun e' he' => ?_⟩
    rcases List.mem_append.mp he' with he' | he'
    · exact he.errors e' he'
    · obtain rfl := List.mem_singleton.mp he'
      exact hpoints

theorem load {program : Node} (h : c.Drawn O) (hp : O program) : (c.load program).Drawn O := by
  simp only [Context.load]
  split
  · exact h
  · refine ⟨fun i hi => ?_, h.closures, h.errors⟩
    rcases List.mem_cons.mp hi with rfl | hi
    · have hnode : (Item.node program false).Drawn O := hp
      exact Item.Drawn.shape hO hnode
    · exact h.items i hi

omit hO in
theorem finish (h : c.Drawn O) : c.finish.Drawn O := by
  obtain ⟨m, hs, hm⟩ := c.settle_eq
  rw [Context.finish, hs]
  exact h.survives (fun _ hi => hi) hm rfl

/-- Every move of a run stays within the set. -/
theorem kept : Kept fun c => c.WellFormed ∧ c.Drawn O where
  advanced := fun ⟨hw, hd⟩ _ ha => ⟨hw.advance ha, hd.advance hO hw ha⟩
  finished := fun ⟨hw, hd⟩ hp hn => ⟨wellFormed_invariant.finished hw hp hn, hd.finish⟩
  suspended := fun ⟨hw, hd⟩ _ => ⟨wellFormed_invariant.suspended hw, hd.items, hd.closures, hd.errors⟩

end Context.Drawn
end CseMachine
