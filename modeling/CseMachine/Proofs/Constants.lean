import CseMachine.Proofs.Builtins
import CseMachine.Proofs.Ownership

/-!
# Constants

An assignment that is no declaration is refused where it finds a constant. What gives a declared name
its value says anew whether the name is a constant, though, and no instruction that a node leaves says
so. Hence of all constants only the builtins ever have a value: a name that a program declares as a
constant is a variable from its first value on, and no slot becomes that of a constant again.
-/
namespace CseMachine

open Relation (ReflTransGen)
open Memory (Any Keeps Survives Writes)

/-- What a frame knows of a name, if there is the frame and it has the name. -/
def Memory.slot? (m : Memory) (env : EnvId) (name : String) : Option Slot := (m.bindings? env).bind (·.lookup name)

/-- The slot is as it was, or that of a variable. -/
def Slot.Loosens (slot slot' : Slot) : Prop := slot' = slot ∨ slot'.constant = false

theorem Slot.Loosens.trans {slot slot' slot'' : Slot} (h : slot.Loosens slot') (h' : slot'.Loosens slot'') :
    slot.Loosens slot'' :=
  h'.elim (fun he => he ▸ h) .inr

/-- No name is lost, and no slot has become that of a constant. -/
def Environment.Loosens (bindings bindings' : List (String × Slot)) : Prop :=
  ∀ name slot, bindings.lookup name = some slot → ∃ slot', bindings'.lookup name = some slot' ∧ slot.Loosens slot'

theorem Environment.Loosens.trans {b b' b'' : List (String × Slot)} (h : Loosens b b') (h' : Loosens b' b'') :
    Loosens b b'' := by
  intro name slot hs
  obtain ⟨slot', hs', hl⟩ := h name slot hs
  obtain ⟨slot'', hs'', hl'⟩ := h' name slot' hs'
  exact ⟨slot'', hs'', hl.trans hl'⟩

namespace Item

variable {m : Memory} {item : Item} {env : EnvId} {e e' : Environment}

/-- Whether the item makes a constant of the name that it binds. -/
def bindsConstant : Item → Bool
  | .node .. => false
  | .instr i _ => i.bindsConstant

theorem bindsConstant_shape (item : Item) : (Variant.standard.shape item).bindsConstant = item.bindsConstant := by
  show item.flatten.bindsConstant = _
  unfold flatten
  split <;> rfl

/-- No item leaves one behind that makes a constant of a name. -/
theorem Leaves.bindsConstant {s : Store} {left : Item} (h : item.Leaves s left) : left.bindsConstant = false := by
  cases h with
  | part | between | chosen | back => rfl
  | instr below plain => exact plain
  | body called entered =>
    simp only [Variant.bodyItems, Variant.standard, if_true] at entered
    split at entered
    · obtain rfl := List.mem_singleton.mp entered
      rfl
    · rcases List.mem_cons.mp entered with rfl | entered
      · rfl
      · obtain rfl := List.mem_singleton.mp entered
        rfl

/-- Such an item gives values to variables only. -/
theorem Changes.bindsVariables (h : item.Changes m env e e') (hi : item.bindsConstant = false) : e.BindsVariables e' := by
  rcases h with ⟨-, hb⟩ | ⟨bindings, heap, rfl, rfl | hr⟩
  · exact hb
  · exact .of_bindings rfl
  · cases hr with
    | declared w =>
      obtain rfl : _ = false := hi
      exact .setSlot e _ w
    | assigned w => exact .setSlot e _ w
    | @added span declarations made =>
      have hnone : ∀ b ∈ Memory.declaredSlots made, b.2.value = none := by
        intro b hb
        obtain ⟨d, -, rfl⟩ := List.mem_map.mp hb
        rfl
      exact .extend e hnone

/-- A slot stays as it is or becomes that of a variable. It was one then, unless a declaration gives its name a value. -/
theorem Rebinds.lookup {b b' : List (String × Slot)} (h : item.Rebinds m env b b') (hi : item.bindsConstant = false)
    {name : String} {slot : Slot} (hs : b.lookup name = some slot) : b'.lookup name = some slot ∨
      (∃ w, b'.lookup name = some ⟨some w, false⟩) ∧
        ((∃ frame found, m.resolve name = .found env frame found ∧ found.constant = false) ∨
          env = m.current ∧ ∃ span, item = .instr (.assignment name false true) span) := by
  have hreplace : ∀ (target : String) (w : Value), (Environment.replace target ⟨some w, false⟩ b).lookup name =
      if name = target then some ⟨some w, false⟩ else some slot := by
    intro target w
    rw [Environment.lookup_replace, hs, Option.map_some]
  cases h with
  | @declared target constant span _ w =>
    obtain rfl : constant = false := hi
    have hl := hreplace target w
    split at hl
    · next hn => exact .inr ⟨⟨w, hl⟩, .inr ⟨rfl, span, hn ▸ rfl⟩⟩
    · exact .inl hl
  | @assigned target _ _ _ frame found _ w hr notConstant =>
    have hl := hreplace target w
    split at hl
    · next hn => exact .inr ⟨⟨w, hl⟩, .inl ⟨frame, found, hn ▸ hr, notConstant⟩⟩
    · exact .inl hl
  | added =>
    refine .inl ?_
    rw [List.lookup_append, hs, Option.some_or]

theorem Rebinds.loosens {b b' : List (String × Slot)} (h : item.Rebinds m env b b') (hi : item.bindsConstant = false) :
    Environment.Loosens b b' := by
  intro name slot hs
  rcases h.lookup hi hs with hl | ⟨⟨w, hl⟩, -⟩
  · exact ⟨slot, hl, .inl rfl⟩
  · exact ⟨_, hl, .inr rfl⟩

end Item

namespace Memory

variable {g : List (String × Slot)} {m m' : Memory}

/-- Every constant that has a value is one of these bindings of the global environment. -/
def ConstantsAmong (g : List (String × Slot)) (m : Memory) : Prop :=
  ∀ id e, m.environment? id = some e → ∀ b ∈ e.bindings, b.2.constant = true → b.2.value = none ∨ id = .global ∧ b ∈ g

namespace ConstantsAmong

theorem survives (h : m.ConstantsAmong g) (hs : m.Survives m') : m'.ConstantsAmong g := by
  intro id e' he' b hb hc
  obtain ⟨e, he, hcore⟩ := hs.frame he'
  have hbindings : e'.bindings = e.bindings := congrArg (·.bindings) hcore
  exact h id e he b (hbindings ▸ hb) hc

theorem deed {F : EnvId → Environment → Environment → Prop} {M : Content → Prop} (h : m.ConstantsAmong g)
    (hd : Deed F M m m') (hF : ∀ {env e e'}, F env e e' → e.BindsVariables e') : m'.ConstantsAmong g := by
  cases hd with
  | frame found becomes =>
    intro id e he b hb hc
    rcases environment?_of_setEnvironment he with ⟨rfl, rfl⟩ | he
    · exact (hF becomes b hb hc).elim .inl fun hb => h _ _ found b hb hc
    · exact h id e he b hb hc
  | create =>
    intro id e he b hb hc
    rcases environment?_of_create he with ⟨-, rfl⟩ | he
    · cases hb
    · exact h id e he b hb hc
  | object | name | count => exact h

end ConstantsAmong

/-- The builtins are bound in the global environment. -/
theorem writes_bindAll (bindings : List (String × Value)) :
    Leads (Writes (.global = ·)) m Any (Setup.bindAll bindings m) :=
  leads_bindAll_of_each trivial (fun _ _ => trivial) (fun _ _ => writes_declare rfl _ true)
    fun _ _ => writes_define rfl _ _ true

/-- At the start there is no other environment. -/
theorem Writes.constantsAmong (h : Writes (.global = ·) initial m) :
    m.ConstantsAmong ((m.bindings? .global).getD []) := by
  intro id e he b hb _
  have hbound := bindings?_eq he
  by_cases hid : .global = id
  · subst hid
    refine .inr ⟨rfl, ?_⟩
    rw [hbound]
    exact hb
  · have hnone : initial.bindings? id = none := by
      simp only [bindings?, environment?_initial, if_neg hid, Option.map_none]
    cases hbound.symm.trans ((h.bindings id hid).trans hnone)

end Memory

namespace Context

variable {g : List (String × Slot)} {c d : Context} {m : Memory} {item : Item}

/-- No item on Control makes a constant of a name, and every constant that has a value is one of these bindings. -/
structure Lenient (g : List (String × Slot)) (c : Context) : Prop where
  items : ∀ item ∈ c.control.items.items, item.bindsConstant = false
  constants : c.memory.ConstantsAmong g

namespace Lenient

theorem deeds (h : c.Lenient g) (hi : item.bindsConstant = false) (hd : ReflTransGen (Deed m item) c d) : d.Lenient g := by
  induction hd with
  | refl => exact h
  | tail _ hd ih =>
    cases hd with
    | stash | print | program | active => exact ⟨ih.items, ih.constants⟩
    | push left =>
      refine ⟨fun i hi => ?_, ih.constants⟩
      rw [Control.items_pushAll] at hi
      rcases List.mem_append.mp hi with hi | hi
      · obtain ⟨j, hj, rfl⟩ := List.mem_map.mp hi
        exact j.bindsConstant_shape.trans (left j hj).bindsConstant
      · exact ih.items i hi
    | unwind =>
      refine ⟨fun i hi => ih.items i ?_, ih.constants⟩
      simp only [Control.unwind, Control.items_dropToMarker] at hi
      exact (Control.belowMarker_suffix _).subset hi
    | memory deed => exact ⟨ih.items, ih.constants.deed deed fun hc => hc.bindsVariables hi⟩

theorem survives (h : c.Lenient g) (hc : d.control.items.items ⊆ c.control.items.items) (hm : c.memory.Survives d.memory) :
    d.Lenient g :=
  ⟨fun i hi => h.items i (hc hi), h.constants.survives hm⟩

theorem execute (h : c.Lenient g) (hw : c.WellFormed) (hi : item.bindsConstant = false) :
    match Action.execute item c with
    | .ok _ d => d.Lenient g
    | .error _ d => d.Lenient g := by
  refine of_execute (P := Lenient g) (E := fun _ d => d.Lenient g) hw.stash item (fun hd => ?_) (fun hm => ?_) fun _ hd => hd
  · exact h.deeds hi hd
  · exact h.survives (List.Subset.refl _) hm

theorem next (h : c.Lenient g) {rest : Control} (hp : c.control.pop? = some (item, rest)) : item.bindsConstant = false :=
  h.items item (Control.items_pop? hp ▸ .head _)

theorem advance (h : c.Lenient g) (hw : c.WellFormed) (ha : c.advance? = some (item, d)) : d.Lenient g := by
  refine of_advance? (P := Lenient g) (E := fun _ e => e.Lenient g) ha (fun rest hp => ?_) (fun {e} he => ?_) fun he => ?_
  · have htaken : (c.taken rest).Lenient g := ⟨fun i hi => h.items i (Control.items_pop? hp ▸ .tail _ hi), h.constants⟩
    exact htaken.execute (hw.taken hp) (h.next hp)
  · exact he.survives (List.Subset.refl _) e.survives_collectGarbage
  · exact ⟨he.items, he.constants⟩

theorem load (h : c.Lenient g) (program : Node) : (c.load program).Lenient g := by
  simp only [Context.load]
  split
  · exact h
  · refine ⟨fun i hi => ?_, h.constants⟩
    rcases List.mem_cons.mp hi with rfl | hi
    · exact (Item.node program false).bindsConstant_shape
    · exact h.items i hi

theorem finish (h : c.Lenient g) : c.finish.Lenient g :=
  h.survives (fun _ hi => c.control_settle ▸ hi) c.survives_finish

theorem kept (g : List (String × Slot)) : Kept fun c => c.WellFormed ∧ c.Lenient g where
  advanced := fun ⟨hw, h⟩ _ ha => ⟨hw.advance ha, h.advance hw ha⟩
  finished := fun ⟨hw, h⟩ hp hn => ⟨wellFormed_invariant.finished hw hp hn, h.finish⟩
  suspended := fun ⟨hw, h⟩ _ => ⟨wellFormed_invariant.suspended hw, h.items, h.constants⟩

end Lenient
end Context

/-- So it is from the start on, whatever trees are loaded. -/
theorem Setup.Reachable.lenient {s : Setup} {run : RunId} {c : Context} (h : s.Reachable run c) : c.Lenient s.builtins := by
  have hwrites := @Memory.writes_bindAll .initial s.registry.bindings
  have hwell := Memory.leads_bindAll Memory.initial_wellFormed fun b hb => Registry.objectId?_bindings s.registry hb
  have hfresh : ∀ {m : Memory}, ReflTransGen Memory.Change .initial m → ReflTransGen (Writes (.global = ·)) .initial m →
      (m.bindings? .global).getD [] = s.builtins →
        ({ run, memory := m } : Context).WellFormed ∧ ({ run, memory := m } : Context).Lenient s.builtins := by
    intro m hm hw hg
    exact ⟨Context.wellFormed_invariant.fresh run hm, nofun, hg ▸ (Writes.of_changes hw).constantsAmong⟩
  refine ((Context.Lenient.kept s.builtins).reachable (fun hm => ?_) (fun hm => ?_) (fun ⟨hw, hc⟩ _ _ => ?_)
    (fun program ⟨hw, hc⟩ => ⟨hw.load program, hc.load program⟩) (fun predefined ⟨hw, hc⟩ => ?_) h).2
  · rw [hm] at hwrites hwell
    exact hfresh hwell hwrites (by simp only [builtins, hm])
  · rw [hm] at hwrites hwell
    exact hfresh hwell.1 hwrites.1 (by simp only [builtins, hm])
  · exact ⟨Context.wellFormed_invariant.started hw, hc.items, hc.constants⟩
  · exact ⟨Context.wellFormed_invariant.predefining predefined hw, hc.items, hc.constants⟩

/-! Slots -/

namespace Memory

variable {m m' : Memory} {env id : EnvId} {e : Environment} {name : String} {slot slot' : Slot}

theorem slot?_eq (h : m.environment? env = some e) (name : String) : m.slot? env name = e.lookup? name := by
  simp only [slot?, bindings?_eq h, Option.bind_some, Environment.lookup?]

theorem slot?_set (m : Memory) (env : EnvId) (e : Environment) (name : String) :
    (m.setEnvironment env e).slot? env name = e.lookup? name :=
  slot?_eq (environment?_set m env e) name

theorem exists_of_slot? (h : m.slot? env name = some slot) :
    ∃ e, m.environment? env = some e ∧ e.lookup? name = some slot := by
  obtain ⟨bindings, hb, hl⟩ := Option.bind_eq_some_iff.mp h
  obtain ⟨e, he, rfl⟩ := Option.map_eq_some_iff.mp hb
  exact ⟨e, he, hl⟩

/-- A slot stays as it is where the frame is kept with its bindings. -/
theorem Keeps.slot? {B : EnvId → List (String × Slot) → List (String × Slot) → Prop} (h : m.Keeps B m') (hl : m.Linked)
    (hs : m.slot? env name = some slot) : m'.bindings? env = none ∨ m'.slot? env name = some slot ∨
      ∃ e e', m.environment? env = some e ∧ e.lookup? name = some slot ∧ m'.environment? env = some e' ∧
        B env e.bindings e'.bindings := by
  obtain ⟨e, he, hlookup⟩ := exists_of_slot? hs
  cases he' : m'.environment? env with
  | none => exact .inl (bindings?_eq_none he')
  | some e' =>
    rcases ((h.preserves hl).frame he he').bindings with hb | hb
    · refine .inr (.inl ?_)
      rw [slot?_eq he', ← hlookup, Environment.lookup?, Environment.lookup?, hb]
    · exact .inr (.inr ⟨e, e', he, hlookup, rfl, hb⟩)

/-- What the current environment has is found there. -/
theorem resolve_current (h : m.environment? m.current = some e) (hl : e.lookup? name = some slot) :
    m.resolve name = .found m.current e slot := by
  simp only [resolve, resolveFrom, h, hl]

/-- A name that is given another slot is found where it was. -/
theorem resolveFrom_set {steps : Nat} (h : m.resolveFrom name steps id = .found env e slot) (slot' : Slot) :
    (m.setEnvironment env (e.setSlot name slot')).resolveFrom name steps id = .found env (e.setSlot name slot') slot' := by
  obtain ⟨he, hl⟩ := resolveFrom_found h
  induction steps generalizing id with
  | zero => cases h
  | succ steps ih =>
    simp only [resolveFrom] at h ⊢
    rw [environment?_setEnvironment]
    by_cases hid : env = id
    · subst hid
      have hset : (e.setSlot name slot').lookup? name = some slot' := by
        rw [Environment.lookup?_setSlot, if_pos rfl, hl, Option.map_some]
      simp only [if_true, hset]
    · rw [if_neg hid]
      cases hf : m.environment? id with
      | none =>
        rw [hf] at h
        cases h
      | some f =>
        rw [hf] at h
        -- A frame on the way does not have the name, or the way would end there.
        cases hs : f.lookup? name with
        | some found =>
          simp only [hs, Resolution.found.injEq] at h
          exact absurd h.1.symm hid
        | none =>
          cases ht : f.tail with
          | none =>
            simp only [hs, ht] at h
            cases h
          | some tail =>
            simp only [hs, ht] at h ⊢
            exact ih h

/-- A collection keeps what the current environment leads to. -/
theorem slot?_collect (h : m.resolve name = .found env e slot) (envs : List EnvId) (objects : List ObjId) :
    (m.collect envs objects).2.slot? env name = some slot := by
  have ha := ((Agree.refl m).collect envs objects).symm
  rcases ha.resolveFrom_cases name (m.nextEnv + 1) ha.current_live with
    ⟨env', e', heap, slot', h', hc, -⟩ | ⟨h', -⟩ | ⟨env', h', -⟩
  · cases h.symm.trans h'
    obtain ⟨he, hl⟩ := resolveFrom_found hc
    exact (slot?_eq he name).trans hl
  · cases h.symm.trans h'
  · cases h.symm.trans h'

end Memory

namespace Context

variable {c d : Context} {item : Item} {env : EnvId} {name : String}

/-- Nothing is entered or left, and what the environment knows of names it still knows. -/
structure Adds (env : EnvId) (c d : Context) : Prop where
  active : d.memory.active = c.memory.active
  slots : ∀ {name slot}, c.memory.slot? env name = some slot → d.memory.slot? env name = some slot

theorem Adds.trans {d' : Context} (h : Adds env c d) (h' : Adds env d d') : Adds env c d' :=
  ⟨h'.active.trans h.active, fun hs => h'.slots (h.slots hs)⟩

/-- The current environment has these names, all without values. -/
def Declared (declarations : List Declaration) (c : Context) : Prop :=
  ∀ x ∈ declarations, c.memory.slot? c.memory.current x.name = some ⟨none, x.constant⟩

theorem succeeds_declare (c : Context) (env : EnvId) (x : Declaration) :
    Succeeds c (fun d _ => Adds env c d ∧ d.memory.slot? env x.name = some ⟨none, x.constant⟩)
      (Action.onMemory (Memory.declare env x.name x.constant) c) := by
  simp only [Action.onMemory, Memory.declare]
  cases he : c.memory.environment? env with
  | none => exact .error _ _ _ _
  | some e =>
    cases hl : e.lookup? x.name with
    | some slot =>
      simp only [Environment.declare?, hl, Option.isSome_some, if_true]
      exact .error _ _ _ _
    | none =>
      simp only [Environment.declare?_eq hl]
      refine .single trivial ⟨⟨rfl, fun {name slot} hs => ?_⟩, ?_⟩
      · rw [Memory.slot?_eq he] at hs
        rw [Memory.slot?_set, Environment.lookup?_extend, hs, Option.some_or]
      · rw [Memory.slot?_set, Environment.lookup?_extend, hl, Option.none_or, List.lookup_cons_self]

theorem succeeds_declareAll (c : Context) (env : EnvId) (declarations : List Declaration) :
    Succeeds c (fun d _ => Adds env c d ∧ ∀ x ∈ declarations, d.memory.slot? env x.name = some ⟨none, x.constant⟩)
      (Action.declareAll env declarations c) := by
  induction declarations generalizing c with
  | nil => exact .ok ⟨⟨rfl, id⟩, nofun⟩
  | cons x rest ih =>
    refine (succeeds_declare c env x).bind fun d _ _ ⟨hadds, hx⟩ => ?_
    refine (ih d).mono fun d' _ _ ⟨hadds', hrest⟩ => ⟨hadds.trans hadds', ?_⟩
    rintro y (_ | ⟨_, hy⟩)
    · exact hadds'.slots hx
    · exact hrest y hy

/-- The names of a body are declared, then its statements are left to do. -/
theorem succeeds_body (hc : c.memory.current = env) (declarations : List Declaration) (body : List Node) :
    Succeeds c (fun d _ => d.Declared declarations)
      ((Action.declareAll env declarations >>= fun _ => Variant.standard.pushStatements body) c) := by
  refine (succeeds_declareAll c env declarations).bind fun d _ _ ⟨hadds, hdeclared⟩ => ?_
  have hcurrent : d.memory.current = env := (congrArg (·.headD .global) hadds.active).trans hc
  have hd : d.Declared declarations := fun x hx => hcurrent ▸ hdeclared x hx
  rw [Variant.pushStatements_eq]
  refine .single trivial ?_
  cases body with
  | nil => exact hd
  | cons first others => exact hd

/-- A program or block that succeeds has declared its names in the environment that is current then. -/
theorem declared_execute {n : Node} {skip : Bool} (hx : Action.execute (.node n skip) c = .ok () d) :
    d.Declared n.declarations := by
  have henter : ∀ (c : Context) (create : Memory → EnvId × Memory),
      Succeeds c (fun d env => d.memory.current = env) (Action.enter create c) := fun c create => .single trivial rfl
  have hself : Succeeds c (fun d _ => d.Declared n.declarations) (Variant.standard.evalSelf skip n c) →
      n.parts? = none → d.Declared n.declarations := by
    intro h hp
    rw [← Variant.execute_standard] at hx
    simp only [Variant.execute, Variant.evalNode, hp] at hx
    rw [hx] at h
    exact h.2
  cases n with
  | program span declarations body =>
    refine hself ?_ rfl
    rw [Variant.evalSelf_program]
    refine (henter c _).bind fun d env _ hd => ?_
    have hbody := @succeeds_body { d with programEnv := some env } env hd declarations body
    exact hbody.after (.single trivial)
  | block span declarations body =>
    refine hself ?_ rfl
    cases skip with
    | true =>
      rw [Variant.evalSelf_skippedBlock]
      exact succeeds_body rfl declarations body
    | false =>
      have hrestore : Succeeds c Any (Variant.standard.pushRestore span c) := .single trivial trivial
      rw [Variant.evalSelf_block]
      refine hrestore.bind fun d _ _ _ => ?_
      exact (henter d _).bind fun d env _ hd => succeeds_body hd declarations body
  | _ => exact fun x hx => absurd hx List.not_mem_nil

/-! Steps -/

theorem slot?_collectGarbage {frame : Environment} {slot : Slot} (h : c.memory.resolve name = .found env frame slot) :
    c.collectGarbage.memory.slot? env name = some slot :=
  Memory.slot?_collect h c.rootEnvs c.rootObjects

theorem current_collectGarbage (c : Context) : c.collectGarbage.memory.current = c.memory.current :=
  congrArg (·.headD .global) (Memory.agreeOn_collect c.memory c.rootEnvs c.rootObjects).active.symm

theorem Declared.collectGarbage {declarations : List Declaration} (h : c.Declared declarations) :
    c.collectGarbage.Declared declarations := by
  intro x hx
  obtain ⟨e, he, hl⟩ := Memory.exists_of_slot? (h x hx)
  rw [current_collectGarbage]
  exact slot?_collectGarbage (Memory.resolve_current he hl)

theorem declared_advance {n : Node} {skip : Bool} (ha : c.advance? = some (.node n skip, d)) (hd : d.phase ≠ .errored) :
    d.Declared n.declarations := by
  obtain ⟨rest, e, -, ⟨hx, rfl⟩ | ⟨error, -, rfl⟩⟩ := advance?_eq_some ha
  · have hdeclared := declared_execute hx
    split
    · exact hdeclared.collectGarbage
    · exact hdeclared
  · exact absurd rfl hd

/-- An assignment that may bind its name where it is found succeeds, and the name has the value on the Stash there. -/
theorem assigned_advance (hs : c.Supplied) {constant declaration : Bool} {span : Span} {frame : Environment} {slot : Slot}
    (ha : c.advance? = some (.instr (.assignment name constant declaration) span, d))
    (hr : c.memory.resolve name = .found env frame slot) {made : Value → Slot}
    (hb : ∀ w, Memory.bindName name w constant declaration (c.memory.named w name) =
      .ok () ((c.memory.named w name).setEnvironment env (frame.setSlot name (made w)))) :
    d.phase ≠ .errored ∧ ∃ w, c.stash.items.head? = some w ∧ d.memory.slot? env name = some (made w) := by
  obtain ⟨rest, e, hpop, hx⟩ := advance?_eq_some ha
  obtain ⟨w, stash, hstash⟩ := hs.exists_value hpop rfl
  have hok := @Variant.execute_assignment Variant.standard (c.taken rest) span _ _ _ _ _ _ hstash (hb w)
  rw [Variant.execute_standard] at hok
  rcases hx with ⟨hx, rfl⟩ | ⟨error, hx, -⟩
  · cases hok.symm.trans hx
    have hnamed : (c.memory.named w name).resolve name = .found env frame slot := by rw [c.memory.resolve_named, hr]
    -- The name is found where it was, so that a collection keeps the frame.
    have hfound := Memory.resolveFrom_set hnamed (made w)
    refine ⟨?_, w, by rw [hstash, List.head?_cons], ?_⟩
    · split <;> exact nofun
    · split
      · exact slot?_collectGarbage hfound
      · obtain ⟨he, hl⟩ := Memory.resolveFrom_found hfound
        exact (Memory.slot?_eq he name).trans hl
  · cases hok.symm.trans hx

/-- What a step makes of what environments know of names. -/
structure Rewrites (c : Context) (item : Item) (d : Context) : Prop where
  /-- A program or block that succeeds has declared its names where the machine is then, and they have no values. -/
  declared : ∀ n skip, item = .node n skip → d.phase ≠ .errored → d.Declared n.declarations
  /-- A declaration gives its value to whatever was declared, and makes a variable of it. -/
  redeclared : ∀ name constant span slot, item = .instr (.assignment name constant true) span →
    c.memory.slot? c.memory.current name = some slot → d.phase ≠ .errored ∧
      ∃ w, c.stash.items.head? = some w ∧ d.memory.slot? c.memory.current name = some ⟨some w, false⟩
  /-- Any other assignment that finds a constant fails and binds nothing. -/
  refused : ∀ name constant span env frame slot, item = .instr (.assignment name constant false) span →
    c.memory.resolve name = .found env frame slot → slot.constant = true → d.phase = .errored ∧
      d.errors = c.errors ++ [({ cause := .constantReassignment name } : EvalError).withSpan span] ∧
        ∀ id, d.memory.bindings? id = c.memory.bindings? id
  /-- One that finds a variable gives it the value. -/
  assigned : ∀ name constant span env frame slot, item = .instr (.assignment name constant false) span →
    c.memory.resolve name = .found env frame slot → slot.constant = false → d.phase ≠ .errored ∧
      ∃ w, c.stash.items.head? = some w ∧ d.memory.slot? env name = some ⟨some w, false⟩
  /-- The slot of a constant stays as it is, unless a declaration gives it a value or a collection frees the frame. -/
  kept : ∀ env name slot, c.memory.slot? env name = some slot → slot.constant = true →
    d.memory.bindings? env = none ∨ d.memory.slot? env name = some slot ∨
      env = c.memory.current ∧ ∃ span, item = .instr (.assignment name false true) span

variable {g : List (String × Slot)}

/-- The slot of a constant changes by a declaration only. -/
theorem Lenient.constant_kept (h : c.Lenient g) (hw : c.WellFormed) (ha : c.advance? = some (item, d)) {slot : Slot}
    (hs : c.memory.slot? env name = some slot) (hc : slot.constant = true) :
    d.memory.bindings? env = none ∨ d.memory.slot? env name = some slot ∨
      env = c.memory.current ∧ ∃ span, item = .instr (.assignment name false true) span := by
  obtain ⟨rest, -, hpop, -⟩ := advance?_eq_some ha
  rcases (hw.keeps_advance ha).slot? hw.memory.toLinked hs with hgone | hsame | ⟨e, e', he, hl, he', hb⟩
  · exact .inl hgone
  · exact .inr (.inl hsame)
  · rcases hb.lookup (h.next hpop) hl with hsame | ⟨-, ⟨frame, found, hr, hvariable⟩ | hdeclares⟩
    · exact .inr (.inl ((Memory.slot?_eq he' name).trans hsame))
    · obtain ⟨hf, hfound⟩ := Memory.resolveFrom_found hr
      rw [he] at hf
      rw [← Option.some.inj hf, hl] at hfound
      cases hc.symm.trans ((congrArg Slot.constant (Option.some.inj hfound)).trans hvariable)
    · exact .inr (.inr hdeclares)

theorem Lenient.rewrites (h : c.Lenient g) (hw : c.WellFormed) (hs : c.Supplied) (ha : c.advance? = some (item, d)) :
    c.Rewrites item d where
  declared n skip hi hd := declared_advance (hi ▸ ha) hd
  redeclared name constant span slot hi hslot := by
    subst hi
    obtain ⟨rest, -, hpop, -⟩ := advance?_eq_some ha
    obtain rfl : constant = false := h.next hpop
    obtain ⟨e, he, hl⟩ := Memory.exists_of_slot? hslot
    refine assigned_advance hs ha (Memory.resolve_current he hl) fun w => ?_
    have hnamed : (c.memory.named w name).environment? (c.memory.named w name).current = some e := by cases w <;> exact he
    have hcurrent : (c.memory.named w name).current = c.memory.current := by cases w <;> rfl
    rw [← hcurrent]
    exact Memory.define_ok hnamed (Option.isSome_iff_exists.mpr ⟨slot, hl⟩) w false
  refused name constant span env frame slot hi hr hc := by
    subst hi
    exact reassigns_constant hs ha hr hc
  assigned name constant span env frame slot hi hr hc := by
    subst hi
    refine assigned_advance hs ha hr fun w => ?_
    simp only [Memory.bindName, Memory.assign, c.memory.resolve_named, hr, hc, Bool.false_eq_true, if_false]
  kept env name slot hslot hc := h.constant_kept hw ha hslot hc

/-! Runs -/

/-- A move makes no constant of anything that was there before. -/
theorem loosens_kept (g : List (String × Slot)) (m : Memory) :
    Kept fun d => (d.WellFormed ∧ d.Lenient g) ∧ m.Keeps (fun _ => Environment.Loosens) d.memory where
  advanced {c d item} h hp ha := by
    obtain ⟨⟨hw, hl⟩, hm⟩ := h
    obtain ⟨rest, -, hpop, -⟩ := advance?_eq_some ha
    refine ⟨(Lenient.kept g).advanced ⟨hw, hl⟩ hp ha, hm.trans (fun hb hb' => hb.trans hb') ?_⟩
    exact (hw.keeps_advance ha).mono fun hb => hb.loosens (hl.next hpop)
  finished {c} h hp hn := ⟨(Lenient.kept g).finished h.1 hp hn, h.2.survives c.survives_finish⟩
  suspended h hp := ⟨(Lenient.kept g).suspended h.1 hp, h.2⟩

theorem Lenient.loosens_calls (h : c.Lenient g) (hw : c.WellFormed) (hc : ReflTransGen Calls c d) :
    c.memory.Keeps (fun _ => Environment.Loosens) d.memory := by
  have hall : (d.WellFormed ∧ d.Lenient g) ∧ c.memory.Keeps (fun _ => Environment.Loosens) d.memory := by
    induction hc with
    | refl => exact ⟨⟨hw, h⟩, .refl _⟩
    | @tail d e _ hcall ih =>
      obtain ⟨call, reply, hp⟩ := hcall
      refine (loosens_kept g c.memory).perform (fun {c'} program ⟨⟨hw', hl'⟩, hm⟩ => ?_) ih hp
      exact ⟨⟨hw'.load program, hl'.load program⟩, (memory_load c' program).symm ▸ hm⟩
  exact hall.2

end Context

namespace Setup

variable {s : Setup} {run : RunId} {c : Context}

/-- Of the constants in whatever context there is only the builtins have values. A program or block declares its names
without values, as constants or variables. A declaration gives a value to either and makes a variable of it, any other
assignment fails where it finds a constant and nowhere else, and nothing else changes the slot of a constant. Whatever
calls follow, a name that is a constant then was one before, and its slot is what it was. -/
theorem reachable_constants (h : s.Reachable run c) :
    (∀ env name slot, c.memory.slot? env name = some slot → slot.constant = true →
      slot.value = none ∨ env = .global ∧ (name, slot) ∈ s.builtins) ∧
    (∀ item d, c.phase ≠ .errored → c.advance? = some (item, d) → c.Rewrites item d) ∧
    ∀ d, ReflTransGen Context.Calls c d → ∀ env name slot, c.memory.slot? env name = some slot →
      d.memory.bindings? env = none ∨ ∃ slot', d.memory.slot? env name = some slot' ∧ slot.Loosens slot' := by
  have hlenient := h.lenient
  have hw := h.wellFormed
  refine ⟨fun env name slot hs hc => ?_, fun item d hp ha => ?_, fun d hd env name slot hs => ?_⟩
  · obtain ⟨e, he, hl⟩ := Memory.exists_of_slot? hs
    exact hlenient.constants env e he _ (Environment.mem_of_lookup?_eq_some hl) hc
  · exact hlenient.rewrites hw (h.supplied hp) ha
  · rcases (hlenient.loosens_calls hw hd).slot? hw.memory.toLinked hs with hgone | hsame | ⟨e, e', -, hl, he', hb⟩
    · exact .inl hgone
    · exact .inr ⟨slot, hsame, .inl rfl⟩
    · rw [Memory.slot?_eq he']
      exact .inr (hb name slot hl)

/-- The constant `x` is declared and is given two values, each time by a declaration. -/
def twiceGiven : Node :=
  .program ⟨0, 11⟩ [⟨"x", true⟩]
    [.assign ⟨0, 5⟩ "x" (.literal ⟨4, 5⟩ (.int 1)) true, .assign ⟨6, 11⟩ "x" (.literal ⟨10, 11⟩ (.int 2)) true]

/-- The first value makes a variable of it, and the second is not refused. -/
theorem reachable_constants_twiceGiven : ∃ c d item, Reachable {} ⟨0⟩ c ∧ ReflTransGen Context.Calls c d ∧
    c.memory.slot? ⟨1⟩ "x" = some ⟨none, true⟩ ∧ d.memory.slot? ⟨1⟩ "x" = some ⟨some (.int 1), false⟩ ∧
      (∃ slot', d.memory.slot? ⟨1⟩ "x" = some slot' ∧ Slot.Loosens ⟨none, true⟩ slot') ∧
        d.phase ≠ .errored ∧ d.advance? = some (item, d.step.2) ∧ d.Rewrites item d.step.2 ∧
          d.step.2.memory.slot? ⟨1⟩ "x" = some ⟨some (.int 2), false⟩ ∧ d.step.2.errors = [] := by
  have hstart : Reachable {} ⟨0⟩ (.fresh ⟨0⟩) := .started (newContext_eq none 0 ⟨0⟩)
  have hdeclared := (hstart.loaded twiceGiven).stepped.stepped.stepped
  have hgiven := hdeclared.stepped.stepped.stepped.stepped
  have hstep : ∀ c, Context.Calls c c.step.2 := fun c => ⟨.step, _, rfl⟩
  have hcalls : ∀ c, ReflTransGen Context.Calls c c.step.2.step.2.step.2.step.2 := fun c =>
    (((ReflTransGen.single (hstep c)).tail (hstep _)).tail (hstep _)).tail (hstep _)
  have hloosens := (reachable_constants hdeclared).2.2 _ (hcalls _) ⟨1⟩ "x" ⟨none, true⟩ rfl
  refine ⟨_, _, _, hdeclared, hcalls _, rfl, rfl, hloosens.resolve_left nofun, nofun, rfl, ?_, rfl, rfl⟩
  exact (reachable_constants hgiven).2.1 _ _ nofun rfl

end Setup
end CseMachine
