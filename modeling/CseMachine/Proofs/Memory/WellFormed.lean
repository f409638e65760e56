import CseMachine.Proofs.Memory.Totality
import Mathlib.Data.Set.Insert

/-!
# Well-formed memories

In a memory from which things are freed, what is left must still hang together:
links of environments, frames and objects lead to what is there, the active
environments start with the global one, and every object is in the heap of its
owner and in no other. A change is one thing that an operation does to the
memory between two collections, and each keeps this.
-/
namespace CseMachine

namespace Memory

variable {m m' m'' : Memory} {lost : Set ObjId}

/-- There is such an environment. -/
def Present (m : Memory) (id : EnvId) : Prop := (m.environment? id).isSome

namespace AgreeOn

variable {L : Live} (h : AgreeOn L m m')
include h

theorem present {id : EnvId} (hi : L.envs id) : m.Present id ↔ m'.Present id := by
  simp only [Present]
  rcases h.environment?_cases hi with ⟨h₁, h₂⟩ | ⟨e, heap, h₁, h₂⟩
  · rw [h₁, h₂]
  · rw [h₁, h₂]
    exact Iff.rfl

theorem resolves {w : Value} (hw : w.Within L.objects) : w.Resolves m.store ↔ w.Resolves m'.store := by
  cases w with
  | closure id => simp only [Value.Resolves, h.closure?_eq (hw id rfl)]
  | list id => simp only [Value.Resolves, h.list?_eq (hw id rfl)]
  | _ => exact Iff.rfl

end AgreeOn

/-- All links lead to something older that is there. -/
structure Linked (m : Memory) : Prop where
  global : ∃ e, m.environment? .global = some e ∧ e.tail = none
  /-- The outermost active environment is the last of the list. -/
  outermost : m.active.getLast? = some .global
  nodup : m.active.Nodup
  active : ∀ id ∈ m.active, m.Present id
  envIds : ∀ id, m.Present id → id.index < m.nextEnv
  objectIds : ∀ id o, m.store.get? id = some o → id.index < m.store.next
  tail : ∀ id e, m.environment? id = some e → id ≠ .global →
    ∃ t, e.tail = some t ∧ m.Present t ∧ t.index < id.index
  bound : ∀ id e b w, m.environment? id = some e → b ∈ e.bindings → b.2.value = some w → w.Resolves m.store
  element : ∀ id items, m.store.list? id = some items →
    ∀ w ∈ items, w.Resolves m.store ∧ ∀ k, w.objectId? = some k → k.index < id.index
  captured : ∀ id c, m.store.closure? id = some c → m.Present c.env

/-- Every object is in one heap, its owner's, and heaps list nothing else. -/
structure Owned (m : Memory) : Prop where
  owner : ∀ id o, m.store.get? id = some o → ∃ e, m.environment? o.owner = some e ∧ id ∈ e.heap.items
  listed : ∀ env e id, m.environment? env = some e → id ∈ e.heap.items → m.store.owner? id = some env

structure WellFormed (m : Memory) : Prop extends Linked m, Owned m

/-- The same but for some objects, which no heap lists. -/
structure OwnedBut (lost : Set ObjId) (m : Memory) : Prop where
  owner : ∀ id o, m.store.get? id = some o → id ∉ lost → ∃ e, m.environment? o.owner = some e ∧ id ∈ e.heap.items
  listed : ∀ env e id, m.environment? env = some e → id ∈ e.heap.items → m.store.owner? id = some env ∧ id ∉ lost

theorem Owned.but (h : m.Owned) : m.OwnedBut ∅ :=
  ⟨fun id o ho _ => h.owner id o ho, fun env e id he hi => ⟨h.listed env e id he hi, nofun⟩⟩

theorem OwnedBut.owned (h : m.OwnedBut ∅) : m.Owned :=
  ⟨fun id o ho => h.owner id o ho nofun, fun env e id he hi => (h.listed env e id he hi).1⟩

/-! What the links are used for -/

namespace Linked

variable (h : m.Linked)
include h

theorem present_global : m.Present .global := by
  obtain ⟨e, he, -⟩ := h.global
  exact Option.isSome_iff_exists.mpr ⟨e, he⟩

theorem present_current : m.Present m.current := by
  simp only [current]
  cases ha : m.active with
  | nil => exact h.present_global
  | cons id rest => exact h.active id (ha ▸ .head rest)

theorem head?_active : m.active.head? = some m.current := by
  simp only [current]
  cases ha : m.active with
  | nil => exact absurd h.outermost (by simp [ha])
  | cons id rest => rfl

/-- The number of the next environment is new. -/
theorem fresh_env : ¬m.Present ⟨m.nextEnv⟩ := fun hp => Nat.lt_irrefl _ (h.envIds _ hp)

theorem fresh_object : m.store.get? ⟨m.store.next⟩ = none := by
  cases ho : m.store.get? ⟨m.store.next⟩ with
  | none => rfl
  | some o => exact absurd (h.objectIds _ o ho) (Nat.lt_irrefl _)

theorem lt_next {w : Value} (hw : w.Resolves m.store) {k : ObjId} (hk : w.objectId? = some k) :
    k.index < m.store.next := by
  cases w with
  | closure id =>
    obtain ⟨c, hc⟩ := Option.isSome_iff_exists.mp hw
    obtain ⟨owner, ho⟩ := Store.closure?_eq_some.mp hc
    exact h.objectIds k _ (Option.some.inj hk ▸ ho)
  | list id =>
    obtain ⟨items, hi⟩ := Option.isSome_iff_exists.mp hw
    obtain ⟨owner, ho⟩ := Store.list?_eq_some.mp hi
    exact h.objectIds k _ (Option.some.inj hk ▸ ho)
  | _ => cases hk

theorem get_resolves {name : String} {w : Value} (hw : m.get name = .ok w) : w.Resolves m.store := by
  simp only [get] at hw
  split at hw
  · next env e value constant hr =>
    obtain rfl := Except.ok.inj hw
    obtain ⟨he, hs⟩ := resolveFrom_found hr
    exact h.bound env e _ _ he (Environment.mem_of_lookup?_eq_some hs) rfl
  all_goals cases hw

theorem subscript_resolves {x y w : Value} (hx : x.Resolves m.store) (hw : x.subscript m.store y = .ok w) :
    w.Resolves m.store :=
  Value.subscript_all (Q := (·.Resolves m.store)) (fun id items _ hi v hv => (h.element id items hi v hv).1)
    (fun _ => Value.resolves_of_no_handle) hx hw

theorem call_resolves {f : Builtin} {args : List Value} {w : Value} (ha : ∀ x ∈ args, x.Resolves m.store)
    (hw : f.call m.store args = .ok w) : w.Resolves m.store :=
  Builtin.call_all (Q := (·.Resolves m.store)) (fun id items _ hi v hv => (h.element id items hi v hv).1)
    (fun _ => Value.resolves_of_no_handle) ha hw

/-- Links are a matter of what evaluation can see. -/
theorem congr (ha : AgreeOn .all m m') : m'.Linked where
  global := by
    obtain ⟨e, he, ht⟩ := h.global
    obtain ⟨heap, he'⟩ := ha.environment?_some trivial he
    exact ⟨_, he', ht⟩
  outermost := ha.active ▸ h.outermost
  nodup := ha.active ▸ h.nodup
  active := by
    intro id hi
    exact (ha.present trivial).mp (h.active id (ha.active ▸ hi))
  envIds := by
    intro id hi
    exact ha.nextEnv ▸ h.envIds id ((ha.present trivial).mpr hi)
  objectIds := by
    intro id o ho
    have hc := ha.contents id trivial
    rw [ho] at hc
    obtain ⟨o', ho', -⟩ := Option.map_eq_some_iff.mp hc
    exact ha.nextObject ▸ h.objectIds id o' ho'
  tail := by
    intro id e he hne
    obtain ⟨heap, he'⟩ := ha.symm.environment?_some trivial he
    obtain ⟨t, ht, hp, hlt⟩ := h.tail id _ he' hne
    exact ⟨t, ht, (ha.present trivial).mp hp, hlt⟩
  bound := by
    intro id e b w he hb hw
    obtain ⟨heap, he'⟩ := ha.symm.environment?_some trivial he
    exact (ha.resolves fun _ _ => trivial).mp (h.bound id _ b w he' hb hw)
  element := by
    intro id items hi w hw
    obtain ⟨hr, hk⟩ := h.element id items ((ha.list?_eq trivial).trans hi) w hw
    exact ⟨(ha.resolves fun _ _ => trivial).mp hr, hk⟩
  captured := by
    intro id c hc
    exact (ha.present trivial).mp (h.captured id c ((ha.closure?_eq trivial).trans hc))

/-- Other environments may be active. -/
theorem withActive {active : List EnvId} (ho : active.getLast? = some .global) (hn : active.Nodup)
    (hp : ∀ id ∈ active, m.Present id) : ({ m with active } : Memory).Linked :=
  ⟨h.global, ho, hn, hp, h.envIds, h.objectIds, h.tail, h.bound, h.element, h.captured⟩

end Linked

theorem WellFormed.withActive (h : m.WellFormed) {active : List EnvId} (ho : active.getLast? = some .global)
    (hn : active.Nodup) (hp : ∀ id ∈ active, m.Present id) : ({ m with active } : Memory).WellFormed :=
  ⟨h.toLinked.withActive ho hn hp, h.owner, h.listed⟩

/-- What leaves all but the inner end of the active environments leaves the outermost one. -/
theorem getLast?_of_suffix {ids ids' : List EnvId} (h : ids' <:+ ids) (hn : ids' ≠ []) :
    ids'.getLast? = ids.getLast? := by
  obtain ⟨front, rfl⟩ := h
  rw [List.getLast?_append]
  cases hl : ids'.getLast? with
  | none => exact absurd (List.getLast?_eq_none_iff.mp hl) hn
  | some id => rfl

theorem WellFormed.withSuffix (h : m.WellFormed) {active : List EnvId} (hs : active <:+ m.active)
    (hn : active ≠ []) : ({ m with active } : Memory).WellFormed :=
  h.withActive ((getLast?_of_suffix hs hn).trans h.outermost) (h.nodup.sublist hs.sublist)
    fun id hi => h.active id (hs.subset hi)

/-! Changes -/

/-- All that a value of the content refers to is there. -/
def Holds (m : Memory) : Content → Prop
  | .closure c => m.Present c.env
  | .list items => ∀ w ∈ items, w.Resolves m.store

/-- The memory with a new object in the heap of its owner. -/
def withObject (m : Memory) (env : EnvId) (e : Environment) (content : Content) : Memory :=
  { (m.stored env content).setEnvironment env { e with heap := e.heap.insert ⟨m.store.next⟩ } with
    allocated := m.allocated + 1 }

/-- One thing that is done to the memory between two collections. -/
inductive Change : Memory → Memory → Prop
  /-- A frame gets names or values or the mark of its call. -/
  | frame {m : Memory} {env : EnvId} {e e' : Environment} (found : m.environment? env = some e)
      (tail : e'.tail = e.tail) (heap : e'.heap = e.heap)
      (names : ∀ x, (e.lookup? x).isSome → (e'.lookup? x).isSome)
      (values : ∀ b ∈ e'.bindings, ∀ w, b.2.value = some w → w.Resolves m.store) :
      Change m (m.setEnvironment env e')
  | create {m : Memory} {tail : EnvId} (name : String) (present : m.Present tail) :
      Change m (m.create name (some tail)).2
  | object {m : Memory} {env : EnvId} {e : Environment} {content : Content}
      (found : m.environment? env = some e) (holds : m.Holds content) :
      Change m (m.withObject env e content)
  | name (m : Memory) (id : ObjId) (name : String) :
      Change m { m with store := m.store.nameClosure id name }
  | move (m : Memory) (id : ObjId) (target : EnvId) : Change m (m.move id target)

/-- None of them enters or leaves an environment. -/
theorem Change.active_eq (h : Change m m') : m'.active = m.active := by
  cases h with
  | move id target => exact (agreeOn_move m id target).active.symm
  | _ => rfl

/-- What is there after the change is the new frame, or was there before. -/
theorem environment?_of_setEnvironment {env k : EnvId} {e f : Environment}
    (hk : (m.setEnvironment env e).environment? k = some f) : (k = env ∧ f = e) ∨ m.environment? k = some f := by
  rw [environment?_setEnvironment] at hk
  split at hk
  · next hid => exact .inl ⟨hid.symm, (Option.some.inj hk).symm⟩
  · exact .inr hk

theorem present_setEnvironment {env k : EnvId} {e e' : Environment} (he : m.environment? env = some e) :
    (m.setEnvironment env e').Present k ↔ m.Present k := by
  simp only [Present, environment?_setEnvironment]
  split
  · next hk =>
    subst hk
    simp only [he, Option.isSome_some]
  · exact Iff.rfl

theorem environment?_of_create {name : String} {tail : Option EnvId} {k : EnvId} {f : Environment}
    (hk : (m.create name tail).2.environment? k = some f) :
    (k = ⟨m.nextEnv⟩ ∧ f = { name, tail }) ∨ m.environment? k = some f := by
  rw [environment?_create] at hk
  split at hk
  · next hid => exact .inl ⟨hid.symm, (Option.some.inj hk).symm⟩
  · exact .inr hk

theorem present_create {name : String} {tail : Option EnvId} {k : EnvId} :
    (m.create name tail).2.Present k ↔ k = ⟨m.nextEnv⟩ ∨ m.Present k := by
  simp only [Present, environment?_create]
  split
  · next hk => simp [hk]
  · next hk =>
    have hne : k ≠ ⟨m.nextEnv⟩ := fun h => hk h.symm
    simp [hne]

/-- A new environment takes the place of none. -/
theorem environment?_create_of_some (hn : ¬m.Present ⟨m.nextEnv⟩) {name : String} {tail : Option EnvId} {k : EnvId}
    {f : Environment} (hk : m.environment? k = some f) : (m.create name tail).2.environment? k = some f := by
  rw [environment?_create, if_neg, hk]
  rintro rfl
  exact hn (Option.isSome_iff_exists.mpr ⟨f, hk⟩)

namespace OwnedBut

variable (h : m.OwnedBut lost)
include h

/-- An object is in the heap of its owner just if it is not one of those. -/
theorem exists_heap_iff {id : ObjId} {o : Object} (ho : m.store.get? id = some o) :
    (∃ e, m.environment? o.owner = some e ∧ id ∈ e.heap.items) ↔ id ∉ lost :=
  ⟨fun ⟨e, he, hi⟩ => (h.listed o.owner e id he hi).2, h.owner id o ho⟩

theorem setFrame {env : EnvId} {e e' : Environment} (he : m.environment? env = some e) (hh : e'.heap = e.heap) :
    (m.setEnvironment env e').OwnedBut lost where
  owner := by
    intro id o ho hl
    obtain ⟨f, hf, hi⟩ := h.owner id o ho hl
    rw [environment?_setEnvironment]
    split
    · next hid =>
      rw [← hid, he] at hf
      obtain rfl := Option.some.inj hf
      exact ⟨e', rfl, hh ▸ hi⟩
    · exact ⟨f, hf, hi⟩
  listed := by
    intro k f id hf hi
    rcases environment?_of_setEnvironment hf with ⟨rfl, rfl⟩ | hf
    · exact h.listed k e id he (hh ▸ hi)
    · exact h.listed k f id hf hi

theorem create (hn : ¬m.Present ⟨m.nextEnv⟩) (name : String) (tail : Option EnvId) :
    (m.create name tail).2.OwnedBut lost where
  owner := by
    intro id o ho hl
    obtain ⟨f, hf, hi⟩ := h.owner id o ho hl
    exact ⟨f, environment?_create_of_some hn hf, hi⟩
  listed := by
    intro k f id hf hi
    rcases environment?_of_create hf with ⟨rfl, rfl⟩ | hf
    · exact absurd hi Std.ExtTreeSet.not_mem_empty
    · exact h.listed k f id hf hi

end OwnedBut

namespace WellFormed

variable (h : m.WellFormed)
include h

theorem setFrame {env : EnvId} {e e' : Environment} (he : m.environment? env = some e) (ht : e'.tail = e.tail)
    (hh : e'.heap = e.heap) (hv : ∀ b ∈ e'.bindings, ∀ w, b.2.value = some w → w.Resolves m.store) :
    (m.setEnvironment env e').WellFormed where
  global := by
    obtain ⟨g, hg, hgt⟩ := h.global
    rw [environment?_setEnvironment]
    split
    · next hid =>
      subst hid
      obtain rfl := Option.some.inj (he.symm.trans hg)
      exact ⟨e', rfl, ht.trans hgt⟩
    · exact ⟨g, hg, hgt⟩
  outermost := h.outermost
  nodup := h.nodup
  active := fun id hi => (present_setEnvironment he).mpr (h.active id hi)
  envIds := fun id hi => h.envIds id ((present_setEnvironment he).mp hi)
  objectIds := h.objectIds
  tail := by
    intro id f hf hne
    rcases environment?_of_setEnvironment hf with ⟨rfl, rfl⟩ | hf
    · obtain ⟨t, htail, hp, hlt⟩ := h.tail id e he hne
      exact ⟨t, ht.trans htail, (present_setEnvironment he).mpr hp, hlt⟩
    · obtain ⟨t, htail, hp, hlt⟩ := h.tail id f hf hne
      exact ⟨t, htail, (present_setEnvironment he).mpr hp, hlt⟩
  bound := by
    intro id f b w hf hb hw
    rcases environment?_of_setEnvironment hf with ⟨rfl, rfl⟩ | hf
    · exact hv b hb w hw
    · exact h.bound id f b w hf hb hw
  element := h.element
  captured := fun id c hc => (present_setEnvironment he).mpr (h.captured id c hc)
  toOwned := (h.but.setFrame he hh).owned

theorem create {tail : EnvId} (name : String) (ht : m.Present tail) :
    (m.create name (some tail)).2.WellFormed where
  global := by
    obtain ⟨g, hg, hgt⟩ := h.global
    exact ⟨g, environment?_create_of_some h.fresh_env hg, hgt⟩
  outermost := h.outermost
  nodup := h.nodup
  active := fun id hi => present_create.mpr (.inr (h.active id hi))
  envIds := by
    intro id hi
    show id.index < m.nextEnv + 1
    rcases present_create.mp hi with rfl | hi
    · exact Nat.lt_succ_self _
    · exact Nat.lt_succ_of_lt (h.envIds id hi)
  objectIds := h.objectIds
  tail := by
    intro id f hf hne
    rcases environment?_of_create hf with ⟨rfl, rfl⟩ | hf
    · exact ⟨tail, rfl, present_create.mpr (.inr ht), h.envIds tail ht⟩
    · obtain ⟨t, htail, hp, hlt⟩ := h.tail id f hf hne
      exact ⟨t, htail, present_create.mpr (.inr hp), hlt⟩
  bound := by
    intro id f b w hf hb hw
    rcases environment?_of_create hf with ⟨rfl, rfl⟩ | hf
    · cases hb
    · exact h.bound id f b w hf hb hw
  element := h.element
  captured := fun id c hc => present_create.mpr (.inr (h.captured id c hc))
  toOwned := (h.but.create h.fresh_env name (some tail)).owned

theorem enter {env : EnvId} (hp : m.Present env) (hn : env ∉ m.active) : (m.push env).WellFormed := by
  refine h.withActive ?_ (List.nodup_cons.mpr ⟨hn, h.nodup⟩) fun id hi => ?_
  · rw [List.getLast?_cons, h.outermost]
    rfl
  · rcases List.mem_cons.mp hi with rfl | hi
    · exact hp
    · exact h.active id hi

end WellFormed

/-! New objects -/

theorem grows_nameClosure (s : Store) (id : ObjId) (name : String) : s.Grows (s.nameClosure id name) := by
  refine ⟨fun k c hc => ?_, fun k items hi => (s.list?_nameClosure id name k).trans hi⟩
  rw [s.closure?_nameClosure id name, hc]
  split
  · exact ⟨c.nameOnce name, rfl, rfl, rfl, rfl⟩
  · exact ⟨c, rfl, rfl, rfl, rfl⟩

/-- What is there after an object is stored is this object, or was there before. -/
theorem get?_of_stored {env : EnvId} {content : Content} {k : ObjId} {o : Object}
    (hk : (m.stored env content).store.get? k = some o) :
    (k = ⟨m.store.next⟩ ∧ o = ⟨env, content⟩) ∨ m.store.get? k = some o := by
  rw [show (m.stored env content).store.get? k = _ from get?_alloc m.store env content k] at hk
  split at hk
  · next hid => exact .inl ⟨hid.symm, (Option.some.inj hk).symm⟩
  · exact .inr hk

/-- A new object takes the place of none. -/
theorem get?_stored_of_some (hn : m.store.get? ⟨m.store.next⟩ = none) {env : EnvId} {content : Content} {k : ObjId}
    {o : Object} (hk : m.store.get? k = some o) : (m.stored env content).store.get? k = some o := by
  refine (get?_alloc m.store env content k).trans ?_
  rw [if_neg, hk]
  rintro rfl
  cases hn.symm.trans hk

theorem Linked.grows_stored (h : m.Linked) (env : EnvId) (content : Content) :
    m.store.Grows (m.stored env content).store := by
  constructor
  · intro id c hi
    obtain ⟨owner, ho⟩ := Store.closure?_eq_some.mp hi
    exact ⟨c, Store.closure?_eq_some.mpr ⟨owner, get?_stored_of_some h.fresh_object ho⟩, rfl, rfl, rfl⟩
  · intro id items hi
    obtain ⟨owner, ho⟩ := Store.list?_eq_some.mp hi
    exact Store.list?_eq_some.mpr ⟨owner, get?_stored_of_some h.fresh_object ho⟩

theorem mem_insert {heap : Heap} {id k : ObjId} : k ∈ (heap.insert id).items ↔ id = k ∨ k ∈ heap.items := by
  simp only [Heap.insert, Std.ExtTreeSet.mem_insert, Std.LawfulEqOrd.compare_eq_iff_eq]

theorem owner?_eq_some {s : Store} {id : ObjId} {env : EnvId} :
    s.owner? id = some env ↔ ∃ o, s.get? id = some o ∧ o.owner = env := Option.map_eq_some_iff

theorem environment?_withObject (m : Memory) (env : EnvId) (e : Environment) (content : Content) (k : EnvId) :
    (m.withObject env e content).environment? k =
      if env = k then some { e with heap := e.heap.insert ⟨m.store.next⟩ } else m.environment? k :=
  environment?_setEnvironment (m.stored env content) env k _

theorem agreeOn_withObject {env : EnvId} {e : Environment} {content : Content} (he : m.environment? env = some e) :
    AgreeOn .all (m.stored env content) (m.withObject env e content) :=
  ⟨rfl, rfl, rfl, fun _ _ => (map_core_setEnvironment (m := m.stored env content) (e.heap.insert ⟨m.store.next⟩)
    he).symm, fun _ _ => rfl⟩

/-- Naming a closure leaves its owner. -/
theorem get?_of_nameClosure {s : Store} {id k : ObjId} {name : String} {o : Object}
    (hk : (s.nameClosure id name).get? k = some o) : ∃ o', s.get? k = some o' ∧ o'.owner = o.owner := by
  rw [get?_nameClosure] at hk
  obtain ⟨o', ho', rfl⟩ := Option.map_eq_some_iff.mp hk
  refine ⟨o', ho', ?_⟩
  split
  · split <;> rfl
  · rfl

theorem owner?_nameClosure (s : Store) (id : ObjId) (name : String) (k : ObjId) :
    (s.nameClosure id name).owner? k = s.owner? k := by
  simp only [Store.owner?, get?_nameClosure, Option.map_map]
  congr 1
  funext o
  simp only [Function.comp_apply]
  split
  · split <;> rfl
  · rfl

theorem owner?_stored_of_some (hn : m.store.get? ⟨m.store.next⟩ = none) {env : EnvId} {content : Content} {k : ObjId}
    {owner : EnvId} (hk : m.store.owner? k = some owner) : (m.stored env content).store.owner? k = some owner := by
  obtain ⟨o, ho, rfl⟩ := owner?_eq_some.mp hk
  exact owner?_eq_some.mpr ⟨o, get?_stored_of_some hn ho, rfl⟩

namespace OwnedBut

variable (h : m.OwnedBut lost)
include h

/-- An object that is stored and put in no heap is one of those that are left out. -/
theorem stored (hn : m.store.get? ⟨m.store.next⟩ = none) (env : EnvId) (content : Content) :
    (m.stored env content).OwnedBut (insert ⟨m.store.next⟩ lost) where
  owner := by
    intro id o ho hl
    rw [Set.mem_insert_iff, not_or] at hl
    rcases get?_of_stored ho with ⟨rfl, -⟩ | ho
    · exact absurd rfl hl.1
    · exact h.owner id o ho hl.2
  listed := by
    intro k f id hf hi
    obtain ⟨ho, hl⟩ := h.listed k f id hf hi
    refine ⟨owner?_stored_of_some hn ho, fun hin => hin.elim (fun heq => ?_) hl⟩
    obtain ⟨o, hget, -⟩ := owner?_eq_some.mp ho
    cases hn.symm.trans (heq ▸ hget)

/-- A new object is owned by the environment it is made in. -/
theorem withObject (hn : m.store.get? ⟨m.store.next⟩ = none) (hl : ⟨m.store.next⟩ ∉ lost) {env : EnvId} {e : Environment}
    (he : m.environment? env = some e) (content : Content) : (m.withObject env e content).OwnedBut lost where
  owner := by
    intro id o ho hid
    rw [environment?_withObject]
    rcases get?_of_stored ho with ⟨rfl, rfl⟩ | ho
    · exact ⟨_, if_pos rfl, mem_insert.mpr (.inl rfl)⟩
    · obtain ⟨f, hf, hi⟩ := h.owner id o ho hid
      split
      · next hid =>
        rw [← hid, he] at hf
        obtain rfl := Option.some.inj hf
        exact ⟨_, rfl, mem_insert.mpr (.inr hi)⟩
      · exact ⟨f, hf, hi⟩
  listed := by
    intro k f id hf hi
    rw [environment?_withObject] at hf
    split at hf
    · next hid =>
      subst hid
      obtain rfl := Option.some.inj hf
      rcases mem_insert.mp hi with rfl | hi
      · exact ⟨owner?_eq_some.mpr ⟨_, (get?_alloc m.store env content _).trans (if_pos rfl), rfl⟩, hl⟩
      · exact (h.listed env e id he hi).imp_left (owner?_stored_of_some hn)
    · exact (h.listed k f id hf hi).imp_left (owner?_stored_of_some hn)

theorem withName (id : ObjId) (name : String) :
    ({ m with store := m.store.nameClosure id name } : Memory).OwnedBut lost where
  owner := by
    intro k o ho hl
    obtain ⟨o', ho', he⟩ := get?_of_nameClosure ho
    exact he ▸ h.owner k o' ho' hl
  listed := fun k f j hf hj => (h.listed k f j hf hj).imp_left (owner?_nameClosure m.store id name j).trans

end OwnedBut

namespace WellFormed

variable (h : m.WellFormed)
include h

theorem linked_stored (env : EnvId) {content : Content} (hc : m.Holds content) : (m.stored env content).Linked where
  global := h.global
  outermost := h.outermost
  nodup := h.nodup
  active := h.active
  envIds := h.envIds
  objectIds := by
    intro id o ho
    show id.index < m.store.next + 1
    rcases get?_of_stored ho with ⟨rfl, -⟩ | ho
    · exact Nat.lt_succ_self _
    · exact Nat.lt_succ_of_lt (h.objectIds id o ho)
  tail := h.tail
  bound := fun id e b w he hb hw => (h.bound id e b w he hb hw).mono (h.grows_stored env content)
  element := by
    intro id items hi w hw
    have hgrow := h.grows_stored env content
    obtain ⟨owner, ho⟩ := Store.list?_eq_some.mp hi
    rcases get?_of_stored ho with ⟨rfl, heq⟩ | ho
    · obtain rfl : content = .list items := (congrArg Object.content heq).symm
      exact ⟨(hc w hw).mono hgrow, fun k hk => h.lt_next (hc w hw) hk⟩
    · obtain ⟨hr, hlt⟩ := h.element id items (Store.list?_eq_some.mpr ⟨owner, ho⟩) w hw
      exact ⟨hr.mono hgrow, hlt⟩
  captured := by
    intro id c hi
    obtain ⟨owner, ho⟩ := Store.closure?_eq_some.mp hi
    rcases get?_of_stored ho with ⟨rfl, heq⟩ | ho
    · obtain rfl : content = .closure c := (congrArg Object.content heq).symm
      exact hc
    · exact h.captured id c (Store.closure?_eq_some.mpr ⟨owner, ho⟩)

theorem withObject {env : EnvId} {e : Environment} {content : Content} (he : m.environment? env = some e)
    (hc : m.Holds content) : (m.withObject env e content).WellFormed :=
  ⟨(h.linked_stored env hc).congr (agreeOn_withObject he), (h.but.withObject h.fresh_object nofun he content).owned⟩

/-- Naming a closure leaves all links as they are. -/
theorem withName (id : ObjId) (name : String) : ({ m with store := m.store.nameClosure id name } : Memory).WellFormed where
  global := h.global
  outermost := h.outermost
  nodup := h.nodup
  active := h.active
  envIds := h.envIds
  objectIds := by
    intro k o ho
    obtain ⟨o', ho', -⟩ := get?_of_nameClosure ho
    exact h.objectIds k o' ho'
  tail := h.tail
  bound := fun k e b w he hb hw => (h.bound k e b w he hb hw).mono (grows_nameClosure m.store id name)
  element := by
    intro k items hi w hw
    obtain ⟨hr, hlt⟩ := h.element k items ((m.store.list?_nameClosure id name k).symm.trans hi) w hw
    exact ⟨hr.mono (grows_nameClosure m.store id name), hlt⟩
  captured := by
    intro k c hc
    rw [show (m.store.nameClosure id name).closure? k = _ from m.store.closure?_nameClosure id name k] at hc
    split at hc
    · obtain ⟨c', hc', rfl⟩ := Option.map_eq_some_iff.mp hc
      exact h.captured k c' hc'
    · exact h.captured k c hc
  toOwned := (h.but.withName id name).owned

end WellFormed

/-! Objects that change hands -/

/-- The memory once one environment has handed an object to another. -/
def handOver (m : Memory) (id : ObjId) (owner target : EnvId) (giver taker : Environment) : Memory :=
  { (m.setEnvironment owner { giver with heap := ⟨giver.heap.items.erase id⟩ }).setEnvironment target
      { taker with heap := taker.heap.insert id } with
    store := m.store.setOwner id target }

theorem get?_setOwner (s : Store) (id : ObjId) (target : EnvId) (k : ObjId) :
    (s.setOwner id target).get? k =
      if id = k then (s.get? k).map fun o => { o with owner := target } else s.get? k := by
  simp only [Store.setOwner, Store.get?, Std.ExtTreeMap.getElem?_modify, Std.LawfulEqOrd.compare_eq_iff_eq]
  split
  · next hk =>
    subst hk
    rfl
  · rfl

theorem owner?_setOwner (s : Store) (id : ObjId) (target : EnvId) (k : ObjId) :
    (s.setOwner id target).owner? k =
      if id = k then (s.owner? k).map fun _ => target else s.owner? k := by
  simp only [Store.owner?, get?_setOwner]
  split
  · rw [Option.map_map, Option.map_map]
    rfl
  · rfl

theorem environment?_handOver (m : Memory) (id : ObjId) (owner target : EnvId) (giver taker : Environment) (k : EnvId) :
    (m.handOver id owner target giver taker).environment? k =
      if target = k then some { taker with heap := taker.heap.insert id }
      else if owner = k then some { giver with heap := ⟨giver.heap.items.erase id⟩ } else m.environment? k := by
  refine (environment?_setEnvironment _ target k _).trans ?_
  rw [environment?_setEnvironment]

theorem mem_erase {heap : Heap} {id k : ObjId} : k ∈ heap.items.erase id ↔ id ≠ k ∧ k ∈ heap.items := by
  rw [Std.ExtTreeSet.mem_erase, ne_eq, Std.LawfulEqOrd.compare_eq_iff_eq]

theorem move?_eq_some {id : ObjId} {target : EnvId} (hm : m.move? id target = some m') :
    ∃ owner giver taker, owner ≠ target ∧ m.store.owner? id = some owner ∧ m.environment? owner = some giver ∧
      m.environment? target = some taker ∧ id ∈ giver.heap.items ∧ m' = m.handOver id owner target giver taker := by
  simp only [move?, Option.bind_eq_bind, Option.bind_eq_some_iff] at hm
  obtain ⟨owner, ho, hm⟩ := hm
  split at hm
  · cases hm
  · next hne =>
    obtain ⟨taker, ht, giver, hg, ⟨left, taken⟩, hmove, hm⟩ := by
      simpa only [Option.bind_eq_some_iff] using hm
    simp only [Heap.moveTo?] at hmove
    split at hmove
    · next hc =>
      cases hmove
      exact ⟨owner, giver, taker, hne, ho, hg, ht, Std.ExtTreeSet.contains_iff_mem.mp hc, (Option.some.inj hm).symm⟩
    · cases hmove

namespace OwnedBut

variable (h : m.OwnedBut lost)
include h

/-- Every object is in the heap of its owner, the one handed over in the taker's. -/
theorem owner_handOver {id : ObjId} {owner target : EnvId} {giver taker : Environment}
    (hg : m.environment? owner = some giver) (ht : m.environment? target = some taker) {k : ObjId} {o : Object}
    (hk : (m.handOver id owner target giver taker).store.get? k = some o) (hl : k ∉ lost) :
    ∃ e, (m.handOver id owner target giver taker).environment? o.owner = some e ∧ k ∈ e.heap.items := by
  rw [show (m.handOver id owner target giver taker).store.get? k = _ from get?_setOwner m.store id target k] at hk
  split at hk
  · next hid =>
    obtain ⟨o', -, rfl⟩ := Option.map_eq_some_iff.mp hk
    exact ⟨_, (m.environment?_handOver id owner target giver taker target).trans (if_pos rfl), mem_insert.mpr (.inl hid)⟩
  · next hid =>
    obtain ⟨f, hf, hi⟩ := h.owner k o hk hl
    rw [environment?_handOver]
    split
    · next htarget =>
      rw [← htarget, ht] at hf
      obtain rfl := Option.some.inj hf
      exact ⟨_, rfl, mem_insert.mpr (.inr hi)⟩
    · split
      · next howns =>
        rw [← howns, hg] at hf
        obtain rfl := Option.some.inj hf
        exact ⟨_, rfl, mem_erase.mpr ⟨hid, hi⟩⟩
      · exact ⟨f, hf, hi⟩

theorem handOver {id : ObjId} {owner target : EnvId} {giver taker : Environment} (hne : owner ≠ target)
    (ho : m.store.owner? id = some owner) (hg : m.environment? owner = some giver)
    (ht : m.environment? target = some taker) (hi : id ∈ giver.heap.items) :
    (m.handOver id owner target giver taker).OwnedBut lost where
  owner := fun _ _ hk hl => h.owner_handOver hg ht hk hl
  listed := by
    intro k f j hf hj
    have hkeep : ∀ {env}, m.store.owner? j = some env → id = j → env = owner := by
      rintro env hj rfl
      exact Option.some.inj (hj.symm.trans ho)
    rw [show (m.handOver id owner target giver taker).store.owner? j = _ from owner?_setOwner m.store id target j]
    rw [environment?_handOver] at hf
    split at hf
    · next htarget =>
      subst htarget
      obtain rfl := Option.some.inj hf
      rcases mem_insert.mp hj with rfl | hj
      · rw [if_pos rfl, ho]
        exact ⟨rfl, (h.listed owner giver id hg hi).2⟩
      · obtain ⟨hl, hlost⟩ := h.listed target taker j ht hj
        rw [if_neg, hl]
        · exact ⟨rfl, hlost⟩
        · exact fun hid => hne (hkeep hl hid).symm
    · split at hf
      · next howns =>
        subst howns
        obtain rfl := Option.some.inj hf
        obtain ⟨hid, hj⟩ := mem_erase.mp hj
        rw [if_neg hid]
        exact h.listed owner giver j hg hj
      · next howns =>
        obtain ⟨hl, hlost⟩ := h.listed k f j hf hj
        rw [if_neg, hl]
        · exact ⟨rfl, hlost⟩
        · exact fun hid => howns (hkeep hl hid).symm

theorem move (id : ObjId) (target : EnvId) : (m.move id target).OwnedBut lost := by
  simp only [Memory.move]
  cases hm : m.move? id target with
  | none => exact h
  | some m' =>
    obtain ⟨owner, giver, taker, hne, ho, hg, ht, hi, rfl⟩ := move?_eq_some hm
    exact h.handOver hne ho hg ht hi

end OwnedBut

namespace WellFormed

variable (h : m.WellFormed)
include h

theorem move (id : ObjId) (target : EnvId) : (m.move id target).WellFormed :=
  ⟨h.toLinked.congr (agreeOn_move m id target), (h.but.move id target).owned⟩

/-- Each change leaves the memory well formed. -/
theorem change (hc : Change m m') : m'.WellFormed := by
  cases hc with
  | frame found tail heap names values => exact h.setFrame found tail heap values
  | create name present => exact h.create name present
  | object found holds => exact h.withObject found holds
  | name id name => exact h.withName id name
  | move id target => exact h.move id target

end WellFormed

/-! What is there stays until it is collected -/

theorem Present.mono (hg : m.Grows m') {id : EnvId} (hp : m.Present id) : m'.Present id := by
  obtain ⟨e, he⟩ := Option.isSome_iff_exists.mp hp
  obtain ⟨e', he', -⟩ := hg.frame id e he
  exact Option.isSome_iff_exists.mpr ⟨e', he'⟩

theorem AgreeOn.grows (ha : AgreeOn .all m m') : m.Grows m' := by
  refine ⟨ha.nextEnv ▸ Nat.le_refl _, fun id e he => ?_, fun id c hc => ?_, fun id items hi => ?_⟩
  · obtain ⟨heap, he'⟩ := ha.environment?_some trivial he
    exact ⟨_, he', rfl, fun _ hx => hx⟩
  · exact ⟨c, (ha.closure?_eq trivial).symm.trans hc, rfl, rfl, rfl⟩
  · exact (ha.list?_eq trivial).symm.trans hi

theorem Linked.change_grows (h : m.Linked) (hc : Change m m') : m.Grows m' := by
  cases hc with
  | @frame env e e' found tail heap names values =>
    refine ⟨Nat.le_refl _, fun k f hk => ?_, .refl _⟩
    rw [environment?_setEnvironment]
    split
    · next hid =>
      subst hid
      obtain rfl := Option.some.inj (found.symm.trans hk)
      exact ⟨e', rfl, tail, names⟩
    · exact ⟨f, hk, rfl, fun _ hx => hx⟩
  | create name present =>
    exact ⟨Nat.le_succ _, fun k f hk => ⟨f, environment?_create_of_some h.fresh_env hk, rfl, fun _ hx => hx⟩, .refl _⟩
  | @object env e content found holds =>
    refine ⟨Nat.le_refl _, fun k f hk => ?_, h.grows_stored env content⟩
    rw [environment?_withObject]
    split
    · next hid =>
      subst hid
      obtain rfl := Option.some.inj (found.symm.trans hk)
      exact ⟨_, rfl, rfl, fun _ hx => hx⟩
    · exact ⟨f, hk, rfl, fun _ hx => hx⟩
  | name id name => exact ⟨Nat.le_refl _, fun _ f hk => ⟨f, hk, rfl, fun _ hx => hx⟩, grows_nameClosure _ id name⟩
  | move id target => exact (agreeOn_move m id target).grows

end Memory
end CseMachine
