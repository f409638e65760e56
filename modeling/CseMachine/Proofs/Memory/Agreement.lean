import CseMachine.Memory.Collect
import CseMachine.Proofs.Value.Reading

/-!
# Memories that agree on what is live

Evaluation sees of an environment all but its heap, and of an object its
content. Two memories agree on a set of live ids if they look the same at each
of them and hand out the same ids next. A set is closed in a memory if what its
members link to is in it too.
-/
namespace CseMachine

/-- Ids that something may still look at. -/
structure Live where
  envs : EnvId → Prop
  objects : ObjId → Prop

namespace Live

variable {L M N : Live}

instance : LE Live := ⟨fun L M => (∀ id, L.envs id → M.envs id) ∧ ∀ id, L.objects id → M.objects id⟩

def all : Live := ⟨fun _ => True, fun _ => True⟩

def addEnv (L : Live) (id : EnvId) : Live := { L with envs := fun k => id = k ∨ L.envs k }

def addObject (L : Live) (id : ObjId) : Live := { L with objects := fun k => id = k ∨ L.objects k }

/-- What is in both. -/
def meet (L M : Live) : Live :=
  ⟨fun id => L.envs id ∧ M.envs id, fun id => L.objects id ∧ M.objects id⟩

theorem le_refl (L : Live) : L ≤ L := ⟨fun _ h => h, fun _ h => h⟩

theorem le_trans (h : L ≤ M) (h' : M ≤ N) : L ≤ N :=
  ⟨fun id hi => h'.1 id (h.1 id hi), fun id hi => h'.2 id (h.2 id hi)⟩

theorem le_all (L : Live) : L ≤ all := ⟨fun _ _ => trivial, fun _ _ => trivial⟩

theorem le_addEnv (L : Live) (id : EnvId) : L ≤ L.addEnv id := ⟨fun _ h => .inr h, fun _ h => h⟩

theorem le_addObject (L : Live) (id : ObjId) : L ≤ L.addObject id :=
  ⟨fun _ h => h, fun _ h => .inr h⟩

theorem meet_le_left (L M : Live) : L.meet M ≤ L := ⟨fun _ h => h.1, fun _ h => h.1⟩

theorem meet_le_right (L M : Live) : L.meet M ≤ M := ⟨fun _ h => h.2, fun _ h => h.2⟩

end Live

namespace Environment

/-- All that evaluation can see of an environment. -/
def core (e : Environment) : Environment := { e with heap := {} }

theorem core_eq_core_iff {e f : Environment} : e.core = f.core ↔ f = { e with heap := f.heap } := by
  obtain ⟨name, tail, bindings, heap, callSite⟩ := e
  obtain ⟨name', tail', bindings', heap', callSite'⟩ := f
  simp only [core, Environment.mk.injEq, true_and]
  constructor
  · rintro ⟨rfl, rfl, rfl, rfl⟩
    exact ⟨rfl, rfl, rfl, rfl⟩
  · rintro ⟨rfl, rfl, rfl, rfl⟩
    exact ⟨rfl, rfl, rfl, rfl⟩

theorem mem_handles {e : Environment} {id : ObjId} :
    id ∈ e.handles ↔ ∃ b ∈ e.bindings, ∃ w, b.2.value = some w ∧ w.objectId? = some id := by
  simp only [handles, List.mem_filterMap]
  constructor
  · rintro ⟨b, hb, h⟩
    obtain ⟨w, hw, hi⟩ := Option.bind_eq_some_iff.mp h
    exact ⟨b, hb, w, hw, hi⟩
  · rintro ⟨b, hb, w, hw, hi⟩
    exact ⟨b, hb, by simp [hw, hi]⟩

theorem mem_of_lookup?_eq_some {e : Environment} {name : String} {slot : Slot}
    (h : e.lookup? name = some slot) : (name, slot) ∈ e.bindings := by
  simp only [lookup?] at h
  generalize e.bindings = bs at h
  induction bs with
  | nil => simp at h
  | cons b bs ih =>
    obtain ⟨n, s⟩ := b
    rw [List.lookup_cons] at h
    cases hn : name == n with
    | true =>
      rw [hn] at h
      have he : s = slot := by simpa using h
      rw [he, eq_of_beq hn]
      exact .head _
    | false =>
      rw [hn] at h
      exact .tail _ (ih h)

/-- A value in a frame keeps its object alive. -/
theorem objectId_mem_handles {e : Environment} {name : String} {w : Value} {constant : Bool} {id : ObjId}
    (h : e.lookup? name = some ⟨some w, constant⟩) (hi : w.objectId? = some id) : id ∈ e.handles :=
  mem_handles.mpr ⟨_, mem_of_lookup?_eq_some h, w, rfl, hi⟩

theorem handles_declare {e e' : Environment} {name : String} {constant : Bool}
    (h : e.declare? name constant = some e') : e'.handles = e.handles := by
  simp only [declare?] at h
  split at h
  · cases h
  · obtain rfl := Option.some.inj h
    simp [handles]

theorem mem_handles_setSlot {e : Environment} {name : String} {slot : Slot} {id : ObjId}
    (h : id ∈ (e.setSlot name slot).handles) :
    id ∈ e.handles ∨ ∃ w, slot.value = some w ∧ w.objectId? = some id := by
  obtain ⟨b, hb, w, hw, hi⟩ := mem_handles.mp h
  simp only [setSlot, replace, List.mem_map] at hb
  obtain ⟨⟨n, s⟩, hm, rfl⟩ := hb
  simp only at hw
  split at hw
  · exact .inr ⟨w, hw, hi⟩
  · exact .inl (mem_handles.mpr ⟨_, hm, w, hw, hi⟩)

end Environment

namespace Memory

variable {L M : Live} {m m₁ m₂ m₃ m₁' m₂' : Memory}

@[simp] theorem environment?_setEnvironment (m : Memory) (id k : EnvId) (e : Environment) :
    (m.setEnvironment id e).environment? k = if id = k then some e else m.environment? k := by
  simp [setEnvironment, environment?, Std.ExtTreeMap.getElem?_insert]

/-- The two memories look the same at live ids, and the ids they hand out next are the same. -/
structure AgreeOn (L : Live) (m₁ m₂ : Memory) : Prop where
  nextEnv : m₁.nextEnv = m₂.nextEnv
  nextObject : m₁.store.next = m₂.store.next
  active : m₁.active = m₂.active
  frames : ∀ id, L.envs id →
    (m₁.environment? id).map Environment.core = (m₂.environment? id).map Environment.core
  contents : ∀ id, L.objects id →
    (m₁.store.get? id).map Object.content = (m₂.store.get? id).map Object.content

namespace AgreeOn

theorem refl (L : Live) (m : Memory) : AgreeOn L m m :=
  ⟨rfl, rfl, rfl, fun _ _ => rfl, fun _ _ => rfl⟩

theorem symm (h : AgreeOn L m₁ m₂) : AgreeOn L m₂ m₁ :=
  ⟨h.nextEnv.symm, h.nextObject.symm, h.active.symm, fun id hi => (h.frames id hi).symm,
    fun id hi => (h.contents id hi).symm⟩

theorem trans (h : AgreeOn L m₁ m₂) (h' : AgreeOn L m₂ m₃) : AgreeOn L m₁ m₃ :=
  ⟨h.nextEnv.trans h'.nextEnv, h.nextObject.trans h'.nextObject, h.active.trans h'.active,
    fun id hi => (h.frames id hi).trans (h'.frames id hi),
    fun id hi => (h.contents id hi).trans (h'.contents id hi)⟩

theorem mono (h : AgreeOn M m₁ m₂) (hl : L ≤ M) : AgreeOn L m₁ m₂ :=
  ⟨h.nextEnv, h.nextObject, h.active, fun id hi => h.frames id (hl.1 id hi),
    fun id hi => h.contents id (hl.2 id hi)⟩

/-- Frames at a live id differ in their heaps at most. -/
theorem environment?_cases (h : AgreeOn L m₁ m₂) {id : EnvId} (hi : L.envs id) :
    (m₁.environment? id = none ∧ m₂.environment? id = none) ∨
      ∃ e heap, m₁.environment? id = some e ∧ m₂.environment? id = some { e with heap } := by
  have hf := h.frames id hi
  cases h₁ : m₁.environment? id with
  | none =>
    cases h₂ : m₂.environment? id with
    | none => exact .inl ⟨rfl, rfl⟩
    | some e₂ => simp [h₁, h₂] at hf
  | some e₁ =>
    cases h₂ : m₂.environment? id with
    | none => simp [h₁, h₂] at hf
    | some e₂ =>
      simp only [h₁, h₂, Option.map_some, Option.some.injEq] at hf
      exact .inr ⟨e₁, e₂.heap, rfl, congrArg some (Environment.core_eq_core_iff.mp hf)⟩

theorem environment?_some (h : AgreeOn L m₁ m₂) {id : EnvId} {e : Environment} (hi : L.envs id)
    (he : m₁.environment? id = some e) : ∃ heap, m₂.environment? id = some { e with heap } := by
  rcases h.environment?_cases hi with ⟨h₁, _⟩ | ⟨e', heap, h₁, h₂⟩
  · cases he.symm.trans h₁
  · obtain rfl := Option.some.inj (he.symm.trans h₁)
    exact ⟨heap, h₂⟩

theorem closure?_eq (h : AgreeOn L m₁ m₂) {id : ObjId} (hi : L.objects id) :
    m₁.store.closure? id = m₂.store.closure? id := Store.closure?_congr (h.contents id hi)

theorem list?_eq (h : AgreeOn L m₁ m₂) {id : ObjId} (hi : L.objects id) :
    m₁.store.list? id = m₂.store.list? id := Store.list?_congr (h.contents id hi)

end AgreeOn

/-- What live environments and objects link to is live. -/
structure Closed (L : Live) (m : Memory) : Prop where
  tail : ∀ id e t, L.envs id → m.environment? id = some e → e.tail = some t → L.envs t
  handle : ∀ id e o, L.envs id → m.environment? id = some e → o ∈ e.handles → L.objects o
  closureEnv : ∀ id o t, L.objects id → m.store.get? id = some o → t ∈ o.content.links.1 → L.envs t
  element : ∀ id o k, L.objects id → m.store.get? id = some o → k ∈ o.content.links.2 → L.objects k

namespace Closed

theorem all (m : Memory) : m.Closed .all :=
  ⟨fun _ _ _ _ _ _ => trivial, fun _ _ _ _ _ _ => trivial, fun _ _ _ _ _ _ => trivial,
    fun _ _ _ _ _ _ => trivial⟩

/-- Closedness is a matter of what evaluation can see. -/
theorem congr (h : m₁.Closed L) (ha : AgreeOn L m₁ m₂) : m₂.Closed L := by
  have hf : ∀ id e₂, L.envs id → m₂.environment? id = some e₂ →
      ∃ heap, m₁.environment? id = some { e₂ with heap } := fun id e₂ hi h₂ => ha.symm.environment?_some hi h₂
  have hc : ∀ id o₂, L.objects id → m₂.store.get? id = some o₂ →
      ∃ o₁, m₁.store.get? id = some o₁ ∧ o₁.content = o₂.content := by
    intro id o₂ hi h₂
    have he := ha.contents id hi
    rw [h₂] at he
    obtain ⟨o₁, h₁, hoc⟩ := Option.map_eq_some_iff.mp he
    exact ⟨o₁, h₁, hoc⟩
  constructor
  · intro id e t hi h₂ ht
    obtain ⟨heap, h₁⟩ := hf id e hi h₂
    exact h.tail id _ t hi h₁ ht
  · intro id e o hi h₂ ho
    obtain ⟨heap, h₁⟩ := hf id e hi h₂
    exact h.handle id _ o hi h₁ ho
  · intro id o t hi h₂ ht
    obtain ⟨o₁, h₁, hoc⟩ := hc id o hi h₂
    exact h.closureEnv id o₁ t hi h₁ (hoc ▸ ht)
  · intro id o k hi h₂ hk
    obtain ⟨o₁, h₁, hoc⟩ := hc id o hi h₂
    exact h.element id o₁ k hi h₁ (hoc ▸ hk)

theorem meet (h : m.Closed L) (h' : m.Closed M) : m.Closed (L.meet M) :=
  ⟨fun id e t hi he ht => ⟨h.tail id e t hi.1 he ht, h'.tail id e t hi.2 he ht⟩,
    fun id e o hi he ho => ⟨h.handle id e o hi.1 he ho, h'.handle id e o hi.2 he ho⟩,
    fun id o t hi ho ht => ⟨h.closureEnv id o t hi.1 ho ht, h'.closureEnv id o t hi.2 ho ht⟩,
    fun id o k hi ho hk => ⟨h.element id o k hi.1 ho hk, h'.element id o k hi.2 ho hk⟩⟩

theorem list (h : m.Closed L) {id : ObjId} {items : List Value} (hi : L.objects id)
    (hl : m.store.list? id = some items) : ∀ w ∈ items, w.Within L.objects := by
  intro w hw k hk
  simp only [Store.list?] at hl
  split at hl
  · next owner items' ho =>
    obtain rfl := Option.some.inj hl
    exact h.element id _ k hi ho (List.mem_filterMap.mpr ⟨w, hw, hk⟩)
  · cases hl

theorem closure (h : m.Closed L) {id : ObjId} {c : Closure} (hi : L.objects id)
    (hc : m.store.closure? id = some c) : L.envs c.env := by
  simp only [Store.closure?] at hc
  split at hc
  · next owner c' ho =>
    obtain rfl := Option.some.inj hc
    exact h.closureEnv id _ c'.env hi ho (.head _)
  · cases hc

end Closed

/-- The memories agree on a closed set that holds the environments that are looked at first. -/
structure Agree (L : Live) (m₁ m₂ : Memory) : Prop extends AgreeOn L m₁ m₂ where
  closed : m₁.Closed L
  global : L.envs .global
  activeLive : ∀ id ∈ m₁.active, L.envs id

namespace Agree

theorem refl (m : Memory) : Agree .all m m :=
  ⟨.refl _ m, .all m, trivial, fun _ _ => trivial⟩

theorem symm (h : Agree L m₁ m₂) : Agree L m₂ m₁ :=
  ⟨h.toAgreeOn.symm, h.closed.congr h.toAgreeOn, h.global, h.active ▸ h.activeLive⟩

/-- What nothing can see may change on either side. -/
theorem congr (h : Agree L m₁ m₂) (h₁ : AgreeOn .all m₁ m₁') (h₂ : AgreeOn .all m₂ m₂') :
    Agree L m₁' m₂' :=
  ⟨((h₁.mono L.le_all).symm.trans h.toAgreeOn).trans (h₂.mono L.le_all),
    h.closed.congr (h₁.mono L.le_all), h.global, h₁.active ▸ h.activeLive⟩

theorem current_eq (h : Agree L m₁ m₂) : m₁.current = m₂.current := by
  simp only [current]
  rw [h.active]

theorem current_live (h : Agree L m₁ m₂) : L.envs m₁.current := by
  simp only [current]
  cases ha : m₁.active with
  | nil => exact h.global
  | cons id rest =>
    apply h.activeLive
    rw [ha]
    exact .head _

/-- The stack of active environments may change as long as it stays live. -/
theorem withActive (h : Agree L m₁ m₂) (active : List EnvId) (ha : ∀ id ∈ active, L.envs id) :
    Agree L { m₁ with active } { m₂ with active } :=
  ⟨⟨h.nextEnv, h.nextObject, rfl, h.frames, h.contents⟩,
    ⟨h.closed.tail, h.closed.handle, h.closed.closureEnv, h.closed.element⟩, h.global, ha⟩

theorem push (h : Agree L m₁ m₂) {id : EnvId} (hi : L.envs id) : Agree L (m₁.push id) (m₂.push id) := by
  have hw := h.withActive (id :: m₁.active) (by
    intro k hk
    rcases List.mem_cons.mp hk with rfl | hk
    · exact hi
    · exact h.activeLive k hk)
  simp only [Memory.push]
  rw [← h.active]
  exact hw

/-- The same change to a frame keeps agreement if what it links to then is live. -/
theorem setEnvironment (h : Agree L m₁ m₂) (id : EnvId) {e : Environment} (heap : Heap)
    (ht : ∀ t, e.tail = some t → L.envs t) (hv : ∀ o ∈ e.handles, L.objects o) :
    Agree L (m₁.setEnvironment id e) (m₂.setEnvironment id { e with heap }) := by
  refine ⟨⟨h.nextEnv, h.nextObject, h.active, ?_, h.contents⟩, ⟨?_, ?_, h.closed.closureEnv,
    h.closed.element⟩, h.global, h.activeLive⟩
  · intro k hk
    simp only [environment?_setEnvironment]
    split
    · rfl
    · exact h.frames k hk
  · intro k e' t hk he' ht'
    rw [environment?_setEnvironment] at he'
    split at he'
    · obtain rfl := Option.some.inj he'
      exact ht t ht'
    · exact h.closed.tail k e' t hk he' ht'
  · intro k e' o hk he' ho
    rw [environment?_setEnvironment] at he'
    split at he'
    · obtain rfl := Option.some.inj he'
      exact hv o ho
    · exact h.closed.handle k e' o hk he' ho

end Agree
end Memory
end CseMachine
