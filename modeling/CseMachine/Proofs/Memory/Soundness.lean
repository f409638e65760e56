import CseMachine.Proofs.Memory.Effects
import CseMachine.Proofs.Scoping
import CseMachine.Proofs.Value.Faults

/-!
# Sound memories

In a memory that frees nothing every id below the next one exists, tails lead to
older environments, every handle leads to an object of its kind, and closures
are well-scoped functions of the evaluation. Each operation keeps this, and what
exists once exists from then on.
-/
namespace CseMachine

namespace Store

variable {s s' s'' : Store} {id : ObjId}

theorem closure?_eq_some {c : Closure} :
    s.closure? id = some c ↔ ∃ owner, s.get? id = some ⟨owner, .closure c⟩ := by
  simp only [closure?]
  cases hs : s.get? id with
  | none => simp
  | some o =>
    obtain ⟨owner, content⟩ := o
    cases content <;> simp

theorem list?_eq_some {items : List Value} :
    s.list? id = some items ↔ ∃ owner, s.get? id = some ⟨owner, .list items⟩ := by
  simp only [list?]
  cases hs : s.get? id with
  | none => simp
  | some o =>
    obtain ⟨owner, content⟩ := o
    cases content <;> simp

theorem closure?_nameClosure (s : Store) (id : ObjId) (name : String) (k : ObjId) :
    (s.nameClosure id name).closure? k =
      if id = k then (s.closure? k).map (·.nameOnce name) else s.closure? k := by
  simp only [closure?]
  rw [Memory.get?_nameClosure]
  by_cases hid : id = k
  · simp only [hid, if_true]
    cases s.get? k with
    | none => rfl
    | some o => rcases o with ⟨owner, c | items⟩ <;> rfl
  · simp only [hid, if_false, Option.map_id']

theorem list?_nameClosure (s : Store) (id : ObjId) (name : String) (k : ObjId) :
    (s.nameClosure id name).list? k = s.list? k := by
  simp only [list?]
  rw [Memory.get?_nameClosure]
  by_cases hid : id = k
  · simp only [hid, if_true]
    cases s.get? k with
    | none => rfl
    | some o => rcases o with ⟨owner, c | items⟩ <;> rfl
  · simp only [hid, if_false, Option.map_id']

/-- Objects stay; of a closure only the name may change. -/
structure Grows (s s' : Store) : Prop where
  closure : ∀ id c, s.closure? id = some c →
    ∃ c', s'.closure? id = some c' ∧ c'.func = c.func ∧ c'.env = c.env ∧ c'.run = c.run
  list : ∀ id items, s.list? id = some items → s'.list? id = some items

namespace Grows

theorem refl (s : Store) : s.Grows s := ⟨fun _ c h => ⟨c, h, rfl, rfl, rfl⟩, fun _ _ h => h⟩

theorem trans (h : s.Grows s') (h' : s'.Grows s'') : s.Grows s'' := by
  refine ⟨fun id c hc => ?_, fun id items hi => h'.list id items (h.list id items hi)⟩
  obtain ⟨c', hc', hf, he, hr⟩ := h.closure id c hc
  obtain ⟨c'', hc'', hf', he', hr'⟩ := h'.closure id c' hc'
  exact ⟨c'', hc'', hf'.trans hf, he'.trans he, hr'.trans hr⟩

end Grows
end Store

theorem Value.Resolves.mono {s s' : Store} {w : Value} (h : w.Resolves s) (hg : s.Grows s') :
    w.Resolves s' := by
  cases w with
  | closure id =>
    obtain ⟨c, hc⟩ := Option.isSome_iff_exists.mp h
    obtain ⟨c', hc', _⟩ := hg.closure id c hc
    exact Option.isSome_iff_exists.mpr ⟨c', hc'⟩
  | list id =>
    obtain ⟨items, hi⟩ := Option.isSome_iff_exists.mp h
    exact Option.isSome_iff_exists.mpr ⟨items, hg.list id items hi⟩
  | _ => trivial

namespace Memory

variable {run : RunId} {m m' m'' : Memory}

/-- What exists stays: environments with their tails and names, and objects. -/
structure Grows (m m' : Memory) : Prop where
  nextEnv : m.nextEnv ≤ m'.nextEnv
  frame : ∀ id e, m.environment? id = some e → ∃ e', m'.environment? id = some e' ∧
    e'.tail = e.tail ∧ ∀ x, (e.lookup? x).isSome → (e'.lookup? x).isSome
  store : m.store.Grows m'.store

namespace Grows

theorem refl (m : Memory) : m.Grows m :=
  ⟨Nat.le_refl _, fun _ e h => ⟨e, h, rfl, fun _ h => h⟩, .refl _⟩

theorem trans (h : m.Grows m') (h' : m'.Grows m'') : m.Grows m'' := by
  refine ⟨Nat.le_trans h.nextEnv h'.nextEnv, fun id e he => ?_, h.store.trans h'.store⟩
  obtain ⟨e', he', ht, hl⟩ := h.frame id e he
  obtain ⟨e'', he'', ht', hl'⟩ := h'.frame id e' he'
  exact ⟨e'', he'', ht'.trans ht, fun x hx => hl' x (hl x hx)⟩

/-- Which environments are active is not looked at. -/
theorem withActive (m : Memory) (active : List EnvId) : m.Grows { m with active } :=
  ⟨Nat.le_refl _, fun _ e he => ⟨e, he, rfl, fun _ hx => hx⟩, .refl _⟩

end Grows

structure Sound (run : RunId) (m : Memory) : Prop where
  present : ∀ id : EnvId, (m.environment? id).isSome ↔ id.index < m.nextEnv
  fresh : ∀ id : ObjId, m.store.next ≤ id.index → m.store.get? id = none
  tail : ∀ id e t, m.environment? id = some e → e.tail = some t → t.index < id.index
  bound : ∀ id e x w constant, m.environment? id = some e → e.lookup? x = some ⟨some w, constant⟩ →
    w.Resolves m.store
  element : ∀ id items, m.store.list? id = some items → ∀ w ∈ items, w.Resolves m.store
  closure : ∀ id c, m.store.closure? id = some c →
    c.env.index < m.nextEnv ∧ c.run = run ∧ c.func.Scoped
  activeNonempty : m.active ≠ []
  activePresent : ∀ id ∈ m.active, id.index < m.nextEnv

namespace Sound

variable (h : m.Sound run)
include h

theorem current_present : m.current.index < m.nextEnv := by
  simp only [current]
  cases ha : m.active with
  | nil => exact absurd ha h.activeNonempty
  | cons id rest => exact h.activePresent id (ha ▸ .head _)

theorem environment {id : EnvId} (hi : id.index < m.nextEnv) : ∃ e, m.environment? id = some e :=
  Option.isSome_iff_exists.mp ((h.present id).mpr hi)

theorem index_lt {id : EnvId} {e : Environment} (he : m.environment? id = some e) :
    id.index < m.nextEnv := (h.present id).mp (Option.isSome_iff_exists.mpr ⟨e, he⟩)

theorem object_lt {id : ObjId} {o : Object} (ho : m.store.get? id = some o) :
    id.index < m.store.next := by
  by_contra hn
  rw [h.fresh id (Nat.le_of_not_lt hn)] at ho
  cases ho

/-- Soundness is a matter of what evaluation can see. -/
theorem congr (ha : AgreeOn .all m m') : m'.Sound run ∧ m.Grows m' := by
  have hf : ∀ id, (m.environment? id = none ∧ m'.environment? id = none) ∨
      ∃ e heap, m.environment? id = some e ∧ m'.environment? id = some { e with heap } :=
    fun id => ha.environment?_cases trivial
  have hc : ∀ id, m.store.closure? id = m'.store.closure? id := fun id => ha.closure?_eq trivial
  have hl : ∀ id, m.store.list? id = m'.store.list? id := fun id => ha.list?_eq trivial
  have hgrow : m.store.Grows m'.store :=
    ⟨fun id c hi => ⟨c, hc id ▸ hi, rfl, rfl, rfl⟩, fun id items hi => hl id ▸ hi⟩
  have hback : ∀ id e', m'.environment? id = some e' → ∃ heap, m.environment? id = some { e' with heap } :=
    fun id e' he' => ha.symm.environment?_some trivial he'
  refine ⟨⟨fun id => ?_, fun id hi => ?_, fun id e t he ht => ?_, fun id e x w k he hx => ?_,
    fun id items hi w hw => ?_, fun id c hi => ?_, ha.active ▸ h.activeNonempty, ?_⟩,
    ha.nextEnv ▸ Nat.le_refl _, fun id e he => ?_, hgrow⟩
  · rw [← ha.nextEnv, ← h.present id]
    rcases hf id with ⟨h₁, h₂⟩ | ⟨e, heap, h₁, h₂⟩
    · rw [h₁, h₂]
    · rw [h₁, h₂]
      exact Iff.rfl
  · have hs := ha.contents id trivial
    rw [h.fresh id (ha.nextObject ▸ hi)] at hs
    exact Option.map_eq_none_iff.mp hs.symm
  · obtain ⟨heap, he'⟩ := hback id e he
    exact h.tail id _ t he' ht
  · obtain ⟨heap, he'⟩ := hback id e he
    exact (h.bound id _ x w k he' hx).mono hgrow
  · exact (h.element id items ((hl id).trans hi) w hw).mono hgrow
  · rw [← ha.nextEnv]
    exact h.closure id c ((hc id).trans hi)
  · rw [← ha.active, ← ha.nextEnv]
    exact h.activePresent
  · obtain ⟨heap, he'⟩ := ha.environment?_some trivial he
    exact ⟨_, he', rfl, fun x hx => hx⟩

theorem setEnvironment {id : EnvId} {e e' : Environment} (he : m.environment? id = some e)
    (ht : e'.tail = e.tail)
    (hb : ∀ x w constant, e'.lookup? x = some ⟨some w, constant⟩ → w.Resolves m.store)
    (hl : ∀ x, (e.lookup? x).isSome → (e'.lookup? x).isSome) :
    (m.setEnvironment id e').Sound run ∧ m.Grows (m.setEnvironment id e') := by
  refine ⟨⟨fun k => ?_, h.fresh, fun k f t hk hkt => ?_, fun k f x w c hk hx => ?_, h.element, h.closure,
    h.activeNonempty, h.activePresent⟩, Nat.le_refl _, fun k f hk => ?_, .refl _⟩
  · rw [environment?_setEnvironment]
    split
    · next hid =>
      subst hid
      simp only [Option.isSome_some, true_iff]
      exact h.index_lt he
    · exact h.present k
  · rw [environment?_setEnvironment] at hk
    split at hk
    · next hid =>
      subst hid
      obtain rfl := Option.some.inj hk
      exact h.tail id e t he (ht ▸ hkt)
    · exact h.tail k f t hk hkt
  · rw [environment?_setEnvironment] at hk
    split at hk
    · obtain rfl := Option.some.inj hk
      exact hb x w c hx
    · exact h.bound k f x w c hk hx
  · rw [environment?_setEnvironment]
    split
    · next hid =>
      subst hid
      obtain rfl := Option.some.inj (he.symm.trans hk)
      exact ⟨e', rfl, ht, hl⟩
    · exact ⟨f, hk, rfl, fun _ hx => hx⟩

theorem adopt {e : Environment} (ht : ∀ t, e.tail = some t → t.index < m.nextEnv)
    (hb : ∀ x w constant, e.lookup? x = some ⟨some w, constant⟩ → w.Resolves m.store) :
    (m.adopt e).Sound run ∧ m.Grows (m.adopt e) := by
  have hold : ∀ k f, m.environment? k = some f → (⟨m.nextEnv⟩ : EnvId) ≠ k := by
    rintro k f hk rfl
    exact Nat.lt_irrefl _ (h.index_lt hk)
  refine ⟨⟨fun k => ?_, h.fresh, fun k f t hk hkt => ?_, fun k f x w c hk hx => ?_, h.element,
    fun id c hc => ?_, h.activeNonempty, fun id hi => Nat.lt_succ_of_lt (h.activePresent id hi)⟩,
    Nat.le_succ _, fun k f hk => ?_, .refl _⟩
  · rw [environment?_adopt]
    show _ ↔ k.index < m.nextEnv + 1
    split
    · next hid =>
      subst hid
      simp
    · next hid =>
      rw [h.present k]
      have hne : k.index ≠ m.nextEnv := fun he => hid (by cases k; simp_all)
      omega
  · rw [environment?_adopt] at hk
    split at hk
    · next hid =>
      subst hid
      obtain rfl := Option.some.inj hk
      exact ht t hkt
    · exact h.tail k f t hk hkt
  · rw [environment?_adopt] at hk
    split at hk
    · obtain rfl := Option.some.inj hk
      exact hb x w c hx
    · exact h.bound k f x w c hk hx
  · obtain ⟨henv, hrest⟩ := h.closure id c hc
    exact ⟨Nat.lt_succ_of_lt henv, hrest⟩
  · rw [environment?_adopt, if_neg (hold k f hk)]
    exact ⟨f, hk, rfl, fun _ hx => hx⟩

/-- What a new object may hold. -/
theorem stored (env : EnvId) {content : Content}
    (hl : ∀ items, content = .list items → ∀ w ∈ items, w.Resolves m.store)
    (hc : ∀ c, content = .closure c → c.env.index < m.nextEnv ∧ c.run = run ∧ c.func.Scoped) :
    (m.stored env content).Sound run ∧ m.Grows (m.stored env content) := by
  have hget : ∀ k, (m.stored env content).store.get? k =
      if (⟨m.store.next⟩ : ObjId) = k then some ⟨env, content⟩ else m.store.get? k :=
    fun k => get?_alloc m.store env content k
  have hold : ∀ k o, m.store.get? k = some o → (m.stored env content).store.get? k = some o := by
    intro k o ho
    rw [hget, if_neg, ho]
    rintro rfl
    exact Nat.lt_irrefl _ (h.object_lt ho)
  have hgrow : m.store.Grows (m.stored env content).store := by
    constructor
    · intro id c hi
      obtain ⟨owner, ho⟩ := Store.closure?_eq_some.mp hi
      exact ⟨c, Store.closure?_eq_some.mpr ⟨owner, hold id _ ho⟩, rfl, rfl, rfl⟩
    · intro id items hi
      obtain ⟨owner, ho⟩ := Store.list?_eq_some.mp hi
      exact Store.list?_eq_some.mpr ⟨owner, hold id _ ho⟩
  refine ⟨⟨h.present, fun id hi => ?_, h.tail, fun id e x w k he hx => (h.bound id e x w k he hx).mono hgrow,
    fun id items hi w hw => ?_, fun id c hi => ?_, h.activeNonempty, h.activePresent⟩, Nat.le_refl _,
    fun id e he => ⟨e, he, rfl, fun _ hx => hx⟩, hgrow⟩
  · have hlt : m.store.next < id.index := hi
    rw [hget, if_neg, h.fresh id (Nat.le_of_lt hlt)]
    rintro rfl
    exact Nat.lt_irrefl _ hlt
  · obtain ⟨owner, ho⟩ := Store.list?_eq_some.mp hi
    rw [hget] at ho
    split at ho
    · exact (hl items (congrArg Object.content (Option.some.inj ho)) w hw).mono hgrow
    · exact (h.element id items (Store.list?_eq_some.mpr ⟨owner, ho⟩) w hw).mono hgrow
  · obtain ⟨owner, ho⟩ := Store.closure?_eq_some.mp hi
    rw [hget] at ho
    split at ho
    · exact hc c (congrArg Object.content (Option.some.inj ho))
    · exact h.closure id c (Store.closure?_eq_some.mpr ⟨owner, ho⟩)

theorem withActive (active : List EnvId) (hn : active ≠ []) (hp : ∀ id ∈ active, id.index < m.nextEnv) :
    ({ m with active } : Memory).Sound run ∧ m.Grows { m with active } :=
  ⟨⟨h.present, h.fresh, h.tail, h.bound, h.element, h.closure, hn, hp⟩, .withActive m active⟩

theorem named (w : Value) (name : String) :
    (m.named w name).Sound run ∧ m.Grows (m.named w name) := by
  cases w with
  | closure id =>
    have hclosure := m.store.closure?_nameClosure id name
    have hlist := m.store.list?_nameClosure id name
    have hgrow : m.store.Grows (m.store.nameClosure id name) := by
      refine ⟨fun k c hc => ?_, fun k items hi => (hlist k).trans hi⟩
      rw [hclosure, hc]
      split
      · exact ⟨c.nameOnce name, rfl, rfl, rfl, rfl⟩
      · exact ⟨c, rfl, rfl, rfl, rfl⟩
    refine ⟨⟨h.present, fun k hk => ?_, h.tail, fun k e x v c he hx => (h.bound k e x v c he hx).mono hgrow,
      fun k items hi v hv => (h.element k items ((hlist k).symm.trans hi) v hv).mono hgrow,
      fun k c hc => ?_, h.activeNonempty, h.activePresent⟩, Nat.le_refl _,
      fun k e he => ⟨e, he, rfl, fun _ hx => hx⟩, hgrow⟩
    · show (m.store.nameClosure id name).get? k = none
      rw [get?_nameClosure, h.fresh k hk]
      rfl
    · have hc' := (hclosure k).symm.trans hc
      split at hc'
      · obtain ⟨c', hk, rfl⟩ := Option.map_eq_some_iff.mp hc'
        exact h.closure k c' hk
      · exact h.closure k c hc'
  | _ => exact ⟨h, .refl m⟩

end Sound
end Memory
end CseMachine
