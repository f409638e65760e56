import Mathlib.Data.List.Permutation
import CseMachine.Proofs.Memory.Reclaiming
import CseMachine.Proofs.Reachable

/-!
# What a collection frees

What may be looked at again is what can be reached from the global and the active
environments and from the given roots. Marking computes just this, so a collection
frees all the rest and nothing else: a survivor stays as it is, but that an object
goes to the first surviving environment outwards from its owner.
-/
namespace CseMachine

/-- Something that a collection keeps or frees. -/
inductive Memory.Place where
  | env (id : EnvId)
  | object (id : ObjId)
  deriving DecidableEq, Repr

/-- What the value refers to is in the store. -/
def Value.Stored (s : Store) (w : Value) : Prop := ∀ k, w.objectId? = some k → (s.get? k).isSome

theorem Value.stored_of_resolves {s : Store} {w : Value} (h : w.Resolves s) : w.Stored s := by
  intro k hk
  cases w with
  | closure id =>
    obtain ⟨c, hc⟩ := Option.isSome_iff_exists.mp h
    obtain ⟨owner, ho⟩ := Store.closure?_eq_some.mp hc
    obtain rfl := Option.some.inj hk
    exact Option.isSome_iff_exists.mpr ⟨_, ho⟩
  | list id =>
    obtain ⟨items, hi⟩ := Option.isSome_iff_exists.mp h
    obtain ⟨owner, ho⟩ := Store.list?_eq_some.mp hi
    obtain rfl := Option.some.inj hk
    exact Option.isSome_iff_exists.mpr ⟨_, ho⟩
  | _ => cases hk

namespace Memory

variable {m : Memory} {envs : List EnvId} {values : List Value} {objects : List ObjId} {live : EnvId → Bool}

/-- What can be reached from the global and the active environments and the roots, along the tails of
environments, the values bound in them, the environments of closures and the elements of lists. -/
inductive Reaches (m : Memory) (envs : List EnvId) (values : List Value) : Place → Prop
  | global : Reaches m envs values (.env .global)
  | active {id : EnvId} (member : id ∈ m.active) : Reaches m envs values (.env id)
  | rootEnv {id : EnvId} (member : id ∈ envs) : Reaches m envs values (.env id)
  | rootValue {w : Value} {k : ObjId} (member : w ∈ values) (handle : w.objectId? = some k) :
      Reaches m envs values (.object k)
  | tail {id t : EnvId} {e : Environment} (before : Reaches m envs values (.env id))
      (found : m.environment? id = some e) (link : e.tail = some t) : Reaches m envs values (.env t)
  | bound {id : EnvId} {e : Environment} {b : String × Slot} {w : Value} {k : ObjId}
      (before : Reaches m envs values (.env id)) (found : m.environment? id = some e) (member : b ∈ e.bindings)
      (link : b.2.value = some w) (handle : w.objectId? = some k) : Reaches m envs values (.object k)
  | captured {id : ObjId} {c : Closure} (before : Reaches m envs values (.object id))
      (found : m.store.closure? id = some c) : Reaches m envs values (.env c.env)
  | element {id : ObjId} {items : List Value} {w : Value} {k : ObjId} (before : Reaches m envs values (.object id))
      (found : m.store.list? id = some items) (member : w ∈ items) (handle : w.objectId? = some k) :
      Reaches m envs values (.object k)

/-- What anything refers to is there, tails lead to what is older, and every object is in the heap of its owner
and in no other. -/
structure Whole (m : Memory) : Prop extends Owned m where
  global : m.Present .global
  active : ∀ id ∈ m.active, m.Present id
  envIds : ∀ id, m.Present id → id.index < m.nextEnv
  tail : ∀ id e t, m.environment? id = some e → e.tail = some t → m.Present t ∧ t.index < id.index
  bound : ∀ id e b w, m.environment? id = some e → b ∈ e.bindings → b.2.value = some w → w.Stored m.store
  captured : ∀ id c, m.store.closure? id = some c → m.Present c.env
  element : ∀ id items w, m.store.list? id = some items → w ∈ items → w.Stored m.store

theorem WellFormed.whole (h : m.WellFormed) : m.Whole where
  toOwned := h.toOwned
  global := h.present_global
  active := h.active
  envIds := h.envIds
  tail := by
    intro id e t he ht
    by_cases hid : id = .global
    · obtain ⟨g, hg, hgt⟩ := h.global
      rw [hid, hg] at he
      obtain rfl := Option.some.inj he
      cases hgt.symm.trans ht
    · obtain ⟨t', ht', hp, hlt⟩ := h.tail id e he hid
      obtain rfl := Option.some.inj (ht'.symm.trans ht)
      exact ⟨hp, hlt⟩
  bound := fun id e b w he hb hw => Value.stored_of_resolves (h.bound id e b w he hb hw)
  captured := h.captured
  element := fun id items w hi hw => Value.stored_of_resolves (h.element id items hi w hw).1

/-! Marks are what is reached -/

/-- What can be reached as a set. -/
def reached (m : Memory) (envs : List EnvId) (values : List Value) : Live :=
  ⟨fun id => m.Reaches envs values (.env id), fun id => m.Reaches envs values (.object id)⟩

theorem closed_reached : m.Closed (m.reached envs values) := by
  constructor
  · intro id e t hi he ht
    exact .tail hi he ht
  · intro id e k hi he hk
    obtain ⟨b, hb, w, hw, hid⟩ := Environment.mem_handles.mp hk
    exact .bound hi he hb hw hid
  · intro id o t hi ho ht
    obtain ⟨owner, c | items⟩ := o
    · obtain rfl := List.mem_singleton.mp ht
      exact .captured hi (Store.closure?_eq_some.mpr ⟨owner, ho⟩)
    · cases ht
  · intro id o k hi ho hk
    obtain ⟨owner, c | items⟩ := o
    · cases hk
    · obtain ⟨w, hw, hid⟩ := List.mem_filterMap.mp hk
      exact .element hi (Store.list?_eq_some.mpr ⟨owner, ho⟩) hw hid

theorem kept_le_reached : m.kept envs (values.filterMap Value.objectId?) ≤ m.reached envs values := by
  apply kept_least closed_reached
  · intro id hi
    rcases List.mem_append.mp hi with hi | hi
    · rcases List.mem_cons.mp hi with rfl | hi
      · exact .global
      · exact .active hi
    · exact .rootEnv hi
  · intro id hi
    obtain ⟨w, hw, hid⟩ := List.mem_filterMap.mp hi
    exact .rootValue hw hid

/-- Whatever set is closed and holds the roots holds all that can be reached. -/
theorem reached_le {L : Live} (hc : m.Closed L) (he : ∀ id ∈ .global :: m.active ++ envs, L.envs id)
    (ho : ∀ w ∈ values, w.Within L.objects) : m.reached envs values ≤ L := by
  have hr : ∀ {r : Place}, m.Reaches envs values r → match r with
      | .env id => L.envs id
      | .object id => L.objects id := by
    intro r h
    induction h with
    | global => exact he _ (.head _)
    | active member => exact he _ (List.mem_append_left _ (.tail _ member))
    | rootEnv member => exact he _ (List.mem_append_right _ member)
    | rootValue member handle => exact ho _ member _ handle
    | tail _ found link ih => exact hc.tail _ _ _ ih found link
    | bound _ found member link handle ih =>
      exact hc.handle _ _ _ ih found (Environment.mem_handles.mpr ⟨_, member, _, link, handle⟩)
    | captured _ found ih => exact hc.closure ih found
    | element _ found member handle ih => exact hc.list ih found _ member _ handle
  exact ⟨fun _ h => hr h, fun _ h => hr h⟩

theorem reached_le_kept : m.reached envs values ≤ m.kept envs (values.filterMap Value.objectId?) :=
  reached_le closed_kept (fun _ hi => kept_env hi) fun w hw _ hk => kept_object (List.mem_filterMap.mpr ⟨w, hw, hk⟩)

/-- A collection marks an environment just if it can be reached. -/
theorem marked_env (id : EnvId) : (m.reachable envs (values.filterMap Value.objectId?)).envs.contains id = true ↔
    m.Reaches envs values (.env id) := by
  rw [Std.ExtTreeSet.contains_iff_mem]
  exact ⟨kept_le_reached.1 id, reached_le_kept.1 id⟩

theorem marked_object (id : ObjId) : id ∈ (m.reachable envs (values.filterMap Value.objectId?)).objects.toList ↔
    m.Reaches envs values (.object id) := by
  rw [Std.ExtTreeSet.mem_toList]
  exact ⟨kept_le_reached.2 id, reached_le_kept.2 id⟩

/-! Heirs -/

/-- The first environment with the property on the way outwards, or the global one if there is none. -/
inductive FirstOutwards (m : Memory) (P : EnvId → Prop) : EnvId → EnvId → Prop
  | here {id : EnvId} (holds : P id) : FirstOutwards m P id id
  | outwards {id t target : EnvId} {e : Environment} (fails : ¬P id) (found : m.environment? id = some e)
      (link : e.tail = some t) (rest : FirstOutwards m P t target) : FirstOutwards m P id target
  | outermost {id : EnvId} {e : Environment} (fails : ¬P id) (found : m.environment? id = some e)
      (last : e.tail = none) : FirstOutwards m P id .global

/-- Each step outwards leads to an older environment, so as many steps as there are older ones are enough. -/
theorem Whole.nearestLive_firstOutwards (h : m.Whole) (steps : Nat) (id : EnvId) (hp : m.Present id)
    (hs : id.index < steps) : m.FirstOutwards (live · = true) id (m.nearestLive live steps (some id)) := by
  induction steps generalizing id with
  | zero => omega
  | succ steps ih =>
    obtain ⟨e, he⟩ := Option.isSome_iff_exists.mp hp
    simp only [nearestLive, he, Option.bind_some]
    by_cases hl : live id = true
    · rw [if_pos hl]
      exact .here hl
    · rw [if_neg hl]
      cases ht : e.tail with
      | none =>
        have hn : m.nearestLive live steps none = .global := by cases steps <;> rfl
        rw [hn]
        exact .outermost hl he ht
      | some t =>
        obtain ⟨hpt, hlt⟩ := h.tail id e t he ht
        exact .outwards hl he ht (ih t hpt (by omega))

theorem Whole.heir_firstOutwards (h : m.Whole) {id : ObjId} {owner env : EnvId} (ho : m.store.owner? id = some owner)
    (hh : m.heir live id = some env) : m.FirstOutwards (live · = true) owner env := by
  obtain ⟨o, hobj, rfl⟩ := owner?_eq_some.mp ho
  obtain ⟨e, he, -⟩ := h.owner id o hobj
  have hp : m.Present o.owner := Option.isSome_iff_exists.mpr ⟨e, he⟩
  -- the heir is what the search finds that starts with the owner itself
  have hsearch : m.heir live id = some (m.nearestLive live (m.nextEnv + 2) (some o.owner)) := by
    simp only [heir, ho, Option.map_some, nearestLive]
  obtain rfl := Option.some.inj (hh.symm.trans hsearch)
  have hlt := h.envIds _ hp
  exact h.nearestLive_firstOutwards _ _ hp (by omega)

theorem FirstOutwards.congr {P Q : EnvId → Prop} {id target : EnvId} (h : m.FirstOutwards P id target)
    (hpq : ∀ id, P id ↔ Q id) : m.FirstOutwards Q id target := by
  have heq : P = Q := funext fun id => propext (hpq id)
  exact heq ▸ h

/-! Numbers -/

/-- If one map has no other keys than another, the rest of the other's keys make up the difference. -/
theorem size_eq_add_countP {α β γ : Type} [Ord α] [Std.TransOrd α] [Std.LawfulEqOrd α] {t : Std.ExtTreeMap α β}
    {t' : Std.ExtTreeMap α γ} (h : ∀ k : α, k ∈ t' → k ∈ t) : t.size = t'.size + t.keys.countP fun k => k ∉ t' := by
  have hperm : (t.keys.filter fun k => k ∈ t').Perm t'.keys := by
    apply (List.perm_ext_iff_of_nodup ?_ ?_).mpr
    · intro k
      simp only [List.mem_filter, Std.ExtTreeMap.mem_keys, decide_eq_true_eq]
      exact ⟨fun hk => hk.2, fun hk => ⟨h k hk, hk⟩⟩
    · exact Std.ExtTreeMap.nodup_keys.filter _
    · exact Std.ExtTreeMap.nodup_keys
  have hsplit := List.length_eq_countP_add_countP (fun k => decide (k ∈ t')) (l := t.keys)
  rw [List.countP_eq_length_filter, hperm.length_eq, Std.ExtTreeMap.length_keys, Std.ExtTreeMap.length_keys] at hsplit
  simpa only [decide_eq_true_eq] using hsplit

/-! Collections -/

/-- What is left of a memory when all is freed that the roots do not lead to. -/
structure Freed (m : Memory) (envs : List EnvId) (values : List Value) (m' : Memory) : Prop where
  environments : ∀ id, m'.Present id ↔ m.Reaches envs values (.env id)
  objects : ∀ id, (m'.store.get? id).isSome ↔ m.Reaches envs values (.object id)
  /-- A surviving environment keeps all but what its heap lists. -/
  frame : ∀ id e', m'.environment? id = some e' → ∃ e, m.environment? id = some e ∧ e' = { e with heap := e'.heap }
  /-- A surviving object keeps its content, and its owner if that survives. -/
  content : ∀ id o', m'.store.get? id = some o' → ∃ o, m.store.get? id = some o ∧ o'.content = o.content ∧
    m.FirstOutwards (fun env => m.Reaches envs values (.env env)) o.owner o'.owner
  owned : m'.Owned
  active : m'.active = m.active

namespace Whole

variable (h : m.Whole)
include h

theorem closed : m.Closed ⟨m.Present, fun id => (m.store.get? id).isSome⟩ := by
  constructor
  · intro id e t _ he ht
    exact (h.tail id e t he ht).1
  · intro id e k _ he hk
    obtain ⟨b, hb, w, hw, hid⟩ := Environment.mem_handles.mp hk
    exact h.bound id e b w he hb hw k hid
  · intro id o t _ ho ht
    obtain ⟨owner, c | items⟩ := o
    · obtain rfl := List.mem_singleton.mp ht
      exact h.captured id c (Store.closure?_eq_some.mpr ⟨owner, ho⟩)
    · cases ht
  · intro id o k _ ho hk
    obtain ⟨owner, c | items⟩ := o
    · cases hk
    · obtain ⟨w, hw, hid⟩ := List.mem_filterMap.mp hk
      exact h.element id items w (Store.list?_eq_some.mpr ⟨owner, ho⟩) hw k hid

/-- What can be reached from roots that are there is there. -/
theorem reached_present (he : ∀ id ∈ envs, m.Present id) (hv : ∀ w ∈ values, w.Stored m.store) :
    m.reached envs values ≤ ⟨m.Present, fun id => (m.store.get? id).isSome⟩ := by
  apply reached_le h.closed
  · intro id hi
    rcases List.mem_append.mp hi with hi | hi
    · rcases List.mem_cons.mp hi with rfl | hi
      · exact h.global
      · exact h.active id hi
    · exact he id hi
  · intro w hw k hk
    exact hv w hw k hk

end Whole

/-- The owner that a survivor has after a collection is its heir. -/
theorem Owned.heir_of_collect (h : m.Owned) (hp : ∀ env, (m.kept envs objects).envs env → m.Present env) {id : ObjId}
    {o : Object} (ho : (m.collect envs objects).2.store.get? id = some o) :
    m.heir (m.reachable envs objects).envs.contains id = some o.owner := by
  have hg : (m.reachable envs objects).envs.contains .global = true :=
    Std.ExtTreeSet.contains_iff_mem.mpr (kept_env (.head _))
  obtain ⟨-, howner⟩ := h.foldl_rehome hg (fun env hl => hp env (Std.ExtTreeSet.contains_iff_mem.mp hl))
    (m.reachable envs objects).objects.toList
  obtain ⟨hmarked, hget⟩ := get?_of_sweep ho
  have heir := howner id
  rw [if_pos (Std.ExtTreeSet.mem_toList.mpr hmarked), owner?_eq_some.mpr ⟨o, hget, rfl⟩] at heir
  exact heir.symm

theorem Whole.freed_collect (h : m.Whole) (he : ∀ id ∈ envs, m.Present id) (hv : ∀ w ∈ values, w.Stored m.store) :
    m.Freed envs values (m.collect envs (values.filterMap Value.objectId?)).2 := by
  have hpresent := h.reached_present he hv
  have ha := agreeOn_collect m envs (values.filterMap Value.objectId?)
  have hlive : ∀ env, (m.kept envs (values.filterMap Value.objectId?)).envs env → m.Present env :=
    fun env hk => hpresent.1 env (kept_le_reached.1 env hk)
  -- what a survivor holds it held before
  have hcontent : ∀ id, m.Reaches envs values (.object id) →
      (m.store.get? id).map Object.content =
        ((m.collect envs (values.filterMap Value.objectId?)).2.store.get? id).map Object.content :=
    fun id hr => ha.contents id (reached_le_kept.2 id hr)
  constructor
  · intro id
    constructor
    · intro hp
      exact kept_le_reached.1 id (kept_of_present_collect hp)
    · intro hr
      exact (ha.present (reached_le_kept.1 id hr)).mp (hpresent.1 id hr)
  · intro id
    constructor
    · intro hs
      obtain ⟨o, ho⟩ := Option.isSome_iff_exists.mp hs
      exact kept_le_reached.2 id (get?_of_sweep ho).1
    · intro hr
      have hsome := congrArg Option.isSome (hcontent id hr)
      rw [Option.isSome_map, Option.isSome_map] at hsome
      rw [← hsome]
      exact hpresent.2 id hr
  · intro id e' he'
    have hk := kept_of_present_collect (Option.isSome_iff_exists.mpr ⟨e', he'⟩)
    obtain ⟨heap, he⟩ := ha.symm.environment?_some hk he'
    exact ⟨_, he, rfl⟩
  · intro id o' ho'
    have hr := kept_le_reached.2 id (get?_of_sweep ho').1
    have hc := hcontent id hr
    rw [ho'] at hc
    obtain ⟨o, ho, hoc⟩ := Option.map_eq_some_iff.mp hc
    have hfirst := h.heir_firstOutwards (owner?_eq_some.mpr ⟨o, ho, rfl⟩) (h.toOwned.heir_of_collect hlive ho')
    exact ⟨o, ho, hoc.symm, hfirst.congr marked_env⟩
  · exact h.toOwned.collect hlive
  · exact ha.active.symm

theorem collect_count (m : Memory) (envs : List EnvId) (objects : List ObjId) :
    (m.collect envs objects).1 = m.population - (m.collect envs objects).2.population := rfl

/-- The number that a collection answers is that of the environments and objects which are gone. -/
theorem Freed.count {m' : Memory} (h : m.Freed envs values m') (he : ∀ id, m.Reaches envs values (.env id) → m.Present id)
    (ho : ∀ id, m.Reaches envs values (.object id) → (m.store.get? id).isSome) :
    m.population - m'.population = (m.environments.keys.countP fun id => id ∉ m'.environments) +
      m.store.objects.keys.countP fun id => id ∉ m'.store.objects := by
  have henvs : ∀ id : EnvId, id ∈ m'.environments → id ∈ m.environments := by
    intro id hi
    rw [Std.ExtTreeMap.mem_iff_isSome_getElem?] at hi ⊢
    exact he id ((h.environments id).mp hi)
  have hobjects : ∀ id : ObjId, id ∈ m'.store.objects → id ∈ m.store.objects := by
    intro id hi
    rw [Std.ExtTreeMap.mem_iff_isSome_getElem?] at hi ⊢
    exact ho id ((h.objects id).mp hi)
  simp only [population, Store.size]
  rw [size_eq_add_countP henvs, size_eq_add_countP hobjects]
  omega

/-- A collection of a memory in which everything hangs together frees just what cannot be reached from the global and
the active environments and the given roots, says how much that was, and leaves nothing to collect. -/
theorem collect_frees_unreachable (h : m.Whole) (he : ∀ id ∈ envs, m.Present id) (hv : ∀ w ∈ values, w.Stored m.store) :
    ∃ count m', m.collect envs (values.filterMap Value.objectId?) = (count, m') ∧ m.Freed envs values m' ∧
      (count = (m.environments.keys.countP fun id => id ∉ m'.environments) +
        m.store.objects.keys.countP fun id => id ∉ m'.store.objects) ∧
      (m'.collect envs (values.filterMap Value.objectId?)).1 = 0 := by
  have hfreed := h.freed_collect he hv
  have hpresent := h.reached_present he hv
  refine ⟨(m.collect envs (values.filterMap Value.objectId?)).1, (m.collect envs (values.filterMap Value.objectId?)).2,
    rfl, hfreed, ?_, ?_⟩
  · rw [collect_count]
    exact hfreed.count hpresent.1 hpresent.2
  · have hagain := @Owned.collect_collect _ _ (values.filterMap Value.objectId?) h.toOwned
      fun env hk => hpresent.1 env (kept_le_reached.1 env hk)
    rw [collect_count, hagain, Nat.sub_self]

/-- A list that is still wanted when the frame that owns it has been left. -/
def outliving : Memory :=
  (initial.create "frame" (some .global)).2.withObject ⟨1⟩ { name := "frame", tail := some .global } (.list [])

theorem collect_frees_unreachable_outliving : outliving.Whole ∧ (∀ id ∈ ([] : List EnvId), outliving.Present id) ∧
    (∀ w ∈ [Value.list ⟨0⟩], w.Stored outliving.store) ∧
    ∃ m', outliving.collect [] ([Value.list ⟨0⟩].filterMap Value.objectId?) = (1, m') ∧
      outliving.Freed [] [.list ⟨0⟩] m' ∧ m'.store.owner? ⟨0⟩ = some .global := by
  have hmade := initial_wellFormed.create "frame" initial_wellFormed.present_global
  have hframe : (initial.create "frame" (some .global)).2.environment? ⟨1⟩ =
      some { name := "frame", tail := some .global } := by cbv
  have hempty : (initial.create "frame" (some .global)).2.Holds (.list []) := by
    intro w hw
    cases hw
  have hwhole : outliving.Whole := (hmade.withObject hframe hempty).whole
  have hroots : ∀ id ∈ ([] : List EnvId), outliving.Present id := fun _ hi => by cases hi
  have hvalues : ∀ w ∈ [Value.list ⟨0⟩], w.Stored outliving.store := by
    intro w hw k hk
    obtain rfl := List.mem_singleton.mp hw
    obtain rfl := Option.some.inj hk
    cbv
  obtain ⟨count, m', hc, hfreed, -, -⟩ := collect_frees_unreachable hwhole hroots hvalues
  have hcount : (outliving.collect [] ([Value.list ⟨0⟩].filterMap Value.objectId?)).1 = 1 := by cbv
  have howner : (outliving.collect [] ([Value.list ⟨0⟩].filterMap Value.objectId?)).2.store.owner? ⟨0⟩ = some .global := by cbv
  rw [hc] at hcount howner
  exact ⟨hwhole, hroots, hvalues, m', hcount ▸ hc, hfreed, howner⟩

end Memory
end CseMachine
