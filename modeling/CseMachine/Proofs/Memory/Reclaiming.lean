import CseMachine.Proofs.Memory.Marking
import CseMachine.Proofs.Memory.WellFormed

/-!
# Collections of well-formed memories

Marking stays within every closed set that holds its roots, so in a well-formed
memory no id is marked that names no environment. Then an object whose owner is
about to be freed can always be given to an environment that stays, and what a
collection leaves is well formed.
-/
namespace CseMachine

namespace Marks

variable {envs : Std.ExtTreeMap EnvId Environment} {objects : Std.ExtTreeMap ObjId Object}
  {marks : Marks} {envWork : List EnvId} {objWork : List ObjId} {L : Live} {m : Memory}

/-- Only what has to be is marked. The induction is on the marking: what is taken out of the maps
stays in the memory that they come from, in which the set is closed. -/
theorem spread_least (hc : m.Closed L) (henvs : ∀ id e, envs[id]? = some e → m.environment? id = some e)
    (hobjects : ∀ id o, objects[id]? = some o → m.store.get? id = some o) (hm : marks.live ≤ L)
    (he : ∀ id ∈ envWork, L.envs id) (ho : ∀ id ∈ objWork, L.objects id) :
    (spread envs objects marks envWork objWork).live ≤ L := by
  have haddEnv : ∀ {marks : Marks} {id}, marks.live ≤ L → L.envs id → marks.live.addEnv id ≤ L :=
    fun hm hid => ⟨fun k hk => hk.elim (fun h => h ▸ hid) (hm.1 k), hm.2⟩
  have haddObject : ∀ {marks : Marks} {id}, marks.live ≤ L → L.objects id → marks.live.addObject id ≤ L :=
    fun hm hid => ⟨hm.1, fun k hk => hk.elim (fun h => h ▸ hid) (hm.2 k)⟩
  fun_induction spread envs objects marks envWork objWork with
  | case1 envs objects marks id envWork objWork marks' h ih =>
    have hid := he id (.head _)
    have hm' : marks'.live ≤ L := by
      rw [live_insertEnv]
      exact haddEnv hm hid
    exact ih henvs hobjects hm' (fun k hk => he k (.tail _ hk)) ho
  | case2 envs objects marks id envWork objWork marks' e h _ ih =>
    have hid := he id (.head _)
    have hm' : marks'.live ≤ L := by
      rw [live_insertEnv]
      exact haddEnv hm hid
    refine ih (fun k f hk => henvs k f (getElem?_of_erase hk)) hobjects hm' (fun k hk => ?_) fun k hk => ?_
    · rcases List.mem_append.mp hk with hk | hk
      · exact hc.tail id e k hid (henvs id e h) (Option.mem_toList.mp hk)
      · exact he k (.tail _ hk)
    · rcases List.mem_append.mp hk with hk | hk
      · exact hc.handle id e k hid (henvs id e h) hk
      · exact ho k hk
  | case3 envs objects marks id objWork marks' h ih =>
    have hid := ho id (.head _)
    have hm' : marks'.live ≤ L := by
      rw [live_insertObject]
      exact haddObject hm hid
    exact ih henvs hobjects hm' he fun k hk => ho k (.tail _ hk)
  | case4 envs objects marks id objWork marks' o h _ ih =>
    have hid := ho id (.head _)
    have hm' : marks'.live ≤ L := by
      rw [live_insertObject]
      exact haddObject hm hid
    refine ih henvs (fun k f hk => hobjects k f (getElem?_of_erase hk)) hm' (fun k hk => ?_) fun k hk => ?_
    · exact hc.closureEnv id o k hid (hobjects id o h) hk
    · rcases List.mem_append.mp hk with hk | hk
      · exact hc.element id o k hid (hobjects id o h) hk
      · exact ho k (.tail _ hk)
  | case5 envs objects marks => exact hm

end Marks

namespace Memory

variable {m m' : Memory} {envs : List EnvId} {objects : List ObjId} {L : Live} {live : EnvId → Bool} {lost lost' : Set ObjId}

theorem kept_least (hc : m.Closed L) (he : ∀ id ∈ .global :: m.active ++ envs, L.envs id)
    (ho : ∀ id ∈ objects, L.objects id) : m.kept envs objects ≤ L :=
  Marks.spread_least hc (fun _ _ h => h) (fun _ _ h => h)
    ⟨fun id h => absurd h (not_live_empty.1 id), fun id h => absurd h (not_live_empty.2 id)⟩ he ho

/-- What there is is closed. -/
theorem Linked.closed_present (h : m.Linked) : m.Closed ⟨m.Present, fun _ => True⟩ := by
  refine ⟨fun id e t _ he ht => ?_, fun _ _ _ _ _ _ => trivial, fun id o t _ ho ht => ?_, fun _ _ _ _ _ _ => trivial⟩
  · by_cases hid : id = .global
    · obtain ⟨g, hg, hgt⟩ := h.global
      rw [hid, hg] at he
      obtain rfl := Option.some.inj he
      cases hgt.symm.trans ht
    · obtain ⟨t', ht', hp, -⟩ := h.tail id e he hid
      obtain rfl := Option.some.inj (ht'.symm.trans ht)
      exact hp
  · obtain ⟨owner, c | items⟩ := o
    · obtain rfl := List.mem_singleton.mp ht
      exact h.captured id c (Store.closure?_eq_some.mpr ⟨owner, ho⟩)
    · cases ht

theorem Linked.present_of_kept (h : m.Linked) (he : ∀ id ∈ envs, m.Present id) {id : EnvId}
    (hk : (m.kept envs objects).envs id) : m.Present id := by
  refine (kept_least h.closed_present (fun k hk => ?_) fun _ _ => trivial).1 id hk
  rcases List.mem_append.mp hk with hk | hk
  · rcases List.mem_cons.mp hk with rfl | hk
    · exact h.present_global
    · exact h.active k hk
  · exact he k hk

/-! New owners -/

theorem nearestLive_live (hg : live .global = true) (steps : Nat) (id : Option EnvId) :
    live (m.nearestLive live steps id) = true := by
  induction steps generalizing id with
  | zero => exact hg
  | succ steps ih =>
    cases id with
    | none => exact hg
    | some id =>
      simp only [nearestLive]
      split
      · next hid => exact hid
      · exact ih _

/-- The object has an owner that stays. -/
def Housed (m : Memory) (live : EnvId → Bool) (id : ObjId) : Prop :=
  ∀ owner, m.store.owner? id = some owner → live owner = true

theorem OwnedBut.move_eq (h : m.OwnedBut lost) {id : ObjId} {owner target : EnvId} (hl : id ∉ lost)
    (ho : m.store.owner? id = some owner) (hne : owner ≠ target) (hp : m.Present target) :
    ∃ giver taker, m.move id target = m.handOver id owner target giver taker := by
  obtain ⟨o, hobj, rfl⟩ := owner?_eq_some.mp ho
  obtain ⟨giver, hg, hi⟩ := h.owner id o hobj hl
  obtain ⟨taker, ht⟩ := Option.isSome_iff_exists.mp hp
  refine ⟨giver, taker, ?_⟩
  have hgive : giver.heap.moveTo? id taker.heap =
      some (⟨giver.heap.items.erase id⟩, taker.heap.insert id) := if_pos (Std.ExtTreeSet.contains_iff_mem.mpr hi)
  simp only [Memory.move, Memory.move?, ho, Option.bind_eq_bind, Option.bind_some, hne, if_false, ht, hg, hgive]
  rfl

/-- Who is not there, or has nothing in its heap, neither takes nor gives. -/
theorem move_eq_self {id : ObjId} {target : EnvId} (h : ∀ owner giver, m.store.owner? id = some owner →
    m.environment? owner = some giver → id ∈ giver.heap.items → ¬m.Present target) : m.move id target = m := by
  simp only [Memory.move]
  cases hm : m.move? id target with
  | none => rfl
  | some m' =>
    obtain ⟨owner, giver, taker, -, ho, hg, ht, hi, -⟩ := move?_eq_some hm
    exact absurd (Option.isSome_iff_exists.mpr ⟨taker, ht⟩) (h owner giver ho hg hi)

theorem owner?_move_of_ne {id k : ObjId} {target : EnvId} (hne : id ≠ k) :
    (m.move id target).store.owner? k = m.store.owner? k := by
  simp only [Memory.move]
  cases hm : m.move? id target with
  | none => rfl
  | some m' =>
    obtain ⟨owner, giver, taker, -, -, -, -, -, rfl⟩ := move?_eq_some hm
    refine (owner?_setOwner m.store id target k).trans ?_
    rw [if_neg hne]

/-- The owner that an object is to have once all that is not live is gone. -/
def heir (m : Memory) (live : EnvId → Bool) (id : ObjId) : Option EnvId :=
  (m.store.owner? id).map fun owner =>
    if live owner then owner else m.nearestLive live (m.nextEnv + 1) ((m.environment? owner).bind (·.tail))

theorem heir_live (hg : live .global = true) {id : ObjId} {env : EnvId} (h : m.heir live id = some env) :
    live env = true := by
  obtain ⟨owner, -, rfl⟩ := Option.map_eq_some_iff.mp h
  by_cases hl : live owner = true
  · rw [if_pos hl]
    exact hl
  · rw [if_neg hl]
    exact nearestLive_live hg _ _

/-- The way outwards is the same in memories that look the same. -/
theorem tail_eq_of_agreeOn (ha : AgreeOn .all m m') (id : EnvId) :
    (m'.environment? id).bind (·.tail) = (m.environment? id).bind (·.tail) := by
  rcases @AgreeOn.environment?_cases .all m m' ha id trivial with ⟨h, h'⟩ | ⟨e, heap, h, h'⟩
  · rw [h, h']
  · rw [h, h']
    rfl

theorem nearestLive_congr (ha : AgreeOn .all m m') (steps : Nat) (id : Option EnvId) :
    m'.nearestLive live steps id = m.nearestLive live steps id := by
  induction steps generalizing id with
  | zero => rfl
  | succ steps ih =>
    cases id with
    | none => rfl
    | some id => simp only [nearestLive, tail_eq_of_agreeOn ha, ih]

theorem heir_congr (ha : AgreeOn .all m m') {id : ObjId} (ho : m'.store.owner? id = m.store.owner? id) :
    m'.heir live id = m.heir live id := by
  simp only [heir, ho, ← ha.nextEnv, tail_eq_of_agreeOn ha, nearestLive_congr ha]

/-- An object whose owner is live is its own owner's heir. -/
theorem heir_eq_owner {id : ObjId} {owner : EnvId} (ho : m.store.owner? id = some owner) (hl : live owner = true) :
    m.heir live id = some owner := by
  simp only [heir, ho, Option.map_some, hl, if_true]

/-- The heir of an object is there to take it. -/
def hasHeir (m : Memory) (live : EnvId → Bool) (id : ObjId) : Bool :=
  (m.heir live id).any fun env => (m.environment? env).isSome

theorem hasHeir_iff {id : ObjId} {env : EnvId} (hh : m.heir live id = some env) : m.hasHeir live id = true ↔ m.Present env := by
  rw [hasHeir, hh]
  exact Iff.rfl

theorem hasHeir_congr (ha : AgreeOn .all m m') {id : ObjId} (hh : m'.heir live id = m.heir live id) :
    m'.hasHeir live id = m.hasHeir live id := by
  rw [hasHeir, hasHeir, hh]
  congr 1
  funext env
  exact Bool.eq_iff_iff.mpr (ha.present trivial).symm

/-- An object whose owner is about to be freed is offered to its heir. -/
theorem rehome_eq_move {id : ObjId} {owner : EnvId} (ho : m.store.owner? id = some owner) (hl : ¬live owner = true) :
    ∃ target, m.heir live id = some target ∧ m.rehome live id = m.move id target := by
  refine ⟨m.nearestLive live (m.nextEnv + 1) ((m.environment? owner).bind (·.tail)), ?_, ?_⟩
  · rw [heir, ho, Option.map_some, if_neg hl]
  · rw [rehome, ho]
    exact if_neg hl

/-- An object whose owner stays is left where it is. -/
theorem rehome_eq_self {id : ObjId} (h : m.Housed live id) : m.rehome live id = m := by
  simp only [rehome]
  split
  · next owner ho => rw [if_pos (h owner ho)]
  · rfl

namespace OwnedBut

variable (h : m.OwnedBut lost)
include h

theorem rehome (id : ObjId) : (m.rehome live id).OwnedBut lost := by
  simp only [Memory.rehome]
  split
  · split
    · exact h
    · exact h.move id _
  · exact h

/-- The object gets its heir as owner if the heir is there, and no other object changes hands. -/
theorem owner?_rehome (hg : live .global = true) (id : ObjId) {k : ObjId} (hk : k ∉ lost) :
    (m.rehome live id).store.owner? k = if id = k ∧ m.hasHeir live k = true then m.heir live k else m.store.owner? k := by
  by_cases hhoused : m.Housed live id
  · rw [rehome_eq_self hhoused]
    split
    · next hid =>
      obtain ⟨rfl, hheir⟩ := hid
      cases ho : m.store.owner? id with
      | none => rw [heir, ho, Option.map_none]
      | some owner => rw [heir_eq_owner ho (hhoused owner ho)]
    · rfl
  · simp only [Housed, not_forall] at hhoused
    obtain ⟨owner, ho, hl⟩ := hhoused
    obtain ⟨target, hheir, hmove⟩ := rehome_eq_move ho hl
    rw [hmove]
    have hne : owner ≠ target := fun heq => hl (heq ▸ heir_live hg hheir)
    by_cases hp : m.Present target
    · by_cases hid : id = k
      · subst hid
        obtain ⟨giver, taker, hm⟩ := h.move_eq hk ho hne hp
        rw [if_pos ⟨rfl, (hasHeir_iff hheir).mpr hp⟩, hm, hheir]
        refine (owner?_setOwner m.store id target id).trans ?_
        rw [if_pos rfl, ho]
        rfl
      · rw [if_neg fun hc => hid hc.1]
        exact owner?_move_of_ne hid
    · rw [move_eq_self fun _ _ _ _ _ => hp, if_neg]
      rintro ⟨rfl, hhas⟩
      exact hp ((hasHeir_iff hheir).mp hhas)

/-- Giving one object to its heir leaves the heirs of all objects as they are. -/
theorem heir_rehome (hg : live .global = true) (id : ObjId) {k : ObjId} (hk : k ∉ lost) :
    (m.rehome live id).heir live k = m.heir live k := by
  have ho := h.owner?_rehome hg id hk
  split at ho
  · cases hheir : m.heir live k with
    | none =>
      rw [hheir] at ho
      simp only [heir, ho, Option.map_none]
    | some env =>
      rw [hheir] at ho
      exact heir_eq_owner ho (heir_live hg hheir)
  · exact heir_congr (agreeOn_rehome live m id) ho

theorem foldl_rehome (hg : live .global = true) (ids : List ObjId) :
    (ids.foldl (Memory.rehome live) m).OwnedBut lost ∧ ∀ k ∉ lost, (ids.foldl (Memory.rehome live) m).store.owner? k =
      if k ∈ ids ∧ m.hasHeir live k = true then m.heir live k else m.store.owner? k := by
  induction ids generalizing m with
  | nil => exact ⟨h, fun k _ => by rw [if_neg fun hc => List.not_mem_nil hc.1]; rfl⟩
  | cons id ids ih =>
    obtain ⟨hw, hh⟩ := ih (h.rehome id)
    refine ⟨hw, fun k hk => ?_⟩
    rw [List.foldl_cons, hh k hk, hasHeir_congr (agreeOn_rehome live m id) (h.heir_rehome hg id hk), h.heir_rehome hg id hk,
      h.owner?_rehome hg id hk]
    simp only [List.mem_cons, eq_comm (a := k)]
    by_cases hhas : m.hasHeir live k = true
    · by_cases hid : id = k
      · simp only [hid, hhas, true_or, if_true, and_true, ite_self]
      · simp only [hid, hhas, false_or, if_false, and_true]
    · simp only [hhas, and_false, if_false, Bool.false_eq_true]

end OwnedBut

theorem Owned.foldl_rehome (h : m.Owned) (hg : live .global = true) (hp : ∀ env, live env = true → m.Present env)
    (ids : List ObjId) : (ids.foldl (Memory.rehome live) m).Owned ∧
      ∀ k, (ids.foldl (Memory.rehome live) m).store.owner? k = if k ∈ ids then m.heir live k else m.store.owner? k := by
  obtain ⟨hw, hh⟩ := h.but.foldl_rehome hg ids
  refine ⟨hw.owned, fun k => ?_⟩
  rw [hh k nofun]
  cases hheir : m.heir live k with
  | none =>
    rw [Option.map_eq_none_iff.mp hheir, ite_self, ite_self]
  | some env => simp only [(hasHeir_iff hheir).mpr (hp env (heir_live hg hheir)), and_true]

/-! Sweeping -/

theorem environment?_sweep (m : Memory) (marks : Marks) (id : EnvId) :
    (m.sweep marks).environment? id = if marks.envs.contains id then
      (m.environment? id).map fun e => { e with heap := e.heap.filter marks.objects.contains } else none := by
  simp only [environment?, sweep, Std.ExtTreeMap.getElem?_map, Std.ExtTreeMap.getElem?_filter']
  cases m.environments[id]? with
  | none =>
    split <;> rfl
  | some e =>
    simp only [Option.filter_some]
    split <;> rfl

theorem get?_sweep (m : Memory) (marks : Marks) (id : ObjId) :
    (m.sweep marks).store.get? id = if marks.objects.contains id then m.store.get? id else none := by
  simp only [Store.get?, sweep, Store.filter, Std.ExtTreeMap.getElem?_filter']
  cases m.store.objects[id]? with
  | none => split <;> rfl
  | some o =>
    simp only [Option.filter_some]

theorem mem_filter {heap : Heap} {keep : ObjId → Bool} {id : ObjId} :
    id ∈ (heap.filter keep).items ↔ id ∈ heap.items ∧ keep id = true := by
  simp only [Heap.filter]
  rw [← Std.ExtTreeSet.mem_toList, Std.ExtTreeSet.toList_filter, List.mem_filter, Std.ExtTreeSet.mem_toList]

section

variable {marks : Marks}

theorem environment?_of_sweep {id : EnvId} {f : Environment} (hf : (m.sweep marks).environment? id = some f) :
    marks.live.envs id ∧ ∃ e, m.environment? id = some e ∧ f = { e with heap := e.heap.filter marks.objects.contains } := by
  rw [environment?_sweep] at hf
  split at hf
  · next hi =>
    obtain ⟨e, he, rfl⟩ := Option.map_eq_some_iff.mp hf
    exact ⟨Std.ExtTreeSet.contains_iff_mem.mp hi, e, he, rfl⟩
  · cases hf

theorem get?_of_sweep {id : ObjId} {o : Object} (ho : (m.sweep marks).store.get? id = some o) :
    marks.live.objects id ∧ m.store.get? id = some o := by
  rw [get?_sweep] at ho
  split at ho
  · next hm => exact ⟨Std.ExtTreeSet.contains_iff_mem.mp hm, ho⟩
  · cases ho

/-- Sweeping breaks no link if all links of what is marked stay within the marks. -/
theorem Linked.sweep (h : m.Linked) (hc : m.Closed marks.live) (hg : marks.live.envs .global)
    (ha : ∀ id ∈ m.active, marks.live.envs id) : (m.sweep marks).Linked where
  global := by
    obtain ⟨e, he, ht⟩ := h.global
    obtain ⟨heap, he'⟩ := (agreeOn_sweep m marks).environment?_some hg he
    exact ⟨_, he', ht⟩
  outermost := h.outermost
  nodup := h.nodup
  active := fun id hi => ((agreeOn_sweep m marks).present (ha id hi)).mp (h.active id hi)
  envIds := by
    intro id hi
    obtain ⟨f, hf⟩ := Option.isSome_iff_exists.mp hi
    obtain ⟨-, e, he, -⟩ := environment?_of_sweep hf
    exact h.envIds id (Option.isSome_iff_exists.mpr ⟨e, he⟩)
  objectIds := fun id o hi => h.objectIds id o (get?_of_sweep hi).2
  tail := by
    intro id f hf hne
    obtain ⟨hi, e, he, rfl⟩ := environment?_of_sweep hf
    obtain ⟨t, ht, hp, hlt⟩ := h.tail id e he hne
    exact ⟨t, ht, ((agreeOn_sweep m marks).present (hc.tail id e t hi he ht)).mp hp, hlt⟩
  bound := by
    intro id f b w hf hb hw
    obtain ⟨hi, e, he, rfl⟩ := environment?_of_sweep hf
    have hin : w.Within marks.live.objects :=
      fun o hid => hc.handle id e o hi he (Environment.mem_handles.mpr ⟨b, hb, w, hw, hid⟩)
    exact ((agreeOn_sweep m marks).resolves hin).mp (h.bound id e b w he hb hw)
  element := by
    intro id items hi w hw
    obtain ⟨owner, ho⟩ := Store.list?_eq_some.mp hi
    obtain ⟨hm, hget⟩ := get?_of_sweep ho
    have hlist := Store.list?_eq_some.mpr ⟨owner, hget⟩
    obtain ⟨hr, hlt⟩ := h.element id items hlist w hw
    exact ⟨((agreeOn_sweep m marks).resolves (hc.list hm hlist w hw)).mp hr, hlt⟩
  captured := by
    intro id c hi
    obtain ⟨owner, ho⟩ := Store.closure?_eq_some.mp hi
    obtain ⟨hm, hget⟩ := get?_of_sweep ho
    have hclosure := Store.closure?_eq_some.mpr ⟨owner, hget⟩
    exact ((agreeOn_sweep m marks).present (hc.closure hm hclosure)).mp (h.captured id c hclosure)

/-- Heaps and owners go on matching but for the objects that are marked while their owner is not. -/
theorem OwnedBut.sweep (h : m.OwnedBut lost) (hle : lost ⊆ lost')
    (ho : ∀ id, marks.live.objects id → id ∉ lost → (id ∉ lost' ↔ m.Housed marks.envs.contains id)) :
    (m.sweep marks).OwnedBut lost' where
  owner := by
    intro id o hi hl
    obtain ⟨hm, hget⟩ := get?_of_sweep hi
    obtain ⟨e, he, hin⟩ := h.owner id o hget (mt (hle ·) hl)
    refine ⟨{ e with heap := e.heap.filter marks.objects.contains }, ?_,
      mem_filter.mpr ⟨hin, Std.ExtTreeSet.contains_iff_mem.mpr hm⟩⟩
    have hhoused := (ho id hm (mt (hle ·) hl)).mp hl
    rw [environment?_sweep, if_pos (hhoused o.owner (owner?_eq_some.mpr ⟨o, hget, rfl⟩)), he]
    rfl
  listed := by
    intro env f id hf hi
    obtain ⟨hlive, e, he, rfl⟩ := environment?_of_sweep hf
    obtain ⟨hin, hm⟩ := mem_filter.mp hi
    obtain ⟨howner, hl⟩ := h.listed env e id he hin
    obtain ⟨o, hget, howns⟩ := owner?_eq_some.mp howner
    refine ⟨owner?_eq_some.mpr ⟨o, ?_, howns⟩, (ho id (Std.ExtTreeSet.contains_iff_mem.mp hm) hl).mpr ?_⟩
    · rw [get?_sweep, if_pos hm, hget]
    · intro owner howner'
      obtain rfl := Option.some.inj (howner.symm.trans howner')
      exact Std.ExtTreeSet.contains_iff_mem.mpr hlive

end

/-- What is there after a collection was marked. -/
theorem kept_of_present_collect {id : EnvId} (h : (m.collect envs objects).2.Present id) : (m.kept envs objects).envs id := by
  obtain ⟨e, he⟩ := Option.isSome_iff_exists.mp h
  exact (environment?_of_sweep he).1

/-- The marked objects whose heirs are not there. -/
def heirless (m : Memory) (envs : List EnvId) (objects : List ObjId) : Set ObjId :=
  {id | (m.kept envs objects).objects id ∧
    ∃ env, m.heir (m.reachable envs objects).envs.contains id = some env ∧ ¬m.Present env}

/-- A collection leaves every object in the heap of its owner but those for which there is no heir. -/
theorem OwnedBut.collect (h : m.OwnedBut lost) : (m.collect envs objects).2.OwnedBut (lost ∪ m.heirless envs objects) := by
  have hg : (m.reachable envs objects).envs.contains .global = true :=
    Std.ExtTreeSet.contains_iff_mem.mpr (kept_env (.head _))
  obtain ⟨hw, hh⟩ := h.foldl_rehome hg (m.reachable envs objects).objects.toList
  have hs := @OwnedBut.sweep _ lost (lost ∪ m.heirless envs objects) (m.reachable envs objects) hw
    Set.subset_union_left fun id hi hl => by
    have howner := hh id hl
    have hpending : id ∈ (m.reachable envs objects).objects.toList := Std.ExtTreeSet.mem_toList.mpr hi
    constructor
    · intro hheirs owner ho
      rw [howner] at ho
      split at ho
      · exact heir_live hg ho
      · next hnone =>
        -- without a heir there would be one that is not there
        obtain ⟨env, hheir⟩ := Option.isSome_iff_exists.mp ((Option.isSome_map ..).trans (Option.isSome_of_mem ho))
        exact absurd (.inr ⟨hi, env, hheir, fun hp => hnone ⟨hpending, (hasHeir_iff hheir).mpr hp⟩⟩) hheirs
    · rintro hhoused (hlost | ⟨-, env, hheir, habsent⟩)
      · exact hl hlost
      · rw [if_neg fun hc => habsent ((hasHeir_iff hheir).mp hc.2)] at howner
        obtain ⟨owner, ho, -⟩ := Option.map_eq_some_iff.mp hheir
        obtain rfl := Option.some.inj (hheir.symm.trans (heir_eq_owner ho (hhoused owner (howner.trans ho))))
        obtain ⟨o, hget, rfl⟩ := owner?_eq_some.mp ho
        obtain ⟨e, he, -⟩ := h.owner id o hget hl
        exact habsent (Option.isSome_iff_exists.mpr ⟨e, he⟩)
  exact ⟨hs.owner, hs.listed⟩

/-- It leaves every object in the heap of its owner if there is nothing marked that is not there. -/
theorem Owned.collect (h : m.Owned) (hp : ∀ env, (m.kept envs objects).envs env → m.Present env) :
    (m.collect envs objects).2.Owned := by
  have hg : (m.reachable envs objects).envs.contains .global = true :=
    Std.ExtTreeSet.contains_iff_mem.mpr (kept_env (.head _))
  have hnone : m.heirless envs objects = ∅ := by
    refine Set.eq_empty_of_forall_notMem fun id hi => ?_
    obtain ⟨-, env, hheir, habsent⟩ := hi
    exact habsent (hp env (Std.ExtTreeSet.contains_iff_mem.mp (heir_live hg hheir)))
  have hc := @OwnedBut.collect _ envs objects _ h.but
  rw [hnone, Set.union_self] at hc
  exact hc.owned

theorem WellFormed.recount (h : m.WellFormed) (allocated threshold : Nat) :
    ({ m with allocated, threshold } : Memory).WellFormed :=
  ⟨⟨h.global, h.outermost, h.nodup, h.active, h.envIds, h.objectIds, h.tail, h.bound, h.element, h.captured⟩,
    h.owner, h.listed⟩

/-- A collection leaves the memory well formed if its roots are there. -/
theorem WellFormed.collect (h : m.WellFormed) (he : ∀ id ∈ envs, m.Present id) (objects : List ObjId) :
    (m.collect envs objects).2.WellFormed := by
  have hagree := agreeOn_foldl_rehome (m.reachable envs objects).envs.contains
    (m.reachable envs objects).objects.toList m
  have hactive : ∀ id ∈ m.active, (m.kept envs objects).envs id :=
    fun id hi => kept_env (List.mem_append_left _ (.tail _ hi))
  have hl := (h.toLinked.congr hagree).sweep (closed_kept.congr (hagree.mono (Live.le_all _))) (kept_env (.head _))
    (hagree.active ▸ hactive)
  have ho : (m.collect envs objects).2.Owned := h.toOwned.collect fun env hk => h.present_of_kept he hk
  exact WellFormed.recount ⟨hl, ho.owner, ho.listed⟩ _ _

/-! A second collection -/

theorem filter_filter (heap : Heap) (keep : ObjId → Bool) : (heap.filter keep).filter keep = heap.filter keep := by
  refine congrArg Heap.mk (Std.ExtTreeSet.ext_mem fun id => ?_)
  have hagain : id ∈ ((heap.filter keep).filter keep).items ↔ id ∈ (heap.filter keep).items ∧ keep id = true := mem_filter
  exact hagain.trans (and_iff_left_of_imp fun hm => (mem_filter.mp hm).2)

theorem filter_filter_tree (t : EnvTree) (keep : EnvId → Bool) : (t.filter keep).filter keep = t.filter keep := by
  simp only [EnvTree.filter]
  congr 1
  refine Std.ExtTreeMap.ext_getElem? fun id => ?_
  simp only [Std.ExtTreeMap.getElem?_map, Std.ExtTreeMap.getElem?_filter']
  cases t.nodes[id]? with
  | none => rfl
  | some node =>
    by_cases hk : keep id = true
    · simp only [Option.filter_some, hk, if_true, Option.map_some, List.filter_filter, Bool.and_self]
    · simp only [Option.filter_some, hk, Bool.false_eq_true, if_false, Option.map_none, Option.filter_none]

/-- What was swept with some marks is not changed by sweeping with the same ids marked. -/
theorem sweep_sweep (m : Memory) {marks marks' : Marks} (he : marks'.envs.contains = marks.envs.contains)
    (ho : marks'.objects.contains = marks.objects.contains) : (m.sweep marks).sweep marks' = m.sweep marks := by
  have henvs : ((m.sweep marks).sweep marks').environments = (m.sweep marks).environments := by
    refine Std.ExtTreeMap.ext_getElem? fun id => ?_
    show ((m.sweep marks).sweep marks').environment? id = (m.sweep marks).environment? id
    rw [environment?_sweep, environment?_sweep, he, ho]
    split
    · rw [Option.map_map]
      congr 1
      funext e
      simp only [Function.comp_apply, filter_filter]
    · rfl
  have hobjects : ((m.sweep marks).sweep marks').store.objects = (m.sweep marks).store.objects := by
    refine Std.ExtTreeMap.ext_getElem? fun id => ?_
    show ((m.sweep marks).sweep marks').store.get? id = (m.sweep marks).store.get? id
    rw [get?_sweep, get?_sweep, ho]
    split <;> rfl
  have htree : ((m.sweep marks).sweep marks').tree = (m.sweep marks).tree := by
    simp only [sweep, he]
    exact filter_filter_tree _ _
  have hstore : ((m.sweep marks).sweep marks').store = (m.sweep marks).store :=
    congrArg (Store.mk · m.store.next) hobjects
  simp only [sweep] at henvs htree hstore ⊢
  rw [henvs, htree, hstore]

/-- A collection keeps what the one before kept. -/
theorem kept_collect (m : Memory) (envs : List EnvId) (objects : List ObjId) :
    (m.collect envs objects).2.kept envs objects ≤ m.kept envs objects ∧
      m.kept envs objects ≤ (m.collect envs objects).2.kept envs objects := by
  have ha := agreeOn_collect m envs objects
  have hle : (m.collect envs objects).2.kept envs objects ≤ m.kept envs objects := by
    refine kept_least (closed_kept.congr ha) (fun id hi => ?_) fun id hi => kept_object hi
    exact kept_env (ha.active ▸ hi)
  refine ⟨hle, kept_least (closed_kept.congr (ha.mono hle).symm) (fun id hi => ?_) fun id hi => kept_object hi⟩
  exact kept_env (ha.active ▸ hi)

theorem foldl_rehome_eq_self (h : ∀ id, m.Housed live id) (ids : List ObjId) : ids.foldl (rehome live) m = m := by
  induction ids with
  | nil => rfl
  | cons id ids ih =>
    rw [List.foldl_cons, rehome_eq_self (h id)]
    exact ih

theorem collect_of_housed (h : ∀ id, m.Housed (m.reachable envs objects).envs.contains id) :
    (m.collect envs objects).2 = { m.sweep (m.reachable envs objects) with
      allocated := 0
      threshold := max minThreshold (2 * (m.sweep (m.reachable envs objects)).population) } := by
  simp only [collect, foldl_rehome_eq_self h]

/-- After a collection there is nothing left to collect. -/
theorem Owned.collect_collect (h : m.Owned) (hp : ∀ env, (m.kept envs objects).envs env → m.Present env) :
    ((m.collect envs objects).2.collect envs objects).2 = (m.collect envs objects).2 := by
  have hw := h.collect hp
  obtain ⟨hle, hge⟩ := kept_collect m envs objects
  have henvs : ((m.collect envs objects).2.reachable envs objects).envs.contains =
      (m.reachable envs objects).envs.contains := by
    funext id
    rw [Bool.eq_iff_iff, Std.ExtTreeSet.contains_iff_mem, Std.ExtTreeSet.contains_iff_mem]
    exact ⟨hle.1 id, hge.1 id⟩
  have hobjects : ((m.collect envs objects).2.reachable envs objects).objects.contains =
      (m.reachable envs objects).objects.contains := by
    funext id
    rw [Bool.eq_iff_iff, Std.ExtTreeSet.contains_iff_mem, Std.ExtTreeSet.contains_iff_mem]
    exact ⟨hle.2 id, hge.2 id⟩
  -- every owner that is left was marked, so the second collection moves no object
  have hhoused : ∀ id, (m.collect envs objects).2.Housed (m.reachable envs objects).envs.contains id := by
    intro id owner ho
    obtain ⟨o, hget, rfl⟩ := owner?_eq_some.mp ho
    obtain ⟨e, he', -⟩ := hw.owner id o hget
    by_contra hn
    have hnone : (m.collect envs objects).2.environment? o.owner = none := by
      refine (environment?_sweep _ _ _).trans ?_
      rw [if_neg hn]
    cases hnone.symm.trans he'
  have hsweep : (m.collect envs objects).2.sweep ((m.collect envs objects).2.reachable envs objects) =
      (m.collect envs objects).2 := by
    have hs := sweep_sweep ((m.reachable envs objects).objects.toList.foldl
      (Memory.rehome (m.reachable envs objects).envs.contains) m) henvs hobjects
    have hs' := congrArg (fun swept : Memory => { swept with
      allocated := (m.collect envs objects).2.allocated, threshold := (m.collect envs objects).2.threshold }) hs
    exact hs'
  have hhoused' : ∀ id, (m.collect envs objects).2.Housed
      ((m.collect envs objects).2.reachable envs objects).envs.contains id := henvs ▸ hhoused
  rw [collect_of_housed hhoused', hsweep]
  rfl

end Memory
end CseMachine
