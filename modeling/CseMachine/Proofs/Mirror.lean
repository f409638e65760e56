import CseMachine.Proofs.Lasting

/-!
# The tree of environments

The tree is an index of the tails, kept beside the environments. It gets a leaf where an
environment is made, and of the environments that a collection frees it forgets the nodes
and the places among children. It stays true since the tail of a new environment is there
and since marks are closed under tails: no environment outlives the one that encloses it.
-/
namespace CseMachine

namespace EnvTree

variable {t : EnvTree} {env parent : EnvId}

/-! A leaf more -/

theorem contains_iff : t.contains env = true ↔ (t.nodes[env]?).isSome := by
  rw [contains, Std.ExtTreeMap.contains_iff_mem, Std.ExtTreeMap.mem_iff_isSome_getElem?]

theorem root_insert (tail : Option EnvId) : (t.insert env tail).root = t.root := by
  cases tail with
  | none => rfl
  | some parent =>
    simp only [insert, insert?]
    split <;> rfl

theorem getElem?_insert (hp : t.contains parent = true) (id : EnvId) : (t.insert env (some parent)).nodes[id]? =
    if env = id then some ⟨some parent, []⟩
    else if parent = id then (t.nodes[id]?).map fun n => { n with children := n.children ++ [env] } else t.nodes[id]? := by
  simp only [insert, insert?, hp, if_true, Option.getD_some, Std.ExtTreeMap.getElem?_insert, Std.ExtTreeMap.getElem?_modify,
    Std.LawfulEqOrd.compare_eq_iff_eq]
  by_cases henv : env = id
  · rw [if_pos henv, if_pos henv]
  · rw [if_neg henv, if_neg henv]
    by_cases hparent : parent = id
    · rw [if_pos hparent, if_pos hparent, hparent]
    · rw [if_neg hparent, if_neg hparent]

theorem contains_insert (hp : t.contains parent = true) (id : EnvId) :
    (t.insert env (some parent)).contains id = true ↔ env = id ∨ t.contains id = true := by
  rw [contains_iff, contains_iff, getElem?_insert hp]
  split
  · next henv => simp [henv]
  · next henv =>
    split
    · simp [henv]
    · simp [henv]

theorem parent?_insert (hp : t.contains parent = true) (id : EnvId) :
    (t.insert env (some parent)).parent? id = if env = id then some parent else t.parent? id := by
  rw [parent?, parent?, getElem?_insert hp]
  split
  · rfl
  · split
    · cases t.nodes[id]? <;> rfl
    · rfl

/-- It is the last child of the node that it is put below. -/
theorem children_insert (hp : t.contains parent = true) (id : EnvId) : (t.insert env (some parent)).children id =
    if env = id then [] else if parent = id then t.children id ++ [env] else t.children id := by
  rw [children, children, getElem?_insert hp]
  split
  · rfl
  · split
    · next hparent =>
      obtain ⟨n, hn⟩ := Option.isSome_iff_exists.mp (contains_iff.mp (hparent ▸ hp))
      rw [hn]
      rfl
    · rfl

theorem mem_children_insert (hp : t.contains parent = true) {id k : EnvId} :
    k ∈ (t.insert env (some parent)).children id ↔ env ≠ id ∧ (k ∈ t.children id ∨ parent = id ∧ k = env) := by
  rw [children_insert hp]
  split
  · next henv => simp [henv]
  · next henv =>
    split
    · next hparent => simp [henv, hparent]
    · next hparent => simp [henv, hparent]

/-! Some nodes only -/

theorem getElem?_filter (keep : EnvId → Bool) (id : EnvId) : (t.filter keep).nodes[id]? =
    if keep id then (t.nodes[id]?).map fun n => { n with children := n.children.filter keep } else none := by
  simp only [filter, Std.ExtTreeMap.getElem?_map, Std.ExtTreeMap.getElem?_filter']
  cases t.nodes[id]? with
  | none => split <;> rfl
  | some n =>
    simp only [Option.filter_some]
    split <;> rfl

theorem contains_filter (keep : EnvId → Bool) (id : EnvId) :
    (t.filter keep).contains id = true ↔ keep id = true ∧ t.contains id = true := by
  rw [contains_iff, contains_iff, getElem?_filter]
  split
  · next hk => simp [hk]
  · next hk => simp [hk]

theorem parent?_filter (keep : EnvId → Bool) {id : EnvId} (hk : keep id = true) : (t.filter keep).parent? id = t.parent? id := by
  rw [parent?, parent?, getElem?_filter, if_pos hk]
  cases t.nodes[id]? <;> rfl

theorem children_filter (keep : EnvId → Bool) (id : EnvId) :
    (t.filter keep).children id = if keep id then (t.children id).filter keep else [] := by
  rw [children, children, getElem?_filter]
  split
  · cases t.nodes[id]? <;> rfl
  · rfl

end EnvTree

namespace Memory

variable {m m' : Memory}

/-- The tree has a node for just the environments there are, each below its tail, with those in
the order of their numbers below it whose tail it is. -/
structure Mirrored (m : Memory) : Prop where
  root : m.tree.root = .global
  nodes : ∀ id, m.tree.contains id = true ↔ m.Present id
  parent : ∀ id e, m.environment? id = some e → m.tree.parent? id = e.tail
  children : ∀ id k, k ∈ m.tree.children id ↔ ∃ e, m.environment? k = some e ∧ e.tail = some id
  ordered : ∀ id, (m.tree.children id).Pairwise fun j k => j.index < k.index

/-- The tail of an environment, if there is such an environment. -/
def tail? (m : Memory) (id : EnvId) : Option (Option EnvId) := (m.environment? id).map (·.tail)

theorem present_iff_tail? {id : EnvId} : m.Present id ↔ (m.tail? id).isSome := by
  rw [Present, tail?, Option.isSome_map]

theorem tail?_eq_some {id : EnvId} {tail : Option EnvId} :
    m.tail? id = some tail ↔ ∃ e, m.environment? id = some e ∧ e.tail = tail := Option.map_eq_some_iff

theorem AgreeOn.tail? (h : AgreeOn .all m m') (id : EnvId) : m'.tail? id = m.tail? id := by
  have hlive : Live.all.envs id := trivial
  rcases h.environment?_cases hlive with ⟨h₁, h₂⟩ | ⟨e, heap, h₁, h₂⟩
  · simp only [Memory.tail?, h₁, h₂]
  · simp only [Memory.tail?, h₁, h₂, Option.map_some]

/-- It is the tails that the tree mirrors. -/
theorem Mirrored.congr (h : m.Mirrored) (htree : m'.tree = m.tree) (htail : ∀ id, m'.tail? id = m.tail? id) : m'.Mirrored where
  root := htree ▸ h.root
  nodes id := by rw [htree, h.nodes, present_iff_tail?, present_iff_tail?, htail]
  parent id e he := by
    obtain ⟨e', he', ht⟩ := tail?_eq_some.mp ((htail id).symm.trans (tail?_eq_some.mpr ⟨e, he, rfl⟩))
    rw [htree, h.parent id e' he', ht]
  children id k := by rw [htree, h.children, ← tail?_eq_some, ← tail?_eq_some, htail]
  ordered id := htree ▸ h.ordered id

theorem mirrored_initial : initial.Mirrored := by
  have hnode : ∀ id : EnvId, initial.tree.nodes[id]? = if EnvId.global = id then some {} else none := by
    intro id
    simp [initial, EnvTree.ofRoot, Std.ExtTreeMap.getElem?_insert]
  have hchildren : ∀ id, initial.tree.children id = [] := by
    intro id
    rw [EnvTree.children, hnode]
    split <;> rfl
  refine ⟨rfl, fun id => ?_, fun id e he => ?_, fun id k => ?_, fun id => ?_⟩
  · rw [EnvTree.contains_iff, hnode, Present, environment?_initial]
    split <;> simp
  · obtain ⟨rfl, rfl⟩ := initial_frame he
    rw [EnvTree.parent?, hnode, if_pos rfl]
    rfl
  · rw [hchildren]
    refine ⟨fun hk => absurd hk List.not_mem_nil, ?_⟩
    rintro ⟨e, he, ht⟩
    obtain ⟨-, rfl⟩ := initial_frame he
    cases ht
  · rw [hchildren]
    exact List.Pairwise.nil

/-! Changes -/

theorem tail?_create (name : String) (tail : Option EnvId) (id : EnvId) :
    (m.create name tail).2.tail? id = if (⟨m.nextEnv⟩ : EnvId) = id then some tail else m.tail? id := by
  rw [tail?, tail?, environment?_create]
  split <;> rfl

theorem tail?_fresh (hw : m.WellFormed) : m.tail? ⟨m.nextEnv⟩ = none := by
  cases ht : m.tail? ⟨m.nextEnv⟩ with
  | none => rfl
  | some tail => exact absurd (present_iff_tail?.mpr (Option.isSome_iff_exists.mpr ⟨tail, ht⟩)) hw.fresh_env

/-- Nothing is enclosed by an environment that is not made yet. -/
theorem tail?_ne_fresh (hw : m.WellFormed) (id : EnvId) : m.tail? id ≠ some (some ⟨m.nextEnv⟩) := by
  intro ht
  obtain ⟨e, he, htail⟩ := tail?_eq_some.mp ht
  have hp : m.Present id := Option.isSome_iff_exists.mpr ⟨e, he⟩
  exact hw.fresh_env (hw.closed_present.tail id e _ hp he htail)

/-- A new environment is the youngest child of its tail. -/
theorem Mirrored.create (h : m.Mirrored) (hw : m.WellFormed) {tail : EnvId} (name : String) (ht : m.Present tail) :
    (m.create name (some tail)).2.Mirrored := by
  have hp := (h.nodes tail).mpr ht
  refine ⟨(EnvTree.root_insert _).trans h.root, fun id => ?_, fun id e he => ?_, fun id k => ?_, fun id => ?_⟩
  · refine (EnvTree.contains_insert hp id).trans ?_
    rw [h.nodes, present_create, eq_comm]
  · refine (EnvTree.parent?_insert hp id).trans ?_
    rcases environment?_of_create he with ⟨rfl, rfl⟩ | hold
    · rw [if_pos rfl]
    · have hne : (⟨m.nextEnv⟩ : EnvId) ≠ id := by
        rintro rfl
        exact hw.fresh_env (Option.isSome_iff_exists.mpr ⟨e, hold⟩)
      rw [if_neg hne, h.parent id e hold]
  · refine (EnvTree.mem_children_insert hp).trans ?_
    rw [h.children, ← tail?_eq_some, ← tail?_eq_some, tail?_create]
    by_cases hk : (⟨m.nextEnv⟩ : EnvId) = k
    · have htail : tail ≠ ⟨m.nextEnv⟩ := by
        rintro rfl
        exact hw.fresh_env ht
      rw [if_pos hk, ← hk, tail?_fresh hw]
      constructor
      · rintro ⟨-, hnone | ⟨rfl, -⟩⟩
        · cases hnone
        · rfl
      · intro hid
        obtain rfl := Option.some.inj (Option.some.inj hid)
        exact ⟨htail.symm, .inr ⟨rfl, rfl⟩⟩
    · rw [if_neg hk]
      constructor
      · rintro ⟨-, hold | ⟨-, hnew⟩⟩
        · exact hold
        · exact absurd hnew.symm hk
      · intro hold
        refine ⟨?_, .inl hold⟩
        rintro rfl
        exact tail?_ne_fresh hw k hold
  · rw [show (m.create name (some tail)).2.tree.children id = _ from EnvTree.children_insert hp id]
    split
    · exact List.Pairwise.nil
    · split
      · refine List.pairwise_append.mpr ⟨h.ordered id, List.pairwise_singleton _ _, fun k hk j hj => ?_⟩
        obtain rfl := List.mem_singleton.mp hj
        obtain ⟨e, he, -⟩ := (h.children id k).mp hk
        exact hw.envIds k (Option.isSome_iff_exists.mpr ⟨e, he⟩)
      · exact h.ordered id

theorem tree_move (m : Memory) (id : ObjId) (target : EnvId) : (m.move id target).tree = m.tree := by
  rw [move]
  cases hm : m.move? id target with
  | none => rfl
  | some m' =>
    obtain ⟨_, _, _, -, -, -, -, -, rfl⟩ := move?_eq_some hm
    rfl

theorem tail?_setEnvironment {env : EnvId} {e e' : Environment} (he : m.environment? env = some e) (ht : e'.tail = e.tail)
    (id : EnvId) : (m.setEnvironment env e').tail? id = m.tail? id := by
  rw [tail?, tail?, environment?_setEnvironment]
  split
  · next hid =>
    subst hid
    rw [he, Option.map_some, Option.map_some, ht]
  · rfl

theorem lasting_mirrored : Lasting Mirrored where
  changed hw hc h := by
    cases hc with
    | frame found tail => exact h.congr rfl (tail?_setEnvironment found tail)
    | create name present => exact h.create hw name present
    | @object env e content found holds =>
      exact h.congr rfl (@tail?_setEnvironment _ env e { e with heap := e.heap.insert _ } found rfl)
    | name => exact h.congr rfl fun _ => rfl
    | move id target => exact h.congr (tree_move _ id target) (agreeOn_move _ id target).tail?
  active _ h := h.congr rfl fun _ => rfl

/-! Collections -/

theorem tree_foldl_rehome (live : EnvId → Bool) (ids : List ObjId) (m : Memory) :
    (ids.foldl (rehome live) m).tree = m.tree := by
  induction ids generalizing m with
  | nil => rfl
  | cons id ids ih =>
    rw [List.foldl_cons, ih, rehome]
    split
    · split
      · rfl
      · exact tree_move m id _
    · rfl

/-- The tree of what is marked mirrors it if the tail of what is marked is marked. -/
theorem Mirrored.sweep {marks : Marks} (h : m.Mirrored) (hc : m.Closed marks.live) : (m.sweep marks).Mirrored := by
  refine ⟨h.root, fun id => ?_, fun id f hf => ?_, fun id k => ?_, fun id => ?_⟩
  · refine (EnvTree.contains_filter _ id).trans ?_
    rw [h.nodes, Present, Present, environment?_sweep]
    split
    · next hid => simp [hid]
    · next hid => simp [hid]
  · obtain ⟨hid, e, he, rfl⟩ := environment?_of_sweep hf
    refine (EnvTree.parent?_filter _ (Std.ExtTreeSet.contains_iff_mem.mpr hid)).trans ?_
    exact h.parent id e he
  · show k ∈ (m.tree.filter marks.envs.contains).children id ↔ _
    rw [EnvTree.children_filter]
    constructor
    · intro hk
      split at hk
      · obtain ⟨hchild, hmarked⟩ := List.mem_filter.mp hk
        obtain ⟨e, he, ht⟩ := (h.children id k).mp hchild
        have hf := environment?_sweep m marks k
        rw [if_pos hmarked, he, Option.map_some] at hf
        exact ⟨_, hf, ht⟩
      · cases hk
    · rintro ⟨f, hf, ht⟩
      obtain ⟨hk, e, he, rfl⟩ := environment?_of_sweep hf
      have hid := hc.tail k e id hk he ht
      rw [if_pos (Std.ExtTreeSet.contains_iff_mem.mpr hid)]
      exact List.mem_filter.mpr ⟨(h.children id k).mpr ⟨e, he, ht⟩, Std.ExtTreeSet.contains_iff_mem.mpr hk⟩
  · show ((m.tree.filter marks.envs.contains).children id).Pairwise _
    rw [EnvTree.children_filter]
    split
    · exact (h.ordered id).filter _
    · exact List.Pairwise.nil

theorem Mirrored.collect (h : m.Mirrored) (envs : List EnvId) (objects : List ObjId) :
    (m.collect envs objects).2.Mirrored := by
  have hagree := agreeOn_foldl_rehome (m.reachable envs objects).envs.contains (m.reachable envs objects).objects.toList m
  have hhomed := h.congr (tree_foldl_rehome _ _ m) hagree.tail?
  have hclosed := closed_kept.congr (hagree.mono (Live.le_all (m.reachable envs objects).live))
  exact (hhomed.sweep hclosed).congr rfl fun _ => rfl

end Memory

/-! Runs -/

namespace Context

theorem mirrored_invariant : Invariant fun c => c.WellFormed ∧ c.memory.Mirrored where
  fresh run hc :=
    ⟨wellFormed_invariant.fresh run hc, Memory.lasting_mirrored.changes Memory.initial_wellFormed hc Memory.mirrored_initial⟩
  loaded program h := ⟨h.1.load program, (memory_load _ program).symm ▸ h.2⟩
  advanced h _ ha := by
    refine ⟨h.1.advance ha, of_advance? (P := fun d => d.memory.Mirrored) ha (fun rest hp => ?_) (fun he => he.collect _ _) id⟩
    exact Memory.lasting_mirrored.execute (h.1.taken hp) _ h.2
  finished h hp hn := ⟨wellFormed_invariant.finished h.1 hp hn, (Memory.lasting_mirrored.returned h.1 h.2).collect _ _⟩
  suspended h := ⟨wellFormed_invariant.suspended h.1, h.2⟩
  predefining predefined h := ⟨wellFormed_invariant.predefining predefined h.1, h.2⟩
  started h := ⟨wellFormed_invariant.started h.1, h.2⟩

end Context

namespace Setup

/-- Whatever trees are loaded and however they are run, the tree shows the environments there are and which
encloses which. -/
theorem reachable_mirrored {s : Setup} {run : RunId} {c : Context} (h : s.Reachable run c) : c.memory.Mirrored :=
  (Context.mirrored_invariant.reachable h).2

/-- Two blocks, one in the other, in a program. -/
def nestedBlocks : Node :=
  .program ⟨0, 4⟩ [] [.block ⟨0, 4⟩ [⟨"x", false⟩] [.block ⟨0, 4⟩ [⟨"y", false⟩] [.pass ⟨0, 4⟩]]]

theorem reachable_mirrored_nestedBlocks : ∃ c, Reachable {} ⟨0⟩ c ∧ c.memory.Mirrored ∧
    c.memory.tree.children .global = [⟨1⟩] ∧ c.memory.tree.children ⟨1⟩ = [⟨2⟩] ∧ c.memory.tree.parent? ⟨3⟩ = some ⟨2⟩ := by
  have hstart : Reachable {} ⟨0⟩ (.fresh ⟨0⟩) := .started (newContext_eq none 0 ⟨0⟩)
  have hentered := (hstart.loaded nestedBlocks).stepped.stepped.stepped
  refine ⟨_, hentered, reachable_mirrored hentered, ?_, ?_, ?_⟩
  · decide +kernel
  · decide +kernel
  · decide +kernel

end Setup
end CseMachine
