import CseMachine.Proofs.Memory.Operations

/-!
# What a collection keeps

Marking reaches all that it starts from, and with an id all that the id links
to. So the marks are a closed set, and what a collection leaves agrees with what
was there on all that is marked.
-/
namespace CseMachine

namespace Marks

variable {envs : Std.ExtTreeMap EnvId Environment} {objects : Std.ExtTreeMap ObjId Object}
  {marks : Marks} {envWork : List EnvId} {objWork : List ObjId}

/-- The marked ids as a set. -/
def live (marks : Marks) : Live := ⟨(· ∈ marks.envs), (· ∈ marks.objects)⟩

theorem live_insertEnv (marks : Marks) (id : EnvId) :
    ({ marks with envs := marks.envs.insert id } : Marks).live = marks.live.addEnv id := by
  simp only [live, Live.addEnv, Std.ExtTreeSet.mem_insert, Std.LawfulEqOrd.compare_eq_iff_eq]

theorem live_insertObject (marks : Marks) (id : ObjId) :
    ({ marks with objects := marks.objects.insert id } : Marks).live = marks.live.addObject id := by
  simp only [live, Live.addObject, Std.ExtTreeSet.mem_insert, Std.LawfulEqOrd.compare_eq_iff_eq]

section

variable {α β : Type} [Ord α] [Std.TransOrd α] {table : Std.ExtTreeMap α β} {id k : α} {w : β}

/-- Taking out one id leaves the others. -/
theorem getElem?_erase_of_ne [Std.LawfulEqOrd α] (h : id ≠ k) : (table.erase id)[k]? = table[k]? := by
  rw [Std.ExtTreeMap.getElem?_erase, if_neg (by rwa [Std.LawfulEqOrd.compare_eq_iff_eq])]

theorem getElem?_of_erase (h : (table.erase id)[k]? = some w) : table[k]? = some w := by
  rw [Std.ExtTreeMap.getElem?_erase] at h
  split at h
  · cases h
  · exact h

end

/-- Marks are never taken back, and all that is pending gets marked. -/
theorem spread_reaches :
    marks.live ≤ (spread envs objects marks envWork objWork).live ∧
      (∀ id ∈ envWork, (spread envs objects marks envWork objWork).live.envs id) ∧
      ∀ id ∈ objWork, (spread envs objects marks envWork objWork).live.objects id := by
  fun_induction spread envs objects marks envWork objWork with
  | case1 envs objects marks id envWork objWork marks' h ih =>
    obtain ⟨hm, he, ho⟩ := ih
    rw [live_insertEnv] at hm
    refine ⟨Live.le_trans (marks.live.le_addEnv id) hm, ?_, ho⟩
    intro k hk
    rcases List.mem_cons.mp hk with rfl | hk
    · exact hm.1 _ (.inl rfl)
    · exact he k hk
  | case2 envs objects marks id envWork objWork marks' e h _ ih =>
    obtain ⟨hm, he, ho⟩ := ih
    rw [live_insertEnv] at hm
    refine ⟨Live.le_trans (marks.live.le_addEnv id) hm, ?_, fun k hk =>
      ho k (List.mem_append_right _ hk)⟩
    intro k hk
    rcases List.mem_cons.mp hk with rfl | hk
    · exact hm.1 _ (.inl rfl)
    · exact he k (List.mem_append_right _ hk)
  | case3 envs objects marks id objWork marks' h ih =>
    obtain ⟨hm, he, ho⟩ := ih
    rw [live_insertObject] at hm
    refine ⟨Live.le_trans (marks.live.le_addObject id) hm, he, ?_⟩
    intro k hk
    rcases List.mem_cons.mp hk with rfl | hk
    · exact hm.2 _ (.inl rfl)
    · exact ho k hk
  | case4 envs objects marks id objWork marks' o h _ ih =>
    obtain ⟨hm, he, ho⟩ := ih
    rw [live_insertObject] at hm
    refine ⟨Live.le_trans (marks.live.le_addObject id) hm, fun k hk => (by cases hk), ?_⟩
    intro k hk
    rcases List.mem_cons.mp hk with rfl | hk
    · exact hm.2 _ (.inl rfl)
    · exact ho k (List.mem_append_right _ hk)
  | case5 envs objects marks =>
    exact ⟨marks.live.le_refl, fun k hk => (by cases hk), fun k hk => (by cases hk)⟩

/-- What an id that gets marked links to gets marked too: when it is marked first it is still in the
map, and its links become pending. -/
theorem spread_links :
    (∀ id e, (spread envs objects marks envWork objWork).live.envs id → ¬ marks.live.envs id →
      envs[id]? = some e →
        (∀ t, e.tail = some t → (spread envs objects marks envWork objWork).live.envs t) ∧
          ∀ o ∈ e.handles, (spread envs objects marks envWork objWork).live.objects o) ∧
      ∀ id o, (spread envs objects marks envWork objWork).live.objects id → ¬ marks.live.objects id →
        objects[id]? = some o → o.content.Within (spread envs objects marks envWork objWork).live := by
  fun_induction spread envs objects marks envWork objWork with
  | case1 envs objects marks id envWork objWork marks' h ih =>
    obtain ⟨he, ho⟩ := ih
    rw [live_insertEnv] at he
    refine ⟨fun k e hk hn hke => ?_, ho⟩
    have hne : id ≠ k := by
      rintro rfl
      rw [h] at hke
      cases hke
    exact he k e hk (fun hm => hm.elim hne hn) hke
  | case2 envs objects marks id envWork objWork marks' e h _ ih =>
    obtain ⟨he, ho⟩ := ih
    rw [live_insertEnv] at he
    refine ⟨fun k e' hk hn hke => ?_, ho⟩
    by_cases hid : id = k
    · subst hid
      rw [h] at hke
      obtain rfl := Option.some.inj hke
      obtain ⟨_, hre, hro⟩ := @spread_reaches (envs.erase id) objects marks'
        (e.tail.toList ++ envWork) (e.handles ++ objWork)
      exact ⟨fun t ht => hre t (List.mem_append_left _ (Option.mem_toList.mpr ht)),
        fun o ho => hro o (List.mem_append_left _ ho)⟩
    · apply he k e' hk (fun hm => hm.elim hid hn)
      rw [getElem?_erase_of_ne hid, hke]
  | case3 envs objects marks id objWork marks' h ih =>
    obtain ⟨he, ho⟩ := ih
    rw [live_insertObject] at ho
    refine ⟨he, fun k o hk hn hko => ?_⟩
    have hne : id ≠ k := by
      rintro rfl
      rw [h] at hko
      cases hko
    exact ho k o hk (fun hm => hm.elim hne hn) hko
  | case4 envs objects marks id objWork marks' o h _ ih =>
    obtain ⟨he, ho⟩ := ih
    rw [live_insertObject] at ho
    refine ⟨he, fun k o' hk hn hko => ?_⟩
    by_cases hid : id = k
    · subst hid
      rw [h] at hko
      obtain rfl := Option.some.inj hko
      obtain ⟨_, hre, hro⟩ := @spread_reaches envs (objects.erase id) marks'
        o.content.links.1 (o.content.links.2 ++ objWork)
      exact ⟨hre, fun j hj => hro j (List.mem_append_left _ hj)⟩
    · apply ho k o' hk (fun hm => hm.elim hid hn)
      rw [getElem?_erase_of_ne hid, hko]
  | case5 envs objects marks =>
    exact ⟨fun k e hk hn => absurd hk hn, fun k o hk hn => absurd hk hn⟩

end Marks

namespace Memory

variable {L : Live} {m m₁ m₂ : Memory} {envs : List EnvId} {objects : List ObjId}

/-- All that a collection with the roots keeps. -/
def kept (m : Memory) (envs : List EnvId) (objects : List ObjId) : Live :=
  (m.reachable envs objects).live

theorem kept_env {id : EnvId} (h : id ∈ .global :: m.active ++ envs) : (m.kept envs objects).envs id :=
  Marks.spread_reaches.2.1 id h

theorem kept_object {id : ObjId} (h : id ∈ objects) : (m.kept envs objects).objects id :=
  Marks.spread_reaches.2.2 id h

theorem not_live_empty : (∀ id, ¬ ({} : Marks).live.envs id) ∧ ∀ id, ¬ ({} : Marks).live.objects id :=
  ⟨fun _ => Std.ExtTreeSet.not_mem_empty, fun _ => Std.ExtTreeSet.not_mem_empty⟩

theorem closed_kept : m.Closed (m.kept envs objects) :=
  ⟨fun id e t hi he ht => (Marks.spread_links.1 id e hi (not_live_empty.1 id) he).1 t ht,
    fun id e o hi he ho => (Marks.spread_links.1 id e hi (not_live_empty.1 id) he).2 o ho,
    fun id o t hi ho ht => (Marks.spread_links.2 id o hi (not_live_empty.2 id) ho).1 t ht,
    fun id o k hi ho hk => (Marks.spread_links.2 id o hi (not_live_empty.2 id) ho).2 k hk⟩

theorem agreeOn_rehome (live : EnvId → Bool) (m : Memory) (id : ObjId) :
    AgreeOn .all m (m.rehome live id) := by
  simp only [rehome]
  split
  · split
    · exact .refl _ m
    · exact agreeOn_move m id _
  · exact .refl _ m

theorem agreeOn_foldl_rehome (live : EnvId → Bool) (ids : List ObjId) (m : Memory) :
    AgreeOn .all m (ids.foldl (rehome live) m) := by
  induction ids generalizing m with
  | nil => exact .refl _ m
  | cons id ids ih => exact (agreeOn_rehome live m id).trans (ih (m.rehome live id))

/-- What is marked stays as it is but for what the heaps list. -/
theorem agreeOn_sweep (m : Memory) (marks : Marks) : AgreeOn marks.live m (m.sweep marks) := by
  refine ⟨rfl, rfl, rfl, fun id hi => ?_, fun id hi => ?_⟩
  · have hc : marks.envs.contains id = true := Std.ExtTreeSet.contains_iff_mem.mpr hi
    simp only [environment?, sweep, Std.ExtTreeMap.getElem?_map, Std.ExtTreeMap.getElem?_filter']
    cases m.environments[id]? with
    | none => rfl
    | some e => simp only [Option.filter_some, hc, if_true, Option.map_some, Environment.core]
  · have hc : marks.objects.contains id = true := Std.ExtTreeSet.contains_iff_mem.mpr hi
    simp only [Store.get?, sweep, Store.filter, Std.ExtTreeMap.getElem?_filter']
    cases m.store.objects[id]? with
    | none => rfl
    | some o => simp only [Option.filter_some, hc, if_true, Option.map_some]

theorem agreeOn_collect (m : Memory) (envs : List EnvId) (objects : List ObjId) :
    AgreeOn (m.kept envs objects) m (m.collect envs objects).2 := by
  have hh := agreeOn_foldl_rehome (m.reachable envs objects).envs.contains
    (m.reachable envs objects).objects.toList m
  have hs := agreeOn_sweep ((m.reachable envs objects).objects.toList.foldl
    (rehome (m.reachable envs objects).envs.contains) m) (m.reachable envs objects)
  have ha := (hh.mono (Live.le_all _)).trans hs
  exact ⟨ha.nextEnv, ha.nextObject, ha.active, ha.frames, ha.contents⟩

/-- A collection on one side is not seen from the other. -/
theorem Agree.collect (h : Agree L m₁ m₂) (envs : List EnvId) (objects : List ObjId) :
    Agree (L.meet (m₁.kept envs objects)) (m₁.collect envs objects).2 m₂ := by
  have hc := agreeOn_collect m₁ envs objects
  have ha : AgreeOn (L.meet (m₁.kept envs objects)) m₁ (m₁.collect envs objects).2 :=
    hc.mono (Live.meet_le_right _ _)
  refine ⟨ha.symm.trans (h.toAgreeOn.mono (Live.meet_le_left _ _)), (h.closed.meet closed_kept).congr ha,
    ⟨h.global, kept_env (.head _)⟩, fun id hi => ⟨h.activeLive id (hc.active ▸ hi), ?_⟩⟩
  rw [← hc.active] at hi
  exact kept_env (List.mem_append_left _ (.tail _ hi))

end Memory
end CseMachine
