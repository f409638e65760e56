import CseMachine.Proofs.Memory.Keeping
import CseMachine.Proofs.Termination

/-!
# A step changes only what it owns

Frames and objects are shared by their numbers, so what one step does to them is seen
wherever the number is. Of all that was there a step changes the bindings of one frame
at most, and it may name one closure. Whatever is still there after a run has kept all
but its bindings and the name that it had not got.
-/
namespace CseMachine

open Relation (ReflTransGen)
open Memory (Keeps Preserves Survives)

namespace Item.Rebinds

variable {m : Memory} {item : Item} {env env' : EnvId} {b b' b'' d d' : List (String × Slot)}

/-- Who overwrites a name again has only overwritten it. -/
theorem replace_replace (name : String) (slot slot' : Slot) (bindings : List (String × Slot)) :
    Environment.replace name slot' (Environment.replace name slot bindings) = Environment.replace name slot' bindings := by
  simp only [Environment.replace, List.map_map]
  refine List.map_congr_left fun b _ => ?_
  obtain ⟨n, s⟩ := b
  simp only [Function.comp_apply]
  split <;> rfl

theorem trans (h : item.Rebinds m env b b') (h' : item.Rebinds m env b' b'') : item.Rebinds m env b b'' := by
  cases h with
  | declared w bound =>
    cases h' with
    | declared w' =>
      rw [replace_replace]
      exact .declared w' bound
  | assigned w found notConstant bound =>
    cases h' with
    | assigned w' =>
      rw [replace_replace]
      exact .assigned w' found notConstant bound
  | @added span declarations made body bindings among once new =>
    cases h' with
    | @added _ _ made' _ _ among' once' new' =>
      have hlookup : ∀ d ∈ made', b.lookup d.name = none ∧ (Memory.declaredSlots made).lookup d.name = none := by
        intro d hd
        have hnone := new' d hd
        rw [List.lookup_append, Option.or_eq_none_iff] at hnone
        exact hnone
      have hapart : List.Disjoint (made.map (·.name)) (made'.map (·.name)) := by
        intro name hn hn'
        obtain ⟨d, hd, rfl⟩ := List.mem_map.mp hn'
        obtain ⟨d₁, hd₁, heq⟩ := List.mem_map.mp hn
        have hne := List.lookup_eq_none_iff.mp (hlookup d hd).2 _ (List.mem_map.mpr ⟨d₁, hd₁, rfl⟩)
        simp [heq] at hne
      have honce : ((made ++ made').map (·.name)).Nodup := by
        rw [List.map_append]
        exact List.nodup_append'.mpr ⟨once, once', hapart⟩
      have hnew : ∀ d ∈ made ++ made', b.lookup d.name = none :=
        fun d hd => (List.mem_append.mp hd).elim (new d) fun hd => (hlookup d hd).1
      have hslots : Memory.declaredSlots (made ++ made') = Memory.declaredSlots made ++ Memory.declaredSlots made' :=
        List.map_append
      rw [List.append_assoc, ← hslots]
      exact .added (List.append_subset.mpr ⟨among, among'⟩) honce hnew

/-- An item changes the bindings of one frame. -/
theorem unique (h : item.Rebinds m env b b') (h' : item.Rebinds m env' d d') : env = env' := by
  cases h with
  | declared => cases h'; rfl
  | added => cases h'; rfl
  | assigned w found =>
    cases h' with
    | assigned w' found' =>
      cases found.symm.trans found'
      rfl

end Item.Rebinds

namespace Context

variable {c d : Context} {m : Memory} {item : Item}

theorem keeps_of_deeds (h : m.Keeps (item.Rebinds m) c.memory) (hd : ReflTransGen (Deed m item) c d) :
    m.Keeps (item.Rebinds m) d.memory := by
  induction hd with
  | refl => exact h
  | @tail e _ _ hd ih =>
    cases hd with
    | active active => exact ih.survives (.withActive e.memory active)
    | memory deed =>
      refine ih.deed deed (fun hb hb' => hb.trans hb') fun hc hi => ?_
      rcases hc with ⟨hn, -⟩ | ⟨bindings, heap, rfl, hb⟩
      · exact absurd hi (Nat.not_lt.mpr hn)
      · exact ⟨rfl, rfl, rfl, hb⟩
    | _ => exact ih

/-- An item keeps what was there, whether it fails or not. -/
theorem WellFormed.keeps_execute (h : c.WellFormed) (item : Item) : match Action.execute item c with
    | .ok _ d => c.memory.Keeps (item.Rebinds c.memory) d.memory
    | .error _ d => c.memory.Keeps (item.Rebinds c.memory) d.memory := by
  refine of_execute (P := fun d => c.memory.Keeps (item.Rebinds c.memory) d.memory)
    (E := fun _ d => c.memory.Keeps (item.Rebinds c.memory) d.memory) h.stash item (fun hd => ?_) (fun hs => ?_) fun _ hd => hd
  · exact keeps_of_deeds (.refl _) hd
  · exact .of_survives hs

/-- So does the collection that may follow. -/
theorem WellFormed.keeps_advance (h : c.WellFormed) (ha : c.advance? = some (item, d)) :
    c.memory.Keeps (item.Rebinds c.memory) d.memory := by
  have hexecuted : ∀ rest, c.control.pop? = some (item, rest) → match Action.execute item (c.taken rest) with
      | .ok _ e => c.memory.Keeps (item.Rebinds c.memory) e.memory
      | .error _ e => c.memory.Keeps (item.Rebinds c.memory) e.memory :=
    fun rest hp => (h.taken hp).keeps_execute item
  refine of_advance? ha hexecuted (fun {e} he => ?_) fun he => he
  exact he.survives e.survives_collectGarbage

theorem survives_finish (c : Context) : c.memory.Survives c.finish.memory := by
  obtain ⟨m, hs, hm⟩ := c.settle_eq
  simp only [finish, hs]
  exact hm

/-- What the next item may make of the bindings of a frame. -/
def Rebinds (c : Context) (env : EnvId) (bindings bindings' : List (String × Slot)) : Prop :=
  ∃ item rest, c.control.pop? = some (item, rest) ∧ item.Rebinds c.memory env bindings bindings'

theorem Rebinds.unique {env env' : EnvId} {b b' d d' : List (String × Slot)} (h : c.Rebinds env b b')
    (h' : c.Rebinds env' d d') : env = env' := by
  obtain ⟨item, rest, hp, hr⟩ := h
  obtain ⟨item', rest', hp', hr'⟩ := h'
  cases hp.symm.trans hp'
  exact hr.unique hr'

theorem WellFormed.keeps_step (h : c.WellFormed) : c.memory.Keeps c.Rebinds c.step.2.memory := by
  rcases c.step_cases with hs | ⟨-, ⟨item, ha⟩ | ⟨-, hs⟩⟩
  · rw [hs]
    exact .refl _
  · obtain ⟨rest, -, hp, -⟩ := advance?_eq_some ha
    exact (h.keeps_advance ha).mono fun hb => ⟨item, rest, hp, hb⟩
  · rw [hs]
    exact .of_survives c.survives_finish

/-! Runs -/

/-- A caller makes this of the context with one call. -/
def Calls (c d : Context) : Prop := ∃ call reply, c.perform call = some (reply, d)

/-- The bindings of frames may become anything. -/
abbrev Anyhow (_ : EnvId) (_ _ : List (String × Slot)) : Prop := True

theorem keeps_kept (m : Memory) : Kept fun d => d.WellFormed ∧ m.Keeps Anyhow d.memory where
  advanced h _ ha :=
    ⟨h.1.advance ha, h.2.trans (fun _ _ => trivial) ((h.1.keeps_advance ha).mono fun _ => trivial)⟩
  finished {c} h _ _ := ⟨h.1.settle.congr rfl (fun _ hw => .inl hw) (fun _ hi => hi) rfl, h.2.survives c.survives_finish⟩
  suspended h _ := ⟨h.1.congr rfl (fun _ hw => .inl hw) (fun _ hi => hi) rfl, h.2⟩

theorem WellFormed.keeps_calls (h : c.WellFormed) (hc : ReflTransGen Calls c d) :
    d.WellFormed ∧ c.memory.Keeps Anyhow d.memory := by
  induction hc with
  | refl => exact ⟨h, .refl _⟩
  | @tail d e _ hcall ih =>
    obtain ⟨call, reply, hp⟩ := hcall
    exact (keeps_kept c.memory).perform (fun program h => ⟨h.1.load program, (memory_load _ program).symm ▸ h.2⟩) ih hp

end Context

namespace Setup

variable {s : Setup} {run : RunId} {c : Context}

/-- In whatever context a step is taken, and whether it fails or not: what is still there after it is what it was, but
that a closure may get its one name and that bindings may change as the item says. They change in one frame at most,
and the frame that a name resolves to is the nearest that has it. What is still there after any calls is what it was
but for the names of closures that had none and the bindings of frames. -/
theorem reachable_preserves (h : s.Reachable run c) :
    c.memory.Preserves c.Rebinds c.step.2.memory ∧
      (∀ {env env' e e' f f'}, c.memory.environment? env = some e → c.step.2.memory.environment? env = some f →
        c.memory.environment? env' = some e' → c.step.2.memory.environment? env' = some f' →
          f.bindings ≠ e.bindings → f'.bindings ≠ e'.bindings → env = env') ∧
      (∀ name, c.memory.Finds name c.memory.current (c.memory.resolve name)) ∧
      ∀ d, ReflTransGen Context.Calls c d → c.memory.Preserves Context.Anyhow d.memory := by
  have hw := h.wellFormed
  have hstep := hw.keeps_step.preserves hw.memory.toLinked
  refine ⟨hstep, fun he hf he' hf' hne hne' => ?_, fun name => hw.memory.finds_resolve name, fun d hd => ?_⟩
  · have hb := (hstep.frame he hf).bindings.resolve_left hne
    have hb' := (hstep.frame he' hf').bindings.resolve_left hne'
    exact hb.unique hb'
  · exact (hw.keeps_calls hd).2.preserves hw.memory.toLinked

/-- `x = lambda: 1` as a tree. -/
def namedLambda : Node :=
  .program ⟨0, 13⟩ [⟨"x", false⟩]
    [.assign ⟨0, 13⟩ "x" (.lambda ⟨4, 13⟩ ⟨none, [], .ret ⟨12, 13⟩ (some (.literal ⟨12, 13⟩ (.int 1))), []⟩) true]

/-- The assignment gives the closure its name and the program's frame another binding. -/
theorem reachable_preserves_namedLambda :
    ∃ c, Reachable {} ⟨0⟩ c ∧ c.memory.Preserves c.Rebinds c.step.2.memory ∧
      (c.memory.store.closure? ⟨0⟩).map (·.declaredName) = some none ∧
      (c.step.2.memory.store.closure? ⟨0⟩).map (·.declaredName) = some (some "x") ∧
      (c.memory.environment? ⟨1⟩).map (·.bindings) = some [("x", ⟨none, false⟩)] ∧
      (c.step.2.memory.environment? ⟨1⟩).map (·.bindings) = some [("x", ⟨some (.closure ⟨0⟩), false⟩)] := by
  have hstart : Reachable {} ⟨0⟩ (.fresh ⟨0⟩) := .started (newContext_eq none 0 ⟨0⟩)
  have hmade := (hstart.loaded namedLambda).stepped.stepped.stepped
  exact ⟨_, hmade, (reachable_preserves hmade).1, rfl, rfl, rfl, rfl⟩

end Setup
end CseMachine
