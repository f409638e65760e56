import CseMachine.Proofs.Memory.Deeds
import CseMachine.Proofs.Memory.Survivors

/-!
# What stays the same

Numbers are given out once. So whatever a later memory has under a number that was
given out before was there before, and of that only closures without a name and the
bindings and heaps of frames change.
-/
namespace CseMachine

/-- The closure is the same, or it has got its name. -/
def Closure.Becomes (c c' : Closure) : Prop :=
  c' = c ∨ c.declaredName = none ∧ ∃ name, c' = { c with declaredName := some name }

/-- Lists stay as they are, and closures but for their name. -/
inductive Content.Becomes : Content → Content → Prop
  | list (items : List Value) : Becomes (.list items) (.list items)
  | closure {c c' : Closure} (named : c.Becomes c') : Becomes (.closure c) (.closure c')

/-- A frame has kept all but its heap and the bindings, of which it is said what they may become. -/
structure Environment.Becomes (R : List (String × Slot) → List (String × Slot) → Prop) (e e' : Environment) : Prop where
  name : e'.name = e.name
  tail : e'.tail = e.tail
  callSite : e'.callSite = e.callSite
  bindings : e'.bindings = e.bindings ∨ R e.bindings e'.bindings

namespace Closure.Becomes

variable {c c' c'' : Closure}

theorem refl (c : Closure) : c.Becomes c := .inl rfl

/-- A name is never given up for another one. -/
theorem eq_of_named (h : c.Becomes c') (hn : c.declaredName ≠ none) : c' = c :=
  h.resolve_right fun hc => hn hc.1

theorem trans (h : c.Becomes c') (h' : c'.Becomes c'') : c.Becomes c'' := by
  rcases h with rfl | ⟨hn, name, rfl⟩
  · exact h'
  · exact .inr ⟨hn, name, h'.eq_of_named nofun⟩

theorem nameOnce (c : Closure) (name : String) : c.Becomes (c.nameOnce name) := by
  obtain ⟨func, env, run, predefined, declaredName, span⟩ := c
  cases declaredName with
  | none => exact .inr ⟨rfl, name, rfl⟩
  | some old => exact .inl rfl

end Closure.Becomes

namespace Content.Becomes

theorem refl (content : Content) : content.Becomes content := by
  cases content with
  | closure c => exact .closure (.refl c)
  | list items => exact .list items

theorem trans {o o' o'' : Content} (h : o.Becomes o') (h' : o'.Becomes o'') : o.Becomes o'' := by
  cases h with
  | list items => exact h'
  | closure named =>
    cases h' with
    | closure named' => exact .closure (named.trans named')

end Content.Becomes

namespace Environment.Becomes

variable {R : List (String × Slot) → List (String × Slot) → Prop} {e e' e'' : Environment}

theorem refl (e : Environment) : e.Becomes R e := ⟨rfl, rfl, rfl, .inl rfl⟩

theorem of_core (h : e'.core = e.core) : e.Becomes R e' := by
  cases e
  cases e'
  cases h
  exact ⟨rfl, rfl, rfl, .inl rfl⟩

theorem trans (hR : ∀ {b b' b''}, R b b' → R b' b'' → R b b'') (h : e.Becomes R e') (h' : e'.Becomes R e'') :
    e.Becomes R e'' := by
  refine ⟨h'.name.trans h.name, h'.tail.trans h.tail, h'.callSite.trans h.callSite, ?_⟩
  rcases h'.bindings with hb' | hb'
  · rw [hb']
    exact h.bindings
  · rcases h.bindings with hb | hb
    · exact .inr (hb ▸ hb')
    · exact .inr (hR hb hb')

theorem mono {R' : List (String × Slot) → List (String × Slot) → Prop} (h : e.Becomes R e')
    (hR : ∀ {b b'}, R b b' → R' b b') : e.Becomes R' e' :=
  ⟨h.name, h.tail, h.callSite, h.bindings.imp_right hR⟩

end Environment.Becomes

namespace Memory

variable {B : EnvId → List (String × Slot) → List (String × Slot) → Prop} {m m' m'' : Memory}

/-- What the later memory has under a number of the earlier one was there and is the same, but for
what the bindings of frames may become. -/
structure Keeps (B : EnvId → List (String × Slot) → List (String × Slot) → Prop) (m m' : Memory) : Prop where
  nextEnv : m.nextEnv ≤ m'.nextEnv
  nextObject : m.store.next ≤ m'.store.next
  frame : ∀ {id e'}, id.index < m.nextEnv → m'.environment? id = some e' →
    ∃ e, m.environment? id = some e ∧ e.Becomes (B id) e'
  object : ∀ {id o'}, id.index < m.store.next → m'.store.get? id = some o' →
    ∃ o, m.store.get? id = some o ∧ o.content.Becomes o'.content

namespace Keeps

theorem refl (m : Memory) : m.Keeps B m :=
  ⟨Nat.le_refl _, Nat.le_refl _, fun _ he => ⟨_, he, .refl _⟩, fun _ ho => ⟨_, ho, .refl _⟩⟩

theorem trans (hB : ∀ {id b b' b''}, B id b b' → B id b' b'' → B id b b'') (h : m.Keeps B m') (h' : m'.Keeps B m'') :
    m.Keeps B m'' := by
  refine ⟨Nat.le_trans h.nextEnv h'.nextEnv, Nat.le_trans h.nextObject h'.nextObject, fun hi he => ?_, fun hi ho => ?_⟩
  · obtain ⟨e', he', hb'⟩ := h'.frame (Nat.lt_of_lt_of_le hi h.nextEnv) he
    obtain ⟨e, he, hb⟩ := h.frame hi he'
    exact ⟨e, he, hb.trans hB hb'⟩
  · obtain ⟨o', ho', hc'⟩ := h'.object (Nat.lt_of_lt_of_le hi h.nextObject) ho
    obtain ⟨o, ho, hc⟩ := h.object hi ho'
    exact ⟨o, ho, hc.trans hc'⟩

theorem mono {B' : EnvId → List (String × Slot) → List (String × Slot) → Prop} (h : m.Keeps B m')
    (hB : ∀ {id b b'}, B id b b' → B' id b b') : m.Keeps B' m' := by
  refine ⟨h.nextEnv, h.nextObject, fun hi he => ?_, h.object⟩
  obtain ⟨e, he, hb⟩ := h.frame hi he
  exact ⟨e, he, hb.mono hB⟩

theorem survives (h : m.Keeps B m') (hs : m'.Survives m'') : m.Keeps B m'' := by
  refine ⟨Nat.le_trans h.nextEnv (Nat.le_of_eq hs.nextEnv.symm), Nat.le_trans h.nextObject (Nat.le_of_eq hs.nextObject.symm),
    fun hi he => ?_, fun hi ho => ?_⟩
  · obtain ⟨e', he', hcore⟩ := hs.frame he
    obtain ⟨e, he, hb⟩ := h.frame hi he'
    have hsame := Environment.Becomes.of_core (R := fun _ _ => False) hcore
    have hbindings := hsame.bindings.resolve_right not_false
    exact ⟨e, he, hsame.name.trans hb.name, hsame.tail.trans hb.tail, hsame.callSite.trans hb.callSite, hbindings ▸ hb.bindings⟩
  · obtain ⟨o', ho', hcontent⟩ := hs.object ho
    obtain ⟨o, ho, hc⟩ := h.object hi ho'
    exact ⟨o, ho, hcontent ▸ hc⟩

theorem of_survives (hs : m.Survives m') : m.Keeps B m' := (refl m).survives hs

/-- One more deed is within the limits if what it makes of the frames that were there at first is. -/
theorem deed {F : EnvId → Environment → Environment → Prop} {M : Content → Prop} (h : m.Keeps B m') (hd : Deed F M m' m'')
    (hB : ∀ {id b b' b''}, B id b b' → B id b' b'' → B id b b'')
    (hF : ∀ {env e e'}, F env e e' → env.index < m.nextEnv → e.Becomes (B env) e') : m.Keeps B m'' := by
  cases hd with
  | frame found becomes =>
    refine ⟨h.nextEnv, h.nextObject, fun hi he => ?_, h.object⟩
    rcases environment?_of_setEnvironment he with ⟨rfl, rfl⟩ | he
    · obtain ⟨e, he, hb⟩ := h.frame hi found
      exact ⟨e, he, hb.trans hB (hF becomes hi)⟩
    · exact h.frame hi he
  | create name tail =>
    refine ⟨Nat.le_succ_of_le h.nextEnv, h.nextObject, fun hi he => ?_, h.object⟩
    rcases environment?_of_create he with ⟨rfl, -⟩ | he
    · exact absurd hi (Nat.not_lt.mpr h.nextEnv)
    · exact h.frame hi he
  | object env made =>
    refine ⟨h.nextEnv, Nat.le_succ_of_le h.nextObject, h.frame, fun hi ho => ?_⟩
    rcases get?_of_stored ho with ⟨rfl, -⟩ | ho
    · exact absurd hi (Nat.not_lt.mpr h.nextObject)
    · exact h.object hi ho
  | name id name =>
    refine ⟨h.nextEnv, h.nextObject, h.frame, fun hi ho => ?_⟩
    rw [get?_nameClosure] at ho
    obtain ⟨o', ho', rfl⟩ := Option.map_eq_some_iff.mp ho
    obtain ⟨o, ho, hc⟩ := h.object hi ho'
    refine ⟨o, ho, hc.trans ?_⟩
    rcases o' with ⟨owner, c | items⟩
    · dsimp only
      split
      · exact .closure (.nameOnce c name)
      · exact .refl _
    · dsimp only
      split <;> exact .refl _
  | count allocated => exact ⟨h.nextEnv, h.nextObject, h.frame, h.object⟩

end Keeps

/-- Lists, closures and frames that are still there are the same, but for the name of a closure
without one and the bindings of frames, of which it is said what they may become. -/
structure Preserves (B : EnvId → List (String × Slot) → List (String × Slot) → Prop) (m m' : Memory) : Prop where
  list : ∀ {id items}, m.store.list? id = some items → (m'.store.get? id).isSome → m'.store.list? id = some items
  closure : ∀ {id c}, m.store.closure? id = some c → (m'.store.get? id).isSome →
    ∃ c', m'.store.closure? id = some c' ∧ c.Becomes c'
  frame : ∀ {id e e'}, m.environment? id = some e → m'.environment? id = some e' → e.Becomes (B id) e'

theorem Keeps.preserves (h : m.Keeps B m') (hl : m.Linked) : m.Preserves B m' := by
  have hobject : ∀ {id o}, m.store.get? id = some o → (m'.store.get? id).isSome →
      ∃ o', m'.store.get? id = some o' ∧ o.content.Becomes o'.content := by
    intro id o ho hs
    obtain ⟨o', ho'⟩ := Option.isSome_iff_exists.mp hs
    obtain ⟨o₁, ho₁, hc⟩ := h.object (hl.objectIds id o ho) ho'
    cases ho.symm.trans ho₁
    exact ⟨o', ho', hc⟩
  refine ⟨fun {id items} hi hs => ?_, fun {id c} hc hs => ?_, fun {id e e'} he he' => ?_⟩
  · obtain ⟨owner, ho⟩ := Store.list?_eq_some.mp hi
    obtain ⟨⟨owner', content'⟩, ho', hb⟩ := hobject ho hs
    cases hb
    exact Store.list?_eq_some.mpr ⟨owner', ho'⟩
  · obtain ⟨owner, ho⟩ := Store.closure?_eq_some.mp hc
    obtain ⟨⟨owner', content'⟩, ho', hb⟩ := hobject ho hs
    cases hb with
    | closure named => exact ⟨_, Store.closure?_eq_some.mpr ⟨owner', ho'⟩, named⟩
  · obtain ⟨e₁, he₁, hb⟩ := h.frame (hl.envIds id (Option.isSome_iff_exists.mpr ⟨e, he⟩)) he'
    cases he.symm.trans he₁
    exact hb

end Memory
end CseMachine
