import CseMachine.Proofs.Collection
import CseMachine.Proofs.Safety.Runs
import CseMachine.Proofs.Scoping.Parser

/-!
# Safe starts

A fresh context with the builtins can be loaded, and after a prelude that the
parser accepts so can what is left, unless the prelude failed regularly.
-/
namespace CseMachine

namespace Memory

variable {m : Memory} {e : Environment}

/-- What the names of builtins are bound to. -/
def boundSlots (bindings : List (String × Value)) : List (String × Slot) :=
  bindings.map fun (name, w) => (name, ⟨some w, true⟩)

theorem bindAll_ok {bindings : List (String × Value)} (h : m.environment? .global = some e)
    (hd : (bindings.map Prod.fst).Nodup) (hn : ∀ b ∈ bindings, e.lookup? b.1 = none) :
    Setup.bindAll bindings m = .ok () (m.setEnvironment .global (e.extend (boundSlots bindings))) := by
  induction bindings generalizing m e with
  | nil =>
    simp only [boundSlots, List.map_nil, Environment.extend_nil, setEnvironment_self h]
    rfl
  | cons b rest ih =>
    obtain ⟨name, w⟩ := b
    have hfirst := declare_define_ok h (hn (name, w) (.head _)) w true
    have hrest := Environment.lookup?_extend_head hd hn ⟨some w, true⟩
    apply (bind_of_ok hfirst).trans
    refine (ih (environment?_set m .global _) (List.nodup_cons.mp hd).2 hrest).trans ?_
    simp only [setEnvironment_setEnvironment, Environment.extend_extend]
    rfl

/-- The frame of the builtins before any is bound. -/
def globalFrame : Environment := { name := "global", tail := none }

theorem environment?_initial (id : EnvId) :
    initial.environment? id = if .global = id then some globalFrame else none := by
  simp [initial, environment?, Std.ExtTreeMap.getElem?_insert, globalFrame]

theorem get?_initial (id : ObjId) : initial.store.get? id = none := by
  simp [initial, Store.get?, Store.empty]

theorem initial_sound (run : RunId) : initial.Sound run := by
  have hframe : ∀ {id e}, initial.environment? id = some e → e = globalFrame := by
    intro id e he
    rw [environment?_initial] at he
    split at he
    · exact (Option.some.inj he).symm
    · cases he
  refine ⟨fun id => ?_, fun id _ => get?_initial id, fun id e t he ht => ?_, fun id e x w k he hx => ?_,
    fun id items hi => ?_, fun id c hc => ?_, List.cons_ne_nil _ _, fun id hi => ?_⟩
  · rw [environment?_initial]
    show _ ↔ id.index < 1
    split
    · next hid =>
      subst hid
      exact ⟨fun _ => Nat.zero_lt_one, fun _ => rfl⟩
    · next hid =>
      refine ⟨nofun, fun hlt => absurd ?_ hid⟩
      obtain ⟨index⟩ := id
      obtain rfl : index = 0 := Nat.lt_one_iff.mp hlt
      rfl
  · rw [hframe he] at ht
    cases ht
  · rw [hframe he] at hx
    cases hx
  · obtain ⟨owner, ho⟩ := Store.list?_eq_some.mp hi
    cases (get?_initial id).symm.trans ho
  · obtain ⟨owner, ho⟩ := Store.closure?_eq_some.mp hc
    cases (get?_initial id).symm.trans ho
  · obtain rfl := List.mem_singleton.mp hi
    exact Nat.zero_lt_one

/-- The memory that every evaluation with the standard builtins starts from. -/
def started : Memory :=
  initial.setEnvironment .global (globalFrame.extend (boundSlots Registry.standard.bindings))

end Memory

theorem Registry.standard_distinct : (standard.bindings.map Prod.fst).Nodup := by decide

/-- No builtin is an object. -/
theorem Registry.objectId?_bindings (r : Registry) {b : String × Value} (h : b ∈ r.bindings) :
    b.2.objectId? = none := by
  rcases List.mem_append.mp h with h | h
  · obtain ⟨f, -, rfl⟩ := List.mem_map.mp h
    rfl
  · obtain ⟨q, -, rfl⟩ := List.mem_map.mp h
    rfl

namespace Memory

theorem bindAll_standard : Setup.bindAll Registry.standard.bindings initial = .ok () started :=
  bindAll_ok (environment?_initial .global) Registry.standard_distinct fun _ _ => rfl

theorem started_sound (run : RunId) : started.Sound run := by
  refine ((initial_sound run).setEnvironment (environment?_initial .global) ?_ (fun x w constant hx => ?_)
    fun x hx => nomatch hx).1
  · rfl
  rw [Environment.lookup?_extend] at hx
  obtain ⟨before, after, hmem, -⟩ := List.lookup_eq_some_iff.mp hx
  obtain ⟨b, hb, heq⟩ := List.mem_map.mp (hmem ▸ List.mem_append_right before (.head after))
  cases heq
  exact Value.resolves_of_no_handle (Registry.objectId?_bindings _ hb)

end Memory

namespace Context

/-- A fresh context without a prelude. -/
def fresh (run : RunId) : Context := { run, memory := Memory.started }

theorem fresh_loadable (run : RunId) : (fresh run).Loadable := by
  refine ⟨fun _ h => ?_, nofun, ⟨Memory.started_sound run, fun _ h => ?_, fun _ h => ?_⟩, rfl⟩
  all_goals cases h

end Context

theorem Setup.newContext_eq (prelude : Option Node) (bound : Nat) (run : RunId) :
    newContext { prelude } bound run = match prelude with
      | some program => runPrelude bound program (.fresh run)
      | none => some (.ok (.fresh run)) := by
  simp only [newContext]
  rw [Memory.bindAll_standard]
  rfl

end CseMachine
