import CseMachine.Proofs.Lasting

/-!
# Garbage is bounded by what is alive

Every environment and every object that is made is counted, so between two collections the
population is what the last collection left and what has been counted since. A collection
is due once as much is counted as twice what was left, and it runs before the next step. So
there is never more than three times what was left, or what was left and the least number
between two collections.
-/
namespace CseMachine

section

variable {α β : Type} [Ord α] [Std.TransOrd α] {t : Std.ExtTreeMap α β} {k : α} {v w : β}

theorem size_insert_of_some (h : t[k]? = some w) : (t.insert k v).size = t.size := by
  have hc : t.contains k = true := by rw [Std.ExtTreeMap.contains_eq_isSome_getElem?, h, Option.isSome_some]
  rw [Std.ExtTreeMap.size_insert, if_pos hc]

theorem size_insert_of_none (h : t[k]? = none) : (t.insert k v).size = t.size + 1 := by
  have hc : ¬ t.contains k = true := by simp [Std.ExtTreeMap.contains_eq_isSome_getElem?, h]
  rw [Std.ExtTreeMap.size_insert, if_neg hc]

end

namespace Memory

open Relation (ReflTransGen)

variable {m m' : Memory} {left : Nat}

/-- Since so many environments and objects were left, as many have been made as are counted, and
the next collection is due by their number. -/
structure Counted (left : Nat) (m : Memory) : Prop where
  population : m.population = left + m.allocated
  threshold : m.threshold = max minThreshold (2 * left)

theorem Counted.congr (h : m.Counted left) (hp : m'.population = m.population) (ha : m'.allocated = m.allocated)
    (ht : m'.threshold = m.threshold) : m'.Counted left :=
  ⟨by rw [hp, ha, h.population], ht.trans h.threshold⟩

/-- As long as no collection is due the population is bounded. -/
theorem Counted.population_lt (h : m.Counted left) (hd : m.isDue = false) :
    m.population < left + max (2 * left) minThreshold := by
  have hlt : m.allocated < m.threshold := Nat.lt_of_not_le (of_decide_eq_false hd)
  rw [h.threshold] at hlt
  rw [h.population]
  omega

/-! Numbers of environments and objects -/

theorem population_setEnvironment {env : EnvId} {e : Environment} (he : m.environment? env = some e) (e' : Environment) :
    (m.setEnvironment env e').population = m.population :=
  congrArg (· + m.store.size) (size_insert_of_some he)

theorem population_create (hw : m.WellFormed) (name : String) (tail : Option EnvId) :
    (m.create name tail).2.population = m.population + 1 := by
  have hnew : m.environments[(⟨m.nextEnv⟩ : EnvId)]? = none := Option.not_isSome_iff_eq_none.mp hw.fresh_env
  simp only [population, create]
  rw [size_insert_of_none hnew]
  omega

theorem population_stored (hw : m.WellFormed) (env : EnvId) (content : Content) :
    (m.stored env content).population = m.population + 1 := by
  have hsize : (m.store.alloc env content).2.size = m.store.size + 1 := size_insert_of_none hw.fresh_object
  simp only [population, stored]
  rw [hsize]
  rfl

theorem population_withObject (hw : m.WellFormed) {env : EnvId} {e : Environment} (he : m.environment? env = some e)
    (content : Content) : (m.withObject env e content).population = m.population + 1 :=
  (@population_setEnvironment (m.stored env content) env e he _).trans (population_stored hw env content)

theorem population_named (m : Memory) (id : ObjId) (name : String) :
    ({ m with store := m.store.nameClosure id name } : Memory).population = m.population := by
  simp only [population, Store.size, Store.nameClosure]
  rw [Std.ExtTreeMap.size_modify]

theorem population_handOver {id : ObjId} {owner target : EnvId} {giver taker : Environment} (hne : owner ≠ target)
    (hg : m.environment? owner = some giver) (ht : m.environment? target = some taker) :
    (m.handOver id owner target giver taker).population = m.population := by
  have hgiven := population_setEnvironment hg { giver with heap := ⟨giver.heap.items.erase id⟩ }
  have htarget : (m.setEnvironment owner { giver with heap := ⟨giver.heap.items.erase id⟩ }).environment? target = some taker := by
    rw [environment?_setEnvironment, if_neg hne, ht]
  have htaken := population_setEnvironment htarget { taker with heap := taker.heap.insert id }
  have hstore : (m.store.setOwner id target).size = m.store.size := Std.ExtTreeMap.size_modify
  rw [← hgiven, ← htaken]
  simp only [population, handOver, setEnvironment, hstore]

theorem Counted.move (h : m.Counted left) (id : ObjId) (target : EnvId) : (m.move id target).Counted left := by
  rw [Memory.move]
  cases hm : m.move? id target with
  | none => exact h
  | some m' =>
    obtain ⟨owner, giver, taker, hne, -, hg, ht, -, rfl⟩ := move?_eq_some hm
    exact h.congr (population_handOver hne hg ht) rfl rfl

theorem lasting_counted (left : Nat) : Lasting (Counted left) where
  changed hw hc h := by
    cases hc with
    | frame found => exact h.congr (population_setEnvironment found _) rfl rfl
    | create name => exact ⟨by rw [population_create hw, h.population]; exact Nat.add_assoc .., h.threshold⟩
    | object found => exact ⟨by rw [population_withObject hw found, h.population]; exact Nat.add_assoc .., h.threshold⟩
    | name id name => exact h.congr (population_named _ id name) rfl rfl
    | move id target => exact h.move id target
  active _ h := h.congr rfl rfl rfl

/-- The count starts anew with what a collection leaves, and another one is not due. -/
theorem counted_collect (m : Memory) (envs : List EnvId) (objects : List ObjId) :
    (m.collect envs objects).2.Counted (m.collect envs objects).2.population ∧ (m.collect envs objects).2.isDue = false := by
  refine ⟨⟨rfl, rfl⟩, decide_eq_false ?_⟩
  show ¬ max minThreshold _ ≤ 0
  simp [minThreshold]

/-! Starts -/

theorem counted_initial : initial.Counted 1 := by
  have hsize : initial.environments.size = 1 := size_insert_of_none (Std.ExtTreeMap.getElem?_empty)
  refine ⟨?_, rfl⟩
  rw [population, hsize]
  rfl

/-- Of what counts for the next collection nothing has changed. -/
def SameCount (m m' : Memory) : Prop := m'.allocated = m.allocated ∧ m'.threshold = m.threshold

theorem sameCount_declare (env : EnvId) (name : String) (constant : Bool) (m : Memory) :
    Leads SameCount m Any (declare env name constant m) := by
  simp only [declare]
  split
  · exact .error _ _ _ _
  · split
    · exact .single ⟨rfl, rfl⟩ trivial
    · exact .error _ _ _ _

theorem sameCount_define (env : EnvId) (name : String) (w : Value) (constant : Bool) (m : Memory) :
    Leads SameCount m Any (define env name w constant m) := by
  simp only [define]
  split
  · exact .error _ _ _ _
  · split
    · exact .single ⟨rfl, rfl⟩ trivial
    · exact .error _ _ _ _

/-- Binding the builtins makes nothing. -/
theorem sameCount_bindAll (bindings : List (String × Value)) (m : Memory) :
    Leads SameCount m Any (Setup.bindAll bindings m) :=
  leads_bindAll_of_each trivial (fun _ _ => trivial) (fun _ _ => sameCount_declare .global _ true _)
    fun _ _ => sameCount_define .global _ _ true _

theorem isDue_of_sameCount (h : ReflTransGen SameCount m m') : m'.isDue = m.isDue := by
  induction h with
  | refl => rfl
  | tail _ hlast ih => rw [← ih, isDue, isDue, hlast.1, hlast.2]

end Memory

/-- The contexts that come about, move by move, each with the number of environments and objects that the
most recent collection has left: before the first one that is the global frame. -/
inductive Setup.Left (s : Setup) (run : RunId) : Context → Nat → Prop
  /-- The builtins are bound. -/
  | bound {m : Memory} (h : bindAll s.registry.bindings .initial = .ok () m) : Left s run { run, memory := m } 1
  /-- A builtin could not be bound. -/
  | unbound {e : EvalError} {m : Memory} (h : bindAll s.registry.bindings .initial = .error e m) :
      Left s run { run, memory := m } 1
  | predefining {c : Context} {left : Nat} (before : Left s run c left) (predefined : Bool) :
      Left s run { c with predefined } left
  | loaded {c : Context} {left : Nat} (before : Left s run c left) (program : Node) : Left s run (c.load program) left
  /-- A step behind which no collection is due. -/
  | executed {c d : Context} {left : Nat} {item : Item} {rest : Control} (before : Left s run c left)
      (sound : c.phase ≠ .errored) (next : c.control.pop? = some (item, rest))
      (done : Action.execute item (c.taken rest) = .ok () d) (notDue : d.memory.isDue = false) : Left s run d left
  /-- A step behind which a collection runs. -/
  | collected {c d : Context} {left : Nat} {item : Item} {rest : Control} (before : Left s run c left)
      (sound : c.phase ≠ .errored) (next : c.control.pop? = some (item, rest))
      (done : Action.execute item (c.taken rest) = .ok () d) (due : d.memory.isDue = true) :
      Left s run d.collectGarbage d.collectGarbage.memory.population
  | failed {c d : Context} {left : Nat} {item : Item} {rest : Control} {error : EvalError} (before : Left s run c left)
      (sound : c.phase ≠ .errored) (next : c.control.pop? = some (item, rest))
      (done : Action.execute item (c.taken rest) = .error error d) :
      Left s run (d.failWith (error.withSpan item.span)) left
  /-- Behind the last item a collection runs too. -/
  | finished {c : Context} {left : Nat} (before : Left s run c left) (sound : c.phase ≠ .errored)
      (done : c.control.isEmpty = true) : Left s run c.finish c.finish.memory.population
  | suspended {c : Context} {left : Nat} (before : Left s run c left) (sound : c.phase ≠ .errored) :
      Left s run { c with phase := .suspended } left
  /-- The prelude has run. -/
  | started {c : Context} {left : Nat} (before : Left s run c left) (done : c.phase = .finished) :
      Left s run (afterPrelude c) left

namespace Context

/-- What every move keeps: as many environments and objects are there as were left and are counted, and after a
step that did not fail no collection is due. -/
structure Bounded (c : Context) (left : Nat) : Prop where
  wellFormed : c.WellFormed
  counted : c.memory.Counted left
  notDue : c.phase ≠ .errored → c.memory.isDue = false

variable {c : Context} {left : Nat} {item : Item} {rest : Control}

/-- An item counts what it makes, whether it fails or not. -/
theorem Bounded.execute (h : c.Bounded left) (hp : c.control.pop? = some (item, rest)) :
    match Action.execute item (c.taken rest) with
      | .ok _ d | .error _ d => d.WellFormed ∧ d.memory.Counted left := by
  have hw := (h.wellFormed.taken hp).execute item
  have hc := (Memory.lasting_counted left).execute (h.wellFormed.taken hp) item h.counted
  split
  · next he =>
    rw [he] at hw hc
    exact ⟨hw, hc⟩
  · next he =>
    rw [he] at hw hc
    exact ⟨hw, hc⟩

/-- What a collection leaves is counted from. -/
theorem WellFormed.bounded_collectGarbage (h : c.WellFormed) :
    c.collectGarbage.Bounded c.collectGarbage.memory.population := by
  obtain ⟨hc, hd⟩ := c.memory.counted_collect c.rootEnvs c.rootObjects
  exact ⟨h.collectGarbage, hc, fun _ => hd⟩

theorem Bounded.load (h : c.Bounded left) (program : Node) : (c.load program).Bounded left := by
  refine ⟨h.wellFormed.load program, c.memory_load program ▸ h.counted, fun hp => ?_⟩
  rw [memory_load]
  refine h.notDue fun he => hp ?_
  rw [Context.load, if_pos he, he]

end Context

namespace Setup

open Relation (ReflTransGen)

variable {s : Setup} {run : RunId} {c : Context} {left : Nat}

/-! Every context has come about move by move -/

theorem Left.kept (s : Setup) (run : RunId) : Context.Kept fun c => ∃ left, s.Left run c left where
  advanced h hp ha := by
    obtain ⟨left, h⟩ := h
    obtain ⟨rest, e, hn, ⟨he, rfl⟩ | ⟨error, he, rfl⟩⟩ := Context.advance?_eq_some ha
    · split
      · next hd => exact ⟨_, h.collected hp hn he hd⟩
      · next hd => exact ⟨_, h.executed hp hn he (eq_false_of_ne_true hd)⟩
    · exact ⟨_, h.failed hp hn he⟩
  finished h hp hn := h.elim fun _ h => ⟨_, h.finished hp hn⟩
  suspended h hp := h.elim fun left h => ⟨left, h.suspended hp⟩

theorem Reachable.exists_left (h : s.Reachable run c) : ∃ left, s.Left run c left :=
  (Left.kept s run).reachable (fun hm => ⟨1, .unbound hm⟩) (fun hm => ⟨1, .bound hm⟩)
    (fun hd hf _ => hd.imp fun _ hd => hd.started hf) (fun program hd => hd.imp fun _ hd => hd.loaded program)
    (fun predefined hd => hd.imp fun _ hd => hd.predefining predefined) h

/-! The count -/

theorem bindAll_cases {r : EStateM.Result EvalError Memory Unit} (hr : bindAll s.registry.bindings .initial = r) :
    match r with
      | .ok _ m | .error _ m => ({ run, memory := m } : Context).Bounded 1 := by
  have hchanges := Memory.leads_bindAll Memory.initial_wellFormed fun b hb => Registry.objectId?_bindings s.registry hb
  have hcount := Memory.sameCount_bindAll s.registry.bindings .initial
  have hbounded : ∀ {m}, ReflTransGen Memory.Change .initial m → ReflTransGen Memory.SameCount .initial m →
      ({ run, memory := m } : Context).Bounded 1 := by
    intro m hc hs
    refine ⟨Context.wellFormed_invariant.fresh run hc, ?_, fun _ => ?_⟩
    · exact (Memory.lasting_counted 1).changes Memory.initial_wellFormed hc Memory.counted_initial
    · exact (Memory.isDue_of_sameCount hs).trans rfl
  rw [hr] at hchanges hcount
  cases r with
  | ok _ m => exact hbounded hchanges.1 hcount.1
  | error e m => exact hbounded hchanges hcount

theorem Left.bounded (h : s.Left run c left) : c.Bounded left := by
  induction h with
  | bound h => exact bindAll_cases h
  | unbound h => exact bindAll_cases h
  | predefining before predefined ih =>
    exact ⟨Context.wellFormed_invariant.predefining predefined ih.wellFormed, ih.counted, ih.notDue⟩
  | loaded before program ih => exact ih.load program
  | executed before sound next done notDue ih =>
    have he := ih.execute next
    rw [done] at he
    exact ⟨he.1, he.2, fun _ => notDue⟩
  | collected before sound next done due ih =>
    have he := ih.execute next
    rw [done] at he
    exact he.1.bounded_collectGarbage
  | failed before sound next done ih =>
    have he := ih.execute next
    rw [done] at he
    exact ⟨he.1.failWith _, he.2, fun hp => absurd rfl hp⟩
  | @finished c left before sound done ih =>
    obtain ⟨hc, hd⟩ := c.returned.memory.counted_collect c.returned.rootEnvs c.returned.rootObjects
    exact ⟨Context.wellFormed_invariant.finished ih.wellFormed sound done, hc, fun _ => hd⟩
  | suspended before sound ih =>
    exact ⟨Context.wellFormed_invariant.suspended ih.wellFormed, ih.counted, fun _ => ih.notDue sound⟩
  | started before done ih =>
    have hsound : _ ≠ Phase.errored := fun he => by cases done.symm.trans he
    exact ⟨Context.wellFormed_invariant.started ih.wellFormed, ih.counted, fun _ => ih.notDue hsound⟩

/-- Whatever trees are loaded and however they are run: after each step the environments and objects are those that the
most recent collection has left and those that are counted, and unless the step failed there are less than three times as
many as were left, or than were left and the least number between two collections, and no collection is due. -/
theorem population_bounded (s : Setup) (run : RunId) :
    (∀ c, s.Reachable run c → ∃ left, s.Left run c left) ∧
      ∀ c left, s.Left run c left →
        c.memory.environments.size + c.memory.store.size = left + c.memory.allocated ∧
          (c.phase ≠ .errored → c.memory.environments.size + c.memory.store.size < left + max (2 * left) 256 ∧
            c.memory.isDue = false) := by
  refine ⟨fun c h => h.exists_left, fun c left h => ?_⟩
  have hb := h.bounded
  exact ⟨hb.counted.population, fun hp => ⟨hb.counted.population_lt (hb.notDue hp), hb.notDue hp⟩⟩

/-- A program that makes two lists, one of which holds the other. -/
def listInList : Node := .program ⟨0, 4⟩ [] [.expression ⟨0, 4⟩ (.list ⟨0, 4⟩ [.list ⟨1, 3⟩ []])]

/-- The context once both lists are made. -/
def listsMade : Context := ((Context.fresh ⟨0⟩).load listInList).step.2.step.2.step.2.step.2.step.2.step.2

/-- Before the first collection the program's frame and the lists are counted on top of the global frame. -/
theorem population_bounded_listInList : Reachable {} ⟨0⟩ listsMade ∧ Left {} ⟨0⟩ listsMade 1 ∧
    listsMade.memory.environments.size + listsMade.memory.store.size = 1 + 3 ∧ listsMade.memory.allocated = 3 ∧
      1 + 3 < 1 + max (2 * 1) 256 ∧ listsMade.memory.isDue = false := by
  have hstart : Reachable {} ⟨0⟩ (.fresh ⟨0⟩) := .started (newContext_eq none 0 ⟨0⟩)
  have hmade : Reachable {} ⟨0⟩ listsMade := (hstart.loaded listInList).stepped.stepped.stepped.stepped.stepped.stepped
  have hallocated : listsMade.memory.allocated = 3 := by decide +kernel
  have hsize : listsMade.memory.environments.size + listsMade.memory.store.size = 1 + 3 := by decide +kernel
  have hrunning : listsMade.phase ≠ .errored := by decide +kernel
  obtain ⟨hleft, hbound⟩ := population_bounded {} ⟨0⟩
  obtain ⟨left, hl⟩ := hleft listsMade hmade
  obtain ⟨hcount, hsound⟩ := hbound listsMade left hl
  obtain rfl : left = 1 := by omega
  obtain ⟨hlt, hdue⟩ := hsound hrunning
  exact ⟨hmade, hl, hsize, hallocated, hsize ▸ hlt, hdue⟩

end Setup
end CseMachine
