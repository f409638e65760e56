import CseMachine.Proofs.Memory.Changes
import CseMachine.Proofs.Safety.Start
import CseMachine.Proofs.Session

/-!
# Reachable contexts

Whatever context a caller gets hold of, it came from a start by loads, steps and
runs, and each of these is made of a few moves. A property that holds of fresh
contexts and that every move keeps holds of all contexts there are.
-/
namespace CseMachine

open Relation (ReflTransGen)

/-- What a start with these builtins and this prelude leaves, and all that calls make of it. -/
inductive Setup.Reachable (s : Setup) (run : RunId) : Context → Prop
  | started {bound : Nat} {c : Context} (h : s.newContext bound run = some (.ok c)) : Reachable s run c
  /-- A start that fails leaves a context too. -/
  | failed {bound : Nat} {f : Setup.StartFailure} (h : s.newContext bound run = some (.error f)) :
      Reachable s run f.context
  | called {c d : Context} {call : Call} {reply : Reply} (before : Reachable s run c)
      (h : c.perform call = some (reply, d)) : Reachable s run d

namespace Setup.Reachable

variable {s : Setup} {run : RunId} {c d : Context}

theorem loaded (h : s.Reachable run c) (program : Node) : s.Reachable run (c.load program) :=
  called h (show c.perform (.load program) = _ from rfl)

theorem stepped (h : s.Reachable run c) : s.Reachable run c.step.2 :=
  called h (show c.perform .step = _ from rfl)

theorem ran {bound : Nat} {limits : Limits} {outcome : Outcome} (h : s.Reachable run c)
    (hr : c.runWithin bound limits = some (outcome, d)) : s.Reachable run d :=
  called h (show c.perform (.run limits bound) = some (.ran outcome, d) by simp only [Context.perform, hr, Option.map_some])

end Setup.Reachable

namespace Context

variable {c d : Context} {P : Context → Prop}

/-- Every move keeps the property. -/
structure Invariant (P : Context → Prop) : Prop where
  fresh : ∀ {m : Memory} (run : RunId), ReflTransGen Memory.Change Memory.initial m → P { run, memory := m }
  loaded : ∀ {c : Context} (program : Node), P c → P (c.load program)
  advanced : ∀ {c d : Context} {item : Item}, P c → c.phase ≠ .errored → c.advance? = some (item, d) → P d
  finished : ∀ {c : Context}, P c → c.phase ≠ .errored → c.control.isEmpty = true → P c.finish
  suspended : ∀ {c : Context}, P c → P { c with phase := .suspended }
  predefining : ∀ {c : Context} (predefined : Bool), P c → P { c with predefined }
  started : ∀ {c : Context}, P c → P (Setup.afterPrelude c)

theorem isEmpty_of_advance?_eq_none (h : c.advance? = none) : c.control.isEmpty = true := by
  simp only [advance?] at h
  split at h
  · next hp =>
    simp only [Control.pop?, Stack.pop?] at hp
    simp only [Control.isEmpty, Stack.isEmpty]
    cases hi : c.control.items.items with
    | nil => rfl
    | cons item rest => rw [hi] at hp; cases hp
  · split at h <;> cases h

/-- What a run does with a context: it ends there, or takes a step and ends with it, or goes on behind it. -/
inductive Proceeds (limits : Limits) (bound taken changes : Nat) (c : Context) : Outcome → Context → Prop
  | finished (done : c.control.isEmpty = true) :
      Proceeds limits bound taken changes c c.finish.finishedOutcome c.finish
  | spent {limit : Nat} (more : c.control.isEmpty = false) (limited : limits.steps = some limit)
      (reached : limit ≤ taken) :
      Proceeds limits bound taken changes c (.suspended (.stepLimit limit) taken) { c with phase := .suspended }
  | failed {item : Item} {next : Context} (unspent : ∀ limit, limits.steps = some limit → taken < limit)
      (advanced : c.advance? = some (item, next)) (errored : next.phase = .errored) :
      Proceeds limits bound taken changes c next.errorOutcome next
  | changed {item : Item} {next : Context} {limit : Nat}
      (unspent : ∀ limit, limits.steps = some limit → taken < limit)
      (advanced : c.advance? = some (item, next)) (sound : next.phase ≠ .errored)
      (limited : limits.envSteps = some limit) (reached : limit ≤ countChange limits changes c next) :
      Proceeds limits bound taken changes c (.suspended (.envSteps limit) (taken + 1)) { next with phase := .suspended }
  | goesOn {item : Item} {next d : Context} {outcome : Outcome}
      (unspent : ∀ limit, limits.steps = some limit → taken < limit)
      (advanced : c.advance? = some (item, next)) (sound : next.phase ≠ .errored)
      (unchanged : ∀ limit, limits.envSteps = some limit → changes < limit → countChange limits changes c next < limit)
      (rest : next.runFrom limits bound (taken + 1) (countChange limits changes c next) = some (outcome, d)) :
      Proceeds limits bound taken changes c outcome d

theorem lt_of_stepLimit?_eq_none {limits : Limits} {taken : Nat} (h : stepLimit? limits taken = none) :
    ∀ limit, limits.steps = some limit → taken < limit := by
  intro limit hl
  simp only [stepLimit?, hl] at h
  split at h
  · cases h
  · omega

theorem stepLimit?_eq_some {limits : Limits} {taken : Nat} {reason : SuspendReason}
    (h : stepLimit? limits taken = some reason) :
    ∃ limit, limits.steps = some limit ∧ limit ≤ taken ∧ reason = .stepLimit limit := by
  simp only [stepLimit?] at h
  split at h
  · next limit hl =>
    split at h
    · next hle =>
      cases h
      exact ⟨limit, hl, hle, rfl⟩
    · cases h
  · cases h

theorem lt_of_envLimit?_eq_none {limits : Limits} {before after : Nat} (h : envLimit? limits before after = none) :
    ∀ limit, limits.envSteps = some limit → before < limit → after < limit := by
  intro limit hl hlt
  simp only [envLimit?, hl] at h
  split at h
  · cases h
  · omega

theorem envLimit?_eq_some {limits : Limits} {before after : Nat} {reason : SuspendReason}
    (h : envLimit? limits before after = some reason) :
    ∃ limit, limits.envSteps = some limit ∧ limit ≤ after ∧ reason = .envSteps limit := by
  simp only [envLimit?] at h
  split at h
  · next limit hl =>
    split at h
    · next hle =>
      cases h
      exact ⟨limit, hl, hle.2, rfl⟩
    · cases h
  · cases h

theorem runFrom_proceeds {limits : Limits} {bound taken changes : Nat} {outcome : Outcome}
    (h : c.runFrom limits (bound + 1) taken changes = some (outcome, d)) :
    Proceeds limits bound taken changes c outcome d := by
  simp only [runFrom] at h
  split at h
  · next hn =>
    cases h
    exact .finished hn
  · next hn =>
    split at h
    · next reason hlimit =>
      cases h
      obtain ⟨limit, hl, hle, rfl⟩ := stepLimit?_eq_some hlimit
      exact .spent (Bool.eq_false_iff.mpr hn) hl hle
    · next hlimit =>
      have hunspent := lt_of_stepLimit?_eq_none hlimit
      split at h
      · cases h
      · next item next ha =>
        split at h
        · next he =>
          cases h
          exact .failed hunspent ha he
        · next he =>
          split at h
          · next reason henv =>
            cases h
            obtain ⟨limit, hl, hle, rfl⟩ := envLimit?_eq_some henv
            exact .changed hunspent ha he hl hle
          · next henv => exact .goesOn hunspent ha he (lt_of_envLimit?_eq_none henv) h

theorem memory_load (c : Context) (program : Node) : (c.load program).memory = c.memory := by
  simp only [load]
  split <;> rfl

theorem control_keepResult (c : Context) (target : EnvId) (left : List EnvId) :
    (c.keepResult target left).control = c.control := by
  obtain ⟨m, hk, -⟩ := c.keepResult_eq target left
  rw [hk]

theorem control_settle (c : Context) : c.settle.control = c.control := by
  simp only [settle]
  cases c.programEnv with
  | none => rfl
  | some program => exact control_keepResult _ _ _

/-- A run without limits fails or leaves nothing on Control. -/
theorem runWithin_unlimited {bound : Nat} {outcome : Outcome} (hr : c.runWithin bound {} = some (outcome, d)) :
    (∃ e, outcome = .error e) ∨ d.phase = .finished ∧ d.control.isEmpty = true := by
  have hrun : ∀ {bound taken changes : Nat} {c : Context}, c.runFrom {} bound taken changes = some (outcome, d) →
      (∃ e, outcome = .error e) ∨ d.phase = .finished ∧ d.control.isEmpty = true := by
    intro bound
    induction bound with
    | zero => exact fun hr => nomatch hr
    | succ bound ih =>
      intro taken changes c hr
      cases runFrom_proceeds hr with
      | finished done => exact .inr ⟨rfl, (congrArg Control.isEmpty c.control_settle).trans done⟩
      | spent more limited => cases limited
      | failed => exact .inl ⟨_, rfl⟩
      | changed unspent advanced sound limited => cases limited
      | goesOn unspent advanced sound unchanged rest => exact ih rest
  simp only [Context.runWithin] at hr
  split at hr
  · cases hr
    exact .inl ⟨_, rfl⟩
  · exact hrun hr

/-- A step does nothing, takes an item or finishes. -/
theorem step_cases (c : Context) : c.step.2 = c ∨ c.phase ≠ .errored ∧
    ((∃ item, c.advance? = some (item, c.step.2)) ∨ c.control.isEmpty = true ∧ c.step.2 = c.finish) := by
  simp only [Context.step]
  split
  · exact .inl rfl
  · next ht =>
    refine .inr ⟨fun he => ht (by rw [he]; rfl), ?_⟩
    cases ha : c.advance? with
    | none => exact .inr ⟨isEmpty_of_advance?_eq_none ha, rfl⟩
    | some next => exact .inl ⟨next.1, rfl⟩

/-- Every move of a run keeps the property. -/
structure Kept (P : Context → Prop) : Prop where
  advanced : ∀ {c d : Context} {item : Item}, P c → c.phase ≠ .errored → c.advance? = some (item, d) → P d
  finished : ∀ {c : Context}, P c → c.phase ≠ .errored → c.control.isEmpty = true → P c.finish
  suspended : ∀ {c : Context}, P c → c.phase ≠ .errored → P { c with phase := .suspended }

namespace Kept

variable (hP : Kept P)
include hP

theorem step (h : P c) : P c.step.2 := by
  rcases step_cases c with hs | ⟨hp, ⟨item, ha⟩ | ⟨hn, hs⟩⟩
  · rw [hs]
    exact h
  · exact hP.advanced h hp ha
  · rw [hs]
    exact hP.finished h hp hn

theorem runFrom {limits : Limits} {bound taken changes : Nat} {outcome : Outcome} (h : P c) (hp : c.phase ≠ .errored)
    (hr : c.runFrom limits bound taken changes = some (outcome, d)) : P d := by
  induction bound generalizing c taken changes with
  | zero => cases hr
  | succ bound ih =>
    cases runFrom_proceeds hr with
    | finished done => exact hP.finished h hp done
    | spent => exact hP.suspended h hp
    | failed unspent ha => exact hP.advanced h hp ha
    | changed unspent ha sound => exact hP.suspended (hP.advanced h hp ha) sound
    | goesOn unspent ha sound unchanged rest => exact ih (hP.advanced h hp ha) sound rest

theorem runWithin {limits : Limits} {bound : Nat} {outcome : Outcome} (h : P c)
    (hr : c.runWithin bound limits = some (outcome, d)) : P d := by
  simp only [Context.runWithin] at hr
  split at hr
  · cases hr
    exact h
  · next hp => exact hP.runFrom h hp hr

theorem perform (hload : ∀ {c : Context} (program : Node), P c → P (c.load program)) {call : Call} {reply : Reply} (h : P c)
    (hc : c.perform call = some (reply, d)) : P d := by
  cases call with
  | load program =>
    cases hc
    exact hload program h
  | step =>
    cases hc
    exact hP.step h
  | run limits bound =>
    obtain ⟨⟨outcome, d'⟩, hr, he⟩ := Option.map_eq_some_iff.mp hc
    cases he
    exact hP.runWithin h hr

/-- A prelude runs to its end or fails. -/
theorem runPrelude {bound : Nat} {prelude : Node} {r : Except Setup.StartFailure Context}
    (h : P ({ c with predefined := true }.load prelude)) (hr : Setup.runPrelude bound prelude c = some r) :
    ∃ d, P d ∧ ((∃ e, r = .error ⟨e, { d with predefined := false }⟩) ∨
      (d.phase = .finished ∧ d.control.isEmpty = true) ∧ r = .ok (Setup.afterPrelude d)) := by
  simp only [Setup.runPrelude] at hr
  split at hr
  · cases hr
  · next e d hrun =>
    cases hr
    exact ⟨d, hP.runWithin h hrun, .inl ⟨e, rfl⟩⟩
  · next hne hrun =>
    cases hr
    refine ⟨_, hP.runWithin h hrun, .inr ⟨?_, rfl⟩⟩
    exact (runWithin_unlimited hrun).resolve_left fun ⟨e, he⟩ => hne e he

end Kept

theorem Invariant.kept (hP : Invariant P) : Kept P := ⟨hP.advanced, hP.finished, fun h _ => hP.suspended h⟩

end Context

/-! Starts -/

namespace Memory

theorem initial_frame {id : EnvId} {e : Environment} (he : initial.environment? id = some e) :
    id = .global ∧ e = globalFrame := by
  rw [environment?_initial] at he
  split at he
  · next hid => exact ⟨hid.symm, (Option.some.inj he).symm⟩
  · cases he

theorem initial_empty {id : ObjId} {o : Object} : initial.store.get? id ≠ some o := by
  intro ho
  cases (get?_initial id).symm.trans ho

theorem initial_wellFormed : initial.WellFormed where
  global := ⟨globalFrame, environment?_initial .global, rfl⟩
  outermost := rfl
  nodup := List.nodup_singleton _
  active := by
    intro id hi
    obtain rfl := List.mem_singleton.mp hi
    rfl
  envIds := by
    intro id hi
    obtain ⟨e, he⟩ := Option.isSome_iff_exists.mp hi
    obtain ⟨rfl, -⟩ := initial_frame he
    exact Nat.zero_lt_one
  objectIds := fun id o ho => absurd ho initial_empty
  tail := fun id e he hne => absurd (initial_frame he).1 hne
  bound := by
    intro id e b w he hb
    obtain ⟨-, rfl⟩ := initial_frame he
    cases hb
  element := by
    intro id items hi
    obtain ⟨owner, ho⟩ := Store.list?_eq_some.mp hi
    exact absurd ho initial_empty
  captured := by
    intro id c hc
    obtain ⟨owner, ho⟩ := Store.closure?_eq_some.mp hc
    exact absurd ho initial_empty
  owner := fun id o ho => absurd ho initial_empty
  listed := by
    intro env e id he hi
    obtain ⟨-, rfl⟩ := initial_frame he
    exact absurd hi Std.ExtTreeSet.not_mem_empty

/-- The binding of all builtins leads where the binding of each one does. -/
theorem leads_bindAll_of_each {R : Memory → Memory → Prop} {P : Memory → Prop} {m : Memory} {bindings : List (String × Value)}
    (h : P m) (hkept : ∀ {m m'}, P m → ReflTransGen R m m' → P m')
    (hdeclare : ∀ {m b}, b ∈ bindings → P m → Leads R m Any (declare .global b.1 true m))
    (hdefine : ∀ {m b}, b ∈ bindings → P m → Leads R m Any (define .global b.1 b.2 true m)) :
    Leads R m Any (Setup.bindAll bindings m) := by
  induction bindings generalizing m with
  | nil => exact .ok trivial
  | cons b rest ih =>
    have hfirst : Leads R m Any ((declare .global b.1 true >>= fun _ => define .global b.1 b.2 true) m) :=
      (hdeclare (.head _) h).bind fun _ _ hc _ => hdefine (.head _) (hkept h hc)
    refine hfirst.bind fun _ _ hc _ => ?_
    exact ih (hkept h hc) (fun hb => hdeclare (.tail _ hb)) fun hb => hdefine (.tail _ hb)

theorem leads_bindAll {m : Memory} (h : m.WellFormed) {bindings : List (String × Value)}
    (hb : ∀ b ∈ bindings, b.2.objectId? = none) : Leads Change m Any (Setup.bindAll bindings m) := by
  refine leads_bindAll_of_each h (fun h hc => (h.changes hc).1) (fun _ h => ?_) fun hmem h => ?_
  · exact h.declare h.present_global _ true
  · exact h.define h.present_global _ true (Value.resolves_of_no_handle (hb _ hmem))

end Memory

/-- A start fails at a builtin, or what it answers is a context with the builtins bound or what the prelude leaves. -/
theorem Setup.newContext_cases {s : Setup} {bound : Nat} {run : RunId} {r : Except StartFailure Context}
    (hr : s.newContext bound run = some r) :
    (∃ e m, bindAll s.registry.bindings .initial = .error e m ∧ r = .error ⟨e, { run, memory := m }⟩) ∨
      ∃ m, bindAll s.registry.bindings .initial = .ok () m ∧
        ((s.prelude = none ∧ r = .ok { run, memory := m }) ∨
          ∃ prelude, s.prelude = some prelude ∧ runPrelude bound prelude { run, memory := m } = some r) := by
  simp only [newContext] at hr
  split at hr
  · next e m hm =>
    cases hr
    exact .inl ⟨e, m, hm, rfl⟩
  · next u m hm =>
    refine .inr ⟨m, hm, ?_⟩
    split at hr
    · next prelude hp => exact .inr ⟨prelude, hp, hr⟩
    · next hp =>
      cases hr
      exact .inl ⟨hp, rfl⟩

namespace Context.Kept

variable {P : Context → Prop} (hP : Kept P) {s : Setup} {run : RunId} {bound : Nat} {c : Context}
  (fails : ∀ {e m}, Setup.bindAll s.registry.bindings .initial = .error e m → P { run, memory := m })
  (binds : ∀ {m}, Setup.bindAll s.registry.bindings .initial = .ok () m → P { run, memory := m })
  (starts : ∀ {c}, P c → c.phase = .finished → c.control.isEmpty = true → P (Setup.afterPrelude c))
include hP fails binds starts

/-- What a start answers has a property that runs keep, if the context that the builtins are bound in has it and it is
kept around the prelude. -/
theorem newContext {r : Except Setup.StartFailure Context}
    (loads : ∀ {c prelude}, s.prelude = some prelude → P c → P ({ c with predefined := true }.load prelude))
    (stops : ∀ {c}, P c → P { c with predefined := false }) (hr : s.newContext bound run = some r) :
    (∀ d, r = .ok d → P d) ∧ ∀ f, r = .error f → P f.context := by
  rcases Setup.newContext_cases hr with ⟨e, m, hm, rfl⟩ | ⟨m, hm, ⟨-, rfl⟩ | ⟨prelude, hprelude, hr⟩⟩
  · exact ⟨fun _ hd => (by cases hd), fun f hf => by cases hf; exact fails hm⟩
  · exact ⟨fun d hd => by cases hd; exact binds hm, fun _ hf => (by cases hf)⟩
  · obtain ⟨d, hd, ⟨e, rfl⟩ | ⟨⟨hfinished, hn⟩, rfl⟩⟩ := hP.runPrelude (loads hprelude (binds hm)) hr
    · exact ⟨fun _ hd => (by cases hd), fun f hf => by cases hf; exact stops hd⟩
    · exact ⟨fun d' hd' => by cases hd'; exact starts hd hfinished hn, fun _ hf => (by cases hf)⟩

/-- So has every context that there is, if loading keeps the property too. -/
theorem reachable (loads : ∀ {c} (program : Node), P c → P (c.load program))
    (predefining : ∀ {c} (predefined : Bool), P c → P { c with predefined }) (h : s.Reachable run c) : P c := by
  have hnew : ∀ {bound r}, s.newContext bound run = some r → (∀ d, r = .ok d → P d) ∧ ∀ f, r = .error f → P f.context :=
    hP.newContext fails binds starts (fun _ hc => loads _ (predefining true hc)) (predefining false)
  induction h with
  | started h => exact (hnew h).1 _ rfl
  | failed h => exact (hnew h).2 _ rfl
  | called _ h ih => exact hP.perform loads ih h

end Context.Kept

/-- The property holds of every context that there is. -/
theorem Context.Invariant.reachable {P : Context → Prop} (hP : Invariant P) {s : Setup} {run : RunId} {c : Context}
    (h : s.Reachable run c) : P c := by
  have hbind := Memory.leads_bindAll Memory.initial_wellFormed
    fun b hb => Registry.objectId?_bindings s.registry hb
  refine hP.kept.reachable (fun hm => ?_) (fun hm => ?_) (fun hc _ _ => hP.started hc) hP.loaded hP.predefining h
  · rw [hm] at hbind
    exact hP.fresh run hbind
  · rw [hm] at hbind
    exact hP.fresh run hbind.1

end CseMachine
