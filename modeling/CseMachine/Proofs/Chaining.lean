import CseMachine.Proofs.Settling
import CseMachine.Proofs.Turns

/-!
# Programs one after another

A program is loaded when the one before it has finished, and its environment is
enclosed by that one's. Whatever frames the calls of a program leave behind, none
of them is between the environments of programs, and settling leaves no other
environment active.
-/
namespace CseMachine

open Control (ofItems Tidy)

namespace Memory

variable {m m' : Memory} {id : EnvId} {ids : List EnvId} {L : Live}

/-- The tails that lead outwards from an environment are these. -/
inductive TailChain (m : Memory) : EnvId → List EnvId → Prop
  | outermost {id : EnvId} {e : Environment} (found : m.environment? id = some e) (tail : e.tail = none) :
      TailChain m id []
  | inside {id outer : EnvId} {ids : List EnvId} {e : Environment} (found : m.environment? id = some e)
      (tail : e.tail = some outer) (chain : TailChain m outer ids) : TailChain m id (outer :: ids)

namespace TailChain

theorem grows (h : m.TailChain id ids) (hg : m.Grows m') : m'.TailChain id ids := by
  induction h with
  | outermost found tail =>
    obtain ⟨e', he', ht, -⟩ := hg.frame _ _ found
    exact .outermost he' (ht.trans tail)
  | inside found tail _ ih =>
    obtain ⟨e', he', ht, -⟩ := hg.frame _ _ found
    exact .inside he' (ht.trans tail) ih

/-- The tails of what is live are live. -/
theorem agree (h : m.TailChain id ids) (hc : m.Closed L) (ha : AgreeOn L m m') (hi : L.envs id) :
    m'.TailChain id ids := by
  induction h with
  | outermost found tail =>
    obtain ⟨heap, he'⟩ := ha.environment?_some hi found
    exact .outermost he' tail
  | inside found tail _ ih =>
    obtain ⟨heap, he'⟩ := ha.environment?_some hi found
    exact .inside he' tail (ih (hc.tail _ _ _ hi found tail))

/-- A name is found in one of the environments of the chain. -/
theorem mem_of_found (h : m.TailChain id ids) {name : String} {steps : Nat} {env : EnvId} {frame : Environment}
    {slot : Slot} (hr : m.resolveFrom name steps id = .found env frame slot) : env ∈ id :: ids := by
  induction steps generalizing id ids with
  | zero => cases hr
  | succ steps ih =>
    simp only [resolveFrom] at hr
    cases h with
    | outermost found tail =>
      simp only [found] at hr
      split at hr
      · cases hr
        exact .head _
      · rw [tail] at hr
        cases hr
    | inside found tail chain =>
      simp only [found] at hr
      split at hr
      · cases hr
        exact .head _
      · rw [tail] at hr
        exact .tail _ (ih chain hr)

end TailChain
end Memory

namespace Context

variable {c d start : Context} {item : Item} {rest : List Item} {earlier : List EnvId} {own : EnvId} {since : Nat}

/-! What a step keeps -/

namespace WellFormed

variable (h : c.WellFormed)
include h

theorem execute_grows (item : Item) : match Action.execute item c with
    | .ok _ d => c.memory.Grows d.memory
    | .error _ d => c.memory.Grows d.memory := by
  cases hr : item.restoreTarget? with
  | none =>
    have hl := Variant.leads_execute h hr
    rw [Variant.execute_standard] at hl
    split
    · next heq =>
      rw [heq] at hl
      exact (h.changes hl.1).2
    · next heq =>
      rw [heq] at hl
      exact (h.changes hl).2
  | some target =>
    obtain ⟨span, rfl⟩ := Item.eq_restore hr
    by_cases ht : target ∈ c.memory.active
    · obtain ⟨m, below, hx, ha, -⟩ := Variant.execute_restore_active Variant.standard ht span
      rw [Variant.execute_standard] at hx
      rw [hx]
      exact (Memory.Grows.withActive _ _).trans ha.grows
    · rw [execute_restore_inactive span ht]
      exact .refl _

/-- All that was there before a step is there after it, but for what a collection has freed. -/
theorem advance_grows (ha : c.advance? = some (item, d)) : ∃ m L, c.memory.Grows m ∧ m.Closed L ∧
    Memory.AgreeOn L m d.memory ∧ ∀ env, d.programEnv = some env → L.envs env := by
  obtain ⟨rest, e, hp, hx⟩ := advance?_eq_some ha
  have he := (h.taken hp).execute_grows item
  rcases hx with ⟨hx, rfl⟩ | ⟨error, hx, rfl⟩
  · rw [hx] at he
    split
    · refine ⟨e.memory, _, he, Memory.closed_kept, Memory.agreeOn_collect _ _ _, fun env hpe => ?_⟩
      refine Memory.kept_env (List.mem_append_right _ (List.mem_append_right _ ?_))
      exact Option.mem_toList.mpr hpe
    · exact ⟨e.memory, .all, he, .all _, .refl _ _, fun _ _ => trivial⟩
  · rw [hx] at he
    exact ⟨e.memory, .all, he, .all _, .refl _ _, fun _ _ => trivial⟩

end WellFormed

/-! A program before its first step and after it -/

/-- A program is next whose environment will be enclosed by these. -/
structure Waits (earlier : List EnvId) (own : EnvId) (since : Nat) (c : Context) : Prop where
  steady : c.Steady
  loaded : ∃ program, c.control = ofItems [.node program false] ∧ program.ScopedProgram
  unfinished : c.phase ≠ .finished
  steps : c.steps = since
  next : own = ⟨c.memory.nextEnv⟩
  outer : ∃ chain, earlier ++ [.global] = Action.programTail c :: chain ∧
    c.memory.TailChain (Action.programTail c) chain
  active : ∀ id ∈ c.memory.active, id ∈ earlier ++ [.global]

/-- The program has started. -/
structure Goes (earlier : List EnvId) (own : EnvId) (since : Nat) (c : Context) : Prop where
  steady : c.Steady
  steps : since < c.steps
  tidy : Tidy c.control.items.items
  program : c.programEnv = some own
  chain : c.memory.TailChain own (earlier ++ [.global])
  /-- Behind the program's environment there is no frame of a call. -/
  behind : ∀ below, own :: below <:+ c.memory.active → ∀ id ∈ below, id ∈ earlier ++ [.global]
  settled : c.phase = .finished → c.memory.current = own ∧ ∀ id ∈ c.memory.active, id ∈ own :: (earlier ++ [.global])

theorem Waits.advance (h : c.Waits earlier own since) (hp : c.phase ≠ .errored) (ha : c.advance? = some (item, d)) :
    d.Goes earlier own since := by
  obtain ⟨program, hc, hs⟩ := h.loaded
  obtain ⟨frame, enters, hprogram, found, tail, -, tidy⟩ := h.steady.tracked.start hc hs hp ha
  obtain ⟨chain, hchain, hout⟩ := h.outer
  obtain ⟨hsteps, hphase⟩ := advance?_books ha
  obtain ⟨m, L, hg, hclosed, hagree, hlive⟩ := h.steady.wellFormed.advance_grows ha
  rw [← h.next] at enters hprogram found
  refine ⟨steady_kept.advanced h.steady hp ha, ?_, tidy, hprogram, ?_, fun below hb id hi => ?_, fun hf => ?_⟩
  · rw [hsteps, h.steps]
    exact Nat.lt_succ_self _
  · -- the environment of the program before is live because this program's is
    have hown := hlive own hprogram
    obtain ⟨heap, hfound⟩ := hagree.symm.environment?_some hown found
    have htail := hclosed.tail own _ _ hown hfound tail
    rw [hchain]
    exact .inside found tail ((hout.grows hg).agree hclosed hagree htail)
  · rw [enters] at hb
    rcases List.suffix_cons_iff.mp hb with heq | hs
    · obtain ⟨-, rfl⟩ := List.cons.inj heq
      exact h.active id hi
    · have hactive := hs.subset (.head _)
      exact absurd (h.steady.wellFormed.memory.active own hactive) (h.next ▸ h.steady.wellFormed.memory.fresh_env)
  · rcases hphase with hr | hr <;> cases hr.symm.trans hf

theorem Goes.advance (h : c.Goes earlier own since) (hp : c.phase ≠ .errored) (ha : c.advance? = some (item, d)) :
    d.Goes earlier own since := by
  obtain ⟨-, rest, hc, hturn⟩ := h.steady.tracked.advance hp ha
  have htidy : Tidy (item :: rest) := by
    have ht := h.tidy
    rw [hc] at ht
    exact ht
  have hprogram := (hturn.programEnv_eq htidy).trans h.program
  obtain ⟨m, L, hg, hclosed, hagree, hlive⟩ := h.steady.wellFormed.advance_grows ha
  obtain ⟨hsteps, hphase⟩ := advance?_books ha
  refine ⟨steady_kept.advanced h.steady hp ha, ?_, hturn.tidy htidy, hprogram,
    (h.chain.grows hg).agree hclosed hagree (hlive own hprogram), fun below hb => ?_, fun hf => ?_⟩
  · rw [hsteps]
    exact Nat.lt_succ_of_lt h.steps
  · obtain ⟨kept, hkept, hactive | hactive⟩ := hturn.active_cases
    · exact h.behind below ((hactive ▸ hb).trans hkept)
    · rw [hactive] at hb
      rcases List.suffix_cons_iff.mp hb with heq | hs
      · have hnew := (List.cons.inj heq).1
        exact absurd (h.steady.wellFormed.program own h.program) (hnew ▸ h.steady.wellFormed.memory.fresh_env)
      · exact h.behind below (hs.trans hkept)
  · rcases hphase with hr | hr <;> cases hr.symm.trans hf

/-- The way outwards from the program's environment stays when the context settles. -/
theorem finish_eq (hp : c.programEnv = some own) : ∃ m, c.finish = { c with memory := m, phase := .finished } ∧
    ∀ ids, c.memory.TailChain own ids → m.TailChain own ids := by
  obtain ⟨m, hr, ha⟩ := returned_eq hp
  refine ⟨(m.collect c.rootEnvs c.rootObjects).2, ?_, fun ids h => ?_⟩
  · show { c.returned.collectGarbage with phase := .finished } = _
    rw [hr]
    rfl
  · have hm := (h.grows (Memory.unwindTo_grows c.memory own)).grows ha.grows
    refine hm.agree Memory.closed_kept (Memory.agreeOn_collect m c.rootEnvs c.rootObjects) (Memory.kept_env ?_)
    exact List.mem_append_right _ (List.mem_append_right _ (Option.mem_toList.mpr hp))

theorem Goes.finish (h : c.Goes earlier own since) (hp : c.phase ≠ .errored) (hn : c.control.isEmpty = true) :
    c.finish.Goes earlier own since := by
  have hsteady := steady_kept.finished h.steady hp hn
  obtain ⟨below, hbelow, hmem⟩ : ∃ below, (c.memory.unwindTo own).2.active = own :: below ∧
      ∀ id ∈ below, id ∈ earlier ++ [.global] := by
    by_cases hown : own ∈ c.memory.active
    · obtain ⟨below, hu, hs⟩ := Memory.unwindTo_of_mem hown
      exact ⟨below, by rw [hu], h.behind below hs⟩
    · refine ⟨_, by rw [Memory.unwindTo_of_not_mem hown], fun id hi => ?_⟩
      obtain ⟨front, hfront⟩ := List.getLast?_eq_some_iff.mp h.steady.wellFormed.memory.outermost
      rw [hfront, List.reverse_append] at hi
      obtain rfl : id = .global := by simpa using hi
      exact List.mem_append_right _ (.head _)
  obtain ⟨m, hf, hchain⟩ := finish_eq h.program
  have hactive : m.active = own :: below := by
    have ha := active_finish h.program
    rw [hf] at ha
    exact ha.trans hbelow
  rw [hf] at hsteady ⊢
  have hnodup : (own :: below).Nodup := hactive ▸ hsteady.wellFormed.memory.nodup
  refine ⟨hsteady, h.steps, h.tidy, h.program, hchain _ h.chain, fun ids hb => ?_, fun _ => ⟨?_, fun id hi => ?_⟩⟩
  · replace hb : own :: ids <:+ m.active := hb
    rw [hactive] at hb
    rcases List.suffix_cons_iff.mp hb with heq | hs
    · exact (List.cons.inj heq).2 ▸ hmem
    · exact absurd (hs.subset (.head _)) (List.nodup_cons.mp hnodup).1
  · show m.active.headD .global = own
    rw [hactive]
    rfl
  · replace hi : id ∈ m.active := hi
    rw [hactive] at hi
    rcases List.mem_cons.mp hi with rfl | hi
    · exact .head _
    · exact .tail _ (hmem id hi)

/-- The program that was loaded last waits for its first step or has taken it. -/
def Playing (earlier : List EnvId) (own : EnvId) (since : Nat) (c : Context) : Prop :=
  c.Waits earlier own since ∨ c.Goes earlier own since

theorem playing_kept : Kept (Playing earlier own since) where
  advanced h hp ha := by
    rcases h with h | h
    · exact .inr (h.advance hp ha)
    · exact .inr (h.advance hp ha)
  finished h hp hn := by
    rcases h with h | h
    · obtain ⟨program, hc, -⟩ := h.loaded
      rw [hc] at hn
      cases hn
    · exact .inr (h.finish hp hn)
  suspended h hp := by
    rcases h with h | h
    · exact .inl ⟨steady_kept.suspended h.steady hp, h.loaded, nofun, h.steps, h.next, h.outer, h.active⟩
    · exact .inr ⟨steady_kept.suspended h.steady hp, h.steps, h.tidy, h.program, h.chain, h.behind, nofun⟩

/-! Loading -/

/-- A program that is loaded now is enclosed by these environments. -/
structure Ready (earlier : List EnvId) (c : Context) : Prop where
  wellFormed : c.WellFormed
  anchored : c.Anchored
  startable : c.Startable
  program : c.programEnv = earlier.head?
  outer : ∃ chain, earlier ++ [.global] = Action.programTail c :: chain ∧
    c.memory.TailChain (Action.programTail c) chain
  active : ∀ id ∈ c.memory.active, id ∈ earlier ++ [.global]

theorem Ready.load (h : c.Ready earlier) {program : Node} (hp : Accepted program) :
    (c.load program).Waits earlier ⟨c.memory.nextEnv⟩ c.steps := by
  obtain ⟨d, ⟨L, ha⟩, hd⟩ := h.startable
  have hphase : c.phase ≠ .errored := ha.phase_eq ▸ hd.phase
  have hsteady : (c.load program).Steady :=
    ⟨h.wellFormed.load program, h.anchored.load h.wellFormed program, h.startable.load hp⟩
  have hload := load_eq hphase (ha.control_eq.trans hd.control) hp.scoped
  rw [hload] at hsteady ⊢
  exact ⟨hsteady, ⟨program, rfl, hp.scoped⟩, nofun, rfl, rfl, h.outer, h.active⟩

theorem Goes.ready (h : c.Goes earlier own since) (hf : c.phase = .finished) : c.Ready (own :: earlier) where
  wellFormed := h.steady.wellFormed
  anchored := h.steady.anchored
  startable := h.steady.tracked.startable hf
  program := h.program
  outer := by
    have ht : Action.programTail c = own := by
      simp only [Action.programTail]
      rw [h.program]
      rfl
    exact ⟨earlier ++ [.global], by rw [ht]; rfl, ht ▸ h.chain⟩
  active := (h.settled hf).2

theorem Playing.ready (h : c.Playing earlier own since) (hf : c.phase = .finished) : c.Ready (own :: earlier) := by
  rcases h with h | h
  · exact absurd hf h.unfinished
  · exact h.ready hf

/-- Programs that are loaded into a context one after another, each when the one before it has finished,
and stepped and run with any limits in between. Known are the environments of the programs before the last
one, the innermost first, the id that the last one's environment gets and the steps taken before it. -/
inductive Plays (start : Context) : List EnvId → EnvId → Nat → Context → Prop
  | load {program : Node} (accepted : Accepted program) :
      Plays start start.programEnv.toList ⟨start.memory.nextEnv⟩ start.steps (start.load program)
  | step {earlier : List EnvId} {own : EnvId} {since : Nat} {c : Context} (before : Plays start earlier own since c) :
      Plays start earlier own since c.step.2
  | run {earlier : List EnvId} {own : EnvId} {since : Nat} {c d : Context} {limits : Limits} {bound : Nat}
      {outcome : Outcome} (before : Plays start earlier own since c)
      (ran : c.runWithin bound limits = some (outcome, d)) : Plays start earlier own since d
  | reload {earlier : List EnvId} {own : EnvId} {since : Nat} {c : Context} {program : Node}
      (before : Plays start earlier own since c) (finished : c.phase = .finished) (accepted : Accepted program) :
      Plays start (own :: earlier) ⟨c.memory.nextEnv⟩ c.steps (c.load program)

theorem Plays.playing (h : Plays start earlier own since c) (hs : start.Ready start.programEnv.toList) :
    c.Playing earlier own since := by
  induction h with
  | load accepted => exact .inl (hs.load accepted)
  | step _ ih => exact playing_kept.step ih
  | run _ ran ih => exact playing_kept.runWithin ih ran
  | reload _ finished accepted ih => exact .inl ((ih.ready finished).load accepted)

/-- What the programs of a sequence see of each other. -/
structure Enclosed (earlier : List EnvId) (own : EnvId) (since : Nat) (c : Context) : Prop where
  /-- From the first step of a program on its environment is there, and the way outwards leads through the
  environments of the programs before it. -/
  chain : since < c.steps → c.programEnv = some own ∧ c.memory.TailChain own (earlier ++ [.global])
  /-- No name leads from there to the frame of a call. -/
  visible : since < c.steps → ∀ name steps env frame slot, c.memory.resolveFrom name steps own = .found env frame slot →
    env = own ∨ env ∈ earlier ∨ env = .global
  finished : c.phase = .finished → since < c.steps ∧ c.memory.current = own ∧
    ∀ id ∈ c.memory.active, id = .global ∨ id ∈ own :: earlier

theorem Playing.enclosed (h : c.Playing earlier own since) : c.Enclosed earlier own since := by
  have hmem : ∀ {id}, id ∈ own :: (earlier ++ [.global]) → id = own ∨ id ∈ earlier ∨ id = .global := by
    intro id hi
    simpa using hi
  rcases h with h | h
  · refine ⟨fun hlt => ?_, fun hlt => ?_, fun hf => absurd hf h.unfinished⟩
    all_goals exact absurd hlt (by rw [h.steps]; exact Nat.lt_irrefl _)
  · refine ⟨fun _ => ⟨h.program, h.chain⟩, fun _ name steps env frame slot hr => hmem (h.chain.mem_of_found hr),
      fun hf => ⟨h.steps, (h.settled hf).1, fun id hi => ?_⟩⟩
    rcases hmem ((h.settled hf).2 id hi) with rfl | hi | rfl
    · exact .inr (.head _)
    · exact .inr (.tail _ hi)
    · exact .inl rfl

/-! Starts -/

theorem fresh_ready (run : RunId) : (fresh run).Ready [] := by
  obtain ⟨hw, ha⟩ := anchored_invariant.reachable (.started (Setup.newContext_eq none 0 run))
  refine ⟨hw, ha, ⟨_, .refl _, fresh_loadable run⟩, rfl, ⟨[], rfl, ?_⟩, fun id hi => hi⟩
  exact .outermost (Memory.environment?_set _ _ _) rfl

end Context

namespace Setup

open Context (Ready Plays Enclosed)

/-- A prelude is the first program of all. -/
theorem runPrelude_ready {prelude : Node} {bound : Nat} {run : RunId} {start : Context} (hp : Accepted prelude)
    (hr : runPrelude bound prelude (.fresh run) = some (.ok start)) :
    start.programEnv = some ⟨1⟩ ∧ start.Ready [⟨1⟩] := by
  have hfresh := Context.fresh_ready run
  obtain ⟨hw, ha⟩ := Context.anchored_invariant.predefining true ⟨hfresh.wellFormed, hfresh.anchored⟩
  have hloadable := Context.fresh_loadable run
  have hstart : ({ Context.fresh run with predefined := true } : Context).Ready [] := by
    refine ⟨hw, ha, ⟨_, .refl _, ?_⟩, rfl, hfresh.outer, hfresh.active⟩
    have hs := hloadable.sound
    exact ⟨hloadable.regular, hloadable.phase, ⟨hs.memory, hs.values, hs.program⟩, hloadable.control⟩
  have hwaits := hstart.load hp
  simp only [runPrelude] at hr
  split at hr
  · cases hr
  · cases hr
  · next o d hne hd =>
    cases hr
    have hplaying := Context.playing_kept.runWithin (.inl hwaits) hd
    have hidle : ({ Context.fresh run with predefined := true }.load prelude).phase ≠ .errored :=
      Context.load_ne_errored hloadable.phase
    obtain ⟨hleaves, hlimits⟩ := (Variant.runWithin_tracked hwaits.steady.tracked hd).2 hidle
    have hfinished : d.phase = .finished := by
      cases o with
      | finished w repr => exact hleaves
      | suspended reason taken => exact absurd hleaves (hlimits rfl)
      | error e => exact absurd rfl (hne e)
    have hready := hplaying.ready hfinished
    obtain ⟨hw', ha'⟩ := Context.anchored_invariant.started ⟨hready.wellFormed, hready.anchored⟩
    exact ⟨hready.program, hw', ha', afterPrelude_startable hready.startable, hready.program, hready.outer, hready.active⟩

/-- After any prelude that the parser accepts, and for any sequence of accepted programs, each loaded when the one
before it has finished: while a program runs, the way outwards from its environment leads through the environments of
the programs before it, then of the prelude, to the global environment, and when it has finished these are all that
is active. -/
theorem plays_enclosed {prelude : Option Node} (hp : ∀ program, prelude = some program → Accepted program)
    {bound : Nat} {run : RunId} {start : Context} (hn : newContext { prelude } bound run = some (.ok start)) :
    (start.programEnv = prelude.map fun _ => ⟨1⟩) ∧
      ∀ earlier own since c, Plays start earlier own since c → c.Enclosed earlier own since := by
  rw [newContext_eq] at hn
  cases prelude with
  | none =>
    cases hn
    exact ⟨rfl, fun earlier own since c h => (h.playing (Context.fresh_ready run)).enclosed⟩
  | some program =>
    obtain ⟨hprogram, hready⟩ := runPrelude_ready (hp program rfl) hn
    refine ⟨hprogram, fun earlier own since c h => (h.playing ?_).enclosed⟩
    rw [hprogram]
    exact hready

/-- The tree of `x = 1`. -/
def oneName : Node := .program ⟨0, 5⟩ [⟨"x", false⟩] [.assign ⟨0, 5⟩ "x" (.literal ⟨4, 5⟩ (.int 1)) true]

theorem accepted_oneName : Accepted oneName := by
  have hlex : lex "x = 1" = .ok
      [⟨.ident "x", 0, 1⟩, ⟨.symbol .assign, 2, 3⟩, ⟨.int 1, 4, 5⟩, ⟨.newline, 5, 5⟩, ⟨.eof, 5, 5⟩] := by decide +kernel
  refine ⟨"x = 1", ?_⟩
  rw [parse, hlex]
  cbv

theorem plays_enclosed_oneName : newContext {} 0 ⟨0⟩ = some (.ok (.fresh ⟨0⟩)) ∧
    ∃ c : Context, Plays (.fresh ⟨0⟩) [⟨1⟩] ⟨c.memory.nextEnv⟩ c.steps (c.load oneName) ∧
      c.memory.current = ⟨1⟩ ∧ c.memory.TailChain ⟨1⟩ [.global] := by
  have hp : ∀ program, (none : Option Node) = some program → Accepted program := fun _ h => nomatch h
  have hn := newContext_eq none 0 ⟨0⟩
  have hfinished : (((Context.fresh ⟨0⟩).load oneName).runWithin 10 {}).map (·.2.phase) = some .finished := rfl
  obtain ⟨⟨outcome, c⟩, hrun, hphase⟩ := Option.map_eq_some_iff.mp hfinished
  have hplays : Plays (.fresh ⟨0⟩) [] ⟨1⟩ 0 c := .run (.load accepted_oneName) hrun
  have henclosed := (plays_enclosed hp hn).2 _ _ _ _ hplays
  obtain ⟨hsteps, hcurrent, -⟩ := henclosed.finished hphase
  exact ⟨hn, c, .reload hplays hphase accepted_oneName, hcurrent, (henclosed.chain hsteps).2⟩

end Setup
end CseMachine
