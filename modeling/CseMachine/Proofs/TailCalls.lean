import CseMachine.Proofs.Settling
import CseMachine.Proofs.Turns

/-!
# How deep the active environments get

Between the environments that pending restores lead back to there is one frame of a
call, and as many more as were entered by calls that found a restore next: such a call
needs no restore of its own, and its caller's frame stays below it. Where no restore is
pending, a call takes the place of its caller, so that two environments are active at
most.
-/
namespace CseMachine

open Control (ofItems targets Tidy Guarded)

/-! Layers -/

/-- Above the environment that each restore leads back to there is one frame and those that were stacked
on it, and at the bottom there are two environments. -/
def Layered (stacked : List EnvId) : List EnvId → List EnvId → Prop
  | active, [] => active.length ≤ 2
  | active, target :: targets => target ∈ active ∧
      (active.takeWhile (· ≠ target)).length ≤ 1 + (active.takeWhile (· ≠ target)).countP (· ∈ stacked) ∧
        Layered stacked (active.dropWhile (· ≠ target)) targets

namespace Layered

variable {stacked stacked' active targets : List EnvId} {target env : EnvId}

theorem length_le (h : Layered stacked active targets) :
    active.length ≤ 2 + targets.length + active.countP (· ∈ stacked) := by
  induction targets generalizing active with
  | nil => exact Nat.le_add_right_of_le h
  | cons target targets ih =>
    obtain ⟨-, hfirst, hrest⟩ := h
    have hbelow := ih hrest
    have hsplit := List.takeWhile_append_dropWhile (p := (· ≠ target)) (l := active)
    have hlength := congrArg List.length hsplit
    have hcount := congrArg (List.countP (· ∈ stacked)) hsplit
    rw [List.length_append] at hlength
    rw [List.countP_append] at hcount
    rw [List.length_cons]
    omega

theorem mono (h : Layered stacked active targets) (hs : stacked ⊆ stacked') : Layered stacked' active targets := by
  induction targets generalizing active with
  | nil => exact h
  | cons target targets ih =>
    obtain ⟨hmem, hfirst, hrest⟩ := h
    refine ⟨hmem, Nat.le_trans hfirst (Nat.add_le_add_left ?_ 1), ih hrest⟩
    exact List.countP_mono_left fun id _ hi => by simpa using hs (by simpa using hi)

/-- A frame on top of the one that the next restore leaves. -/
theorem stack (h : Layered stacked active (target :: targets)) (hn : env ∉ active) :
    Layered (env :: stacked) (env :: active) (target :: targets) := by
  obtain ⟨hmem, hfirst, hrest⟩ := h.mono (List.subset_cons_self env stacked)
  have hne : env ≠ target := fun he => hn (he ▸ hmem)
  refine ⟨.tail _ hmem, ?_, ?_⟩
  · rw [List.takeWhile_cons_of_pos (by simpa using hne), List.length_cons, List.countP_cons_of_pos (by simp)]
    omega
  · rw [List.dropWhile_cons_of_pos (by simpa using hne)]
    exact hrest

/-- A frame on top of the one that a new restore leads back to. -/
theorem enter (h : Layered stacked active targets) (hc : active.head? = some target) (hn : env ∉ active) :
    Layered stacked (env :: active) (target :: targets) := by
  obtain ⟨below, rfl⟩ := List.head?_eq_some_iff.mp hc
  have hne : env ≠ target := fun he => hn (he ▸ .head _)
  refine ⟨.tail _ (.head _), ?_, ?_⟩
  · rw [List.takeWhile_cons_of_pos (by simpa using hne), List.takeWhile_cons_of_neg (by simp)]
    exact Nat.le_add_right 1 _
  · rw [List.dropWhile_cons_of_pos (by simpa using hne), List.dropWhile_cons_of_neg (by simp)]
    exact h

end Layered

namespace Context

variable {c d : Context} {item : Item} {rest : List Item} {stacked : List EnvId} {run : RunId}

/-- The frame, if any, that a step from one context to another stacks on its caller's: the step is a call,
and the next item after it is a restore. -/
def stackedBy (c d : Context) : List EnvId :=
  match c.control.items.items with
  | .instr (.application _) _ :: item :: _ =>
    if item.isRestore ∧ c.memory.active.length < d.memory.active.length then [d.memory.current] else []
  | _ => []

/-- The context after so many steps. -/
def after (c : Context) : Nat → Context
  | 0 => c
  | n + 1 => (c.after n).step.2

/-- The frames that so many steps stack on those of their callers. -/
def stackedWithin (c : Context) : Nat → List EnvId
  | 0 => []
  | n + 1 => (c.after n).stackedBy (c.after (n + 1)) ++ c.stackedWithin n

/-- A program is next, and only the global environment is active. -/
structure Starts (c : Context) : Prop where
  steady : c.Steady
  loaded : ∃ program, c.control = ofItems [.node program false] ∧ program.ScopedProgram
  active : c.memory.active = [.global]

/-- The program has started, and restores are pending only for what is on top of their targets. -/
structure Deepens (stacked : List EnvId) (c : Context) : Prop where
  steady : c.Steady
  tidy : Tidy c.control.items.items
  program : ∃ env, c.programEnv = some env
  layered : Layered stacked c.memory.active c.control.pending

theorem Starts.advance (h : c.Starts) (hp : c.phase ≠ .errored) (ha : c.advance? = some (item, d))
    (stacked : List EnvId) : d.Deepens stacked := by
  obtain ⟨program, hc, hs⟩ := h.loaded
  obtain ⟨frame, enters, hprogram, -, -, hpending, tidy⟩ := h.steady.tracked.start hc hs hp ha
  refine ⟨steady_kept.advanced h.steady hp ha, tidy, ⟨_, hprogram⟩, ?_⟩
  rw [hpending, enters, h.active]
  exact Nat.le_refl 2

/-- The frame of a call on top of what its caller leaves: it takes the caller's place, has a restore of its own, or
is stacked. -/
theorem Leaves.layered {m : Memory} {below : List Item} {active stacked' : List EnvId} {env : EnvId}
    (h : Leaves m rest below active) (hg : Guarded rest) (hc : m.active.head? = some m.current) (hn : env ∉ m.active)
    (hl : Layered stacked m.active (targets rest)) (hs : stacked ⊆ stacked')
    (hnext : rest.head?.any Item.isRestore = true → active = m.active → env :: stacked ⊆ stacked') :
    Layered stacked' (env :: active) (targets below) := by
  cases h with
  | replaces unneeded inner =>
    rw [hg.targets_eq_nil unneeded] at hl ⊢
    replace hl : m.active.length ≤ 2 := hl
    show m.active.tail.length + 1 ≤ 2
    rw [List.length_tail]
    omega
  | stays unneeded outermost =>
    rw [hg.targets_eq_nil unneeded]
    have hlength := congrArg List.length outermost
    rw [List.length_tail, List.length_nil] at hlength
    show m.active.length + 1 ≤ 2
    omega
  | shares next =>
    obtain ⟨item, below, rfl⟩ := List.exists_cons_of_ne_nil (show rest ≠ [] from fun he => by rw [he] at next; cases next)
    obtain ⟨target, ht⟩ := Option.isSome_iff_exists.mp (show item.restoreTarget?.isSome = true from next)
    rw [Control.targets_cons, ht] at hl ⊢
    exact (hl.stack hn).mono (hnext next rfl)
  | arranges span needed => exact (hl.enter hc hn).mono hs

theorem stackedBy_of_next {count : Nat} {span : Span} (hi : c.control.items.items = .instr (.application count) span :: rest)
    (next : rest.head?.any Item.isRestore = true) {env : EnvId} (he : d.memory.active = env :: c.memory.active) :
    c.stackedBy d = [env] := by
  cases rest with
  | nil => cases next
  | cons item below =>
    replace next : item.isRestore = true := next
    simp only [stackedBy, hi, next, Memory.current, he]
    simp

theorem Deepens.advance (h : c.Deepens stacked) (hp : c.phase ≠ .errored) (ha : c.advance? = some (item, d)) :
    d.Deepens (c.stackedBy d ++ stacked) := by
  obtain ⟨-, rest, hc, hturn⟩ := h.steady.tracked.advance hp ha
  have hitems : c.control.items.items = item :: rest := by rw [hc]; rfl
  have htidy : Tidy (item :: rest) := hitems ▸ h.tidy
  have hlayered : Layered stacked c.memory.active (targets (item :: rest)) := hitems ▸ h.layered
  have hfresh : (⟨c.memory.nextEnv⟩ : EnvId) ∉ c.memory.active :=
    fun hi => h.steady.wellFormed.memory.fresh_env (h.steady.wellFormed.memory.active _ hi)
  have hsub : stacked ⊆ c.stackedBy d ++ stacked := List.subset_append_right _ _
  have hguarded := h.steady.anchored.guarded
  rw [hitems] at hguarded
  obtain ⟨env, hprogram⟩ := h.program
  refine ⟨steady_kept.advanced h.steady hp ha, hturn.tidy htidy, ⟨env, (hturn.programEnv_eq htidy).trans hprogram⟩, ?_⟩
  cases hturn with
  | works items control active program plain htargets tidy =>
    have hpending : d.control.pending = targets (item :: rest) := by
      rw [control]
      exact htargets
    rw [active, hpending]
    exact hlayered.mono hsub
  | returns control active program =>
    obtain ⟨r, rfl, hr⟩ := htidy
    have hpending : d.control.pending = targets rest := by
      rw [control]
      exact hr.belowMarker.2
    rw [active, hpending]
    exact hlayered.mono hsub
  | restores control active program found =>
    rw [active, control]
    exact hlayered.2.2.mono hsub
  | calls leaves control enters program htargets tidy =>
    rw [Control.pending, control]
    show Layered _ d.memory.active (targets (_ ++ _))
    rw [htargets, enters]
    refine leaves.layered hguarded.2 h.steady.wellFormed.memory.head?_active hfresh hlayered hsub fun next same => ?_
    rw [stackedBy_of_next hitems next (same ▸ enters)]
    exact List.Subset.refl _
  | starts => exact absurd htidy (Turn.not_tidy_program rfl)

theorem Deepens.mono {stacked' : List EnvId} (h : c.Deepens stacked) (hs : stacked ⊆ stacked') : c.Deepens stacked' :=
  ⟨h.steady, h.tidy, h.program, h.layered.mono hs⟩

theorem Deepens.length_le_two (h : c.Deepens stacked) (hp : c.control.pending = []) : c.memory.active.length ≤ 2 := by
  have hl := h.layered
  rw [hp] at hl
  exact hl

theorem Deepens.finish (h : c.Deepens stacked) (hp : c.phase ≠ .errored) (hn : c.control.isEmpty = true) :
    c.finish.Deepens stacked := by
  obtain ⟨env, hprogram⟩ := h.program
  have hcontrol : c.finish.control = c.control := c.control_settle
  have hpending : c.control.pending = [] := by
    rw [Control.pending, List.isEmpty_iff.mp hn]
    rfl
  have hlength := h.length_le_two hpending
  obtain ⟨m, hr⟩ := c.returned_memory
  refine ⟨steady_kept.finished h.steady hp hn, hcontrol ▸ h.tidy, ⟨env, ?_⟩, ?_⟩
  · show c.returned.programEnv = some env
    rw [hr]
    exact hprogram
  · rw [hcontrol, hpending, active_finish hprogram]
    show (c.memory.unwindTo env).2.active.length ≤ 2
    by_cases hm : env ∈ c.memory.active
    · obtain ⟨below, hu, hs⟩ := Memory.unwindTo_of_mem hm
      rw [hu]
      exact Nat.le_trans hs.length_le hlength
    · rw [Memory.unwindTo_of_not_mem hm, List.length_cons, List.length_reverse, List.length_take]
      omega

theorem Deepens.step (h : c.Deepens stacked) : c.step.2.Deepens (c.stackedBy c.step.2 ++ stacked) := by
  have hsub : stacked ⊆ c.stackedBy c.step.2 ++ stacked := List.subset_append_right _ _
  rcases step_cases c with hs | ⟨hp, ⟨item, ha⟩ | ⟨hn, hs⟩⟩
  · refine Deepens.mono ?_ hsub
    rw [hs]
    exact h
  · exact h.advance hp ha
  · refine Deepens.mono ?_ hsub
    rw [hs]
    exact h.finish hp hn

theorem Starts.step (h : c.Starts) (stacked : List EnvId) : c.step.2.Starts ∨ c.step.2.Deepens stacked := by
  rcases step_cases c with hs | ⟨hp, ⟨item, ha⟩ | ⟨hn, -⟩⟩
  · rw [hs]
    exact .inl h
  · exact .inr (h.advance hp ha stacked)
  · obtain ⟨program, hc, -⟩ := h.loaded
    rw [hc] at hn
    cases hn

theorem Starts.after (h : c.Starts) (n : Nat) : (c.after n).Starts ∨ (c.after n).Deepens (c.stackedWithin n) := by
  induction n with
  | zero => exact .inl h
  | succ n ih =>
    rcases ih with hn | hn
    · exact hn.step _
    · exact .inr hn.step

/-! Bounds -/

/-- The number of pending restores. -/
def restores (c : Context) : Nat := c.control.items.items.countP Item.isRestore

theorem restores_eq (c : Context) : c.restores = c.control.pending.length :=
  List.length_filterMap_eq_countP.symm

/-- How many environments are active, given those that are stacked on their callers' ones, and what becomes of
the others. -/
structure Shallow (stacked : List EnvId) (c : Context) : Prop where
  depth : c.memory.active.length ≤ 2 + c.restores + c.memory.active.countP (· ∈ stacked)
  unpending : c.restores = 0 → c.memory.active.length ≤ 2
  /-- A call after which nothing depends on the environment leaves no restore pending, and no more active than
  a program has at its start. -/
  replaces : ∀ count span rest, c.control.items.items = .instr (.application count) span :: rest →
    (∀ i ∈ rest, i.isEnvDependent = false) → c.step.2.restores = 0 ∧ c.step.2.memory.active.length ≤ 2
  /-- While no restore is pending, a collection keeps no frame but those that the current environment, the
  program's, the global one and the Stash lead to. -/
  reclaims : c.restores = 0 → ∀ L : CseMachine.Live, c.memory.Closed L → L.envs .global → L.envs c.memory.current →
    (∀ env, c.programEnv = some env → L.envs env) → (∀ id ∈ c.rootObjects, L.objects id) →
      ∀ id, c.collectGarbage.memory.Present id → L.envs id

theorem Steady.kept_le (h : c.Steady) (hl : c.memory.active.length ≤ 2) (hr : c.restores = 0) {L : CseMachine.Live}
    (hclosed : c.memory.Closed L) (hglobal : L.envs .global) (hcurrent : L.envs c.memory.current)
    (hprogram : ∀ env, c.programEnv = some env → L.envs env) (hstash : ∀ id ∈ c.rootObjects, L.objects id)
    {id : EnvId} (hi : c.collectGarbage.memory.Present id) : L.envs id := by
  have hpending : c.control.pending = [] := List.length_eq_zero_iff.mp (c.restores_eq ▸ hr)
  have hactive : ∀ env ∈ c.memory.active, L.envs env := by
    have hhead := h.wellFormed.memory.head?_active
    have hlast := h.wellFormed.memory.outermost
    match ha : c.memory.active with
    | [] => exact nofun
    | [env] =>
      rw [ha] at hlast
      obtain rfl : env = .global := Option.some.inj hlast
      intro e he
      rwa [List.mem_singleton.mp he]
    | [env, outer] =>
      rw [ha] at hhead hlast
      obtain rfl : env = c.memory.current := Option.some.inj hhead
      obtain rfl : outer = .global := Option.some.inj hlast
      intro e he
      rcases List.mem_pair.mp he with rfl | rfl
      · exact hcurrent
      · exact hglobal
    | _ :: _ :: _ :: _ =>
      rw [ha] at hl
      simp only [List.length_cons] at hl
      omega
  refine (Memory.kept_least hclosed (fun env he => ?_) hstash).1 id (Memory.kept_of_present_collect hi)
  rcases List.mem_append.mp he with he | he
  · rcases List.mem_cons.mp he with rfl | he
    · exact hglobal
    · exact hactive env he
  · rcases List.mem_append.mp he with he | he
    · replace he : env ∈ c.control.pending := he
      rw [hpending] at he
      cases he
    · exact hprogram env (Option.mem_toList.mp he)

theorem Turn.pending_eq_nil {count : Nat} {span : Span} (h : Turn c rest (.instr (.application count) span) d)
    (hn : ∀ i ∈ rest, i.isEnvDependent = false) (ht : targets rest = []) : d.control.pending = [] := by
  cases h with
  | works items control active program plain htargets =>
    rw [control]
    exact htargets.trans ht
  | calls leaves control enters program htargets =>
    rw [control]
    refine htargets.trans ?_
    cases leaves with
    | arranges span needed =>
      obtain ⟨i, hi, hd⟩ := needed
      rw [hn i hi] at hd
      cases hd
    | _ => exact ht

theorem Deepens.shallow (h : c.Deepens stacked) : c.Shallow stacked := by
  have hunpending : c.restores = 0 → c.memory.active.length ≤ 2 :=
    fun hr => h.length_le_two (List.length_eq_zero_iff.mp (c.restores_eq ▸ hr))
  refine ⟨?_, hunpending, fun count span rest hi hn => ?_, fun hr L hc hg hcur hprog hs id hi => ?_⟩
  · rw [restores_eq]
    exact h.layered.length_le
  · have hguarded := h.steady.anchored.guarded
    rw [hi] at hguarded
    have htargets : targets rest = [] := hguarded.2.targets_eq_nil hn
    have hpending : c.step.2.control.pending = [] := by
      rcases step_cases c with hs | ⟨hp, ⟨item, ha⟩ | ⟨he, -⟩⟩
      · rw [hs, Control.pending, hi]
        exact htargets
      · obtain ⟨-, rest', hc, hturn⟩ := h.steady.tracked.advance hp ha
        rw [hc] at hi
        obtain ⟨rfl, rfl⟩ := List.cons.inj hi
        exact hturn.pending_eq_nil hn htargets
      · rw [Control.isEmpty, Stack.isEmpty, hi] at he
        cases he
    exact ⟨by rw [restores_eq, hpending]; rfl, h.step.length_le_two hpending⟩
  · exact h.steady.kept_le (hunpending hr) hr hc hg hcur hprog hs hi

theorem Starts.shallow (h : c.Starts) : c.Shallow stacked := by
  obtain ⟨program, hc, -⟩ := h.loaded
  have hlength : c.memory.active.length ≤ 2 := by
    rw [h.active]
    exact Nat.le_succ 1
  refine ⟨?_, fun _ => hlength, fun count span rest hi => ?_, fun hr L hclosed hg hcur hprog hs id hi => ?_⟩
  · omega
  · rw [hc] at hi
    cases hi
  · exact h.steady.kept_le hlength hr hclosed hg hcur hprog hs hi

theorem fresh_starts (run : RunId) {program : Node} (hp : Accepted program) : ((fresh run).load program).Starts := by
  obtain ⟨hw, ha⟩ := anchored_invariant.reachable (.started (Setup.newContext_eq none 0 run))
  have hloadable := fresh_loadable run
  have hstartable : (fresh run).Startable := ⟨_, .refl _, hloadable⟩
  have hload := hloadable.load_eq hp.scoped
  exact ⟨⟨hw.load program, ha.load hw program, hstartable.load hp⟩,
    ⟨program, congrArg control hload, hp.scoped⟩, congrArg (fun d : Context => d.memory.active) hload⟩

end Context

namespace Setup

/-- How deep the active environments of a program get in a fresh context without a prelude. -/
theorem active_shallow {source : String} {program : Node} (hp : parse source = .ok program) {bound : Nat} {run : RunId}
    {start : Context} (hn : newContext {} bound run = some (.ok start)) (n : Nat) :
    ((start.load program).after n).Shallow ((start.load program).stackedWithin n) := by
  rw [newContext_eq] at hn
  cases hn
  rcases (Context.fresh_starts run ⟨source, hp⟩).after n with h | h
  · exact h.shallow
  · exact h.shallow

/-- The text of a program that has a function call another one where its result is still to be assigned. -/
def innerCallText : String := "x = (lambda: (lambda: 1)())()"

def innerCall : Node :=
  let value : Node := .block ⟨22, 23⟩ [] [.ret ⟨22, 23⟩ (some (.literal ⟨22, 23⟩ (.int 1)))]
  let inner : Node := .lambda ⟨14, 23⟩ ⟨none, [], value, []⟩
  let body : Node := .block ⟨14, 26⟩ [] [.ret ⟨14, 26⟩ (some (.call ⟨14, 26⟩ inner []))]
  .program ⟨0, 29⟩ [⟨"x", false⟩] [.assign ⟨0, 29⟩ "x" (.call ⟨5, 29⟩ (.lambda ⟨5, 26⟩ ⟨none, [], body, []⟩) []) true]

theorem parse_innerCallText : parse innerCallText = .ok innerCall := by
  have hlex : lex innerCallText = .ok
      [⟨.ident "x", 0, 1⟩, ⟨.symbol .assign, 2, 3⟩, ⟨.symbol .lparen, 4, 5⟩, ⟨.keyword .lambda, 5, 11⟩,
        ⟨.symbol .colon, 11, 12⟩, ⟨.symbol .lparen, 13, 14⟩, ⟨.keyword .lambda, 14, 20⟩, ⟨.symbol .colon, 20, 21⟩,
        ⟨.int 1, 22, 23⟩, ⟨.symbol .rparen, 23, 24⟩, ⟨.symbol .lparen, 24, 25⟩, ⟨.symbol .rparen, 25, 26⟩,
        ⟨.symbol .rparen, 26, 27⟩, ⟨.symbol .lparen, 27, 28⟩, ⟨.symbol .rparen, 28, 29⟩, ⟨.newline, 29, 29⟩,
        ⟨.eof, 29, 29⟩] := by decide +kernel
  rw [parse, hlex]
  cbv

theorem active_shallow_innerCall :
    ((Context.fresh ⟨0⟩).load innerCall).stackedWithin 8 = [⟨3⟩] ∧
      (((Context.fresh ⟨0⟩).load innerCall).after 8).Shallow [⟨3⟩] := by
  have hs : ((Context.fresh ⟨0⟩).load innerCall).stackedWithin 8 = [⟨3⟩] := by decide +kernel
  have h := active_shallow parse_innerCallText (newContext_eq none 0 ⟨0⟩) 8
  rw [hs] at h
  exact ⟨hs, h⟩

/-- The number of pending restores alone is no bound, since a call that finds one next stacks its frame. -/
theorem not_active_le_restores : ¬∀ source program n, parse source = .ok program →
    (((Context.fresh ⟨0⟩).load program).after n).memory.active.length ≤
      2 + (((Context.fresh ⟨0⟩).load program).after n).restores := by
  intro h
  have hdepth := h innerCallText innerCall 8 parse_innerCallText
  have hlength : (((Context.fresh ⟨0⟩).load innerCall).after 8).memory.active.length = 4 := by decide +kernel
  have hrestores : (((Context.fresh ⟨0⟩).load innerCall).after 8).restores = 1 := by decide +kernel
  omega

end Setup
end CseMachine
