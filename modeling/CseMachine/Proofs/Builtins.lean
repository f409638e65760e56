import CseMachine.Proofs.Operands
import CseMachine.Proofs.Settling
import CseMachine.Proofs.Turns
import CseMachine.Proofs.Writes

/-!
# Builtins stay as they are

The builtins are constants of the global environment. The first step of a program
leaves this environment, and no program comes back to it: what is declared is declared
further in, and an assignment that finds a builtin fails. So whatever programs are
loaded, at whatever moment, the names of the builtins stay bound to what they were bound
to at the start.
-/
namespace CseMachine

open Relation (ReflTransGen)

/-- The contexts of one evaluation in which programs are loaded that the parser accepts, at whatever moment, stepped and
run with any limits. -/
inductive Setup.Hosts (s : Setup) (run : RunId) : Context → Prop
  | started {bound : Nat} {c : Context} (h : s.newContext bound run = some (.ok c)) : Hosts s run c
  /-- A start that fails leaves a context too. -/
  | failed {bound : Nat} {f : Setup.StartFailure} (h : s.newContext bound run = some (.error f)) : Hosts s run f.context
  | loaded {c : Context} {program : Node} (before : Hosts s run c) (accepted : Accepted program) :
      Hosts s run (c.load program)
  | stepped {c : Context} (before : Hosts s run c) : Hosts s run c.step.2
  | ran {c d : Context} {limits : Limits} {bound : Nat} {outcome : Outcome} (before : Hosts s run c)
      (h : c.runWithin bound limits = some (outcome, d)) : Hosts s run d

namespace Context

variable {c d : Context} {item : Item} {g : List (String × Slot)}

/-- No program has been started yet. -/
structure Unstarted (c : Context) : Prop extends Apart c where
  programs : ∀ item ∈ c.control.items.items, item.isProgram = true

/-- The global environment has these names, which may not be assigned, and unless a step failed the machine is outside
of it or about to leave it. -/
structure Shielded (g : List (String × Slot)) (c : Context) : Prop where
  constant : ∀ b ∈ g, b.2.constant = true
  global : c.memory.bindings? .global = some g
  position : c.phase ≠ .errored → c.Inside ∨ c.Unstarted

theorem isProgram_iff {item : Item} : item.isProgram = true ↔
    ∃ span declarations body skipEnv, item = .node (.program span declarations body) skipEnv := by
  constructor
  · intro h
    unfold Item.isProgram at h
    split at h
    · exact ⟨_, _, _, _, rfl⟩
    · cases h
  · rintro ⟨span, declarations, body, skipEnv, rfl⟩
    rfl

namespace Shielded

/-- A name that is found in the global environment is a constant. -/
theorem constant_of_found (h : c.Shielded g) {name : String} {frame : Environment} {slot : Slot}
    (hr : c.memory.resolve name = .found .global frame slot) : slot.constant = true := by
  obtain ⟨he, hl⟩ := Memory.resolveFrom_found hr
  have hbound := Memory.bindings?_eq he
  rw [h.global] at hbound
  have hmem := Environment.mem_of_lookup?_eq_some hl
  rw [← Option.some.inj hbound] at hmem
  exact h.constant _ hmem

/-- No item may write the global environment, unless it is current. -/
theorem not_writes (h : c.Shielded g) (hc : c.memory.current ≠ .global ∨ item.isProgram = true)
    (hn : 0 < c.memory.nextEnv) : ¬item.Writes c.memory .global := by
  have hnew : ¬c.memory.nextEnv ≤ EnvId.global.index := Nat.not_le.mpr hn
  have hcurrent : item.isProgram = false → EnvId.global ≠ c.memory.current := by
    intro hp he
    rcases hc with hc | hc
    · exact hc he.symm
    · rw [hp] at hc
      cases hc
  intro hw
  unfold Item.Writes at hw
  split at hw
  · exact hcurrent rfl hw
  · exact hcurrent rfl hw
  · obtain ⟨frame, slot, hr, hs⟩ := hw
    cases (h.constant_of_found hr).symm.trans hs
  · exact hnew hw

variable (h : c.Shielded g) (hp : c.phase ≠ .errored)
include h hp

/-- An item writes no names of the global environment, and if it succeeds the machine is outside of it. -/
theorem execute {rest : Control} (hpop : c.control.pop? = some (item, rest)) :
    Leads (Writes (item.Writes c.memory)) (c.taken rest) (fun d _ => d.Inside) (Action.execute item (c.taken rest)) ∧
      ¬item.Writes c.memory .global := by
  have hpending := Control.pending_pop? hpop
  have htaken : ∀ {c : Context}, c.control.pop? = some (item, rest) → c.Apart → (c.taken rest).Apart := by
    intro c hpop ha
    refine ha.congr (Nat.le_refl _) rfl ?_
    rw [Control.pending_pop? hpop]
    exact List.subset_append_right _ _
  rcases h.position hp with hi | hu
  · have hin : (c.taken rest).Inside := ⟨htaken hpop hi.toApart, hi.current⟩
    refine ⟨hin.execute fun ht => hi.pending ?_, h.not_writes (.inl hi.current) hi.made⟩
    rw [hpending, ht]
    exact .head _
  · have hprogram : item.isProgram = true := by
      refine hu.programs item ?_
      rw [Control.items_pop? hpop]
      exact .head _
    obtain ⟨span, declarations, body, skipEnv, rfl⟩ := isProgram_iff.mp hprogram
    exact ⟨(htaken hpop hu.toApart).execute_program skipEnv span declarations body, h.not_writes (.inr rfl) hu.made⟩

end Shielded

/-- What the machine is in is not changed by a collection. -/
theorem Inside.collectGarbage (h : c.Inside) : c.collectGarbage.Inside := by
  have ha := Memory.agreeOn_collect c.memory c.rootEnvs c.rootObjects
  exact h.withMemory (Nat.le_of_eq ha.nextEnv) ha.active.symm

/-- A collection keeps the names of the environments that it keeps. -/
theorem bindings?_collectGarbage (c : Context) (id : EnvId) :
    c.collectGarbage.memory.bindings? id = none ∨ c.collectGarbage.memory.bindings? id = c.memory.bindings? id := by
  have ha := Memory.agreeOn_collect c.memory c.rootEnvs c.rootObjects
  cases he : c.collectGarbage.memory.environment? id with
  | none => exact .inl (Memory.bindings?_eq_none he)
  | some e => exact .inr (ha.bindings? (Memory.kept_of_present_collect (Option.isSome_iff_exists.mpr ⟨e, he⟩)))

theorem global_collectGarbage (c : Context) : c.collectGarbage.memory.bindings? .global = c.memory.bindings? .global :=
  (Memory.agreeOn_collect c.memory c.rootEnvs c.rootObjects).bindings? (Memory.kept_env (.head _))

namespace Shielded

variable (h : c.Shielded g)
include h

theorem advance (hp : c.phase ≠ .errored) (ha : c.advance? = some (item, d)) : d.Shielded g := by
  obtain ⟨rest, e, hpop, hx⟩ := advance?_eq_some ha
  obtain ⟨hw, hn⟩ := h.execute hp hpop
  have hkept : ∀ {d : Context}, Writes (item.Writes c.memory) (c.taken rest) d → d.memory.bindings? .global = some g :=
    fun hd => (hd.bindings .global hn).trans h.global
  rcases hx with ⟨hx, rfl⟩ | ⟨error, hx, rfl⟩
  · rw [hx] at hw
    have hglobal := hkept (Writes.of_changes hw.1)
    split
    · exact ⟨h.constant, e.global_collectGarbage.trans hglobal, fun _ => .inl hw.2.collectGarbage⟩
    · exact ⟨h.constant, hglobal, fun _ => .inl hw.2⟩
  · rw [hx] at hw
    have hglobal : e.memory.bindings? .global = some g := hkept (Writes.of_changes (d := e) hw)
    exact ⟨h.constant, hglobal, fun hn => absurd rfl hn⟩

theorem load {program : Node} (hp : program.ScopedProgram) : (c.load program).Shielded g := by
  simp only [Context.load]
  split
  · exact h
  · next hne =>
    have hpending : (c.control.pushNode program).pending ⊆ c.control.pending := fun id hi =>
      @Control.pending_pushAll c.control [.node program false] rfl ▸ hi
    refine ⟨h.constant, h.global, fun _ => ?_⟩
    rcases h.position hne with hi | hu
    · exact .inl (hi.quiet rfl rfl hpending)
    · refine .inr ⟨hu.toApart.congr (Nat.le_refl _) rfl hpending, fun item hi => ?_⟩
      cases program with
      | program span declarations body =>
        rcases List.mem_cons.mp hi with rfl | hi
        · rfl
        · exact hu.programs item hi
      | _ => exact hp.elim

/-- After the last item the machine is in the environment of the program, if there was one. -/
theorem finish (hp : c.phase ≠ .errored) : c.finish.Shielded g := by
  have ha : c.Apart := by
    rcases h.position hp with hi | hu
    · exact hi.toApart
    · exact hu.toApart
  cases hprogram : c.programEnv with
  | none =>
    have hr : c.returned = c := by simp only [returned, hprogram]
    have hf : c.finish = { c.collectGarbage with phase := .finished } := by
      show { c.returned.collectGarbage with phase := .finished } = _
      rw [hr]
    rw [hf]
    refine ⟨h.constant, c.global_collectGarbage.trans h.global, fun _ => ?_⟩
    rcases h.position hp with hi | hu
    · exact .inl (hi.collectGarbage.quiet rfl rfl (List.Subset.refl _))
    · have hn := (Memory.agreeOn_collect c.memory c.rootEnvs c.rootObjects).nextEnv
      exact .inr ⟨ha.congr (Nat.le_of_eq hn) rfl (List.Subset.refl _), hu.programs⟩
  | some program =>
    obtain ⟨m, hr, hm⟩ := returned_eq hprogram
    have hw : Memory.Spares (fun _ => False) c.memory m := (Memory.Spares.withActive c.memory _).trans (.of_agreeOn hm)
    have hcurrent : m.current = program := by
      have hhead := Memory.head?_unwindTo c.memory program
      rw [hm.active] at hhead
      simp only [Memory.current, List.headD_eq_head?_getD, hhead, Option.getD_some]
    have hi : c.returned.Inside := by
      rw [hr]
      refine ⟨ha.congr hw.nextEnv rfl (List.Subset.refl _), fun he => ha.program ?_⟩
      rw [hprogram, ← hcurrent]
      exact congrArg some he
    have hglobal : c.returned.memory.bindings? .global = some g := by
      rw [hr]
      exact (hw.bindings .global not_false).trans h.global
    refine ⟨h.constant, ?_, fun _ => .inl ?_⟩
    · exact c.returned.global_collectGarbage.trans hglobal
    · exact hi.collectGarbage.quiet rfl rfl (List.Subset.refl _)

theorem congr (hm : d.memory = c.memory) (hc : d.control = c.control) (hpe : d.programEnv = c.programEnv)
    (hp : d.phase ≠ .errored → c.phase ≠ .errored) : d.Shielded g := by
  refine ⟨h.constant, hm ▸ h.global, fun hd => ?_⟩
  rcases h.position (hp hd) with hi | hu
  · exact .inl (hi.quiet hm hpe (hc ▸ List.Subset.refl _))
  · exact .inr ⟨hu.toApart.congr (hm ▸ Nat.le_refl _) hpe (hc ▸ List.Subset.refl _), hc ▸ hu.programs⟩

end Shielded

theorem shielded_kept (g : List (String × Slot)) : Kept (Shielded g) where
  advanced h hp ha := h.advance hp ha
  finished h hp _ := h.finish hp
  suspended h hp := h.congr rfl rfl rfl fun _ => hp

end Context

/-! Starts -/

namespace Memory

variable {m m' : Memory}

/-- All names of the global environment are constants. -/
structure Constants (m : Memory) : Prop where
  global : ∃ e, m.environment? .global = some e ∧ ∀ b ∈ e.bindings, b.2.constant = true
  made : 0 < m.nextEnv

theorem Constants.set (h : m.Constants) {e : Environment} (he : ∀ b ∈ e.bindings, b.2.constant = true) :
    (m.setEnvironment .global e).Constants :=
  ⟨⟨e, environment?_set m .global e, he⟩, h.made⟩

theorem constants_declare (h : m.Constants) (name : String) :
    Leads (fun _ m' => m'.Constants) m Any (declare .global name true m) := by
  obtain ⟨e, he, hc⟩ := h.global
  simp only [declare, he]
  cases hd : e.declare? name true with
  | none => exact .error _ _ _ _
  | some e' =>
    refine .single (h.set fun b hb => ?_) trivial
    simp only [Environment.declare?] at hd
    split at hd
    · cases hd
    · cases hd
      rcases List.mem_append.mp hb with hb | hb
      · exact hc b hb
      · rw [List.mem_singleton.mp hb]

theorem constants_define (h : m.Constants) (name : String) (w : Value) :
    Leads (fun _ m' => m'.Constants) m Any (define .global name w true m) := by
  obtain ⟨e, he, hc⟩ := h.global
  simp only [define, he]
  cases hd : e.define? name w true with
  | none => exact .error _ _ _ _
  | some e' =>
    obtain rfl := Environment.eq_setSlot_of_define? hd
    refine .single (h.set fun b hb => ?_) trivial
    obtain ⟨⟨x, slot⟩, hm, rfl⟩ := List.mem_map.mp hb
    dsimp only
    split
    · rfl
    · exact hc _ hm

theorem Constants.of_changes (h : m.Constants) (hc : ReflTransGen (fun _ m' => m'.Constants) m m') : m'.Constants := by
  cases hc with
  | refl => exact h
  | tail _ h' => exact h'

theorem constants_bindAll (h : m.Constants) (bindings : List (String × Value)) :
    Leads (fun _ m' => m'.Constants) m Any (Setup.bindAll bindings m) :=
  leads_bindAll_of_each h Constants.of_changes (fun _ h => constants_declare h _) fun _ h => constants_define h _ _

end Memory

/-- What the names of the global environment are bound to once the builtins are bound. -/
def Setup.builtins (s : Setup) : List (String × Slot) :=
  match bindAll s.registry.bindings .initial with
  | .ok _ m => (m.bindings? .global).getD []
  | .error _ m => (m.bindings? .global).getD []

/-- If no two builtins have the same name, each is a constant with its value. -/
theorem Setup.builtins_eq {s : Setup} (h : (s.registry.bindings.map Prod.fst).Nodup) :
    s.builtins = Memory.boundSlots s.registry.bindings := by
  simp only [builtins, Memory.bindAll_ok (Memory.environment?_initial .global) h fun _ _ => rfl]
  rw [Memory.bindings?_eq (Memory.environment?_set _ _ _)]
  rfl

namespace Setup

open Context (Shielded)

variable {s : Setup} {run : RunId} {c : Context}

theorem shielded_fresh {m : Memory} (h : m.Constants) {g : List (String × Slot)} (hg : (m.bindings? .global).getD [] = g) :
    Shielded g { run, memory := m } := by
  obtain ⟨e, he, hc⟩ := h.global
  rw [Memory.bindings?_eq he] at hg
  obtain rfl : e.bindings = g := hg
  exact ⟨hc, Memory.bindings?_eq he, fun _ => .inr ⟨⟨nofun, List.not_mem_nil, h.made⟩, nofun⟩⟩

theorem shielded_newContext (hp : ∀ program, s.prelude = some program → Accepted program) {bound : Nat}
    {r : Except StartFailure Context} (hr : s.newContext bound run = some r) :
    (∀ c, r = .ok c → c.Shielded s.builtins) ∧ ∀ f, r = .error f → f.context.Shielded s.builtins := by
  have hinitial : Memory.initial.Constants :=
    ⟨⟨Memory.globalFrame, Memory.environment?_initial .global, fun _ hb => absurd hb List.not_mem_nil⟩, Nat.zero_lt_one⟩
  have hbind := Memory.constants_bindAll hinitial s.registry.bindings
  refine (Context.shielded_kept s.builtins).newContext (fun hm => ?_) (fun hm => ?_) (fun hd hf _ => ?_)
    (fun {c} _ hprelude hd => ?_) (fun hd => hd.congr rfl rfl rfl id) hr
  · rw [hm] at hbind
    exact shielded_fresh (hinitial.of_changes hbind) (by simp only [builtins, hm])
  · rw [hm] at hbind
    exact shielded_fresh (hinitial.of_changes hbind.1) (by simp only [builtins, hm])
  · exact hd.congr rfl rfl rfl fun _ => by rw [hf]; exact nofun
  · have hpredefining : Shielded s.builtins { c with predefined := true } := hd.congr rfl rfl rfl id
    exact hpredefining.load (hp _ hprelude).scoped

/-- The builtins are shielded whatever is loaded and however it is run. -/
theorem Hosts.shielded (hp : ∀ program, s.prelude = some program → Accepted program) (h : s.Hosts run c) :
    c.Shielded s.builtins := by
  induction h with
  | started h => exact (shielded_newContext hp h).1 _ rfl
  | failed h => exact (shielded_newContext hp h).2 _ rfl
  | loaded _ accepted ih => exact ih.load accepted.scoped
  | stepped _ ih => exact (Context.shielded_kept _).step ih
  | ran _ h ih => exact (Context.shielded_kept _).runWithin ih h

theorem Hosts.reachable (h : s.Hosts run c) : s.Reachable run c := by
  induction h with
  | started h => exact .started h
  | failed h => exact .failed h
  | loaded _ _ ih => exact ih.loaded _
  | stepped _ ih => exact ih.stepped
  | ran _ h ih => exact ih.ran h

theorem Hosts.supplied (h : s.Hosts run c) : c.phase ≠ .errored → c.Supplied := h.reachable.supplied

end Setup

namespace Context

variable {c d : Context} {item : Item} {g : List (String × Slot)}

/-- What a step makes of the names that are bound. -/
structure Binds (c : Context) (item : Item) (d : Context) : Prop where
  /-- An environment that the item does not write keeps its names with their values, unless a collection frees it. -/
  spared : ∀ id, ¬item.Writes c.memory id →
    d.memory.bindings? id = none ∨ d.memory.bindings? id = c.memory.bindings? id
  shielded : ¬item.Writes c.memory .global
  /-- An assignment that finds a builtin fails and binds nothing. -/
  reassigns : ∀ name constant span frame slot, item = .instr (.assignment name constant false) span →
    c.memory.resolve name = .found .global frame slot → d.phase = .errored ∧
      d.errors = c.errors ++ [({ cause := .constantReassignment name } : EvalError).withSpan span] ∧
        ∀ id, d.memory.bindings? id = c.memory.bindings? id

/-- An assignment that is no declaration fails where it finds a constant, and binds nothing. -/
theorem reassigns_constant (hs : c.Supplied) {name : String} {constant : Bool} {span : Span} {env : EnvId}
    {frame : Environment} {slot : Slot} (ha : c.advance? = some (.instr (.assignment name constant false) span, d))
    (hr : c.memory.resolve name = .found env frame slot) (hc : slot.constant = true) : d.phase = .errored ∧
      d.errors = c.errors ++ [({ cause := .constantReassignment name } : EvalError).withSpan span] ∧
        ∀ id, d.memory.bindings? id = c.memory.bindings? id := by
  obtain ⟨rest, e, hpop, hx⟩ := advance?_eq_some ha
  obtain ⟨w, stash, hstash⟩ := hs.exists_value hpop rfl
  have hbind : Memory.bindName name w constant false (c.memory.named w name) =
      .error { cause := .constantReassignment name } (c.memory.named w name) := by
    simp only [Memory.bindName, Memory.assign, c.memory.resolve_named, hr, hc, if_true, Bool.false_eq_true, if_false]
  have hfail := @Variant.execute_assignment_error Variant.standard (c.taken rest) span _ _ _ _ _ _ _ hstash hbind
  rw [Variant.execute_standard] at hfail
  rcases hx with ⟨hx, -⟩ | ⟨error, hx, rfl⟩
  · cases hfail.symm.trans hx
  · cases hfail.symm.trans hx
    refine ⟨rfl, rfl, fun id => ?_⟩
    exact (Memory.Writes.named (W := fun _ => False) c.memory w name).bindings id not_false

namespace Shielded

variable (h : c.Shielded g) (hp : c.phase ≠ .errored)
include h hp

theorem binds (hs : c.Supplied) (ha : c.advance? = some (item, d)) : c.Binds item d := by
  obtain ⟨rest, e, hpop, hx⟩ := advance?_eq_some ha
  obtain ⟨hw, hn⟩ := h.execute hp hpop
  refine ⟨fun id hid => ?_, hn, fun name constant span frame slot hi hr => ?_⟩
  · rcases hx with ⟨hx, rfl⟩ | ⟨error, hx, rfl⟩
    · rw [hx] at hw
      have hspared := (Writes.of_changes hw.1).bindings id hid
      split
      · exact (e.bindings?_collectGarbage id).imp_right fun he => he.trans hspared
      · exact .inr hspared
    · rw [hx] at hw
      exact .inr ((Writes.of_changes (d := e) hw).bindings id hid)
  · subst hi
    exact reassigns_constant hs ha hr (h.constant_of_found hr)

end Shielded
end Context
namespace Setup

/-- Whatever programs are loaded, at whatever moment, and however they are run, the names of the builtins stay bound to
what they were bound to at the start. No step writes them, an assignment that finds one fails, and in the tree of a
source the assignments of a name are declarations where the name is neither a parameter nor taken from outside. -/
theorem builtins_unchanged {s : Setup} {run : RunId} {c : Context}
    (hp : ∀ program, s.prelude = some program → Accepted program) (h : s.Hosts run c) :
    (c.memory.bindings? .global = some s.builtins ∧
      ((s.registry.bindings.map Prod.fst).Nodup → s.builtins = Memory.boundSlots s.registry.bindings)) ∧
    (∀ item d, c.phase ≠ .errored → c.advance? = some (item, d) → c.Binds item d) ∧
    ∀ source program, parse source = .ok program →
      ∃ tokens p, lex source = .ok tokens ∧ Written.Suite.Whole p tokens ∧ p.ResolvesProgram program := by
  have hshielded := h.shielded hp
  refine ⟨⟨hshielded.global, builtins_eq⟩, fun item d hne ha => ?_, fun source program hparse => ?_⟩
  · exact hshielded.binds hne (h.supplied hne) ha
  · obtain ⟨tokens, hlex, hprogram⟩ := bind_ok_iff.mp hparse
    obtain ⟨p, hwhole, hresolves⟩ := Parse.program_reads tokens program hprogram
    exact ⟨tokens, p, hlex, hwhole, hresolves⟩

/-- One builtin. -/
def printing : Setup := { registry := ⟨[.print], []⟩ }

/-- The tree of a function that takes `print` from outside to assign it, and a call of it. -/
def reassigning : Node :=
  .program ⟨0, 40⟩ [⟨"f", false⟩]
    [.define ⟨0, 35⟩ "f"
      ⟨some "f", [], .block ⟨26, 35⟩ [] [.assign ⟨26, 35⟩ "print" (.literal ⟨34, 35⟩ (.int 1)) false, .ret ⟨35, 35⟩ none], []⟩
      true,
      .expression ⟨36, 39⟩ (.call ⟨36, 39⟩ (.identifier ⟨36, 37⟩ "f") [])]

theorem accepted_reassigning : Accepted reassigning := by
  have hlex : lex "def f():\n nonlocal print\n print = 1\nf()\n" = .ok
      [⟨.keyword .def_, 0, 3⟩, ⟨.ident "f", 4, 5⟩, ⟨.symbol .lparen, 5, 6⟩, ⟨.symbol .rparen, 6, 7⟩, ⟨.symbol .colon, 7, 8⟩,
        ⟨.newline, 8, 9⟩, ⟨.indent, 10, 10⟩, ⟨.keyword .nonlocal, 10, 18⟩, ⟨.ident "print", 19, 24⟩, ⟨.newline, 24, 25⟩,
        ⟨.ident "print", 26, 31⟩, ⟨.symbol .assign, 32, 33⟩, ⟨.int 1, 34, 35⟩, ⟨.newline, 35, 36⟩, ⟨.dedent, 36, 36⟩,
        ⟨.ident "f", 36, 37⟩, ⟨.symbol .lparen, 37, 38⟩, ⟨.symbol .rparen, 38, 39⟩, ⟨.newline, 39, 40⟩, ⟨.eof, 40, 40⟩] := by
    decide +kernel
  have hparse : parse "def f():\n nonlocal print\n print = 1\nf()\n" = .ok reassigning := by
    rw [parse, hlex]
    cbv
  exact ⟨_, hparse⟩

theorem builtins_unchanged_reassigning : (∀ program, printing.prelude = some program → Accepted program) ∧
    ∃ start outcome d, printing.newContext 0 ⟨0⟩ = some (.ok start) ∧
      (start.load reassigning).runWithin 30 {} = some (outcome, d) ∧ printing.Hosts ⟨0⟩ d ∧
        d.errors.map (·.cause) = [.constantReassignment "print"] ∧
          d.memory.bindings? .global = some [("print", ⟨some (.builtin .print), true⟩)] := by
  have hp : ∀ program, printing.prelude = some program → Accepted program := fun _ h => by cases h
  have hrun : ((printing.newContext 0 ⟨0⟩).bind Except.toOption).bind (fun start =>
      ((start.load reassigning).runWithin 30 {}).map fun r => r.2.errors.map (·.cause)) =
        some [.constantReassignment "print"] := by cbv
  obtain ⟨start, hstart, hran⟩ := Option.bind_eq_some_iff.mp hrun
  obtain ⟨made, hmade, hok⟩ := Option.bind_eq_some_iff.mp hstart
  obtain ⟨⟨outcome, d⟩, hd, hcauses⟩ := Option.map_eq_some_iff.mp hran
  have hs : printing.newContext 0 ⟨0⟩ = some (.ok start) := by
    cases made with
    | error e => cases hok
    | ok c => exact Option.some.inj hok ▸ hmade
  have hosts : printing.Hosts ⟨0⟩ d := .ran (.loaded (.started hs) accepted_reassigning) hd
  obtain ⟨⟨hglobal, hbuiltins⟩, -⟩ := builtins_unchanged hp hosts
  exact ⟨hp, start, outcome, d, hs, hd, hosts, hcauses, hglobal.trans (congrArg some (hbuiltins (by decide)))⟩

end Setup
end CseMachine
