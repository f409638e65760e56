import CseMachine.Proofs.Restores
import CseMachine.Proofs.Safety
import CseMachine.Proofs.Turns.Tidy

/-!
# Turns

Seen from Control and from the active environments a step does one of five things:
it works in the current environment, gives up the rest of a call, goes back to an
environment, enters the frame of a call or starts a program. Which of them it does
and what it leaves is the same with and without collections.
-/
namespace CseMachine

open Control (ofItems targets Tidy TidyFrom)

def Item.isProgram : Item → Bool
  | .node (.program ..) _ => true
  | _ => false

theorem Node.isProgram_of_parts {n : Node} {items : List Item} (h : n.parts? = some items) (skip : Bool) :
    (Item.node n skip).isProgram = false := by
  cases n with
  | program => cases h
  | _ => rfl

namespace Context

variable {c c' d d' : Context} {item : Item} {rest below : List Item} {active : List EnvId}

/-- What lies below the body of a call, and the environments that its frame is put on. -/
inductive Leaves (m : Memory) (rest : List Item) : List Item → List EnvId → Prop
  /-- Nothing left depends on the environment, and the frame takes the caller's place. -/
  | replaces (unneeded : ∀ i ∈ rest, i.isEnvDependent = false) (inner : m.active.tail ≠ []) :
      Leaves m rest rest m.active.tail
  /-- The outermost environment is not replaced. -/
  | stays (unneeded : ∀ i ∈ rest, i.isEnvDependent = false) (outermost : m.active.tail = []) :
      Leaves m rest rest m.active
  /-- A restore is next anyway. -/
  | shares (next : rest.head?.any Item.isRestore = true) : Leaves m rest rest m.active
  | arranges (span : Span) (needed : ∃ i ∈ rest, i.isEnvDependent = true) :
      Leaves m rest (.instr (.restore m.current) span :: rest) m.active

/-- What executing an item makes of a context that has the rest on Control. -/
inductive Turn (c : Context) (rest : List Item) : Item → Context → Prop
  | works {item : Item} (items : List Item) {d : Context} (control : d.control = ofItems (items ++ rest))
      (active : d.memory.active = c.memory.active) (program : d.programEnv = c.programEnv)
      (plain : item.isProgram = false) (targets : targets (items ++ rest) = targets (item :: rest))
      (tidy : Tidy (item :: rest) → Tidy (items ++ rest)) : Turn c rest item d
  | returns {span : Span} {d : Context} (control : d.control = ofItems (Control.belowMarker rest))
      (active : d.memory.active = c.memory.active) (program : d.programEnv = c.programEnv) :
      Turn c rest (.instr .reset span) d
  | restores {target : EnvId} {span : Span} {d : Context} (control : d.control = ofItems rest)
      (active : d.memory.active = c.memory.active.dropWhile (· ≠ target)) (program : d.programEnv = c.programEnv)
      (found : target ∈ c.memory.active) : Turn c rest (.instr (.restore target) span) d
  | calls {count : Nat} {span : Span} {body below : List Item} {active : List EnvId} {d : Context}
      (leaves : Leaves c.memory rest below active) (control : d.control = ofItems (body ++ below))
      (enters : d.memory.active = ⟨c.memory.nextEnv⟩ :: active) (program : d.programEnv = c.programEnv)
      (targets : targets (body ++ below) = targets below) (tidy : Tidy below → Tidy (body ++ below)) :
      Turn c rest (.instr (.application count) span) d
  | starts {span : Span} {declarations : List Declaration} {body : List Node} {skip : Bool} {items : List Item}
      {frame : Environment} {d : Context} (last : rest = []) (control : d.control = ofItems items)
      (enters : d.memory.active = ⟨c.memory.nextEnv⟩ :: c.memory.active) (program : d.programEnv = some ⟨c.memory.nextEnv⟩)
      (found : d.memory.environment? ⟨c.memory.nextEnv⟩ = some frame)
      (tail : frame.tail = some (Action.programTail c)) (targets : targets items = []) (tidy : Tidy items) :
      Turn c rest (.node (.program span declarations body) skip) d

namespace Turn

/-- A step that only works on the Stash and in memory. -/
theorem quiet (hi : item.restoreTarget? = none) (hn : item.isProgram = false) (hc : d.control = ofItems rest)
    (ha : d.memory.active = c.memory.active) (hp : d.programEnv = c.programEnv) : Turn c rest item d := by
  refine .works [] hc ha hp hn ?_ fun ⟨r, h⟩ => h.tidy_rest
  rw [Control.targets_cons, hi]
  rfl

/-- A turn is a matter of Control, the active environments and the program's environment. -/
theorem congr (h : Turn c rest item d) (hactive : c'.memory.active = c.memory.active)
    (hnext : c'.memory.nextEnv = c.memory.nextEnv) (hprogram : c'.programEnv = c.programEnv)
    (hd : d'.control = d.control) (hda : d'.memory.active = d.memory.active) (hdp : d'.programEnv = d.programEnv)
    (hf : ∀ env e, d.programEnv = some env → d.memory.environment? env = some e →
      ∃ e', d'.memory.environment? env = some e' ∧ e'.tail = e.tail) : Turn c' rest item d' := by
  have hcurrent : c'.memory.current = c.memory.current := by
    simp only [Memory.current]
    rw [hactive]
  cases h with
  | works items control active program plain htargets tidy =>
    exact .works items (hd.trans control) (hda.trans (active.trans hactive.symm)) (hdp.trans (program.trans hprogram.symm))
      plain htargets tidy
  | returns control active program =>
    exact .returns (hd.trans control) (hda.trans (active.trans hactive.symm)) (hdp.trans (program.trans hprogram.symm))
  | restores control active program found =>
    exact .restores (hd.trans control) (hactive ▸ hda.trans active) (hdp.trans (program.trans hprogram.symm))
      (hactive ▸ found)
  | calls leaves control enters program htargets tidy =>
    refine .calls ?_ (hd.trans control) (hnext ▸ hda.trans enters) (hdp.trans (program.trans hprogram.symm)) htargets tidy
    cases leaves with
    | replaces unneeded inner => exact hactive ▸ .replaces unneeded (hactive ▸ inner)
    | stays unneeded outermost => exact hactive ▸ .stays unneeded (hactive ▸ outermost)
    | shares next => exact hactive ▸ .shares next
    | arranges span needed => exact hactive ▸ hcurrent ▸ .arranges span needed
  | starts last control enters program found tail htargets tidy =>
    obtain ⟨frame', hfound, htail⟩ := hf _ _ program found
    have hprogramTail : Action.programTail c' = Action.programTail c := by
      simp only [Action.programTail]
      rw [hcurrent, hprogram]
    rw [← hnext] at enters program hfound
    exact .starts last (hd.trans control) (hactive ▸ hda.trans enters) (hdp.trans program) hfound
      (hprogramTail ▸ htail.trans tail) htargets tidy

/-- A program is not found among other items. -/
theorem not_tidy_program {n : Node} {skip : Bool} (hn : (Item.node n skip).isProgram = true) :
    ¬Tidy (.node n skip :: rest) := by
  rintro ⟨r, h, -⟩
  cases n with
  | program => exact h
  | _ => cases hn

theorem tidy (h : Turn c rest item d) (ht : Tidy (item :: rest)) : Tidy d.control.items.items := by
  cases h with
  | works items control active program plain htargets tidy =>
    rw [control]
    exact tidy ht
  | returns control =>
    rw [control]
    obtain ⟨r, rfl, hr⟩ := ht
    exact hr.belowMarker.1
  | restores control =>
    rw [control]
    obtain ⟨r, hr⟩ := ht
    exact hr.tidy_rest
  | calls leaves control enters program htargets tidy =>
    rw [control]
    obtain ⟨r, hr⟩ := ht
    refine tidy ?_
    cases leaves with
    | arranges span =>
      obtain ⟨r', hr'⟩ := hr.tidy_rest
      exact ⟨false, rfl, r', hr'⟩
    | _ => exact hr.tidy_rest
  | starts last control enters program found tail htargets tidy =>
    rw [control]
    exact tidy

theorem programEnv_eq (h : Turn c rest item d) (ht : Tidy (item :: rest)) : d.programEnv = c.programEnv := by
  cases h with
  | starts => exact absurd ht (not_tidy_program rfl)
  | works _ _ _ program => exact program
  | returns _ _ program => exact program
  | restores _ _ program => exact program
  | calls _ _ _ program => exact program

/-- Only the innermost environments are left, and one that is entered is new. -/
theorem active_cases (h : Turn c rest item d) : ∃ kept, kept <:+ c.memory.active ∧
    (d.memory.active = kept ∨ d.memory.active = ⟨c.memory.nextEnv⟩ :: kept) := by
  cases h with
  | works _ _ active => exact ⟨_, List.suffix_rfl, .inl active⟩
  | returns _ active => exact ⟨_, List.suffix_rfl, .inl active⟩
  | restores _ active => exact ⟨_, List.dropWhile_suffix _, .inl active⟩
  | calls leaves _ enters =>
    refine ⟨_, ?_, .inr enters⟩
    cases leaves with
    | replaces => exact List.tail_suffix _
    | _ => exact List.suffix_rfl
  | starts _ _ enters => exact ⟨_, List.suffix_rfl, .inr enters⟩

end Turn

/-- However it ends, the item has made a turn. -/
def Turns (c : Context) (rest : List Item) (item : Item) : EStateM.Result EvalError Context Unit → Prop
  | .ok _ d => Turn c rest item d
  | .error _ d => Turn c rest item d

/-- Pushing a value or failing. -/
theorem Turns.answer {r : Except EvalError Value} (hi : item.restoreTarget? = none)
    (hn : item.isProgram = false) (hc : d.control = ofItems rest)
    (ha : d.memory.active = c.memory.active) (hp : d.programEnv = c.programEnv) :
    c.Turns rest item (d.answer r) := by
  cases r with
  | ok w => exact Turn.quiet hi hn hc ha hp
  | error e => exact Turn.quiet hi hn hc ha hp

end Context

/-- A new object enters no environment. -/
theorem Memory.Sound.alloc_active {m : Memory} {run : RunId} (h : m.Sound run) (content : Content) :
    ∃ id m', Memory.alloc content m = .ok id m' ∧ m'.active = m.active := by
  obtain ⟨e, he⟩ := h.environment h.current_present
  obtain ⟨m', hm, ha⟩ := allocIn_ok he content
  exact ⟨_, m', hm, ha.active.symm⟩

namespace Variant

open Context (Turn Turns Leaves)

variable {c d : Context} {item : Item} {ret : Option Nat} {env : Option EnvId} {rest : List Item} {span : Span}
  {base height : Nat}

/-! Nodes -/

theorem stated_control (hc : c.control = ofItems rest) (body : List Node) :
    (standard.stated body c).control = ofItems ((Node.statementItems body).map standard.shape ++ rest) := by
  cases body with
  | nil => exact hc
  | cons first body =>
    simp only [stated]
    rw [hc, standard.pushAll_ofItems]

theorem stated_memory (body : List Node) (c : Context) :
    (standard.stated body c).memory = c.memory ∧ (standard.stated body c).programEnv = c.programEnv := by
  cases body <;> exact ⟨rfl, rfl⟩

theorem targets_stated (body : List Node) : targets ((Node.statementItems body).map standard.shape) = [] := by
  rw [standard.targets_shapes, Node.targets_statementItems]

/-- The statements of a block whose frame is there take its place. -/
theorem block_turn {declarations : List Declaration} {body : List Node} (hc : d.control = ofItems rest)
    (ha : d.memory.active = c.memory.active) (hp : d.programEnv = c.programEnv) :
    Turn c rest (.node (.block span declarations body) true) (standard.stated body d) := by
  obtain ⟨hm, hpe⟩ := stated_memory body d
  refine .works _ (stated_control hc body) (hm ▸ ha) (hpe.trans hp) rfl ?_ fun ⟨r, hs, hr⟩ => ?_
  · rw [Control.targets_append, targets_stated, Control.targets_cons]
    rfl
  · exact ⟨r, (TidyFrom.statementItems hs hr).shapes standard⟩

theorem node_turns {n : Node} {skip : Bool} (h : c.Pending ret env (c.height + 1) rest)
    (hs : n.Scoped (c.memory.Declares env) (ret = some (c.height + 1)) skip) :
    Turns c rest (.node n skip) (standard.execute (.node n skip) c) := by
  have hc := h.control
  cases hp : n.parts? with
  | some items =>
    rw [execute_parts standard hp]
    refine .works _ ?_ rfl rfl (Node.isProgram_of_parts hp skip) ?_ fun ⟨r, ht⟩ => ⟨r, (TidyFrom.parts hp ht).shapes standard⟩
    · dsimp only
      rw [hc, standard.pushAll_ofItems]
    · rw [Control.targets_append, standard.targets_shapes, Node.targets_parts hp, Control.targets_cons]
      rfl
  | none =>
    cases n with
    | program => exact hs.elim
    | block span declarations body =>
      obtain ⟨rfl, rfl, -⟩ := hs
      rw [execute_skippedBlock standard rfl]
      exact block_turn hc rfl rfl
    | sequence span body =>
      cases body with
      | nil =>
        rw [execute_value standard rfl]
        exact Turn.quiet rfl rfl hc rfl rfl
      | cons => cases hp
    | ret span value =>
      cases value with
      | none =>
        rw [execute_ret]
        refine .works [.instr .reset span] ?_ rfl rfl rfl rfl fun ⟨r, hn, hr⟩ => ⟨r, hn.1, hr⟩
        show c.control.pushInstr .reset span = _
        rw [hc, pushInstr_ofItems]
        rfl
      | some e => cases hp
    | pass span =>
      rw [execute_value standard rfl]
      exact Turn.quiet rfl rfl hc rfl rfl
    | literal span l =>
      rw [execute_value standard rfl]
      exact Turn.quiet rfl rfl hc rfl rfl
    | identifier span name =>
      rw [execute_identifier]
      exact Turns.answer rfl rfl hc rfl rfl
    | lambda span func =>
      obtain ⟨id, m, hm, ha⟩ :=
        h.sound.memory.alloc_active (.closure (.ofLambda func c.memory.current c.run c.predefined span))
      rw [execute_lambda standard hm]
      exact Turn.quiet rfl rfl hc ha rfl
    | define span name func declaration =>
      obtain ⟨id, m, hm, ha⟩ :=
        h.sound.memory.alloc_active (.closure (.ofDefine func c.memory.current c.run c.predefined span))
      rw [execute_define standard hm]
      refine .works [.instr (.assignment name false declaration) span] ?_ ha rfl rfl rfl
        fun ⟨r, _, hr⟩ => ⟨r, fun _ => trivial, hr⟩
      show c.control.pushInstr (.assignment name false declaration) span = _
      rw [hc, pushInstr_ofItems]
      rfl
    | _ => cases hp

/-! Instructions -/

theorem assignment_turns {name : String} {constant declaration : Bool} (hb : c.height = base + 1)
    (hs : declaration = true → c.memory.Declares env name) (h : c.Pending ret env (base + 1) rest) :
    Turns c rest (.instr (.assignment name constant declaration) span)
      (standard.execute (.instr (.assignment name constant declaration) span) c) := by
  obtain ⟨w, stash, hi, hl⟩ := Context.exists_operand hb
  obtain ⟨hnamed, hg⟩ := h.sound.memory.named w name
  have hactive : (c.memory.named w name).active = c.memory.active := by cases w <;> rfl
  have hcurrent : (c.memory.named w name).current = c.memory.current := by
    simp only [Memory.current]
    rw [hactive]
  have hd : declaration = true → ∃ e, (c.memory.named w name).environment? (c.memory.named w name).current =
      some e ∧ (e.lookup? name).isSome := by
    intro hdecl
    obtain ⟨id, e, he, hf, hx⟩ := (hs hdecl).mono hg
    exact ⟨e, hcurrent ▸ h.current id he ▸ hf, hx⟩
  have hw := (h.sound.values w (hi ▸ .head _)).mono hg.store
  rcases hnamed.bindName hw constant hd with ⟨m, hm, -, -, ha⟩ | ⟨e, he, -⟩
  · rw [execute_assignment standard hi hm]
    exact Turn.quiet rfl rfl h.control (ha.trans hactive) rfl
  · rw [execute_assignment_error standard hi he]
    exact Turn.quiet rfl rfl h.control hactive rfl

theorem branch_turns {yes : Node} {no : Option Node} (hb : c.height = base + 1) (hc : c.control = ofItems rest) :
    Turns c rest (.instr (.branch yes no) span) (standard.execute (.instr (.branch yes no) span) c) := by
  obtain ⟨w, stash, hi, -⟩ := Context.exists_operand hb
  by_cases hw : ∃ taken, w = .bool taken
  · obtain ⟨taken, rfl⟩ := hw
    cases hn : chosen taken yes no with
    | none =>
      rw [execute_branch_none standard hi hn]
      exact Turn.quiet rfl rfl hc rfl rfl
    | some n =>
      rw [execute_branch standard hi hn]
      refine .works [standard.shape (.node n true)] ?_ rfl rfl rfl ?_ fun ⟨r, hs, hr⟩ => ?_
      · dsimp only
        rw [hc, standard.push_ofItems]
        rfl
      · rw [Control.targets_append, Control.targets_cons, standard.shape_restoreTarget?]
        rfl
      · have hn' : n.Scoped (fun _ => True) (r = true) true := by
          simp only [chosen] at hn
          split at hn
          · cases hn
            exact hs.1
          · exact optionScoped_iff.mp hs.2 n hn
        have htidy : TidyFrom r (.node n true :: rest) := ⟨hn'.tidy, hr⟩
        exact ⟨r, htidy.shape standard⟩
  · rw [execute_branch_error standard hi fun b hb => hw ⟨b, hb⟩]
    exact Turn.quiet rfl rfl hc rfl rfl

theorem restore_turns {target : EnvId} (hc : c.control = ofItems rest) (ht : target ∈ c.memory.active) :
    Turns c rest (.instr (.restore target) span) (standard.execute (.instr (.restore target) span) c) := by
  obtain ⟨m, below, hx, ha, -⟩ := execute_restore_active standard ht span
  rw [hx]
  exact .restores hc ha.active.symm rfl ht

theorem list_turns {count : Nat} (h : c.Sound) (hb : c.height = base + count) (hc : c.control = ofItems rest) :
    Turns c rest (.instr (.list count) span) (standard.execute (.instr (.list count) span) c) := by
  obtain ⟨items, stash, hi, rfl, -⟩ := List.exists_reverse_append hb
  obtain ⟨id, m, hm, ha⟩ := h.memory.alloc_active (.list items)
  rw [execute_list standard hi hm]
  exact Turn.quiet rfl rfl hc ha rfl

/-! Calls -/

/-- Leaving the caller as the machine does it. -/
theorem left_leaves (hc : c.control = ofItems rest) (span : Span) :
    ∃ below active, Leaves c.memory rest below active ∧
      standard.left span c = { c with
        control := ofItems below
        memory := { c.memory with active } } := by
  have hself : c = { c with
      control := ofItems rest
      memory := { c.memory with active := c.memory.active } } := by rw [← hc]
  simp only [left]
  split
  · next hr =>
    have hn : ∀ i ∈ rest, i.isEnvDependent = false :=
      Control.canAvoidRestore_ofItems.mp (hc ▸ (Bool.and_eq_true_iff.mp hr).2)
    cases hp : c.memory.pop? with
    | none =>
      refine ⟨rest, _, .stays hn ?_, hself⟩
      simp only [Memory.pop?] at hp
      split at hp
      · cases hp
      · next hshort =>
        rcases ha : c.memory.active with _ | ⟨top, _ | ⟨next, below⟩⟩
        · rfl
        · rfl
        · exact absurd ha (hshort top next below)
    | some popped =>
      obtain ⟨hm, hne⟩ := Memory.pop?_eq_some hp
      refine ⟨rest, _, .replaces hn hne, ?_⟩
      rw [← hc]
      simp only [hm]
  · next hr =>
    split
    · next hs =>
      refine ⟨rest, _, .shares ?_, hself⟩
      rcases Bool.or_eq_true_iff.mp hs with ha | hp
      · exact absurd ha hr
      · rw [hc] at hp
        cases rest with
        | nil => cases hp
        | cons => exact hp
    · next hs =>
      refine ⟨_, _, .arranges span ?_, ?_⟩
      · by_contra hn
        refine hr (hc ▸ Control.canAvoidRestore_ofItems.mpr fun i hi => ?_)
        exact Bool.eq_false_iff.mpr fun hd => hn ⟨i, hi, hd⟩
      · rw [hc, standard.push_ofItems, shape_instr]

theorem call_turns {count : Nat} (hb : c.height = base + (count + 1)) (h : c.Pending ret env (base + 1) rest) :
    Turns c rest (.instr (.application count) span) (standard.execute (.instr (.application count) span) c) := by
  obtain ⟨w, args, stash, rfl, hi, hp, hw, ha⟩ := called_taken hb h
  cases w with
  | builtin f =>
    cases hr : f.call c.memory.store args with
    | error e =>
      rw [execute_call_builtin_error standard hi hr]
      exact Turn.quiet rfl rfl h.control rfl rfl
    | ok r =>
      rw [execute_call_builtin standard hi hr]
      exact Turn.quiet rfl rfl h.control rfl rfl
  | closure id =>
    obtain ⟨closure, hc⟩ := Option.isSome_iff_exists.mp hw
    obtain ⟨henv, hrun, hscoped⟩ := h.sound.memory.closure id closure hc
    cases hargs : Action.checkArguments closure args.length with
    | error e =>
      rw [execute_call_arguments standard hi hc hrun hargs]
      exact Turn.quiet rfl rfl h.control rfl rfl
    | ok u =>
      obtain ⟨items, active, hready, hs, -, -, -⟩ := left_ready standard hp span
      obtain ⟨below, active', hleaves, hleft⟩ := left_leaves (c := { c with stash := ⟨stash⟩ }) h.control span
      obtain rfl : active = active' := congrArg (fun d : Context => d.memory.active) (hready.symm.trans hleft)
      obtain ⟨_, _, _, _, _, hdistinct, _⟩ := hscoped.body
      obtain ⟨m, e, hm, -, -, hactive, -, -⟩ := hs.createFrame span (List.nodup_append.mp hdistinct).1 henv ha
      have hcall : Memory.createFrame closure args span (standard.left span { c with stash := ⟨stash⟩ }).memory =
          .ok ⟨c.memory.nextEnv⟩ m := by
        rw [hready]
        exact hm
      rw [execute_call standard hi hc hrun hargs hcall, hleft]
      refine .calls hleaves (standard.pushAll_ofItems _ _) (congrArg _ hactive) rfl ?_
        fun ⟨r, ht⟩ => ht.bodyItems hscoped span
      · rw [Control.targets_append, standard.targets_shapes, targets_bodyItems]
        rfl
  | _ =>
    rw [execute_call_error standard hi (by simp) (by simp)]
    exact Turn.quiet rfl rfl h.control rfl rfl

/-! All items -/

/-- A block whose names are new in the frame. -/
theorem body_turns {declarations : List Declaration} {body : List Node} {e : Environment}
    (hc : c.control = ofItems rest) (he : c.memory.environment? c.memory.current = some e)
    (hn : ∀ d ∈ declarations, e.lookup? d.name = none) (hd : (declarations.map (·.name)).Nodup) :
    Turns c rest (.node (.block span declarations body) true)
      (standard.execute (.node (.block span declarations body) true) c) := by
  rw [execute_skippedBlock standard (Action.declareAll_ok he hd hn)]
  exact block_turn hc rfl rfl

theorem program_turns {declarations : List Declaration} {body : List Node} {skip : Bool}
    (hc : c.control = ofItems []) (hd : (declarations.map (·.name)).Nodup)
    (hb : AllScoped (· ∈ declarations.map (·.name)) False body) :
    Turns c [] (.node (.program span declarations body) skip)
      (standard.execute (.node (.program span declarations body) skip) c) := by
  let frame : Environment := { name := "programEnvironment", tail := some (Action.programTail c) }
  let next : Context := { c with
    memory := (c.memory.adopt frame).push ⟨c.memory.nextEnv⟩
    programEnv := some ⟨c.memory.nextEnv⟩ }
  let declared : Context := { next with
    memory := next.memory.setEnvironment ⟨c.memory.nextEnv⟩ (frame.extend (Memory.declaredSlots declarations)) }
  have hfound : next.memory.environment? ⟨c.memory.nextEnv⟩ = some frame := Memory.environment?_adopt_self c.memory frame
  rw [execute_program standard (Memory.create_eq _ _ _) (Action.declareAll_ok (c := next) hfound hd fun _ _ => rfl)]
  obtain ⟨hm, hpe⟩ := stated_memory body declared
  have hcontrol := stated_control (c := declared) hc body
  have htidy : TidyFrom false (Node.statementItems body ++ []) :=
    TidyFrom.statementItems (hb.mono (fun _ => id) False.elim) trivial
  have hframe : (standard.stated body declared).memory.environment? ⟨c.memory.nextEnv⟩ =
      some (frame.extend (Memory.declaredSlots declarations)) :=
    (congrArg (·.environment? ⟨c.memory.nextEnv⟩) hm).trans (Memory.environment?_set _ _ _)
  refine .starts rfl hcontrol (congrArg Memory.active hm) hpe hframe rfl ?_ ⟨false, htidy.shapes standard⟩
  rw [List.append_nil]
  exact targets_stated body

theorem execute_turns (h : c.Runs (item :: rest)) (hc : c.control = ofItems rest) :
    Turns c rest item (standard.execute item c) := by
  have ht : (targets rest).Sublist c.memory.active.tail := by
    have hsub := h.targets
    rw [Control.targets_cons] at hsub
    exact (List.sublist_append_right _ _).trans hsub
  cases h.expects with
  | enters he hn hd => exact body_turns hc he hn hd
  | starts hs hempty =>
    rename_i n skip
    cases n with
    | program span declarations body => exact program_turns hc hs.1 hs.2
    | _ => exact hs.elim
  | fits ret env hcur hf =>
    have hp : ∀ {height}, Fits c.memory ret env height rest → c.Pending ret env height rest :=
      fun hf => ⟨h.sound, hc, ht, hcur, hf⟩
    rcases item with ⟨n, skip⟩ | ⟨i, span⟩
    · exact node_turns (hp hf.2) hf.1
    · cases i with
      | marker => exact Turn.quiet rfl rfl hc rfl rfl
      | reset =>
        refine .returns ?_ rfl rfl
        show c.control.unwind = _
        rw [hc, Control.unwind_ofItems]
      | restore target =>
        exact restore_turns hc (List.mem_of_mem_tail (h.targets.subset (.head _)))
      | pop =>
        obtain ⟨base, hb, -, -⟩ := hf
        obtain ⟨w, stash, hi, -⟩ := Context.exists_operand hb
        rw [execute_pop standard hi]
        exact Turn.quiet rfl rfl hc rfl rfl
      | assignment name constant declaration =>
        obtain ⟨base, hb, hs, hf⟩ := hf
        exact assignment_turns hb hs (hp hf)
      | unary op =>
        obtain ⟨base, hb, -, -⟩ := hf
        obtain ⟨w, stash, hi, -⟩ := Context.exists_operand hb
        rw [execute_unary standard op hi]
        exact Turns.answer rfl rfl hc rfl rfl
      | binary op =>
        obtain ⟨base, hb, -, -⟩ := hf
        obtain ⟨x, y, stash, hi, -⟩ := Context.exists_operandPair hb
        rw [execute_binary standard op hi]
        exact Turns.answer rfl rfl hc rfl rfl
      | application count =>
        obtain ⟨base, hb, -, hf⟩ := hf
        exact call_turns hb (hp hf)
      | branch yes no =>
        obtain ⟨base, hb, -, -⟩ := hf
        exact branch_turns hb hc
      | list count =>
        obtain ⟨base, hb, -, -⟩ := hf
        exact list_turns h.sound hb hc
      | subscript =>
        obtain ⟨base, hb, -, -⟩ := hf
        obtain ⟨x, y, stash, hi, -⟩ := Context.exists_operandPair hb
        rw [execute_subscript standard hi]
        exact Turns.answer rfl rfl hc rfl rfl

end Variant

namespace Context

open Variant (standard)

variable {c d : Context} {item : Item}

/-- A step of a healthy context without collections is a turn. -/
theorem Healthy.turn (h : c.Healthy) (hp : c.phase ≠ .errored) (ha : standard.hoarding.advance? c = some (item, d)) :
    ∃ rest, c.control = ofItems (item :: rest) ∧ Turn c rest item d := by
  obtain ⟨items, hc, hr⟩ := h.running hp
  cases items with
  | nil =>
    rw [Variant.advance?_nil _ hc] at ha
    cases ha
  | cons first rest =>
    have ht := Variant.execute_turns (c := c.taking rest) (hr.congr rfl rfl rfl rfl) rfl
    rw [standard.advance?_cons hc] at ha
    refine ⟨rest, ?_⟩
    cases he : standard.execute first (c.taking rest) with
    | ok _ next =>
      rw [he] at ha ht
      cases ha
      exact ⟨hc, ht.congr rfl rfl rfl rfl rfl rfl fun _ e _ he => ⟨e, he, rfl⟩⟩
    | error e next =>
      rw [he] at ha ht
      cases ha
      exact ⟨hc, ht.congr rfl rfl rfl rfl rfl rfl fun _ e _ he => ⟨e, he, rfl⟩⟩

/-! Steps of contexts that may collect -/

theorem Tracked.advance (h : c.Tracked) (hp : c.phase ≠ .errored) (ha : c.advance? = some (item, d)) :
    d.Tracked ∧ ∃ rest, c.control = ofItems (item :: rest) ∧ Turn c rest item d := by
  obtain ⟨c', ⟨L, hagree⟩, hc'⟩ := h
  have halike := Variant.advance?_alike standard standard.afterStep (fun _ => 0) standard.atEnd (fun _ => 0) ⟨L, hagree⟩
  have hstd : (standard.collecting standard.afterStep standard.atEnd).advance? c = some (item, d) :=
    (Variant.advance?_standard c).trans ha
  rcases halike with ⟨hn, -⟩ | ⟨item', d₁, d₂, h₁, h₂, M, hd⟩
  · cases hn.symm.trans hstd
  · cases h₁.symm.trans hstd
    have hp' : c'.phase ≠ .errored := hagree.phase_eq ▸ hp
    obtain ⟨rest, hc, hturn⟩ := hc'.turn hp' h₂
    refine ⟨⟨d₂, ⟨M, hd⟩, (standard.advance?_healthy hc' hp' h₂).1⟩, rest, hagree.control_eq.trans hc, ?_⟩
    refine hturn.congr hagree.memory.active hagree.memory.nextEnv hagree.programEnv_eq hd.control_eq hd.memory.active
      hd.programEnv_eq fun env e hpe he => ?_
    obtain ⟨heap, he'⟩ := hd.memory.symm.environment?_some (hd.programLive env (hd.programEnv_eq.trans hpe)) he
    exact ⟨_, he', rfl⟩

/-- The first step of a program enters its environment, which the one of the program before encloses. -/
theorem Tracked.start {program : Node} (h : c.Tracked) (hc : c.control = ofItems [.node program false])
    (hs : program.ScopedProgram) (hp : c.phase ≠ .errored) (ha : c.advance? = some (item, d)) :
    ∃ frame, d.memory.active = ⟨c.memory.nextEnv⟩ :: c.memory.active ∧ d.programEnv = some ⟨c.memory.nextEnv⟩ ∧
      d.memory.environment? ⟨c.memory.nextEnv⟩ = some frame ∧ frame.tail = some (Action.programTail c) ∧
        d.control.pending = [] ∧ Tidy d.control.items.items := by
  obtain ⟨-, rest, hc', hturn⟩ := h.advance hp ha
  obtain ⟨rfl, rfl⟩ : item = .node program false ∧ rest = [] := by
    have hitems := congrArg (fun k : Control => k.items.items) (hc'.symm.trans hc)
    exact List.cons.inj hitems
  cases hturn with
  | works _ _ _ _ plain =>
    cases program with
    | program => cases plain
    | _ => exact hs.elim
  | starts _ control enters hprogram found tail htargets tidy =>
    rw [control]
    exact ⟨_, enters, hprogram, found, tail, htargets, tidy⟩

theorem Tracked.finish (h : c.Tracked) (hp : c.phase ≠ .errored) (hn : c.control.isEmpty = true) : c.finish.Tracked := by
  obtain ⟨c', ⟨L, hagree⟩, hc'⟩ := h
  have halike := Variant.finish_alike standard standard.afterStep (fun _ => 0) standard.atEnd (fun _ => 0) ⟨L, hagree⟩
  have hp' : c'.phase ≠ .errored := hagree.phase_eq ▸ hp
  obtain ⟨items, hc, -⟩ := hc'.running hp'
  rw [hagree.control_eq, hc] at hn
  obtain rfl : items = [] := List.isEmpty_iff.mp hn
  exact ⟨_, Variant.finish_standard c ▸ halike, (standard.finish_healthy hc' hp' hc).1⟩

theorem Tracked.suspend (h : c.Tracked) (hp : c.phase ≠ .errored) : ({ c with phase := .suspended } : Context).Tracked := by
  obtain ⟨c', ⟨L, hagree⟩, hc'⟩ := h
  obtain ⟨items, hc, hr⟩ := hc'.running (hagree.phase_eq ▸ hp)
  refine ⟨{ c' with phase := .suspended }, ⟨L, ?_, hagree.memory, hagree.stashLive, hagree.programLive⟩, ?_⟩
  · rw [hagree.same]
  · exact ⟨hc'.regular, fun _ => ⟨items, hc, hr.congr rfl rfl rfl rfl⟩, nofun, nofun⟩

/-- What is known of every context that programs are loaded into, stepped and run in. -/
structure Steady (c : Context) : Prop where
  wellFormed : c.WellFormed
  anchored : c.Anchored
  tracked : c.Tracked

theorem steady_kept : Kept Steady where
  advanced h hp ha := by
    obtain ⟨hw, hn⟩ := anchored_invariant.advanced ⟨h.wellFormed, h.anchored⟩ hp ha
    exact ⟨hw, hn, (h.tracked.advance hp ha).1⟩
  finished h hp hn := by
    obtain ⟨hw, ha⟩ := anchored_invariant.finished ⟨h.wellFormed, h.anchored⟩ hp hn
    exact ⟨hw, ha, h.tracked.finish hp hn⟩
  suspended h hp := by
    obtain ⟨hw, ha⟩ := anchored_invariant.suspended ⟨h.wellFormed, h.anchored⟩
    exact ⟨hw, ha, h.tracked.suspend hp⟩

end Context
end CseMachine
