import CseMachine.Proofs.Memory.Totality
import CseMachine.Proofs.Safety.Fits
import CseMachine.Proofs.Variant.Execution

/-!
# Contexts that can run

A context can run if its memory is sound, what the Stash and the program refer to
exists, pending restores lead to active environments in turn, and Control fits.
Two kinds of items are entered in a frame that is still without its names: the
body of a function and a program.
-/
namespace CseMachine.Context

/-- The number of values on the Stash. -/
def height (c : Context) : Nat := c.stash.items.length

variable {c : Context} {ret : Option Nat} {env : Option EnvId} {height : Nat} {items rest : List Item}
  {m : Memory} {w : Value}

/-- All but Control. -/
structure Sound (c : Context) : Prop where
  memory : c.memory.Sound c.run
  values : ∀ w ∈ c.stash.items, w.Resolves c.memory.store
  program : ∀ env, c.programEnv = some env → env.index < c.memory.nextEnv

/-- What the items ahead can rely on. -/
inductive Expects (c : Context) : List Item → Prop
  | fits {items : List Item} (ret : Option Nat) (env : Option EnvId)
      (current : ∀ e, env = some e → c.memory.current = e) (fits : Fits c.memory ret env c.height items) :
      Expects c items
  /-- The names of a function's body are not in its frame yet. -/
  | enters {span : Span} {declarations : List Declaration} {body : List Node} {rest : List Item}
      {frame : Environment} (found : c.memory.environment? c.memory.current = some frame)
      (new : ∀ d ∈ declarations, frame.lookup? d.name = none)
      (distinct : (declarations.map (·.name)).Nodup)
      (wellScoped : AllScoped (· ∈ declarations.map (·.name)) True body)
      (fits : Fits c.memory (some (c.height + 1)) none (c.height + 1) rest) :
      Expects c (.node (.block span declarations body) true :: rest)
  | starts {program : Node} {skip : Bool} (wellScoped : program.ScopedProgram) (empty : c.stash.items = []) :
      Expects c [.node program skip]

/-- The context can run if its Control is made of the items. -/
structure Runs (c : Context) (items : List Item) : Prop where
  sound : c.Sound
  targets : (Control.targets items).Sublist c.memory.active.tail
  expects : c.Expects items

def Running (c : Context) : Prop := ∃ items, c.control = .ofItems items ∧ c.Runs items

/-- A context with all that is needed for its Control to run, but that the Stash has this height. -/
structure Pending (c : Context) (ret : Option Nat) (env : Option EnvId) (height : Nat) (items : List Item) :
    Prop where
  sound : c.Sound
  control : c.control = .ofItems items
  targets : (Control.targets items).Sublist c.memory.active.tail
  current : ∀ e, env = some e → c.memory.current = e
  fits : Fits c.memory ret env height items

/-- Control and the books do not matter. -/
theorem Expects.congr {d : Context} (h : c.Expects items) (hm : d.memory = c.memory) (hs : d.stash = c.stash) :
    d.Expects items := by
  have hh : d.height = c.height := by rw [height, hs, height]
  cases h with
  | fits ret env hcur hf => exact .fits ret env (hm ▸ hcur) (by rwa [hm, hh])
  | enters hfound hnew hd hsc hf => exact .enters (hm ▸ hfound) hnew hd hsc (by rwa [hm, hh])
  | starts hsc hempty => exact .starts hsc (hs ▸ hempty)

theorem Runs.congr {d : Context} (h : c.Runs items) (hm : d.memory = c.memory) (hs : d.stash = c.stash)
    (hr : d.run = c.run) (hp : d.programEnv = c.programEnv) : d.Runs items := by
  refine ⟨⟨?_, ?_, ?_⟩, ?_, h.expects.congr hm hs⟩
  · rw [hm, hr]
    exact h.sound.memory
  · rw [hm, hs]
    exact h.sound.values
  · rw [hm, hp]
    exact h.sound.program
  · rw [hm]
    exact h.targets

/-- The Stash is never too short. -/
theorem Runs.supplies {i : Instr} {span : Span} (h : c.Runs (.instr i span :: rest)) : i.takes ≤ c.height := by
  cases h.expects with
  | fits ret env hcur hf =>
    cases i with
    | marker | reset | restore => exact Nat.zero_le _
    | _ =>
      obtain ⟨base, hb, -⟩ := hf
      exact hb ▸ Nat.le_add_left _ _

/-- A declaration that gets its value has its name in the current frame. -/
theorem Runs.declares {name : String} {constant : Bool} {span : Span}
    (h : c.Runs (.instr (.assignment name constant true) span :: rest)) :
    ∃ e, c.memory.environment? c.memory.current = some e ∧ (e.lookup? name).isSome := by
  cases h.expects with
  | fits ret env hcur hf =>
    obtain ⟨base, -, hs, -⟩ := hf
    obtain ⟨id, e, he, hfound, hx⟩ := hs rfl
    exact ⟨e, hcur id he ▸ hfound, hx⟩

/-- A block that declares names has none of them yet. -/
theorem Runs.undeclared {span : Span} {declarations : List Declaration} {body : List Node} {skip : Bool}
    (h : c.Runs (.node (.block span declarations body) skip :: rest)) (hd : declarations ≠ []) :
    ∃ e, c.memory.environment? c.memory.current = some e ∧ (declarations.map (·.name)).Nodup ∧
      ∀ d ∈ declarations, e.lookup? d.name = none := by
  cases h.expects with
  | fits ret env hcur hf => exact absurd hf.1.2.1 hd
  | enters he hn hdistinct => exact ⟨_, he, hdistinct, hn⟩
  | starts hs => exact hs.elim

namespace Sound

variable (h : c.Sound)
include h

theorem withMemory (hs : m.Sound c.run) (hg : c.memory.Grows m) : { c with memory := m }.Sound :=
  ⟨hs, fun w hw => (h.values w hw).mono hg.store, fun e he => Nat.lt_of_lt_of_le (h.program e he) hg.nextEnv⟩

theorem withStash {stash : List Value} (hr : ∀ w ∈ stash, w.Resolves c.memory.store) :
    { c with stash := ⟨stash⟩ }.Sound := ⟨h.memory, hr, h.program⟩

/-- Values that are left on the Stash. -/
theorem drop {top stash : List Value} (hi : c.stash.items = top ++ stash) :
    { c with stash := ⟨stash⟩ }.Sound :=
  h.withStash fun w hw => h.values w (hi ▸ List.mem_append_right top hw)

theorem pushValue (hw : w.Resolves c.memory.store) : (c.pushValue w).Sound := by
  refine ⟨h.memory, fun v hv => ?_, h.program⟩
  rcases List.mem_cons.mp hv with rfl | hv
  · exact hw
  · exact h.values v hv

theorem withControl (control : Control) : { c with control }.Sound := ⟨h.memory, h.values, h.program⟩

end Sound

namespace Pending

theorem running (h : c.Pending ret env c.height items) : c.Running :=
  ⟨items, h.control, h.sound, h.targets, .fits ret env h.current h.fits⟩

theorem withMemory (h : c.Pending ret env height items) (hs : m.Sound c.run) (hg : c.memory.Grows m)
    (ha : m.active = c.memory.active) : { c with memory := m }.Pending ret env height items := by
  have hc : m.current = c.memory.current := by
    simp only [Memory.current]
    rw [ha]
  refine ⟨h.sound.withMemory hs hg, h.control, ?_, fun e he => hc.trans (h.current e he), h.fits.mono hg⟩
  show (Control.targets items).Sublist m.active.tail
  rw [ha]
  exact h.targets

theorem drop (h : c.Pending ret env height items) {top stash : List Value}
    (hi : c.stash.items = top ++ stash) : { c with stash := ⟨stash⟩ }.Pending ret env height items :=
  ⟨h.sound.drop hi, h.control, h.targets, h.current, h.fits⟩

theorem pushInstr (h : c.Pending ret env height items) {height' : Nat} {i : Instr} {span : Span}
    (ht : i.restoreTarget? = none) (hf : Fits c.memory ret env height' (.instr i span :: items)) :
    { c with control := c.control.pushInstr i span }.Pending ret env height' (.instr i span :: items) := by
  refine ⟨h.sound.withControl _, ?_, ?_, h.current, hf⟩
  · show c.control.pushInstr i span = _
    rw [h.control, Variant.pushInstr_ofItems]
  · have hi : (Item.instr i span).restoreTarget? = none := ht
    rw [Control.targets_cons, hi]
    exact h.targets

/-- The value that Control waits for. -/
theorem pushValue (h : c.Pending ret env (c.height + 1) items) (hw : w.Resolves c.memory.store) :
    (c.pushValue w).Running :=
  running (c := c.pushValue w) ⟨h.sound.pushValue hw, h.control, h.targets, h.current, h.fits⟩

theorem withOutput (h : c.Pending ret env height items) (output : String) :
    { c with output }.Pending ret env height items :=
  ⟨⟨h.sound.memory, h.sound.values, h.sound.program⟩, h.control, h.targets, h.current, h.fits⟩

/-- Items that take the place of one that was taken off. -/
theorem pushAll (v : Variant) (h : c.Pending ret env height rest) {height' : Nat} (ht : Control.targets items = [])
    (hf : Fits c.memory ret env height' (items ++ rest)) :
    { c with control := v.pushAll c.control items }.Pending ret env height' (items.map v.shape ++ rest) := by
  refine ⟨h.sound.withControl _, ?_, ?_, h.current, hf.shapes v⟩
  · show v.pushAll c.control items = _
    rw [h.control, v.pushAll_ofItems]
  · rw [Control.targets_append, v.targets_shapes, ht]
    exact h.targets

end Pending

/-- The step leaves a context that can run or fails regularly. -/
def Safe : EStateM.Result EvalError Context Unit → Prop
  | .ok _ c => c.Running
  | .error e _ => e.cause.Regular

theorem Pending.answer (h : c.Pending ret env (c.height + 1) items) {r : Except EvalError Value}
    (hr : FailsRegularly r) (hw : ∀ w, r = .ok w → w.Resolves c.memory.store) : Safe (c.answer r) := by
  cases r with
  | ok w => exact h.pushValue (hw w rfl)
  | error e => exact hr e rfl

end CseMachine.Context
