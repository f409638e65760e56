import CseMachine.Proofs.Reference.Calls
import CseMachine.Proofs.Safety.Start

/-!
# Programs do what their evaluation does

A fresh context looks like the first world. Its first step enters the frame of
the program, and from there its statements are simulated.
-/
namespace CseMachine.Reference

open Control (ofItems)

variable {v : Variant} {depth : Nat} {run : RunId}

theorem started_mirror (run : RunId) : Mirror Memory.started (World.initial run) := by
  have hframe : ∀ {id e}, Memory.started.environment? id = some e →
      .global = id ∧ e = Memory.globalFrame.extend (Memory.boundSlots Registry.standard.bindings) := by
    intro id e he
    simp only [Memory.started] at he
    rw [Memory.environment?_setEnvironment, Memory.environment?_initial] at he
    split at he
    · next hid => exact ⟨hid, (Option.some.inj he).symm⟩
    · cases he
  refine ⟨rfl, fun id e he => ?_, fun id e he _ => ?_, fun id e t he ht => ?_, rfl, fun id => ?_⟩
  · obtain ⟨rfl, rfl⟩ := hframe he
    rfl
  · obtain ⟨rfl, rfl⟩ := hframe he
    rfl
  · obtain ⟨rfl, rfl⟩ := hframe he
    cases ht
  · have hmemory : Memory.started.store.get? id = none := Memory.get?_initial id
    have hworld : (World.initial run).store.get? id = none := Memory.get?_initial id
    rw [hmemory, hworld]

/-- The first frame of a program. -/
def programFrame : Environment := { name := "programEnvironment", tail := some .global }

/-- The memory of a program that has made its names. -/
def entered (declarations : List Declaration) : Memory :=
  ((Memory.started.adopt programFrame).push ⟨1⟩).setEnvironment ⟨1⟩
    (programFrame.extend (Memory.declaredSlots declarations))

/-- The world of a program that has made its names. -/
def World.entered (run : RunId) (declarations : List Declaration) : World :=
  World.update { World.initial run with
    frames := (World.initial run).frames ++ [⟨[.global], []⟩] } ⟨1⟩ (· ++ Memory.declaredSlots declarations)

theorem entered_mirror (run : RunId) (declarations : List Declaration) :
    Mirror (entered declarations) (World.entered run declarations) := by
  have hs := Memory.started_sound run
  have hlt : EnvId.global.index < Memory.started.nextEnv := Nat.zero_lt_one
  obtain ⟨hs', -⟩ := hs.adopt (e := programFrame) (fun t ht => Option.some.inj ht ▸ hlt) fun _ _ _ h => nomatch h
  obtain ⟨hs'', -⟩ := hs'.withActive ((⟨1⟩ : EnvId) :: Memory.started.active) (List.cons_ne_nil _ _) fun id hi => by
    rcases List.mem_cons.mp hi with rfl | hi
    · exact Nat.lt_succ_self 1
    · exact Nat.lt_succ_of_lt (hs.activePresent id hi)
  have hm := ((started_mirror run).adopt hs (e := programFrame) rfl hlt).withActive (⟨1⟩ :: Memory.started.active)
  have hfound := Memory.environment?_adopt_self Memory.started programFrame
  exact hm.update hs'' hfound rfl rfl

theorem evalProgram_eq (depth : Nat) (span : Span) (declarations : List Declaration) (body : List Node)
    (run : RunId) : evalProgram depth (.program span declarations body) (World.initial run) =
      evalStatements (enter depth) ⟨1⟩ body (World.entered run declarations) := by
  simp only [evalProgram]
  simp only [eval]
  rfl

/-- The context of a program that has made its names. -/
def startedContext (run : RunId) (declarations : List Declaration) : Context :=
  { Context.fresh run with
    memory := entered declarations
    programEnv := some ⟨1⟩
    phase := .running
    steps := 1 }

theorem execute_first {span : Span} {declarations : List Declaration} (body : List Node)
    (hd : (declarations.map (·.name)).Nodup) :
    v.execute (.node (.program span declarations body) false) ((Context.fresh run).taking []) =
      .ok () (v.stated body (startedContext run declarations)) := by
  have hfound : ((Memory.started.adopt programFrame).push ⟨1⟩).environment? ⟨1⟩ = some programFrame :=
    Memory.environment?_adopt_self Memory.started programFrame
  exact v.execute_program (Memory.create_eq _ _ _) (Action.declareAll_ok hfound hd fun _ _ => rfl)

/-- From a fresh context the machine ends as the evaluation of the program does. -/
theorem program_ends {program : Node} (hs : program.ScopedProgram) (v : Variant) (depth : Nat) (run : RunId) :
    Ends v depth False ((Context.fresh run).load program) [] [] (fun r => [r])
      (evalProgram depth program (World.initial run)) := by
  cases program with
  | program span declarations body =>
    have hload := (Context.fresh_loadable run).load_eq hs
    have hr : ((Context.fresh run).load (.program span declarations body)).Running := by
      apply ((Context.fresh_loadable run).load hs).running
      rw [hload]
      exact nofun
    have hwalk : Walk v 1 ((Context.fresh run).load (.program span declarations body))
        (v.stated body (startedContext run declarations)) := by
      rw [hload]
      exact .step rfl (execute_first body hs.1) (.refl _)
    have hshows : Shows (startedContext run declarations) (World.entered run declarations) :=
      ⟨entered_mirror run declarations, rfl, rfl, rfl⟩
    obtain ⟨hc, hst, hw, hcur⟩ := stated_shows (v := v) hshows rfl rfl body
    have hbody := statements_simulate (calls_simulate v depth) hs.2
    rw [evalProgram_eq]
    have hends := hbody _ [] [] ⟨1⟩ _ (hwalk.running hr) hc hst hw fun _ => hcur
    exact (hends.after hwalk False.elim).weaken (Nat.le_add_left _ _)
  | _ => exact hs.elim

end CseMachine.Reference
