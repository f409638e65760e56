import CseMachine.Proofs.Safety.Calls
import CseMachine.Proofs.Variant.Frame

/-!
# Steps are safe

Executing the next item of a context that can run leaves one that can run, or
fails regularly; without collections so does every step.
-/
namespace CseMachine.Variant

open Context (Safe)
open Control (ofItems targets)

variable (v : Variant) {c : Context} {rest : List Item} {span : Span} {declarations : List Declaration}
  {body : List Node} {e : Environment}

/-- The names of a body are declared in the current frame. -/
theorem declared_pending {ret : Option Nat} {env : Option EnvId} {height : Nat} {m : Memory}
    (h : c.Pending ret none height rest) (he : c.memory.environment? c.memory.current = some e)
    (hm : m = c.memory.setEnvironment c.memory.current (e.extend (Memory.declaredSlots declarations)))
    (hb : env = some c.memory.current) :
    { c with memory := m }.Pending ret env height rest ∧
      ∀ x ∈ declarations.map (·.name), m.Declares env x := by
  have hslots : ∀ b ∈ Memory.declaredSlots declarations, b.2.value = none := by
    intro b hmem
    obtain ⟨d, -, rfl⟩ := List.mem_map.mp hmem
    rfl
  obtain ⟨hs, hg⟩ := h.sound.memory.extend he hslots
  rw [← hm] at hs hg
  have hcur : m.current = c.memory.current := by
    rw [hm]
    rfl
  have hp := h.withMemory hs hg (by rw [hm]; rfl)
  refine ⟨⟨hp.sound, hp.control, hp.targets, fun id hid => ?_, hp.fits.here⟩, fun x hx => ?_⟩
  · exact hcur.trans (Option.some.inj (hb.symm.trans hid))
  · refine ⟨_, _, hb, hm ▸ Memory.environment?_set _ _ _, ?_⟩
    obtain ⟨d, hd, rfl⟩ := List.mem_map.mp hx
    have hin : ((Memory.declaredSlots declarations).lookup d.name).isSome := by
      rw [List.lookup_isSome_iff]
      exact ⟨_, List.mem_map_of_mem hd, beq_self_eq_true _⟩
    rw [Environment.lookup?_extend, Option.isSome_or, hin, Bool.or_true]

theorem body_safe (hs : c.Sound) (hc : c.control = ofItems rest)
    (ht : (targets rest).Sublist c.memory.active.tail)
    (he : c.memory.environment? c.memory.current = some e) (hn : ∀ d ∈ declarations, e.lookup? d.name = none)
    (hd : (declarations.map (·.name)).Nodup) (hb : AllScoped (· ∈ declarations.map (·.name)) True body)
    (hf : Fits c.memory (some (c.height + 1)) none (c.height + 1) rest) :
    Safe (v.execute (.node (.block span declarations body) true) c) := by
  have hp : c.Pending (some (c.height + 1)) none (c.height + 1) rest := ⟨hs, hc, ht, (fun _ h => nomatch h), hf⟩
  obtain ⟨hnext, hnames⟩ := declared_pending hp he rfl rfl
  rw [execute_skippedBlock v (Action.declareAll_ok he hd hn)]
  exact stated_running v hnext (hb.mono hnames fun _ => rfl)

theorem program_safe {skip : Bool} (hs : c.Sound) (hc : c.control = ofItems []) (hempty : c.stash.items = [])
    (hd : (declarations.map (·.name)).Nodup) (hb : AllScoped (· ∈ declarations.map (·.name)) False body) :
    Safe (v.execute (.node (.program span declarations body) skip) c) := by
  have hm := hs.memory
  have htail : (Action.programTail c).index < c.memory.nextEnv := by
    simp only [Action.programTail]
    cases hp : c.programEnv with
    | none => exact hm.current_present
    | some env => exact hs.program env hp
  -- the new frame, which is current and has no names yet
  let env : EnvId := ⟨c.memory.nextEnv⟩
  let frame : Environment := { name := "programEnvironment", tail := some (Action.programTail c) }
  obtain ⟨hs', hg⟩ := hm.adopt (e := frame) (fun t ht => Option.some.inj ht ▸ htail)
    fun _ _ _ h => nomatch h
  obtain ⟨hs'', hg'⟩ := hs'.withActive (env :: c.memory.active) (List.cons_ne_nil _ _) fun id hi => by
    rcases List.mem_cons.mp hi with rfl | hi
    · exact Nat.lt_succ_self _
    · exact Nat.lt_succ_of_lt (hm.activePresent id hi)
  let next : Context := { c with memory := (c.memory.adopt frame).push env, programEnv := some env }
  have hfound : next.memory.environment? next.memory.current = some frame :=
    Memory.environment?_adopt_self c.memory frame
  have hp : next.Pending none none (next.height + 1) [] := by
    refine ⟨⟨hs'', fun w hw => ?_, ?_⟩, hc, List.nil_sublist _, (fun _ h => nomatch h), rfl, ?_⟩
    · exact ((hs.values w hw).mono hg.store).mono hg'.store
    · rintro env' he
      cases he
      exact Nat.lt_succ_self _
    · show c.stash.items.length + 1 = 1
      rw [hempty]
      rfl
  obtain ⟨hnext, hnames⟩ := declared_pending hp hfound rfl rfl
  rw [execute_program v (Memory.create_eq _ _ _) (Action.declareAll_ok (c := next) hfound hd fun _ _ => rfl)]
  exact stated_running v hnext (hb.mono hnames False.elim)

theorem execute_safe {item : Item} (h : c.Runs (item :: rest)) (hc : c.control = ofItems rest) :
    Safe (v.execute item c) := by
  have ht : (targets rest).Sublist c.memory.active.tail := by
    have hsub := h.targets
    rw [Control.targets_cons] at hsub
    exact (List.sublist_append_right _ _).trans hsub
  cases h.expects with
  | enters he hn hd hb hf => exact body_safe v h.sound hc ht he hn hd hb hf
  | starts hs hempty =>
    rename_i program skip
    cases program with
    | program span declarations body => exact program_safe v h.sound hc hempty hs.1 hs.2
    | _ => exact hs.elim
  | fits ret env hcur hf =>
    have hp : ∀ {ret' env' height}, (∀ e, env' = some e → c.memory.current = e) →
        Fits c.memory ret' env' height rest → c.Pending ret' env' height rest :=
      fun he hf => ⟨h.sound, hc, ht, he, hf⟩
    rcases item with ⟨n, skip⟩ | ⟨i, span⟩
    · exact node_safe v (hp hcur hf.2) hf.1
    · cases i with
      | marker =>
        obtain ⟨-, ret', hf⟩ := hf
        exact marker_safe v (hp (fun _ h => nomatch h) hf)
      | reset =>
        obtain ⟨rfl, hf⟩ := hf
        exact reset_safe v (hp hcur hf)
      | restore target => exact restore_safe v h.sound hc h.targets hf
      | pop =>
        obtain ⟨base, hb, -, hf⟩ := hf
        exact pop_safe v hb (hp hcur hf)
      | assignment name constant declaration =>
        obtain ⟨base, hb, hs, hf⟩ := hf
        exact assignment_safe v hb hs (hp hcur hf)
      | unary op =>
        obtain ⟨base, hb, -, hf⟩ := hf
        exact unary_safe v op hb (hp hcur hf)
      | binary op =>
        obtain ⟨base, hb, -, hf⟩ := hf
        exact binary_safe v op hb (hp hcur hf)
      | application count =>
        obtain ⟨base, hb, -, hf⟩ := hf
        exact call_safe v hb (hp hcur hf)
      | branch yes no =>
        obtain ⟨base, hb, hs, hf⟩ := hf
        exact branch_safe v hb hs.1 hs.2 (hp hcur hf)
      | list count =>
        obtain ⟨base, hb, -, hf⟩ := hf
        exact list_safe v hb (hp hcur hf)
      | subscript =>
        obtain ⟨base, hb, -, hf⟩ := hf
        exact subscript_safe v hb (hp hcur hf)

end CseMachine.Variant
