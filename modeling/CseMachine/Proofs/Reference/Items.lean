import CseMachine.Proofs.Reference.Simulation

/-!
# What single items perform

Nodes that give a value at once and all instructions but the application: each
does what the evaluator does at this place, on a world that mirrors the memory.
-/
namespace CseMachine.Reference

open Control (ofItems targets Cares belowMarker)
open Variant (chosen)

variable {v : Variant} {depth : Nat} {returns : Prop} {c d : Context} {w w' : World} {rest : List Item}
  {stash : List Value} {span : Span} {skip : Bool} {env : EnvId}

namespace Shows

theorem withMemory (h : Shows c w) {m : Memory} (hm : Mirror m w') (ho : w'.output = w.output)
    (hr : w'.run = w.run) : Shows { c with memory := m } w' :=
  ⟨hm, h.output.trans ho.symm, hr.trans h.run, h.predefined⟩

theorem withStash (h : Shows c w) (stash : Stack Value) : Shows { c with stash } w :=
  ⟨h.memory, h.output, h.run, h.predefined⟩

theorem withControl (h : Shows c w) (control : Control) : Shows { c with control } w :=
  ⟨h.memory, h.output, h.run, h.predefined⟩

end Shows

/-- A step that gives a value or fails. -/
theorem steps_answer {item : Item} {r : Except EvalError Value} (he : v.execute item c = d.answer r)
    (hc : d.control = ofItems rest) (hs : d.stash.items = stash) (hw : Shows d w)
    (hcur : d.memory.current = c.memory.current) :
    Steps v item c rest stash (fun _ => []) (fun r => [r]) (ofExcept item.span r w) := by
  cases r with
  | ok r =>
    refine ⟨d.pushValue r, he, hc, ?_, hw.withStash _, hcur⟩
    show r :: d.stash.items = r :: stash
    rw [hs]
  | error e => exact ⟨e, d, he, rfl, hw.output⟩

/-! Values -/

theorem value_performs {n : Node} {r : Value} (h : n.value? = some r) :
    Performs v [] (.node n skip) (fun _ => pure r) (fun _ => []) fun r => [r] := by
  intro c rest stash env w hr hc hs hw hcur
  refine ⟨c.pushValue r, v.execute_value h, hc, ?_, hw.withStash _, rfl⟩
  exact congrArg (r :: ·) hs

theorem identifier_performs (name : String) :
    Performs v [] (.node (.identifier span name) skip) (fun env => lookup span env name) (fun _ => [])
      fun r => [r] := by
  intro c rest stash env w hr hc hs hw hcur
  obtain rfl := hcur ⟨rfl, .inl rfl⟩
  show Steps v _ c rest stash _ _ (lookup span c.memory.current name w)
  rw [hw.memory.lookup_eq hr.sound.memory]
  exact steps_answer (v.execute_identifier name) hc hs hw rfl

theorem ret_performs :
    Performs v [] (.node (.ret span none) skip) (fun _ => pure .none) (fun _ => [.instr .reset span])
      fun r => [r] := by
  intro c rest stash env w hr hc hs hw hcur
  refine ⟨_, v.execute_ret, ?_, congrArg (Value.none :: ·) hs, (hw.withControl _).withStash _, rfl⟩
  show c.control.pushInstr .reset span = _
  rw [hc]
  exact Variant.pushInstr_ofItems .reset span rest

/-! Operators -/

section

variable {x y r : Value}

theorem pop_performs : Performs v [r] (.instr .pop span) (fun _ => pure ()) (fun _ => []) fun _ => [] :=
  fun _ _ stash _ _ _ hc hs hw _ => ⟨_, v.execute_pop hs, hc, rfl, hw.withStash ⟨stash⟩, rfl⟩

theorem unary_performs (op : UnaryOp) :
    Performs v [x] (.instr (.unary op) span) (fun _ => ofExcept span (x.unary op)) (fun _ => [])
      fun r => [r] := by
  intro c rest stash env w hr hc hs hw hcur
  exact steps_answer (v.execute_unary op hs) hc rfl (hw.withStash ⟨stash⟩) rfl

theorem binary_performs (op : BinaryOp) :
    Performs v [y, x] (.instr (.binary op) span)
      (fun _ => do ofExcept span (x.binary (← get).store op y)) (fun _ => []) fun r => [r] := by
  intro c rest stash env w hr hc hs hw hcur
  have hstore : x.binary w.store op y = x.binary c.memory.store op y :=
    Value.binary_eq hw.memory.stores op (fun _ _ => trivial) fun _ _ => trivial
  show Steps v _ c rest stash _ _ (ofExcept span (x.binary w.store op y) w)
  rw [hstore]
  exact steps_answer (v.execute_binary op hs) hc rfl (hw.withStash ⟨stash⟩) rfl

theorem subscript_performs :
    Performs v [y, x] (.instr .subscript span) (fun _ => do ofExcept span (x.subscript (← get).store y))
      (fun _ => []) fun r => [r] := by
  intro c rest stash env w hr hc hs hw hcur
  have hstore : x.subscript w.store y = x.subscript c.memory.store y :=
    Value.subscript_eq hw.memory.stores fun _ _ => trivial
  show Steps v _ c rest stash _ _ (ofExcept span (x.subscript w.store y) w)
  rw [hstore]
  exact steps_answer (v.execute_subscript hs) hc rfl (hw.withStash ⟨stash⟩) rfl

/-- What stands for the value of nothing at all. -/
def idle : List Node → List Value
  | [] => [.none]
  | _ => []

/-- Only a bool leads on, and a branch that is not there gives `None`. -/
theorem branch_performs (yes : Node) (no : Option Node) :
    Performs v [r] (.instr (.branch yes no) span) (fun _ => test span r)
      (fun taken => (chosen taken yes no).toList.map fun n => v.shape (.node n true))
      (fun taken => idle (chosen taken yes no).toList) := by
  intro c rest stash env w hr hc hs hw hcur
  by_cases hb : ∃ taken, r = .bool taken
  · obtain ⟨taken, rfl⟩ := hb
    cases hn : chosen taken yes no with
    | none =>
      refine ⟨_, v.execute_branch_none hs hn, ?_, ?_, hw.withStash _, rfl⟩
      · simp only [hn]
        exact hc
      · simp only [hn]
        rfl
    | some n =>
      refine ⟨_, v.execute_branch hs hn, ?_, ?_, (hw.withControl _).withStash _, rfl⟩
      · simp only [hc, v.push_ofItems, hn]
        rfl
      · simp only [hn]
        rfl
  · have ht : test span r w = .error (.failed
        { cause := .notABool .condition r.typeName, span := some span }) w := by
      cases r with
      | bool b => exact absurd ⟨b, rfl⟩ hb
      | _ => rfl
    show Steps v _ c rest stash _ _ (test span r w)
    rw [ht]
    exact ⟨_, _, v.execute_branch_error hs fun b hr => hb ⟨b, hr⟩, rfl, hw.output⟩

/-- A `return` drops what is left of the call. -/
theorem reset_simulates {α : Type} {push : α → List Value} (hret : returns) (r : Value) :
    Simulates v depth returns [r] [.instr .reset span] (fun _ => throw (.returned r)) push := by
  intro c rest stash env w hr hc hs hw hcur
  have he : v.execute (.instr .reset span) (c.taking rest) =
      .ok () { c.taking rest with control := (ofItems rest).unwind } := rfl
  exact ⟨hret, 1, _, .step hc he (.refl _), Control.unwind_ofItems, hs, (hw.taking rest).withControl _⟩

end

/-! Objects -/

/-- The world with a new object. -/
def World.stored (w : World) (env : EnvId) (content : Content) : World :=
  { w with store := (w.store.alloc env content).2 }

theorem alloc_shows (hs : c.Sound) (hw : Shows c w) (env : EnvId) (content : Content) :
    ∃ m, Memory.alloc content c.memory = .ok ⟨w.store.next⟩ m ∧ m.current = c.memory.current ∧
      Shows { c with memory := m } (w.stored env content) := by
  obtain ⟨e, he⟩ := hs.memory.environment hs.memory.current_present
  obtain ⟨m, hm, ha⟩ := Memory.allocIn_ok he content
  rw [← hw.memory.next] at hm
  refine ⟨m, hm, ?_, hw.withMemory ((hw.memory.stored _ env content).congr ha) rfl rfl⟩
  simp only [Memory.current]
  rw [← ha.active]
  rfl

theorem list_performs (items : List Value) :
    Performs v items.reverse (.instr (.list items.length) span)
      (fun env => do return .list (← alloc env (.list items))) (fun _ => []) fun r => [r] := by
  intro c rest stash env w hr hc hs hw hcur
  obtain ⟨m, hm, hm', hw'⟩ := alloc_shows hr.sound hw env (.list items)
  exact ⟨_, v.execute_list hs hm, hc, rfl, hw'.withStash _, hm'⟩

theorem closure_eq (hw : Shows c w) (make : Func → EnvId → RunId → Bool → Span → Closure) (env : EnvId)
    (func : Func) (span : Span) : closure make env func span w =
      .ok (.closure ⟨w.store.next⟩) (w.stored env (.closure (make func env c.run c.predefined span))) := by
  rw [hw.predefined, ← hw.run]
  rfl

theorem lambda_performs (func : Func) :
    Performs v [] (.node (.lambda span func) skip) (fun env => closure Closure.ofLambda env func span)
      (fun _ => []) fun r => [r] := by
  intro c rest stash env w hr hc hs hw hcur
  obtain rfl := hcur ⟨rfl, .inl rfl⟩
  show Steps v _ c rest stash _ _ (closure Closure.ofLambda c.memory.current func span w)
  rw [closure_eq hw]
  obtain ⟨m, hm, hm', hw'⟩ := alloc_shows hr.sound hw c.memory.current
    (.closure (.ofLambda func c.memory.current c.run c.predefined span))
  exact ⟨_, v.execute_lambda hm, hc, congrArg (_ :: ·) hs, hw'.withStash _, hm'⟩

theorem define_performs (name : String) (func : Func) (declaration : Bool) :
    Performs v [] (.node (.define span name func declaration) skip)
      (fun env => closure Closure.ofDefine env func span)
      (fun _ => [.instr (.assignment name false declaration) span]) fun r => [r] := by
  intro c rest stash env w hr hc hs hw hcur
  obtain rfl := hcur ⟨rfl, .inl rfl⟩
  show Steps v _ c rest stash _ _ (closure Closure.ofDefine c.memory.current func span w)
  rw [closure_eq hw]
  obtain ⟨m, hm, hm', hw'⟩ := alloc_shows hr.sound hw c.memory.current
    (.closure (.ofDefine func c.memory.current c.run c.predefined span))
  refine ⟨_, v.execute_define hm, ?_, congrArg (_ :: ·) hs, (hw'.withControl _).withStash _, hm'⟩
  show c.control.pushInstr (.assignment name false declaration) span = _
  rw [hc]
  exact Variant.pushInstr_ofItems _ span rest

/-! Names that get a value -/

theorem nameValue_shows (hw : Shows c w) (name : String) (value : Value) :
    ∃ w', nameValue name value w = .ok () w' ∧ Shows { c with memory := c.memory.named value name } w' := by
  cases value with
  | closure id => exact ⟨_, rfl, hw.withMemory (hw.memory.nameClosure id name) rfl rfl⟩
  | _ => exact ⟨w, rfl, hw⟩

/-- Both sides bind the name at the same place, or fail alike. -/
theorem bindName_shows (hs : c.memory.Sound c.run) (hw : Shows c w) (span : Span) (name : String) (value : Value)
    {declaration : Bool}
    (hd : declaration = true → ∃ e, c.memory.environment? c.memory.current = some e ∧ (e.lookup? name).isSome) :
    (∃ m w', Memory.bindName name value false declaration c.memory = .ok () m ∧
      bindName span c.memory.current name value declaration w = .ok () w' ∧
      m.current = c.memory.current ∧ Shows { c with memory := m } w') ∨
    ∃ cause, Memory.bindName name value false declaration c.memory = .error cause c.memory ∧
      bindName span c.memory.current name value declaration w = .error (.failed (cause.withSpan span)) w := by
  by_cases hdecl : declaration = true
  · obtain ⟨e, he, hx⟩ := hd hdecl
    subst hdecl
    exact .inl ⟨_, _, Memory.define_ok he hx value false, rfl, rfl,
      hw.withMemory (hw.memory.update hs he rfl rfl) rfl rfl⟩
  · obtain rfl : declaration = false := Bool.eq_false_iff.mpr hdecl
    rw [bindName, if_neg hdecl, get_bind, hw.memory.find?_eq_resolve hs name]
    simp only [Memory.bindName, Memory.assign]
    rw [if_neg hdecl]
    cases hr : c.memory.resolve name with
    | found env e slot =>
      dsimp only
      cases slot.constant with
      | true => exact .inr ⟨_, rfl, rfl⟩
      | false =>
        have hfound := (Memory.resolveFrom_found hr).1
        exact .inl ⟨_, _, rfl, rfl, rfl, hw.withMemory (hw.memory.update hs hfound rfl rfl) rfl rfl⟩
    | absent => exact .inr ⟨_, rfl, rfl⟩
    | broken env => exact absurd hr (hs.resolveFrom_ne_broken hs.current_present env)

theorem assignment_performs (name : String) (value : Value) (declaration : Bool) :
    Performs v [value] (.instr (.assignment name false declaration) span)
      (fun env => do
        assign span env name value declaration
        return .none) (fun _ => []) fun r => [r] := by
  intro c rest stash env w hr hc hs hw hcur
  obtain rfl := hcur ⟨rfl, .inl rfl⟩
  obtain ⟨w₁, hname, hw₁⟩ := nameValue_shows hw name value
  have hcurrent : (c.memory.named value name).current = c.memory.current := by cases value <;> rfl
  have hsame : ∀ id, (c.memory.named value name).environment? id = c.memory.environment? id := by
    intro id
    cases value <;> rfl
  have hassign : assign span c.memory.current name value declaration w =
      bindName span (c.memory.named value name).current name value declaration w₁ := by
    rw [hcurrent]
    exact bind_of_ok hname
  have hd : declaration = true → ∃ e, (c.memory.named value name).environment?
      (c.memory.named value name).current = some e ∧ (e.lookup? name).isSome := by
    rintro rfl
    rw [hcurrent, hsame]
    exact hr.declares
  show Steps v _ c rest stash _ _
    ((assign span c.memory.current name value declaration >>= fun _ => pure Value.none) w)
  have hnamed := (hr.sound.memory.named value name).1
  rcases bindName_shows hnamed hw₁ span name value hd with ⟨m, w₂, hm, hb, hcur₂, hw₂⟩ | ⟨cause, hm, hb⟩
  · rw [bind_of_ok (hassign.trans hb)]
    exact ⟨_, v.execute_assignment hs hm, hc, rfl, hw₂.withStash _, hcur₂.trans hcurrent⟩
  · rw [bind_of_error (hassign.trans hb)]
    exact ⟨_, _, v.execute_assignment_error hs hm, rfl, hw₁.output⟩

end CseMachine.Reference
