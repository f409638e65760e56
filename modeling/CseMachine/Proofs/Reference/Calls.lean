import CseMachine.Proofs.Reference.Trees

/-!
# Calls do what applying a value does

A call of a closure enters a frame that mirrors the new one of the evaluator and
runs the body there. Then either nothing left looks at the frame, or a restore
leads back to the caller's. By induction on the depth every call is simulated.
-/
namespace CseMachine.Reference

open Control (ofItems Cares belowMarker)

variable {v : Variant} {depth : Nat} {c d : Context} {w : World} {rest : List Item} {stash : List Value}
  {span : Span} {env : EnvId} {m : Memory} {run : RunId}

/-! The frame of a call -/

theorem checkArguments_eq {closure : Closure} (h : closure.func.Scoped) (given : Nat) :
    Action.checkArguments closure given = checkArguments closure given := by
  simp only [Action.checkArguments, checkArguments]
  rw [h.find?_local]
  rfl

/-- The world with the list of a rest parameter, if there is one. -/
def World.withRest (w : World) (c : Closure) (args : List Value) : World :=
  match c.func.rest? with
  | some _ => w.stored c.env (.list (args.drop c.func.required.length))
  | none => w

/-- The world with the frame of a call. -/
def World.framed (w : World) (c : Closure) (args : List Value) : World :=
  { w.withRest c args with
    frames := (w.withRest c args).frames ++
      [⟨(w.withRest c args).outward c.env, c.callBindings args ⟨w.store.next⟩⟩] }

theorem bindArguments_eq (c : Closure) (args : List Value) (w : World) :
    bindArguments c args w = .ok (c.callBindings args ⟨w.store.next⟩) (w.withRest c args) := by
  simp only [bindArguments, World.withRest, Closure.callBindings]
  cases c.func.rest? with
  | none =>
    simp only [Option.toList_none, List.map_nil, List.append_nil]
    rfl
  | some p => rfl

theorem withRest_core (c : Closure) (args : List Value) (w : World) :
    (w.withRest c args).frames = w.frames ∧ (w.withRest c args).output = w.output ∧
      (w.withRest c args).run = w.run := by
  simp only [World.withRest]
  cases c.func.rest? <;> exact ⟨rfl, rfl, rfl⟩

theorem enter_succ (closure : Closure) (args : List Value) (w : World) :
    enter (depth + 1) closure args w =
      catchReturn (eval (enter depth) ⟨w.frames.length⟩ closure.func.body) (w.framed closure args) := by
  rw [enter]
  apply (bind_of_ok (bindArguments_eq closure args w)).trans
  rw [← (withRest_core closure args w).1]
  rfl

namespace Mirror

theorem withRest (h : Mirror m w) (c : Closure) (args : List Value) :
    Mirror (m.withRest c args) (w.withRest c args) := by
  simp only [Memory.withRest, World.withRest]
  cases c.func.rest? with
  | none => exact h
  | some p => exact h.stored _ _ _

theorem framed (h : Mirror m w) (hs : m.Sound run) {c : Closure} {args : List Value} (callSite : Span)
    (hc : c.env.index < m.nextEnv) (ha : ∀ r ∈ args, r.Resolves m.store) :
    Mirror (m.framed c args callSite) (w.framed c args) := by
  have hrest := hs.withRest c ha
  have hlt : c.env.index < (m.withRest c args).nextEnv := Nat.lt_of_lt_of_le hc hrest.2.1.nextEnv
  simp only [Memory.framed, World.framed]
  rw [h.next]
  exact (h.withRest c args).adopt hrest.1 rfl hlt

end Mirror

/-! Bodies -/

theorem catchReturn_ret (enter : Closure → List Value → Eval Value) (env : EnvId) (span span' : Span) (e : Node)
    (w : World) : catchReturn (eval enter env (.block span [] [.ret span' (some e)])) w =
      catchReturn (eval enter env e) w := by
  simp only [eval, evalStatements, evalOption, declare_nil, pure_bind]
  simp only [catchReturn]
  cases he : eval enter env e w with
  | ok r w' =>
    rw [bind_of_ok he]
    rfl
  | error exit w' => rw [bind_of_error he]

namespace Ends

variable {x : Eval Value}

/-- Where no `return` stands there is none to catch. -/
theorem catch_none (h : Ends v depth False c rest stash (fun r => [r]) (x w)) :
    Ends v depth False c rest stash (fun r => [r]) (catchReturn x w) := by
  simp only [catchReturn]
  cases hx : x w with
  | ok r w' => rwa [hx] at h
  | error exit w' =>
    rw [hx] at h
    cases exit with
    | returned r => exact h.1.elim
    | failed e => exact h
    | tooDeep => exact h

/-- The marker below a body catches what it returns. -/
theorem catch_marker (hrest : ¬Cares rest)
    (h : Ends v depth True c (.instr .marker span :: rest) stash (fun r => [r]) (x w)) :
    Ends v depth False c rest stash (fun r => [r]) (catchReturn x w) := by
  simp only [catchReturn]
  cases hx : x w with
  | ok r w' =>
    rw [hx] at h
    obtain ⟨n, d, hwalk, hd, hs, hw, -⟩ := h
    have hmark : v.execute (.instr .marker span) (d.taking rest) = .ok () (d.taking rest) := rfl
    exact ⟨n + 1, _, hwalk.trans (.step hd hmark (.refl _)), rfl, hs, hw.taking rest, fun hc => absurd hc hrest⟩
  | error exit w' =>
    rw [hx] at h
    cases exit with
    | returned r =>
      obtain ⟨-, n, d, hwalk, hd, hs, hw⟩ := h
      exact ⟨n, d, hwalk, hd, hs, hw, fun hc => absurd hc hrest⟩
    | failed e => exact h
    | tooDeep => exact h

/-- A restore that is left leads back to where the steps before started. -/
theorem restored {n : Nat} {r : EStateM.Result Exit World Value} (hwalk : Walk v n c d) (hr : d.Running)
    (h : Ends v depth False d (.instr (.restore c.memory.current) span :: rest) stash (fun r => [r]) r) :
    Ends v (n + depth) False c rest stash (fun r => [r]) r := by
  cases r with
  | ok r w =>
    obtain ⟨k, e, hk, he, hs, hw, -⟩ := h
    have hruns := Walk.running_step (hk.running hr) he
    obtain ⟨hactive, -⟩ := Control.targets_dropWhile hruns.targets
    obtain ⟨m, below, hexec, hagree, hcur⟩ := v.execute_restore_active hactive span
    refine ⟨n + (k + 1), _, hwalk.trans (hk.trans (.step he hexec (.refl _))), rfl, hs, ?_, fun _ => ?_⟩
    · exact (hw.taking rest).withMemory ((hw.memory.withActive _).congr hagree) rfl rfl
    · show m.current = c.memory.current
      simp only [Memory.current]
      rw [hcur]
      rfl
  | error exit w =>
    cases exit with
    | returned r => exact h.1.elim
    | failed e =>
      obtain ⟨k, e, hk, hf⟩ := h
      exact ⟨n + k, e, hwalk.trans hk, hf⟩
    | tooDeep =>
      obtain ⟨k, e, hle, hk⟩ := h
      exact ⟨n + k, e, Nat.add_le_add_left hle n, hwalk.trans hk⟩

end Ends

/-- What is pushed for a body does what its evaluation does in the same frame. -/
theorem body_ends (hcalls : CallsSimulate v depth) {func : Func} (hs : func.Scoped) (hr : d.Running)
    (hc : d.control = ofItems ((v.bodyItems func span).map v.shape ++ rest)) (hst : d.stash.items = stash)
    (hw : Shows d w) (henv : d.memory.current = env) (hrest : ¬Cares rest) :
    Ends v depth False d rest stash (fun r => [r]) (catchReturn (eval (enter depth) env func.body) w) := by
  obtain ⟨span', declarations, body, hb, -, -, hbody⟩ := hs.body
  simp only [Variant.bodyItems] at hc
  split at hc
  · next e he =>
    have hret : func.singleReturn? = some e := by
      split at he
      · exact he
      · cases he
    simp only [Func.singleReturn?] at hret
    rw [hb] at hret ⊢
    split at hret
    · next hblock =>
      cases hblock
      cases hret
      rw [catchReturn_ret]
      exact (node_simulates hcalls hbody.1.2 d rest stash env w hr hc hst hw fun _ => henv).catch_none
    · cases hret
  · rw [hb] at hc ⊢
    have hstatements := statements_simulate hcalls hbody
    have hblock := scope_simulates span' declarations hstatements
    rw [List.map_cons, List.map_singleton, Variant.shape_instr] at hc
    exact (hblock d (.instr .marker span :: rest) stash env w hr hc hst hw fun _ => henv).catch_marker hrest

/-! Calls -/

variable {id : ObjId} {closure : Closure} {args : List Value}

/-- What a call does at a depth, once its arguments fit. -/
def EntersSimulate (v : Variant) (depth : Nat) : Prop := ∀ c rest stash w span id closure args, c.Running →
  c.control = ofItems (.instr (.application args.length) span :: rest) →
  c.stash.items = args.reverse ++ .closure id :: stash → Shows c w → c.memory.store.closure? id = some closure →
  Action.checkArguments closure args.length = .ok () →
    Ends v depth False c rest stash (fun r => [r]) (enter depth closure args w)

/-- The caller's frame is left or kept, or the way back to it is on Control, and then nothing cares. -/
theorem left_shape (hc : c.control = ofItems rest) (span : Span) :
    ∃ items active, v.left span c = { c with control := ofItems items, memory := { c.memory with active } } ∧
      ¬Cares items ∧ (items = rest ∨ items = .instr (.restore c.memory.current) span :: rest) := by
  rcases v.left_cases hc span with ⟨active, hleft, hcares, -⟩ | hleft
  · exact ⟨rest, active, hc ▸ hleft, hcares, .inl rfl⟩
  · exact ⟨_, c.memory.active, hleft, (fun h => nomatch h.1), .inr rfl⟩

/-- The step of a call enters a frame that mirrors the evaluator's. -/
theorem call_step (hr : c.Runs (.instr (.application args.length) span :: rest)) (hc : c.control = ofItems rest)
    (hs : c.stash.items = args.reverse ++ .closure id :: stash) (hw : Shows c w)
    (hclosure : c.memory.store.closure? id = some closure)
    (hargs : Action.checkArguments closure args.length = .ok ()) :
    ∃ items d, v.execute (.instr (.application args.length) span) c = .ok () d ∧
      d.control = ofItems ((v.bodyItems closure.func span).map v.shape ++ items) ∧ d.stash.items = stash ∧
      Shows d (w.framed closure args) ∧ d.memory.current = ⟨w.frames.length⟩ ∧ ¬Cares items ∧
      (items = rest ∨ items = .instr (.restore c.memory.current) span :: rest) := by
  obtain ⟨henv, hrun, hscoped⟩ := hr.sound.memory.closure id closure hclosure
  obtain ⟨_, _, _, _, _, hdistinct, _⟩ := hscoped.body
  have hresolve : ∀ r ∈ args, r.Resolves c.memory.store := fun r hx =>
    hr.sound.values r (hs ▸ List.mem_append_left _ (List.mem_reverse.mpr hx))
  obtain ⟨items, active, hleft, hcares, hitems⟩ := left_shape (v := v) (c := { c with stash := ⟨stash⟩ }) hc span
  obtain ⟨m, hm, hagree⟩ := Memory.createFrame_ok (m := { c.memory with active })
    (List.nodup_append.mp hdistinct).1 args span
  have hframe : Memory.createFrame closure args span (v.left span { c with stash := ⟨stash⟩ }).memory =
      .ok ⟨c.memory.nextEnv⟩ m := by
    rw [hleft]
    exact hm
  have hmirror : Mirror (c.memory.framed closure args span) (w.framed closure args) :=
    hw.memory.framed hr.sound.memory span henv hresolve
  have hframed : ({ c.memory with active } : Memory).framed closure args span =
      { c.memory.framed closure args span with active } := by
    simp only [Memory.framed, Memory.withRest]
    cases closure.func.rest? <;> rfl
  have hcore := withRest_core closure args w
  have hexec := v.execute_call hs hclosure hrun hargs hframe
  rw [hleft] at hexec
  refine ⟨items, _, hexec, v.pushAll_ofItems _ _, rfl, ⟨?_, ?_, ?_, hw.predefined⟩, ?_, hcares, hitems⟩
  · exact Mirror.withActive (((hframed ▸ hmirror.withActive active : Mirror _ _)).congr hagree) _
  · exact hw.output.trans hcore.2.1.symm
  · exact hcore.2.2.trans hw.run
  · show (⟨c.memory.nextEnv⟩ : EnvId) = ⟨w.frames.length⟩
    rw [hw.memory.length]

theorem enters_zero : EntersSimulate v 0 :=
  fun c _ _ _ _ _ _ _ _ _ _ _ _ _ => ⟨0, c, Nat.le_refl 0, .refl c⟩

theorem enters_succ (hcalls : CallsSimulate v depth) : EntersSimulate v (depth + 1) := by
  intro c rest stash w span id closure args hr hc hs hw hclosure hargs
  have hruns := Walk.running_step hr hc
  obtain ⟨items, d, hexec, hd, hst, hshows, hcur, hcares, hitems⟩ :=
    call_step (v := v) hruns rfl hs (hw.taking rest) hclosure hargs
  obtain ⟨-, -, hscoped⟩ := hruns.sound.memory.closure id closure hclosure
  have hwalk : Walk v 1 c d := .step hc hexec (.refl d)
  have hends := body_ends hcalls hscoped (hwalk.running hr) hd hst hshows hcur hcares
  rw [enter_succ, Nat.add_comm]
  rcases hitems with rfl | rfl
  · exact hends.after hwalk fun h => absurd h hcares
  · exact hends.restored hwalk (hwalk.running hr)

/-- A builtin is applied in a single step. -/
theorem builtin_ends (f : Builtin) (hc : c.control = ofItems (.instr (.application args.length) span :: rest))
    (hs : c.stash.items = args.reverse ++ .builtin f :: stash) (hw : Shows c w) :
    Ends v depth False c rest stash (fun r => [r]) (apply (enter depth) span (.builtin f) args w) := by
  have hlive : ∀ r ∈ args, r.Within fun _ => True := fun _ _ _ _ => trivial
  have hcall : f.call w.store args = f.call c.memory.store args := Builtin.call_eq hw.memory.stores f hlive
  have happly : apply (enter depth) span (.builtin f) args w =
      (ofExcept span (f.call w.store args) >>= fun value => do
        modify fun w' => { w' with output := w'.output ++ f.printed w.store args }
        return value) w := rfl
  rw [happly, hcall]
  cases hr : f.call c.memory.store args with
  | ok r =>
    have hexec : v.execute (.instr (.application args.length) span) (c.taking rest) = .ok () { c.taking rest with
        stash := ⟨r :: stash⟩
        output := c.output ++ f.printed c.memory.store args } := v.execute_call_builtin (c := c.taking rest) hs hr
    refine ⟨1, _, .step hc hexec (.refl _), rfl, rfl, ?_, fun _ => rfl⟩
    rw [Builtin.printed_eq hw.memory.stores f hlive]
    exact ⟨hw.memory.withOutput _, congrArg (· ++ f.printed c.memory.store args) hw.output, hw.run, hw.predefined⟩
  | error e =>
    have hexec : v.execute (.instr (.application args.length) span) (c.taking rest) =
        .error e { c.taking rest with stash := ⟨stash⟩ } :=
      v.execute_call_builtin_error (c := c.taking rest) hs hr
    exact ⟨0, c, .refl c, _, rest, e, _, hc, hexec, rfl, hw.output⟩

theorem calls_simulate_of_enters (henters : EntersSimulate v depth) : CallsSimulate v depth := by
  intro span f args c rest stash env w hr hc hs hw hcur
  rw [List.append_assoc] at hs
  have hruns := Walk.running_step hr hc
  cases f with
  | builtin f => exact builtin_ends f hc hs hw
  | closure id =>
    have hresolves : (Value.closure id).Resolves c.memory.store :=
      hruns.sound.values (.closure id) (hs ▸ List.mem_append_right _ (.head _))
    obtain ⟨closure, hclosure⟩ := Option.isSome_iff_exists.mp hresolves
    obtain ⟨-, hrun, hscoped⟩ := hruns.sound.memory.closure id closure hclosure
    have hsame : w.store.closure? id = some closure := (hw.memory.stores.closure?_eq trivial).trans hclosure
    have happly : apply (enter depth) span (.closure id) args w =
        (ofExcept span (checkArguments closure args.length) >>= fun _ => enter depth closure args) w := by
      rw [apply, get_bind, hsame]
    show Ends v depth False c rest stash _ (apply (enter depth) span (.closure id) args w)
    rw [happly, ← checkArguments_eq hscoped]
    cases hargs : Action.checkArguments closure args.length with
    | ok u => exact henters c rest stash w span id closure args hr hc hs hw hclosure hargs
    | error e =>
      have hexec : v.execute (.instr (.application args.length) span) (c.taking rest) =
          .error e { c.taking rest with stash := ⟨stash⟩ } :=
        v.execute_call_arguments (c := c.taking rest) hs hclosure hrun hargs
      exact ⟨0, c, .refl c, _, rest, e, _, hc, hexec, rfl, hw.output⟩
  | _ =>
    exact ⟨0, c, .refl c, _, rest, _, _, hc,
      v.execute_call_error hs (by rintro _ ⟨⟩) (by rintro _ ⟨⟩), rfl, hw.output⟩

theorem calls_simulate (v : Variant) (depth : Nat) : CallsSimulate v depth := by
  induction depth with
  | zero => exact calls_simulate_of_enters enters_zero
  | succ depth ih => exact calls_simulate_of_enters (enters_succ ih)

end CseMachine.Reference
