import CseMachine.Proofs.Collection.Contexts
import CseMachine.Proofs.Variant.Execution

/-!
# Items on contexts that agree

Every item, in every variant of the machine, runs in lockstep on contexts that
agree on what is live: the root set covers all that an item can read.
-/
namespace CseMachine.Variant

open Context (Agree)
open CseMachine.Action (lockstep_get lockstep_modify lockstep_raise lockstep_pushControl lockstep_pushValue
  lockstep_onMemory lockstep_ofExcept lockstep_popValue lockstep_popValues lockstep_enter
  lockstep_declareAll lockstep_closureHere)

variable {L M : Live} {c₁ c₂ : Context} (v : Variant) (h : Agree L c₁ c₂)
include h

theorem lockstep_pushRestore (span : Span) :
    Lockstep Agree Same L (v.pushRestore span c₁) (v.pushRestore span c₂) := by
  apply lockstep_modify
  have hw := h.withControl fun c => v.push c (.instr (.restore c₁.memory.current) span)
  rw [← h.control_eq, ← h.memory.current_eq]
  split
  · exact h
  · rw [← h.control_eq] at hw
    exact hw

theorem lockstep_pushStatements (body : List Node) :
    Lockstep Agree Same L (v.pushStatements body c₁) (v.pushStatements body c₂) := by
  cases body with
  | nil => exact lockstep_pushValue h fun id hi => nomatch hi
  | cons first rest =>
    exact lockstep_pushControl h fun c => v.pushAll c (Node.statementItems (first :: rest))

/-! Nodes -/

theorem lockstep_program (skipEnv : Bool) (span : Span) (declarations : List Declaration)
    (body : List Node) :
    Lockstep Agree Same L (v.evalSelf skipEnv (.program span declarations body) c₁)
      (v.evalSelf skipEnv (.program span declarations body) c₂) := by
  have htail : Action.programTail c₁ = Action.programTail c₂ := by
    simp only [Action.programTail]
    rw [← h.programEnv_eq, ← h.memory.current_eq]
  have hlive : ∀ t, some (Action.programTail c₁) = some t → L.envs t := by
    rintro t ⟨⟩
    simp only [Action.programTail]
    cases hp : c₁.programEnv with
    | none => exact h.memory.current_live
    | some env => exact h.programLive env hp
  rw [evalSelf_program, evalSelf_program, ← htail]
  refine (lockstep_enter h (h.memory.create "programEnvironment" hlive)).bind fun N env _ c₁ c₂ hl h he => ?_
  obtain ⟨rfl, he⟩ := he
  have hp : Agree N { c₁ with programEnv := some env } { c₂ with programEnv := some env } := by
    refine ⟨?_, h.memory, h.stashLive, fun t ht => Option.some.inj ht ▸ he⟩
    rw [h.same]
  refine (lockstep_modify hp).bind fun N' _ _ c₁ c₂ hl h _ => ?_
  refine (lockstep_declareAll h (hl.1 env he) declarations).bind fun N _ _ c₁ c₂ _ h _ => ?_
  exact lockstep_pushStatements v h body

theorem lockstep_block (skipEnv : Bool) (span : Span) (declarations : List Declaration)
    (body : List Node) :
    Lockstep Agree Same L (v.evalSelf skipEnv (.block span declarations body) c₁)
      (v.evalSelf skipEnv (.block span declarations body) c₂) := by
  have hrest : ∀ {M : Live} {c₁ c₂ : Context} (env : EnvId), Agree M c₁ c₂ → M.envs env →
      Lockstep Agree Same M ((Action.declareAll env declarations >>= fun _ => v.pushStatements body) c₁)
        ((Action.declareAll env declarations >>= fun _ => v.pushStatements body) c₂) := by
    intro M c₁ c₂ env h he
    refine (lockstep_declareAll h he declarations).bind fun N _ _ c₁ c₂ _ h _ => ?_
    exact lockstep_pushStatements v h body
  cases skipEnv with
  | true =>
    have hr := hrest c₁.memory.current h h.memory.current_live
    rw [evalSelf_skippedBlock, evalSelf_skippedBlock, ← h.memory.current_eq]
    exact hr
  | false =>
    rw [evalSelf_block]
    refine (lockstep_pushRestore v h span).bind fun M _ _ c₁ c₂ hl h _ => ?_
    have hlive : ∀ t, some c₁.memory.current = some t → M.envs t :=
      fun t ht => Option.some.inj ht ▸ h.memory.current_live
    have hc := h.memory.create "blockEnvironment" hlive
    have hcur : c₂.memory.createBlock "blockEnvironment" =
        c₂.memory.create "blockEnvironment" (some c₁.memory.current) := by
      rw [h.memory.current_eq]
      rfl
    rw [← hcur] at hc
    refine (lockstep_enter h hc).bind fun N env _ c₁ c₂ _ h he => ?_
    obtain ⟨rfl, he⟩ := he
    exact hrest env h he

theorem lockstep_evalSelf (skipEnv : Bool) {n : Node} (hp : n.parts? = none) :
    Lockstep Agree Same L (v.evalSelf skipEnv n c₁) (v.evalSelf skipEnv n c₂) := by
  have hnone : ∀ {w : Value}, w.objectId? = none →
      Lockstep Agree Same L (Action.pushValue w c₁) (Action.pushValue w c₂) :=
    fun hw => lockstep_pushValue h (Value.within_of_objectId?_eq_none hw)
  cases n with
  | program span declarations body => exact lockstep_program v h skipEnv span declarations body
  | block span declarations body => exact lockstep_block v h skipEnv span declarations body
  | sequence span body =>
    cases body with
    | nil => exact hnone rfl
    | cons first rest => cases hp
  | ret span value =>
    cases value with
    | none =>
      refine (lockstep_pushControl h _).bind fun M _ _ c₁ c₂ _ h _ => ?_
      exact lockstep_pushValue h (Value.within_of_objectId?_eq_none rfl)
    | some e => cases hp
  | define span name func declaration =>
    refine (lockstep_closureHere h _ (fun _ _ _ _ _ => rfl) func span).bind fun M w _ c₁ c₂ _ h hw => ?_
    obtain ⟨rfl, hw⟩ := hw
    refine (lockstep_pushControl h _).bind fun N _ _ c₁ c₂ hl h _ => ?_
    exact lockstep_pushValue h (hw.mono hl.2)
  | lambda span func =>
    refine (lockstep_closureHere h _ (fun _ _ _ _ _ => rfl) func span).bind fun M w _ c₁ c₂ _ h hw => ?_
    obtain ⟨rfl, hw⟩ := hw
    exact lockstep_pushValue h hw
  | pass span => exact hnone rfl
  | literal span l => exact hnone (by cases l <;> rfl)
  | identifier span name =>
    refine (lockstep_get h).bind fun M d₁ d₂ c₁ c₂ hl h hd => ?_
    rw [← hd.memory.get_eq name]
    refine (lockstep_ofExcept (P := SameValue) h fun w hw => ⟨rfl, hd.memory.get_within hw⟩).bind
      fun N w _ c₁ c₂ _ h hw => ?_
    obtain ⟨rfl, hw⟩ := hw
    exact lockstep_pushValue h hw
  | expression | assign | branch | conditional | unary | binary | call | list | subscript =>
    cases hp

theorem lockstep_evalNode (skipEnv : Bool) (n : Node) :
    Lockstep Agree Same L (v.evalNode skipEnv n c₁) (v.evalNode skipEnv n c₂) := by
  simp only [evalNode]
  cases hp : n.parts? with
  | some items => exact lockstep_pushControl h _
  | none => exact lockstep_evalSelf v h skipEnv hp

/-! Instructions -/

theorem lockstep_leaveCaller (span : Span) :
    Lockstep Agree Same L (v.leaveCaller span c₁) (v.leaveCaller span c₂) := by
  simp only [leaveCaller]
  refine (lockstep_get h).bind fun M d₁ d₂ c₁ c₂ _ h hd => ?_
  rw [← hd.control_eq]
  cases v.replacesFrames && d₁.control.canAvoidRestore with
  | false => exact lockstep_pushRestore v h span
  | true =>
    apply lockstep_modify
    rcases h.memory.pop? with ⟨h₁, h₂⟩ | ⟨top, m₁, m₂, h₁, h₂, hm⟩
    · rw [h₁, h₂]
      exact h
    · rw [h₁, h₂]
      exact h.withMemory M.le_refl hm

theorem lockstep_callClosure {id : ObjId} {args : List Value} (span : Span) (hid : L.objects id)
    (ha : ∀ w ∈ args, w.Within L.objects) :
    Lockstep Agree Same L (v.callClosure id args span c₁) (v.callClosure id args span c₂) := by
  simp only [callClosure]
  refine (lockstep_get h).bind fun M d₁ d₂ c₁ c₂ hl h hd => ?_
  have hid := hl.2 id hid
  rw [← hd.stores.closure?_eq hid, ← hd.run_eq]
  cases hc : d₁.memory.store.closure? id with
  | none => exact lockstep_raise h _
  | some closure =>
    have henv := hd.memory.closed.closure hid hc
    simp only
    split
    · exact lockstep_raise h _
    · refine (lockstep_ofExcept (P := Same) h fun _ _ => rfl).bind fun N _ _ c₁ c₂ hn h _ => ?_
      refine (lockstep_leaveCaller v h span).bind fun N' _ _ c₁ c₂ hn' h _ => ?_
      have hl' := Live.le_trans hn hn'
      have ha' : ∀ w ∈ args, w.Within N'.objects := fun w hw =>
        (ha w hw).mono fun id hi => hl'.2 id (hl.2 id hi)
      refine (lockstep_onMemory h (h.memory.createFrame span (hl'.1 _ henv) ha')).bind
        fun K env _ c₁ c₂ _ h he => ?_
      obtain ⟨rfl, he⟩ := he
      refine (lockstep_modify (h.withMemory K.le_refl (h.memory.push he))).bind
        fun K' _ _ c₁ c₂ _ h _ => ?_
      exact lockstep_pushControl h fun c => v.pushAll c (v.bodyItems closure.func span)

theorem lockstep_callBuiltin (f : Builtin) {args : List Value} (ha : ∀ w ∈ args, w.Within L.objects) :
    Lockstep Agree Same L (Action.callBuiltin f args c₁) (Action.callBuiltin f args c₂) := by
  simp only [Action.callBuiltin]
  refine (lockstep_get h).bind fun M d₁ d₂ c₁ c₂ hl h hd => ?_
  have ha' : ∀ w ∈ args, w.Within M.objects := fun w hw => (ha w hw).mono hl.2
  rw [← Builtin.call_eq hd.stores f ha', ← Builtin.printed_eq hd.stores f ha']
  refine (lockstep_ofExcept (P := SameValue) h fun w hw =>
    ⟨rfl, Builtin.call_within hd.stores ha' hw⟩).bind fun N w _ c₁ c₂ _ h hw => ?_
  obtain ⟨rfl, hw⟩ := hw
  have ho : Agree N { c₁ with output := c₁.output ++ f.printed d₁.memory.store args }
      { c₂ with output := c₂.output ++ f.printed d₁.memory.store args } := by
    refine ⟨?_, h.memory, h.stashLive, h.programLive⟩
    rw [h.same]
  refine (lockstep_modify ho).bind fun N' _ _ c₁ c₂ hn h _ => ?_
  exact lockstep_pushValue h (hw.mono hn.2)

theorem lockstep_apply (count : Nat) (span : Span) :
    Lockstep Agree Same L (v.apply count span c₁) (v.apply count span c₂) := by
  simp only [apply]
  refine (lockstep_popValues h count _).bind fun M args _ c₁ c₂ _ h ha => ?_
  obtain ⟨rfl, ha⟩ := ha
  refine (lockstep_popValue h).bind fun N w _ c₁ c₂ hn h hw => ?_
  obtain ⟨rfl, hw⟩ := hw
  have ha' : ∀ w ∈ args, w.Within N.objects := fun w hw => (ha w hw).mono hn.2
  cases w with
  | builtin f => exact lockstep_callBuiltin h f ha'
  | closure id => exact lockstep_callClosure v h span (hw id rfl) ha'
  | _ => exact lockstep_raise h _

theorem lockstep_branch (yes : Node) (no : Option Node) :
    Lockstep Agree Same L (v.branch yes no c₁) (v.branch yes no c₂) := by
  simp only [branch]
  refine (lockstep_popValue h).bind fun M w _ c₁ c₂ _ h hw => ?_
  obtain ⟨rfl, -⟩ := hw
  cases w with
  | bool taken =>
    dsimp only
    cases if taken then some yes else no with
    | some n => exact lockstep_pushControl h fun c => v.push c (.node n true)
    | none => exact lockstep_pushValue h fun id hi => nomatch hi
  | _ => exact lockstep_raise h _

theorem lockstep_assign (name : String) (constant declaration : Bool) :
    Lockstep Agree Same L (Action.assign name constant declaration c₁)
      (Action.assign name constant declaration c₂) := by
  rw [Action.assign_eq]
  refine (lockstep_popValue h).bind fun M w _ c₁ c₂ _ h hw => ?_
  obtain ⟨rfl, hw⟩ := hw
  have hn : Memory.Agree M (c₁.memory.named w name) (c₂.memory.named w name) := by
    cases w with
    | closure id => exact h.memory.nameClosure id name
    | _ => exact h.memory
  have hb : Lockstep Memory.Agree Same M
      (Memory.bindName name w constant declaration (c₁.memory.named w name))
      (Memory.bindName name w constant declaration (c₂.memory.named w name)) := by
    simp only [Memory.bindName]
    cases declaration with
    | true =>
      have hd := hn.define name constant hn.current_live hw
      simp only [if_true, ← hn.current_eq]
      exact hd
    | false => exact hn.assign name hw
  refine (lockstep_onMemory h hb).bind fun N _ _ c₁ c₂ _ h _ => ?_
  exact lockstep_pushValue h (Value.within_of_objectId?_eq_none rfl)

/-- To whom an object belongs is not seen. -/
theorem agree_keepResult (target : EnvId) (left : List EnvId) :
    Agree L (c₁.keepResult target left) (c₂.keepResult target left) := by
  obtain ⟨m₁, h₁, ha₁⟩ := c₁.keepResult_eq target left
  obtain ⟨m₂, h₂, ha₂⟩ := c₂.keepResult_eq target left
  rw [h₁, h₂]
  exact h.withMemory L.le_refl (h.memory.congr ha₁ ha₂)

theorem lockstep_operator {f : Store → Except EvalError Value}
    (hf : ∀ {M : Live} {s t : Store}, L ≤ M → s.Alike M.objects t →
      f s = f t ∧ ∀ w, f s = .ok w → w.Within M.objects) :
    Lockstep Agree Same L
      ((do let c ← get; Action.pushValue (← Action.ofExcept (f c.memory.store)) : Action Unit) c₁)
      ((do let c ← get; Action.pushValue (← Action.ofExcept (f c.memory.store)) : Action Unit) c₂) := by
  refine (lockstep_get h).bind fun M d₁ d₂ c₁ c₂ hl h hd => ?_
  obtain ⟨he, hw⟩ := hf hl hd.stores
  rw [← he]
  refine (lockstep_ofExcept (P := SameValue) h fun w hr => ⟨rfl, hw w hr⟩).bind fun N w _ c₁ c₂ _ h hw => ?_
  obtain ⟨rfl, hw⟩ := hw
  exact lockstep_pushValue h hw

theorem lockstep_execInstr (span : Span) (i : Instr) :
    Lockstep Agree Same L (v.execInstr span i c₁) (v.execInstr span i c₂) := by
  cases i with
  | pop => exact (lockstep_popValue h).bind fun M _ _ c₁ c₂ _ h _ => .ok h rfl
  | assignment name constant declaration => exact lockstep_assign h name constant declaration
  | unary op =>
    refine (lockstep_popValue h).bind fun M w _ c₁ c₂ _ h hw => ?_
    obtain ⟨rfl, -⟩ := hw
    refine (lockstep_ofExcept (P := SameValue) h fun r hr =>
      ⟨rfl, Value.within_of_objectId?_eq_none (Value.unary_no_handle hr)⟩).bind fun N r _ c₁ c₂ _ h hr => ?_
    obtain ⟨rfl, hr⟩ := hr
    exact lockstep_pushValue h hr
  | binary op =>
    refine (lockstep_popValue h).bind fun M y _ c₁ c₂ _ h hy => ?_
    obtain ⟨rfl, hy⟩ := hy
    refine (lockstep_popValue h).bind fun N x _ c₁ c₂ hn h hx => ?_
    obtain ⟨rfl, hx⟩ := hx
    refine lockstep_operator (f := fun s => x.binary s op y) h fun hl hs => ⟨?_, ?_⟩
    · exact Value.binary_eq hs op (hx.mono hl.2) ((hy.mono hn.2).mono hl.2)
    · exact fun r hr => Value.within_of_objectId?_eq_none (Value.binary_no_handle hr)
  | application count => exact lockstep_apply v h count span
  | branch yes no => exact lockstep_branch v h yes no
  | restore target =>
    refine (lockstep_onMemory h (h.memory.restore target)).bind fun M left _ c₁ c₂ _ h hl => ?_
    obtain rfl := hl
    exact lockstep_modify (agree_keepResult h target left)
  | marker => exact .ok h rfl
  | reset => exact lockstep_pushControl h _
  | list count =>
    refine (lockstep_popValues h count _).bind fun M items _ c₁ c₂ _ h hi => ?_
    obtain ⟨rfl, hi⟩ := hi
    refine (lockstep_onMemory h (h.memory.alloc (Content.within_list hi))).bind
      fun N id _ c₁ c₂ _ h hid => ?_
    obtain ⟨rfl, hid⟩ := hid
    exact lockstep_pushValue h fun k hk => Option.some.inj hk ▸ hid
  | subscript =>
    refine (lockstep_popValue h).bind fun M y _ c₁ c₂ _ h hy => ?_
    obtain ⟨rfl, hy⟩ := hy
    refine (lockstep_popValue h).bind fun N x _ c₁ c₂ hn h hx => ?_
    obtain ⟨rfl, hx⟩ := hx
    refine lockstep_operator (f := fun s => x.subscript s y) h fun hl hs => ⟨?_, ?_⟩
    · exact Value.subscript_eq hs (hx.mono hl.2)
    · exact fun r hr => Value.subscript_within hs (hx.mono hl.2) hr

theorem lockstep_execute (item : Item) :
    Lockstep Agree Same L (v.execute item c₁) (v.execute item c₂) := by
  cases item with
  | node n skipEnv => exact lockstep_evalNode v h skipEnv n
  | instr i span => exact lockstep_execInstr v h span i

end CseMachine.Variant
