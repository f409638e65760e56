import CseMachine.Proofs.Safety.Instructions

/-!
# Calls are safe

A call leaves the caller's frame only if nothing left looks at it, so that what is
left fits in any frame, and enters a frame in which the names of the body are new.
-/
namespace CseMachine

/-- No parameter is a local name too. -/
theorem Func.Scoped.find?_local {f : Func} (h : f.Scoped) :
    f.params.find? (fun p => f.locals.contains p.name) = none := by
  obtain ⟨_, _, _, _, _, hd, _⟩ := h.body
  refine List.find?_eq_none.mpr fun p hp hc => ?_
  have hlocal : p.name ∈ f.locals := by simpa using hc
  exact (List.nodup_append.mp hd).2.2 _ (List.mem_map_of_mem hp) _ hlocal rfl

theorem Action.checkArguments_regular {closure : Closure} (h : closure.func.Scoped) (given : Nat) :
    FailsRegularly (checkArguments closure given) := by
  simp only [checkArguments]
  rw [h.find?_local]
  dsimp only
  split
  · exact fun e he => Except.error.inj he ▸ trivial
  · split
    · exact fun e he => Except.error.inj he ▸ trivial
    · exact fun e he => nomatch he

namespace Variant

open Context (Safe)
open Control (ofItems targets Cares)

variable (v : Variant) {c : Context} {ret : Option Nat} {env : Option EnvId} {rest : List Item} {span : Span}
  {height : Nat}

/-- Either nothing left cares where it runs, or the way back is on Control. -/
theorem left_cases (hc : c.control = ofItems rest) (span : Span) :
    (∃ active, v.left span c = { c with memory := { c.memory with active } } ∧ ¬Cares rest ∧
      (active = c.memory.active ∨ active ≠ [] ∧ active = c.memory.active.tail)) ∨
    v.left span c = { c with control := ofItems (.instr (.restore c.memory.current) span :: rest) } := by
  simp only [left]
  split
  · next hr =>
    rw [hc] at hr
    have hcares := Control.not_cares_of_canAvoidRestore (Bool.and_eq_true_iff.mp hr).2
    cases hp : c.memory.pop? with
    | none => exact .inl ⟨c.memory.active, rfl, hcares, .inl rfl⟩
    | some popped =>
      obtain ⟨hm, hne⟩ := Memory.pop?_eq_some hp
      refine .inl ⟨c.memory.active.tail, ?_, hcares, .inr ⟨hne, rfl⟩⟩
      simp only [hm]
  · split
    · next hs =>
      rw [hc] at hs
      refine .inl ⟨c.memory.active, rfl, ?_, .inl rfl⟩
      rcases Bool.or_eq_true_iff.mp (Bool.and_eq_true_iff.mp hs).2 with ha | hp
      · exact Control.not_cares_of_canAvoidRestore ha
      · exact Control.not_cares_of_peek? hp
    · right
      rw [hc, v.push_ofItems, shape_instr]

theorem left_ready (h : c.Pending ret env height rest) (span : Span) :
    ∃ items active, v.left span c = { c with
        control := ofItems items
        memory := { c.memory with active } } ∧
      ({ c.memory with active } : Memory).Sound c.run ∧ c.memory.Grows { c.memory with active } ∧
      (targets items).Sublist active ∧ Fits c.memory ret none height items := by
  have hm := h.sound.memory
  rcases left_cases v h.control span with ⟨active, hl, hcares, ha⟩ | hl
  · have hsub : active.Sublist c.memory.active ∧ active ≠ [] ∧ (targets rest).Sublist active := by
      rcases ha with rfl | ⟨hne, rfl⟩
      · exact ⟨.refl _, hm.activeNonempty, h.targets.trans (List.tail_sublist _)⟩
      · exact ⟨List.tail_sublist _, hne, h.targets⟩
    obtain ⟨hs, hg⟩ := hm.withActive active hsub.2.1 fun id hi => hm.activePresent id (hsub.1.subset hi)
    exact ⟨rest, active, h.control ▸ hl, hs, hg, hsub.2.2, h.fits.forget hcares⟩
  · refine ⟨_, c.memory.active, hl, hm, .refl _, ?_, ?_⟩
    · obtain ⟨id, below, ha⟩ := List.exists_cons_of_ne_nil hm.activeNonempty
      have hcur : c.memory.current = id := by
        simp only [Memory.current]
        rw [ha]
        rfl
      have ht := h.targets
      rw [ha] at ht
      rw [Control.targets_cons, ha, hcur]
      exact ht.cons_cons id
    · show Fits c.memory ret (some c.memory.current) height rest
      cases env with
      | none => exact h.fits.here
      | some e => exact h.current e rfl ▸ h.fits

/-- What is pushed for a body runs in a new frame. -/
theorem bodyItems_expects {func : Func} {e : Environment} (hs : func.Scoped)
    (he : c.memory.environment? c.memory.current = some e)
    (hn : ∀ x ∉ func.params.map (·.name), e.lookup? x = none)
    (hf : Fits c.memory ret none (c.height + 1) rest) (span : Span) :
    c.Expects ((v.bodyItems func span).map v.shape ++ rest) := by
  obtain ⟨at', declarations, body, hb, hl, hd, hbody⟩ := hs.body
  simp only [bodyItems]
  split
  · next e' hr =>
    have hret : func.singleReturn? = some e' := by
      split at hr
      · exact hr
      · cases hr
    simp only [Func.singleReturn?] at hret
    rw [hb] at hret
    split at hret
    · next hblock =>
      cases hblock
      cases hret
      have hscoped : e'.Scoped (c.memory.Declares none) (ret = some (c.height + 1)) false :=
        hbody.1.2.mono (fun x hx => by cases hx) False.elim id
      have hfits : Fits c.memory ret none c.height ([.node e' false] ++ rest) := ⟨hscoped, hf⟩
      exact .fits ret none (by simp) (hfits.shapes v)
    · cases hret
  · have hmark : Fits c.memory (some (c.height + 1)) none (c.height + 1) (.instr .marker span :: rest) :=
      ⟨rfl, ret, hf⟩
    rw [hb, List.map_cons, List.map_cons, shape_instr]
    cases declarations with
    | nil =>
      have hscoped : AllScoped (c.memory.Declares none) (some (c.height + 1) = some (c.height + 1)) body :=
        hbody.mono (fun x hx => by cases hx) fun _ => rfl
      have hfits : Fits c.memory (some (c.height + 1)) none c.height
          (.node (.block at' [] body) true :: .instr .marker span :: rest) := ⟨⟨rfl, rfl, hscoped⟩, hmark⟩
      exact .fits _ none (by simp) (hfits.shape v)
    | cons d ds =>
      have hshape : v.shape (.node (.block at' (d :: ds) body) true) = .node (.block at' (d :: ds) body) true := by
        simp only [shape]
        split <;> rfl
      rw [hshape]
      obtain ⟨-, hdistinct, hdisjoint⟩ := List.nodup_append.mp hd
      refine .enters he (fun q hq => hn q.name fun hp => ?_) (hl ▸ hdistinct) hbody hmark
      exact hdisjoint _ hp q.name (hl ▸ List.mem_map_of_mem hq) rfl

theorem targets_bodyItems (func : Func) (span : Span) : targets (v.bodyItems func span) = [] := by
  simp only [bodyItems]
  split <;> rfl

theorem entered_running {func : Func} {e : Environment} (h : c.Sound) (hc : c.control = ofItems rest)
    (ht : (targets rest).Sublist c.memory.active.tail) (hs : func.Scoped)
    (he : c.memory.environment? c.memory.current = some e)
    (hn : ∀ x ∉ func.params.map (·.name), e.lookup? x = none)
    (hf : Fits c.memory ret none (c.height + 1) rest) (span : Span) :
    { c with control := v.pushAll c.control (v.bodyItems func span) }.Running := by
  have hexpects := bodyItems_expects v hs he hn hf span
  refine ⟨_, hc ▸ v.pushAll_ofItems _ _, h.withControl _, ?_, ?_⟩
  · rw [Control.targets_append, v.targets_shapes, targets_bodyItems]
    exact ht
  · exact hexpects.congr rfl rfl

/-- A call takes its arguments and what is called below them. -/
theorem called_taken {base count : Nat} (hb : c.height = base + (count + 1)) (h : c.Pending ret env (base + 1) rest) :
    ∃ (w : Value) (args stash : List Value), args.length = count ∧ c.stash.items = args.reverse ++ w :: stash ∧
      { c with stash := ⟨stash⟩ }.Pending ret env ({ c with stash := ⟨stash⟩ }.height + 1) rest ∧
        w.Resolves c.memory.store ∧ ∀ x ∈ args, x.Resolves c.memory.store := by
  obtain ⟨top, stash, hi, ht, hl⟩ := List.exists_reverse_append hb
  obtain ⟨w, args, rfl⟩ := List.exists_cons_of_length_eq_add_one ht
  have hp := operands_taken h hi hl
  rw [List.reverse_cons, List.append_assoc, List.singleton_append] at hi
  refine ⟨w, args, stash, Nat.succ.inj ht, hi, hp, h.sound.values w (hi ▸ by simp), fun x hx => ?_⟩
  exact h.sound.values x (hi ▸ List.mem_append_left _ (List.mem_reverse.mpr hx))

theorem call_safe {base count : Nat} (hb : c.height = base + (count + 1))
    (h : c.Pending ret env (base + 1) rest) : Safe (v.execute (.instr (.application count) span) c) := by
  obtain ⟨w, args, stash, rfl, hi, hp, hw, ha⟩ := called_taken hb h
  cases w with
  | builtin f =>
    cases hr : f.call c.memory.store args with
    | error e =>
      rw [execute_call_builtin_error v hi hr]
      exact (Builtin.call_plain f ha).regular e hr
    | ok r =>
      rw [execute_call_builtin v hi hr]
      exact (hp.withOutput (c.output ++ f.printed c.memory.store args)).pushValue (h.sound.memory.call_resolves ha hr)
  | closure id =>
    obtain ⟨closure, hc⟩ := Option.isSome_iff_exists.mp hw
    obtain ⟨henv, hrun, hscoped⟩ := h.sound.memory.closure id closure hc
    cases hargs : Action.checkArguments closure args.length with
    | error e =>
      rw [execute_call_arguments v hi hc hrun hargs]
      exact Action.checkArguments_regular hscoped _ e hargs
    | ok u =>
      obtain ⟨items, active, hleft, hs, hg, htargets, hfits⟩ := left_ready v hp span
      obtain ⟨_, _, _, _, _, hdistinct, _⟩ := hscoped.body
      obtain ⟨m, e, hm, hs', hg', hactive, hframe, hnew⟩ := hs.createFrame span
        (List.nodup_append.mp hdistinct).1 henv ha
      have hcall : Memory.createFrame closure args span (v.left span { c with stash := ⟨stash⟩ }).memory =
          .ok ⟨c.memory.nextEnv⟩ m := by
        rw [hleft]
        exact hm
      rw [execute_call v hi hc hrun hargs hcall, hleft]
      have hgrow := hg.trans hg'
      refine entered_running v (c := { c with
        control := ofItems items
        stash := ⟨stash⟩
        memory := m.push ⟨c.memory.nextEnv⟩ }) ?_ rfl ?_ hscoped hframe hnew (hfits.mono hgrow) span
      · exact (hp.sound.withMemory hs' hgrow).withControl _
      · show (targets items).Sublist m.active
        rw [hactive]
        exact htargets
  | _ =>
    rw [execute_call_error v hi (by simp) (by simp)]
    trivial

end Variant
end CseMachine
