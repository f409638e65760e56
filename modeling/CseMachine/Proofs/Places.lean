import CseMachine.Evaluation
import CseMachine.Proofs.Collection
import CseMachine.Proofs.Origins
import CseMachine.Proofs.Settling

/-!
# Which text an error points into

An error that happens while the prelude runs points into the prelude. While the
program runs, so do the functions of the prelude that it calls, and an error is then
said to be in the program even if it points to the place of such a function.
-/
namespace CseMachine

variable {O : Node → Prop} {c d : Context} {item : Item}

namespace Context

/-- A context has errors just if it has failed. -/
def Reports (c : Context) : Prop := c.phase = .errored ↔ c.errors ≠ []

theorem Reports.advance (h : c.Reports) (hp : c.phase ≠ .errored) (ha : c.advance? = some (item, d)) : d.Reports := by
  have hnone : c.errors = [] := not_not.mp fun hne => hp (h.mpr hne)
  rcases advance?_errors ha with ⟨hphase, herrors⟩ | ⟨hphase, error, herrors, -⟩
  · simp [Reports, hphase, herrors, hnone]
  · simp [Reports, hphase, herrors]

theorem reports_kept : Kept Reports where
  advanced h hp ha := h.advance hp ha
  finished {c} h hp _ := by
    obtain ⟨m, hs, -⟩ := c.settle_eq
    have hnone : c.errors = [] := not_not.mp fun hne => hp (h.mpr hne)
    rw [Reports, finish, hs]
    simp [hnone]
  suspended {c} h hp := by
    have hnone : c.errors = [] := not_not.mp fun hne => hp (h.mpr hne)
    simp [Reports, hnone]

/-- A run that ends with an error leaves a context that has failed with it. -/
theorem errored_of_runWithin {bound : Nat} {limits : Limits} {e : EvalError}
    (hr : c.runWithin bound limits = some (.error e, d)) : d.phase = .errored ∧ d.errorOutcome = .error e := by
  have hrun : ∀ {bound taken changes : Nat} {c : Context} {outcome : Outcome},
      c.runFrom limits bound taken changes = some (outcome, d) → outcome = .error e →
        d.phase = .errored ∧ d.errorOutcome = .error e := by
    intro bound
    induction bound with
    | zero => exact fun hr => nomatch hr
    | succ bound ih =>
      intro taken changes c outcome hr ho
      cases runFrom_proceeds hr with
      | finished | spent | changed => cases ho
      | failed unspent advanced errored => exact ⟨errored, ho⟩
      | goesOn unspent advanced sound unchanged rest => exact ih rest ho
  simp only [runWithin] at hr
  split at hr
  · next hp =>
    cases hr
    exact ⟨hp, rfl⟩
  · exact hrun hr rfl

theorem mem_errors_of_runWithin {bound : Nat} {limits : Limits} {e : EvalError} (h : d.Reports)
    (hr : c.runWithin bound limits = some (.error e, d)) : e ∈ d.errors := by
  obtain ⟨hp, ho⟩ := errored_of_runWithin hr
  simp only [errorOutcome, error?] at ho
  cases hd : d.errors with
  | nil => exact absurd hd (h.mp hp)
  | cons e' rest =>
    rw [hd] at ho
    cases ho
    exact .head _

/-- An error that a run ends with points to the place of a node of the set. -/
theorem Drawn.pointsTo (hO : Origin O) (h : c.Drawn O) (hw : c.WellFormed) (hs : c.Reports) {bound : Nat} {limits : Limits}
    {e : EvalError} (hr : c.runWithin bound limits = some (.error e, d)) : e.PointsTo (Marked O) := by
  have hd := ((Drawn.kept hO).runWithin ⟨hw, h⟩ hr).2
  exact hd.errors e (mem_errors_of_runWithin (reports_kept.runWithin hs hr) hr)

/-- A run may be followed without its collections. -/
theorem runWithin_of_hoarding {c' d' : Context} {bound : Nat} {limits : Limits} {outcome : Outcome} (h : Alike c c')
    (hr : Variant.standard.hoarding.runWithin bound limits c' = some (outcome, d')) :
    ∃ d, c.runWithin bound limits = some (outcome, d) ∧ Alike d d' := by
  have hsame := Variant.standard.runWithin_alike Variant.standard.afterStep (fun _ => 0) Variant.standard.atEnd (fun _ => 0)
    limits bound h
  have hstandard : Variant.standard.collecting Variant.standard.afterStep Variant.standard.atEnd = .standard := rfl
  rw [hstandard, Variant.runWithin_standard, show Variant.standard.collecting _ _ = Variant.standard.hoarding from rfl,
    hr] at hsame
  cases hc : c.runWithin bound limits with
  | none =>
    rw [hc] at hsame
    exact hsame.elim
  | some r =>
    rw [hc] at hsame
    exact ⟨r.2, congrArg some (Prod.ext hsame.1 rfl), hsame.2⟩

/-! Starts -/

theorem drawn_fresh (O : Node → Prop) (run : RunId) : (fresh run).Drawn O where
  items := by rintro _ ⟨⟩
  closures := by
    intro id c hc
    obtain ⟨owner, ho⟩ := Store.closure?_eq_some.mp hc
    exact absurd ho Memory.initial_empty
  errors := by rintro _ ⟨⟩

theorem wellFormed_fresh (run : RunId) : (fresh run).WellFormed := by
  have hstart : ({} : Setup).newContext 0 run = some (.ok (fresh run)) := Setup.newContext_eq none 0 run
  exact (Setup.Reachable.started hstart).wellFormed

end Context

namespace Setup

open Context

/-- A start whose prelude fails points into the prelude, and what any other start leaves is made by functions of it. -/
theorem newContext_drawn {prelude : Option Node} {bound : Nat} {run : RunId} {r : Except StartFailure Context}
    (hr : newContext { prelude } bound run = some r) : match r with
      | .error failure => ∃ tree, prelude = some tree ∧ failure.error.PointsTo tree.HasSpan
      | .ok c => c.WellFormed ∧ c.phase = .idle ∧ c.errors = [] ∧
          c.Drawn fun n => ∃ tree, prelude = some tree ∧ tree.OfFunction n := by
  rw [newContext_eq] at hr
  cases prelude with
  | none =>
    cases hr
    exact ⟨wellFormed_fresh run, rfl, rfl, drawn_fresh _ run⟩
  | some tree =>
    let start := { fresh run with predefined := true }.load tree
    have hwell : start.WellFormed := (wellFormed_invariant.predefining true (wellFormed_fresh run)).load tree
    have hfresh : { fresh run with predefined := true }.Drawn tree.Of :=
      (drawn_fresh tree.Of run).survives (fun _ hi => hi) (.withActive _ _) rfl
    have hstart : start.Drawn tree.Of := hfresh.load (Node.origin_of tree) tree.of_self
    have hreports : start.Reports := by
      simp [Reports, start, load, fresh]
    simp only [runPrelude] at hr
    split at hr
    · cases hr
    · next e d hrun =>
      cases hr
      refine ⟨tree, rfl, (hstart.pointsTo (Node.origin_of tree) hwell hreports hrun).mono fun span hm => ?_⟩
      obtain ⟨n, hn, hm⟩ := hm
      exact hn.hasSpan hm
    · next outcome d hne hrun =>
      cases hr
      obtain ⟨hd, hdrawn⟩ := (Drawn.kept (Node.origin_of tree)).runWithin ⟨hwell, hstart⟩ hrun
      have hfails : ¬∃ e, outcome = .error e := by
        rintro ⟨e, he⟩
        exact hne e he
      obtain ⟨hp, hn⟩ := (runWithin_unlimited hrun).resolve_left hfails
      have hnone : d.errors = [] := by
        refine not_not.mp fun he => ?_
        have hd := (reports_kept.runWithin hreports hrun).mpr he
        cases hd.symm.trans hp
      refine ⟨wellFormed_invariant.started hd, rfl, hnone, fun i hi => ?_, fun hc => ?_, fun e he => ?_⟩
      · simp only [Control.isEmpty, Stack.isEmpty, List.isEmpty_iff] at hn
        rw [show (Setup.afterPrelude d).control.items.items = [] from hn] at hi
        cases hi
      · obtain ⟨n, ho, hf, hs⟩ := hdrawn.closures hc
        exact ⟨n, ⟨tree, rfl, ho.ofFunction hf⟩, hf, hs⟩
      · rw [show (Setup.afterPrelude d).errors = [] from hnone] at he
        cases he

end Setup

namespace Sources

/-- What the texts are read as. -/
theorem parse_cases (s : Sources) : (∃ stage e, s.parse = .error (.parse stage e)) ∨ ∃ prelude program,
    s.parse = .ok ({ prelude }, program) ∧ CseMachine.parse s.program.text = .ok program ∧
      (s.prelude = none ∧ prelude = none ∨
        ∃ source tree, s.prelude = some source ∧ prelude = some tree ∧ CseMachine.parse source.text = .ok tree) := by
  simp only [parse]
  cases hp : s.prelude with
  | none =>
    cases hprogram : CseMachine.parse s.program.text with
    | error e => exact .inl ⟨.program, e, rfl⟩
    | ok program => exact .inr ⟨none, program, rfl, rfl, .inl ⟨rfl, rfl⟩⟩
  | some source =>
    dsimp only
    cases hprelude : CseMachine.parse source.text with
    | error e => exact .inl ⟨.prelude, e, rfl⟩
    | ok tree =>
      cases hprogram : CseMachine.parse s.program.text with
      | error e => exact .inl ⟨.program, e, rfl⟩
      | ok program => exact .inr ⟨some tree, program, rfl, rfl, .inr ⟨source, tree, rfl, rfl, hprelude⟩⟩

/-- The program starts from nodes of its own tree and functions of the prelude. -/
theorem points_program {program : Node} {prelude : Option Node} {limits : Limits} {bound : Nat} {e : EvalError} {c d : Context}
    (hw : c.WellFormed) (hi : c.phase = .idle) (hn : c.errors = [])
    (hc : c.Drawn fun n => ∃ tree, prelude = some tree ∧ tree.OfFunction n)
    (hr : (c.load program).runWithin bound limits = some (.error e, d)) :
    e.PointsTo fun span => program.HasSpan span ∨ ∃ tree, prelude = some tree ∧ tree.HasFunctionSpan span := by
  have hfunctions : Origin fun n => ∃ tree, prelude = some tree ∧ tree.OfFunction n := by
    constructor
    · rintro n child ⟨tree, ht, ho⟩ hb
      exact ⟨tree, ht, tree.origin_ofFunction.children ho hb⟩
    · rintro n n' ⟨tree, ht, ho⟩ ha
      exact ⟨tree, ht, tree.origin_ofFunction.alike ho ha⟩
  have horigin := program.origin_of.or hfunctions
  have hload := (hc.mono fun _ ho => .inr ho).load horigin (.inl program.of_self)
  have hreports : (c.load program).Reports := by
    simp [Context.Reports, Context.load, hi, hn]
  refine (hload.pointsTo horigin (hw.load program) hreports hr).mono fun span hspan => ?_
  obtain ⟨n, ho | ⟨tree, ht, ho⟩, hm⟩ := hspan
  · exact .inl (ho.hasSpan hm)
  · exact .inr ⟨tree, ht, ho.hasFunctionSpan hm⟩

/-- If an evaluation fails while it runs, its stage names a text that was read, and the error points into the tree of
this text or, while the program runs, to the place of a function of the prelude. So it does point into the text that
the stage names if no function of the prelude is there to be called. -/
theorem evaluate_points {s : Sources} {limits : Limits} {bound : Nat} {ev : Evaluation} {stage : Stage} {e : EvalError}
    (he : s.evaluate limits bound = some ev) (hr : ev.result = .error (.evaluation stage e)) :
    ∃ tree, CseMachine.parse (s.source stage).text = .ok tree ∧
      e.PointsTo (fun span => tree.HasSpan span ∨ stage = .program ∧ ∃ source prelude, s.prelude = some source ∧
        CseMachine.parse source.text = .ok prelude ∧ prelude.HasFunctionSpan span) ∧
      ((∀ source prelude n, s.prelude = some source → CseMachine.parse source.text = .ok prelude → prelude.Contains n →
        n.func? = none) → e.PointsTo tree.HasSpan) := by
  suffices h : ∃ tree, CseMachine.parse (s.source stage).text = .ok tree ∧
      e.PointsTo (fun span => tree.HasSpan span ∨ stage = .program ∧ ∃ source prelude, s.prelude = some source ∧
        CseMachine.parse source.text = .ok prelude ∧ prelude.HasFunctionSpan span) by
    obtain ⟨tree, ht, hp⟩ := h
    refine ⟨tree, ht, hp, fun hnone => hp.mono fun span hs => hs.resolve_right ?_⟩
    rintro ⟨-, source, prelude, hs, hprelude, n, func, hn, hf, -⟩
    cases (hnone source prelude n hs hprelude hn).symm.trans hf
  simp only [evaluate, prepare] at he
  rcases s.parse_cases with ⟨stage', e', hp⟩ | ⟨prelude, program, hp, hprogram, hprelude⟩
  · rw [hp] at he
    cases he
    cases hr
  · rw [hp] at he
    dsimp only at he
    cases hstart : Setup.newContext { prelude } bound ⟨0⟩ with
    | none =>
      rw [hstart] at he
      cases he
    | some start =>
      have hdrawn := Setup.newContext_drawn hstart
      rw [hstart] at he
      cases start with
      | error failure =>
        cases he
        cases hr
        obtain ⟨tree, rfl, hpoints⟩ := hdrawn
        rcases hprelude with ⟨-, hn⟩ | ⟨text, tree', hs, ht, hparse⟩
        · cases hn
        · cases ht
          refine ⟨tree, ?_, hpoints.mono fun _ hs => .inl hs⟩
          simp only [source, hs, Option.getD_some]
          exact hparse
      | ok c =>
        obtain ⟨hw, hi, hn, hc⟩ := hdrawn
        dsimp only at he
        split at he
        · cases he
        · next e' d hrun =>
          cases he
          cases hr
          refine ⟨program, hprogram, (points_program hw hi hn hc hrun).mono fun span hs => hs.imp_right ?_⟩
          rintro ⟨tree, ht, hspan⟩
          rcases hprelude with ⟨-, hn⟩ | ⟨source, tree', hs, ht', hparse⟩
          · cases hn.symm.trans ht
          · cases ht'.symm.trans ht
            exact ⟨rfl, source, tree, hs, hparse, hspan⟩
        · cases he
          cases hr

/-- A program that calls the one function of its prelude, which divides by zero. -/
def dividing : Sources where
  program := ⟨"input.py", "f()"⟩
  prelude := some ⟨"prelude.py", "f = lambda: 1 // 0"⟩

namespace dividing

def divisor : Node :=
  .program ⟨0, 18⟩ [⟨"f", false⟩] [.assign ⟨0, 18⟩ "f"
    (.lambda ⟨4, 18⟩ ⟨none, [], .block ⟨12, 18⟩ [] [.ret ⟨12, 18⟩ (some (.binary ⟨12, 18⟩ (.arith .floorDiv)
      (.literal ⟨12, 13⟩ (.int 1)) (.literal ⟨17, 18⟩ (.int 0))))], []⟩) true]

def call : Node := .program ⟨0, 3⟩ [] [.expression ⟨0, 3⟩ (.call ⟨0, 3⟩ (.identifier ⟨0, 1⟩ "f") [])]

def division : EvalError := { cause := .zeroDivision .intFloorDivision, span := some ⟨12, 18⟩ }

theorem parse_divisor : CseMachine.parse "f = lambda: 1 // 0" = .ok divisor := by
  have hlex : lex "f = lambda: 1 // 0" = .ok
      [⟨.ident "f", 0, 1⟩, ⟨.symbol .assign, 2, 3⟩, ⟨.keyword .lambda, 4, 10⟩, ⟨.symbol .colon, 10, 11⟩, ⟨.int 1, 12, 13⟩,
        ⟨.symbol .slashSlash, 14, 16⟩, ⟨.int 0, 17, 18⟩, ⟨.newline, 18, 18⟩, ⟨.eof, 18, 18⟩] := by decide +kernel
  rw [CseMachine.parse, hlex]
  cbv

theorem parse_call : CseMachine.parse "f()" = .ok call := by
  have hlex : lex "f()" = .ok
      [⟨.ident "f", 0, 1⟩, ⟨.symbol .lparen, 1, 2⟩, ⟨.symbol .rparen, 2, 3⟩, ⟨.newline, 3, 3⟩, ⟨.eof, 3, 3⟩] := by decide +kernel
  rw [CseMachine.parse, hlex]
  cbv

/-- Nothing in the program is at the place of the division. -/
theorem not_hasSpan_call : ¬call.HasSpan ⟨12, 18⟩ := by
  have hbelow : ∀ {tree n : Node}, tree.Contains n → n = tree ∨ ∃ child ∈ tree.children, child.Contains n :=
    fun h => (Relation.ReflTransGen.cases_head h).imp Eq.symm id
  have hmarks : ∀ {n : Node}, n.func? = none → n.span.stop < 12 → ¬n.Marks ⟨12, 18⟩ := by
    intro n hf hs hm
    generalize hspan : (⟨12, 18⟩ : Span) = span at hm
    cases hm with
    | self => rw [← hspan] at hs; exact absurd hs (by decide)
    | param made => cases hf.symm.trans made
  rintro ⟨n, hn, hm⟩
  rcases hbelow hn with rfl | ⟨statement, hs, hn⟩
  · exact hmarks rfl (by decide) hm
  obtain rfl := List.mem_singleton.mp hs
  rcases hbelow hn with rfl | ⟨e, he, hn⟩
  · exact hmarks rfl (by decide) hm
  obtain rfl := List.mem_singleton.mp he
  rcases hbelow hn with rfl | ⟨callee, hc, hn⟩
  · exact hmarks rfl (by decide) hm
  obtain rfl := List.mem_singleton.mp hc
  rcases hbelow hn with rfl | ⟨_, hnone, -⟩
  · exact hmarks rfl (by decide) hm
  · cases hnone

/-- How the two runs end without their collections. -/
theorem runs_hoarding : ((Variant.standard.hoarding.runWithin 20 {}
    ({ Context.fresh ⟨0⟩ with predefined := true }.load divisor)).bind fun r =>
      match r.1 with
      | .finished .. => (Variant.standard.hoarding.runWithin 20 {} ((Setup.afterPrelude r.2).load call)).bind fun r =>
        match r.1 with
        | .error e => some e
        | _ => none
      | _ => none) = some division := by decide +kernel

end dividing

open Context Setup dividing in
/-- The error points into the prelude and is said to be in the program. -/
theorem evaluate_points_dividing : ∃ ev tree, dividing.evaluate {} 20 = some ev ∧
    ev.result = .error (.evaluation .program division) ∧
      CseMachine.parse (dividing.source .program).text = .ok tree ∧
        division.PointsTo (fun span => tree.HasSpan span ∨ Stage.program = Stage.program ∧ ∃ source prelude,
          dividing.prelude = some source ∧ CseMachine.parse source.text = .ok prelude ∧ prelude.HasFunctionSpan span) ∧
        ¬division.PointsTo tree.HasSpan := by
  obtain ⟨r, hr, hrest⟩ := Option.bind_eq_some_iff.mp runs_hoarding
  split at hrest
  · next value repr ho =>
    obtain ⟨r', hr', hlast⟩ := Option.bind_eq_some_iff.mp hrest
    split at hlast
    · next e he =>
      cases hlast
      obtain ⟨d, hd, L, hl⟩ := runWithin_of_hoarding (.refl _) hr
      have hstart : newContext { prelude := some divisor } 20 ⟨0⟩ = some (.ok (afterPrelude d)) := by
        rw [newContext_eq]
        simp only [runPrelude, hd, ho]
      have halike : Alike ((afterPrelude d).load call) ((afterPrelude r.2).load call) := by
        have hready : Alike (afterPrelude d) (afterPrelude r.2) := by
          refine ⟨L, ?_, hl.memory, (by rintro _ ⟨⟩), hl.programLive⟩
          simp only [afterPrelude]
          rw [hl.same]
        exact hready.load call
      obtain ⟨d', hd', -⟩ := runWithin_of_hoarding halike hr'
      have hev : dividing.evaluate {} 20 = some (.failed (.evaluation .program division) d'.output) := by
        have hparse : dividing.parse = .ok ({ prelude := some divisor }, call) := by
          simp only [Sources.parse, dividing, parse_divisor, parse_call]
          rfl
        simp only [evaluate, prepare, hparse, hstart, hd', he]
      obtain ⟨tree, htree, hpoints, -⟩ := evaluate_points hev rfl
      obtain rfl : call = tree := Except.ok.inj (parse_call.symm.trans htree)
      refine ⟨_, call, hev, rfl, htree, hpoints, fun hp => ?_⟩
      obtain ⟨span, hs, hcall⟩ := hp.span
      cases hs
      exact not_hasSpan_call hcall
    · cases hlast
  · cases hrest

end Sources
end CseMachine
