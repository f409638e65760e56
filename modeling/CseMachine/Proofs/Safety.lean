import Mathlib
import CseMachine.Proofs.Safety.Start

/-!
# No internal errors

Whatever programs are loaded and however they are run, no step fails with an
internal error or a name declared twice: operands are on the Stash, restored
environments are active, names are declared where they get their value and
handles lead to objects. What holds of the machine that never collects holds of
the machine, since the two are alike.
-/
namespace CseMachine

/-- The parser gives the program. -/
def Accepted (program : Node) : Prop := ∃ source, parse source = .ok program

theorem Accepted.scoped {program : Node} (h : Accepted program) : program.ScopedProgram := by
  obtain ⟨source, hp⟩ := h
  exact parse_scoped hp

/-- An environment or a value. -/
inductive Ref where
  | env (id : EnvId)
  | value (w : Value)

/-- What the reference leads to exists. -/
def Ref.Resolves (m : Memory) : Ref → Prop
  | .env id => (m.environment? id).isSome
  | .value w => w.Resolves m.store

namespace Context

variable {c d start : Context}

/-- What the next steps can get at. -/
inductive Seen (c : Context) : Ref → Prop
  | active {id : EnvId} (h : id ∈ c.memory.active) : Seen c (.env id)
  | program {id : EnvId} (h : c.programEnv = some id) : Seen c (.env id)
  | stash {w : Value} (h : w ∈ c.stash.items) : Seen c (.value w)
  | tail {id tail : EnvId} {e : Environment} (h : Seen c (.env id)) (he : c.memory.environment? id = some e)
      (ht : e.tail = some tail) : Seen c (.env tail)
  | bound {id : EnvId} {e : Environment} {x : String} {w : Value} {constant : Bool} (h : Seen c (.env id))
      (he : c.memory.environment? id = some e) (hx : e.lookup? x = some ⟨some w, constant⟩) : Seen c (.value w)
  | element {id : ObjId} {items : List Value} {w : Value} (h : Seen c (.value (.list id)))
      (hi : c.memory.store.list? id = some items) (hw : w ∈ items) : Seen c (.value w)
  | captured {id : ObjId} {closure : Closure} (h : Seen c (.value (.closure id)))
      (hc : c.memory.store.closure? id = some closure) : Seen c (.env closure.env)

/-- Nothing that the next step needs is missing. -/
structure Intact (c : Context) : Prop where
  operands : ∀ i span rest, c.control.items.items = .instr i span :: rest → i.takes ≤ c.stash.size
  restores : ∀ target ∈ Control.targets c.control.items.items, target ∈ c.memory.active
  declared : ∀ name constant span rest,
    c.control.items.items = .instr (.assignment name constant true) span :: rest →
      ∃ e, c.memory.environment? c.memory.current = some e ∧ (e.lookup? name).isSome
  seen : ∀ r, c.Seen r → r.Resolves c.memory

structure Orderly (c : Context) : Prop where
  regular : ∀ e ∈ c.errors, e.cause.Regular
  intact : c.phase ≠ .errored → c.Intact
  finished : c.phase = .finished → c.control.isEmpty ∧ c.stash.size = 1

/-- Contexts that a program is loaded into, stepped and run in, with any limits, and loaded with
further programs each time it has finished. -/
inductive Session (start : Context) : Context → Prop
  | load {program : Node} (accepted : Accepted program) : Session start (start.load program)
  | step {c : Context} (before : Session start c) : Session start c.step.2
  | run {c d : Context} {limits : Limits} {bound : Nat} {outcome : Outcome} (before : Session start c)
      (ran : c.runWithin bound limits = some (outcome, d)) : Session start d
  | reload {c : Context} {program : Node} (before : Session start c) (finished : c.phase = .finished)
      (accepted : Accepted program) : Session start (c.load program)

/-! A context that may collect beside one that does not -/

/-- The reference is among what is live. -/
def Live (L : CseMachine.Live) : Ref → Prop
  | .env id => L.envs id
  | .value w => w.Within L.objects

variable {L : CseMachine.Live}

theorem Agree.seen (h : Agree L c d) (hd : d.Sound) {r : Ref} (hs : c.Seen r) :
    Live L r ∧ r.Resolves d.memory := by
  have hpresent : ∀ {id : EnvId}, id.index < d.memory.nextEnv → (d.memory.environment? id).isSome :=
    fun hi => (hd.memory.present _).mpr hi
  induction hs with
  | active hid =>
    exact ⟨h.memory.activeLive _ hid, hpresent (hd.memory.activePresent _ (h.memory.active ▸ hid))⟩
  | program hp => exact ⟨h.programLive _ hp, hpresent (hd.program _ (h.programEnv_eq ▸ hp))⟩
  | stash hw => exact ⟨h.stashLive _ hw, hd.values _ (h.stash_eq ▸ hw)⟩
  | tail _ he ht ih =>
    obtain ⟨heap, he'⟩ := h.memory.environment?_some ih.1 he
    have hlt := hd.memory.tail _ _ _ he' ht
    exact ⟨h.memory.closed.tail _ _ _ ih.1 he ht, hpresent (Nat.lt_trans hlt (hd.memory.index_lt he'))⟩
  | bound _ he hx ih =>
    obtain ⟨heap, he'⟩ := h.memory.environment?_some ih.1 he
    refine ⟨fun o ho => ?_, hd.memory.bound _ _ _ _ _ he' hx⟩
    exact h.memory.closed.handle _ _ o ih.1 he (Environment.objectId_mem_handles hx ho)
  | element _ hi hw ih =>
    have hl := h.memory.list?_eq (ih.1 _ rfl)
    exact ⟨h.memory.closed.list (ih.1 _ rfl) hi _ hw, hd.memory.element _ _ (hl.symm.trans hi) _ hw⟩
  | captured _ hc ih =>
    have hl := h.memory.closure?_eq (ih.1 _ rfl)
    exact ⟨h.memory.closed.closure (ih.1 _ rfl) hc, hpresent (hd.memory.closure _ _ (hl.symm.trans hc)).1⟩

theorem Agree.resolves (h : Agree L c d) {r : Ref} (hl : Live L r) (hr : r.Resolves d.memory) :
    r.Resolves c.memory := by
  rcases r with id | w
  · obtain ⟨e, he⟩ := Option.isSome_iff_exists.mp hr
    obtain ⟨heap, he'⟩ := h.memory.symm.environment?_some hl he
    exact Option.isSome_iff_exists.mpr ⟨_, he'⟩
  · cases w with
    | closure id =>
      show (c.memory.store.closure? id).isSome
      rw [h.memory.closure?_eq (hl id rfl)]
      exact hr
    | list id =>
      show (c.memory.store.list? id).isSome
      rw [h.memory.list?_eq (hl id rfl)]
      exact hr
    | _ => trivial

theorem Agree.orderly (h : Agree L c d) (hd : d.Healthy) : c.Orderly := by
  have hitems : ∀ {items}, d.control = .ofItems items → c.control.items.items = items := by
    intro items hc
    rw [h.control_eq, hc]
    rfl
  refine ⟨h.errors_eq ▸ hd.regular, fun hp => ?_, fun hp => ?_⟩
  · obtain ⟨items, hc, hr⟩ := hd.running (h.phase_eq ▸ hp)
    refine ⟨fun i span rest hi => ?_, fun target ht => ?_, fun name constant span rest hi => ?_, fun r hs => ?_⟩
    · rw [hitems hc] at hi
      subst hi
      rw [Stack.size, h.stash_eq]
      exact hr.supplies
    · rw [hitems hc] at ht
      exact h.memory.active ▸ List.mem_of_mem_tail (hr.targets.subset ht)
    · rw [hitems hc] at hi
      subst hi
      obtain ⟨e, he, hx⟩ := hr.declares
      rw [← h.memory.current_eq] at he
      obtain ⟨heap, he'⟩ := h.memory.symm.environment?_some h.memory.current_live he
      exact ⟨_, he', hx⟩
    · obtain ⟨hl, hres⟩ := h.seen hr.sound hs
      exact h.resolves hl hres
  · have hp' : d.phase = .finished := h.phase_eq ▸ hp
    have hc := hd.finished hp'
    obtain ⟨items, hc', hr⟩ := hd.running (by rw [hp']; exact nofun)
    obtain rfl : items = [] := by
      have hi := hc'.symm.trans hc
      exact congrArg (fun k : Control => k.items.items) hi
    constructor
    · rw [h.control_eq, hc]
      rfl
    · rw [Stack.size, h.stash_eq]
      exact hr.height_eq_one

end Context

/-! Sessions -/

section

open Context (Alike)

variable {c d : Context}

/-- Some healthy context that never collects is alike. -/
def Context.Tracked (c : Context) : Prop := ∃ d, Alike c d ∧ d.Healthy

theorem Variant.step_tracked (h : c.Tracked) : c.step.2.Tracked := by
  obtain ⟨d, ha, hd⟩ := h
  obtain ⟨-, hs⟩ := step_alike standard standard.afterStep (fun _ => 0) standard.atEnd (fun _ => 0) ha
  refine ⟨_, ?_, standard.step_healthy hd⟩
  rw [← step_standard]
  exact hs

/-- A run without limits is not suspended. -/
theorem Variant.runWithin_tracked {limits : Limits} {bound : Nat} {o : Outcome} (h : c.Tracked)
    (hr : c.runWithin bound limits = some (o, d)) :
    d.Tracked ∧ (c.phase ≠ .errored → o.Leaves d ∧ (limits = {} → d.phase ≠ .suspended)) := by
  obtain ⟨c', ha, hc⟩ := h
  have hs := runWithin_alike standard standard.afterStep (fun _ => 0) standard.atEnd (fun _ => 0) limits bound ha
  have hstd : (standard.collecting standard.afterStep standard.atEnd).runWithin bound limits c =
      some (o, d) := (runWithin_standard limits bound c).trans hr
  rw [hstd] at hs
  cases hr' : (standard.collecting (fun _ => 0) fun _ => 0).runWithin bound limits c' with
  | none =>
    rw [hr'] at hs
    exact hs.elim
  | some ended =>
    rw [hr'] at hs
    obtain ⟨rfl, hd⟩ := hs
    have hphase : c.phase = c'.phase := congrArg Context.View.phase ha.view_eq
    have hphase' : d.phase = ended.2.phase := congrArg Context.View.phase hd.view_eq
    have herrors : d.errors = ended.2.errors := congrArg Context.View.errors hd.view_eq
    simp only [runWithin] at hr'
    split at hr'
    · next hp =>
      cases hr'
      exact ⟨⟨_, hd, hc⟩, fun hn => absurd (hphase.trans hp) hn⟩
    · next hp =>
      obtain ⟨hh, hl, hlim⟩ := standard.runFrom_healthy limits hc hp hr'
      refine ⟨⟨_, hd, hh⟩, fun _ => ⟨?_, fun he => hphase' ▸ hlim he⟩⟩
      simp only [Outcome.Leaves, Context.error?] at hl ⊢
      rw [hphase', herrors]
      exact hl

/-- What a caller starts from is alike to a context that can be loaded. -/
def Context.Startable (c : Context) : Prop := ∃ d, Alike c d ∧ d.Loadable

theorem Context.Startable.load {program : Node} (h : c.Startable) (hp : Accepted program) :
    (c.load program).Tracked := by
  obtain ⟨d, ha, hd⟩ := h
  exact ⟨_, ha.load program, hd.load hp.scoped⟩

theorem Context.Tracked.startable (h : c.Tracked) (hp : c.phase = .finished) : c.Startable := by
  obtain ⟨d, ha, hd⟩ := h
  have hphase : c.phase = d.phase := congrArg Context.View.phase ha.view_eq
  exact ⟨d, ha, hd.loadable (hphase ▸ hp)⟩

theorem Context.Tracked.orderly (h : c.Tracked) : c.Orderly := by
  obtain ⟨d, ⟨L, ha⟩, hd⟩ := h
  exact ha.orderly hd

theorem Context.Session.tracked {start : Context} (h : Session start c) (hs : start.Startable) : c.Tracked := by
  induction h with
  | load accepted => exact hs.load accepted
  | step _ ih => exact Variant.step_tracked ih
  | run _ ran ih => exact (Variant.runWithin_tracked ih ran).1
  | reload _ finished accepted ih => exact (ih.startable finished).load accepted

theorem Setup.afterPrelude_startable (h : c.Startable) : (afterPrelude c).Startable := by
  obtain ⟨d, ⟨L, ha⟩, hd⟩ := h
  refine ⟨afterPrelude d, ⟨L, ?_, ha.memory, (fun _ h => nomatch h), ha.programLive⟩, ?_⟩
  · simp only [afterPrelude]
    rw [ha.same]
  · exact ⟨hd.regular, nofun, ⟨hd.sound.memory, (fun _ h => nomatch h), hd.sound.program⟩, hd.control⟩

theorem Setup.runPrelude_startable {bound : Nat} {prelude : Node} {result : Except StartFailure Context}
    (h : c.Loadable) (hp : Accepted prelude) (hr : runPrelude bound prelude c = some result) :
    match result with
    | .error failure => failure.error.cause.Regular
    | .ok start => start.Startable := by
  have hstart : { c with predefined := true }.Startable :=
    ⟨_, .refl _, h.regular, h.phase, ⟨h.sound.memory, h.sound.values, h.sound.program⟩, h.control⟩
  have hload := hstart.load hp
  have hidle : ({ c with predefined := true }.load prelude).phase ≠ .errored := Context.load_ne_errored h.phase
  simp only [runPrelude] at hr
  split at hr
  · cases hr
  · next e d hd =>
    cases hr
    obtain ⟨htracked, hleaves⟩ := Variant.runWithin_tracked hload hd
    obtain ⟨-, he⟩ := (hleaves hidle).1
    exact htracked.orderly.regular e (List.mem_of_head? he)
  · next o d hne hd =>
    cases hr
    obtain ⟨htracked, hleaves⟩ := Variant.runWithin_tracked hload hd
    obtain ⟨hl, hlim⟩ := hleaves hidle
    cases o with
    | finished w repr => exact afterPrelude_startable (htracked.startable hl)
    | suspended reason taken => exact absurd hl (hlim rfl)
    | error e => exact absurd rfl (hne e)

/-- From the standard builtins and any prelude that the parser accepts: the prelude may fail, but only
regularly, and else in every session errors are regular, nothing that a next step needs is missing,
and a context that has finished has nothing on Control and one value on the Stash. -/
theorem Setup.no_internal_errors {prelude : Option Node}
    (hp : ∀ program, prelude = some program → Accepted program) {bound : Nat} {run : RunId}
    {result : Except StartFailure Context} (hn : newContext { prelude } bound run = some result) :
    match result with
    | .error failure => failure.error.cause.Regular
    | .ok start => ∀ c, Context.Session start c → c.Orderly := by
  rw [newContext_eq] at hn
  cases prelude with
  | none =>
    cases hn
    exact fun c hc => (hc.tracked ⟨_, .refl _, Context.fresh_loadable run⟩).orderly
  | some program =>
    have hstart := runPrelude_startable (Context.fresh_loadable run) (hp program rfl) hn
    cases result with
    | error failure => exact hstart
    | ok start => exact fun c hc => (hc.tracked hstart).orderly

theorem Setup.no_internal_errors_print :
    (∀ program, (none : Option Node) = some program → Accepted program) ∧
      newContext {} 0 ⟨0⟩ = some (.ok (.fresh ⟨0⟩)) ∧
        ∃ program, Accepted program ∧ ((Context.fresh ⟨0⟩).load program).step.2.Orderly := by
  have hp : ∀ program, (none : Option Node) = some program → Accepted program := fun _ h => nomatch h
  have hn := newContext_eq none 0 ⟨0⟩
  have hparse : (parse "print(1)").isOk = true := by cbv
  obtain ⟨program, hprogram⟩ : ∃ program, parse "print(1)" = .ok program := by
    cases h : parse "print(1)" with
    | ok program => exact ⟨program, rfl⟩
    | error e =>
      rw [h] at hparse
      cases hparse
  have haccepted : Accepted program := ⟨_, hprogram⟩
  exact ⟨hp, hn, program, haccepted, no_internal_errors hp hn _ (.step (.load haccepted))⟩

end

end CseMachine
