import CseMachine.Proofs.Dependence.Items
import CseMachine.Proofs.Restores

/-!
# What depends on the environment

Control counts those of its items that depend on the environment. However it came about
the count is exact, so that taking an item off never counts below zero and a glance at
the count tells whether anything left looks at the environment. The analysis that the
count rests on is sound: where a node does not depend on the environment, neither it nor
anything that it expands to reads or writes a binding or makes a closure, down to the
calls that enter a frame.
-/
namespace CseMachine

namespace Control

/-- What may be done to a Control. -/
inductive Edit where
  | push (item : Item)
  /-- Push one after the other, so that the last one ends on top. -/
  | pushAll (items : List Item)
  /-- Take the top off, if there is one. -/
  | pop

def edit (c : Control) : Edit → Control
  | .push item => c.push item
  | .pushAll items => items.foldl push c
  | .pop => (c.pop?.map (·.2)).getD c

def editAll (c : Control) (edits : List Edit) : Control := edits.foldl edit c

/-- The count is what it is to be. -/
structure Exact (c : Control) : Prop where
  counted : c.envDependent = c.items.items.countP Item.isEnvDependent
  /-- An item that was counted is uncounted when it is taken off, and no count is cut off at zero. -/
  uncounted : ∀ item rest, c.pop? = some (item, rest) →
    c.envDependent = rest.envDependent + if item.isEnvDependent then 1 else 0
  avoids : c.canAvoidRestore = true ↔ ∀ i ∈ c.items.items, i.isEnvDependent = false

variable {c : Control}

theorem exact_ofItems (items : List Item) : (ofItems items).Exact := by
  refine ⟨rfl, fun item rest hp => ?_, canAvoidRestore_ofItems⟩
  cases items with
  | nil => cases hp
  | cons top below =>
    rw [pop?_ofItems] at hp
    cases hp
    exact List.countP_cons

/-- A Control whose count is exact is what its items make of it. -/
theorem Exact.eq_ofItems (h : c.Exact) : c = ofItems c.items.items := by
  obtain ⟨⟨items⟩, count⟩ := c
  exact congrArg (Control.mk ⟨items⟩) h.counted

theorem exact_of_eq (h : c = ofItems c.items.items) : c.Exact := h ▸ exact_ofItems c.items.items

theorem Exact.push (h : c.Exact) (item : Item) : (c.push item).Exact := by
  rw [h.eq_ofItems, ← Variant.push_standard, Variant.push_ofItems]
  exact exact_ofItems _

theorem Exact.edit (h : c.Exact) (e : Edit) : (c.edit e).Exact := by
  cases e with
  | push item => exact h.push item
  | pushAll items =>
    simp only [Control.edit]
    induction items generalizing c with
    | nil => exact h
    | cons item items ih => exact ih (h.push item)
  | pop =>
    rw [h.eq_ofItems]
    cases c.items.items with
    | nil => exact exact_ofItems []
    | cons top below =>
      simp only [Control.edit, pop?_ofItems]
      exact exact_ofItems below

theorem Exact.editAll (h : c.Exact) (edits : List Edit) : (c.editAll edits).Exact := by
  induction edits generalizing c with
  | nil => exact h
  | cons e edits ih => exact ih (h.edit e)

/-- Giving up the rest of a call is taking items off one by one. -/
theorem Exact.unwind_eq (h : c.Exact) : ∃ pops, c.unwind = c.editAll (List.replicate pops .pop) := by
  rw [h.eq_ofItems, unwind_ofItems]
  generalize c.items.items = items
  induction items with
  | nil => exact ⟨0, rfl⟩
  | cons item rest ih =>
    have hpop : (ofItems (item :: rest)).edit .pop = ofItems rest := by
      simp only [Control.edit, pop?_ofItems, Option.map_some, Option.getD_some]
    simp only [belowMarker]
    split
    · exact ⟨1, hpop.symm⟩
    · obtain ⟨pops, hpops⟩ := ih
      refine ⟨pops + 1, hpops.trans ?_⟩
      simp only [Control.editAll, List.replicate_succ, List.foldl_cons, hpop]

end Control

namespace Context

open Control (Calm)

/-- What becomes of the item on top of `below`: in `d` the items of `left` are still to be done for it. Calls that
enter a frame are not followed, nor what comes after a failure. -/
inductive Expands (below : List Item) (c : Context) : List Item → Context → Prop
  | start {top : Item} (onTop : c.control.items.items = top :: below) : Expands below c [top] c
  | step {item : Item} {rest left : List Item} {d e : Context} (before : Expands below c (item :: rest) d)
      (inside : ¬d.CallsClosure item) (advanced : d.advance? = some (item, e)) (sound : e.phase ≠ .errored)
      (still : e.control.items.items = left ++ below) : Expands below c left e

/-- Executing the item, whether it fails or not, reads and writes no binding of a frame that is there, and
makes no closure. -/
structure Oblivious (c : Context) (item : Item) : Prop where
  /-- Whatever these frames are bound to, the item does the same. -/
  reads : ∀ f : Rebinding, f.Spares c.memory.nextEnv →
    Action.execute item (c.rebind f) = onState (rebind f) (Action.execute item c)
  writes : match Action.execute item c with
    | .ok _ d => c.memory.Untouched d.memory
    | .error _ d => c.memory.Untouched d.memory

variable {c d e : Context} {item : Item} {below left rest : List Item}

theorem WellFormed.oblivious (h : c.WellFormed) (hi : item.isEnvDependent = false) : c.Oblivious item :=
  ⟨fun _ hf => (Variant.blind_execute hf hi c ⟨Nat.le_refl _, trivial⟩).1, h.untouched_execute hi⟩

/-- What a step that enters no frame leaves above does not depend on the environment. -/
theorem calm_advance (hitems : c.control.items.items = item :: rest ++ below) (hd : ∀ i ∈ item :: rest, i.isEnvDependent = false)
    (hn : ¬c.CallsClosure item) (ha : c.advance? = some (item, d)) (hp : d.phase ≠ .errored) : Calm below d.control := by
  obtain ⟨control, e, hpop, hx⟩ := advance?_eq_some ha
  have hcontrol : control.items.items = rest ++ below :=
    (List.cons.inj ((Control.items_pop? hpop).symm.trans hitems)).2
  have hstart : Calm below (c.taken control).control := by
    intro above habove i hi
    obtain rfl : above = rest := List.append_cancel_right (habove.symm.trans hcontrol)
    exact hd i (.tail _ hi)
  rcases hx with ⟨hx, rfl⟩ | ⟨error, -, rfl⟩
  · have hcalm := calm_execute hstart (hd item (.head _)) hn hx
    split
    · exact hcalm
    · exact hcalm
  · exact absurd rfl hp

/-- Nothing that a node expands to depends on the environment if the node does not. -/
theorem Expands.independent (he : Expands below c left d) (h : c.WellFormed)
    (hd : ∀ item, c.control.items.items = item :: below → item.isEnvDependent = false) :
    d.WellFormed ∧ d.control.items.items = left ++ below ∧ (∀ i ∈ left, i.isEnvDependent = false) ∧
      c.memory.Untouched d.memory := by
  induction he with
  | start onTop => exact ⟨h, onTop, fun i hi => List.mem_singleton.mp hi ▸ hd _ onTop, .refl _⟩
  | step before inside advanced sound still ih =>
    obtain ⟨hw, hitems, hleft, hm⟩ := ih
    have hcalm := calm_advance hitems hleft inside advanced sound
    exact ⟨hw.advance advanced, still, hcalm _ still, hm.trans (hw.untouched_advance (hleft _ (.head _)) advanced)⟩

end Context

namespace Setup

open Context (Expands)

/-- The count of Control is exact after any pushes and pops and in every context there is, also while the rest of a call
is given up. A block that declares nothing is pushed as its statements, any other item as it is. And what a node expands
to that does not depend on the environment is oblivious of it, the call that enters a frame included. -/
theorem reachable_dependence :
    (∀ edits, (Control.empty.editAll edits).Exact) ∧
    (∀ (s : Setup) (run : RunId) (c : Context), s.Reachable run c → c.control.Exact ∧ c.control.unwind.Exact ∧
      ∃ pops, c.control.unwind = c.control.editAll (List.replicate pops .pop)) ∧
    (∀ (c : Control) (span : Span) (body : List Node) (skip : Bool),
      (c.push (.node (.block span [] body) skip)).peek? = some (.node (.sequence span body) skip) ∧
        (Node.sequence span body).isEnvDependent = (Node.block span [] body).isEnvDependent) ∧
    (∀ (c : Control) (item : Item), (∀ span body skip, item ≠ .node (.block span [] body) skip) →
      (c.push item).peek? = some item) ∧
    ∀ (s : Setup) (run : RunId) (c : Context) (n : Node) (skip : Bool) (below : List Item), s.Reachable run c →
      c.control.items.items = .node n skip :: below → n.isEnvDependent = false → ∀ left d, Expands below c left d →
        c.memory.Untouched d.memory ∧ ∀ item rest, left = item :: rest →
          ∃ control, d.control.pop? = some (item, control) ∧ (d.taken control).Oblivious item := by
  refine ⟨fun edits => (Control.exact_ofItems []).editAll edits, fun s run c h => ?_, fun c span body skip => ⟨rfl, rfl⟩,
    fun c item hitem => ?_, fun s run c n skip below h hitems hd left d he => ?_⟩
  · obtain ⟨-, ha⟩ := Context.anchored_invariant.reachable h
    have hexact := Control.exact_of_eq ha.counted
    obtain ⟨pops, hpops⟩ := hexact.unwind_eq
    exact ⟨hexact, hpops ▸ hexact.editAll _, pops, hpops⟩
  · have hflat : item.flatten = item := by
      unfold Item.flatten
      split
      · next span body skip => exact absurd rfl (hitem span body skip)
      · rfl
    show some item.flatten = some item
    rw [hflat]
  · have hone : ∀ item, c.control.items.items = item :: below → item.isEnvDependent = false := by
      intro item hi
      obtain ⟨rfl, -⟩ := List.cons.inj (hi.symm.trans hitems)
      exact hd
    obtain ⟨hw, hi, hleft, hm⟩ := he.independent h.wellFormed hone
    refine ⟨hm, ?_⟩
    rintro item rest rfl
    have hp : d.control.pop? = some (item, ⟨⟨rest ++ below⟩, Control.countWithout d.control.envDependent item⟩) := by
      simp only [Control.pop?, Stack.pop?]
      rw [hi]
      rfl
    exact ⟨_, hp, (hw.taken hp).oblivious (hleft item (.head _))⟩

/-- `[1] if True else 2`. -/
def listOfOne : Node :=
  .conditional ⟨0, 18⟩ (.literal ⟨7, 11⟩ (.bool true)) (.list ⟨0, 3⟩ [.literal ⟨1, 2⟩ (.int 1)]) (.literal ⟨17, 18⟩ (.int 2))

/-- The branch goes on with the list, which is then made without a look at the environment. -/
theorem reachable_dependence_listOfOne : ∃ c d control list, Reachable {} ⟨0⟩ c ∧
    c.control.items.items = [.node listOfOne false] ∧ listOfOne.isEnvDependent = false ∧
    Expands [] c [.node list true] d ∧ c.memory.Untouched d.memory ∧ (d.taken control).Oblivious (.node list true) := by
  have hstart : Reachable {} ⟨0⟩ (.fresh ⟨0⟩) := .started (newContext_eq none 0 ⟨0⟩)
  have hloaded := hstart.loaded listOfOne
  generalize hc : (Context.fresh ⟨0⟩).load listOfOne = c at hloaded
  have hparts : Expands [] c [.node (.literal ⟨7, 11⟩ (.bool true)) false,
      .instr (.branch (.list ⟨0, 3⟩ [.literal ⟨1, 2⟩ (.int 1)]) (some (.literal ⟨17, 18⟩ (.int 2)))) ⟨0, 18⟩] c.step.2 := by
    subst hc
    exact (Expands.start rfl).step id rfl nofun rfl
  have htested : Expands [] c [.instr (.branch (.list ⟨0, 3⟩ [.literal ⟨1, 2⟩ (.int 1)])
      (some (.literal ⟨17, 18⟩ (.int 2)))) ⟨0, 18⟩] c.step.2.step.2 := by
    subst hc
    exact hparts.step id rfl nofun rfl
  have hchosen : Expands [] c [.node (.list ⟨0, 3⟩ [.literal ⟨1, 2⟩ (.int 1)]) true] c.step.2.step.2.step.2 := by
    subst hc
    exact htested.step id rfl nofun rfl
  have hitems : c.control.items.items = [.node listOfOne false] := by
    subst hc
    rfl
  obtain ⟨hm, hnext⟩ := reachable_dependence.2.2.2.2 {} ⟨0⟩ c listOfOne false [] hloaded hitems rfl _ _ hchosen
  obtain ⟨control, -, ho⟩ := hnext _ _ rfl
  exact ⟨c, _, control, _, hloaded, hitems, rfl, hchosen, hm, ho⟩

end Setup
end CseMachine
