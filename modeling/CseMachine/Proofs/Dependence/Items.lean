import CseMachine.Proofs.Memory.Rebinding
import CseMachine.Proofs.Ownership
import CseMachine.Proofs.Reference.Nodes

/-!
# Items that do not depend on the environment

Such an item does the same whatever the frames that are there are bound to, also where
it is a call that enters a frame. It gives none of these frames another binding and
makes no closure, and unless it enters a frame, what it leaves on Control does not
depend on the environment either.
-/
namespace CseMachine

open Relation (ReflTransGen)

/-- The context with all frames rebound. -/
def Context.rebind (f : Rebinding) (c : Context) : Context := { c with memory := c.memory.rebind f }

/-- The property stays true of a Control when what is pushed does not depend on the environment,
and when the rest of a call is given up. -/
structure Control.Stable (P : Control → Prop) : Prop where
  push : ∀ {c : Control} {item : Item}, P c → item.isEnvDependent = false → P (c.push item)
  unwind : ∀ {c : Control}, P c → P c.unwind

namespace Control

variable {P : Control → Prop}

theorem Stable.pushAll (hP : Stable P) {c : Control} (hc : P c) {items : List Item}
    (hd : ∀ i ∈ items, i.isEnvDependent = false) : P (Variant.standard.pushAll c items) := by
  induction items with
  | nil => exact hc
  | cons item items ih =>
    obtain ⟨hitem, hrest⟩ := List.forall_mem_cons.mp hd
    exact hP.push (ih hrest) hitem

/-- What is true of every Control. -/
def Whatever (_ : Control) : Prop := True

theorem stable_whatever : Stable Whatever := ⟨fun _ _ => trivial, fun _ => trivial⟩

/-- What lies on top of `below` does not depend on the environment. -/
def Calm (below : List Item) (c : Control) : Prop :=
  ∀ above, c.items.items = above ++ below → ∀ i ∈ above, i.isEnvDependent = false

/-- A return that does not reach below leaves a part of what was above. -/
theorem stable_calm (below : List Item) : Stable (Calm below) where
  push := by
    intro c item hc hd above ha i hi
    cases above with
    | nil => cases hi
    | cons top above =>
      obtain ⟨htop, hrest⟩ := List.cons.inj ha
      rcases List.mem_cons.mp hi with rfl | hi
      · rw [← htop, Item.isEnvDependent_flatten, hd]
      · exact hc above hrest i hi
  unwind := by
    intro c hc above ha i hi
    obtain ⟨gone, hgone⟩ := belowMarker_suffix c.items.items
    have hitems : c.unwind.items.items = belowMarker c.items.items := items_dropToMarker _ _
    rw [← hitems, ha, ← List.append_assoc] at hgone
    exact hc _ hgone.symm i (List.mem_append_right gone hi)

end Control

namespace Action

open Control (Stable)

variable {f : Rebinding} {k : Nat} {P : Control → Prop} {α : Type}

/-- The action goes by the bindings of the environments that were there before it, and it keeps what
is said of Control. -/
abbrev Blind (f : Rebinding) (k : Nat) (P : Control → Prop) (a : Action α) : Prop :=
  PassesBy (Context.rebind f) (fun c => c.memory.Counts k ∧ P c.control) a

theorem blind_pushControl {push : Control → Control} (hp : ∀ c, P c → P (push c)) : Blind f k P (pushControl push) :=
  .modify (fun _ => rfl) fun c hc => ⟨hc.1, hp c.control hc.2⟩

theorem blind_pushValue (w : Value) : Blind f k P (pushValue w) := .modify (fun _ => rfl) fun _ hc => hc

theorem blind_raise (cause : EvalError.Cause) : Blind f k P (raise cause : Action α) := .throw { cause }

theorem blind_ofExcept (r : Except EvalError α) : Blind f k P (ofExcept r) := by
  cases r with
  | ok a => exact .pure a
  | error e => exact .throw e

theorem blind_onMemory {op : Memory.Op α} (h : Memory.Blind f k op) : Blind f k P (onMemory op) := by
  intro c hc
  obtain ⟨hop, hkept⟩ := h c.memory hc.1
  have hmemory : (c.rebind f).memory = c.memory.rebind f := rfl
  simp only [onMemory, hmemory, hop]
  cases hm : op c.memory with
  | ok a m =>
    rw [hm] at hkept
    exact ⟨rfl, hkept, hc.2⟩
  | error e m =>
    rw [hm] at hkept
    exact ⟨rfl, hkept, hc.2⟩

theorem blind_popValue : Blind f k P popValue := by
  intro c hc
  have hstash : (c.rebind f).stash = c.stash := rfl
  simp only [popValue, hstash]
  cases c.stash.pop? <;> exact ⟨rfl, hc⟩

theorem blind_popValues (count : Nat) (fault : EvalError.Fault) : Blind f k P (popValues count fault) := by
  intro c hc
  have hstash : (c.rebind f).stash = c.stash := rfl
  simp only [popValues, hstash]
  cases c.stash.popN? count <;> exact ⟨rfl, hc⟩

/-- Push the value of an operation that looks at no binding. -/
theorem blind_answer {r : Context → Except EvalError Value} (hr : ∀ c, r (c.rebind f) = r c) :
    Blind f k P (do pushValue (← ofExcept (r (← get)))) := by
  refine .get (fun c => ?_) fun c => (blind_ofExcept (r c)).bind fun w => blind_pushValue w
  rw [hr c]

/-- An environment that is entered is new, and what encloses it is not looked up. -/
theorem blind_enter (hf : f.Spares k) (name : String) {tail : Memory → Option EnvId} (ht : ∀ m, tail (m.rebind f) = tail m) :
    Blind f k P (enter fun m => m.create name (tail m)) := by
  intro c hc
  have hmade := Memory.rebind_create c.memory name (tail c.memory) (hf _ [] hc.1)
  have hentered : ((c.memory.rebind f).create name (tail (c.memory.rebind f))).2 =
      (c.memory.create name (tail c.memory)).2.rebind f := by rw [ht, hmade]
  refine ⟨?_, Nat.le_succ_of_le hc.1, hc.2⟩
  exact congrArg (fun m : Memory => (.ok ⟨c.memory.nextEnv⟩ { c with memory := m.push ⟨c.memory.nextEnv⟩ } :
    EStateM.Result EvalError Context EnvId)) hentered

theorem rebind_keepResult (c : Context) (target : EnvId) (left : List EnvId) :
    (c.rebind f).keepResult target left = (c.keepResult target left).rebind f := by
  have hstash : (c.rebind f).stash = c.stash := rfl
  have hstore : (c.rebind f).memory.store = c.memory.store := rfl
  simp only [Context.keepResult, hstash, hstore]
  cases c.stash.peek?.bind Value.objectId? with
  | none => rfl
  | some id =>
    dsimp only
    cases c.memory.store.owner? id with
    | none => rfl
    | some owner =>
      dsimp only
      split
      · exact congrArg (fun m : Memory => { c with memory := m }) (c.memory.rebind_move id target).symm
      · rfl

theorem blind_keepResult (target : EnvId) (left : List EnvId) :
    Blind f k P (modify fun c => c.keepResult target left) := by
  refine .modify (fun c => rebind_keepResult c target left) fun c hc => ?_
  obtain ⟨m, hm, ha⟩ := c.keepResult_eq target left
  rw [hm]
  exact ⟨Nat.le_trans hc.1 (Nat.le_of_eq ha.nextEnv), hc.2⟩

theorem blind_callBuiltin (b : Builtin) (args : List Value) : Blind f k P (callBuiltin b args) := by
  simp only [callBuiltin]
  refine .get (fun c => rfl) fun c => (blind_ofExcept _).bind fun w => PassesBy.bind ?_ fun _ => blind_pushValue w
  exact .modify (fun _ => rfl) fun _ hc => hc

end Action

namespace Variant

open CseMachine.Action
open Control (Stable Whatever)

variable {f : Rebinding} {k : Nat} {P : Control → Prop} (hP : Stable P) (hf : f.Spares k)

section

include hP

theorem blind_pushAll {items : List Item} (hd : ∀ i ∈ items, i.isEnvDependent = false) :
    Blind f k P (pushControl (standard.pushAll · items)) := blind_pushControl fun _ hc => hP.pushAll hc hd

theorem blind_pushRestore (span : Span) : Blind f k P (standard.pushRestore span) := by
  refine .modify (fun c => ?_) fun c hc => ?_
  · have hcontrol : (c.rebind f).control = c.control := rfl
    simp only [hcontrol]
    by_cases hs : (standard.sparesRestores && (c.control.canAvoidRestore || c.control.peek?.any Item.isRestore)) = true
    · rw [if_pos hs, if_pos hs]
    · rw [if_neg hs, if_neg hs]
      rfl
  · split
    · exact hc
    · have hrestore : (Item.instr (.restore c.memory.current) span).isEnvDependent = false := rfl
      exact ⟨hc.1, hP.push hc.2 hrestore⟩

theorem blind_pushStatements {body : List Node} (hd : anyEnvDependent body = false) :
    Blind f k P (standard.pushStatements body) := by
  have hitems : ∀ i ∈ Node.statementItems body, i.isEnvDependent = false := by
    simpa using (Node.statementItems_dependent body).trans hd
  simp only [pushStatements]
  split
  · exact blind_pushValue .none
  · exact blind_pushAll hP hitems

/-- Where no name is declared, the statements alone are left to do. -/
theorem blind_body (env : EnvId) {declarations : List Declaration} {body : List Node}
    (hd : (!declarations.isEmpty || anyEnvDependent body) = false) :
    Blind f k P (declareAll env declarations >>= fun _ => standard.pushStatements body) := by
  obtain ⟨hnone, hbody⟩ := Bool.or_eq_false_iff.mp hd
  obtain rfl : declarations = [] := by simpa using hnone
  exact PassesBy.bind (.pure ()) fun _ => blind_pushStatements hP hbody

/-- An instruction other than a call. -/
theorem blind_execInstr {i : Instr} (span : Span) (hd : i.isEnvDependent = false) (hi : ∀ count, i ≠ .application count) :
    Blind f k P (standard.execInstr span i) := by
  cases i with
  | pop => exact blind_popValue.bind fun _ => .pure ()
  | assignment => cases hd
  | unary op => exact blind_popValue.bind fun w => (blind_ofExcept _).bind fun r => blind_pushValue r
  | binary op =>
    refine blind_popValue.bind fun y => blind_popValue.bind fun x => ?_
    exact blind_answer (r := fun c => x.binary c.memory.store op y) fun _ => rfl
  | application count => exact absurd rfl (hi count)
  | branch yes no =>
    obtain ⟨hyes, hno⟩ := Bool.or_eq_false_iff.mp hd
    refine blind_popValue.bind fun w => ?_
    cases w with
    | bool taken =>
      dsimp only
      cases hn : (if taken then some yes else no) with
      | none => exact blind_pushValue .none
      | some n =>
        have hchosen : n.isEnvDependent = false := by
          cases taken with
          | true => exact Option.some.inj hn ▸ hyes
          | false =>
            obtain rfl : no = some n := hn
            exact hno
        exact blind_pushControl fun _ hc => hP.push hc hchosen
    | _ => exact blind_raise _
  | restore target => exact (blind_onMemory (Memory.blind_restore target)).bind fun left => blind_keepResult target left
  | marker => exact .pure ()
  | reset => exact blind_pushControl fun _ hc => hP.unwind hc
  | list count =>
    refine (blind_popValues count _).bind fun items => (blind_onMemory (Memory.blind_alloc _)).bind fun id => ?_
    exact blind_pushValue (.list id)
  | subscript =>
    refine blind_popValue.bind fun y => blind_popValue.bind fun x => ?_
    exact blind_answer (r := fun c => x.subscript c.memory.store y) fun _ => rfl

include hf

/-- A node that makes no name and no closure and looks up no name. -/
theorem blind_evalSelf (skip : Bool) {n : Node} (hd : n.isEnvDependent = false) (hp : n.parts? = none) :
    Blind f k P (standard.evalSelf skip n) := by
  cases n with
  | program span declarations body =>
    refine .get (fun c => rfl) fun c => (blind_enter hf _ fun _ => rfl).bind fun env => PassesBy.bind ?_ fun _ => ?_
    · exact .modify (fun _ => rfl) fun _ hc => hc
    · exact blind_body hP env hd
  | block span declarations body =>
    cases skip with
    | true => exact .get (fun c => rfl) fun c => PassesBy.bind (.pure c.memory.current) fun env => blind_body hP env hd
    | false =>
      rw [evalSelf_block]
      refine (blind_pushRestore hP span).bind fun _ => (blind_enter hf _ fun _ => rfl).bind fun env => ?_
      exact blind_body hP env hd
  | sequence span body =>
    cases body with
    | nil => exact blind_pushValue .none
    | cons => cases hp
  | ret span value =>
    cases value with
    | none => exact (blind_pushControl fun _ hc => hP.push hc rfl).bind fun _ => blind_pushValue .none
    | some e => cases hp
  | literal span l => exact blind_pushValue _
  | pass span => exact blind_pushValue .none
  | define | lambda | identifier => cases hd
  | _ => cases hp

theorem blind_evalNode (skip : Bool) {n : Node} (hd : n.isEnvDependent = false) :
    Blind f k P (standard.evalNode skip n) := by
  simp only [evalNode]
  cases hp : n.parts? with
  | some items =>
    have hitems : ∀ i ∈ items, i.isEnvDependent = false := by simpa using (Node.parts_dependent hp).trans hd
    exact blind_pushAll hP hitems
  | none => exact blind_evalSelf hP hf skip hd hp

end

/-! Calls, which may enter a frame -/

theorem blind_leaveCaller (span : Span) : Blind f k Whatever (standard.leaveCaller span) := by
  simp only [leaveCaller]
  refine .get (fun c => rfl) fun c => ?_
  split
  · refine .modify (fun c => ?_) fun c hc => ?_
    · have hpop : (c.rebind f).memory.pop? = _ := c.memory.rebind_pop?
      rw [hpop]
      cases c.memory.pop? <;> rfl
    · cases hp : c.memory.pop? with
      | none => exact hc
      | some left =>
        obtain ⟨hm, -⟩ := Memory.pop?_eq_some hp
        dsimp only
        rw [hm]
        exact hc
  · exact blind_pushRestore Control.stable_whatever span

include hf

/-- The frame that a call enters is new, so that filling it rebinds nothing. -/
theorem blind_callClosure (id : ObjId) (args : List Value) (span : Span) :
    Blind f k Whatever (standard.callClosure id args span) := by
  simp only [callClosure]
  refine .get (fun c => rfl) fun c => ?_
  split
  · exact blind_raise _
  · next closure _ =>
    split
    · exact blind_raise _
    · refine (blind_ofExcept _).bind fun _ => (blind_leaveCaller span).bind fun _ => ?_
      refine (blind_onMemory (Memory.blind_createFrame hf closure args span)).bind fun env => PassesBy.bind ?_ fun _ => ?_
      · exact .modify (fun _ => rfl) fun _ hc => hc
      · exact blind_pushControl fun _ _ => trivial

theorem blind_apply (count : Nat) (span : Span) : Blind f k Whatever (standard.apply count span) := by
  refine (blind_popValues count _).bind fun args => blind_popValue.bind fun w => ?_
  cases w with
  | builtin b => exact blind_callBuiltin b args
  | closure id => exact blind_callClosure hf id args span
  | _ => exact blind_raise _

/-- An item that does not depend on the environment goes by every rebinding of the frames that are there. -/
theorem blind_execute {item : Item} (hd : item.isEnvDependent = false) :
    Blind f k Whatever (Action.execute item) := by
  rw [← execute_standard]
  cases item with
  | node n skip => exact blind_evalNode Control.stable_whatever hf skip hd
  | instr i span =>
    by_cases hi : ∃ count, i = .application count
    · obtain ⟨count, rfl⟩ := hi
      exact blind_apply hf count span
    · exact blind_execInstr Control.stable_whatever span hd fun count hc => hi ⟨count, hc⟩

end Variant

/-! What such an item leaves -/

namespace Item

variable {item : Item} {m : Memory} {env : EnvId}

theorem Rebinds.eq_of_independent {b b' : List (String × Slot)} (h : item.Rebinds m env b b') (hd : item.isEnvDependent = false) :
    b' = b := by
  cases h with
  | declared | assigned => cases hd
  | @added span declarations made body _ among =>
    obtain ⟨hnone, -⟩ := Bool.or_eq_false_iff.mp hd
    obtain rfl : declarations = [] := by simpa using hnone
    obtain rfl := List.subset_nil.mp among
    exact List.append_nil b

/-- Only a node that depends on the environment has a function. -/
theorem Makes.not_closure {closure : Closure} (hd : item.isEnvDependent = false) : ¬item.Makes (.closure closure) := by
  intro hm
  cases item with
  | instr i span => exact hm
  | node n skip =>
    obtain ⟨hf, -⟩ := hm
    cases n with
    | define | lambda => cases hd
    | _ => cases hf

end Item

namespace Memory

variable {m m' m'' : Memory}

/-- No frame that was there has got other bindings, and no closure is new. -/
structure Untouched (m m' : Memory) : Prop extends Keeps (fun _ b b' => b' = b) m m' where
  closure : ∀ {id}, (m'.store.closure? id).isSome → (m.store.closure? id).isSome

namespace Untouched

theorem refl (m : Memory) : m.Untouched m := ⟨.refl m, id⟩

theorem trans (h : m.Untouched m') (h' : m'.Untouched m'') : m.Untouched m'' :=
  ⟨h.toKeeps.trans (fun hb hb' => hb'.trans hb) h'.toKeeps, fun hc => h.closure (h'.closure hc)⟩

theorem survives (h : m.Untouched m') (hs : m'.Survives m'') : m.Untouched m'' := by
  refine ⟨h.toKeeps.survives hs, fun hc => h.closure ?_⟩
  obtain ⟨closure, hc⟩ := Option.isSome_iff_exists.mp hc
  exact Option.isSome_iff_exists.mpr ⟨closure, hs.closure? hc⟩

end Untouched

/-- One more deed makes a closure only if the item does. -/
theorem closure_of_deed {F : EnvId → Environment → Environment → Prop} {M : Content → Prop}
    (hM : ∀ closure, ¬M (.closure closure)) (hd : Deed F M m m') {id : ObjId}
    (hc : (m'.store.closure? id).isSome) : (m.store.closure? id).isSome := by
  obtain ⟨closure, hc⟩ := Option.isSome_iff_exists.mp hc
  cases hd with
  | object env made =>
    obtain ⟨owner, ho⟩ := Store.closure?_eq_some.mp hc
    rcases get?_of_stored ho with ⟨-, ho⟩ | ho
    · cases ho
      exact absurd made (hM closure)
    · exact Option.isSome_iff_exists.mpr ⟨closure, Store.closure?_eq_some.mpr ⟨owner, ho⟩⟩
  | name id name =>
    rw [Store.closure?_nameClosure] at hc
    split at hc
    · obtain ⟨before, hbefore, -⟩ := Option.map_eq_some_iff.mp hc
      exact Option.isSome_iff_exists.mpr ⟨before, hbefore⟩
    · exact Option.isSome_iff_exists.mpr ⟨closure, hc⟩
  | frame | create | count => exact Option.isSome_iff_exists.mpr ⟨closure, hc⟩

end Memory

namespace Context

open Control (Calm stable_calm)

variable {c d : Context} {item : Item}

theorem closure_of_deeds {m : Memory} (hi : item.isEnvDependent = false) (hd : ReflTransGen (Deed m item) c d) {id : ObjId}
    (hc : (d.memory.store.closure? id).isSome) : (c.memory.store.closure? id).isSome := by
  induction hd with
  | refl => exact hc
  | tail _ hd ih =>
    refine ih ?_
    cases hd with
    | memory deed => exact Memory.closure_of_deed (fun _ => Item.Makes.not_closure hi) deed hc
    | _ => exact hc

/-- Whether it fails or not, such an item writes no binding and makes no closure. -/
theorem WellFormed.untouched_execute (h : c.WellFormed) (hi : item.isEnvDependent = false) : match Action.execute item c with
    | .ok _ d => c.memory.Untouched d.memory
    | .error _ d => c.memory.Untouched d.memory := by
  have hclosures : match Action.execute item c with
      | .ok _ d => ∀ {id}, (d.memory.store.closure? id).isSome → (c.memory.store.closure? id).isSome
      | .error _ d => ∀ {id}, (d.memory.store.closure? id).isSome → (c.memory.store.closure? id).isSome := by
    refine of_execute (P := fun d => ∀ {id}, (d.memory.store.closure? id).isSome → (c.memory.store.closure? id).isSome)
      (E := fun _ d => ∀ {id}, (d.memory.store.closure? id).isSome → (c.memory.store.closure? id).isSome) h.stash item
      (fun hd => ?_) (fun hs => ?_) fun _ hd => hd
    · exact closure_of_deeds hi hd
    · exact ((Memory.Untouched.refl c.memory).survives hs).closure
  have hkeeps := h.keeps_execute item
  split
  · next hx =>
    rw [hx] at hkeeps hclosures
    exact ⟨hkeeps.mono fun hb => hb.eq_of_independent hi, hclosures⟩
  · next hx =>
    rw [hx] at hkeeps hclosures
    exact ⟨hkeeps.mono fun hb => hb.eq_of_independent hi, hclosures⟩

theorem WellFormed.untouched_advance (h : c.WellFormed) (hi : item.isEnvDependent = false) (ha : c.advance? = some (item, d)) :
    c.memory.Untouched d.memory := by
  refine of_advance? (P := fun d => c.memory.Untouched d.memory) (E := fun _ d => c.memory.Untouched d.memory) ha
    (fun rest hp => (h.taken hp).untouched_execute hi) (fun {e} he => ?_) fun he => he
  exact he.survives e.survives_collectGarbage

/-- The item calls a closure: below the arguments lies one. -/
def CallsClosure (c : Context) : Item → Prop
  | .instr (.application count) _ => ∃ id, c.stash.items[count]? = some (.closure id)
  | _ => False

/-- A call that succeeds and enters no frame leaves Control as it is, since a builtin was called. -/
theorem calm_apply {below : List Item} {count : Nat} {span : Span} (hc : Calm below c.control)
    (hn : ¬c.CallsClosure (.instr (.application count) span)) (hx : Variant.standard.apply count span c = .ok () d) :
    Calm below d.control := by
  obtain ⟨args, c₁, hargs, hx⟩ := of_bind_ok hx
  obtain ⟨w, c₂, hw, hx⟩ := of_bind_ok hx
  have htop : c₁.control = c.control ∧ c₁.stash.items = c.stash.items.drop count := by
    simp only [Action.popValues, Stack.popN?] at hargs
    split at hargs
    · next hp =>
      split at hp <;> cases hp
      cases hargs
      exact ⟨rfl, rfl⟩
    · cases hargs
  have hcalled : c₂.control = c₁.control ∧ c₁.stash.items.head? = some w := by
    simp only [Action.popValue, Stack.pop?] at hw
    cases hs : c₁.stash.items with
    | nil => rw [hs] at hw; cases hw
    | cons top rest =>
      rw [hs] at hw
      cases hw
      exact ⟨rfl, rfl⟩
  have hcontrol : Calm below c₂.control := hcalled.1 ▸ htop.1 ▸ hc
  cases w with
  | builtin b =>
    have hkept := (Action.blind_callBuiltin (f := fun _ bindings => bindings) (k := 0) b args c₂ ⟨Nat.zero_le _, hcontrol⟩).2
    dsimp only at hx
    rw [hx] at hkept
    exact hkept.2
  | closure id =>
    refine absurd ⟨id, ?_⟩ hn
    rw [← List.head?_drop, ← htop.2]
    exact hcalled.2
  | _ => cases hx

/-- An item that enters no frame leaves nothing above that depends on the environment. -/
theorem calm_execute {below : List Item} (hc : Calm below c.control) (hd : item.isEnvDependent = false)
    (hn : ¬c.CallsClosure item) (hx : Action.execute item c = .ok () d) : Calm below d.control := by
  -- any rebinding will do, since what is left on Control is all that is looked at
  have hf : Rebinding.Spares (fun _ bindings => bindings) 0 := fun _ _ _ => rfl
  have hstart : c.memory.Counts 0 ∧ Calm below c.control := ⟨Nat.zero_le _, hc⟩
  rw [← Variant.execute_standard] at hx
  have hblind : ∀ {a : Action Unit}, Action.Blind (fun _ bindings => bindings) 0 (Calm below) a → a c = .ok () d →
      Calm below d.control := by
    intro a ha hax
    have hkept := (ha c hstart).2
    rw [hax] at hkept
    exact hkept.2
  cases item with
  | node n skip => exact hblind (Variant.blind_evalNode (stable_calm below) hf skip hd) hx
  | instr i span =>
    by_cases hi : ∃ count, i = .application count
    · obtain ⟨count, rfl⟩ := hi
      exact calm_apply hc hn hx
    · exact hblind (Variant.blind_execInstr (stable_calm below) span hd fun count hi' => hi ⟨count, hi'⟩) hx

end Context
end CseMachine
