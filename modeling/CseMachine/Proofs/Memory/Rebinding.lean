import CseMachine.Proofs.Memory.Operations
import CseMachine.Proofs.Results

/-!
# Operations that look at no binding

A rebinding gives frames other bindings. An operation that reads no binding does the
same with the rebound memory, and one that writes none leaves the memory rebound; if
this is so for every rebinding, it can have done neither. Environments that the
operation makes are not among those rebound.
-/
namespace CseMachine

/-- The bindings that an environment is to have, by those that it has. -/
abbrev Rebinding := EnvId → List (String × Slot) → List (String × Slot)

/-- Environments from this number on keep their bindings. -/
def Rebinding.Spares (f : Rebinding) (n : Nat) : Prop :=
  ∀ id bindings, n ≤ id.index → f id bindings = bindings

/-! Computations and maps of the states -/

section

variable {σ α β : Type}

/-- The same result, from a state that was mapped. -/
def onState (g : σ → σ) : EStateM.Result EvalError σ α → EStateM.Result EvalError σ α
  | .ok a s => .ok a (g s)
  | .error e s => .error e (g s)

/-- From a mapped state the computation does the same and leaves the mapped state, and it keeps `P`. -/
def PassesBy (g : σ → σ) (P : σ → Prop) (x : EStateM EvalError σ α) : Prop :=
  ∀ s, P s → x (g s) = onState g (x s) ∧ match x s with
    | .ok _ t => P t
    | .error _ t => P t

namespace PassesBy

variable {g : σ → σ} {P : σ → Prop} {x : EStateM EvalError σ α} {k : α → EStateM EvalError σ β}

theorem pure (a : α) : PassesBy g P (pure a : EStateM EvalError σ α) := fun _ hp => ⟨rfl, hp⟩

theorem throw (e : EvalError) : PassesBy g P (throw e : EStateM EvalError σ α) := fun _ hp => ⟨rfl, hp⟩

theorem bind (hx : PassesBy g P x) (hk : ∀ a, PassesBy g P (k a)) : PassesBy g P (x >>= k) := by
  intro s hp
  obtain ⟨hg, hkept⟩ := hx s hp
  cases hxs : x s with
  | error e t =>
    rw [hxs] at hg hkept
    rw [bind_of_error hxs, bind_of_error hg]
    exact ⟨rfl, hkept⟩
  | ok a t =>
    rw [hxs] at hg hkept
    rw [bind_of_ok hxs, bind_of_ok hg]
    exact hk a t hkept

/-- The state itself is looked at, but not what the map changes of it. -/
theorem get {k : σ → EStateM EvalError σ β} (hk : ∀ s, k (g s) = k s) (h : ∀ s, PassesBy g P (k s)) :
    PassesBy g P ((MonadState.get : EStateM EvalError σ σ) >>= k) := by
  intro s hp
  have hs : ((MonadState.get : EStateM EvalError σ σ) >>= k) (g s) = k s (g s) := congrFun (hk s) (g s)
  rw [hs]
  exact h s s hp

theorem modify {h : σ → σ} (hg : ∀ s, h (g s) = g (h s)) (hp : ∀ s, P s → P (h s)) :
    PassesBy g P (modify h : EStateM EvalError σ Unit) :=
  fun s hs => ⟨congrArg (EStateM.Result.ok ()) (hg s), hp s hs⟩

end PassesBy

end

namespace Environment

def rebind (f : List (String × Slot) → List (String × Slot)) (e : Environment) : Environment :=
  { e with bindings := f e.bindings }

theorem rebind_eq_self {f : List (String × Slot) → List (String × Slot)} {e : Environment}
    (h : f e.bindings = e.bindings) : e.rebind f = e := by
  simp only [rebind, h]

end Environment

namespace Memory

variable {f : Rebinding} {n : Nat} {env : EnvId}

/-- All frames rebound. -/
def rebind (f : Rebinding) (m : Memory) : Memory :=
  { m with environments := m.environments.map fun id e => e.rebind (f id) }

@[simp] theorem environment?_rebind (m : Memory) (id : EnvId) :
    (m.rebind f).environment? id = (m.environment? id).map (·.rebind (f id)) := Std.ExtTreeMap.getElem?_map

theorem rebind_setEnvironment (m : Memory) (id : EnvId) (e : Environment) :
    (m.setEnvironment id e).rebind f = (m.rebind f).setEnvironment id (e.rebind (f id)) := by
  simp only [setEnvironment, rebind]
  congr 1
  refine Std.ExtTreeMap.ext_getElem? fun k => ?_
  simp only [Std.ExtTreeMap.getElem?_map, Std.ExtTreeMap.getElem?_insert, Std.LawfulEqOrd.compare_eq_iff_eq]
  split
  · next hk => rw [hk, Option.map_some]
  · rfl

/-- A new environment is bound to nothing, which a rebinding that spares it leaves so. -/
theorem rebind_create (m : Memory) (name : String) (tail : Option EnvId) (hf : f ⟨m.nextEnv⟩ [] = []) :
    (m.create name tail).2.rebind f = ((m.rebind f).create name tail).2 := by
  have hnew : ({ name, tail } : Environment).rebind (f ⟨m.nextEnv⟩) = { name, tail } := Environment.rebind_eq_self hf
  have hset := rebind_setEnvironment (f := f) m ⟨m.nextEnv⟩ { name, tail }
  rw [hnew] at hset
  have henvs := congrArg Memory.environments hset
  simp only [create]
  exact congrArg (fun environments : Std.ExtTreeMap EnvId Environment => { (m.create name tail).2 with environments }) henvs

theorem rebind_withCallSite (m : Memory) (env : EnvId) (callSite : Span) :
    (m.withCallSite env callSite).rebind f = (m.rebind f).withCallSite env callSite := by
  simp only [withCallSite, rebind]
  congr 1
  refine Std.ExtTreeMap.ext_getElem? fun k => ?_
  simp only [Std.ExtTreeMap.getElem?_map, Std.ExtTreeMap.getElem?_modify, Std.LawfulEqOrd.compare_eq_iff_eq]
  split
  · next hk =>
    subst hk
    simp only [Option.map_map]
    rfl
  · rfl

/-- The memory has as many environments already. -/
abbrev Counts (n : Nat) (m : Memory) : Prop := n ≤ m.nextEnv

/-- The operation goes by the bindings of the environments that were there before it. -/
abbrev Blind {α : Type} (f : Rebinding) (n : Nat) (op : Op α) : Prop := PassesBy (rebind f) (Counts n) op

theorem blind_declare (name : String) (constant : Bool) (hf : ∀ bindings, f env bindings = bindings) :
    Blind f n (declare env name constant) := by
  intro m hn
  simp only [declare, environment?_rebind]
  cases m.environment? env with
  | none => exact ⟨rfl, hn⟩
  | some e =>
    rw [Option.map_some, Environment.rebind_eq_self (hf _)]
    dsimp only
    cases e.declare? name constant with
    | none => exact ⟨rfl, hn⟩
    | some e' =>
      refine ⟨congrArg (EStateM.Result.ok ()) ?_, hn⟩
      rw [rebind_setEnvironment, Environment.rebind_eq_self (hf _)]

theorem blind_define (name : String) (w : Value) (constant : Bool) (hf : ∀ bindings, f env bindings = bindings) :
    Blind f n (define env name w constant) := by
  intro m hn
  simp only [define, environment?_rebind]
  cases m.environment? env with
  | none => exact ⟨rfl, hn⟩
  | some e =>
    rw [Option.map_some, Environment.rebind_eq_self (hf _)]
    dsimp only
    cases e.define? name w constant with
    | none => exact ⟨rfl, hn⟩
    | some e' =>
      refine ⟨congrArg (EStateM.Result.ok ()) ?_, hn⟩
      rw [rebind_setEnvironment, Environment.rebind_eq_self (hf _)]

/-- Making an object changes the heap of its owner only. -/
theorem blind_allocIn (env : EnvId) (content : Content) : Blind f n (allocIn env content) := by
  intro m hn
  rw [allocIn_eq, allocIn_eq, environment?_rebind]
  cases m.environment? env with
  | none => exact ⟨rfl, hn⟩
  | some e =>
    have howned := rebind_setEnvironment (f := f) (m.stored env content) env { e with heap := e.heap.insert ⟨m.store.next⟩ }
    refine ⟨congrArg (EStateM.Result.ok (⟨m.store.next⟩ : ObjId)) ?_, hn⟩
    exact congrArg (fun m' : Memory => { m' with allocated := m.allocated + 1 }) howned.symm

theorem blind_alloc (content : Content) : Blind f n (alloc content) :=
  fun m hn => blind_allocIn m.current content m hn

theorem blind_restore (target : EnvId) : Blind f n (restore target) := by
  intro m hn
  have hactive : (m.rebind f).active = m.active := rfl
  simp only [restore, hactive]
  split <;> exact ⟨rfl, hn⟩

theorem rebind_pop? (m : Memory) : (m.rebind f).pop? = m.pop?.map fun (env, m') => (env, m'.rebind f) := by
  have hactive : (m.rebind f).active = m.active := rfl
  simp only [pop?, hactive]
  split <;> rfl

/-- Owners and heaps change, no binding does. -/
theorem rebind_move? (m : Memory) (id : ObjId) (target : EnvId) :
    (m.rebind f).move? id target = (m.move? id target).map (rebind f) := by
  have howner : (m.rebind f).store = m.store := rfl
  simp only [move?, howner, environment?_rebind]
  cases m.store.owner? id with
  | none => rfl
  | some owner =>
    dsimp only [Option.bind_eq_bind, Option.bind_some]
    split
    · rfl
    · cases m.environment? target with
      | none => rfl
      | some taker =>
        cases m.environment? owner with
        | none => rfl
        | some giver =>
          dsimp only [Option.map_some, Option.bind_some, Environment.rebind]
          cases giver.heap.moveTo? id taker.heap with
          | none => rfl
          | some heaps =>
            have hgiven := rebind_setEnvironment (f := f) m owner { giver with heap := heaps.1 }
            have htaken := rebind_setEnvironment (f := f) (m.setEnvironment owner { giver with heap := heaps.1 }) target
              { taker with heap := heaps.2 }
            rw [hgiven] at htaken
            exact congrArg (fun m' : Memory => some { m' with store := m'.store.setOwner id target }) htaken.symm

theorem rebind_move (m : Memory) (id : ObjId) (target : EnvId) :
    (m.move id target).rebind f = (m.rebind f).move id target := by
  simp only [move, rebind_move?]
  cases m.move? id target <;> rfl

/-! The frame of a call is new -/

section

variable (hf : ∀ bindings, f env bindings = bindings)
include hf

theorem blind_bindParams (ps : List Param) (args : List Value) : Blind f n (bindParams env ps args) := by
  induction ps generalizing args with
  | nil => exact .pure ()
  | cons p ps ih =>
    cases args with
    | nil => exact .pure ()
    | cons w args =>
      exact (blind_declare p.name false hf).bind fun _ => (blind_define p.name w false hf).bind fun _ => ih args

theorem blind_bindRest (rest : Option Param) (extra : List Value) : Blind f n (bindRest env rest extra) := by
  cases rest with
  | none => exact .pure ()
  | some p =>
    refine (blind_allocIn env _).bind fun id => (blind_declare p.name false hf).bind fun _ => ?_
    exact blind_define p.name (.list id) false hf

end

theorem blind_createFrame (hf : f.Spares n) (c : Closure) (args : List Value) (callSite : Span) :
    Blind f n (createFrame c args callSite) := by
  intro m hn
  have hnew : ∀ bindings, f ⟨m.nextEnv⟩ bindings = bindings := fun bindings => hf _ bindings hn
  have hmarked : (m.rebind f).create c.displayName (some c.env) |>.2.withCallSite ⟨m.nextEnv⟩ callSite =
      ((m.create c.displayName (some c.env)).2.withCallSite ⟨m.nextEnv⟩ callSite).rebind f := by
    rw [rebind_withCallSite, rebind_create _ _ _ (hnew [])]
  have hfilled := (blind_bindParams (n := n) hnew c.func.required args).bind fun _ =>
    (blind_bindRest hnew c.func.rest? (args.drop c.func.required.length)).bind fun _ => .pure (⟨m.nextEnv⟩ : EnvId)
  rw [createFrame_eq, createFrame_eq]
  have hnext : (m.rebind f).nextEnv = m.nextEnv := rfl
  rw [hnext, hmarked]
  exact hfilled _ (Nat.le_succ_of_le hn)

end Memory
end CseMachine
