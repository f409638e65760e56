import CseMachine.Proofs.Memory.Survivors

/-!
# Refused requests

A request that names what is not there is refused. All but one kind of them then leave the
memory as it was: a new object is stored before its owner is looked for, and stays behind
without one. An object also loses its owner where a collection would give it to an
environment that is not there. There is no other way: whatever is done to a memory, in
whatever order and with whatever ids, every other object is in the heap of its owner.
-/
namespace CseMachine

namespace Memory

open Relation (ReflTransGen)

variable {m m' : Memory} {lost : Set ObjId} {env : EnvId} {e e' : Environment}

/-! ## Requests -/

/-- What a memory may refuse to do. -/
inductive Request where
  | declare (env : EnvId) (name : String) (constant : Bool)
  | define (env : EnvId) (name : String) (value : Value) (constant : Bool)
  | assign (name : String) (value : Value)
  | alloc (content : Content)
  | allocIn (env : EnvId) (content : Content)
  | move (id : ObjId) (target : EnvId)
  | restore (target : EnvId)

/-- Whether an operation was carried out, and the memory that it leaves. -/
def outcome {α : Type} : EStateM.Result EvalError Memory α → Bool × Memory
  | .ok _ m => (true, m)
  | .error _ m => (false, m)

namespace Request

def run (m : Memory) : Request → Bool × Memory
  | declare env name constant => outcome (Memory.declare env name constant m)
  | define env name value constant => outcome (Memory.define env name value constant m)
  | assign name value => outcome (Memory.assign name value m)
  | alloc content => outcome (Memory.alloc content m)
  | allocIn env content => outcome (Memory.allocIn env content m)
  | move id target => ((m.move? id target).isSome, m.move id target)
  | restore target => outcome (Memory.restore target m)

/-- The object that is asked for, with its owner. -/
def object? (m : Memory) : Request → Option (EnvId × Content)
  | alloc content => some (m.current, content)
  | allocIn env content => some (env, content)
  | _ => none

end Request

/-- An operation on names is refused or changes one frame, whose heap stays as it is. -/
inductive Reframes (m : Memory) : EStateM.Result EvalError Memory Unit → Prop
  | refused (e : EvalError) : Reframes m (.error e m)
  | frame {env : EnvId} {e e' : Environment} (found : m.environment? env = some e) (heap : e'.heap = e.heap) :
      Reframes m (.ok () (m.setEnvironment env e'))

theorem reframes_declare (m : Memory) (env : EnvId) (name : String) (constant : Bool) :
    m.Reframes (declare env name constant m) := by
  simp only [declare]
  split
  · exact .refused _
  · next e he =>
    cases hl : e.lookup? name with
    | some slot =>
      simp only [Environment.declare?, hl, Option.isSome_some, if_true]
      exact .refused _
    | none =>
      rw [Environment.declare?_eq hl]
      exact .frame he rfl

theorem reframes_define (m : Memory) (env : EnvId) (name : String) (w : Value) (constant : Bool) :
    m.Reframes (define env name w constant m) := by
  simp only [define]
  split
  · exact .refused _
  · next e he =>
    split
    · next e' hd =>
      obtain rfl := Environment.eq_setSlot_of_define? hd
      exact .frame he rfl
    · exact .refused _

theorem reframes_assign (m : Memory) (name : String) (w : Value) : m.Reframes (assign name w m) := by
  simp only [assign]
  split
  · next env e slot hr =>
    split
    · exact .refused _
    · exact .frame (resolveFrom_found hr).1 rfl
  · exact .refused _
  · exact .refused _

theorem Reframes.refused_eq {x : EStateM.Result EvalError Memory Unit} (h : m.Reframes x) (hr : (outcome x).1 = false) :
    (outcome x).2 = m := by
  cases h with
  | refused e => rfl
  | frame found heap => cases hr

/-- A new object is refused just if its owner is not there, and is left in the store. -/
theorem refused_allocIn (m : Memory) (env : EnvId) (content : Content) :
    ((outcome (allocIn env content m)).1 = false ↔ ¬m.Present env) ∧
      ((outcome (allocIn env content m)).1 = false → (outcome (allocIn env content m)).2 = m.stored env content) := by
  rw [allocIn_eq, Present]
  cases m.environment? env with
  | none => exact ⟨iff_of_true rfl Bool.false_ne_true, fun _ => rfl⟩
  | some e =>
    have hok : true ≠ false := Bool.false_ne_true.symm
    exact ⟨iff_of_false hok (not_not_intro rfl), fun h => absurd h hok⟩

theorem move_of_refused {id : ObjId} {target : EnvId} (h : (m.move? id target).isSome = false) : m.move id target = m := by
  rw [move, Option.isNone_iff_eq_none.mp (Option.isSome_eq_false_iff.mp h)]
  rfl

theorem refused_restore {target : EnvId} (h : (outcome (restore target m)).1 = false) : (outcome (restore target m)).2 = m := by
  simp only [restore] at h ⊢
  split
  · next ha =>
    rw [if_pos ha] at h
    cases h
  · rfl

/-- A refused request that is not for an object leaves the memory as it was. -/
theorem Request.refused_eq {r : Request} (ho : r.object? m = none) (h : (r.run m).1 = false) : (r.run m).2 = m := by
  cases r with
  | declare env name constant => exact (reframes_declare m env name constant).refused_eq h
  | define env name w constant => exact (reframes_define m env name w constant).refused_eq h
  | assign name w => exact (reframes_assign m name w).refused_eq h
  | alloc content => cases ho
  | allocIn env content => cases ho
  | move id target => exact move_of_refused h
  | restore target => exact refused_restore h

theorem Request.refused_object {r : Request} {content : Content} (ho : r.object? m = some (env, content)) :
    ((r.run m).1 = false ↔ ¬m.Present env) ∧ ((r.run m).1 = false → (r.run m).2 = m.stored env content) := by
  cases r with
  | alloc content =>
    cases ho
    exact refused_allocIn m m.current content
  | allocIn env content =>
    cases ho
    exact refused_allocIn m env content
  | _ => cases ho

/-! ## Objects and their owners -/

/-- Every object but the lost ones is in the heap of its owner, and what is made next is new. -/
structure Accounted (lost : Set ObjId) (m : Memory) : Prop extends OwnedBut lost m where
  envIds : ∀ id, m.Present id → id.index < m.nextEnv
  objectIds : ∀ id o, m.store.get? id = some o → id.index < m.store.next
  lostIds : ∀ id ∈ lost, id.index < m.store.next

namespace Accounted

theorem initial : Accounted ∅ initial :=
  ⟨initial_wellFormed.but, initial_wellFormed.envIds, initial_wellFormed.objectIds, nofun⟩

variable (h : m.Accounted lost)
include h

theorem fresh_env : ¬m.Present ⟨m.nextEnv⟩ := fun hp => Nat.lt_irrefl _ (h.envIds _ hp)

theorem fresh_object : m.store.get? ⟨m.store.next⟩ = none := by
  by_contra hn
  obtain ⟨o, ho⟩ := Option.ne_none_iff_exists'.mp hn
  exact Nat.lt_irrefl _ (h.objectIds _ o ho)

theorem setFrame (he : m.environment? env = some e) (hh : e'.heap = e.heap) : (m.setEnvironment env e').Accounted lost :=
  ⟨h.toOwnedBut.setFrame he hh, fun id hi => h.envIds id ((present_setEnvironment he).mp hi), h.objectIds, h.lostIds⟩

theorem create (name : String) (tail : Option EnvId) : (m.create name tail).2.Accounted lost := by
  refine ⟨h.toOwnedBut.create h.fresh_env name tail, fun id hi => ?_, h.objectIds, h.lostIds⟩
  rcases present_create.mp hi with rfl | hi
  · exact Nat.lt_succ_self _
  · exact Nat.lt_succ_of_lt (h.envIds id hi)

theorem objectIds_stored {content : Content} (id : ObjId) (o : Object)
    (ho : (m.stored env content).store.get? id = some o) : id.index < m.store.next + 1 := by
  rcases get?_of_stored ho with ⟨rfl, -⟩ | ho
  · exact Nat.lt_succ_self _
  · exact Nat.lt_succ_of_lt (h.objectIds id o ho)

/-- An object that is stored and put in no heap is lost. -/
theorem stored (env : EnvId) (content : Content) : (m.stored env content).Accounted (insert ⟨m.store.next⟩ lost) := by
  refine ⟨h.toOwnedBut.stored h.fresh_object env content, h.envIds, h.objectIds_stored, fun id hi => ?_⟩
  rcases hi with rfl | hi
  · exact Nat.lt_succ_self _
  · exact Nat.lt_succ_of_lt (h.lostIds id hi)

theorem withObject (he : m.environment? env = some e) (content : Content) : (m.withObject env e content).Accounted lost := by
  have hnew : (⟨m.store.next⟩ : ObjId) ∉ lost := fun hl => Nat.lt_irrefl _ (h.lostIds _ hl)
  refine ⟨h.toOwnedBut.withObject h.fresh_object hnew he content, fun id hi => ?_, h.objectIds_stored, fun id hi => ?_⟩
  · exact h.envIds id ((@present_setEnvironment (m.stored env content) env id e _ he).mp hi)
  · exact Nat.lt_succ_of_lt (h.lostIds id hi)

theorem withName (id : ObjId) (name : String) : ({ m with store := m.store.nameClosure id name } : Memory).Accounted lost := by
  refine ⟨h.toOwnedBut.withName id name, h.envIds, fun k o ho => ?_, h.lostIds⟩
  obtain ⟨o', ho', -⟩ := get?_of_nameClosure ho
  exact h.objectIds k o' ho'

/-- Whichever environments are active. -/
theorem withActive (active : List EnvId) : ({ m with active } : Memory).Accounted lost :=
  ⟨⟨h.owner, h.listed⟩, h.envIds, h.objectIds, h.lostIds⟩

/-- What is there after the change was there before, and no id is used again. -/
theorem of_survives (hs : m.Survives m') {lost' : Set ObjId} (ho : m'.OwnedBut lost')
    (hl : ∀ id ∈ lost', id ∈ lost ∨ (m.store.get? id).isSome) : m'.Accounted lost' where
  toOwnedBut := ho
  envIds := by
    intro id hi
    obtain ⟨e', he'⟩ := Option.isSome_iff_exists.mp hi
    obtain ⟨e, he, -⟩ := hs.frame he'
    exact hs.nextEnv ▸ h.envIds id (Option.isSome_iff_exists.mpr ⟨e, he⟩)
  objectIds := by
    intro id o' ho'
    obtain ⟨o, ho, -⟩ := hs.object ho'
    exact hs.nextObject ▸ h.objectIds id o ho
  lostIds := by
    intro id hi
    rcases hl id hi with hi | hi
    · exact hs.nextObject ▸ h.lostIds id hi
    · obtain ⟨o, ho⟩ := Option.isSome_iff_exists.mp hi
      exact hs.nextObject ▸ h.objectIds id o ho

theorem move (id : ObjId) (target : EnvId) : (m.move id target).Accounted lost :=
  h.of_survives (.of_agreeOn_all (agreeOn_move m id target)) (h.toOwnedBut.move id target) fun _ hi => .inl hi

/-- Objects without an heir are lost by a collection. -/
theorem collect (envs : List EnvId) (objects : List ObjId) :
    (m.collect envs objects).2.Accounted (lost ∪ m.heirless envs objects) := by
  refine h.of_survives (.collect m envs objects) h.toOwnedBut.collect fun id hi => hi.imp_right ?_
  rintro ⟨-, env, hheir, -⟩
  obtain ⟨owner, ho, -⟩ := Option.map_eq_some_iff.mp hheir
  obtain ⟨o, hget, -⟩ := owner?_eq_some.mp ho
  exact Option.isSome_iff_exists.mpr ⟨o, hget⟩

end Accounted

/-! ## Frames of calls -/

/-- If the environment was there before, it is there afterwards, and the objects are accounted for if they were. -/
def Sustains (lost : Set ObjId) (env : EnvId) (m m' : Memory) : Prop :=
  m.Accounted lost ∧ m.Present env → m'.Accounted lost ∧ m'.Present env

theorem Reframes.sustains {x : EStateM.Result EvalError Memory Unit} (h : m.Reframes x) :
    Leads (Sustains lost env) m Any x := by
  cases h with
  | refused e => exact .error _ _ _ _
  | frame found heap => exact .single (fun hm => ⟨hm.1.setFrame found heap, (present_setEnvironment found).mpr hm.2⟩) trivial

theorem sustains_allocIn (lost : Set ObjId) (m : Memory) (env : EnvId) (content : Content) :
    Leads (Sustains lost env) m Any (allocIn env content m) := by
  rw [allocIn_eq]
  cases he : m.environment? env with
  | none =>
    have habsent : ¬m.Present env := by
      rw [Present, he]
      exact Bool.false_ne_true
    have hvacuous : Sustains lost env m (m.stored env content) := fun hm => absurd hm.2 habsent
    exact ReflTransGen.single hvacuous
  | some e =>
    refine .single (fun hm => ⟨hm.1.withObject he content, ?_⟩) trivial
    exact (@present_setEnvironment (m.stored env content) env env e _ he).mpr hm.2

theorem sustains_param (lost : Set ObjId) (m : Memory) (env : EnvId) (name : String) (w : Value) :
    Leads (Sustains lost env) m Any ((declare env name false >>= fun _ => define env name w false) m) :=
  (reframes_declare m env name false).sustains.bind fun m' _ _ _ => (reframes_define m' env name w false).sustains

/-- A frame is made before its list is, so that the list has an owner even if the frame is not finished. -/
theorem Accounted.createFrame (h : m.Accounted lost) (c : Closure) (args : List Value) (callSite : Span) :
    (outcome (Memory.createFrame c args callSite m)).2.Accounted lost := by
  have henv : (m.create c.displayName (some c.env)).2.environment? ⟨m.nextEnv⟩ =
      some { name := c.displayName, tail := some c.env } := by
    rw [environment?_create, if_pos rfl]
  have hmade : Sustains lost ⟨m.nextEnv⟩ (m.create c.displayName (some c.env)).2
      ((m.create c.displayName (some c.env)).2.withCallSite ⟨m.nextEnv⟩ callSite) := by
    rw [withCallSite_eq henv]
    exact fun hm => ⟨hm.1.setFrame henv rfl, (present_setEnvironment henv).mpr hm.2⟩
  have hfilled : Leads (Sustains lost ⟨m.nextEnv⟩) (m.create c.displayName (some c.env)).2 Any
      (Memory.createFrame c args callSite m) := by
    rw [createFrame_eq]
    refine Leads.after ?_ (.single hmade)
    refine (leads_bindParams (fun m => sustains_param lost m _) _ _ args).bind fun m' _ _ _ => ?_
    exact (leads_bindRest (fun m => sustains_param lost m _) (fun m _ => sustains_allocIn lost m _ _) m' _ _).bind
      fun _ _ _ _ => .ok trivial
  have hthrough : ∀ m' : Memory, ReflTransGen (Sustains lost ⟨m.nextEnv⟩) (m.create c.displayName (some c.env)).2 m' →
      m'.Accounted lost ∧ m'.Present ⟨m.nextEnv⟩ := by
    intro m' hm
    induction hm with
    | refl => exact ⟨h.create _ _, Option.isSome_iff_exists.mpr ⟨_, henv⟩⟩
    | tail _ hlast ih => exact hlast ih
  cases hx : Memory.createFrame c args callSite m with
  | ok a m' =>
    rw [hx] at hfilled
    exact (hthrough m' hfilled.1).1
  | error e m' =>
    rw [hx] at hfilled
    exact (hthrough m' hfilled).1

/-! ## Operations one after another -/

/-- The memories that come about by operations with whatever ids, names and values, each with the objects that
have lost their owners. -/
inductive Operated : Set ObjId → Memory → Prop
  | initial : Operated ∅ initial
  /-- A request is carried out, or it is not for an object. -/
  | request {lost : Set ObjId} {m : Memory} (before : Operated lost m) (r : Request)
      (done : (r.run m).1 = true ∨ r.object? m = none) : Operated lost (r.run m).2
  /-- An object is refused. -/
  | refused {lost : Set ObjId} {m : Memory} (before : Operated lost m) {r : Request} {env : EnvId} {content : Content}
      (object : r.object? m = some (env, content)) (failed : (r.run m).1 = false) :
      Operated (insert ⟨m.store.next⟩ lost) (r.run m).2
  | create {lost : Set ObjId} {m : Memory} (before : Operated lost m) (name : String) (tail : Option EnvId) :
      Operated lost (m.create name tail).2
  | block {lost : Set ObjId} {m : Memory} (before : Operated lost m) (name : String) : Operated lost (m.createBlock name).2
  | frame {lost : Set ObjId} {m : Memory} (before : Operated lost m) (c : Closure) (args : List Value) (callSite : Span) :
      Operated lost (outcome (createFrame c args callSite m)).2
  | name {lost : Set ObjId} {m : Memory} (before : Operated lost m) (id : ObjId) (name : String) :
      Operated lost { m with store := m.store.nameClosure id name }
  | push {lost : Set ObjId} {m : Memory} (before : Operated lost m) (env : EnvId) : Operated lost (m.push env)
  | pop {lost : Set ObjId} {m m' : Memory} (before : Operated lost m) {env : EnvId} (popped : m.pop? = some (env, m')) :
      Operated lost m'
  | unwind {lost : Set ObjId} {m : Memory} (before : Operated lost m) (target : EnvId) :
      Operated lost (m.unwindTo target).2
  /-- There is no heir for some of the objects. -/
  | collect {lost : Set ObjId} {m : Memory} (before : Operated lost m) (envs : List EnvId) (objects : List ObjId) :
      Operated (lost ∪ m.heirless envs objects) (m.collect envs objects).2

/-- A request that is carried out loses no object. -/
theorem Accounted.request (h : m.Accounted lost) (r : Request) (hd : (r.run m).1 = true) : (r.run m).2.Accounted lost := by
  have hframe : ∀ {x : EStateM.Result EvalError Memory Unit}, m.Reframes x → (outcome x).2.Accounted lost := by
    intro x hx
    cases hx with
    | refused e => exact h
    | frame found heap => exact h.setFrame found heap
  have halloc : ∀ env content, (outcome (Memory.allocIn env content m)).1 = true →
      (outcome (Memory.allocIn env content m)).2.Accounted lost := by
    intro env content hd
    rw [allocIn_eq] at hd ⊢
    cases he : m.environment? env with
    | none =>
      rw [he] at hd
      cases hd
    | some e => exact h.withObject he content
  cases r with
  | declare env name constant => exact hframe (reframes_declare m env name constant)
  | define env name w constant => exact hframe (reframes_define m env name w constant)
  | assign name w => exact hframe (reframes_assign m name w)
  | alloc content => exact halloc m.current content hd
  | allocIn env content => exact halloc env content hd
  | move id target => exact h.move id target
  | restore target =>
    simp only [Request.run, Memory.restore]
    split
    · exact h.withActive _
    · exact h

theorem Operated.accounted (h : Operated lost m) : m.Accounted lost := by
  induction h with
  | initial => exact .initial
  | @request lost m before r done ih =>
    by_cases hd : (r.run m).1 = true
    · exact ih.request r hd
    · rw [Request.refused_eq (done.resolve_left hd) (Bool.eq_false_iff.mpr hd)]
      exact ih
  | @refused lost m before r env content object failed ih =>
    rw [(Request.refused_object object).2 failed]
    exact ih.stored env content
  | create before name tail ih => exact ih.create name tail
  | block before name ih => exact ih.create name _
  | frame before c args callSite ih => exact ih.createFrame c args callSite
  | name before id name ih => exact ih.withName id name
  | push before env ih => exact ih.withActive _
  | @pop lost m m' before env popped ih =>
    simp only [pop?] at popped
    split at popped
    · cases popped
      exact ih.withActive _
    · cases popped
  | unwind before target ih => exact ih.withActive _
  | collect before envs objects ih => exact ih.collect envs objects

end Memory
end CseMachine
