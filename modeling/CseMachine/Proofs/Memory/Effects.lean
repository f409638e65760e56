import CseMachine.Proofs.Memory.Operations
import CseMachine.Proofs.Results
import Mathlib.Data.List.Basic

/-!
# Exact effects of memory operations

What declaring, defining, binding parameters and making the frame of a call do,
where they succeed: the memory they leave is written out.
-/
namespace CseMachine

namespace Environment

variable {e : Environment} {name : String}

/-- The frame with further bindings. -/
def extend (e : Environment) (bindings : List (String × Slot)) : Environment :=
  { e with bindings := e.bindings ++ bindings }

theorem lookup?_extend (e : Environment) (bindings : List (String × Slot)) (x : String) :
    (e.extend bindings).lookup? x = (e.lookup? x).or (bindings.lookup x) := by
  simp only [lookup?, extend, List.lookup_append]

theorem lookup?_extend_of_ne (e : Environment) {x name : String} (slot : Slot) (h : x ≠ name) :
    (e.extend [(name, slot)]).lookup? x = e.lookup? x := by
  have hx : (x == name) = false := beq_eq_false_iff_ne.mpr h
  rw [lookup?_extend, List.lookup_cons, hx]
  exact Option.or_none

/-- Of further bindings of names that differ the frame has none yet if it had none before. -/
theorem lookup?_extend_head {α : Type} {name : α → String} {e : Environment} {a : α} {rest : List α}
    (hd : ((a :: rest).map name).Nodup) (hn : ∀ b ∈ a :: rest, e.lookup? (name b) = none) (slot : Slot) :
    ∀ b ∈ rest, (e.extend [(name a, slot)]).lookup? (name b) = none := by
  intro b hb
  have hne : name b ≠ name a :=
    fun heq => (List.nodup_cons.mp hd).1 (List.mem_map.mpr ⟨b, hb, heq⟩)
  rw [lookup?_extend_of_ne e slot hne]
  exact hn b (.tail _ hb)

theorem lookup_replace (name : String) (slot : Slot) (bindings : List (String × Slot)) (x : String) :
    (replace name slot bindings).lookup x = if x = name then (bindings.lookup x).map fun _ => slot else bindings.lookup x := by
  simp only [replace]
  induction bindings with
  | nil => simp
  | cons b rest ih =>
    obtain ⟨n, s⟩ := b
    simp only [List.map_cons, List.lookup_cons, ih]
    by_cases hx : x = n
    · subst hx
      by_cases hn : x = name <;> simp [hn]
    · have hb : (x == n) = false := by simpa using hx
      simp only [hb]

theorem lookup?_setSlot (e : Environment) (name : String) (slot : Slot) (x : String) :
    (e.setSlot name slot).lookup? x = if x = name then (e.lookup? x).map fun _ => slot else e.lookup? x :=
  lookup_replace name slot e.bindings x

theorem declare?_eq (h : e.lookup? name = none) (constant : Bool) :
    e.declare? name constant = some (e.extend [(name, ⟨none, constant⟩)]) := by
  simp only [declare?]
  rw [h]
  rfl

theorem define?_eq (h : (e.lookup? name).isSome) (w : Value) (constant : Bool) :
    e.define? name w constant = some (e.setSlot name ⟨some w, constant⟩) := by
  simp only [define?]
  rw [if_pos h]

/-- A name that was just declared gets its value where it stands. -/
theorem setSlot_extend (h : e.lookup? name = none) (slot slot' : Slot) :
    (e.extend [(name, slot)]).setSlot name slot' = e.extend [(name, slot')] := by
  have hr : replace name slot' e.bindings = e.bindings := by
    simp only [replace]
    conv => rhs; rw [← List.map_id e.bindings]
    refine List.map_congr_left fun b hb => ?_
    have hne : name ≠ b.1 := by simpa using List.lookup_eq_none_iff.mp h b hb
    have hn : (b.1 == name) = false := beq_eq_false_iff_ne.mpr hne.symm
    simp only [hn, id_eq]
    rfl
  simp only [replace] at hr
  simp only [setSlot, extend, replace, List.map_append, hr, List.map_cons, List.map_nil, BEq.rfl, if_true]

theorem extend_extend (e : Environment) (xs ys : List (String × Slot)) :
    (e.extend xs).extend ys = e.extend (xs ++ ys) := by
  simp only [extend, List.append_assoc]

theorem extend_nil (e : Environment) : e.extend [] = e := by
  simp only [extend, List.append_nil]

end Environment

namespace Memory

variable {m : Memory} {env : EnvId} {e : Environment} {name : String}

/-! Frames that exist -/

theorem setEnvironment_setEnvironment (m : Memory) (id : EnvId) (e e' : Environment) :
    (m.setEnvironment id e).setEnvironment id e' = m.setEnvironment id e' := by
  simp only [setEnvironment]
  congr 1
  refine Std.ExtTreeMap.ext_getElem? fun k => ?_
  simp only [Std.ExtTreeMap.getElem?_insert]
  split <;> rfl

theorem setEnvironment_self (h : m.environment? env = some e) : m.setEnvironment env e = m := by
  simp only [setEnvironment]
  have hi : m.environments.insert env e = m.environments := by
    refine Std.ExtTreeMap.ext_getElem? fun k => ?_
    rw [Std.ExtTreeMap.getElem?_insert]
    split
    · next hk =>
      rw [Std.LawfulEqOrd.compare_eq_iff_eq] at hk
      rw [← hk]
      exact h.symm
    · rfl
  rw [hi]

theorem environment?_set (m : Memory) (env : EnvId) (e : Environment) :
    (m.setEnvironment env e).environment? env = some e := by
  rw [environment?_setEnvironment, if_pos rfl]

theorem declare_ok (h : m.environment? env = some e) (hn : e.lookup? name = none) (constant : Bool) :
    declare env name constant m = .ok () (m.setEnvironment env (e.extend [(name, ⟨none, constant⟩)])) := by
  simp only [declare, h, Environment.declare?_eq hn]

theorem define_ok (h : m.environment? env = some e) (hn : (e.lookup? name).isSome) (w : Value)
    (constant : Bool) :
    define env name w constant m = .ok () (m.setEnvironment env (e.setSlot name ⟨some w, constant⟩)) := by
  simp only [define, h, Environment.define?_eq hn]

/-- A new name with its value. -/
theorem declare_define_ok (h : m.environment? env = some e) (hn : e.lookup? name = none) (w : Value)
    (constant : Bool) :
    (declare env name constant >>= fun _ => define env name w constant) m =
      .ok () (m.setEnvironment env (e.extend [(name, ⟨some w, constant⟩)])) := by
  have hs : ((e.extend [(name, ⟨none, constant⟩)]).lookup? name).isSome := by
    simp [Environment.lookup?_extend, hn]
  rw [bind_of_ok (declare_ok h hn constant), define_ok (environment?_set m env _) hs,
    setEnvironment_setEnvironment, Environment.setSlot_extend hn]

/-- What a frame knows of names that are only declared. -/
def declaredSlots (declarations : List Declaration) : List (String × Slot) :=
  declarations.map fun d => (d.name, ⟨none, d.constant⟩)

/-- What parameters are bound to. -/
def argumentBindings (ps : List Param) (args : List Value) : List (String × Slot) :=
  (ps.zip args).map fun (p, w) => (p.name, ⟨some w, false⟩)

theorem bindParams_cons (env : EnvId) (p : Param) (ps : List Param) (w : Value) (args : List Value) :
    bindParams env (p :: ps) (w :: args) =
      (declare env p.name false >>= fun _ => define env p.name w false) >>= fun _ => bindParams env ps args := by
  simp only [bindParams, bind_assoc]

theorem bindParams_ok {ps : List Param} (args : List Value) (h : m.environment? env = some e)
    (hd : (ps.map (·.name)).Nodup) (hn : ∀ p ∈ ps, e.lookup? p.name = none) :
    bindParams env ps args m = .ok () (m.setEnvironment env (e.extend (argumentBindings ps args))) := by
  induction ps generalizing args m e with
  | nil =>
    simp only [argumentBindings, List.zip_nil_left, List.map_nil, Environment.extend_nil,
      setEnvironment_self h]
    rfl
  | cons p ps ih =>
    cases args with
    | nil =>
      simp only [argumentBindings, List.zip_nil_right, List.map_nil, Environment.extend_nil,
        setEnvironment_self h]
      rfl
    | cons w args =>
      have hrest := Environment.lookup?_extend_head hd hn ⟨some w, false⟩
      have hnext := ih args (environment?_set m env _) (List.nodup_cons.mp hd).2 hrest
      rw [setEnvironment_setEnvironment, Environment.extend_extend] at hnext
      rw [bindParams_cons, bind_of_ok (declare_define_ok h (hn p (.head _)) w false), hnext]
      rfl

/-! Names that get a value -/

/-- The memory once a value is bound to a name: a closure without a name has got this one. -/
def named (m : Memory) (w : Value) (name : String) : Memory :=
  match w with
  | .closure id => { m with store := m.store.nameClosure id name }
  | _ => m

/-- Bind a name that the current frame declares, or overwrite its nearest binding. -/
def bindName (name : String) (w : Value) (constant declaration : Bool) : Op Unit := fun m =>
  if declaration then define m.current name w constant m else assign name w m

/-! New frames and objects -/

/-- The memory with a new environment. -/
def adopt (m : Memory) (e : Environment) : Memory :=
  { m with
    environments := m.environments.insert ⟨m.nextEnv⟩ e
    nextEnv := m.nextEnv + 1
    tree := m.tree.insert ⟨m.nextEnv⟩ e.tail
    allocated := m.allocated + 1 }

theorem create_eq (m : Memory) (name : String) (tail : Option EnvId) :
    m.create name tail = (⟨m.nextEnv⟩, m.adopt { name, tail }) := rfl

@[simp] theorem environment?_adopt (m : Memory) (e : Environment) (k : EnvId) :
    (m.adopt e).environment? k = if (⟨m.nextEnv⟩ : EnvId) = k then some e else m.environment? k := by
  simp [adopt, environment?, Std.ExtTreeMap.getElem?_insert]

theorem environment?_adopt_self (m : Memory) (e : Environment) :
    (m.adopt e).environment? ⟨m.nextEnv⟩ = some e := by
  rw [environment?_adopt, if_pos rfl]

theorem setEnvironment_adopt (m : Memory) {e e' : Environment} (h : e'.tail = e.tail) :
    (m.adopt e).setEnvironment ⟨m.nextEnv⟩ e' = m.adopt e' := by
  simp only [adopt, setEnvironment]
  rw [h]
  congr 1
  refine Std.ExtTreeMap.ext_getElem? fun k => ?_
  simp only [Std.ExtTreeMap.getElem?_insert]
  split <;> rfl

theorem withCallSite_eq (h : m.environment? env = some e) (callSite : Span) :
    m.withCallSite env callSite = m.setEnvironment env { e with callSite := some callSite } := by
  simp only [withCallSite, setEnvironment]
  congr 1
  refine Std.ExtTreeMap.ext_getElem? fun k => ?_
  rw [Std.ExtTreeMap.getElem?_modify, Std.ExtTreeMap.getElem?_insert]
  split
  · have hi : m.environments[env]? = some e := h
    rw [hi]
    rfl
  · rfl

/-- But for its owner's heap, making an object is putting it in the store. -/
theorem allocIn_ok (h : m.environment? env = some e) (content : Content) :
    ∃ m', allocIn env content m = .ok ⟨m.store.next⟩ m' ∧ AgreeOn .all (m.stored env content) m' := by
  have ha := allocIn_eq m env content
  rw [h] at ha
  refine ⟨_, ha, rfl, rfl, rfl, fun k _ => ?_, fun k _ => rfl⟩
  have hs : (m.stored env content).environment? env = some e := h
  exact (map_core_setEnvironment (e.heap.insert ⟨m.store.next⟩) hs).symm

end Memory

/-- The parameters are the required ones and the rest parameter, if there is one. -/
theorem Func.required_append_rest (f : Func) : f.required ++ f.rest?.toList = f.params := by
  simp only [Func.required]
  cases hr : f.rest? with
  | none => simp
  | some p =>
    obtain ⟨hl, _⟩ := Option.filter_eq_some_iff.mp hr
    simpa using List.dropLast_append_getLast? p hl

namespace Closure

/-- The frame for a call before anything is bound in it. -/
def bareFrame (c : Closure) (callSite : Span) : Environment where
  name := c.displayName
  tail := some c.env
  callSite := some callSite

/-- What a call binds, the rest parameter to the list `rest`. -/
def callBindings (c : Closure) (args : List Value) (rest : ObjId) : List (String × Slot) :=
  Memory.argumentBindings c.func.required args ++
    c.func.rest?.toList.map fun p => (p.name, ⟨some (.list rest), false⟩)

/-- The frame for a call. It owns the list of a rest parameter. -/
def frame (c : Closure) (args : List Value) (callSite : Span) (rest : ObjId) : Environment where
  name := c.displayName
  tail := some c.env
  bindings := c.callBindings args rest
  heap := if c.func.rest?.isSome then Heap.empty.insert rest else .empty
  callSite := some callSite

end Closure

namespace Memory

variable {m : Memory}

/-- The memory with the list of a rest parameter, if there is one. -/
def withRest (m : Memory) (c : Closure) (args : List Value) : Memory :=
  match c.func.rest? with
  | some _ => m.stored ⟨m.nextEnv⟩ (.list (args.drop c.func.required.length))
  | none => m

/-- The memory with the frame for a call. -/
def framed (m : Memory) (c : Closure) (args : List Value) (callSite : Span) : Memory :=
  (m.withRest c args).adopt ((c.bareFrame callSite).extend (c.callBindings args ⟨m.store.next⟩))

/-- The memory that a call leaves, where the frame owns the list of a rest parameter. -/
def called (m : Memory) (c : Closure) (args : List Value) (callSite : Span) : Memory :=
  { m.withRest c args with allocated := m.allocated + c.func.rest?.toList.length }.adopt (c.frame args callSite ⟨m.store.next⟩)

/-- Names that are not among the parameters bound are not in the bindings. -/
theorem lookup_argumentBindings_eq_none {ps : List Param} {x : String} (args : List Value)
    (h : x ∉ ps.map (·.name)) : (argumentBindings ps args).lookup x = none := by
  refine List.lookup_eq_none_iff.mpr fun b hb => ?_
  obtain ⟨⟨p, w⟩, hp, rfl⟩ := List.mem_map.mp hb
  apply bne_iff_ne.mpr
  rintro rfl
  exact h (List.mem_map_of_mem (List.of_mem_zip hp).1)

/-- A new object in a new environment, which might as well have been made after it. -/
theorem allocIn_adopt (m : Memory) (e : Environment) (content : Content) :
    allocIn ⟨m.nextEnv⟩ content (m.adopt e) = .ok ⟨m.store.next⟩
      ({ m.stored ⟨m.nextEnv⟩ content with allocated := m.allocated + 1 }.adopt
        { e with heap := e.heap.insert ⟨m.store.next⟩ }) := by
  rw [allocIn_eq, environment?_adopt_self]
  have htail : ({ e with heap := e.heap.insert ⟨m.store.next⟩ } : Environment).tail = e.tail := rfl
  have hset := setEnvironment_adopt (m.stored ⟨m.nextEnv⟩ content) htail
  exact congrArg (fun s : Memory => EStateM.Result.ok (⟨m.store.next⟩ : ObjId) { s with allocated := m.allocated + 2 }) hset

/-- A new name with its value in a new environment. -/
theorem declare_define_adopt {e : Environment} {name : String} (hn : e.lookup? name = none) (w : Value) (constant : Bool) :
    (declare ⟨m.nextEnv⟩ name constant >>= fun _ => define ⟨m.nextEnv⟩ name w constant) (m.adopt e) =
      .ok () (m.adopt (e.extend [(name, ⟨some w, constant⟩)])) := by
  have htail : (e.extend [(name, ⟨some w, constant⟩)]).tail = e.tail := rfl
  rw [declare_define_ok (environment?_adopt_self m e) hn, setEnvironment_adopt m htail]

/-- A call of a closure whose parameters are distinct gets its frame. -/
theorem createFrame_called {c : Closure} (hd : (c.func.params.map (·.name)).Nodup) (args : List Value)
    (callSite : Span) : createFrame c args callSite m = .ok ⟨m.nextEnv⟩ (m.called c args callSite) := by
  rw [← c.func.required_append_rest, List.map_append] at hd
  obtain ⟨hreq, _, hdisj⟩ := List.nodup_append.mp hd
  have hcall : (m.create c.displayName (some c.env)).2.withCallSite ⟨m.nextEnv⟩ callSite =
      m.adopt (c.bareFrame callSite) := by
    rw [create_eq, withCallSite_eq (environment?_adopt_self m _)]
    exact setEnvironment_adopt m rfl
  have hbind := bindParams_ok args (environment?_adopt_self m (c.bareFrame callSite)) hreq
    fun p _ => rfl
  have htail : ((c.bareFrame callSite).extend (argumentBindings c.func.required args)).tail =
      (c.bareFrame callSite).tail := rfl
  rw [setEnvironment_adopt m htail] at hbind
  rw [createFrame_eq, hcall, bind_of_ok hbind]
  simp only [bindRest, called, withRest, Closure.frame, Closure.callBindings]
  cases hr : c.func.rest? with
  | none =>
    simp only [Option.toList_none, List.map_nil, List.append_nil]
    rfl
  | some p =>
    have hp : p.name ∉ c.func.required.map (·.name) := by
      intro hm
      exact hdisj _ hm p.name (by simp [hr]) rfl
    simp only [Option.toList_some, List.map_cons, List.map_nil, Option.isSome_some, if_true]
    generalize he : (c.bareFrame callSite).extend (argumentBindings c.func.required args) = e
    have hn : e.lookup? p.name = none := by
      rw [← he, Environment.lookup?_extend, lookup_argumentBindings_eq_none args hp]
      rfl
    have ha := allocIn_adopt m e (.list (args.drop c.func.required.length))
    have howned : ({ e with heap := e.heap.insert ⟨m.store.next⟩ } : Environment).lookup? p.name = none := hn
    have hdef := declare_define_adopt
      (m := { m.stored ⟨m.nextEnv⟩ (.list (args.drop c.func.required.length)) with allocated := m.allocated + 1 })
      howned (.list ⟨m.store.next⟩) false
    subst he
    rw [bind_assoc, bind_of_ok ha]
    exact bind_of_ok hdef

/-- Which heap has the list of a rest parameter is not seen by evaluation. -/
theorem agreeOn_called (m : Memory) (c : Closure) (args : List Value) (callSite : Span) :
    AgreeOn .all (m.framed c args callSite) (m.called c args callSite) := by
  refine ⟨rfl, rfl, rfl, fun k _ => ?_, fun _ _ => rfl⟩
  have hframed : (m.framed c args callSite).environment? k = _ := environment?_adopt _ _ k
  have hcalled : (m.called c args callSite).environment? k = _ := environment?_adopt _ _ k
  rw [hframed, hcalled]
  split <;> rfl

theorem createFrame_ok {c : Closure} (hd : (c.func.params.map (·.name)).Nodup) (args : List Value)
    (callSite : Span) :
    ∃ m', createFrame c args callSite m = .ok ⟨m.nextEnv⟩ m' ∧
      AgreeOn .all (m.framed c args callSite) m' :=
  ⟨_, createFrame_called hd args callSite, agreeOn_called m c args callSite⟩

end Memory
end CseMachine
