import CseMachine.Proofs.Lockstep

/-!
# Memory operations on memories that agree

Every operation gives the same result on memories that agree on what is live,
and leaves memories that agree, provided that what it is given is live. What it
makes is live from then on.
-/
namespace CseMachine

namespace Environment

variable {e : Environment} {name : String} {constant : Bool}

theorem declare?_withHeap (e : Environment) (heap : Heap) (name : String) (constant : Bool) :
    ({ e with heap } : Environment).declare? name constant =
      (e.declare? name constant).map fun e' => { e' with heap } := by
  simp only [declare?, lookup?]
  by_cases h : (e.bindings.lookup name).isSome
  · simp only [h, if_true, Option.map_none]
  · simp only [h, Bool.false_eq_true, if_false, Option.map_some]

theorem define?_withHeap (e : Environment) (heap : Heap) (name : String) (w : Value) (constant : Bool) :
    ({ e with heap } : Environment).define? name w constant =
      (e.define? name w constant).map fun e' => { e' with heap } := by
  simp only [define?, lookup?]
  by_cases h : (e.bindings.lookup name).isSome
  · simp only [h, if_true, Option.map_some]
    rfl
  · simp only [h, Bool.false_eq_true, if_false, Option.map_none]

theorem eq_setSlot_of_define? {w : Value} {e' : Environment} (h : e.define? name w constant = some e') :
    e' = e.setSlot name ⟨some w, constant⟩ := by
  simp only [define?] at h
  split at h
  · exact (Option.some.inj h).symm
  · cases h

end Environment

namespace Content

variable {L : Live}

/-- The links of the content are live. -/
def Within (content : Content) (L : Live) : Prop :=
  (∀ t ∈ content.links.1, L.envs t) ∧ ∀ o ∈ content.links.2, L.objects o

theorem within_list {items : List Value} (hi : ∀ w ∈ items, w.Within L.objects) :
    (Content.list items).Within L := by
  refine ⟨fun t ht => (by cases ht), fun o ho => ?_⟩
  obtain ⟨w, hw, ho⟩ := List.mem_filterMap.mp ho
  exact hi w hw o ho

theorem within_closure {c : Closure} (hc : L.envs c.env) : (Content.closure c).Within L := by
  refine ⟨fun t ht => ?_, fun o ho => (by cases ho)⟩
  obtain rfl := List.mem_singleton.mp ht
  exact hc

end Content

namespace Memory

variable {L : Live} {m m₁ m₂ : Memory}

open Memory.Agree (setEnvironment)

/-! Environments -/

@[simp] theorem environment?_create (m : Memory) (name : String) (tail : Option EnvId) (k : EnvId) :
    (m.create name tail).2.environment? k =
      if (⟨m.nextEnv⟩ : EnvId) = k then some { name, tail } else m.environment? k := by
  simp [create, environment?, Std.ExtTreeMap.getElem?_insert]

theorem create_fst (m : Memory) (name : String) (tail : Option EnvId) :
    (m.create name tail).1 = ⟨m.nextEnv⟩ := rfl

namespace Agree

variable (h : Agree L m₁ m₂)
include h

theorem create (name : String) {tail : Option EnvId} (ht : ∀ t, tail = some t → L.envs t) :
    (m₁.create name tail).1 = (m₂.create name tail).1 ∧
      Agree (L.addEnv (m₁.create name tail).1) (m₁.create name tail).2 (m₂.create name tail).2 := by
  have hid : (⟨m₁.nextEnv⟩ : EnvId) = ⟨m₂.nextEnv⟩ := congrArg EnvId.mk h.nextEnv
  refine ⟨hid, ⟨congrArg (· + 1) h.nextEnv, h.nextObject, h.active, ?_, h.contents⟩, ⟨?_, ?_, ?_,
    h.closed.element⟩, .inr h.global, fun id hi => .inr (h.activeLive id hi)⟩
  · intro k hk
    simp only [environment?_create, ← hid]
    rcases hk with rfl | hk
    · simp only [create_fst, if_true]
    · split
      · rfl
      · exact h.frames k hk
  · intro k e t hk he het
    rw [environment?_create] at he
    split at he
    · obtain rfl := Option.some.inj he
      exact .inr (ht t het)
    · next hne =>
      have hk' := hk.resolve_left hne
      exact .inr (h.closed.tail k e t hk' he het)
  · intro k e o hk he ho
    rw [environment?_create] at he
    split at he
    · obtain rfl := Option.some.inj he
      cases ho
    · next hne => exact h.closed.handle k e o (hk.resolve_left hne) he ho
  · intro id o t hi ho ht'
    exact .inr (h.closed.closureEnv id o t hi ho ht')

/-- Nothing in a frame that agrees leads out of the live ids. -/
theorem frame {id : EnvId} {e : Environment} (hi : L.envs id) (he : m₁.environment? id = some e) :
    (∀ t, e.tail = some t → L.envs t) ∧ ∀ o ∈ e.handles, L.objects o :=
  ⟨fun t ht => h.closed.tail id e t hi he ht, fun o ho => h.closed.handle id e o hi he ho⟩

theorem declare {env : EnvId} (name : String) (constant : Bool) (hi : L.envs env) :
    Lockstep Agree Same L (declare env name constant m₁) (declare env name constant m₂) := by
  rcases h.environment?_cases hi with ⟨h₁, h₂⟩ | ⟨e, heap, h₁, h₂⟩
  · simp only [Memory.declare, h₁, h₂]
    exact .error h
  · simp only [Memory.declare, h₁, h₂, Environment.declare?_withHeap]
    cases hd' : e.declare? name constant with
    | none => exact .error h
    | some e' =>
      have ht : e'.tail = e.tail := by
        simp only [Environment.declare?] at hd'
        split at hd' <;> cases hd'
        rfl
      obtain ⟨hft, hfo⟩ := h.frame hi h₁
      refine .ok (setEnvironment h env heap ?_ ?_) rfl
      · rw [ht]
        exact hft
      · rw [Environment.handles_declare hd']
        exact hfo

theorem setSlot {env : EnvId} {e : Environment} {w : Value} (heap : Heap) (name : String) (constant : Bool)
    (hi : L.envs env) (he : m₁.environment? env = some e) (hw : w.Within L.objects) :
    Agree L (m₁.setEnvironment env (e.setSlot name ⟨some w, constant⟩))
      (m₂.setEnvironment env { e.setSlot name ⟨some w, constant⟩ with heap }) := by
  obtain ⟨hft, hfo⟩ := h.frame hi he
  refine setEnvironment h env heap hft ?_
  intro o ho
  rcases Environment.mem_handles_setSlot ho with ho | ⟨w', hw', ho⟩
  · exact hfo o ho
  · obtain rfl := Option.some.inj hw'
    exact hw o ho

theorem define {env : EnvId} (name : String) {w : Value} (constant : Bool) (hi : L.envs env)
    (hw : w.Within L.objects) :
    Lockstep Agree Same L (define env name w constant m₁) (define env name w constant m₂) := by
  rcases h.environment?_cases hi with ⟨h₁, h₂⟩ | ⟨e, heap, h₁, h₂⟩
  · simp only [Memory.define, h₁, h₂]
    exact .error h
  · simp only [Memory.define, h₁, h₂, Environment.define?_withHeap]
    cases hd : e.define? name w constant with
    | none => exact .error h
    | some e' =>
      obtain rfl := Environment.eq_setSlot_of_define? hd
      exact .ok (h.setSlot heap name constant hi h₁ hw) rfl

/-! Names -/

/-- A name is found at the same place, in frames that differ in their heaps at most. -/
theorem resolveFrom_cases (name : String) (steps : Nat) {id : EnvId} (hi : L.envs id) :
    (∃ env e heap slot, m₁.resolveFrom name steps id = .found env e slot ∧
        m₂.resolveFrom name steps id = .found env { e with heap } slot ∧ L.envs env ∧
        m₁.environment? env = some e ∧ e.lookup? name = some slot) ∨
      (m₁.resolveFrom name steps id = .absent ∧ m₂.resolveFrom name steps id = .absent) ∨
      ∃ env, m₁.resolveFrom name steps id = .broken env ∧
        m₂.resolveFrom name steps id = .broken env := by
  induction steps generalizing id with
  | zero => exact .inr (.inl ⟨rfl, rfl⟩)
  | succ steps ih =>
    rcases h.environment?_cases hi with ⟨h₁, h₂⟩ | ⟨e, heap, h₁, h₂⟩
    · simp only [resolveFrom, h₁, h₂]
      exact .inr (.inr ⟨id, rfl, rfl⟩)
    · simp only [resolveFrom, h₁, h₂]
      have hl : ({ e with heap } : Environment).lookup? name = e.lookup? name := rfl
      rw [hl]
      cases hs : e.lookup? name with
      | some slot => exact .inl ⟨id, e, heap, slot, rfl, rfl, hi, h₁, hs⟩
      | none =>
        simp only
        cases ht : e.tail with
        | none => exact .inr (.inl ⟨rfl, rfl⟩)
        | some t => exact ih (h.closed.tail id e t hi h₁ ht)

theorem resolve_cases (name : String) :
    (∃ env e heap slot, m₁.resolve name = .found env e slot ∧
        m₂.resolve name = .found env { e with heap } slot ∧ L.envs env ∧
        m₁.environment? env = some e ∧ e.lookup? name = some slot) ∨
      (m₁.resolve name = .absent ∧ m₂.resolve name = .absent) ∨
      ∃ env, m₁.resolve name = .broken env ∧ m₂.resolve name = .broken env := by
  have hc := h.resolveFrom_cases name (m₁.nextEnv + 1) h.current_live
  simp only [resolve]
  rw [← h.nextEnv, ← h.current_eq]
  exact hc

theorem get_eq (name : String) : m₁.get name = m₂.get name := by
  rcases h.resolve_cases name with ⟨env, e, heap, ⟨value, constant⟩, h₁, h₂, -⟩ | ⟨h₁, h₂⟩ | ⟨env, h₁, h₂⟩
  · cases value <;> simp only [get, h₁, h₂]
  · simp only [get, h₁, h₂]
  · simp only [get, h₁, h₂]

theorem get_within {name : String} {w : Value} (hg : m₁.get name = .ok w) : w.Within L.objects := by
  rcases h.resolve_cases name with ⟨env, e, heap, ⟨value, constant⟩, h₁, -, hi, he, hs⟩ | ⟨h₁, -⟩ | ⟨env, h₁, -⟩
  · cases value with
    | none =>
      simp only [get, h₁] at hg
      cases hg
    | some v =>
      simp only [get, h₁] at hg
      obtain rfl := Except.ok.inj hg
      exact fun o ho => h.closed.handle env e o hi he (Environment.objectId_mem_handles hs ho)
  · simp only [get, h₁] at hg
    cases hg
  · simp only [get, h₁] at hg
    cases hg

theorem assign (name : String) {w : Value} (hw : w.Within L.objects) :
    Lockstep Agree Same L (assign name w m₁) (assign name w m₂) := by
  rcases h.resolve_cases name with ⟨env, e, heap, slot, h₁, h₂, hi, he, -⟩ | ⟨h₁, h₂⟩ | ⟨env, h₁, h₂⟩
  · simp only [Memory.assign, h₁, h₂]
    cases slot.constant with
    | true => exact .error h
    | false => exact .ok (h.setSlot heap name false hi he hw) rfl
  · simp only [Memory.assign, h₁, h₂]
    exact .error h
  · simp only [Memory.assign, h₁, h₂]
    exact .error h

end Agree

/-! Objects -/

@[simp] theorem get?_alloc (s : Store) (owner : EnvId) (content : Content) (k : ObjId) :
    (s.alloc owner content).2.get? k =
      if (⟨s.next⟩ : ObjId) = k then some ⟨owner, content⟩ else s.get? k := by
  simp [Store.alloc, Store.get?, Std.ExtTreeMap.getElem?_insert]

/-- A new object is put in the store before its owner is looked for. -/
def stored (m : Memory) (env : EnvId) (content : Content) : Memory :=
  { m with store := (m.store.alloc env content).2 }

/-- What a new object adds is seen by nothing but its handle. -/
theorem allocIn_eq (m : Memory) (env : EnvId) (content : Content) :
    allocIn env content m = match m.environment? env with
      | none => .error (unknown env) (m.stored env content)
      | some e => .ok ⟨m.store.next⟩
          { (m.stored env content).setEnvironment env { e with heap := e.heap.insert ⟨m.store.next⟩ } with
            allocated := m.allocated + 1 } := rfl

namespace Agree

theorem stored (h : Agree L m₁ m₂) (env : EnvId) {content : Content} (hc : content.Within L) :
    Agree (L.addObject ⟨m₁.store.next⟩) (m₁.stored env content) (m₂.stored env content) := by
  have hid : (⟨m₁.store.next⟩ : ObjId) = ⟨m₂.store.next⟩ := congrArg ObjId.mk h.nextObject
  refine ⟨⟨h.nextEnv, congrArg (· + 1) h.nextObject, h.active, h.frames, ?_⟩,
    ⟨h.closed.tail, fun id e o hi he ho => .inr (h.closed.handle id e o hi he ho), ?_, ?_⟩, h.global,
    h.activeLive⟩
  · intro k hk
    simp only [Memory.stored, get?_alloc, ← hid]
    rcases hk with rfl | hk
    · simp only [if_true]
    · split
      · rfl
      · exact h.contents k hk
  · intro k o t hk ho ht
    simp only [Memory.stored, get?_alloc] at ho
    split at ho
    · obtain rfl := Option.some.inj ho
      exact hc.1 t ht
    · next hne => exact h.closed.closureEnv k o t (hk.resolve_left hne) ho ht
  · intro k o j hk ho hj
    simp only [Memory.stored, get?_alloc] at ho
    split at ho
    · obtain rfl := Option.some.inj ho
      exact .inr (hc.2 j hj)
    · next hne => exact .inr (h.closed.element k o j (hk.resolve_left hne) ho hj)

theorem allocIn (h : Agree L m₁ m₂) {env : EnvId} {content : Content} (hi : L.envs env)
    (hc : content.Within L) :
    Lockstep Agree (fun M id id' => id = id' ∧ M.objects id) L (allocIn env content m₁)
      (allocIn env content m₂) := by
  have hid : (⟨m₁.store.next⟩ : ObjId) = ⟨m₂.store.next⟩ := congrArg ObjId.mk h.nextObject
  have hs := h.stored env hc
  rw [allocIn_eq, allocIn_eq]
  rcases h.environment?_cases hi with ⟨h₁, h₂⟩ | ⟨e, heap, h₁, h₂⟩
  · simp only [h₁, h₂]
    exact ⟨rfl, _, L.le_addObject _, hs⟩
  · simp only [h₁, h₂]
    refine ⟨_, L.le_addObject _, ?_, hid, .inl rfl⟩
    obtain ⟨hft, hfo⟩ := hs.frame hi h₁
    have hse := hs.setEnvironment env (e := { e with heap := e.heap.insert ⟨m₁.store.next⟩ })
      (heap.insert ⟨m₂.store.next⟩) hft hfo
    exact hse.congr ⟨rfl, rfl, rfl, fun _ _ => rfl, fun _ _ => rfl⟩
      ⟨rfl, rfl, rfl, fun _ _ => rfl, fun _ _ => rfl⟩

theorem alloc (h : Agree L m₁ m₂) {content : Content} (hc : content.Within L) :
    Lockstep Agree (fun M id id' => id = id' ∧ M.objects id) L (alloc content m₁) (alloc content m₂) := by
  have ha := h.allocIn h.current_live hc
  simp only [Memory.alloc]
  rw [← h.current_eq]
  exact ha

end Agree

/-- Naming a closure changes what it is called and nothing that it links to. -/
theorem get?_nameClosure (s : Store) (id : ObjId) (name : String) (k : ObjId) :
    (s.nameClosure id name).get? k = (s.get? k).map fun o =>
      if id = k then match o.content with
        | .closure c => { o with content := .closure (c.nameOnce name) }
        | .list _ => o
      else o := by
  simp only [Store.nameClosure, Store.get?, Std.ExtTreeMap.getElem?_modify, Std.LawfulEqOrd.compare_eq_iff_eq]
  split
  · next hk =>
    subst hk
    rfl
  · simp only [Option.map_id']

theorem Agree.nameClosure (h : Agree L m₁ m₂) (id : ObjId) (name : String) :
    Agree L { m₁ with store := m₁.store.nameClosure id name }
      { m₂ with store := m₂.store.nameClosure id name } := by
  have hl : ∀ k o, (m₁.store.nameClosure id name).get? k = some o →
      ∃ o', m₁.store.get? k = some o' ∧ o'.content.links = o.content.links := by
    intro k o ho
    rw [get?_nameClosure] at ho
    obtain ⟨o', ho', rfl⟩ := Option.map_eq_some_iff.mp ho
    refine ⟨o', ho', ?_⟩
    split
    · split
      · next hc => simp only [hc, Content.links, Closure.nameOnce]
      · rfl
    · rfl
  refine ⟨⟨h.nextEnv, h.nextObject, h.active, h.frames, ?_⟩, ⟨h.closed.tail, h.closed.handle, ?_, ?_⟩,
    h.global, h.activeLive⟩
  · intro k hk
    rcases Store.get?_cases (h.contents k hk) with ⟨h₁, h₂⟩ | ⟨owner, owner', content, h₁, h₂⟩
    · simp only [get?_nameClosure, h₁, h₂, Option.map_none]
    · simp only [get?_nameClosure, h₁, h₂, Option.map_some]
      split
      · cases content <;> rfl
      · rfl
  · intro k o t hk ho ht
    obtain ⟨o', ho', he⟩ := hl k o ho
    exact h.closed.closureEnv k o' t hk ho' (he ▸ ht)
  · intro k o j hk ho hj
    obtain ⟨o', ho', he⟩ := hl k o ho
    exact h.closed.element k o' j hk ho' (he ▸ hj)

@[simp] theorem map_content_setOwner (s : Store) (id : ObjId) (owner : EnvId) (k : ObjId) :
    ((s.setOwner id owner).get? k).map Object.content = (s.get? k).map Object.content := by
  simp only [Store.setOwner, Store.get?, Std.ExtTreeMap.getElem?_modify, Std.LawfulEqOrd.compare_eq_iff_eq]
  split
  · next hk =>
    subst hk
    rw [Option.map_map]
    rfl
  · rfl

theorem map_core_setEnvironment {id k : EnvId} {e : Environment} (heap : Heap) (h : m.environment? id = some e) :
    ((m.setEnvironment id { e with heap }).environment? k).map Environment.core =
      (m.environment? k).map Environment.core := by
  rw [environment?_setEnvironment]
  split
  · next hk =>
    subst hk
    rw [h]
    rfl
  · rfl

/-- Who owns an object is seen by nothing. -/
theorem agreeOn_move (m : Memory) (id : ObjId) (target : EnvId) : AgreeOn .all m (m.move id target) := by
  simp only [move]
  cases hm : m.move? id target with
  | none => exact .refl _ m
  | some m' =>
    simp only [move?, Option.bind_eq_bind, Option.bind_eq_some_iff] at hm
    obtain ⟨owner, -, hm⟩ := hm
    split at hm
    · cases hm
    · next hne =>
      obtain ⟨taker, ht, giver, hg, ⟨left, taken⟩, -, hm⟩ := by
        simpa only [Option.bind_eq_some_iff] using hm
      obtain rfl := Option.some.inj hm
      refine ⟨rfl, rfl, rfl, fun k _ => ?_, fun k _ => (map_content_setOwner _ _ _ _).symm⟩
      have ht' : (m.setEnvironment owner { giver with heap := left }).environment? target = some taker := by
        rw [environment?_setEnvironment, if_neg hne, ht]
      exact ((map_core_setEnvironment taken ht').trans (map_core_setEnvironment left hg)).symm

/-! Active environments -/

namespace Agree

variable (h : Agree L m₁ m₂)
include h

theorem restore (target : EnvId) :
    Lockstep Agree Same L (restore target m₁) (restore target m₂) := by
  have hw := h.withActive (m₁.active.dropWhile (· ≠ target)) fun id hi =>
    h.activeLive id (List.dropWhile_subset _ hi)
  simp only [Memory.restore]
  rw [← h.active]
  split
  · exact .ok hw rfl
  · exact .error h

theorem pop? : (m₁.pop? = none ∧ m₂.pop? = none) ∨ ∃ top m₁' m₂', m₁.pop? = some (top, m₁') ∧
    m₂.pop? = some (top, m₂') ∧ Agree L m₁' m₂' := by
  simp only [Memory.pop?]
  rw [← h.active]
  rcases ha : m₁.active with _ | ⟨top, _ | ⟨next, rest⟩⟩
  · exact .inl ⟨rfl, rfl⟩
  · exact .inl ⟨rfl, rfl⟩
  · have hw := h.withActive (next :: rest) fun id hi => h.activeLive id (ha ▸ .tail _ hi)
    exact .inr ⟨top, _, _, rfl, rfl, hw⟩

theorem unwindTo {target : EnvId} (ht : L.envs target) :
    (m₁.unwindTo target).1 = (m₂.unwindTo target).1 ∧
      Agree L (m₁.unwindTo target).2 (m₂.unwindTo target).2 := by
  simp only [Memory.unwindTo]
  simp only [← h.active, true_and]
  generalize hk : (m₁.active.reverse.take _).reverse = kept
  have hl : ∀ id ∈ kept, L.envs id := by
    intro id hi
    rw [← hk, List.mem_reverse] at hi
    exact h.activeLive id (List.mem_reverse.mp (List.mem_of_mem_take hi))
  apply h.withActive
  intro id hi
  split at hi
  · exact hl id hi
  · rcases List.mem_cons.mp hi with rfl | hi
    · exact ht
    · exact hl id hi

/-! Frames of calls -/

theorem bindParams {env : EnvId} (hi : L.envs env) (ps : List Param) {vs : List Value}
    (hv : ∀ v ∈ vs, v.Within L.objects) :
    Lockstep Agree Same L (bindParams env ps vs m₁) (bindParams env ps vs m₂) := by
  induction ps generalizing vs L m₁ m₂ with
  | nil => exact .ok h rfl
  | cons p ps ih =>
    cases vs with
    | nil => exact .ok h rfl
    | cons v vs =>
      simp only [Memory.bindParams]
      refine (h.declare p.name false hi).bind fun M _ _ m₁ m₂ hl h _ => ?_
      have hv' := (hv v (.head _)).mono hl.2
      refine (h.define p.name false (hl.1 _ hi) hv').bind fun N _ _ m₁ m₂ hl' h _ => ?_
      exact ih h (hl'.1 _ (hl.1 _ hi)) fun w hw => ((hv w (.tail _ hw)).mono hl.2).mono hl'.2

end Agree

/-- Record the call that made a frame. -/
def withCallSite (m : Memory) (env : EnvId) (callSite : Span) : Memory :=
  { m with environments := m.environments.modify env fun e => { e with callSite := some callSite } }

theorem environment?_withCallSite (m : Memory) (env k : EnvId) (callSite : Span) :
    (m.withCallSite env callSite).environment? k =
      if env = k then (m.environment? k).map fun e => { e with callSite := some callSite }
      else m.environment? k := by
  simp only [withCallSite, environment?, Std.ExtTreeMap.getElem?_modify, Std.LawfulEqOrd.compare_eq_iff_eq]
  split
  · next hk =>
    subst hk
    rfl
  · rfl

theorem Agree.withCallSite (h : Agree L m₁ m₂) (env : EnvId) (callSite : Span) :
    Agree L (m₁.withCallSite env callSite) (m₂.withCallSite env callSite) := by
  have hf : ∀ k e, (m₁.withCallSite env callSite).environment? k = some e →
      ∃ e', m₁.environment? k = some e' ∧ e'.tail = e.tail ∧ e'.handles = e.handles := by
    intro k e he
    rw [environment?_withCallSite] at he
    split at he
    · obtain ⟨e', he', rfl⟩ := Option.map_eq_some_iff.mp he
      exact ⟨e', he', rfl, rfl⟩
    · exact ⟨e, he, rfl, rfl⟩
  refine ⟨⟨h.nextEnv, h.nextObject, h.active, ?_, h.contents⟩,
    ⟨?_, ?_, h.closed.closureEnv, h.closed.element⟩, h.global, h.activeLive⟩
  · intro k hk
    simp only [environment?_withCallSite]
    split
    · rcases h.environment?_cases hk with ⟨h₁, h₂⟩ | ⟨e, heap, h₁, h₂⟩
      · simp only [h₁, h₂, Option.map_none]
      · simp only [h₁, h₂, Option.map_some, Environment.core]
    · exact h.frames k hk
  · intro k e t hk he ht
    obtain ⟨e', he', hte, -⟩ := hf k e he
    exact h.closed.tail k e' t hk he' (hte ▸ ht)
  · intro k e o hk he ho
    obtain ⟨e', he', -, hho⟩ := hf k e he
    exact h.closed.handle k e' o hk he' (hho ▸ ho)

/-- Bind a rest parameter to a new list of the arguments it takes. -/
def bindRest (env : EnvId) (rest : Option Param) (extra : List Value) : Op Unit :=
  match rest with
  | some p => do
    let list ← allocIn env (.list extra)
    declare env p.name false
    define env p.name (.list list) false
  | none => pure ()

/-- A frame for a call is made, then filled. -/
theorem createFrame_eq (c : Closure) (args : List Value) (callSite : Span) (m : Memory) :
    createFrame c args callSite m =
      (bindParams ⟨m.nextEnv⟩ c.func.required args >>= fun _ =>
        bindRest ⟨m.nextEnv⟩ c.func.rest? (args.drop c.func.required.length) >>= fun _ =>
          pure ⟨m.nextEnv⟩)
        ((m.create c.displayName (some c.env)).2.withCallSite ⟨m.nextEnv⟩ callSite) := by
  simp only [createFrame, bindRest]
  cases c.func.rest? with
  | none => rfl
  | some p =>
    simp only [bind_assoc]
    rfl

namespace Agree

theorem bindRest (h : Agree L m₁ m₂) {env : EnvId} (hi : L.envs env) (rest : Option Param)
    {extra : List Value} (he : ∀ v ∈ extra, v.Within L.objects) :
    Lockstep Agree Same L (bindRest env rest extra m₁) (bindRest env rest extra m₂) := by
  cases rest with
  | none => exact .ok h rfl
  | some p =>
    simp only [Memory.bindRest]
    refine (h.allocIn hi (Content.within_list he)).bind fun M list _ m₁ m₂ hl h hlist => ?_
    obtain ⟨rfl, hlist⟩ := hlist
    refine (h.declare p.name false (hl.1 _ hi)).bind fun N _ _ m₁ m₂ hl' h _ => ?_
    refine h.define p.name false (hl'.1 _ (hl.1 _ hi)) fun id hid => ?_
    obtain rfl := Option.some.inj hid
    exact hl'.2 _ hlist

theorem createFrame (h : Agree L m₁ m₂) {c : Closure} {args : List Value} (callSite : Span)
    (hc : L.envs c.env) (ha : ∀ v ∈ args, v.Within L.objects) :
    Lockstep Agree (fun M id id' => id = id' ∧ M.envs id) L (createFrame c args callSite m₁)
      (createFrame c args callSite m₂) := by
  have hid : (⟨m₁.nextEnv⟩ : EnvId) = ⟨m₂.nextEnv⟩ := congrArg EnvId.mk h.nextEnv
  have htail : ∀ t, some c.env = some t → L.envs t := fun t ht => Option.some.inj ht ▸ hc
  obtain ⟨-, hm⟩ := h.create c.displayName htail
  have hl : L ≤ L.addEnv ⟨m₁.nextEnv⟩ := L.le_addEnv _
  have ha' : ∀ v ∈ args, v.Within (L.addEnv ⟨m₁.nextEnv⟩).objects := fun v hv => (ha v hv).mono hl.2
  rw [createFrame_eq, createFrame_eq, ← hid]
  refine Lockstep.weaken (M := L.addEnv ⟨m₁.nextEnv⟩) ?_ hl
  refine ((hm.withCallSite _ callSite).bindParams (.inl rfl) _ ha').bind fun M _ _ m₁' m₂' hm h _ => ?_
  have he : ∀ v ∈ args.drop c.func.required.length, v.Within M.objects := fun v hv =>
    (ha' v (List.mem_of_mem_drop hv)).mono hm.2
  refine (h.bindRest (hm.1 _ (.inl rfl)) _ he).bind fun N _ _ m₁' m₂' hn h _ => ?_
  exact .ok h ⟨rfl, hn.1 _ (hm.1 _ (.inl rfl))⟩

end Agree
end Memory
end CseMachine
