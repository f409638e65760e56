import CseMachine.Proofs.Memory.Totality
import CseMachine.Proofs.Reference

/-!
# Worlds that mirror memories

A world mirrors a memory if its frames have the same names bound to the same
values, enclose one another as tails lead, and its objects have the same content.
Looking up, binding and allocating on both sides keeps it so.
-/
namespace CseMachine.Reference

variable {m m' : Memory} {w : World} {run : RunId} {env id : EnvId} {e : Environment} {name : String}

namespace World

/-- The frame itself, else those around it. -/
theorem find?_eq (w : World) (env : EnvId) (name : String) :
    w.find? env name = match (w.frame env).names.lookup name with
      | some slot => some (env, slot)
      | none => (w.frame env).outer.findSome? fun id => ((w.frame id).names.lookup name).map (id, ·) := by
  simp only [find?, outward]
  rw [List.findSome?_cons]
  cases (w.frame env).names.lookup name <;> rfl

theorem frame_update {f : List (String × Slot) → List (String × Slot)} (h : env.index < w.frames.length)
    (id : EnvId) : (w.update env f).frame id =
      if env = id then { w.frame env with names := f (w.frame env).names } else w.frame id := by
  simp only [update, frame]
  rw [List.getD_eq_getElem?_getD, List.getElem?_modify]
  by_cases hid : env = id
  · subst hid
    rw [if_pos rfl, List.getD_eq_getElem?_getD, List.getElem?_eq_getElem h]
    simp
  · have hne : env.index ≠ id.index := by
      intro hi
      cases env
      cases id
      simp_all
    rw [if_neg hid, List.getD_eq_getElem?_getD]
    simp [hne]

theorem frame_append (frame : Frame) (id : EnvId) :
    ({ w with frames := w.frames ++ [frame] } : World).frame id =
      if id.index = w.frames.length then frame else w.frame id := by
  simp only [World.frame]
  simp only [List.getD_eq_getElem?_getD, List.getElem?_append]
  split
  · next hlt => rw [if_neg (Nat.ne_of_lt hlt)]
  · next hge =>
    split
    · next heq => simp [heq]
    · next hne =>
      rw [List.getElem?_eq_none (Nat.le_of_not_lt hge), List.getElem?_eq_none]
      simp only [List.length_singleton]
      omega

end World

structure Mirror (m : Memory) (w : World) : Prop where
  length : w.frames.length = m.nextEnv
  names : ∀ id e, m.environment? id = some e → (w.frame id).names = e.bindings
  root : ∀ id e, m.environment? id = some e → e.tail = none → (w.frame id).outer = []
  tail : ∀ id e t, m.environment? id = some e → e.tail = some t → (w.frame id).outer = w.outward t
  next : w.store.next = m.store.next
  contents : ∀ id, (w.store.get? id).map Object.content = (m.store.get? id).map Object.content

namespace Mirror

variable (h : Mirror m w)
include h

/-- The stores answer alike. -/
theorem stores : w.store.Alike (fun _ => True) m.store :=
  ⟨h.next, fun id _ => h.contents id, fun _ _ _ _ _ _ _ _ => trivial⟩

/-- Looking outwards frame by frame finds what following the tails finds. -/
theorem find?_eq_resolveFrom (hs : m.Sound run) (name : String) {steps : Nat}
    (hi : id.index < m.nextEnv) (hsteps : id.index < steps) :
    w.find? id name = match m.resolveFrom name steps id with
      | .found env _ slot => some (env, slot)
      | _ => none := by
  induction steps generalizing id with
  | zero => exact absurd hsteps (Nat.not_lt_zero _)
  | succ steps ih =>
    obtain ⟨e, he⟩ := hs.environment hi
    rw [World.find?_eq, h.names id e he]
    simp only [Memory.resolveFrom, he, Environment.lookup?]
    cases e.bindings.lookup name with
    | some slot => rfl
    | none =>
      cases ht : e.tail with
      | none =>
        rw [h.root id e he ht]
        rfl
      | some t =>
        have hlt := hs.tail id e t he ht
        rw [h.tail id e t he ht]
        exact ih (Nat.lt_trans hlt hi) (Nat.lt_of_lt_of_le hlt (Nat.le_of_lt_succ hsteps))

theorem find?_eq_resolve (hs : m.Sound run) (name : String) :
    w.find? m.current name = match m.resolve name with
      | .found env _ slot => some (env, slot)
      | _ => none :=
  h.find?_eq_resolveFrom hs name hs.current_present (Nat.lt_succ_of_lt hs.current_present)

theorem lookup_eq (hs : m.Sound run) (span : Span) (name : String) :
    lookup span m.current name w = ofExcept span (m.get name) w := by
  rw [lookup, get_bind, h.find?_eq_resolve hs name]
  simp only [Memory.get]
  cases m.resolve name with
  | found env e slot =>
    obtain ⟨value, constant⟩ := slot
    cases value <;> rfl
  | absent => rfl
  | broken env => rfl

/-- What evaluation cannot see does not matter. -/
theorem congr (ha : Memory.AgreeOn .all m m') : Mirror m' w := by
  have hf : ∀ {id e}, m'.environment? id = some e → ∃ heap, m.environment? id = some { e with heap } :=
    fun he => ha.symm.environment?_some trivial he
  refine ⟨h.length.trans ha.nextEnv, fun id e he => ?_, fun id e he ht => ?_, fun id e t he ht => ?_,
    h.next.trans ha.nextObject, fun id => (h.contents id).trans (ha.contents id trivial)⟩
  · obtain ⟨heap, he'⟩ := hf he
    exact (h.names id _ he').trans rfl
  · obtain ⟨heap, he'⟩ := hf he
    exact (h.root id _ he' ht).trans rfl
  · obtain ⟨heap, he'⟩ := hf he
    exact h.tail id _ t he' ht

theorem withActive (active : List EnvId) : Mirror { m with active } w :=
  ⟨h.length, h.names, h.root, h.tail, h.next, h.contents⟩

theorem withOutput (output : String) : Mirror m { w with output } :=
  ⟨h.length, h.names, h.root, h.tail, h.next, h.contents⟩

/-- A frame with other bindings. -/
theorem update (hs : m.Sound run) {f : List (String × Slot) → List (String × Slot)} {e' : Environment}
    (he : m.environment? env = some e) (ht : e'.tail = e.tail) (hb : e'.bindings = f e.bindings) :
    Mirror (m.setEnvironment env e') (w.update env f) := by
  have hlt : env.index < w.frames.length := h.length ▸ hs.index_lt he
  have houter : ∀ id, ((w.update env f).frame id).outer = (w.frame id).outer := by
    intro id
    rw [World.frame_update hlt]
    split
    · next hid => rw [hid]
    · rfl
  refine ⟨?_, fun id g hg => ?_, fun id g hg hgt => ?_, fun id g t hg hgt => ?_, h.next, h.contents⟩
  · exact (List.length_modify ..).trans h.length
  · rw [World.frame_update hlt]
    rw [Memory.environment?_setEnvironment] at hg
    split at hg
    · next hid =>
      cases hg
      rw [if_pos hid, h.names env e he, hb]
    · next hid =>
      rw [if_neg hid]
      exact h.names id g hg
  · rw [houter]
    rw [Memory.environment?_setEnvironment] at hg
    split at hg
    · next hid =>
      cases hg
      exact hid ▸ h.root env e he (ht ▸ hgt)
    · exact h.root id g hg hgt
  · rw [houter, World.outward, houter]
    rw [Memory.environment?_setEnvironment] at hg
    split at hg
    · next hid =>
      cases hg
      exact hid ▸ h.tail env e t he (ht ▸ hgt)
    · exact h.tail id g t hg hgt

/-- A new object. -/
theorem stored (owner owner' : EnvId) (content : Content) :
    Mirror (m.stored owner content) { w with store := (w.store.alloc owner' content).2 } := by
  refine ⟨h.length, h.names, h.root, h.tail, ?_, fun id => ?_⟩
  · show w.store.next + 1 = m.store.next + 1
    rw [h.next]
  · show ((w.store.alloc owner' content).2.get? id).map _ = ((m.store.alloc owner content).2.get? id).map _
    rw [Memory.get?_alloc, Memory.get?_alloc, h.next]
    split
    · rfl
    · exact h.contents id

/-- A new frame inside frames that exist. -/
theorem adopt (hs : m.Sound run) {tail : EnvId} (ht : e.tail = some tail) (hlt : tail.index < m.nextEnv) :
    Mirror (m.adopt e) { w with frames := w.frames ++ [⟨w.outward tail, e.bindings⟩] } := by
  have hframe : ∀ id : EnvId, id.index < m.nextEnv →
      ({ w with frames := w.frames ++ [⟨w.outward tail, e.bindings⟩] } : World).frame id = w.frame id := by
    intro id hi
    rw [World.frame_append, if_neg]
    rw [h.length]
    exact Nat.ne_of_lt hi
  have hnew : ({ w with frames := w.frames ++ [⟨w.outward tail, e.bindings⟩] } : World).frame ⟨m.nextEnv⟩ =
      ⟨w.outward tail, e.bindings⟩ := by
    rw [World.frame_append, if_pos h.length.symm]
  have hout : ∀ id : EnvId, id.index < m.nextEnv →
      ({ w with frames := w.frames ++ [⟨w.outward tail, e.bindings⟩] } : World).outward id = w.outward id := by
    intro id hi
    rw [World.outward, hframe id hi, World.outward]
  refine ⟨?_, fun id g hg => ?_, fun id g hg hgt => ?_, fun id g t hg hgt => ?_, h.next, h.contents⟩
  · rw [List.length_append, h.length]
    rfl
  · rw [Memory.environment?_adopt] at hg
    split at hg
    · next hid =>
      cases hg
      rw [← hid, hnew]
    · rw [hframe id (hs.index_lt hg)]
      exact h.names id g hg
  · rw [Memory.environment?_adopt] at hg
    split at hg
    · cases hg
      cases ht.symm.trans hgt
    · rw [hframe id (hs.index_lt hg)]
      exact h.root id g hg hgt
  · rw [Memory.environment?_adopt] at hg
    split at hg
    · next hid =>
      cases hg
      obtain rfl := Option.some.inj (ht.symm.trans hgt)
      rw [← hid, hnew, hout tail hlt]
    · have hi := hs.index_lt hg
      rw [hframe id hi, hout t (Nat.lt_trans (hs.tail id g t hg hgt) hi)]
      exact h.tail id g t hg hgt

/-- A closure gets its name. -/
theorem nameClosure (id : ObjId) (name : String) :
    Mirror { m with store := m.store.nameClosure id name } { w with store := w.store.nameClosure id name } := by
  refine ⟨h.length, h.names, h.root, h.tail, h.next, fun k => ?_⟩
  show ((w.store.nameClosure id name).get? k).map _ = ((m.store.nameClosure id name).get? k).map _
  rw [Memory.get?_nameClosure, Memory.get?_nameClosure]
  rcases Store.get?_cases (h.contents k) with ⟨hw, hm⟩ | ⟨owner, owner', content, hw, hm⟩
  · rw [hw, hm]
  · rw [hw, hm]
    cases content <;> by_cases hid : id = k <;> simp [hid]

end Mirror
end CseMachine.Reference
