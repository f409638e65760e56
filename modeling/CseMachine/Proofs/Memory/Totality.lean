import CseMachine.Proofs.Memory.Soundness

/-!
# Operations on sound memories

In a sound memory the operations that items use succeed or fail regularly: what
they leave is sound, and environments stay active. A value that they give
resolves.
-/
namespace CseMachine

theorem Value.resolves_of_no_handle {s : Store} {w : Value} (h : w.objectId? = .none) : w.Resolves s := by
  cases w with
  | closure id => cases h
  | list id => cases h
  | _ => trivial

namespace Memory

variable {run : RunId} {m : Memory} {name : String}

/-! Names -/

theorem resolveFrom_found {steps : Nat} {id env : EnvId} {e : Environment} {slot : Slot}
    (h : m.resolveFrom name steps id = .found env e slot) :
    m.environment? env = some e ∧ e.lookup? name = some slot := by
  induction steps generalizing id with
  | zero => cases h
  | succ steps ih =>
    simp only [resolveFrom] at h
    split at h
    · cases h
    · next e' he =>
      split at h
      · next slot' hs =>
        cases h
        exact ⟨he, hs⟩
      · split at h
        · exact ih h
        · cases h

theorem get_plain (m : Memory) (name : String) : FailsPlainly (m.get name) := by
  simp only [get]
  split
  · exact .ok
  · exact .fail trivial
  · exact .fail trivial
  · exact .fail trivial

/-! Left environments -/

theorem dropWhile_eq_cons {target : EnvId} {active : List EnvId} (h : target ∈ active) :
    ∃ below, active.dropWhile (· ≠ target) = target :: below := by
  induction active with
  | nil => cases h
  | cons id rest ih =>
    rw [List.dropWhile_cons]
    split
    · next hne =>
      have hid : id ≠ target := by simpa using hne
      exact ih ((List.mem_cons.mp h).resolve_left hid.symm)
    · next heq =>
      obtain rfl : id = target := by simpa using heq
      exact ⟨rest, rfl⟩

theorem restore_ok {target : EnvId} (h : target ∈ m.active) :
    Memory.restore target m =
      .ok (m.active.takeWhile (· ≠ target)) { m with active := m.active.dropWhile (· ≠ target) } := by
  simp only [Memory.restore]
  rw [if_pos (List.contains_iff_mem.mpr h)]

/-! The frame of a call -/

section

variable (c : Closure) (args : List Value) (callSite : Span)

theorem withRest_core (m : Memory) :
    (m.withRest c args).nextEnv = m.nextEnv ∧ (m.withRest c args).active = m.active := by
  simp only [withRest]
  cases c.func.rest? <;> exact ⟨rfl, rfl⟩

theorem framed_active (m : Memory) : (m.framed c args callSite).active = m.active :=
  (withRest_core c args m).2

theorem environment?_framed (m : Memory) : (m.framed c args callSite).environment? ⟨m.nextEnv⟩ =
    some ((c.bareFrame callSite).extend (c.callBindings args ⟨m.store.next⟩)) := by
  have hn := (withRest_core c args m).1
  simp only [framed]
  rw [← hn]
  exact environment?_adopt_self _ _

end

/-- A call binds no names but those of parameters. -/
theorem lookup_callBindings_eq_none {c : Closure} {x : String} (args : List Value) (rest : ObjId)
    (h : x ∉ c.func.params.map (·.name)) : (c.callBindings args rest).lookup x = none := by
  rw [← c.func.required_append_rest, List.map_append, List.mem_append, not_or] at h
  simp only [Closure.callBindings]
  rw [List.lookup_append, lookup_argumentBindings_eq_none args h.1, Option.none_or]
  refine List.lookup_eq_none_iff.mpr fun b hb => ?_
  obtain ⟨p, hp, rfl⟩ := List.mem_map.mp hb
  apply bne_iff_ne.mpr
  rintro rfl
  exact h.2 (List.mem_map_of_mem hp)

namespace Sound

variable (h : m.Sound run)
include h

/-- The way outwards stays among environments that exist. -/
theorem resolveFrom_ne_broken {steps : Nat} {id : EnvId} (hi : id.index < m.nextEnv) (env : EnvId) :
    m.resolveFrom name steps id ≠ .broken env := by
  induction steps generalizing id with
  | zero => simp [resolveFrom]
  | succ steps ih =>
    obtain ⟨e, he⟩ := h.environment hi
    simp only [resolveFrom, he]
    split
    · simp
    · split
      · next t ht => exact ih (Nat.lt_trans (h.tail id e t he ht) hi)
      · simp

theorem get_resolves {w : Value} (hw : m.get name = .ok w) : w.Resolves m.store := by
  simp only [get] at hw
  split at hw
  · next env e value constant hr =>
    obtain rfl := Except.ok.inj hw
    obtain ⟨he, hs⟩ := resolveFrom_found hr
    exact h.bound env e name _ constant he hs
  all_goals cases hw

theorem subscript_resolves {x y w : Value} (hx : x.Resolves m.store) (hw : x.subscript m.store y = .ok w) :
    w.Resolves m.store :=
  Value.subscript_all (Q := (·.Resolves m.store)) (fun id items _ => h.element id items)
    (fun _ => Value.resolves_of_no_handle) hx hw

theorem call_resolves {f : Builtin} {args : List Value} {w : Value} (ha : ∀ x ∈ args, x.Resolves m.store)
    (hw : f.call m.store args = .ok w) : w.Resolves m.store :=
  Builtin.call_all (Q := (·.Resolves m.store)) (fun id items _ => h.element id items)
    (fun _ => Value.resolves_of_no_handle) ha hw

/-- A frame in which a name gets a value that resolves. -/
theorem setSlot (name : String) (constant : Bool) {env : EnvId} {e : Environment} {w : Value}
    (he : m.environment? env = some e) (hw : w.Resolves m.store) :
    (m.setEnvironment env (e.setSlot name ⟨some w, constant⟩)).Sound run ∧
      m.Grows (m.setEnvironment env (e.setSlot name ⟨some w, constant⟩)) := by
  refine h.setEnvironment he rfl (fun x v k hx => ?_) fun x hx => ?_
  · rw [Environment.lookup?_setSlot] at hx
    split at hx
    · obtain ⟨_, _, hv⟩ := Option.map_eq_some_iff.mp hx
      cases hv
      exact hw
    · exact h.bound env e x v k he hx
  · rw [Environment.lookup?_setSlot]
    split
    · rwa [Option.isSome_map]
    · exact hx

/-- Binding a name works if the current frame has it or the nearest binding is no constant. -/
theorem bindName {w : Value} (hw : w.Resolves m.store) (constant : Bool) {declaration : Bool}
    (hd : declaration = true → ∃ e, m.environment? m.current = some e ∧ (e.lookup? name).isSome) :
    (∃ m', Memory.bindName name w constant declaration m = .ok () m' ∧ m'.Sound run ∧ m.Grows m' ∧
      m'.active = m.active) ∨
    ∃ e, Memory.bindName name w constant declaration m = .error e m ∧ e.cause.Regular := by
  simp only [Memory.bindName]
  by_cases hdecl : declaration = true
  · obtain ⟨e, he, hx⟩ := hd hdecl
    obtain ⟨hs, hg⟩ := h.setSlot name constant he hw
    rw [if_pos hdecl, define_ok he hx]
    exact .inl ⟨_, rfl, hs, hg, rfl⟩
  · rw [if_neg hdecl]
    simp only [Memory.assign]
    cases hr : m.resolve name with
    | found env e slot =>
      dsimp only
      cases slot.constant with
      | true => exact .inr ⟨_, rfl, trivial⟩
      | false =>
        obtain ⟨hs, hg⟩ := h.setSlot name false (resolveFrom_found hr).1 hw
        exact .inl ⟨_, rfl, hs, hg, rfl⟩
    | absent => exact .inr ⟨_, rfl, trivial⟩
    | broken env => exact absurd hr (h.resolveFrom_ne_broken h.current_present env)

/-! Objects -/

/-- A new object in the current environment. -/
theorem alloc (content : Content) (hl : ∀ items, content = .list items → ∀ w ∈ items, w.Resolves m.store)
    (hc : ∀ c, content = .closure c → c.env.index < m.nextEnv ∧ c.run = run ∧ c.func.Scoped) :
    ∃ m', Memory.alloc content m = .ok ⟨m.store.next⟩ m' ∧ AgreeOn .all (m.stored m.current content) m' ∧
      m'.Sound run ∧ m.Grows m' := by
  obtain ⟨e, he⟩ := h.environment h.current_present
  obtain ⟨m', hm, ha⟩ := allocIn_ok he content
  obtain ⟨hs, hg⟩ := h.stored m.current hl hc
  obtain ⟨hs', hg'⟩ := hs.congr ha
  exact ⟨m', hm, ha, hs', hg.trans hg'⟩

/-! Frames -/

/-- Names that are declared in a frame. -/
theorem extend {env : EnvId} {e : Environment} {slots : List (String × Slot)}
    (he : m.environment? env = some e) (hb : ∀ b ∈ slots, b.2.value = none) :
    (m.setEnvironment env (e.extend slots)).Sound run ∧ m.Grows (m.setEnvironment env (e.extend slots)) := by
  refine h.setEnvironment he rfl (fun x w constant hx => ?_) fun x hx => ?_
  · rw [Environment.lookup?_extend] at hx
    cases hl : e.lookup? x with
    | some slot =>
      rw [hl] at hx
      obtain rfl := Option.some.inj hx
      exact h.bound env e x w constant he hl
    | none =>
      rw [hl, Option.none_or] at hx
      obtain ⟨before, after, hmem, -⟩ := List.lookup_eq_some_iff.mp hx
      cases hb _ (hmem ▸ List.mem_append_right before (.head after))
  · rw [Environment.lookup?_extend]
    simp [hx]

/-- The list of a rest parameter. -/
theorem withRest (c : Closure) {args : List Value} (ha : ∀ w ∈ args, w.Resolves m.store) :
    (m.withRest c args).Sound run ∧ m.Grows (m.withRest c args) ∧
      (c.func.rest?.isSome → (Value.list ⟨m.store.next⟩).Resolves (m.withRest c args).store) := by
  simp only [Memory.withRest]
  cases c.func.rest? with
  | none => exact ⟨h, .refl m, by simp⟩
  | some p =>
    have hl : ∀ items, Content.list (args.drop c.func.required.length) = .list items →
        ∀ w ∈ items, w.Resolves m.store := by
      intro items hi w hw
      cases hi
      exact ha w (List.mem_of_mem_drop hw)
    obtain ⟨hs, hg⟩ := h.stored ⟨m.nextEnv⟩ hl (by simp)
    refine ⟨hs, hg, fun _ => ?_⟩
    have hget := get?_alloc m.store ⟨m.nextEnv⟩ (.list (args.drop c.func.required.length)) ⟨m.store.next⟩
    rw [if_pos rfl] at hget
    exact Option.isSome_iff_exists.mpr ⟨_, Store.list?_eq_some.mpr ⟨_, hget⟩⟩

/-- The frame of a call. -/
theorem framed {c : Closure} {args : List Value} (callSite : Span) (hc : c.env.index < m.nextEnv)
    (ha : ∀ w ∈ args, w.Resolves m.store) :
    (m.framed c args callSite).Sound run ∧ m.Grows (m.framed c args callSite) := by
  obtain ⟨hs, hg, hlist⟩ := h.withRest c ha
  have hadopt := hs.adopt (e := (c.bareFrame callSite).extend (c.callBindings args ⟨m.store.next⟩))
    (fun t ht => Option.some.inj ht ▸ Nat.lt_of_lt_of_le hc hg.nextEnv) fun x w constant hx => ?_
  · exact ⟨hadopt.1, hg.trans hadopt.2⟩
  · have hl : (c.callBindings args ⟨m.store.next⟩).lookup x = some ⟨some w, constant⟩ := hx
    obtain ⟨before, after, hmem, -⟩ := List.lookup_eq_some_iff.mp hl
    have hin : (x, ⟨some w, constant⟩) ∈ c.callBindings args ⟨m.store.next⟩ :=
      hmem ▸ List.mem_append_right before (.head after)
    rcases List.mem_append.mp hin with hin | hin
    · obtain ⟨⟨p, v⟩, hp, hv⟩ := List.mem_map.mp hin
      cases hv
      exact (ha w (List.of_mem_zip hp).2).mono hg.store
    · obtain ⟨p, hp, hv⟩ := List.mem_map.mp hin
      cases hv
      exact hlist (Option.isSome_iff_exists.mpr ⟨p, Option.mem_toList.mp hp⟩)

/-- A call of a closure gets its frame, which has no names but those of parameters. -/
theorem createFrame {c : Closure} {args : List Value} (callSite : Span)
    (hd : (c.func.params.map (·.name)).Nodup) (hc : c.env.index < m.nextEnv)
    (ha : ∀ w ∈ args, w.Resolves m.store) :
    ∃ m' e, Memory.createFrame c args callSite m = .ok ⟨m.nextEnv⟩ m' ∧ (m'.push ⟨m.nextEnv⟩).Sound run ∧
      m.Grows (m'.push ⟨m.nextEnv⟩) ∧ m'.active = m.active ∧ m'.environment? ⟨m.nextEnv⟩ = some e ∧
      ∀ x ∉ c.func.params.map (·.name), e.lookup? x = none := by
  obtain ⟨m', hm, hagree⟩ := createFrame_ok (m := m) hd args callSite
  obtain ⟨hs, hg⟩ := h.framed callSite hc ha
  obtain ⟨hs', hg'⟩ := hs.congr hagree
  have hframe := environment?_framed c args callSite m
  obtain ⟨heap, he⟩ := hagree.environment?_some trivial hframe
  have hpresent : ∀ id ∈ (⟨m.nextEnv⟩ : EnvId) :: m'.active, id.index < m'.nextEnv := by
    intro id hi
    rcases List.mem_cons.mp hi with rfl | hi
    · exact hs'.index_lt he
    · exact hs'.activePresent id hi
  obtain ⟨hs'', hg''⟩ := hs'.withActive _ (List.cons_ne_nil _ _) hpresent
  refine ⟨m', _, hm, hs'', (hg.trans hg').trans hg'', ?_, he, fun x hx => ?_⟩
  · rw [← hagree.active, framed_active]
  · exact lookup_callBindings_eq_none args _ hx

end Sound
end Memory
end CseMachine
