import CseMachine.Proofs.Control
import CseMachine.Proofs.Memory.Soundness

/-!
# Control that fits the Stash

Each item takes values from the Stash and leaves some there, runs in a frame that
declares the names it declares a value for, and may return only where a marker
lies below it. Control fits a Stash if this works out for its items in turn and
one value is left at the end.
-/
namespace CseMachine

/-- The name is one of the frame; nothing is if it is not known which frame this is. -/
def Memory.Declares (m : Memory) (env : Option EnvId) (x : String) : Prop :=
  ∃ id e, env = some id ∧ m.environment? id = some e ∧ (e.lookup? x).isSome

theorem Memory.Declares.mono {m m' : Memory} (hg : m.Grows m') {env : Option EnvId} {x : String}
    (h : m.Declares env x) : m'.Declares env x := by
  obtain ⟨id, e, he, hf, hx⟩ := h
  obtain ⟨e', hf', _, hl⟩ := hg.frame id e hf
  exact ⟨id, e', he, hf', hl x hx⟩

theorem Memory.not_declares_none {m : Memory} {x : String} : ¬m.Declares none x :=
  fun ⟨_, _, h, _⟩ => nomatch h

namespace Instr

/-- Number of values taken from the Stash. -/
def takes : Instr → Nat
  | .pop | .assignment .. | .unary _ | .branch .. => 1
  | .binary _ | .subscript => 2
  | .application count => count + 1
  | .list count => count
  | .restore _ | .marker | .reset => 0

/-- Number of values left in their place, at once or by what takes the place of the instruction. -/
def gives : Instr → Nat
  | .pop | .restore _ | .marker | .reset => 0
  | _ => 1

def Scoped (names : String → Prop) (returns : Prop) : Instr → Prop
  | .assignment name _ declaration => declaration = true → names name
  | .branch yes no => yes.Scoped names returns true ∧ OptionScoped names returns true no
  | _ => True

variable {names names' : String → Prop} {returns returns' : Prop} {i : Instr}

theorem Scoped.mono (hn : ∀ x, names x → names' x) (hr : returns → returns') (h : i.Scoped names returns) :
    i.Scoped names' returns' := by
  cases i with
  | assignment name constant declaration => exact fun hd => hn name (h hd)
  | branch yes no => exact ⟨h.1.mono hn hr id, h.2.mono hn hr id⟩
  | _ => trivial

theorem Scoped.forget (hd : i.isEnvDependent = false) (h : i.Scoped names returns) :
    i.Scoped names' returns := by
  cases i with
  | assignment => cases hd
  | branch yes no =>
    simp only [isEnvDependent, Bool.or_eq_false_iff, ← optionEnvDependent_eq_any] at hd
    exact ⟨h.1.forget hd.1, h.2.forget hd.2⟩
  | _ => trivial

end Instr

/-- The items run on a Stash of this height in the given frame, if the frame matters, and one value is
left. A return is taken at the height `ret`. -/
def Fits (m : Memory) : Option Nat → Option EnvId → Nat → List Item → Prop
  | ret, _, height, [] => ret = none ∧ height = 1
  | ret, env, height, .node n skip :: rest =>
    n.Scoped (m.Declares env) (ret = some (height + 1)) skip ∧ Fits m ret env (height + 1) rest
  | ret, _, height, .instr .marker _ :: rest => ret = some height ∧ ∃ ret', Fits m ret' none height rest
  | ret, env, height, .instr .reset _ :: rest => ret = some height ∧ Fits m ret env height rest
  | ret, _, height, .instr (.restore target) _ :: rest => Fits m ret (some target) height rest
  | ret, env, height, .instr i _ :: rest => ∃ base, height = base + i.takes ∧
    i.Scoped (m.Declares env) (ret = some (base + 1)) ∧ Fits m ret env (base + i.gives) rest

namespace Fits

variable {m m' : Memory} {ret : Option Nat} {env env' : Option EnvId} {height : Nat} {item : Item}
  {items rest rest' : List Item}

/-- What lies below an item may be replaced. -/
theorem cons_imp (hr : ∀ ret env height, Fits m ret env height rest → Fits m ret env height rest')
    (h : Fits m ret env height (item :: rest)) : Fits m ret env height (item :: rest') := by
  rcases item with ⟨n, skip⟩ | ⟨i, span⟩
  · exact ⟨h.1, hr _ _ _ h.2⟩
  · cases i with
    | marker =>
      obtain ⟨hret, ret', hf⟩ := h
      exact ⟨hret, ret', hr _ _ _ hf⟩
    | reset => exact ⟨h.1, hr _ _ _ h.2⟩
    | restore target => exact hr ret (some target) height h
    | _ =>
      obtain ⟨base, hb, hs, hf⟩ := h
      exact ⟨base, hb, hs, hr _ _ _ hf⟩

/-- More names do no harm. -/
theorem imp (hg : ∀ t x, m.Declares (some t) x → m'.Declares (some t) x)
    (hn : ∀ x, m.Declares env x → m'.Declares env' x) (h : Fits m ret env height items) :
    Fits m' ret env' height items := by
  induction items generalizing ret env env' height with
  | nil => exact h
  | cons item rest ih =>
    rcases item with ⟨n, skip⟩ | ⟨i, span⟩
    · exact ⟨h.1.mono hn id id, ih hn h.2⟩
    · cases i with
      | marker =>
        obtain ⟨hret, ret', hf⟩ := h
        exact ⟨hret, ret', ih (fun x hx => (Memory.not_declares_none hx).elim) hf⟩
      | reset => exact ⟨h.1, ih hn h.2⟩
      | restore target =>
        have hf : Fits m ret (some target) height rest := h
        exact ih (hg target) hf
      | _ =>
        obtain ⟨base, hb, hs, hf⟩ := h
        exact ⟨base, hb, hs.mono hn id, ih hn hf⟩

theorem mono (hg : m.Grows m') (h : Fits m ret env height items) : Fits m' ret env height items :=
  h.imp (fun _ _ hx => hx.mono hg) fun _ hx => hx.mono hg

/-- Items that run anywhere run here. -/
theorem here (h : Fits m ret none height items) : Fits m ret env height items :=
  h.imp (fun _ _ hx => hx) fun _ hx => (Memory.not_declares_none hx).elim

/-- Items that do not look at the environment run anywhere. -/
theorem forget (hd : ¬Control.Cares items) (h : Fits m ret env height items) :
    Fits m ret none height items := by
  induction items generalizing ret env height with
  | nil => exact h
  | cons item rest ih =>
    have hitem : item.isRestore = false → item.isEnvDependent = false := fun hr =>
      Bool.eq_false_iff.mpr fun hi => hd ⟨hr, .inl hi⟩
    have hrest : item.isRestore = false → ¬Control.Cares rest := fun hr hc => hd ⟨hr, .inr hc⟩
    rcases item with ⟨n, skip⟩ | ⟨i, span⟩
    · exact ⟨h.1.forget (hitem rfl), ih (hrest rfl) h.2⟩
    · cases i with
      | marker => exact h
      | reset => exact ⟨h.1, ih (hrest rfl) h.2⟩
      | restore target => exact h
      | _ =>
        obtain ⟨base, hb, hs, hf⟩ := h
        exact ⟨base, hb, hs.forget (hitem rfl), ih (hrest rfl) hf⟩

/-- Giving up the rest of a call leads below its marker. -/
theorem belowMarker {r : Nat} (h : Fits m (some r) env height items) :
    ∃ ret', Fits m ret' none r (Control.belowMarker items) := by
  induction items generalizing env height with
  | nil => cases h.1
  | cons item rest ih =>
    rcases item with ⟨n, skip⟩ | ⟨i, span⟩
    · exact ih h.2
    · cases i with
      | marker =>
        obtain ⟨hret, hf⟩ := h
        obtain rfl := Option.some.inj hret
        exact hf
      | reset => exact ih h.2
      | restore target =>
        have hf : Fits m (some r) (some target) height rest := h
        exact ih hf
      | _ =>
        obtain ⟨_, _, _, hf⟩ := h
        exact ih hf

/-- A block that declares nothing may be pushed as a sequence. -/
theorem shape (v : Variant) (h : Fits m ret env height (item :: rest)) :
    Fits m ret env height (v.shape item :: rest) := by
  simp only [Variant.shape]
  split
  · simp only [Item.flatten]
    split
    · exact ⟨h.1.2.2, h.2⟩
    · exact h
  · exact h

theorem shapes (v : Variant) (h : Fits m ret env height (items ++ rest)) :
    Fits m ret env height (items.map v.shape ++ rest) := by
  induction items generalizing ret env height with
  | nil => exact h
  | cons item items ih => exact (cons_imp (fun _ _ _ hf => ih hf) h).shape v

/-! What takes the place of a node -/

theorem operands {nodes : List Node} (hs : AllScoped (m.Declares env) False nodes)
    (h : Fits m ret env (height + nodes.length) rest) :
    Fits m ret env height (Node.operands nodes ++ rest) := by
  induction nodes generalizing height with
  | nil => exact h
  | cons n nodes ih =>
    refine ⟨hs.1.mono (fun _ hx => hx) False.elim id, ih hs.2 ?_⟩
    rw [List.length_cons] at h
    rwa [Nat.add_assoc, Nat.add_comm 1]

theorem operand {n : Node} (hs : n.Scoped (m.Declares env) False false)
    (h : Fits m ret env (height + 1) rest) : Fits m ret env height (Node.operands [n] ++ rest) :=
  ⟨hs.mono (fun _ hx => hx) False.elim id, h⟩

theorem operandPair {a b : Node} (ha : a.Scoped (m.Declares env) False false)
    (hb : b.Scoped (m.Declares env) False false) (h : Fits m ret env (height + 2) rest) :
    Fits m ret env height (Node.operands [a, b] ++ rest) :=
  operand ha (operand hb h)

theorem statementItems {body : List Node} (hn : body ≠ [])
    (hs : AllScoped (m.Declares env) (ret = some (height + 1)) body)
    (h : Fits m ret env (height + 1) rest) :
    Fits m ret env height (Node.statementItems body ++ rest) := by
  induction body with
  | nil => exact absurd rfl hn
  | cons first body ih =>
    cases body with
    | nil => exact ⟨hs.1, h⟩
    | cons second body => exact ⟨hs.1, height, rfl, trivial, ih (List.cons_ne_nil _ _) hs.2⟩

/-- A well-scoped node may be replaced by its parts. -/
theorem parts {n : Node} {skip : Bool} (hp : n.parts? = some items)
    (h : Fits m ret env height (.node n skip :: rest)) : Fits m ret env height (items ++ rest) := by
  obtain ⟨hs, hf⟩ := h
  simp only [Node.parts?] at hp
  split at hp <;> cases hp
  · exact statementItems (List.cons_ne_nil _ _) hs hf
  · exact operand hs hf
  · exact operand hs.1 ⟨height, rfl, hs.2, hf⟩
  · exact operand hs.2 ⟨hs.1, hf⟩
  · exact operand hs.1 ⟨height, rfl, ⟨hs.2.1, hs.2.2⟩, hf⟩
  · refine operand hs.1 ⟨height, rfl, ⟨?_, ?_⟩, hf⟩
    · exact hs.2.1.mono (fun _ hx => hx) False.elim id
    · exact Node.Scoped.mono (fun _ hx => hx) False.elim id hs.2.2
  · exact operand hs ⟨height, rfl, trivial, hf⟩
  · exact operandPair hs.1 hs.2 ⟨height, rfl, trivial, hf⟩
  · rw [List.append_assoc]
    refine operands ⟨hs.1, hs.2⟩ ?_
    exact ⟨height, rfl, trivial, hf⟩
  · rw [List.append_assoc]
    apply operands hs
    exact ⟨height, rfl, trivial, hf⟩
  · exact operandPair hs.1 hs.2 ⟨height, rfl, trivial, hf⟩

end Fits
end CseMachine
