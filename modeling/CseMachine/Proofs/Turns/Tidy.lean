import CseMachine.Proofs.Safety.Fits

/-!
# Where returns are taken

A `return` is taken among the statements of a body, above the body's marker, and a
restore waits below an expression. So between a return and the marker that it goes
down to there is no restore.
-/
namespace CseMachine

variable {names : String → Prop} {returns : Prop} {skip : Bool}

/-- The node is well scoped but for its names, and the frame of a block is there already. A program is
never found among other items. -/
def Node.Tidy (returns : Prop) : Node → Prop
  | .block _ _ body => AllScoped (fun _ => True) returns body
  | n => n.Scoped (fun _ => True) returns true

theorem Node.Scoped.tidy {n : Node} (h : n.Scoped names returns skip) : n.Tidy returns := by
  cases n with
  | block => exact h.2.2.mono (fun _ _ => trivial) id
  | _ => exact Node.Scoped.mono (fun _ _ => trivial) id (fun _ => rfl) h

namespace Control

/-- A return may be taken from the top on if `r` holds, and from below a marker or a restore on it is
known again whether one may. -/
def TidyFrom : Bool → List Item → Prop
  | _, [] => True
  | r, .node n _ :: rest => n.Tidy (r = true) ∧ TidyFrom r rest
  | r, .instr .marker _ :: rest => r = true ∧ ∃ r', TidyFrom r' rest
  | r, .instr .reset _ :: rest => r = true ∧ TidyFrom r rest
  | r, .instr (.restore _) _ :: rest => r = false ∧ ∃ r', TidyFrom r' rest
  | r, .instr i _ :: rest => i.Scoped (fun _ => True) (r = true) ∧ TidyFrom r rest

def Tidy (items : List Item) : Prop := ∃ r, TidyFrom r items

namespace TidyFrom

variable {r : Bool} {item : Item} {items rest rest' : List Item}

/-- What lies below an item may be replaced. -/
theorem cons_imp (hr : ∀ r, TidyFrom r rest → TidyFrom r rest') (h : TidyFrom r (item :: rest)) :
    TidyFrom r (item :: rest') := by
  rcases item with ⟨n, skip⟩ | ⟨i, span⟩
  · exact ⟨h.1, hr _ h.2⟩
  · cases i with
    | marker | restore =>
      obtain ⟨hret, r', hf⟩ := h
      exact ⟨hret, r', hr _ hf⟩
    | _ => exact ⟨h.1, hr _ h.2⟩

theorem tidy_rest (h : TidyFrom r (item :: rest)) : Tidy rest := by
  rcases item with ⟨n, skip⟩ | ⟨i, span⟩
  · exact ⟨r, h.2⟩
  · cases i with
    | marker | restore => exact h.2
    | _ => exact ⟨r, h.2⟩

/-- A return drops no restore. -/
theorem belowMarker (h : TidyFrom true items) :
    Tidy (Control.belowMarker items) ∧ targets (Control.belowMarker items) = targets items := by
  induction items with
  | nil => exact ⟨⟨true, trivial⟩, rfl⟩
  | cons item rest ih =>
    rcases item with ⟨n, skip⟩ | ⟨i, span⟩
    · exact ih h.2
    · cases i with
      | marker => exact ⟨h.2, rfl⟩
      | restore => cases h.1
      | _ => exact ih h.2

/-- A block that declares nothing may be pushed as a sequence. -/
theorem shape (v : Variant) (h : TidyFrom r (item :: rest)) : TidyFrom r (v.shape item :: rest) := by
  simp only [Variant.shape]
  split
  · simp only [Item.flatten]
    split
    · exact h
    · exact h
  · exact h

theorem shapes (v : Variant) (h : TidyFrom r (items ++ rest)) : TidyFrom r (items.map v.shape ++ rest) := by
  induction items generalizing r with
  | nil => exact h
  | cons item items ih => exact (cons_imp (fun _ => ih) h).shape v

/-! What takes the place of a node -/

theorem operands {nodes : List Node} (hs : AllScoped names False nodes) (h : TidyFrom r rest) :
    TidyFrom r (Node.operands nodes ++ rest) := by
  induction nodes with
  | nil => exact h
  | cons n nodes ih => exact ⟨(hs.1.mono (fun _ => id) False.elim id).tidy, ih hs.2⟩

theorem operand {n : Node} (hs : n.Scoped names False false) (h : TidyFrom r rest) :
    TidyFrom r (Node.operands [n] ++ rest) := by
  have hall : AllScoped names False [n] := ⟨hs, trivial⟩
  exact operands hall h

theorem operandPair {a b : Node} (ha : a.Scoped names False false) (hb : b.Scoped names False false)
    (h : TidyFrom r rest) : TidyFrom r (Node.operands [a, b] ++ rest) := operand ha (operand hb h)

theorem statementItems {body : List Node} (hs : AllScoped names (r = true) body) (h : TidyFrom r rest) :
    TidyFrom r (Node.statementItems body ++ rest) := by
  induction body with
  | nil => exact h
  | cons first body ih =>
    cases body with
    | nil => exact ⟨hs.1.tidy, h⟩
    | cons second body => exact ⟨hs.1.tidy, trivial, ih hs.2⟩

theorem parts {n : Node} {skip : Bool} (hp : n.parts? = some items) (h : TidyFrom r (.node n skip :: rest)) :
    TidyFrom r (items ++ rest) := by
  obtain ⟨hs, hf⟩ := h
  simp only [Node.parts?] at hp
  split at hp <;> cases hp
  · exact statementItems hs hf
  · exact operand hs hf
  · exact operand hs.1 ⟨hs.2, hf⟩
  · exact operand hs.2 ⟨hs.1, hf⟩
  · exact operand hs.1 ⟨⟨hs.2.1, hs.2.2⟩, hf⟩
  · refine operand hs.1 ⟨⟨?_, ?_⟩, hf⟩
    · exact hs.2.1.mono (fun _ => id) False.elim id
    · exact Node.Scoped.mono (fun _ => id) False.elim id hs.2.2
  · exact operand hs ⟨trivial, hf⟩
  · exact operandPair hs.1 hs.2 ⟨trivial, hf⟩
  · rw [List.append_assoc]
    exact operands ⟨hs.1, hs.2⟩ ⟨trivial, hf⟩
  · rw [List.append_assoc]
    exact operands hs ⟨trivial, hf⟩
  · exact operandPair hs.1 hs.2 ⟨trivial, hf⟩

/-- What is pushed for the body of a function returns to what lies below. -/
theorem bodyItems {v : Variant} {func : Func} (hs : func.Scoped) (h : TidyFrom r rest) (span : Span) :
    Tidy ((v.bodyItems func span).map v.shape ++ rest) := by
  obtain ⟨at', declarations, body, hb, -, -, hbody⟩ := hs.body
  simp only [Variant.bodyItems]
  split
  · next e hr =>
    have hret : func.singleReturn? = some e := by
      split at hr
      · exact hr
      · cases hr
    simp only [Func.singleReturn?] at hret
    rw [hb] at hret
    split at hret
    · next hblock =>
      cases hblock
      cases hret
      have he : TidyFrom r ([.node e false] ++ rest) := ⟨(hbody.1.2.mono (fun _ => id) False.elim id).tidy, h⟩
      exact ⟨r, he.shapes v⟩
    · cases hret
  · have hblock : TidyFrom true ([.node (.block at' declarations body) true, .instr .marker span] ++ rest) :=
      ⟨hbody.mono (fun _ _ => trivial) fun _ => rfl, rfl, r, h⟩
    rw [hb]
    exact ⟨true, hblock.shapes v⟩

end TidyFrom
end Control
end CseMachine
