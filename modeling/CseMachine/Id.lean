import Std.Data.ExtTreeMap

/-!
Identities the machine hands out. Environments and heap objects are numbered
in the order of their creation and no number is used twice, so the order of
ids is the order of age.
-/
namespace CseMachine

structure EnvId where
  index : Nat
  deriving DecidableEq, Repr, Inhabited

namespace EnvId

/-- The environment of the builtins, present from the start. -/
def global : EnvId := ⟨0⟩

/-- The global environment is shown as `-1`, any other by its number. -/
def text (id : EnvId) : String := if id = global then "-1" else toString id.index

instance : Ord EnvId := ⟨fun a b => compare a.index b.index⟩

theorem compare_def (a b : EnvId) : compare a b = compare a.index b.index := rfl

instance : Std.LawfulEqOrd EnvId where
  compare_self {a} := by simp [compare_def]
  eq_of_compare {a b} h := by cases a; cases b; simp_all [compare_def]

instance : Std.TransOrd EnvId where
  eq_swap {a b} := by simp only [compare_def]; exact Std.OrientedOrd.eq_swap
  isLE_trans {a b c} h₁ h₂ := by
    simp only [compare_def] at *
    exact Std.TransOrd.isLE_trans h₁ h₂

end EnvId

/-- Handle of a heap object. -/
structure ObjId where
  index : Nat
  deriving DecidableEq, Repr, Inhabited

namespace ObjId

def text (id : ObjId) : String := "#" ++ toString id.index

instance : Ord ObjId := ⟨fun a b => compare a.index b.index⟩

theorem compare_def (a b : ObjId) : compare a b = compare a.index b.index := rfl

instance : Std.LawfulEqOrd ObjId where
  compare_self {a} := by simp [compare_def]
  eq_of_compare {a b} h := by cases a; cases b; simp_all [compare_def]

instance : Std.TransOrd ObjId where
  eq_swap {a b} := by simp only [compare_def]; exact Std.OrientedOrd.eq_swap
  isLE_trans {a b c} h₁ h₂ := by
    simp only [compare_def] at *
    exact Std.TransOrd.isLE_trans h₁ h₂

end ObjId

/-- An evaluation. A closure can only be called in the evaluation that made it. -/
structure RunId where
  index : Nat
  deriving DecidableEq, Repr, Inhabited

end CseMachine
