/-!
Last-in first-out stacks, top first. Control and Stash are both made of one;
an operation that finds too few items answers `none` and changes nothing.
-/
namespace CseMachine

structure Stack (α : Type) where
  /-- The items, the top one first. -/
  items : List α := []
  deriving DecidableEq, Repr, Inhabited

namespace Stack

variable {α : Type}

def empty : Stack α := ⟨[]⟩

def push (s : Stack α) (a : α) : Stack α := ⟨a :: s.items⟩

def pop? (s : Stack α) : Option (α × Stack α) :=
  match s.items with
  | [] => none
  | a :: rest => some (a, ⟨rest⟩)

def peek? (s : Stack α) : Option α := s.items.head?

def size (s : Stack α) : Nat := s.items.length

def isEmpty (s : Stack α) : Bool := s.items.isEmpty

/-- The items from bottom to top. -/
def toList (s : Stack α) : List α := s.items.reverse

/-- The top `n` items, the lowest of them first, and what is left below. -/
def popN? (n : Nat) (s : Stack α) : Option (List α × Stack α) :=
  let top := s.items.take n
  if top.length = n then some (top.reverse, ⟨s.items.drop n⟩) else none

@[simp] theorem toList_push (s : Stack α) (a : α) : (s.push a).toList = s.toList ++ [a] := by
  simp [push, toList]

@[simp] theorem pop?_push (s : Stack α) (a : α) : (s.push a).pop? = some (a, s) := rfl

@[simp] theorem peek?_push (s : Stack α) (a : α) : (s.push a).peek? = some a := rfl

@[simp] theorem size_push (s : Stack α) (a : α) : (s.push a).size = s.size + 1 := rfl

theorem popN?_eq_some {n : Nat} {s rest : Stack α} {top : List α}
    (h : s.popN? n = some (top, rest)) : rest.toList ++ top = s.toList ∧ top.length = n := by
  simp only [popN?] at h
  split at h
  · next hn =>
    simp only [Option.some.injEq, Prod.mk.injEq] at h
    obtain ⟨rfl, rfl⟩ := h
    exact ⟨by simp [toList, ← List.reverse_append], by simpa using hn⟩
  · simp at h

end Stack
end CseMachine
