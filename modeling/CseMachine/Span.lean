/-!
Half-open byte ranges into a source text. Every tree node and every machine
instruction carries one, so that a failure can point back at the text.
-/
namespace CseMachine

/-- The bytes from `start` up to, not including, `stop`. -/
structure Span where
  start : Nat
  stop : Nat
  deriving DecidableEq, Repr, Inhabited

namespace Span

/-- The largest offset a span may hold. -/
def limit : Nat := Nat.pow 2 32 - 1

/-- Span of synthesized nodes, which have no text. -/
def none : Span := ⟨0, 0⟩

/-- A range that does not fit, by the end that is too large. -/
inductive RangeError where
  | startTooLarge (offset : Nat)
  | endTooLarge (offset : Nat)
  deriving DecidableEq, Repr

def RangeError.message : RangeError → String
  | .startTooLarge v => s!"span start {v} exceeds u32::MAX ({limit})"
  | .endTooLarge v => s!"span end {v} exceeds u32::MAX ({limit})"

/-- The span of a range, unless an end is above the limit; the start is looked at first. -/
def ofRange? (start stop : Nat) : Except RangeError Span :=
  if limit < start then .error (.startTooLarge start)
  else if limit < stop then .error (.endTooLarge stop)
  else .ok ⟨start, stop⟩

def length (s : Span) : Nat := s.stop - s.start

def isEmpty (s : Span) : Bool := s.start == s.stop

def contains (s : Span) (offset : Nat) : Bool := s.start ≤ offset && offset < s.stop

/-- The smallest span that covers both. -/
def merge (a b : Span) : Span := ⟨min a.start b.start, max a.stop b.stop⟩

/-- The empty span at an offset. -/
def point (offset : Nat) : Span := ⟨offset, offset⟩

def text (s : Span) : String := s!"{s.start}..{s.stop}"

@[simp] theorem merge_start (a b : Span) : (a.merge b).start = min a.start b.start := rfl
@[simp] theorem merge_stop (a b : Span) : (a.merge b).stop = max a.stop b.stop := rfl
@[simp] theorem merge_self (a : Span) : a.merge a = a := by simp [merge]

theorem merge_comm (a b : Span) : a.merge b = b.merge a := by
  simp [merge, Nat.min_comm, Nat.max_comm]

end Span
end CseMachine
