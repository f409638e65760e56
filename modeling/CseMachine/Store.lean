import CseMachine.Value
import Std.Data.ExtTreeSet

/-!
Heap objects. Closures and lists live in one store and are referred to by
handle. Each object has an owner, the environment whose heap lists it; a
freed handle stays invalid, since ids are never used again.
-/
namespace CseMachine

/-- A function paired with the environment it was made in. -/
structure Closure where
  func : Func
  env : EnvId
  run : RunId
  /-- Made while the prelude ran. -/
  predefined : Bool
  /-- The name it was first bound to. -/
  declaredName : Option String
  /-- Span of the `def` or `lambda`. -/
  span : Span

namespace Closure

/-- The closure of a `def`, which has its name from the start. -/
def ofDefine (func : Func) (env : EnvId) (run : RunId) (predefined : Bool) (span : Span) : Closure :=
  ⟨func, env, run, predefined, func.name, span⟩

/-- The closure of a `lambda`, which has no name until it is bound to one. -/
def ofLambda (func : Func) (env : EnvId) (run : RunId) (predefined : Bool) (span : Span) : Closure :=
  ⟨func, env, run, predefined, none, span⟩

/-- The name in the `def`, else the first one it was bound to. -/
def displayName (c : Closure) : String := (c.func.name.or c.declaredName).getD "<lambda>"

/-- Record a name unless there is one. -/
def nameOnce (c : Closure) (name : String) : Closure :=
  { c with declaredName := c.declaredName.or (some name) }

end Closure

/-- What a heap object holds. -/
inductive Content where
  | closure (closure : Closure)
  | list (items : List Value)

structure Object where
  owner : EnvId
  content : Content

/-- The objects that one environment owns. -/
structure Heap where
  items : Std.ExtTreeSet ObjId := ∅

namespace Heap

def empty : Heap := {}

def insert (h : Heap) (id : ObjId) : Heap := ⟨h.items.insert id⟩

def contains (h : Heap) (id : ObjId) : Bool := h.items.contains id

def size (h : Heap) : Nat := h.items.size

/-- The objects from the oldest to the newest. -/
def toList (h : Heap) : List ObjId := h.items.toList

/-- Keep what satisfies a test. -/
def filter (keep : ObjId → Bool) (h : Heap) : Heap := ⟨h.items.filter keep⟩

/-- Hand an object on to another heap: what is left, and the other heap with it. There has to be
such an object. -/
def moveTo? (h : Heap) (id : ObjId) (other : Heap) : Option (Heap × Heap) :=
  if h.contains id then some (⟨h.items.erase id⟩, other.insert id) else none

end Heap

/-- The live objects of an evaluation, and the number the next one gets. -/
structure Store where
  objects : Std.ExtTreeMap ObjId Object := ∅
  next : Nat := 0

namespace Store

def empty : Store := {}

/-- A new object; its owner's heap is not touched. -/
def alloc (s : Store) (owner : EnvId) (content : Content) : ObjId × Store :=
  (⟨s.next⟩, ⟨s.objects.insert ⟨s.next⟩ ⟨owner, content⟩, s.next + 1⟩)

def get? (s : Store) (id : ObjId) : Option Object := s.objects[id]?

def closure? (s : Store) (id : ObjId) : Option Closure :=
  match s.get? id with
  | some ⟨_, .closure c⟩ => some c
  | _ => none

def list? (s : Store) (id : ObjId) : Option (List Value) :=
  match s.get? id with
  | some ⟨_, .list items⟩ => some items
  | _ => none

def owner? (s : Store) (id : ObjId) : Option EnvId := (s.get? id).map (·.owner)

def setOwner (s : Store) (id : ObjId) (owner : EnvId) : Store :=
  { s with objects := s.objects.modify id fun o => { o with owner } }

/-- Record a closure's first name; anything else stays as it is. -/
def nameClosure (s : Store) (id : ObjId) (name : String) : Store :=
  { s with objects := s.objects.modify id fun o => match o.content with
      | .closure c => { o with content := .closure (c.nameOnce name) }
      | .list _ => o }

/-- Free what fails a test. -/
def filter (keep : ObjId → Bool) (s : Store) : Store :=
  { s with objects := s.objects.filter fun id _ => keep id }

def size (s : Store) : Nat := s.objects.size

end Store
end CseMachine
