import CseMachine.Memory

/-!
Collection. What can be reached from the global and the active environments
and from given roots is kept, all else is freed. Marking follows the tails of
environments, the values bound in them, the environments of closures and the
elements of lists; what is marked is taken out of the maps it is looked up in,
so each environment and object is visited once.
-/
namespace CseMachine

theorem size_erase_lt {α β : Type} [Ord α] [Std.TransOrd α] {m : Std.ExtTreeMap α β} {k : α} {v : β}
    (h : m[k]? = some v) : (m.erase k).size < m.size := by
  have hm : k ∈ m := by simp [Std.ExtTreeMap.mem_iff_isSome_getElem?, h]
  have hp : m.size ≠ 0 := by
    intro h0
    rw [← Std.ExtTreeMap.eq_empty_iff_size_eq_zero] at h0
    simp [h0] at hm
  have hc : m.contains k = true := Std.ExtTreeMap.contains_iff_mem.2 hm
  rw [Std.ExtTreeMap.size_erase, if_pos hc]
  omega

/-- The ids found alive. An id may be marked that names nothing. -/
structure Marks where
  envs : Std.ExtTreeSet EnvId := ∅
  objects : Std.ExtTreeSet ObjId := ∅

/-- Handles inside an object, and the environment of a closure. -/
def Content.links : Content → List EnvId × List ObjId
  | .closure c => ([c.env], [])
  | .list items => ([], items.filterMap Value.objectId?)

namespace Marks

/-- Mark all that the pending ids lead to through what is not yet visited. -/
def spread (envs : Std.ExtTreeMap EnvId Environment) (objects : Std.ExtTreeMap ObjId Object)
    (marks : Marks) (envWork : List EnvId) (objWork : List ObjId) : Marks :=
  match envWork, objWork with
  | id :: envWork, objWork =>
    let marks := { marks with envs := marks.envs.insert id }
    match h : envs[id]? with
    | none => spread envs objects marks envWork objWork
    | some e =>
      have := size_erase_lt h
      spread (envs.erase id) objects marks (e.tail.toList ++ envWork) (e.handles ++ objWork)
  | [], id :: objWork =>
    let marks := { marks with objects := marks.objects.insert id }
    match h : objects[id]? with
    | none => spread envs objects marks [] objWork
    | some o =>
      have := size_erase_lt h
      spread envs (objects.erase id) marks o.content.links.1 (o.content.links.2 ++ objWork)
  | [], [] => marks
termination_by (envs.size + objects.size, envWork.length + objWork.length)

end Marks

namespace Memory

/-- Marks of what is reachable from the active environments and the roots. -/
def reachable (m : Memory) (envs : List EnvId) (objects : List ObjId) : Marks :=
  Marks.spread m.environments m.store.objects {} (.global :: m.active ++ envs) objects

/-- The first marked environment from `env` outwards, through at most `steps` environments. -/
def nearestLive (m : Memory) (live : EnvId → Bool) : Nat → Option EnvId → EnvId
  | 0, _ | _, none => .global
  | steps + 1, some id =>
    if live id then id
    else nearestLive m live steps ((m.environment? id).bind (·.tail))

/-- Give an object whose owner is about to be freed to the nearest environment that stays. -/
def rehome (live : EnvId → Bool) (m : Memory) (id : ObjId) : Memory :=
  match m.store.owner? id with
  | some owner =>
    if live owner then m
    else m.move id (m.nearestLive live (m.nextEnv + 1) ((m.environment? owner).bind (·.tail)))
  | none => m

/-- Keep what is marked. -/
def sweep (m : Memory) (marks : Marks) : Memory :=
  { m with
    environments := (m.environments.filter fun id _ => marks.envs.contains id).map fun _ e =>
      { e with heap := e.heap.filter marks.objects.contains }
    store := m.store.filter marks.objects.contains
    tree := m.tree.filter marks.envs.contains }

/-- Number of environments and objects. -/
def population (m : Memory) : Nat := m.environments.size + m.store.size

/-- Free the environments and objects that cannot be reached from the roots, and answer their
number. The next collection is due when the population may have tripled. -/
def collect (m : Memory) (envs : List EnvId) (objects : List ObjId) : Nat × Memory :=
  let marks := m.reachable envs objects
  let homed := marks.objects.toList.foldl (rehome marks.envs.contains) m
  let swept := homed.sweep marks
  (m.population - swept.population,
    { swept with allocated := 0, threshold := max minThreshold (2 * swept.population) })

/-- Enough is allocated for another collection. -/
def isDue (m : Memory) : Bool := m.threshold ≤ m.allocated

end Memory
end CseMachine
