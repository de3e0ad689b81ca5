import Dataflow.Heap

/-! # Ownership of atoms

  A machine can check that a value was built from its own atoms. The check visits
  the nodes of records depth first and stops at the first atom of another machine. It
  does not look through variables, and it does not remember what it has visited: it
  has no answer on a record that contains itself.
-/

namespace Dataflow.Heap

/-- The owner of the first atom found in a node that is not the machine `owner`, if there is
    one. Records nest at most `n - 1` deep. -/
def foreign? (h : Heap) (owner : MachineId) : Nat → Node → Except Fault (Option MachineId)
  | 0, _ => .error .endless
  | _ + 1, .atom a => .ok (if a.owner = owner then none else some a.owner)
  | n + 1, .record ref =>
    match h.records[ref.index]? with
    | some r => r.edges.findSomeM? (h.foreign? owner n)
    | none => .ok none
  | _ + 1, _ => .ok none

/-- The owner of a foreign atom in a value. Records that nest deeper than there are records
    contain themselves, so the check does not end on them. -/
def foreignOwner? (h : Heap) (owner : MachineId) (n : Node) : Except Fault (Option MachineId) :=
  h.foreign? owner (h.recordCount + 1) n

end Dataflow.Heap
