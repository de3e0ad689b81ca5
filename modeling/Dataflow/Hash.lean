import Dataflow.Kind
import Dataflow.Heap.Deref

/-! # Hashing

  The hash of a value is a function of a list of items read off the value, so two
  values hash alike when their items agree. Records contribute their label, their
  width and their fields down to a given depth; below it only their kind counts. The
  two zeros contribute the same item, since they are equal.
-/

namespace Dataflow

/-- What a value feeds into its hash. -/
inductive HashItem where
  | kind (k : Kind)
  | atom (a : Atom)
  | int (i : Int)
  | bits (b : UInt64)
  | bool (b : Bool)
  | variable (v : VarRef)
  | width (n : Nat)
  deriving DecidableEq

/-- The items of a dereferenced node, with nothing of a record but its kind. -/
def Node.hashItems (n : Node) : List HashItem :=
  .kind n.kind ::
    match n with
    | .atom a => [.atom a]
    | .int i => [.int i]
    | .float x => [.bits (if x.isZero then 0 else x.bits)]
    | .bool b => [.bool b]
    | .unit => []
    | .record _ => []
    | .variable v => [.variable v]

/-- The items of a node, with records entered down to the given depth. -/
def Heap.hashItems (h : Heap) : Nat → Node → Except Fault (List HashItem)
  | 0, n => do return (← h.deref n).hashItems
  | depth + 1, n => do
    match ← h.deref n with
    | .record ref =>
      let r ← h.record ref
      let fields ← r.fields.mapM (h.hashItems depth)
      return (Node.record ref).hashItems ++ r.label.toNode.hashItems ++ .width r.width :: fields.flatten
    | leaf => return leaf.hashItems

end Dataflow
