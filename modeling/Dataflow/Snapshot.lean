import Dataflow.Heap

/-! # Snapshots

  A snapshot shows everything that is reachable from some nodes of a heap, as it is
  stored: bound variables are listed with their values, and are not looked through. It
  goes breadth first, and lists records and variables in the order in which they are
  mentioned.
-/

namespace Dataflow

/-- A place in a heap. -/
inductive Place where
  | record (r : RecordRef)
  | variable (v : VarRef)
  deriving DecidableEq

/-- The place that a node refers to, if it is a reference. -/
def Node.place? : Node → Option Place
  | .record r => some (.record r)
  | .variable v => some (.variable v)
  | _ => none

/-- Part of a heap. -/
structure Snapshot where
  /-- The nodes that the snapshot starts from. -/
  values : List Node
  /-- The records, in the order in which they were found. -/
  records : List (RecordRef × Record)
  /-- The variables, in the order in which they were found. -/
  vars : List (VarRef × Cell)
  deriving DecidableEq

namespace Snapshot

/-- The places among the nodes that are not known yet, each of them once. -/
def newPlaces (known : List Place) : List Node → List Place
  | [] => []
  | n :: ns =>
    match n.place? with
    | some p => if p ∈ known then newPlaces known ns else p :: newPlaces (p :: known) ns
    | none => newPlaces known ns

/-- The nodes stored at a cell: its value, or the control variables that listen to it. -/
def cellNodes : Cell → List Node
  | .bound value => [value]
  | .unbound listeners => (listeners.filterMap Listener.control?).map Node.variable

/-- Visits the places in the queue, and those that they mention after them. -/
def visit (h : Heap) : Nat → List Place → List Place → Snapshot → Except Fault Snapshot
  | _, [], _, s => .ok s
  | 0, _ :: _, _, _ => .error .endless
  | n + 1, .record ref :: queue, known, s => do
    let r ← h.record ref
    let found := newPlaces known r.edges
    visit h n (queue ++ found) (known ++ found) { s with records := s.records ++ [(ref, r)] }
  | n + 1, .variable v :: queue, known, s => do
    let c ← h.cell v
    let found := newPlaces known (cellNodes c)
    visit h n (queue ++ found) (known ++ found) { s with vars := s.vars ++ [(v, c)] }

/-- Everything reachable from the nodes. Each place is visited once. -/
def ofNodes (h : Heap) (values : List Node) : Except Fault Snapshot :=
  let places := newPlaces [] values
  visit h (h.recordCount + h.variableCount + 1) places places ⟨values, [], []⟩

end Snapshot

end Dataflow
