import Dataflow.Heap.Deref

/-! # Equality of values

  Two nodes are compared through bound variables. Simple values are compared by
  their data, unbound variables by identity, and records label by label and field by
  field. Records may be cyclic: a pair of records that is met again while it is being
  compared counts as equal, so the comparison visits each pair at most once.

  Atoms are only compared on the machine that they belong to.
-/

namespace Dataflow

/-! ### Simple values -/

/-- Whether two atoms of the machine `owner` are the same. -/
def Atom.same (owner : MachineId) (a b : Atom) : Except Fault Bool :=
  if a.owner = owner ∧ b.owner = owner then .ok (a == b) else .error .foreignComparison

/-- Whether two dereferenced nodes are equal simple values or the same unbound variable. -/
def Node.sameValue (owner : MachineId) : Node → Node → Except Fault Bool
  | .atom a, .atom b => a.same owner b
  | .int i, .int j => .ok (i == j)
  | .float x, .float y => .ok (x.numEq y)
  | .bool a, .bool b => .ok (a == b)
  | .unit, .unit => .ok true
  | .variable v, .variable w => .ok (v == w)
  | _, _ => .ok false

/-! ### Arities -/

/-- Whether two lists of features of one length are equal, from the left. -/
def sameFeatures (owner : MachineId) : List Feature → List Feature → Except Fault Bool
  | f :: fs, g :: gs => do
    if ← f.toNode.sameValue owner g.toNode then sameFeatures owner fs gs else return false
  | _, _ => .ok true

/-- Whether two records have the same features. -/
def Record.sameArity (owner : MachineId) (r s : Record) : Except Fault Bool :=
  match r.arity, s.arity with
  | .tuple, .tuple => .ok (r.width == s.width)
  | .features names, .features names' =>
    if names.length = names'.length then sameFeatures owner names names' else .ok false
  | _, _ => .ok false

/-! ### Records -/

namespace Heap

/-- The pairs that two records of one arity are compared by, in the order in which they are
    taken up: the fields from the last to the first, then the labels. -/
def pairs (r s : Record) : List (Node × Node) :=
  (r.fields.zip s.fields).reverse ++ [(r.label.toNode, s.label.toNode)]

/-- Compares pairs of nodes until one differs. The pairs in `seen` count as equal. -/
def equalPairs (h : Heap) (owner : MachineId) :
    Nat → List (Node × Node) → List (RecordRef × RecordRef) → Except Fault Bool
  | _, [], _ => .ok true
  | 0, _ :: _, _ => .error .endless
  | n + 1, (left, right) :: pending, seen => do
    match ← h.deref left, ← h.deref right with
    | .record a, .record b =>
      -- a pair that is being compared already is taken for equal; no record is read for it
      if a = b ∨ (a, b) ∈ seen then h.equalPairs owner n pending seen
      else
        let r ← h.record a
        let s ← h.record b
        if ← r.sameArity owner s then
          h.equalPairs owner n (pairs r s ++ pending) ((a, b) :: seen)
        else return false
    | x, y =>
      if ← x.sameValue owner y then h.equalPairs owner n pending seen else return false

/-- The number of fields of all records together. -/
def fieldCount (h : Heap) : Nat :=
  (h.records.toList.map Record.width).foldr (· + ·) 0

/-- A bound on the pairs that a comparison takes up: the first one, and for each pair of
    records their labels and fields. -/
def pairBound (h : Heap) : Nat := 1 + h.recordCount * (h.recordCount + h.fieldCount)

/-- Whether two nodes stand for equal values on the machine `owner`. -/
def equals (h : Heap) (owner : MachineId) (left right : Node) : Except Fault Bool :=
  h.equalPairs owner h.pairBound [(left, right)] []

end Heap

end Dataflow
