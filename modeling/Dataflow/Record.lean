import Dataflow.Node

/-! # Records

  A record is a literal label and a finite map from features to nodes. The fields
  stand in the order of their features. A record whose features are exactly
  `1, …, n` is a *tuple* and does not store them.
-/

namespace Dataflow

/-- The features of a record. -/
inductive Arity where
  /-- The features are `1, …, n` for the `n` fields. -/
  | tuple
  /-- The features, in ascending order. -/
  | features (names : List Feature)
  deriving DecidableEq

/-- A labelled finite map from features to nodes. -/
structure Record where
  label : Literal
  arity : Arity
  /-- The fields, in the order of their features. -/
  fields : List Node
  deriving DecidableEq

/-- The features `k, k + 1, …` of `n` fields. -/
def countFrom : Int → Nat → List Feature
  | _, 0 => []
  | k, n + 1 => .int k :: countFrom (k + 1) n

@[simp] theorem length_countFrom (k : Int) (n : Nat) : (countFrom k n).length = n := by
  induction n generalizing k with
  | zero => rfl
  | succ n ih => simp [countFrom, ih]

namespace Record

def width (r : Record) : Nat := r.fields.length

def isTuple (r : Record) : Bool := r.arity == .tuple

/-- The features, one for each field. -/
def features (r : Record) : List Feature :=
  match r.arity with
  | .tuple => countFrom 1 r.width
  | .features names => names

/-- A record of fields given in the order of their features: a tuple if these are `1, …, n`. -/
def ofSorted (label : Literal) (fields : List (Feature × Node)) : Record :=
  let names := fields.map (·.1)
  { label
    arity := if names = countFrom 1 fields.length then .tuple else .features names
    fields := fields.map (·.2) }

/-! ### Looking up a field -/

/-- The field that stands beside the feature `f`. -/
def search (names : List Feature) (fields : List Node) (f : Feature) : Option Node :=
  ((names.zip fields).find? fun entry => entry.1.compare f == .eq).map (·.2)

/-- The field of an integer feature. A tuple is indexed, with its first field at 1. -/
def lookupNumber (r : Record) (i : Int) : Option Node :=
  match r.arity with
  | .tuple => if 1 ≤ i then r.fields[(i - 1).toNat]? else none
  | .features names => search names r.fields (.int i)

/-- The field of a feature. -/
def lookup (r : Record) (f : Feature) : Option Node :=
  match r.arity, f with
  | .tuple, .int i => r.lookupNumber i
  | .tuple, .literal _ => none
  | .features names, f => search names r.fields f

/-! ### The nodes of a record -/

/-- The nodes that a record holds: its label, its stored features, its fields. -/
def edges (r : Record) : List Node :=
  let names := match r.arity with
    | .tuple => []
    | .features names => names.map Feature.toNode
  r.label.toNode :: names ++ r.fields

end Record

end Dataflow
