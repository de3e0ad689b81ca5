import Dataflow.Atom
import Dataflow.Binary64

/-! # Nodes

  A node is what a register, a root or a field of a record holds. Atoms, integers,
  floats, booleans and unit are complete values; records and variables are named by
  their place in a heap.

  Two families of nodes have types of their own. A *literal* (atom, boolean, unit)
  can label a record. A *feature* (integer or literal) can name a field.
-/

namespace Dataflow

/-! ### References into a heap -/

/-- The place of a record in a heap. -/
structure RecordRef where
  /-- The position in order of allocation, from zero. -/
  index : Nat
  deriving DecidableEq

/-- The place of a variable in a heap. -/
structure VarRef where
  /-- The position in order of allocation, from zero. -/
  index : Nat
  deriving DecidableEq

/-! ### Literals and features -/

/-- The values that can label a record. -/
inductive Literal where
  | atom (a : Atom)
  | bool (b : Bool)
  | unit
  deriving DecidableEq

/-- The values that can name a field of a record. -/
inductive Feature where
  | int (i : Int)
  | literal (l : Literal)
  deriving DecidableEq

/-! ### Nodes -/

/-- A value, or a reference to one. -/
inductive Node where
  | atom (a : Atom)
  | int (i : Int)
  | float (x : Binary64)
  | bool (b : Bool)
  | unit
  | record (r : RecordRef)
  | variable (v : VarRef)
  deriving DecidableEq

instance : Inhabited Node := ⟨.unit⟩

/-- A literal as a node. -/
def Literal.toNode : Literal → Node
  | .atom a => .atom a
  | .bool b => .bool b
  | .unit => .unit

/-- A feature as a node. -/
def Feature.toNode : Feature → Node
  | .int i => .int i
  | .literal l => l.toNode

namespace Node

def asLiteral? : Node → Option Literal
  | .atom a => some (.atom a)
  | .bool b => some (.bool b)
  | .unit => some .unit
  | _ => none

def asFeature? : Node → Option Feature
  | .int i => some (.int i)
  | n => n.asLiteral?.map .literal

def asVariable? : Node → Option VarRef
  | .variable v => some v
  | _ => none

def asRecord? : Node → Option RecordRef
  | .record r => some r
  | _ => none

def asAtom? : Node → Option Atom
  | .atom a => some a
  | _ => none

end Node

@[simp] theorem Literal.asLiteral?_toNode (l : Literal) : l.toNode.asLiteral? = some l := by
  cases l <;> rfl

@[simp] theorem Feature.asFeature?_toNode (f : Feature) : f.toNode.asFeature? = some f := by
  cases f with
  | int i => rfl
  | literal l => cases l <;> rfl

/-- A node is a literal exactly when a literal stands for it. -/
theorem Node.asLiteral?_eq_some_iff {n : Node} {l : Literal} : n.asLiteral? = some l ↔ n = l.toNode := by
  constructor
  · intro h
    cases n <;> simp [Node.asLiteral?] at h <;> subst h <;> rfl
  · rintro rfl; simp

/-! ### The order of features

  Integers come before atoms, atoms before booleans, booleans before unit. Integers
  are ordered by value, atoms by their characters, and false precedes true. -/

/-- The place of a literal among the families of features. -/
def Literal.rank : Literal → Nat
  | .atom _ => 1
  | .bool _ => 2
  | .unit => 3

/-- The place of a feature among the families of features. -/
def Feature.rank : Feature → Nat
  | .int _ => 0
  | .literal l => l.rank

/-- The order of features. Atoms are compared by content, so atoms of two tables with the
    same content name the same field. -/
def Feature.compare : Feature → Feature → Ordering
  | .int i, .int j => Ord.compare i j
  | .literal (.atom a), .literal (.atom b) => Ord.compare a.content b.content
  | .literal (.bool a), .literal (.bool b) => Ord.compare a b
  | f, g => Ord.compare f.rank g.rank

/-- The place of a node among the families of features. All other nodes share the last one. -/
def Node.rank : Node → Nat
  | .int _ => 0
  | .atom _ => 1
  | .bool _ => 2
  | .unit => 3
  | _ => 4

/-- The order of features on all nodes: within the families as there, and by the families
    otherwise. -/
def Node.featureOrder : Node → Node → Ordering
  | .int i, .int j => Ord.compare i j
  | .atom a, .atom b => Ord.compare a.content b.content
  | .bool a, .bool b => Ord.compare a b
  | m, n => Ord.compare m.rank n.rank

end Dataflow
