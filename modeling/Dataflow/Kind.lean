import Dataflow.Node

/-! # Kinds and their capabilities

  Every node has a kind, and the kind alone fixes how its nodes are copied, stored
  and compared.
-/

namespace Dataflow

/-! ### Kinds -/

/-- The seven kinds of nodes. -/
inductive Kind where
  | atom
  | int
  | float
  | bool
  | unit
  | record
  | variable
  deriving DecidableEq

/-- The kind of a node. -/
def Node.kind : Node → Kind
  | .atom _ => .atom
  | .int _ => .int
  | .float _ => .float
  | .bool _ => .bool
  | .unit => .unit
  | .record _ => .record
  | .variable _ => .variable

/-! ### Capabilities -/

/-- Whether a node may be duplicated as it stands. -/
inductive CopyPolicy where
  | copiable
  | transient
  deriving DecidableEq

/-- Where the data of a node live. -/
inductive Storage where
  /-- In the node itself. -/
  | inline
  /-- In an atom table or a heap. -/
  | boxed
  deriving DecidableEq

/-- How nodes are compared. -/
inductive Behavior where
  /-- By their own data. -/
  | value
  /-- Field by field. -/
  | structural
  /-- Not before they are bound. -/
  | variable
  deriving DecidableEq

/-- What a kind allows. -/
structure Capabilities where
  copy : CopyPolicy
  storage : Storage
  behavior : Behavior
  deriving DecidableEq

/-- The capabilities of each kind. -/
def Kind.capabilities : Kind → Capabilities
  | .atom => ⟨.copiable, .boxed, .value⟩
  | .int | .float | .bool | .unit => ⟨.copiable, .inline, .value⟩
  | .record => ⟨.transient, .boxed, .structural⟩
  | .variable => ⟨.transient, .boxed, .variable⟩

namespace Capabilities

def isCopiable (c : Capabilities) : Bool := c.copy == .copiable

def hasValueBehavior (c : Capabilities) : Bool := c.behavior == .value

/-- Whether copying the node copies the whole value. -/
def copiesWhole (c : Capabilities) : Bool := c.isCopiable && c.storage == .inline

/-- The capabilities as a set of bits: copiable, boxed, then one bit per behaviour. -/
def flags (c : Capabilities) : Nat :=
  (if c.isCopiable then 1 else 0) + (if c.storage = .boxed then 2 else 0) +
    match c.behavior with
    | .value => 4
    | .structural => 8
    | .variable => 16

end Capabilities

def Node.isLiteral (n : Node) : Bool := n.asLiteral?.isSome

def Node.isFeature (n : Node) : Bool := n.asFeature?.isSome

/-- Whether fields can be asked of a node: it is a record, or a literal, which acts as a
    record without fields. -/
def Node.isSelectable (n : Node) : Bool := n.isLiteral || n.asRecord?.isSome

end Dataflow
