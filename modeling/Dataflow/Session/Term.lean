import Dataflow.Session

/-! # Terms

  A term describes a value that a host has a machine build. Terms are evaluated from left
  to right, the parts before the whole; when a part is rejected, what was built before it
  stays.
-/

namespace Dataflow

/-- A description of a value. -/
inductive Term where
  | atom (content : String)
  | scalars (content : List Char)
  | int (i : Int)
  | float (x : Binary64)
  | bool (b : Bool)
  | unit
  /-- A fresh variable. -/
  | fresh
  | saved (name : String)
  | tuple (label : Term) (values : List Term)
  | record (label : Term) (fields : List (Term × Term))
  /-- A value inside so many tuples of one field, all with the same label. -/
  | nest (label : String) (depth : Nat) (leaf : Term)
  /-- A value behind so many bound variables. -/
  | chain (depth : Nat) (leaf : Term)

namespace Action

/-- Wraps a node in tuples of one field. -/
def nest (id : MachineId) (label : String) : Nat → Node → Action Node
  | 0, n => pure n
  | depth + 1, n => do
    let label' ← change id (·.newAtom label)
    nest id label depth (← request id (·.buildTuple label' [n]))

/-- Puts a node behind bound variables. -/
def chain (id : MachineId) : Nat → Node → Action Node
  | 0, n => pure n
  | depth + 1, n => do
    let v ← change id (·.newVariable)
    request id fun m => do return (← m.bind v n).map fun m => ((), m)
    chain id depth (.variable v)

mutual

/-- Has a machine build the value of a term. -/
def evaluate (id : MachineId) : Term → Action Node
  | .atom content => change id (·.newAtom content)
  | .scalars content => change id fun m =>
    let (a, atoms) := m.atoms.internScalars content
    (.atom a, { m with atoms })
  | .int i => pure (.int i)
  | .float x => pure (.float x)
  | .bool b => pure (.bool b)
  | .unit => pure .unit
  | .fresh => do return .variable (← change id (·.newVariable))
  | .saved name => savedValue name
  | .tuple label values => do
    let label ← evaluate id label
    let values ← evaluateAll id values
    request id (·.buildTuple label values)
  | .record label fields => do
    let label ← evaluate id label
    let fields ← evaluatePairs id fields
    request id (·.buildRecord label fields)
  | .nest label depth leaf => do nest id label depth (← evaluate id leaf)
  | .chain depth leaf => do chain id depth (← evaluate id leaf)

/-- Has a machine build the values of terms, from left to right. -/
def evaluateAll (id : MachineId) : List Term → Action (List Node)
  | [] => pure []
  | t :: ts => do
    let n ← evaluate id t
    return n :: (← evaluateAll id ts)

/-- Has a machine build features and fields, from left to right. -/
def evaluatePairs (id : MachineId) : List (Term × Term) → Action (List (Node × Node))
  | [] => pure []
  | (feature, value) :: rest => do
    let feature ← evaluate id feature
    let value ← evaluate id value
    return (feature, value) :: (← evaluatePairs id rest)

end

end Action

end Dataflow
