import Dataflow.Node

/-! # Faults

  A fault is the end of a machine: it was handed something that it cannot make sense
  of, such as a reference into another heap, or it was asked for a computation that
  never ends. No fault is ever recovered from.
-/

namespace Dataflow

/-- What can stop a machine for good. -/
inductive Fault where
  | danglingRecord (r : RecordRef)
  | danglingVariable (v : VarRef)
  /-- Two atoms were compared of which one belongs to another machine. -/
  | foreignComparison
  /-- A variable was dereferenced to one that is bound all the same. -/
  | derefBound (v : VarRef)
  /-- A list of `length` entries was read at `index`. -/
  | outOfRange (length index : Nat)
  /-- A heap was to make more room than can be addressed. -/
  | capacityOverflow
  /-- The computation does not end. -/
  | endless
  deriving DecidableEq

/-- The wording of a fault. -/
def Fault.message : Fault → String
  | .danglingRecord r => "dangling record reference RecordRef(" ++ Nat.repr r.index ++ ")"
  | .danglingVariable v => "dangling variable reference VarRef(" ++ Nat.repr v.index ++ ")"
  | .foreignComparison => "comparing atoms of another VM instance"
  | .derefBound v =>
    "internal error: entered unreachable code: deref returned a bound variable: variable VarRef(" ++
      Nat.repr v.index ++ ") is already bound"
  | .outOfRange length index =>
    "index out of bounds: the len is " ++ Nat.repr length ++ " but the index is " ++ Nat.repr index
  | .capacityOverflow => "capacity overflow"
  | .endless => "the computation does not end"

end Dataflow
