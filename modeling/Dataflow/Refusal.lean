import Dataflow.Heap

/-! # Refusals

  A machine refuses a request of its host that makes no sense: to bind what is bound,
  to label a record with a number, to run a builtin with the wrong operands. A refusal
  leaves the machine as it was.
-/

namespace Dataflow

/-- Why a request was turned down. -/
inductive Refusal where
  | alreadyBound (v : VarRef)
  /-- The value contains an atom of another machine. -/
  | foreignValue (expected found : MachineId)
  /-- The label is no literal; the text is what it was. -/
  | invalidLabel (text : String)
  /-- The feature is neither an integer nor a literal; the text is what it was. -/
  | invalidFeature (text : String)
  /-- The feature, given by its text, occurs twice. -/
  | duplicateFeature (text : String)
  | unknownThread (id : ThreadId)
  | unknownBuiltin (name : String)
  /-- The builtin takes another number of operands. -/
  | arityMismatch (name : String) (expected found : Nat)
  /-- The thread has fewer registers. -/
  | invalidRegister (register available : Nat)
  deriving DecidableEq

/-- The wording of a refusal. -/
def Refusal.message : Refusal → String
  | .alreadyBound v => "variable VarRef(" ++ Nat.repr v.index ++ ") is already bound"
  | .foreignValue expected found =>
    "value belongs to VM VmId(" ++ Nat.repr found.index ++ "), expected VM VmId(" ++
      Nat.repr expected.index ++ ")"
  | .invalidLabel text => "record label must be a literal, got " ++ text
  | .invalidFeature text => "record feature must be a literal or an integer, got " ++ text
  | .duplicateFeature text => "duplicate record feature " ++ text
  | .unknownThread id => "no thread with id ThreadId(" ++ Nat.repr id.number ++ ")"
  | .unknownBuiltin name => "unknown builtin `" ++ name ++ "`"
  | .arityMismatch name expected found =>
    "builtin `" ++ name ++ "` takes " ++ Nat.repr expected ++ " operands, got " ++
      Nat.repr found
  | .invalidRegister register available =>
    "register " ++ Nat.repr register ++ " out of range, thread has " ++ Nat.repr available

end Dataflow
