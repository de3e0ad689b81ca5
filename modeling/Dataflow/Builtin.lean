import Dataflow.Refusal

/-! # The builtins

  The nine operations that a thread can perform, with their names and the number of
  registers that they read and write.
-/

namespace Dataflow

/-- The builtins, in the order of their table. -/
inductive Builtin where
  /-- The label of a record. -/
  | label
  /-- The number of fields of a record. -/
  | width
  /-- The field of a record at a feature. -/
  | dot
  /-- The field of a record at an integer. -/
  | dotNumber
  /-- The feature of a field that has a value. -/
  | waitOr
  /-- Nothing, once its operand has a value. -/
  | wait
  /-- Whether its operand has a value. -/
  | isDet
  /-- Gives a variable its value. -/
  | bind
  /-- Writes the text of its operand to the output. -/
  | «show»
  deriving DecidableEq

namespace Builtin

def all : List Builtin := [.label, .width, .dot, .dotNumber, .waitOr, .wait, .isDet, .bind, .show]

def name : Builtin → String
  | .label => "label"
  | .width => "width"
  | .dot => "dot"
  | .dotNumber => "dotNumber"
  | .waitOr => "waitOr"
  | .wait => "wait"
  | .isDet => "isDet"
  | .bind => "bind"
  | .show => "show"

/-- The number of registers that a builtin reads. -/
def inputs : Builtin → Nat
  | .dot | .dotNumber | .bind => 2
  | _ => 1

/-- The number of registers that a builtin writes. -/
def outputs : Builtin → Nat
  | .wait | .bind | .show => 0
  | _ => 1

/-- The builtin of a name. -/
def ofName (name : String) : Except Refusal Builtin :=
  match all.find? (·.name == name) with
  | some b => .ok b
  | none => .error (.unknownBuiltin name)

end Builtin

/-! ### Outcomes -/

/-- What becomes of a call. A call is handed slots for its results, and writes to them only when it
    proceeds: so it has results in this case alone, and in the others the slots are as they were. -/
inductive Outcome where
  /-- It is done, with these results. -/
  | proceed (results : List Node)
  /-- It failed with an exception value. -/
  | raise (exception : Node)
  /-- It needs the value of an unbound variable, and is to be made again later. -/
  | suspend (v : VarRef)
  deriving DecidableEq

/-- What the slots hold after a call, of what they held before it. -/
def Outcome.fill (slots : List Node) : Outcome → List Node
  | .proceed results => results ++ slots.drop results.length
  | .raise _ | .suspend _ => slots

theorem Outcome.fill_eq_self {o : Outcome} (ho : ∀ results, o ≠ .proceed results)
    (slots : List Node) : o.fill slots = slots := by
  cases o with
  | proceed results => exact absurd rfl (ho results)
  | raise e => rfl
  | suspend v => rfl

end Dataflow
