import Dataflow.Machine.Bind
import Dataflow.Machine.Select

/-! # Calling builtins

  A call proceeds with its results, raises an exception or suspends. A call that does
  not proceed has bound no variable and shown nothing, so it can be made again from the
  start.
-/

namespace Dataflow.Machine

/-- Nothing, once the operand has a value. -/
def callWait (m : Machine) (n : Node) : Except Fault (Outcome × Machine) := do
  match ← m.deref n with
  | .variable v => return (.suspend v, m)
  | _ => return (.proceed [], m)

/-- The field at an integer operand. The receiver is looked at before the feature. -/
def callDotNumber (m : Machine) (value feature : Node) : Except Fault (Outcome × Machine) := do
  match ← m.deref value with
  | .variable v => return (.suspend v, m)
  | _ =>
    match ← m.deref feature with
    | .variable v => return (.suspend v, m)
    | .int i => m.dotNumber value i
    | other => return m.raiseTypeError "Int" other

/-- Binds the first operand to the second. If the first has a value, the second must have an
    equal one; until it has a value the call suspends. -/
def callBind (m : Machine) (target value : Node) : Except Fault (Outcome × Machine) := do
  match ← m.deref target with
  | .variable v =>
    match ← m.bind v value with
    | .ok m => return (.proceed [], m)
    | .error _ => throw (.derefBound v)
  | current =>
    match ← m.deref value with
    | .variable v => return (.suspend v, m)
    | _ =>
      if ← m.equals current value then return (.proceed [], m)
      else return m.raiseFailure current value

/-- Writes the text of the operand on a line of its own. -/
def callShow (m : Machine) (n : Node) : Except Fault (Outcome × Machine) := do
  return (.proceed [], { m with output := m.output ++ (← m.repr n) ++ "\n" })

/-- Calls a builtin on its operands. -/
def call (m : Machine) (b : Builtin) (operands : List Node) : Except Fault (Outcome × Machine) :=
  match b, operands with
  | .label, [n] => m.label n
  | .width, [n] => m.width n
  | .dot, [n, f] => m.dot n f
  | .dotNumber, [n, f] => m.callDotNumber n f
  | .waitOr, [n] => m.waitOr n
  | .wait, [n] => m.callWait n
  | .isDet, [n] => do return (.proceed [.bool (← m.isDetermined n)], m)
  | .bind, [n, x] => m.callBind n x
  | .show, [n] => m.callShow n
  | _, operands => .error (.outOfRange operands.length operands.length)

end Dataflow.Machine
