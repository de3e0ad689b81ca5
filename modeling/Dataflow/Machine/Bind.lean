import Dataflow.Machine

/-! # Binding variables

  Binding a variable gives the unbound variable that it leads to its value, for good.
  Those who wait for it are served in order: each control variable that has no value
  yet is bound to unit at once, and the waiting threads are woken at the end.

  Each nested bind gives a value to one more variable, so binds nest at most as deep as
  there are variables.
-/

namespace Dataflow.Machine

/-- Binds a control variable to unit by `bindUnit`, unless it has a value already or the bind of an
    earlier one was refused. -/
def serveControl (bindUnit : Machine → VarRef → Except Fault (Except Refusal Machine))
    (served : Except Refusal Machine) (control : VarRef) :
    Except Fault (Except Refusal Machine) := do
  match served with
  | .error e => return .error e
  | .ok m =>
    if ← m.isDetermined (.variable control) then return .ok m
    else bindUnit m control

/-- Binds a variable, with at most `n - 1` binds nested in each other. -/
def bindWithin : Nat → Machine → VarRef → Node → Except Fault (Except Refusal Machine)
  | 0, _, _, _ => .error .endless
  | n + 1, m, v, value => do
    match ← m.deref (.variable v) with
    | .variable target =>
      -- a variable bound to itself stays unbound
      if (← m.deref value) = .variable target then return .ok m
      else
        match ← m.heap.cell target with
        | .bound _ => throw (.derefBound target)
        | .unbound listeners =>
          -- the cell is bound before anybody is served, so a control variable that leads back here
          -- finds a value
          let bound := { m with heap := m.heap.setCell target (.bound value) }
          let served ← (listeners.filterMap Listener.control?).foldlM
            (serveControl fun m control => bindWithin n m control .unit) (.ok bound)
          return served.map fun m =>
            { m with scheduler := m.scheduler.wake (listeners.filterMap Listener.thread?) }
    | _ => return .error (.alreadyBound v)

/-- Gives a variable its value and wakes those who wait for it. Refused if it has a value. -/
def bind (m : Machine) (v : VarRef) (value : Node) : Except Fault (Except Refusal Machine) :=
  bindWithin (m.heap.variableCount + 1) m v value

end Dataflow.Machine
