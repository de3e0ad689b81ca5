import Dataflow.Heap

/-! # Looking through bound variables

  A bound variable stands for its value. Dereferencing follows bound variables until
  it meets a value or an unbound variable. A bind never closes a chain of variables
  into a circle, so a chain is at most as long as there are variables.
-/

namespace Dataflow.Heap

/-- Follows at most `n - 1` bound variables. -/
def follow (h : Heap) : Nat → Node → Except Fault Node
  | 0, _ => .error .endless
  | n + 1, .variable v => do
    match ← h.cell v with
    | .bound value => h.follow n value
    | .unbound _ => return .variable v
  | _ + 1, value => return value

/-- The value that a node stands for, or the unbound variable that it leads to. -/
def deref (h : Heap) (n : Node) : Except Fault Node := h.follow (h.variableCount + 1) n

/-- Whether a node stands for a value. -/
def isDetermined (h : Heap) (n : Node) : Except Fault Bool := do
  match ← h.deref n with
  | .variable _ => return false
  | _ => return true

end Dataflow.Heap
