import Dataflow.Machine.Exception

/-! # Selecting from records

  Label, width and fields can be asked of a record, and of a literal, which acts as a
  record without fields that is labelled by itself. A call on an unbound variable
  suspends on it; a call on a number raises a type error.
-/

namespace Dataflow

/-- What fields can be asked of. -/
inductive Receiver where
  | literal (l : Literal)
  | record (r : RecordRef)
  deriving DecidableEq

namespace Machine

/-- Runs a call on the receiver that a node stands for. -/
def withReceiver (m : Machine) (value : Node)
    (call : Receiver → Except Fault (Outcome × Machine)) : Except Fault (Outcome × Machine) := do
  match ← m.deref value with
  | .variable v => return (.suspend v, m)
  | .record r => call (.record r)
  | n =>
    match n.asLiteral? with
    | some l => call (.literal l)
    | none => return m.raiseTypeError "Record" n

/-- The label. -/
def label (m : Machine) (value : Node) : Except Fault (Outcome × Machine) :=
  m.withReceiver value fun
    | .literal l => return (.proceed [l.toNode], m)
    | .record ref => do return (.proceed [(← m.heap.record ref).label.toNode], m)

/-- The number of fields. -/
def width (m : Machine) (value : Node) : Except Fault (Outcome × Machine) :=
  m.withReceiver value fun
    | .literal _ => return (.proceed [.int 0], m)
    | .record ref => do return (.proceed [.int (← m.heap.record ref).width], m)

/-- The field at a feature. The receiver is looked at before the feature. -/
def dot (m : Machine) (value feature : Node) : Except Fault (Outcome × Machine) :=
  m.withReceiver value fun receiver => do
    let feature ← m.deref feature
    match feature, feature.asFeature? with
    | .variable v, _ => return (.suspend v, m)
    | _, none => return m.raiseTypeError "Feature" feature
    | _, some f =>
      match receiver with
      | .literal l => return m.raiseIllegalFieldSelection l.toNode feature
      | .record ref =>
        match (← m.heap.record ref).lookup f with
        | some field => return (.proceed [field], m)
        | none => return m.raiseIllegalFieldSelection (.record ref) feature

/-- The field at an integer. -/
def dotNumber (m : Machine) (value : Node) (feature : Int) : Except Fault (Outcome × Machine) :=
  m.withReceiver value fun
    | .literal l => return m.raiseIllegalFieldSelection l.toNode (.int feature)
    | .record ref => do
      match (← m.heap.record ref).lookupNumber feature with
      | some field => return (.proceed [field], m)
      | none => return m.raiseIllegalFieldSelection (.record ref) (.int feature)

/-! ### Waiting for one field of many

  Many unbound fields are waited for through a control variable: it listens to each of
  them, and is bound as soon as one of them is. A repeated call finds the control
  variable of the one before. -/

/-- The first field that has a value, by its feature, or the unbound variables of them all. -/
def firstDetermined (m : Machine) : List (Feature × Node) → Except Fault (Feature ⊕ List VarRef)
  | [] => .ok (.inr [])
  | (f, n) :: rest => do
    match ← m.deref n with
    | .variable v =>
      match ← m.firstDetermined rest with
      | .inl found => return .inl found
      | .inr vs => return .inr (v :: vs)
    | _ => return .inl f

/-- Whether a listener waits for each of the variables. -/
def listensToAll (m : Machine) (l : Listener) : List VarRef → Except Fault Bool
  | [] => .ok true
  | v :: vs => do if l ∈ (← m.heap.listeners v) then m.listensToAll l vs else return false

/-- The first control variable in a list of listeners that has no value and listens to all of
    these variables. -/
def pendingControl? (m : Machine) (others : List VarRef) :
    List Listener → Except Fault (Option VarRef)
  | [] => .ok none
  | .thread _ :: rest => m.pendingControl? others rest
  | .control c :: rest => do
    if ← m.isDetermined (.variable c) then m.pendingControl? others rest
    else if ← m.listensToAll (.control c) others then return some c
    else m.pendingControl? others rest

/-- Makes a listener wait for each of the variables. -/
def listenTo (m : Machine) (l : Listener) : List VarRef → Except Fault Machine
  | [] => .ok m
  | v :: vs => do
    let (_, heap) ← m.heap.addListener v l
    { m with heap }.listenTo l vs

/-- The variable to wait for until one of these has a value. -/
def waitForAny (m : Machine) : List VarRef → Except Fault (VarRef × Machine)
  | [] => .error (.outOfRange 0 0)
  | [v] => .ok (v, m)
  | v :: vs => do
    -- a control variable of an earlier attempt listens to all of them
    match ← m.pendingControl? vs (← m.heap.listeners v) with
    | some c => return (c, m)
    | none =>
      let (c, fresh) := m.newVariable
      return (c, ← fresh.listenTo (.control c) (v :: vs))

/-- The feature of the first field that has a value. A literal is its own answer. -/
def waitOr (m : Machine) (value : Node) : Except Fault (Outcome × Machine) :=
  m.withReceiver value fun
    | .literal l => return (.proceed [l.toNode], m)
    | .record ref => do
      let r ← m.heap.record ref
      match ← m.firstDetermined (r.features.zip r.fields) with
      | .inl f => return (.proceed [f.toNode], m)
      | .inr vs =>
        let (v, m) ← m.waitForAny vs
        return (.suspend v, m)

end Machine

end Dataflow
