import Dataflow.Machine

/-! # Building records

  A record is built from a label and a list of features with their fields, in any
  order. The label has to be a literal, the features have to be integers or literals,
  and no feature may occur twice. A record without fields is its label.
-/

namespace Dataflow

/-! ### Sorting features -/

/-- Puts a field before the first one whose feature is not smaller. -/
def insertField (e : Feature × Node) : List (Feature × Node) → List (Feature × Node)
  | [] => [e]
  | e' :: rest => if e.1.compare e'.1 = .gt then e' :: insertField e rest else e :: e' :: rest

/-- The fields in ascending order of their features; equal features keep their order. -/
def sortFields (fields : List (Feature × Node)) : List (Feature × Node) :=
  fields.foldr insertField []

/-- The first feature of a sorted list that is followed by an equal one. -/
def duplicate? : List (Feature × Node) → Option Feature
  | e :: e' :: rest =>
    if e.1.compare e'.1 = .eq then some e.1 else duplicate? (e' :: rest)
  | _ => none

namespace Machine

/-! ### Records -/

/-- The dereferenced label, if it is a literal. -/
def labelOf (m : Machine) (label : Node) : Except Fault (Except Refusal Literal) := do
  let label ← m.deref label
  match label.asLiteral? with
  | some l => return .ok l
  | none => return .error (.invalidLabel (← m.repr label))

/-- The fields with their features dereferenced, if each of these is a feature. -/
def featuresOf (m : Machine) :
    List (Node × Node) → Except Fault (Except Refusal (List (Feature × Node)))
  | [] => .ok (.ok [])
  | (feature, value) :: rest => do
    let feature ← m.deref feature
    match feature.asFeature? with
    | some f => return (← m.featuresOf rest).map ((f, value) :: ·)
    | none => return .error (.invalidFeature (← m.repr feature))

/-- A record with the given label and fields. -/
def buildRecord (m : Machine) (label : Node) (fields : List (Node × Node)) :
    Except Fault (Except Refusal (Node × Machine)) := do
  match ← m.labelOf label with
  | .error e => return .error e
  | .ok l =>
    if fields.isEmpty then return .ok (l.toNode, m)
    match ← m.featuresOf fields with
    | .error e => return .error e
    | .ok fields =>
      let sorted := sortFields fields
      match duplicate? sorted with
      | some f => return .error (.duplicateFeature (← m.repr f.toNode))
      | none => return .ok (m.allocate (.ofSorted l sorted))

/-- A tuple with the given label and fields. -/
def buildTuple (m : Machine) (label : Node) (values : List Node) :
    Except Fault (Except Refusal (Node × Machine)) := do
  match ← m.labelOf label with
  | .error e => return .error e
  | .ok l =>
    if values.isEmpty then return .ok (l.toNode, m)
    return .ok (m.allocate ⟨l, .tuple, values⟩)

end Machine

end Dataflow
