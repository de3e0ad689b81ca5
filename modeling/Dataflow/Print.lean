import Dataflow.Atom.Text
import Dataflow.Heap.Deref

/-! # The text of values

  Nested records are written out to a given depth and elided below it. Negative
  numbers carry a tilde. Fields whose features count up from one are written without
  them, up to the first feature that does not fit; an unbound variable is an
  underscore.
-/

namespace Dataflow

/-! ### Text of simple values -/

/-- The text of an integer. -/
def integerText (i : Int) : String :=
  if i < 0 then "~" ++ Nat.repr i.natAbs else Nat.repr i.natAbs

/-- The text of a literal. -/
def Literal.text : Literal → String
  | .atom a => a.text
  | .bool true => "true"
  | .bool false => "false"
  | .unit => "unit"

/-- The text of a feature. -/
def Feature.text : Feature → String
  | .int i => integerText i
  | .literal l => l.text

/-- The text that stands for an elided record. -/
def elision : String := ",,,"

/-- The text of a dereferenced node, with a record elided. -/
def Node.leafText : Node → String
  | .atom a => (Literal.atom a).text
  | .int i => integerText i
  | .float x => x.text
  | .bool b => (Literal.bool b).text
  | .unit => Literal.unit.text
  | .record _ => elision
  | .variable _ => "_"

/-! ### Text of records -/

/-- The texts of fields with their features before them, where the features stop counting up
    from `k`. -/
def fieldTexts : Int → List Feature → List String → List String
  | k, f :: fs, t :: ts =>
    if f = .int k then t :: fieldTexts (k + 1) fs ts
    else List.zipWith (fun name text => name.text ++ ":" ++ text) (f :: fs) (t :: ts)
  | _, _, _ => []

/-- The text of a record whose fields have the given texts. -/
def Record.text (r : Record) (fields : List String) : String :=
  r.label.text ++ "(" ++ " ".intercalate (fieldTexts 1 r.features fields) ++ ")"

/-- The text of a node, with records written out to the given depth. -/
def Heap.print (h : Heap) : Nat → Node → Except Fault String
  | 0, n => do return (← h.deref n).leafText
  | depth + 1, n => do
    match ← h.deref n with
    | .record ref =>
      let r ← h.record ref
      return r.text (← r.fields.mapM (h.print depth))
    | leaf => return leaf.leafText

end Dataflow
