import Dataflow.Machine

/-! # Exceptions

  What a program does wrong is a value of the language:
  `error(kernel(kind argument …) debug:unit)`. The kind says what went wrong.
-/

namespace Dataflow.Machine

/-! ### Making exceptions -/

/-- The record `kernel(kind argument …)`. -/
def exceptionDetail (m : Machine) (kind : String) (arguments : List Node) : Node × Machine :=
  let (kernel, atoms) := m.atoms.intern "kernel"
  let (kind, atoms) := atoms.intern kind
  { m with atoms }.allocate ⟨.atom kernel, .tuple, .atom kind :: arguments⟩

theorem exceptionDetail_eq (m : Machine) (kind : String) (arguments : List Node) :
    m.exceptionDetail kind arguments =
      { m with atoms := (m.atoms.insert "kernel").insert kind }.allocate
        ⟨.atom ⟨m.atoms.id, "kernel"⟩, .tuple,
          .atom ⟨(m.atoms.insert "kernel").id, kind⟩ :: arguments⟩ := by
  simp only [exceptionDetail, AtomTable.intern_eq]

/-- The exception `error(kernel(kind argument …) debug:unit)`. -/
def newException (m : Machine) (kind : String) (arguments : List Node) : Node × Machine :=
  let (detail, m) := m.exceptionDetail kind arguments
  let (error, atoms) := m.atoms.intern "error"
  let (debug, atoms) := atoms.intern "debug"
  { m with atoms }.allocate
    (.ofSorted (.atom error) [(.int 1, detail), (.literal (.atom debug), .unit)])

/-- An exception is made in the state that its detail is made in. -/
theorem newException_eq (m : Machine) (kind : String) (arguments : List Node) :
    m.newException kind arguments =
      (fun e => { e.2 with atoms := (e.2.atoms.insert "error").insert "debug" }.allocate
        (.ofSorted (.atom ⟨e.2.atoms.id, "error"⟩)
          [(.int 1, e.1), (.literal (.atom ⟨(e.2.atoms.insert "error").id, "debug"⟩), .unit)]))
        (m.exceptionDetail kind arguments) := by
  simp only [newException, AtomTable.intern_eq]

/-- The call fails because a value is not of the expected type. -/
def raiseTypeError (m : Machine) (expected : String) (value : Node) : Outcome × Machine :=
  let (expected, m) := m.newAtom expected
  let (e, m) := m.newException "typeError" [expected, value]
  (.raise e, m)

theorem raiseTypeError_eq (m : Machine) (expected : String) (value : Node) :
    m.raiseTypeError expected value =
      (.raise ({ m with atoms := m.atoms.insert expected }.newException "typeError"
          [.atom ⟨m.atoms.id, expected⟩, value]).1,
        ({ m with atoms := m.atoms.insert expected }.newException "typeError"
          [.atom ⟨m.atoms.id, expected⟩, value]).2) := by
  simp only [raiseTypeError, newAtom_eq]

/-- The call fails because a value has no such field. -/
def raiseIllegalFieldSelection (m : Machine) (value feature : Node) : Outcome × Machine :=
  let (e, m) := m.newException "illegalFieldSelection" [value, feature]
  (.raise e, m)

/-- The call fails because two values that should be equal are not. -/
def raiseFailure (m : Machine) (left right : Node) : Outcome × Machine :=
  let (e, m) := m.newException "failure" [left, right]
  (.raise e, m)

/-! ### Reading exceptions -/

/-- The first field of a record with this atom as its label. -/
def firstFieldOf (m : Machine) (label : String) (n : Node) : Except Fault (Option Node) := do
  match ← m.deref n with
  | .record ref =>
    let r ← m.heap.record ref
    match r.label with
    | .atom a => return if a.content = label then r.lookupNumber 1 else none
    | _ => return none
  | _ => return none

/-- The kind of an exception. -/
def exceptionKind (m : Machine) (exception : Node) : Except Fault (Option String) := do
  match ← m.firstFieldOf "error" exception with
  | none => return none
  | some detail =>
    match ← m.firstFieldOf "kernel" detail with
    | none => return none
    | some kind => return (← m.deref kind).asAtom?.map Atom.content

end Dataflow.Machine
