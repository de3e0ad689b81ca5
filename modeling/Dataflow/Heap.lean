import Dataflow.Fault
import Dataflow.Record

/-! # Heaps

  A heap holds records and variables, each numbered in order of allocation. Records
  are complete when they are allocated, but for those that a collection is about to move. A
  variable is a cell that is unbound at first and is bound once; while it is unbound it keeps
  the list of those who wait for it. Numbers are not bounded, so a heap never runs out of them.

  A heap counts its allocations, and asks for a collection when they reach its
  threshold.
-/

namespace Dataflow

/-! ### Cells -/

/-- A thread, by its number. Numbers start at one and are never used twice. -/
structure ThreadId where
  number : Nat
  deriving DecidableEq

/-- Who waits for a variable. -/
inductive Listener where
  /-- A thread, to be woken. -/
  | thread (id : ThreadId)
  /-- A control variable, to be bound in turn. -/
  | control (v : VarRef)
  deriving DecidableEq

def Listener.thread? : Listener → Option ThreadId
  | .thread id => some id
  | .control _ => none

def Listener.control? : Listener → Option VarRef
  | .thread _ => none
  | .control v => some v

/-- The state of a variable. -/
inductive Cell where
  /-- Without a value, and with those who wait for one. -/
  | unbound (listeners : List Listener)
  /-- With its value, for good. -/
  | bound (value : Node)
  deriving DecidableEq

/-! ### Heaps -/

/-- How a heap is set up. -/
structure HeapSettings where
  /-- Room made for records and variables at the start. -/
  capacity : Nat := 1024
  /-- The number of allocations that calls for a collection. -/
  threshold : Nat := 65536
  deriving DecidableEq

/-- The room that one record takes, in bytes. A variable takes less. -/
def recordBytes : Nat := 48

/-- Whether the room made at the start can be addressed: it has to stay below `2 ^ 63` bytes. -/
def HeapSettings.isAddressable (s : HeapSettings) : Bool :=
  decide (s.capacity * recordBytes < Nat.pow 2 63)

/-- Records and variables, in order of allocation. -/
structure Heap where
  settings : HeapSettings := {}
  records : Array Record := #[]
  cells : Array Cell := #[]
  /-- The number of allocations since the last collection. -/
  allocated : Nat := 0
  deriving DecidableEq

namespace Heap

def recordCount (h : Heap) : Nat := h.records.size

def variableCount (h : Heap) : Nat := h.cells.size

/-- Whether enough has been allocated to call for a collection. -/
def needsCollection (h : Heap) : Bool := decide (h.settings.threshold ≤ h.allocated)

def containsRecord (h : Heap) (r : RecordRef) : Bool := decide (r.index < h.records.size)

def containsVariable (h : Heap) (v : VarRef) : Bool := decide (v.index < h.cells.size)

/-! ### Reading -/

/-- The record at a reference. -/
def record (h : Heap) (r : RecordRef) : Except Fault Record :=
  match h.records[r.index]? with
  | some record => .ok record
  | none => .error (.danglingRecord r)

/-- The cell at a reference. -/
def cell (h : Heap) (v : VarRef) : Except Fault Cell :=
  match h.cells[v.index]? with
  | some cell => .ok cell
  | none => .error (.danglingVariable v)

/-- Those who wait for a variable; nobody waits for a bound one. -/
def listeners (h : Heap) (v : VarRef) : Except Fault (List Listener) := do
  match ← h.cell v with
  | .unbound listeners => return listeners
  | .bound _ => return []

/-! ### Writing -/

/-- The heap with one more record. -/
def allocateRecord (h : Heap) (record : Record) : RecordRef × Heap :=
  (⟨h.records.size⟩, { h with records := h.records.push record, allocated := h.allocated + 1 })

/-- The heap with another record in the place of one. -/
def replaceRecord (h : Heap) (ref : RecordRef) (record : Record) : Heap :=
  { h with records := h.records.setIfInBounds ref.index record }

/-- The heap with one more variable, for which nobody waits yet. -/
def allocateVariable (h : Heap) : VarRef × Heap :=
  (⟨h.cells.size⟩, { h with cells := h.cells.push (.unbound []), allocated := h.allocated + 1 })

/-- The heap with a new state of one variable. -/
def setCell (h : Heap) (v : VarRef) (cell : Cell) : Heap :=
  { h with cells := h.cells.setIfInBounds v.index cell }

/-! ### Reading what was written -/

/-- Reading a record succeeds exactly where one is stored. -/
theorem record_eq_ok_iff {h : Heap} {ref : RecordRef} {r : Record} :
    h.record ref = .ok r ↔ h.records[ref.index]? = some r := by
  unfold record; split <;> simp_all

/-- Reading a cell succeeds exactly where one is stored. -/
theorem cell_eq_ok_iff {h : Heap} {v : VarRef} {c : Cell} :
    h.cell v = .ok c ↔ h.cells[v.index]? = some c := by
  unfold cell; split <;> simp_all

/-- A fresh record can be read back. -/
@[simp] theorem record_allocateRecord_self (h : Heap) (r : Record) :
    (h.allocateRecord r).2.record (h.allocateRecord r).1 = .ok r := by
  simp [allocateRecord, record]

/-- Allocating a record leaves every record as it was. -/
theorem record_allocateRecord_of_ok {h : Heap} {ref : RecordRef} {old : Record}
    (stored : h.record ref = .ok old) (r : Record) :
    (h.allocateRecord r).2.record ref = .ok old := by
  rw [record_eq_ok_iff] at stored ⊢
  obtain ⟨inside, _⟩ := Array.getElem?_eq_some_iff.mp stored
  simpa [allocateRecord, Array.getElem?_push, Nat.ne_of_lt inside] using stored

/-- A place that is taken holds the record that it was given. -/
theorem record_replaceRecord_self {h : Heap} {ref : RecordRef} (r : Record)
    (inside : ref.index < h.records.size) : (h.replaceRecord ref r).record ref = .ok r := by
  simp [replaceRecord, record, inside]

/-- All other places keep their records. -/
theorem record_replaceRecord_ne {h : Heap} {ref other : RecordRef} (r : Record)
    (ne : other ≠ ref) : (h.replaceRecord ref r).record other = h.record other := by
  have : ref.index ≠ other.index := fun e => ne (by cases ref; cases other; simp_all)
  simp [replaceRecord, record, Array.getElem?_setIfInBounds_ne this]

/-- Allocating a variable leaves every variable as it was. -/
theorem cell_allocateVariable_of_ok {h : Heap} {v : VarRef} {old : Cell}
    (stored : h.cell v = .ok old) : h.allocateVariable.2.cell v = .ok old := by
  rw [cell_eq_ok_iff] at stored ⊢
  obtain ⟨inside, _⟩ := Array.getElem?_eq_some_iff.mp stored
  simpa [allocateVariable, Array.getElem?_push, Nat.ne_of_lt inside] using stored

/-- A variable that lies in the heap has the state it was given. -/
theorem cell_setCell_self {h : Heap} {v : VarRef} (c : Cell) (inside : v.index < h.cells.size) :
    (h.setCell v c).cell v = .ok c := by
  simp [setCell, cell, inside]

/-- All other variables keep their state. -/
theorem cell_setCell_ne {h : Heap} {v w : VarRef} (c : Cell) (other : w ≠ v) :
    (h.setCell v c).cell w = h.cell w := by
  have : v.index ≠ w.index := fun e => other (by cases v; cases w; simp_all)
  simp [setCell, cell, Array.getElem?_setIfInBounds_ne this]

/-! ### Listening -/

/-- Puts a listener at the end of a variable's list, unless it is there already. The answer
    is whether the variable can be waited for: a bound one takes no listener. -/
def addListener (h : Heap) (v : VarRef) (l : Listener) : Except Fault (Bool × Heap) := do
  match ← h.cell v with
  | .unbound listeners =>
    if l ∈ listeners then return (true, h)
    else return (true, h.setCell v (.unbound (listeners ++ [l])))
  | .bound _ => return (false, h)

end Heap

end Dataflow
