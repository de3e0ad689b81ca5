import Dataflow.Equality
import Dataflow.Hash
import Dataflow.Ownership
import Dataflow.Print
import Dataflow.Scheduler

/-! # Machines

  A machine is an atom table, a heap, its threads, the nodes that its host has pinned
  as roots, and the text that its threads have shown. Machines share nothing.
-/

namespace Dataflow

/-! ### State -/

/-- How a machine runs and prints. -/
structure Settings where
  /-- The number of calls that a thread makes before the next thread has its turn. -/
  quantum : Nat := 64
  /-- The depth to which values are printed and hashed. -/
  printDepth : Nat := 10
  deriving DecidableEq

/-- A request for a machine; what is left open takes its default. -/
structure Configuration where
  capacity : Option Nat := none
  threshold : Option Nat := none
  quantum : Option Nat := none
  printDepth : Option Nat := none
  deriving DecidableEq

/-- A heap's settings, with defaults for what is left open. -/
def HeapSettings.ofOptions (capacity threshold : Option Nat) : HeapSettings :=
  let default : HeapSettings := {}
  { capacity := capacity.getD default.capacity
    threshold := threshold.getD default.threshold }

/-- The settings that a configuration asks for. A turn has at least one call. -/
def Configuration.settings (c : Configuration) : Settings :=
  let default : Settings := {}
  { quantum := (c.quantum.map (max 1)).getD default.quantum
    printDepth := c.printDepth.getD default.printDepth }

structure Machine where
  id : MachineId
  settings : Settings := {}
  atoms : AtomTable := { id := ⟨id, 0⟩ }
  heap : Heap := {}
  scheduler : Scheduler := {}
  /-- The nodes that the host has pinned, in the order of their slots. -/
  roots : List Node := []
  /-- What its threads have shown. -/
  output : String := ""
  deriving DecidableEq

namespace Machine

def new (id : MachineId) (c : Configuration) : Machine :=
  { id
    settings := c.settings
    heap := { settings := .ofOptions c.capacity c.threshold } }

/-! ### Making nodes -/

def newAtom (m : Machine) (content : String) : Node × Machine :=
  let (a, atoms) := m.atoms.intern content
  (.atom a, { m with atoms })

theorem newAtom_eq (m : Machine) (content : String) :
    m.newAtom content =
      (.atom ⟨m.atoms.id, content⟩, { m with atoms := m.atoms.insert content }) := by
  rw [newAtom, AtomTable.intern_eq]

def newVariable (m : Machine) : VarRef × Machine :=
  let (v, heap) := m.heap.allocateVariable
  (v, { m with heap })

/-- A reference to a new record. -/
def allocate (m : Machine) (r : Record) : Node × Machine :=
  let (ref, heap) := m.heap.allocateRecord r
  (.record ref, { m with heap })

/-- Puts a node after the pinned ones. The answer is its slot. -/
def pin (roots : List Node) (n : Node) : Nat × List Node := (roots.length, roots ++ [n])

/-- Pins a node across collections. The answer is the slot to read it back from. -/
def addRoot (m : Machine) (n : Node) : Nat × Machine :=
  let (slot, roots) := pin m.roots n
  (slot, { m with roots })

def root? (m : Machine) (slot : Nat) : Option Node := m.roots[slot]?

/-- What was shown so far, and the machine with nothing shown. -/
def takeOutput (m : Machine) : String × Machine := (m.output, { m with output := "" })

/-! ### Looking at nodes -/

def deref (m : Machine) (n : Node) : Except Fault Node := m.heap.deref n

def isDetermined (m : Machine) (n : Node) : Except Fault Bool := m.heap.isDetermined n

def print (m : Machine) (n : Node) (depth : Nat) : Except Fault String := m.heap.print depth n

/-- The text of a node, to the depth that the machine prints. -/
def repr (m : Machine) (n : Node) : Except Fault String := m.print n m.settings.printDepth

def equals (m : Machine) (left right : Node) : Except Fault Bool := m.heap.equals m.id left right

/-- Whether two nodes of one kind are equal as they stand: records by their values, and
    everything else, variables included, without dereferencing. -/
def kindEquals (m : Machine) : Node → Node → Except Fault Bool
  | .record a, .record b => if a = b then .ok true else m.equals (.record a) (.record b)
  | left, right => left.sameValue m.id right

/-- The items that a node is hashed by. -/
def hashItems (m : Machine) (n : Node) : Except Fault (List HashItem) :=
  m.heap.hashItems m.settings.printDepth n

/-- Checks that a value holds no atom of another machine. -/
def owns (m : Machine) (n : Node) : Except Fault (Except Refusal Unit) := do
  match ← m.heap.foreignOwner? m.id n with
  | some found => return .error (.foreignValue m.id found)
  | none => return .ok ()

/-- Equality, refused on values that hold atoms of other machines. -/
def tryEquals (m : Machine) (left right : Node) : Except Fault (Except Refusal Bool) := do
  match ← m.owns left with
  | .error e => return .error e
  | .ok () =>
    match ← m.owns right with
    | .error e => return .error e
    | .ok () => return .ok (← m.equals left right)

end Machine

end Dataflow
