import Dataflow.Session.Term

/-! # Requests and replies

  Everything that a host can ask of a session, and what it is told. A request is made of
  one machine.
-/

namespace Dataflow

/-! ### Requests -/

/-- What can be asked of a record or a literal. -/
inductive Selection where
  | label
  | width
  | dot (feature : Term)
  | dotNumber (i : Int)
  | waitOr

/-- How a result is to be kept. -/
inductive Keep where
  | nowhere
  /-- Under a name, in a root. -/
  | root (name : String)
  /-- Under a name, until the machine may collect. -/
  | temporary (name : String)
  deriving DecidableEq

/-- The ways in which two values are compared. -/
inductive Comparison where
  /-- By value. -/
  | equals
  /-- By value, with atoms of this machine only. -/
  | tryEquals
  /-- By hash. -/
  | hash
  /-- As nodes of one kind. -/
  | kind
  deriving DecidableEq

/-- What a host asks. -/
inductive Request where
  /-- Build a value. -/
  | build (value : Term) (keep : Keep)
  /-- The text of a value, to a depth or to that of the machine. -/
  | print (value : Term) (depth : Option Nat)
  /-- Everything reachable from values. -/
  | inspect (values : List Term)
  /-- What a collection would make of values. -/
  | relocate (values : List Term)
  | compare (how : Comparison) (left right : Term)
  | sameArity (left right : Term)
  /-- Whether two atoms are the same, and of one machine. -/
  | sameIdentity (left right : Term)
  | featureOrder (left right : Term)
  | owns (value : Term)
  | kind (value : Term)
  | deref (value : Term) (keep : Keep)
  | bind (var value : Term)
  | call (builtin : String) (inputs : List Term) (keep : Keep)
  /-- Select from a record. -/
  | select (selection : Selection) (value : Term) (keep : Keep)
  | record (value : Term)
  | lookup (value feature : Term)
  | lookupNumber (value : Term) (i : Int)
  | newException (kind : String) (arguments : List Term) (keep : Keep)
  | exceptionKind (value : Term)
  | lookupAtom (content : String)
  | atomText (content : String)
  | builtins
  /-- Start a thread, with its builtins given by name. -/
  | spawn (code : List (String × List Nat × List Nat)) (registers : List Term)
  | kill (thread : ThreadId)
  | runNext
  | run
  | thread (thread : ThreadId)
  | register (thread : ThreadId) (index : Nat) (keep : Keep)
  /-- What a thread waits for or has raised. -/
  | waitingOn (thread : ThreadId) (keep : Keep)
  | collect
  | root (slot : Nat)
  | output
  /-- What the threads have shown, and forget it. -/
  | takeOutput
  | settings
  /-- Pin values in a fresh list of roots. -/
  | roots (values : List Term)
  /-- Replace the heap that belongs to no machine. -/
  | newHeap (settings : HeapSettings)
  /-- Allocate a variable in that heap. -/
  | heapVariable (keep : Keep)
  /-- Copy a record of the machine into that heap. -/
  | heapRecord (value : Term) (keep : Keep)
  /-- Look for a node in that heap, and show what it reaches there unless only probed. -/
  | heapGet (value : Term) (probe : Bool)

/-! ### Replies -/

/-- A thread as its host sees it. -/
structure ThreadView where
  thread : Thread
  /-- The text of the exception, if it has raised one. -/
  exception : Option String
  texts : List String
  deriving DecidableEq

/-- What a host is told. -/
inductive Reply where
  | value (n : Node)
  | value? (n : Option Node)
  | repr (text : String)
  | snapshot (s : Snapshot)
  /-- The sizes of the copy, whether it calls for a collection, and the copy itself. -/
  | relocated (atoms records vars : Nat) (needs : Bool) (s : Snapshot)
  | equal (answer : Bool)
  | identity (same sameOwner : Bool)
  | order (o : Ordering)
  | owned
  /-- A node, for its kind, and whether it has a value. -/
  | kind (n : Node) (determined : Bool)
  | dereferenced (n : Node) (determined : Bool)
  | bound
  /-- The slots of the results, and their texts. -/
  | proceeded (slots : List Node) (texts : List String)
  /-- The text and the kind of the exception, and the untouched slots. -/
  | raised (text : String) (kind : Option String) (slots : List Node)
  /-- The variable to wait for, and the untouched slots. -/
  | suspended (v : VarRef) (slots : List Node)
  | record (r : Record)
  | found (n : Option Node)
  | exception (n : Node) (text : String)
  | exceptionKind (kind : Option String)
  /-- The atom, whether its table is empty, and whether table and atom are the machine's own. -/
  | atom (found : Option Atom) (empty ownTable : Bool) (ownAtom : Option Bool)
  | text (t : String)
  | builtins (table : List Builtin)
  | spawned (id : ThreadId)
  | killed
  | ran (answer : Bool)
  | report (r : Machine.Report)
  | thread (view : Option ThreadView)
  | collected (stats : CollectionStats)
  | settings (machine : Settings) (heap : HeapSettings)
  /-- The slots handed out, and the nodes in them. -/
  | roots (slots : List Nat) (nodes : List Node)
  | heapSettings (s : HeapSettings)
  /-- A node of the heap that belongs to no machine, and the size of that heap. -/
  | inHeap (n : Node) (records vars : Nat) (needs : Bool)
  | contains (answer : Bool) (s : Option Snapshot)

/-- The size of a machine: its atoms, records and variables, and whether it calls for a
    collection. -/
structure Census where
  atoms : Nat
  records : Nat
  vars : Nat
  /-- Whether the heap calls for a collection. -/
  needs : Bool
  deriving DecidableEq

/-- The size of a machine. -/
def Machine.census (m : Machine) : Census :=
  ⟨m.atoms.size, m.heap.recordCount, m.heap.variableCount, m.heap.needsCollection⟩

end Dataflow
