import Dataflow.Machine

/-! # Collections

  A collection copies everything that is alive into a fresh heap and a fresh atom table.

  A *collector* is what a collection has built so far, together with two memos: where it has
  moved which record, and where it has moved which unbound variable. What a node is relocated
  to depends on its kind. Inline values are copied. An atom is interned in the new table. A
  record has its place reserved before its parts are relocated, and an unbound variable before
  those who listen to it, so circles end at the memo and what is shared stays shared. A bound
  variable disappears in favour of its value.
-/

namespace Dataflow

/-! ### Collectors -/

/-- What stands in the place of a record while its parts are relocated. -/
def Record.placeholder : Record := { label := .unit, arity := .tuple, fields := [] }

/-- What a collection has built, and where it has moved what. The memos list pairs of an old and
    a new reference, the latest last. -/
structure Collector where
  atoms : AtomTable
  heap : Heap
  records : List (RecordRef × RecordRef) := []
  vars : List (VarRef × VarRef) := []
  deriving DecidableEq

/-- A part of a collection. -/
abbrev Collecting := StateT Collector (Except Fault)

namespace Collector

/-- The atom of the new table with this content. -/
def intern (content : String) : Collecting Atom :=
  modifyGet fun c =>
    let (a, atoms) := c.atoms.intern content
    (a, { c with atoms })

/-- Reserves a place for a record, and remembers it. -/
def reserveRecord (source : RecordRef) : Collecting RecordRef :=
  modifyGet fun c =>
    let (target, heap) := c.heap.allocateRecord .placeholder
    (target, { c with heap, records := c.records ++ [(source, target)] })

/-- Fills the place of a record. -/
def fillRecord (target : RecordRef) (r : Record) : Collecting Unit :=
  modify fun c => { c with heap := c.heap.replaceRecord target r }

/-- Makes a variable for an unbound one, and remembers it. -/
def reserveVariable (source : VarRef) : Collecting VarRef :=
  modifyGet fun c =>
    let (target, heap) := c.heap.allocateVariable
    (target, { c with heap, vars := c.vars ++ [(source, target)] })

/-- Gives a new variable its state. -/
def fillVariable (target : VarRef) (cell : Cell) : Collecting Unit :=
  modify fun c => { c with heap := c.heap.setCell target cell }

/-! ### Relocating nodes -/

/-- Relocates a literal. An atom is never copied: it belongs to one table. -/
def relocateLiteral : Literal → Collecting Literal
  | .atom a => do return .atom (← intern a.content)
  | l => return l

def relocateFeature : Feature → Collecting Feature
  | .int i => return .int i
  | .literal l => do return .literal (← relocateLiteral l)

def relocateArity : Arity → Collecting Arity
  | .tuple => return .tuple
  | .features names => do return .features (← names.mapM relocateFeature)

section Parts

variable (h : Heap) (relocate : Node → Collecting Node)

/-- Relocates the parts of a record: its label, its stored features, its fields. -/
def relocateParts (r : Record) : Collecting Record := do
  let label ← relocateLiteral r.label
  let arity ← relocateArity r.arity
  let fields ← r.fields.mapM relocate
  return { label, arity, fields }

/-- Relocates a record, unless that was done before. -/
def relocateRecord (source : RecordRef) : Collecting RecordRef := do
  match (← get).records.lookup source with
  | some target => return target
  | none =>
    -- the place is taken before the parts are visited, so cycles end here
    let target ← reserveRecord source
    let r ← relocateParts relocate (← h.record source)
    fillRecord target r
    return target

/-- Relocates a listener. A control that has a value has nobody left to wake, and is dropped. -/
def relocateListener : Listener → Collecting (Option Listener)
  | .thread id => return some (.thread id)
  | .control v => do return (← relocate (.variable v)).asVariable?.map .control

/-- Relocates a variable: a bound one to where its value goes, an unbound one with those who
    listen to it, unless that was done before. -/
def relocateVariable (source : VarRef) : Collecting Node := do
  match ← h.cell source with
  | .bound value => relocate value
  | .unbound listeners =>
    match (← get).vars.lookup source with
    | some target => return .variable target
    | none =>
      let target ← reserveVariable source
      let kept ← listeners.mapM (relocateListener relocate)
      fillVariable target (.unbound (kept.filterMap fun l => l))
      return .variable target

end Parts

/-- Relocates a node of the heap. The number bounds how deeply this may be nested. -/
def relocate (h : Heap) : Nat → Node → Collecting Node
  | 0, _ => throw .endless
  | n + 1, node =>
    match node with
    | .atom a => do return .atom (← intern a.content)
    | .record ref => do return .record (← relocateRecord h (relocate h n) ref)
    | .variable v => relocateVariable h (relocate h n) v
    | value => return value

end Collector

/-- A bound on the depth of relocations: every record and every variable is entered once, at the
    end of a chain of bound variables. -/
def Heap.relocationDepth (h : Heap) : Nat :=
  (h.recordCount + h.variableCount + 1) * (h.variableCount + 1)

/-! ### Collecting a machine -/

/-- The sizes of a machine before and after a collection. -/
structure CollectionStats where
  atoms : Nat × Nat
  records : Nat × Nat
  vars : Nat × Nat
  deriving DecidableEq

namespace Collector

/-- The collector that a collection of the machine starts with. -/
def new (m : Machine) : Collector :=
  { atoms := m.atoms.successor, heap := { settings := m.heap.settings } }

variable (relocate : Node → Collecting Node)

/-- Relocates the state of a thread. A thread whose variable turns out to have a value runs
    again. -/
def relocateState : ThreadState → Collecting ThreadState
  | .waiting v => do
    match ← relocate (.variable v) with
    | .variable w => return .waiting w
    | _ => return .runnable
  | .failed exception => do return .failed (← relocate exception)
  | state => return state

def relocateThread (t : Thread) : Collecting Thread := do
  let registers ← t.registers.mapM relocate
  let state ← relocateState relocate t.state
  return { t with registers, state }

/-- Relocates what the threads hold, and puts those that stopped waiting at the end of the
    queue. Threads are visited here in the order in which they were spawned. The program goes
    through a hash table in an order of its own, so the places in the new heap, and the places in
    the queue of threads that stopped waiting, may be others there. -/
def relocateScheduler (scheduler : Scheduler) : Collecting Scheduler := do
  let threads ← scheduler.threads.mapM (relocateThread relocate)
  let resumed := (scheduler.threads.zip threads).filterMap fun (before, after) =>
    if before.state.isWaiting && after.state.isRunnable then some after.id else none
  return { scheduler with threads, ready := scheduler.ready ++ resumed }

end Collector

namespace Machine

/-- Relocates a node of the machine. -/
def relocate (m : Machine) : Node → Collecting Node :=
  Collector.relocate m.heap m.heap.relocationDepth

/-- The machine after a collection: the roots are relocated in the order of their slots, then what
    the threads hold. What was moved does not count towards the next collection. -/
def collect (m : Machine) : Except Fault Machine := do
  let (roots, c) ← (m.roots.mapM m.relocate).run (.new m)
  let (scheduler, c) ← (Collector.relocateScheduler m.relocate m.scheduler).run c
  return { m with atoms := c.atoms, heap := { c.heap with allocated := 0 }, roots, scheduler }

/-- The sizes of a machine and of the same machine after a collection. -/
def stats (before after : Machine) : CollectionStats where
  atoms := (before.atoms.size, after.atoms.size)
  records := (before.heap.recordCount, after.heap.recordCount)
  vars := (before.heap.variableCount, after.heap.variableCount)

end Machine

end Dataflow
