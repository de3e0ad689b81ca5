import Dataflow.Session.Request

/-! # Performing requests

  Each request is evaluated on its machine. A rejected request leaves behind what was
  built for it, and the session goes on; a fault ends the session.
-/

namespace Dataflow

namespace Action

/-! ### Keeping results -/

/-- Keeps a node as asked. -/
def keepAs (id : MachineId) (how : Keep) (n : Node) : Action Unit :=
  match how with
  | .nowhere => pure ()
  | .root name => keepRoot id name n
  | .temporary name => keepTemporary id name n

/-- Keeps a node as asked, if there is one. -/
def keepAs? (id : MachineId) (how : Keep) (n : Option Node) : Action Unit :=
  match n with
  | some n => keepAs id how n
  | none => pure ()

/-- The reply to a call, whose slots held `blank` before it. -/
def outcome (id : MachineId) (blank : List Node) (how : Keep) (o : Outcome) : Action Reply := do
  let slots := o.fill blank
  match o with
  | .proceed _ =>
    let texts ← ask id fun m => slots.mapM m.repr
    keepAs? id how slots.head?
    return .proceeded slots texts
  | .raise e =>
    let text ← ask id (·.repr e)
    let kind ← ask id (·.exceptionKind e)
    keepAs id how e
    return .raised text kind slots
  | .suspend v =>
    keepAs id how (.variable v)
    return .suspended v slots

/-! ### Single requests -/

/-- The record that a node stands for. -/
def recordOf (id : MachineId) (n : Node) : Action Record := do
  match ← ask id (·.deref n) with
  | .record ref => ask id (·.heap.record ref)
  | _ => throw (.badInput .record)

/-- Whether two records have the same features. The first is looked at before the second is
    built. -/
def sameArity (id : MachineId) (left right : Term) : Action Bool := do
  let r ← recordOf id (← evaluate id left)
  let s ← recordOf id (← evaluate id right)
  ask id fun m => r.sameArity m.id s

/-- Compares two values. -/
def compare (id : MachineId) (how : Comparison) (left right : Term) : Action Bool := do
  let l ← evaluate id left
  let r ← evaluate id right
  match how with
  | .equals => ask id (·.equals l r)
  | .tryEquals => accept (← ask id (·.tryEquals l r))
  | .hash => ask id fun m => do return (← m.hashItems l) == (← m.hashItems r)
  | .kind =>
    if l.kind = r.kind then ask id (·.kindEquals l r) else throw (.badInput .operands)

/-- Selects from a record. -/
def select (id : MachineId) (selection : Selection) (n : Node) : Action Outcome := do
  match selection with
  | .label => onMachine id (·.label n)
  | .width => onMachine id (·.width n)
  | .dot feature =>
    let f ← evaluate id feature
    onMachine id (·.dot n f)
  | .dotNumber i => onMachine id (·.dotNumber n i)
  | .waitOr => onMachine id (·.waitOr n)

/-- A thread as its host sees it. -/
def viewThread (m : Machine) (t : Thread) : Except Fault ThreadView := do
  let exception ← match t.state with
    | .failed e => do pure (some (← m.repr e))
    | _ => pure none
  return ⟨t, exception, ← t.registers.mapM m.repr⟩

/-- The size of the heap that belongs to no machine, beside a node of it. -/
def inHeap (n : Node) : Action Reply := do
  let h := (← get).heap
  return .inHeap n h.recordCount h.variableCount h.needsCollection

/-- Whether the node lies in a heap. -/
def isIn (h : Heap) : Node → Bool
  | .record r => h.containsRecord r
  | .variable v => h.containsVariable v
  | _ => false

/-! ### All requests -/

/-- Does what is asked of a machine. -/
def perform (id : MachineId) : Request → Action Reply
  | .build value how => do
    let n ← evaluate id value
    keepAs id how n
    return .value n
  | .print value depth => do
    let n ← evaluate id value
    return .repr (← ask id fun m => m.print n (depth.getD m.settings.printDepth))
  | .inspect values => do
    let ns ← evaluateAll id values
    return .snapshot (← ask id fun m => Snapshot.ofNodes m.heap ns)
  | .relocate values => do
    let ns ← evaluateAll id values
    ask id fun m => do
      let (images, c) ← (ns.mapM m.relocate).run (.new m)
      return .relocated c.atoms.size c.heap.recordCount c.heap.variableCount
        c.heap.needsCollection (← Snapshot.ofNodes c.heap images)
  | .compare how left right => do return .equal (← compare id how left right)
  | .sameArity left right => do return .equal (← sameArity id left right)
  | .sameIdentity left right => do
    match ← evaluate id left, ← evaluate id right with
    | .atom a, .atom b => return .identity (a == b) (a.owner == b.owner)
    | _, _ => throw (.badInput .operands)
  | .featureOrder left right => do
    let l ← evaluate id left
    let r ← evaluate id right
    return .order (l.featureOrder r)
  | .owns value => do
    let n ← evaluate id value
    accept (← ask id (·.owns n))
    return .owned
  | .kind value => do
    let n ← evaluate id value
    return .kind n (← ask id (·.isDetermined n))
  | .deref value how => do
    let n ← evaluate id value
    let target ← ask id (·.deref n)
    keepAs id how target
    return .dereferenced target (← ask id (·.isDetermined n))
  | .bind var value => do
    match ← evaluate id var with
    | .variable v =>
      let n ← evaluate id value
      request id fun m => do return (← m.bind v n).map fun m => ((), m)
      return .bound
    | _ => throw (.badInput .variable)
  | .call name inputs how => do
    let b ← accept (Builtin.ofName name)
    let operands ← evaluateAll id inputs
    if operands.length ≠ b.inputs then throw (.badInput .inputs)
    let o ← onMachine id (·.call b operands)
    outcome id (List.replicate b.outputs .unit) how o
  | .select selection value how => do
    let n ← evaluate id value
    let o ← select id selection n
    outcome id [.int (-99)] how o
  | .record value => do
    let n ← evaluate id value
    return .record (← recordOf id n)
  | .lookup value feature => do
    let r ← recordOf id (← evaluate id value)
    let f ← evaluate id feature
    return .found (f.asFeature?.bind r.lookup)
  | .lookupNumber value i => do
    let r ← recordOf id (← evaluate id value)
    return .found (r.lookupNumber i)
  | .newException kind arguments how => do
    let ns ← evaluateAll id arguments
    let e ← change id (·.newException kind ns)
    keepAs id how e
    return .exception e (← ask id (·.repr e))
  | .exceptionKind value => do
    let n ← evaluate id value
    return .exceptionKind (← ask id (·.exceptionKind n))
  | .lookupAtom content => do
    let m ← machine id
    let found := m.atoms.find? content
    return .atom found (m.atoms.size == 0) (m.atoms.id.owner == m.id)
      (found.map fun a => a.owner == m.id)
  | .atomText content => return .text (Atom.textOf content)
  | .builtins => return .builtins Builtin.all
  | .spawn code registers => do
    let code ← accept (code.mapM fun (name, inputs, outputs) => do
      return (⟨← Builtin.ofName name, inputs, outputs⟩ : Instruction))
    let registers ← evaluateAll id registers
    let started ← request id fun m => .ok (m.spawn code registers)
    return .spawned started
  | .kill t => do
    request id fun m => .ok ((m.kill t).map fun m => ((), m))
    return .killed
  | .runNext => do
    forgetTemporaries id
    return .ran (← onMachine id (·.runNext))
  | .run => do
    forgetTemporaries id
    return .report (← onMachine id (·.run))
  | .thread t => do
    let m ← machine id
    match m.thread? t with
    | none => return .thread none
    | some t => return .thread (some (← viewThread m t))
  | .register t index how => do
    let n := ((← machine id).thread? t).bind (·.registers[index]?)
    keepAs? id how n
    return .value? n
  | .waitingOn t how => do
    let n := ((← machine id).thread? t).bind fun t =>
      match t.state with
      | .waiting v => some (.variable v)
      | .failed e => some e
      | .runnable | .terminated => none
    keepAs? id how n
    return .value? n
  | .collect => do
    forgetTemporaries id
    let before ← machine id
    let after ← ask id (·.collect)
    putMachine id after
    return .collected (Machine.stats before after)
  | .root slot => do return .value? ((← machine id).root? slot)
  | .output => do return .text (← machine id).output
  | .takeOutput => do return .text (← change id (·.takeOutput))
  | .settings => do
    let m ← machine id
    return .settings m.settings m.heap.settings
  | .roots values => do
    let ns ← evaluateAll id values
    let (slots, nodes) := ns.foldl (fun (slots, nodes) n =>
      let (slot, nodes) := Machine.pin nodes n
      (slots ++ [slot], nodes)) ([], [])
    return .roots slots nodes
  | .newHeap settings => do
    unless settings.isAddressable do throwThe Fault .capacityOverflow
    modify fun s => { s with heap := { settings } }
    return .heapSettings settings
  | .heapVariable how => do
    let (v, heap) := (← get).heap.allocateVariable
    modify fun s => { s with heap }
    keepAs id how (.variable v)
    inHeap (.variable v)
  | .heapRecord value how => do
    let r ← recordOf id (← evaluate id value)
    let (ref, heap) := (← get).heap.allocateRecord r
    modify fun s => { s with heap }
    keepAs id how (.record ref)
    inHeap (.record ref)
  | .heapGet value probe => do
    let n ← evaluate id value
    let h := (← get).heap
    if probe then return .contains (isIn h n) none
    return .contains (isIn h n) (some (← Snapshot.ofNodes h [n]))

end Action

/-! ### Steps of a session -/

/-- One request, with the machine that it is made of. -/
structure Step where
  machine : MachineId
  request : Request

/-- What became of a step: a reply or a rejection, with the size of the machine after it. -/
structure Answer where
  result : Except Rejection Reply
  /-- The size of the machine after the step. -/
  census : Census

namespace Session

/-- Performs one step. -/
def step (s : Session) (st : Step) : Except Fault (Answer × Session) := do
  let (result, s) ← ((Action.perform st.machine st.request).run).run s
  match s.machines[st.machine.index]? with
  | some m => return (⟨result, m.census⟩, s)
  | none => throw (.outOfRange s.machines.length st.machine.index)

/-- Performs steps until one faults. The answers come with the fault, if there was one. -/
def run (s : Session) : List Step → List Answer × Option Fault
  | [] => ([], none)
  | st :: rest =>
    match s.step st with
    | .error fault => ([], some fault)
    | .ok (answer, s) =>
      let (answers, fault) := s.run rest
      (answer :: answers, fault)

end Session

end Dataflow
