import Dataflow.Machine.Construct
import Dataflow.Machine.Run
import Dataflow.Snapshot

/-! # Sessions

  A session is a host at work with several machines side by side and one heap that
  belongs to none of them. The host keeps values under names. A value is kept either in
  a root of its machine, where it follows collections, or as a bare node, which is
  forgotten before the machine's next chance to collect.
-/

namespace Dataflow

/-! ### State -/

/-- Where a named value is kept. -/
inductive Saved where
  /-- In a root of a machine. -/
  | root (machine : MachineId) (slot : Nat)
  /-- Outside of the machine that it came from. -/
  | temporary (machine : MachineId) (n : Node)
  deriving DecidableEq

/-- Whether the value is a temporary of a machine. -/
def Saved.isTemporaryOf (id : MachineId) : Saved → Bool
  | .root _ _ => false
  | .temporary owner _ => owner == id

/-- A host with its machines. -/
structure Session where
  /-- The machines, each at the position of its name. -/
  machines : List Machine
  /-- The named values, each name once. -/
  saved : List (String × Saved) := []
  heap : Heap := {}
  deriving DecidableEq

/-- A session with new machines. -/
def Session.new (configurations : List Configuration) : Session :=
  { machines := configurations.mapIdx fun i c => Machine.new ⟨i⟩ c }

/-! ### Actions -/

/-- What is wrong with a request that makes no sense. -/
inductive BadInput where
  | name
  /-- Something else in place of a variable. -/
  | variable
  /-- Something else in place of a record. -/
  | record
  /-- Operands that cannot be compared. -/
  | operands
  | inputs
  deriving DecidableEq

/-- Why a request fails. -/
inductive Rejection where
  /-- The machine refused it. -/
  | refused (r : Refusal)
  /-- It made no sense. -/
  | badInput (what : BadInput)
  deriving DecidableEq

/-- What a host does: it may end in a rejection, which keeps what was done before, or in a fault,
    which ends the session. -/
abbrev Action := ExceptT Rejection (StateT Session (Except Fault))

namespace Action

/-- The result of a request that a machine may have refused. -/
def accept {α : Type} (result : Except Refusal α) : Action α :=
  match result with
  | .ok a => pure a
  | .error r => throw (.refused r)

/-- One of the machines. -/
def machine (id : MachineId) : Action Machine := do
  let machines := (← get).machines
  match machines[id.index]? with
  | some m => return m
  | none => throwThe Fault (.outOfRange machines.length id.index)

/-- Replaces a machine. -/
def putMachine (id : MachineId) (m : Machine) : Action Unit :=
  modify fun s => { s with machines := s.machines.set id.index m }

/-- Runs an operation of a machine. -/
def onMachine {α : Type} (id : MachineId) (f : Machine → Except Fault (α × Machine)) : Action α := do
  let (a, m) ← f (← machine id)
  putMachine id m
  return a

/-- Runs an operation of a machine that cannot fault. -/
def change {α : Type} (id : MachineId) (f : Machine → α × Machine) : Action α :=
  onMachine id fun m => .ok (f m)

/-- Runs an operation of a machine that it may refuse. -/
def request {α : Type} (id : MachineId)
    (f : Machine → Except Fault (Except Refusal (α × Machine))) : Action α := do
  let (a, m) ← accept (← f (← machine id))
  putMachine id m
  return a

/-- Asks something of a machine. -/
def ask {α : Type} (id : MachineId) (f : Machine → Except Fault α) : Action α := do
  f (← machine id)

/-! ### Named values -/

/-- The value kept under a name. A value kept for one machine can be handed to another. -/
def savedValue (name : String) : Action Node := do
  match (← get).saved.lookup name with
  | some (.temporary _ n) => return n
  | some (.root id slot) =>
    match (← machine id).root? slot with
    | some n => return n
    | none => throw (.badInput .name)
  | none => throw (.badInput .name)

/-- Keeps something under a name, in place of what was kept there. -/
def keep (name : String) (saved : Saved) : Action Unit :=
  modify fun s => { s with saved := (name, saved) :: s.saved.filter (·.1 != name) }

/-- Keeps a node under a name in a new root. -/
def keepRoot (id : MachineId) (name : String) (n : Node) : Action Unit := do
  keep name (.root id (← change id (·.addRoot n)))

/-- Keeps a node under a name until the machine may collect. -/
def keepTemporary (id : MachineId) (name : String) (n : Node) : Action Unit :=
  keep name (.temporary id n)

/-- Forgets the temporaries of a machine. -/
def forgetTemporaries (id : MachineId) : Action Unit :=
  modify fun s => { s with saved := s.saved.filter fun entry => !entry.2.isTemporaryOf id }

end Action

end Dataflow
