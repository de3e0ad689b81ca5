import Dataflow.Builtin

/-! # Threads

  A thread is a list of instructions and the registers that they work on. It runs
  until its instructions are done, a call raises an exception, or a call suspends: then
  the thread waits for the variable and makes the same call again.
-/

namespace Dataflow

/-- A call of a builtin on registers. -/
structure Instruction where
  builtin : Builtin
  inputs : List Nat
  outputs : List Nat
  deriving DecidableEq

/-- Where a thread stands. -/
inductive ThreadState where
  | runnable
  | waiting (v : VarRef)
  | terminated
  | failed (exception : Node)
  deriving DecidableEq

structure Thread where
  id : ThreadId
  state : ThreadState := .runnable
  registers : List Node
  code : List Instruction
  /-- How many of its instructions are done. -/
  pc : Nat := 0
  deriving DecidableEq

namespace ThreadState

def isRunnable : ThreadState → Bool
  | .runnable => true
  | _ => false

def isWaiting : ThreadState → Bool
  | .waiting _ => true
  | _ => false

def isTerminated : ThreadState → Bool
  | .terminated => true
  | _ => false

def isFailed : ThreadState → Bool
  | .failed _ => true
  | _ => false

end ThreadState

namespace Thread

def isFinished (t : Thread) : Bool := decide (t.code.length ≤ t.pc)

/-- The number of instructions still to be done. -/
def remaining (t : Thread) : Nat := t.code.length - t.pc

def register (t : Thread) (r : Nat) : Except Fault Node :=
  match t.registers[r]? with
  | some n => .ok n
  | none => .error (.outOfRange t.registers.length r)

/-- Writes results to registers, one after the other. -/
def store (registers : List Node) : List Nat → List Node → List Node
  | r :: rs, n :: ns => store (registers.set r n) rs ns
  | _, _ => registers

/-- The thread after its current instruction has proceeded with these results. -/
def advance (t : Thread) (outputs : List Nat) (results : List Node) : Thread :=
  { t with registers := store t.registers outputs results, pc := t.pc + 1 }

/-- The nodes that a thread keeps alive: its registers, then what it waits for or has raised. -/
def nodes (t : Thread) : List Node :=
  t.registers ++
    match t.state with
    | .waiting v => [.variable v]
    | .failed exception => [exception]
    | .runnable | .terminated => []

end Thread

end Dataflow
