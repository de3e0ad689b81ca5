import Dataflow.Collection
import Dataflow.Machine.Call

/-! # Running threads

  Threads take turns. In its turn a thread makes calls until it has made as many as the
  quantum allows, is done, fails, or waits for a variable. A thread that can go on is put
  at the end of the queue. After each turn the machine collects garbage if its heap asks
  for it.
-/

namespace Dataflow

namespace Machine

/-! ### Spawning and killing -/

/-- Checks the operands of an instruction for a thread with so many registers. -/
def checkInstruction (available : Nat) (i : Instruction) : Except Refusal Unit :=
  if i.inputs.length ≠ i.builtin.inputs then
    .error (.arityMismatch i.builtin.name i.builtin.inputs i.inputs.length)
  else if i.outputs.length ≠ i.builtin.outputs then
    .error (.arityMismatch i.builtin.name i.builtin.outputs i.outputs.length)
  else
    match (i.inputs ++ i.outputs).find? fun r => decide (available ≤ r) with
    | some r => .error (.invalidRegister r available)
    | none => .ok ()

/-- Starts a thread. -/
def spawn (m : Machine) (code : List Instruction) (registers : List Node) :
    Except Refusal (ThreadId × Machine) := do
  code.forM (checkInstruction registers.length)
  let (id, scheduler) := m.scheduler.spawn code registers
  return (id, { m with scheduler })

/-- Removes a thread. -/
def kill (m : Machine) (id : ThreadId) : Except Refusal Machine := do
  return { m with scheduler := ← m.scheduler.kill id }

def thread? (m : Machine) (id : ThreadId) : Option Thread := m.scheduler.thread? id

/-! ### A turn -/

/-- At most `n` calls of a thread. A call that suspends on a variable which is bound all the same
    is made again at once. -/
def turn : Nat → Machine → Thread → Except Fault (Machine × Thread)
  | 0, m, t => .ok (m, t)
  | n + 1, m, t =>
    match t.code[t.pc]? with
    | none => .ok (m, t)
    | some i => do
      let (outcome, m) ← m.call i.builtin (← i.inputs.mapM t.register)
      match outcome with
      | .proceed results => turn n m (t.advance i.outputs results)
      | .suspend v =>
        let (parked, heap) ← m.heap.addListener v (.thread t.id)
        if parked then return ({ m with heap }, { t with state := .waiting v })
        -- nobody can wait for a bound variable: the call is made again
        else turn n { m with heap } t
      | .raise exception => return (m, { t with state := .failed exception })

/-- Puts a thread back after its turn: a runnable one is done, or goes to the end of the queue. -/
def putBack (m : Machine) (t : Thread) : Machine :=
  if t.state.isRunnable then
    if t.isFinished then
      { m with scheduler := m.scheduler.update { t with state := .terminated } }
    else { m with scheduler := (m.scheduler.update t).enqueue t.id }
  else { m with scheduler := m.scheduler.update t }

/-- The turn of the next runnable thread. The answer is whether there was one. -/
def runNext (m : Machine) : Except Fault (Bool × Machine) := do
  match m.scheduler.next? with
  | (none, scheduler) => return (false, { m with scheduler })
  | (some t, scheduler) =>
    -- the table keeps the thread as runnable while it runs, so its own binds do not wake it
    let (m, t) ← turn m.settings.quantum { m with scheduler } t
    let m := m.putBack t
    if m.heap.needsCollection then return (true, ← m.collect)
    else return (true, m)

/-! ### Running until nothing is ready -/

/-- What has become of the threads. -/
structure Report where
  turns : Nat
  terminated : List ThreadId
  waiting : List ThreadId
  failed : List ThreadId
  deriving DecidableEq

/-- Takes turns until no thread is runnable, and counts them. -/
def turns : Nat → Machine → Except Fault (Nat × Machine)
  | 0, _ => .error .endless
  | n + 1, m => do
    match ← m.runNext with
    | (false, m) => return (0, m)
    | (true, m) =>
      let (count, m) ← turns n m
      return (count + 1, m)

/-- The number of calls that the threads have still to make. -/
def remaining (m : Machine) : Nat :=
  (m.scheduler.threads.map Thread.remaining).foldr (· + ·) 0

/-- A bound on the turns of a run that ends. Each call that proceeds can wake every thread, and each
    woken thread can stop once. Between two such events a call may be made again in vain, but not by
    one thread three times: after two rounds of the queue, a collection included, nothing changes
    any more. -/
def turnBound (m : Machine) : Nat :=
  let threads := m.scheduler.threads.length + m.scheduler.ready.length
  (m.remaining + 2) * (threads + 2) * (2 * threads + 4)

/-- The threads in a given state, in ascending order: the table lists threads in the order in which
    they were spawned. -/
def threadsWhere (m : Machine) (p : ThreadState → Bool) : List ThreadId :=
  (m.scheduler.threads.filter fun t => p t.state).map Thread.id

/-- Runs until no thread is runnable. -/
def run (m : Machine) : Except Fault (Report × Machine) := do
  let (count, m) ← turns m.turnBound m
  return ({
    turns := count
    terminated := m.threadsWhere ThreadState.isTerminated
    waiting := m.threadsWhere ThreadState.isWaiting
    failed := m.threadsWhere ThreadState.isFailed }, m)

end Machine

end Dataflow
