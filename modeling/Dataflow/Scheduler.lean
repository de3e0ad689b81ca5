import Dataflow.Thread

/-! # The scheduler

  The threads of a machine and the queue of those that are ready to run. A thread
  keeps its entry in the table while it runs; threads that end keep theirs until they
  are killed. The queue may still name threads that have been killed since.
-/

namespace Dataflow

/-- The threads of a machine. -/
structure Scheduler where
  /-- The threads to be run, the next one first. -/
  ready : List ThreadId := []
  /-- All threads, in the order in which they were spawned. -/
  threads : List Thread := []
  spawned : Nat := 0
  deriving DecidableEq

namespace Scheduler

def thread? (s : Scheduler) (id : ThreadId) : Option Thread := s.threads.find? (·.id == id)

/-- The scheduler with a new version of one thread. -/
def update (s : Scheduler) (t : Thread) : Scheduler :=
  { s with threads := s.threads.map fun u => if u.id = t.id then t else u }

/-- Puts a thread at the end of the queue. -/
def enqueue (s : Scheduler) (id : ThreadId) : Scheduler := { s with ready := s.ready ++ [id] }

/-- A new thread, at the end of the queue. -/
def spawn (s : Scheduler) (code : List Instruction) (registers : List Node) :
    ThreadId × Scheduler :=
  let id : ThreadId := ⟨s.spawned + 1⟩
  (id, { s with
    ready := s.ready ++ [id]
    threads := s.threads ++ [{ id, registers, code }]
    spawned := s.spawned + 1 })

/-- Removes a thread. Its entries in the queue stay, and are skipped later. -/
def kill (s : Scheduler) (id : ThreadId) : Except Refusal Scheduler :=
  match s.thread? id with
  | some _ => .ok { s with threads := s.threads.filter (·.id != id) }
  | none => .error (.unknownThread id)

/-- Makes a waiting thread runnable and puts it at the end of the queue. A thread that was
    killed, or that does not wait any more, is left alone. -/
def wakeOne (s : Scheduler) (id : ThreadId) : Scheduler :=
  match s.thread? id with
  | some t => if t.state.isWaiting then (s.update { t with state := .runnable }).enqueue id else s
  | none => s

/-- Wakes threads, one after the other. -/
def wake (s : Scheduler) (ids : List ThreadId) : Scheduler := ids.foldl wakeOne s

/-- Takes entries off a queue up to the first that names a runnable thread. -/
def nextFrom (s : Scheduler) : List ThreadId → Option Thread × Scheduler
  | [] => (none, { s with ready := [] })
  | id :: rest =>
    match s.thread? id with
    | some t => if t.state.isRunnable then (some t, { s with ready := rest }) else s.nextFrom rest
    | none => s.nextFrom rest

/-- The next runnable thread, and the scheduler without the entries before it and its own. -/
def next? (s : Scheduler) : Option Thread × Scheduler := s.nextFrom s.ready

end Scheduler

end Dataflow
