import Dataflow.CommandLine
import Dataflow.Session

/-! # Executing commands

  A command writes text and ends with an exit code: 0 if all went well, 1 if a request was
  refused, 2 if the command line was wrong, 101 if the machine faulted. A command that
  does not succeed writes nothing here.
-/

namespace Dataflow.CommandLine

/-- What is left of a command. -/
structure Exit where
  code : Nat
  stdout : String
  deriving DecidableEq

/-- The only machine of a command line. -/
def host : MachineId := ⟨0⟩

/-! ### The demonstration -/

/-- The text of a thread after the demonstration. -/
def threadLine (m : Machine) (id : ThreadId) : Except Fault String := do
  let subject := "thread " ++ Nat.repr id.number
  match (m.thread? id).map Thread.state with
  | some (.failed e) => return subject ++ " raised " ++ (← m.repr e) ++ "\n"
  | some .runnable => return subject ++ " is Runnable\n"
  | some (.waiting v) => return subject ++ " is Waiting(VarRef(" ++ Nat.repr v.index ++ "))\n"
  | some .terminated => return subject ++ " is Terminated\n"
  | none => return subject ++ " is gone\n"

/-- A consumer waits for a feature and selects it, first from a record that has it and then from an
    atom, which has none; a producer binds the feature. -/
def demo : Action String := do
  let feature ← Action.change host (·.newVariable)
  let foo ← Action.change host (·.newAtom "foo")
  let label ← Action.change host (·.newAtom "point")
  let x ← Action.change host (·.newAtom "x")
  let point ← Action.request host (·.buildRecord label [(x, .int 3)])
  let consumer ← Action.request host fun m => .ok (m.spawn
    [⟨.dot, [0, 1], [2]⟩, ⟨.show, [2], []⟩, ⟨.dot, [3, 1], [2]⟩]
    [point, .variable feature, .unit, foo])
  let producer ← Action.request host fun m => .ok (m.spawn
    [⟨.bind, [0, 1], []⟩] [.variable feature, x])
  discard (Action.onMachine host (·.run))
  let shown ← Action.change host (·.takeOutput)
  let m ← Action.machine host
  return shown ++ (← threadLine m consumer) ++ (← threadLine m producer)

/-! ### Interning -/

/-- The position of the first node equal to this one, counted from `k`. -/
def firstEqual? (m : Machine) (n : Node) : Nat → List Node → Except Fault (Option Nat)
  | _, [] => .ok none
  | k, other :: rest => do
    if ← m.equals n other then return some k else firstEqual? m n (k + 1) rest

/-- The line of one atom: its text, the position of the first atom equal to it, its width. -/
def atomLine (m : Machine) (atoms : List Node) (index : Nat) (n : Node) : Except Fault String := do
  let first := (← firstEqual? m n 0 atoms).getD index
  let width ← match ← m.width n with
    | (.proceed (w :: _), m) => m.repr w
    | _ => pure ""
  return (← m.repr n) ++ " -> identity #" ++ Nat.repr first ++ " (width " ++ width ++ ")\n"

/-- The lines of atoms, the first of which stands at `k`. -/
def atomLines (m : Machine) (atoms : List Node) : Nat → List Node → Except Fault String
  | _, [] => .ok ""
  | k, n :: rest => do return (← atomLine m atoms k n) ++ (← atomLines m atoms (k + 1) rest)

/-- Interns words, and tells which of them are the same atom. -/
def intern (words : List String) : Action String := do
  let atoms ← words.mapM fun word => Action.change host (·.newAtom word)
  let m ← Action.machine host
  return (← atomLines m atoms 0 atoms) ++ Nat.repr m.atoms.size ++ " distinct atoms\n"

/-! ### Collecting -/

/-- Builds `n` records that nobody keeps, numbered from `k`. -/
def litter : Nat → Nat → Machine → Except Fault (Except Refusal Machine)
  | 0, _, m => .ok (.ok m)
  | n + 1, k, m => do
    let (label, m) := m.newAtom "garbage"
    match ← m.buildTuple label [.int k] with
    | .error e => return .error e
    | .ok (_, m) => litter n (k + 1) m

/-- Builds records, keeps one of them, and collects the others. -/
def collect (records : Nat) : Action String := do
  let label ← Action.change host (·.newAtom "kept")
  let kept ← Action.request host (·.buildTuple label [.int records])
  let slot ← Action.change host (·.addRoot kept)
  let before ← Action.accept (← litter records 0 (← Action.machine host))
  let after ← before.collect
  let stats := Machine.stats before after
  let survivor ← match after.root? slot with
    | some n => do pure ("root survived as " ++ (← after.repr n) ++ "\n")
    | none => pure ""
  return "records " ++ Nat.repr stats.records.1 ++ " -> " ++ Nat.repr stats.records.2 ++
    ", atoms " ++ Nat.repr stats.atoms.1 ++ " -> " ++ Nat.repr stats.atoms.2 ++ "\n" ++ survivor

/-! ### The whole command line -/

/-- The text of the version. -/
def versionText : String := "strand 0.1.0\n"

/-- What a command does. -/
def Command.action : Command → Action String
  | .demo => CommandLine.demo
  | .intern words => CommandLine.intern words
  | .collect records => CommandLine.collect records

/-- Runs a command on a new machine, if room can be made for its heap. -/
def runCommand (configuration : Configuration) (command : Command) :
    Except Fault (Except Rejection String) := do
  unless (HeapSettings.ofOptions configuration.capacity configuration.threshold).isAddressable do
    throw .capacityOverflow
  let (result, _) ← (command.action.run).run (Session.new [configuration])
  return result

/-- Executes what a command line asks for. -/
def Invocation.execute : Invocation → Exit
  | .version => ⟨0, versionText⟩
  | .run configuration command =>
    match runCommand configuration command with
    | .ok (.ok text) => ⟨0, text⟩
    | .ok (.error _) => ⟨1, ""⟩
    | .error _ => ⟨101, ""⟩

/-- Executes a command line. -/
def execute (args : List String) : Exit :=
  match parse {} args with
  | .ok invocation => invocation.execute
  | .error _ => ⟨2, ""⟩

end Dataflow.CommandLine
