import Dataflow.CommandLine.Execute

/-! # The program

  Reads the command line, writes the text of the command and ends with its exit code.
-/

/-- Executes the command line that the program was started with. -/
def main (args : List String) : IO UInt32 := do
  let result := Dataflow.CommandLine.execute args
  IO.print result.stdout
  return result.code.toUInt32
