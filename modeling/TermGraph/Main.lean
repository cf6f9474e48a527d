import TermGraph.CommandLine.Run

/-! The program: runs the command line and prints what it answers. -/

/-- Prints the lines of the run and ends with its code. -/
def main (args : List String) : IO UInt32 := do
  let outcome := TermGraph.CommandLine.run args
  for line in outcome.lines do
    IO.println line
  return outcome.code
