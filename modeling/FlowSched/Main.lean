import FlowSched.Demo

/-!
# The command

Prints the demonstration on standard output and its notes on standard error.
-/

open FlowSched

/-- Runs the demonstration. -/
def main : IO Unit := do
  match Demo.lines {} with
  | .ok lines w =>
    for n in w.notes do
      if Level.info.rank ≤ n.level.rank then
        IO.eprintln (n.level.label ++ ": " ++ n.text)
    for l in lines do
      IO.println l
  | .error fault _ => throw (IO.userError (fault.message?.getD "the demonstration failed"))
