import Formula.CommandLine

/-!
# The program

Answers its arguments on the standard streams.
-/

/-- Prints the answer to the arguments and returns its code. -/
def main (arguments : List String) : IO UInt32 := do
  let answer := Formula.CommandLine.run arguments
  (← IO.getStdout).putStr answer.output
  (← IO.getStderr).putStr answer.error
  return answer.code.toUInt32
