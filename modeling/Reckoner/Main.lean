import Reckoner.CommandLine.Run

/-!
The program: its arguments are one request, its streams and its status the answer.
A breakdown is told on the error stream, with status 1.
-/

def main (arguments : List String) : IO UInt32 := do
  match Reckoner.CommandLine.run arguments with
  | .ok output =>
      (← IO.getStdout).putStr output.stdout
      (← IO.getStderr).putStr output.stderr
      return output.status
  | .error breakdown =>
      (← IO.getStderr).putStrLn breakdown.message
      return 1
