/-
The program: runs the command line and prints what it leaves, with the
time that it took.
-/
import LogicMachine.CommandLine

def main (args : List String) : IO UInt32 := do
  let begun ← IO.monoMsNow
  let outcome := LogicMachine.CommandLine.run LogicMachine.generousFuel args
  let stderr ← IO.getStderr
  stderr.putStr outcome.stderr
  let ended ← IO.monoMsNow
  IO.print (outcome.stdout (toString (ended - begun) ++ "ms"))
  return outcome.code.toUInt32
