import FilterQuery.CommandLine
/-!
# The program
-/
namespace FilterQuery

/-- The standard input up to its end, unless it is a terminal. -/
def readInput : IO Input := do
  let stdin ← IO.getStdin
  if ← stdin.isTty then return .terminal
  try return .piped (← stdin.readBinToEnd)
  catch e => return .broken e.toString

end FilterQuery

open FilterQuery in
def main (arguments : List String) : IO UInt32 := do
  let input ← if (argumentParser.read arguments).readsInput then readInput else pure .terminal
  let time ← IO.monoMsNow
  let outcome := argumentParser.outcome (.warnings fun _ => toString time) arguments input
  IO.print outcome.stdout
  IO.eprint outcome.stderr
  return outcome.exitCode.toUInt32
