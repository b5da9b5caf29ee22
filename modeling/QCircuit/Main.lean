import QCircuit.CommandLine.Run

/-!
# The program

The arguments, the environment and the named files are read here and handed to the library; what the
outcome lists is done in order, and its exit code is returned.
-/

set_option autoImplicit false

namespace QCircuit.CommandLine

/-- The path after an at sign. -/
def pathsOfData (data : Option String) : List String :=
  match data.map String.toList with
  | some ('@' :: path) => [String.ofList path]
  | _ => []

/-- The paths of the files that a demand reads. -/
def Demand.paths : Demand → List String
  | .command ⟨_, .generate g⟩ => pathsOfData g.data ++ g.config.toList
  | .command ⟨_, .sizing _ data⟩ => pathsOfData data
  | _ => []

/-- What is found under a path. -/
def look (path : String) : IO FileState := do
  try
    return .holds (← IO.FS.readFile path)
  catch
    | .noFileOrDirectory _ _ _ => return .missing
    | _ => return .unreadable

/-- A seed that nobody chose. -/
def freshSeed : IO UInt64 := do
  let bytes ← IO.getRandomBytes 8
  return bytes.foldl (fun seed byte => seed * 256 + byte.toUInt64) 0

/-- The files that were looked at, all of which can be written, and printed to, or none. -/
def filesOf (seen : List (String × FileState)) (works : Bool) : Files :=
  ⟨fun path => (seen.lookup path).getD .missing, fun _ => works, works⟩

/-- Tells whether an action succeeds. -/
def succeeds (action : IO Unit) : IO Bool := do
  try
    action
    return true
  catch _ => return false

/-- Does what an effect says, and tells whether that succeeded. -/
def Effect.perform : Effect → IO Bool
  | .note line => do
      IO.eprintln line
      return true
  | .print text => succeeds do
      IO.print text
      (← IO.getStdout).flush
  | .write path content => succeeds (IO.FS.writeFile path content)

/-- Performs effects in order up to one that does not succeed, and counts those that did. -/
def performAll : List Effect → IO Nat
  | [] => return 0
  | effect :: rest => do
      if ← effect.perform then
        return (← performAll rest) + 1
      else
        return 0

/-- Runs the program on its arguments. Where a document turns out not to be taken, the run is told again
from there on, as one whose document is not taken: up to there it does the same. -/
def program (arguments : List String) : IO UInt32 := do
  let demand := demandOf (← IO.getEnv "QGEN_SEED") arguments
  let seen ← demand.paths.mapM fun path => do
    return (path, ← look path)
  let seed ← freshSeed
  let outcome := demand.run (filesOf seen true) seed
  let performed ← performAll outcome.effects
  if performed = outcome.effects.length then
    return UInt32.ofNat outcome.code
  else
    let outcome := demand.run (filesOf seen false) seed
    discard (performAll (outcome.effects.drop performed))
    return UInt32.ofNat outcome.code

end QCircuit.CommandLine

/-- The program. -/
def main (arguments : List String) : IO UInt32 := QCircuit.CommandLine.program arguments
