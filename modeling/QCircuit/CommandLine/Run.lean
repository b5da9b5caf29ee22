import QCircuit.CommandLine.About
import QCircuit.CommandLine.Arguments
import QCircuit.CommandLine.Document
import QCircuit.CommandLine.Outcome
import QCircuit.Draw.Xoshiro
import QCircuit.Generate.Journal

/-!
# Running commands

A command is run in stages: the problem data are read, then the settings and their bounds, then the
circuit is generated, then its document is made, and at last it is delivered. The first stage that
fails decides the outcome. The journal is shown between the stages, as far as they went, and has no part
in them.
-/

set_option autoImplicit false

namespace QCircuit.CommandLine

/-- The text of problem data that are given in place, or in a file named after an at sign. -/
def dataText (files : Files) (data : String) : Except Failure String :=
  match data.toList with
  | '@' :: path =>
      match files.find (String.ofList path) with
      | .holds text => .ok text
      | _ => .error (.dataUnreadable (String.ofList path))
  | _ => .ok data

/-- The problem data of a command. -/
def problemOf (files : Files) (data : Option String) : Except Failure Problem :=
  match data with
  | none => .ok .unknown
  | some data => do
      let text ← dataText files data
      (Problem.parse text).mapError fun fault => .generation (.invalidInput fault)

/-- The settings in a file, within their bounds. -/
def settingsIn (files : Files) (path : String) : Except Failure Settings :=
  match files.find path with
  | .missing => .error (.configMissing path)
  | .unreadable => .error (.configUnreadable path)
  | .holds text =>
      match Settings.read? text with
      | none => .error (.configInvalid path)
      | some settings =>
          match settings.excess? with
          | some excess => .error (.generation (.invalidInput (.settingTooLarge excess)))
          | none => .ok settings

/-- The settings of a command. -/
def settingsOf (files : Files) (config : Option String) : Except Failure Settings :=
  match config with
  | none => .ok .usual
  | some path => settingsIn files path

/-- The answer to a generation whose problem data and settings are given. Without a seed of its own it takes
the given one. -/
def answer (freshSeed : UInt64) (g : Generation) (problem : Problem) (settings : Settings) :
    Except GenerationError Circuit :=
  (Generate.named Xoshiro.angles g.id problem settings (Xoshiro.ofSeed (g.seed.getD freshSeed))).1

/-- What is said of a circuit that is written to a file. -/
def confirmation (c : Circuit) (path : String) : String :=
  "✓ Wrote " ++ c.algorithm ++ s!" circuit ({c.width} qubits, {c.size} gates) to " ++ path

/-- Delivers the document of a circuit. On standard output a line feed ends it; a file that is written is
confirmed. -/
def deliver (files : Files) (output : Option String) (c : Circuit) (text : String) : Run Unit :=
  match output with
  | none => do
      Run.print files text
      if text.toList.getLast? = some '\n' then pure () else Run.print files "\n"
  | some path => do
      Run.write files path text
      Run.say [confirmation c path]

/-- Runs a generation. -/
def runGeneration (files : Files) (freshSeed : UInt64) (verbosity : Nat) (g : Generation) :
    Run Unit := do
  let problem ← Run.stage (problemOf files g.data)
  let settings ← Run.stage (settingsOf files g.config)
  Run.say (Journal.shown verbosity (Journal.ofRequest g.id problem settings))
  let c ← Run.stage ((answer freshSeed g problem settings).mapError .generation)
  Run.say (Journal.shown verbosity [.ofCircuit c])
  let text ← Run.stage ((document g.format c).mapError .unsupported)
  deliver files g.output c text

/-- Runs a sizing command. -/
def runSizing (files : Files) (id : String) (data : Option String) : Run Unit := do
  let problem ← Run.stage (problemOf files data)
  let width ← Run.stage ((Sizing.forId id problem).mapError fun fault =>
    .generation (.invalidInput fault))
  Run.print files (toString width ++ "\n")

/-- Runs a command. -/
def Command.run (files : Files) (freshSeed : UInt64) (verbosity : Nat) : Command → Run Unit
  | .generate g => runGeneration files freshSeed verbosity g
  | .sizing id data => runSizing files id data
  | .algorithms => Run.print files About.families
  | .version => Run.print files About.versionText

/-- What running a command leaves behind. -/
def Invocation.run (files : Files) (freshSeed : UInt64) (invocation : Invocation) : Outcome :=
  (invocation.command.run files freshSeed invocation.verbosity).outcome

/-- What running whatever the arguments ask for leaves behind. The version line is not missed where it
cannot be printed. -/
def Demand.run (files : Files) (freshSeed : UInt64) : Demand → Outcome
  | .unusable => ⟨About.usage.map .note, 2⟩
  | .programVersion => ⟨if files.canPrint then [.print About.versionLine] else [], 0⟩
  | .command invocation => invocation.run files freshSeed

end QCircuit.CommandLine
