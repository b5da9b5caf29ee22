import QCircuit.Generate.Error
import QCircuit.Qasm

/-!
# Outcomes

What a command is run on, the files that it names, and what a run does: one effect after another, a line on
standard error, a text on standard output or a file, and an exit code at the end. A part of a run comes to a
value or is stopped, and what it did before it was stopped stays done.

Files and standard output either take all of what is written or printed, or nothing of it. Standard error
takes every line.
-/

set_option autoImplicit false

namespace QCircuit.CommandLine

/-- What is found under the path of a file to read. -/
inductive FileState where
  | holds (content : String)
  /-- Something is there that cannot be read as text. -/
  | unreadable
  | missing
deriving DecidableEq

/-- The files as a command finds them, standard output among them. -/
structure Files where
  find : String → FileState
  /-- Whether a file can be written under a path. -/
  canWrite : String → Bool
  /-- Whether standard output takes what is printed. -/
  canPrint : Bool

/-- Whether the place of a document takes it: the file under a path, or else standard output. -/
def Files.takes (files : Files) : Option String → Bool
  | some path => files.canWrite path
  | none => files.canPrint

/-- Why a command fails. -/
inductive Failure where
  | dataUnreadable (path : String)
  | configMissing (path : String)
  | configUnreadable (path : String)
  | configInvalid (path : String)
  | generation (error : GenerationError)
  | unsupported (gate : Qasm.Unsupported)
  | outputUnwritable (path : String)
deriving DecidableEq

/-- What is said of a failure. -/
def Failure.message : Failure → String
  | .dataUnreadable path => "Failed to read auxiliary data file: " ++ path
  | .configMissing path => "Config file not found: " ++ path
  | .configUnreadable path => "Failed to read file: " ++ path
  | .configInvalid path => "Invalid generator config: " ++ path
  | .generation error => error.message
  | .unsupported gate => gate.message
  | .outputUnwritable path => "Failed to write file: " ++ path

/-- Something that a run does. -/
inductive Effect where
  /-- A line on standard error. -/
  | note (line : String)
  /-- A text on standard output. -/
  | print (text : String)
  /-- A file with its content. -/
  | write (path content : String)
deriving DecidableEq

/-- What stops a run before its end. -/
inductive Stop where
  | failure (failure : Failure)
  /-- Standard output does not take what is printed. -/
  | brokenOutput
deriving DecidableEq

/-- A part of a run: what it does, in order, and the value that it comes to, or what stops it. -/
structure Run (α : Type) where
  effects : List Effect
  result : Except Stop α

namespace Run

variable {α : Type}

/-- One part after another; a part that is stopped is the last one. -/
instance : Monad Run where
  pure a := ⟨[], .ok a⟩
  bind part next :=
    match part.result with
    | .ok a => ⟨part.effects ++ (next a).effects, (next a).result⟩
    | .error stop => ⟨part.effects, .error stop⟩

/-- A part that does nothing but come to an answer. -/
def stage (answer : Except Failure α) : Run α := ⟨[], answer.mapError .failure⟩

/-- Says some lines on standard error. -/
def say (lines : List String) : Run Unit := ⟨lines.map .note, .ok ()⟩

/-- Prints a text on standard output. -/
def print (files : Files) (text : String) : Run Unit :=
  if files.canPrint then ⟨[.print text], .ok ()⟩ else ⟨[], .error .brokenOutput⟩

/-- Writes a file. -/
def write (files : Files) (path content : String) : Run Unit :=
  if files.canWrite path then ⟨[.write path content], .ok ()⟩
  else ⟨[], .error (.failure (.outputUnwritable path))⟩

end Run

/-- What a run leaves behind: all that it did, in order, and the exit code. -/
structure Outcome where
  effects : List Effect
  code : Nat
deriving DecidableEq

namespace Outcome

/-- The text on standard output. -/
def stdout (outcome : Outcome) : String :=
  String.join (outcome.effects.filterMap fun
    | .print text => some text
    | _ => none)

/-- The lines on standard error. -/
def stderr (outcome : Outcome) : List String :=
  outcome.effects.filterMap fun
    | .note line => some line
    | _ => none

/-- The files that were written, each with its path and its content. -/
def written (outcome : Outcome) : List (String × String) :=
  outcome.effects.filterMap fun
    | .write path content => some (path, content)
    | _ => none

end Outcome

/-- How a run ends. A failure is reported on standard error; a run that cannot print is aborted. -/
def Run.outcome (run : Run Unit) : Outcome :=
  match run.result with
  | .ok _ => ⟨run.effects, 0⟩
  | .error (.failure failure) => ⟨run.effects ++ [.note ("Error: " ++ failure.message)], 1⟩
  | .error .brokenOutput => ⟨run.effects, 101⟩

end QCircuit.CommandLine
