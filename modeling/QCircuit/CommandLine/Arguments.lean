import QCircuit.CommandLine.Command
import QCircuit.Decimal

/-!
# Arguments

A row of arguments is read in two parts. Before the name of the command only flags may stand; after it
a machine takes one argument at a time and collects flags, options with their values, and words.

A value of an option is attached to it, after an equals sign or, for a short option, directly; or it is
the next argument, which then may not begin with a hyphen unless it is the hyphen alone. An option is
given at most once; the flag for more verbosity is counted. Two hyphens alone end the options. Every
offence against these rules is the same refusal, whatever it is.
-/

set_option autoImplicit false

namespace QCircuit.CommandLine

/-- What an argument looks like. -/
inductive Shape where
  /-- Two hyphens alone. -/
  | separator
  /-- A name after two hyphens, and the value after an equals sign. -/
  | long (name : String) (value : Option String)
  /-- Letters after one hyphen. -/
  | cluster (letters : List Char)
  /-- Anything else, the hyphen alone among it. -/
  | word
deriving DecidableEq

/-- A name and the value after the first equals sign in it. -/
def splitAtEquals (text : List Char) : String × Option String :=
  match text.dropWhile (· ≠ '=') with
  | [] => (String.ofList text, none)
  | _ :: value => (String.ofList (text.takeWhile (· ≠ '=')), some (String.ofList value))

/-- The shape of an argument. -/
def shapeOf (argument : String) : Shape :=
  match argument.toList with
  | ['-', '-'] => .separator
  | '-' :: '-' :: text =>
      let (name, value) := splitAtEquals text
      .long name value
  | '-' :: letter :: letters => .cluster (letter :: letters)
  | _ => .word

/-- The long name of the flag for more verbosity. -/
def verboseName : String := "verbose"

/-- The letter of the flag for more verbosity. -/
def verboseLetter : Char := 'v'

/-- The options that take a value. -/
inductive Parameter where
  | data
  | seed
  | format
  | output
  | config
deriving DecidableEq

namespace Parameter

/-- The long name of an option. -/
def name : Parameter → String
  | .data => "data"
  | .seed => "seed"
  | .format => "format"
  | .output => "output"
  | .config => "config"

/-- The letter of an option. -/
def letter : Parameter → Char
  | .data => 'd'
  | .seed => 's'
  | .format => 'f'
  | .output => 'o'
  | .config => 'c'

end Parameter

/-- The commands by name. -/
inductive Verb where
  | generate
  | sizing
  | algorithms
  | version
deriving DecidableEq

namespace Verb

/-- Every command. -/
def all : List Verb := [.generate, .sizing, .algorithms, .version]

/-- The name of a command. -/
def name : Verb → String
  | .generate => "generate"
  | .sizing => "sizing"
  | .algorithms => "algorithms"
  | .version => "version"

/-- The options of a command. -/
def parameters : Verb → List Parameter
  | .generate => [.data, .seed, .format, .output, .config]
  | .sizing => [.data]
  | .algorithms => []
  | .version => []

/-- The command with a given name. -/
def ofName? (name : String) : Option Verb := all.find? fun verb => verb.name = name

end Verb

/-! ## After the name of the command -/

/-- Where the machine stands: before any argument; before the value of an option; or after the options
have ended. -/
inductive Mode where
  | ready
  | awaiting (parameter : Parameter)
  | ended
deriving DecidableEq

/-- What is collected from the arguments of a command. -/
structure Collected where
  mode : Mode
  verbosity : Nat
  options : List (Parameter × String)
  words : List String
deriving DecidableEq

namespace Collected

/-- Nothing yet. -/
def start : Collected := ⟨.ready, 0, [], []⟩

/-- The value of an option. -/
def value? (c : Collected) (parameter : Parameter) : Option String := c.options.lookup parameter

/-- An option with its value, unless it was given before. -/
def give? (c : Collected) (parameter : Parameter) (value : String) : Option Collected :=
  match c.value? parameter with
  | some _ => none
  | none => some { c with mode := .ready, options := c.options ++ [(parameter, value)] }

/-- A word more. -/
def addWord (c : Collected) (word : String) : Collected := { c with words := c.words ++ [word] }

/-- One flag for more verbosity. -/
def louder (c : Collected) : Collected := { c with verbosity := c.verbosity + 1 }

/-- A long option. -/
def long? (verb : Verb) (c : Collected) (name : String) (value : Option String) :
    Option Collected :=
  if name = verboseName then
    match value with
    | some _ => none
    | none => some c.louder
  else
    match verb.parameters.find? fun parameter => parameter.name = name, value with
    | none, _ => none
    | some parameter, some value => c.give? parameter value
    | some parameter, none => some { c with mode := .awaiting parameter }

/-- A cluster of letters: flags, and at its end perhaps an option. What follows the letter of the option
is its value, an equals sign at the front left out. -/
def cluster? (verb : Verb) (c : Collected) : List Char → Option Collected
  | [] => some c
  | letter :: rest =>
      if letter = verboseLetter then cluster? verb c.louder rest
      else
        match verb.parameters.find? fun parameter => parameter.letter = letter, rest with
        | none, _ => none
        | some parameter, [] => some { c with mode := .awaiting parameter }
        | some parameter, '=' :: value => c.give? parameter (String.ofList value)
        | some parameter, value => c.give? parameter (String.ofList value)

/-- One argument more. -/
def step? (verb : Verb) (c : Collected) (argument : String) : Option Collected :=
  match c.mode, shapeOf argument with
  | .ended, _ => some (c.addWord argument)
  | .awaiting parameter, .word => c.give? parameter argument
  | .awaiting _, _ => none
  | .ready, .separator => some { c with mode := .ended }
  | .ready, .long name value => c.long? verb name value
  | .ready, .cluster letters => c.cluster? verb letters
  | .ready, .word => some (c.addWord argument)

/-- What is collected from all arguments, if no option is left without its value. -/
def ofArguments? (verb : Verb) (arguments : List String) : Option Collected := do
  let c ← arguments.foldlM (step? verb) start
  match c.mode with
  | .awaiting _ => none
  | _ => some c

end Collected

/-! ## Operands -/

/-- A seed is a row of digits below `2 ^ 64`, after a plus sign or not. -/
def seed? (text : String) : Option UInt64 :=
  let digits := match text.toList with
    | '+' :: digits => digits
    | digits => digits
  if digits ≠ [] ∧ digits.all Decimal.isDigit ∧ Decimal.ofNumeral digits < 2 ^ 64 then
    some (UInt64.ofNat (Decimal.ofNumeral digits))
  else none

/-- A value that may be missing. -/
def optional? {α : Type} (read : String → Option α) : Option String → Option (Option α)
  | none => some none
  | some text => (read text).map some

/-- The operands of `generate`. A seed that is not given as an option may stand in a variable. -/
def generation? (seedVariable : Option String) (c : Collected) : Option Generation := do
  let id ← match c.words with
    | [id] => some id
    | _ => none
  let seed ← optional? seed? ((c.value? .seed).or seedVariable)
  let format ← optional? Format.ofName? (c.value? .format)
  some ⟨id, c.value? .data, seed, format.getD .qasm, c.value? .output, c.value? .config⟩

/-- The command that the collected arguments make. -/
def command? (seedVariable : Option String) (verb : Verb) (c : Collected) : Option Command :=
  match verb, c.words with
  | .generate, _ => (generation? seedVariable c).map .generate
  | .sizing, [id] => some (.sizing id (c.value? .data))
  | .algorithms, [] => some .algorithms
  | .version, [] => some .version
  | _, _ => none

/-! ## Before the name of the command -/

/-- What a whole row of arguments asks for. -/
inductive Demand where
  /-- The arguments break a rule. -/
  | unusable
  /-- Only the program's version is asked for. -/
  | programVersion
  | command (invocation : Invocation)
deriving DecidableEq

/-- What a cluster of letters before the command asks for: its verbosity, or something else than a
command. -/
def leadingCluster (verbosity : Nat) : List Char → Except Demand Nat
  | [] => .ok verbosity
  | letter :: rest =>
      if letter = verboseLetter then leadingCluster (verbosity + 1) rest
      else if letter = 'V' then .error .programVersion
      else .error .unusable

/-- The demand for a command. A count of flags after its name goes before one in front of it. -/
def commandDemand (seedVariable : Option String) (verbosity : Nat) (name : String)
    (arguments : List String) : Demand :=
  let invocation? := do
    let verb ← Verb.ofName? name
    let c ← Collected.ofArguments? verb arguments
    let command ← command? seedVariable verb c
    some ⟨if c.verbosity = 0 then verbosity else c.verbosity, command⟩
  match invocation? with
  | some invocation => .command invocation
  | none => .unusable

/-- What a row of arguments asks for, after some flags. -/
def demandFrom (seedVariable : Option String) (verbosity : Nat) : List String → Demand
  | [] => .unusable
  | argument :: rest =>
      match shapeOf argument with
      | .separator => .unusable
      | .long _ (some _) => .unusable
      | .long name none =>
          if name = verboseName then demandFrom seedVariable (verbosity + 1) rest
          else if name = "version" then .programVersion
          else .unusable
      | .cluster letters =>
          match leadingCluster verbosity letters with
          | .ok verbosity => demandFrom seedVariable verbosity rest
          | .error demand => demand
      | .word => commandDemand seedVariable verbosity argument rest

/-- What a row of arguments asks for. -/
def demandOf (seedVariable : Option String) (arguments : List String) : Demand :=
  demandFrom seedVariable 0 arguments

end QCircuit.CommandLine
