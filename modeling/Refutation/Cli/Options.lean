import Refutation.Clause.Selection
import Refutation.Decimal.Double
import Refutation.Schedule

/-!
# Command line options

The arguments of the program: a problem file, switches and settings.  Switches and settings have
long names, after two hyphens, and most have a letter; letters can be joined after one hyphen.  The
value of a setting follows after an equals sign, as the next argument or, for a letter, right behind
it.  After two hyphens alone everything is a file.

Apart from the verbosity no switch and no setting may be given twice.
-/

namespace Refutation

namespace Cli

/-- Arguments without a value. -/
inductive Switch where
  | deleteTautologies
  | forwardSubsumption
  | backwardSubsumption
  | equalityAxioms
  | proof
  | plain
  | json
  | verbose
  | help
  | version
deriving DecidableEq, Repr, Inhabited

/-- Arguments with a value. -/
inductive Setting where
  | heuristics
  | literalSelection
  | maxIterations
  | timeout
  | config
deriving DecidableEq, Repr, Inhabited

/-- What a name or a letter on the command line denotes. -/
inductive Flag where
  | switch (s : Switch)
  | setting (s : Setting)
deriving DecidableEq, Repr, Inhabited

namespace Flag

/-- The flag with a long name. -/
def ofName? : String → Option Flag
  | "delete-tautologies" => some (switch .deleteTautologies)
  | "forward-subsumption" => some (switch .forwardSubsumption)
  | "backward-subsumption" => some (switch .backwardSubsumption)
  | "equality-axioms" => some (switch .equalityAxioms)
  | "proof" => some (switch .proof)
  | "simple" => some (switch .plain)
  | "json" => some (switch .json)
  | "verbose" => some (switch .verbose)
  | "help" => some (switch .help)
  | "version" => some (switch .version)
  | "heuristics" => some (setting .heuristics)
  | "literal-selection" => some (setting .literalSelection)
  | "max-iterations" => some (setting .maxIterations)
  | "timeout" => some (setting .timeout)
  | "config" => some (setting .config)
  | _ => none

/-- The flag with a letter. -/
def ofLetter? : Char → Option Flag
  | 't' => some (switch .deleteTautologies)
  | 'f' => some (switch .forwardSubsumption)
  | 'b' => some (switch .backwardSubsumption)
  | 'e' => some (switch .equalityAxioms)
  | 'p' => some (switch .proof)
  | 'v' => some (switch .verbose)
  | 'h' => some (switch .help)
  | 'V' => some (switch .version)
  | 'H' => some (setting .heuristics)
  | 'n' => some (setting .literalSelection)
  | _ => none

end Flag

/-- The arguments of a run, as far as they have been read. -/
structure Options where
  /-- The problem file. -/
  file : Option String := none
  /-- The switches that are on. -/
  switches : List Switch := []
  /-- The chosen heuristic. -/
  heuristic : Option Heuristic := none
  /-- The chosen literal selection. -/
  selection : Option LiteralSelection := none
  /-- The bound on given clauses. -/
  maxIterations : Option Nat := none
  /-- The time limit in seconds. -/
  timeout : Option Double := none
  /-- The file with search parameters. -/
  config : Option String := none
deriving DecidableEq, Repr, Inhabited

/-- What the command line asks for. -/
inductive Request where
  | help
  | version
  /-- A run on a problem file. -/
  | run (file : String) (options : Options)
deriving DecidableEq, Repr, Inhabited

namespace Options

variable (o : Options)

/-- A switch is on. -/
def isOn (s : Switch) : Bool := o.switches.contains s

/-- Turn a switch on, once. -/
def turnOn (s : Switch) : Option Options :=
  if o.isOn s && s ≠ .verbose then none else some { o with switches := o.switches ++ [s] }

/-- A bound: digits, perhaps after a plus sign, below the largest number of 64 bits. -/
def parseBound? (text : String) : Option Nat := do
  let cs := match text.toList with
    | '+' :: cs => cs
    | cs => cs
  let (digits, rest) ← Numeral.scanSomeDigits cs
  let n := Numeral.valueOf digits
  if rest.isEmpty && n < Nat.pow 2 64 then some n else none

/-- A file name: anything but the empty text. -/
def parsePath? (text : String) : Option String := if text.isEmpty then none else some text

/-- Give a setting a value, once. -/
def assign (s : Setting) (value : String) : Option Options :=
  match s with
  | .heuristics => do
    guard o.heuristic.isNone
    return { o with heuristic := some (← Heuristic.ofName? value) }
  | .literalSelection => do
    guard o.selection.isNone
    return { o with selection := some (← LiteralSelection.ofName? value) }
  | .maxIterations => do
    guard o.maxIterations.isNone
    return { o with maxIterations := some (← parseBound? value) }
  | .timeout => do
    guard o.timeout.isNone
    return { o with timeout := some (← Double.parse? value) }
  | .config => do
    guard o.config.isNone
    return { o with config := some (← parsePath? value) }

/-- Take an argument for the problem file, once. -/
def takeFile (text : String) : Option Options := do
  guard o.file.isNone
  return { o with file := some (← parsePath? text) }

/-- The request when all arguments have been read: there must be a problem file. -/
def finish : Option Request := o.file.map fun file => .run file o

end Options

/-- How the reading of an argument goes on. -/
inductive Progress where
  /-- With the next argument. -/
  | next (o : Options)
  /-- The next argument is the value of a setting. -/
  | value (s : Setting) (o : Options)
  /-- Not at all: this is what was asked for. -/
  | stop (r : Request)
  /-- The argument cannot be used. -/
  | fail
deriving Inhabited

namespace Progress

/-- Go on if there are options to go on with. -/
def ofOption : Option Options → Progress
  | some o => next o
  | none => fail

end Progress

/-- Read letters joined after a hyphen. -/
def readLetters (o : Options) : List Char → Progress
  | [] => .next o
  | c :: cs =>
    match Flag.ofLetter? c with
    | none => .fail
    | some (.switch .help) => .stop .help
    | some (.switch .version) => .stop .version
    | some (.switch s) =>
      match o.turnOn s with
      | some o => readLetters o cs
      | none => .fail
    | some (.setting s) =>
      match cs with
      | [] => .value s o
      | '=' :: value => .ofOption (o.assign s (String.ofList value))
      | value => .ofOption (o.assign s (String.ofList value))

/-- Read what follows two hyphens: a long name and perhaps an equals sign and a value. -/
def readName (o : Options) (cs : List Char) : Progress :=
  let name := String.ofList (cs.takeWhile (· ≠ '='))
  match Flag.ofName? name, cs.dropWhile (· ≠ '=') with
  | some (.switch .help), [] => .stop .help
  | some (.switch .version), [] => .stop .version
  | some (.switch s), [] => .ofOption (o.turnOn s)
  | some (.setting s), [] => .value s o
  | some (.setting s), _ :: value => .ofOption (o.assign s (String.ofList value))
  | _, _ => .fail

/-- Read one argument. -/
def readArgument (o : Options) (arg : String) : Progress :=
  match arg.toList with
  | '-' :: '-' :: cs => readName o cs
  | ['-'] => .ofOption (o.takeFile arg)
  | '-' :: cs => readLetters o cs
  | _ => .ofOption (o.takeFile arg)

/-- The argument looks like a switch or a setting, and cannot be the value of one. -/
def looksLikeFlag (arg : String) : Bool := arg.startsWith "-" && arg ≠ "-"

/-- Read files only. -/
def readFiles (o : Options) : List String → Option Request
  | [] => o.finish
  | arg :: args =>
    match o.takeFile arg with
    | some o => readFiles o args
    | none => none

/-- Read arguments from left to right; `none` if they cannot be used. -/
def readArguments (o : Options) : List String → Option Request
  | [] => o.finish
  | "--" :: args => readFiles o args
  | arg :: args =>
    match readArgument o arg with
    | .fail => none
    | .stop r => some r
    | .next o => readArguments o args
    | .value s o =>
      match args with
      | [] => none
      | value :: args =>
        if looksLikeFlag value then none
        else
          match o.assign s value with
          | some o => readArguments o args
          | none => none

/-- Read a command line; `none` if it cannot be used. -/
def parse (args : List String) : Option Request := readArguments {} args

end Cli

end Refutation
