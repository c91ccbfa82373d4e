import Refutation.Cli.Options
import Refutation.Codec.Logic
import Refutation.Codec.Params
import Refutation.Equality
import Refutation.Problem.Reader
import Refutation.Search.Start

/-!
# A run of the program

From the options to a search that is ready to start, and from a search that is over to the report.
The files are read through a function that the caller provides; the search itself is run by the
caller too, step by step, so that time can pass between the steps.
-/

namespace Refutation

namespace Cli

/-- A failed reading of a file. -/
abbrev FileResult := Except FileFault String

/-- The search parameters: those of the configuration text, overridden by the options. -/
def Options.params (o : Options) (config : Option String) : Except Error Search.Params := do
  let base ← match config with
    | some text => Search.Params.parse text
    | none => pure {}
  let timeout ← match o.timeout with
    | none => pure base.timeout
    | some seconds =>
      match Duration.ofDouble seconds with
      | .ok d => pure (some d)
      | .error fault => throw (.invalidLimit seconds.render fault)
  return {
    heuristic := o.heuristic.getD base.heuristic
    deleteTautologies := base.deleteTautologies || o.isOn .deleteTautologies
    forwardSubsumption := base.forwardSubsumption || o.isOn .forwardSubsumption
    backwardSubsumption := base.backwardSubsumption || o.isOn .backwardSubsumption
    selection := o.selection.or base.selection
    maxIterations := o.maxIterations.or base.maxIterations
    timeout := timeout }

/-- A search of either kind. -/
inductive Run where
  | full (policy : Search.Policy) (state : Search.FullState)
  | plain (policy : Search.Policy) (state : Search.PlainState)

namespace Run

/-- Where the search stands. -/
def status : Run → Search.Status
  | full _ s => s.status
  | plain _ s => s.status

/-- The counters. -/
def statistics : Run → Search.Statistics
  | full _ s => s.statistics
  | plain _ s => s.statistics

/-- The proof, if one was found. -/
def proof? : Run → Option Proof
  | full _ s => s.proof?
  | plain _ s => s.proof?

/-- One step, at the given time after the start. -/
def step (elapsed : Duration) : Run → Run
  | full policy s => full policy (s.step policy elapsed)
  | plain policy s => plain policy (s.step policy elapsed)

end Run

/-- A search on a problem, and the verdict that the problem states. -/
structure Session where
  /-- The stated verdict. -/
  expected : Option Verdict
  /-- The search. -/
  run : Run

/-- Set up the search for a problem text. -/
def Session.start (o : Options) (params : Search.Params) (text : String) :
    Except Error Session := do
  let problem ← readProblem text
  let axioms ← if o.isOn .equalityAxioms then Equality.axiomsFor problem.clauses else pure []
  let clauses := problem.clauses ++ axioms
  let run ← if o.isOn .plain
    then do pure (.plain params.plainPolicy (← Search.startPlain clauses))
    else do pure (.full params.policy (← Search.startFull params clauses))
  return ⟨problem.expected, run⟩

/-- Read the files and set up the search: first the configuration, then the problem. -/
def Session.load {m : Type → Type} [Monad m] (readFile : String → m FileResult) (file : String)
    (o : Options) : m (Except Error Session) := do
  let config ← match o.config with
    | none => pure (.ok none)
    | some path => do pure ((← readFile path).map some)
  match config with
  | .error fault => return .error (.file fault)
  | .ok config =>
    match o.params config with
    | .error e => return .error e
    | .ok params =>
      match ← readFile file with
      | .error fault => return .error (.file fault)
      | .ok text => return Session.start o params text

/-- The result contradicts the verdict that the problem states. -/
def Session.isContradicted (s : Session) : Bool :=
  s.expected.any fun v => !v.agreesWith s.run.status.verdict

/-! ### Reports -/

/-- A duration in seconds with three digits after the point. -/
def renderSeconds (d : Duration) : String :=
  let ms := roundQuotient .toEven d.nanoseconds 1000000
  toString (ms / 1000) ++ "." ++ Numeral.renderDigits
    [ms / 100 % 10, ms / 10 % 10, ms % 10]

/-- The counters as JSON. -/
def statisticsJson (s : Search.Statistics) (elapsed : Duration) : Json :=
  .object [("initial_clauses", .ofNat s.initial), ("processed_clauses", .ofNat s.processed),
    ("factors", .ofNat s.factors), ("resolvents", .ofNat s.resolvents),
    ("tautologies_deleted", .ofNat s.tautologiesDeleted),
    ("forward_subsumed", .ofNat s.forwardSubsumed),
    ("backward_subsumed", .ofNat s.backwardSubsumed), ("iterations", .ofNat s.iterations),
    ("elapsed", Search.Params.durationJson elapsed)]

/-- The report as JSON, fields in alphabetical order. -/
def Run.reportJson (r : Run) (file : String) (elapsed : Duration) : Json :=
  Json.sorted <| .object [("problem", .string file), ("status", .string r.status.verdict.name),
    ("statistics", statisticsJson r.statistics elapsed), ("proof", .ofOption Proof.toJson r.proof?)]

/-- The report as lines: the verdict, the counters and, if asked for, the proof. -/
def Run.reportText (r : Run) (file : String) (withProof : Bool) (elapsed : Duration) : String :=
  let lines := ["# SZS status " ++ r.status.verdict.name ++ " for " ++ file] ++
    r.statistics.lines ++
    ["# Elapsed time       : " ++ renderSeconds elapsed ++ "s"]
  let proof := match withProof, r.proof? with
    | true, some p =>
      "# SZS output start CNFRefutation for " ++ file ++ "\n" ++ p.render ++
        "# SZS output end CNFRefutation for " ++ file ++ "\n"
    | _, _ => ""
  String.join (lines.map (· ++ "\n")) ++ proof

/-- What the program writes about a search that is over. -/
def Run.report (r : Run) (o : Options) (file : String) (elapsed : Duration) : String :=
  if o.isOn .json then (r.reportJson file elapsed).pretty ++ "\n"
  else r.reportText file (o.isOn .proof) elapsed

/-- What the program writes about a failure.  A time limit in the configuration that no duration can
hold is no regular failure: it breaks the program off. -/
def errorLine : Error → String
  | .limitOverflow => Error.limitOverflow.message
  | e => "Error: " ++ e.message

/-- The exit code after a failure. -/
def exitCode : Error → Nat
  | .limitOverflow => 101
  | _ => 1

/-- The text of the version. -/
def versionText : String := "resolute 0.1.0"

/-- The text that explains the options. -/
def helpText : String := String.intercalate "\n" [
  "Given-clause resolution prover for first-order clause sets",
  "",
  "Usage: resolute [OPTIONS] <FILE>",
  "",
  "Arguments:",
  "  <FILE>  Problem file with cnf(...) statements",
  "",
  "Options:",
  "  -t, --delete-tautologies     Delete tautologies",
  "  -f, --forward-subsumption    Discard given clauses subsumed by processed clauses",
  "  -b, --backward-subsumption   Remove processed clauses subsumed by the given clause",
  "  -H, --heuristics <NAME>      FIFO, SymbolCount, PickGiven5 or PickGiven2",
  "  -n, --literal-selection <NAME>  first, smallest, largest, leastvars or eqleastvars",
  "      --max-iterations <N>     Stop after this many given clauses",
  "      --timeout <SECONDS>      Wall-clock limit in seconds",
  "  -e, --equality-axioms        Add equality axioms if the problem uses =",
  "  -p, --proof                  Print the refutation",
  "      --simple                 Use the plain loop",
  "      --config <FILE>          JSON file with search parameters; flags override it",
  "      --json                   Print statistics and proof as JSON",
  "  -v, --verbose                Increase log verbosity",
  "  -h, --help                   Print help",
  "  -V, --version                Print version"]

end Cli

end Refutation
