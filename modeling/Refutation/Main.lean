import Refutation.Cli.Session

/-!
# The command line program
-/

namespace Refutation

namespace Cli

/-- Why the system refuses to read a file. -/
def fileFault : IO.Error → FileFault
  | .noFileOrDirectory .. => .notFound
  | .inappropriateType _ 20 _ => .notADirectory
  | .inappropriateType .. => .isADirectory
  | .invalidArgument _ 36 _ => .nameTooLong
  | .permissionDenied .. => .notPermitted
  | .userError _ => .notText
  | e => .other (toString e)

/-- Read a file as text. -/
def readTextFile (path : String) : IO FileResult := do
  try
    let text ← IO.FS.readFile path
    return .ok text
  catch e => return .error (fileFault e)

/-- The time since a moment, given in nanoseconds. -/
def since (start : Nat) : IO Duration := do
  let now ← IO.monoNanosNow
  return ⟨now - start⟩

/-- Run a search to its end. -/
partial def runSearch (start : Nat) (r : Run) : IO Run := do
  if r.status.isTerminal then return r
  let elapsed ← since start
  runSearch start (r.step elapsed)

/-- Run the program on a problem file. -/
def runOn (file : String) (o : Options) : IO UInt32 := do
  match ← Session.load readTextFile file o with
  | .error e =>
    IO.eprintln (errorLine e)
    return (exitCode e).toUInt32
  | .ok session =>
    let start ← IO.monoNanosNow
    let run ← runSearch start session.run
    let elapsed ← since start
    if { session with run := run : Session }.isContradicted then
      IO.eprintln "WARN result contradicts the problem status"
    IO.print (run.report o file elapsed)
    return 0

end Cli

end Refutation

open Refutation

/-- The program. -/
def main (args : List String) : IO UInt32 := do
  match Cli.parse args with
  | none =>
    IO.eprintln "error: bad usage\n\nFor more information, try '--help'."
    return 2
  | some .help =>
    IO.println Cli.helpText
    return 0
  | some .version =>
    IO.println Cli.versionText
    return 0
  | some (.run file o) => Cli.runOn file o
