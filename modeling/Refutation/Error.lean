/-!
# What can go wrong

The reasons for which reading a problem, collecting a signature, setting up a search or running the
command line can fail, and the message for each.
-/

namespace Refutation

/-- Why a file could not be read. -/
inductive FileFault where
  | notFound
  | notADirectory
  | isADirectory
  | nameTooLong
  | notPermitted
  | notText
  /-- Any other failure, in the system's words. -/
  | other (message : String)
deriving DecidableEq, Repr, Inhabited

/-- The message of a file failure. -/
def FileFault.message : FileFault → String
  | notFound => "No such file or directory (os error 2)"
  | notADirectory => "Not a directory (os error 20)"
  | isADirectory => "Is a directory (os error 21)"
  | nameTooLong => "File name too long (os error 36)"
  | notPermitted => "Permission denied (os error 13)"
  | notText => "stream did not contain valid UTF-8"
  | other message => message

/-- Why a number of seconds is no time limit. -/
inductive LimitFault where
  | negative
  | tooLargeOrUndefined
deriving DecidableEq, Repr, Inhabited

/-- The message of a rejected time limit. -/
def LimitFault.message : LimitFault → String
  | negative => "cannot convert float seconds to Duration: value is negative"
  | tooLargeOrUndefined =>
    "cannot convert float seconds to Duration: value is either too big or NaN"

/-- The reasons for a failure. -/
inductive Error where
  /-- The statement that begins on the given line is no clause; the text is how it begins. -/
  | invalidClause (line : Nat) (snippet : String)
  /-- The statement on the given line is of a kind that is not read. -/
  | unsupported (line : Nat) (keyword : String)
  /-- No clause role has this name. -/
  | unknownRole (word : String)
  /-- No verdict has this name. -/
  | unknownVerdict (word : String)
  /-- A symbol was used with two numbers of arguments. -/
  | arityMismatch (symbol : String) (expected found : Nat)
  /-- A symbol was used both as a function and as a predicate. -/
  | kindClash (symbol : String)
  /-- No clause selection heuristic has this name. -/
  | unknownHeuristic (name : String)
  /-- No literal selection has this name. -/
  | unknownSelection (name : String)
  /-- A schedule of evaluations without any evaluation. -/
  | noEvaluations
  /-- An evaluation that would never be used. -/
  | zeroRating (evaluation : String)
  /-- The command line gave a time limit that is none; the text is the number. -/
  | invalidLimit (seconds : String) (fault : LimitFault)
  /-- A time limit in a parameter text that is beyond what a duration can hold. -/
  | limitOverflow
  /-- A text is not the JSON form of what was expected. -/
  | json (message : String)
  /-- A file could not be read. -/
  | file (fault : FileFault)
deriving DecidableEq, Repr, Inhabited

/-- The message that tells the user what went wrong. -/
def Error.message : Error → String
  | invalidClause line snippet =>
    "Parse error: line " ++ toString line ++ ": invalid clause near '" ++ snippet ++ "'"
  | unsupported line keyword =>
    "Parse error: line " ++ toString line ++ ": " ++ keyword ++ " statements are not supported"
  | unknownRole word => "Parse error: unknown clause role '" ++ word ++ "'"
  | unknownVerdict word => "Parse error: unknown SZS status '" ++ word ++ "'"
  | arityMismatch symbol expected found =>
    "Symbol " ++ symbol ++ " used with arity " ++ toString found ++ ", previously " ++
      toString expected
  | kindClash symbol => "Symbol " ++ symbol ++ " used both as function and predicate"
  | unknownHeuristic name => "Unknown heuristic: " ++ name
  | unknownSelection name => "Unknown literal selection strategy: " ++ name
  | noEvaluations => "Invalid evaluation ratings: no evaluation functions"
  | zeroRating evaluation => "Invalid evaluation ratings: " ++ evaluation ++ " has rating 0"
  | invalidLimit seconds fault =>
    "Parse error: invalid timeout " ++ seconds ++ ": " ++ fault.message
  | limitOverflow => LimitFault.message .tooLargeOrUndefined
  | json message => "JSON error: " ++ message
  | file fault => "IO error: " ++ fault.message

end Refutation
