import Refutation.Proof
import Refutation.Search.Procedure
import Refutation.Signature
import Refutation.Store.Indexed
import Refutation.Store.Ranked

/-!
# The two searches

A full search keeps its processed clauses in an indexed store and its unprocessed ones in a ranked
store.  A plain search keeps both in plain stores, always takes the oldest clause, and eliminates no
redundancy.  Either starts only from clauses with a consistent signature.
-/

namespace Refutation

namespace Search

/-- The states of a full search. -/
abbrev FullState := State IndexedStore RankedStore

/-- The states of a plain search. -/
abbrev PlainState := State PlainStore PlainStore

/-- Start a full search. -/
def startFull (params : Params) (clauses : List Clause) : Except Error FullState :=
  (Signature.ofClauses clauses).map fun _ =>
    State.start IndexedStore.empty (RankedStore.empty params.heuristic.schedule) clauses

/-- Start a plain search. -/
def startPlain (clauses : List Clause) : Except Error PlainState :=
  (Signature.ofClauses clauses).map fun _ => State.start PlainStore.empty PlainStore.empty clauses

/-- The proof that a search has found. -/
def State.proof? {P U : Type} (s : State P U) : Option Proof :=
  s.result.map fun e => .ofArchive s.archive e.number

end Search

end Refutation
