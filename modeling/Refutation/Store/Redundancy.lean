import Refutation.Store.Basic
import Refutation.Subsumption

/-!
# Subsumption against a store

A clause is redundant if some member of a store subsumes it; members are redundant if a clause
subsumes them.
-/

namespace Refutation

/-- Some member of the store subsumes the clause. -/
def isSubsumedBy {σ : Type} [ClauseStore σ] (c : Clause) (store : σ) : Bool :=
  (ClauseStore.subsuming store c).any fun d => d.clause.subsumes c

/-- Take those of the candidates out of the store that the clause subsumes, except the clause
itself. -/
def removeSubsumedAmong {σ : Type} [ClauseStore σ] (c : Entry) :
    List Entry → σ → List Entry × σ
  | [], store => ([], store)
  | d :: ds, store =>
    if d.number ≠ c.number && c.clause.subsumes d.clause then
      match ClauseStore.extract? store d.number with
      | some (e, store) =>
        let (es, store) := removeSubsumedAmong c ds store
        (e :: es, store)
      | none => removeSubsumedAmong c ds store
    else removeSubsumedAmong c ds store

/-- Take every member out of the store that the clause subsumes, except the clause itself. -/
def removeSubsumed {σ : Type} [ClauseStore σ] (c : Entry) (store : σ) : List Entry × σ :=
  removeSubsumedAmong c (ClauseStore.subsumed store c.clause) store

end Refutation
