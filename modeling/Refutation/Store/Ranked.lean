import Refutation.OrderedMap
import Refutation.Schedule
import Refutation.Store.Basic

/-!
# Ranked stores

A ranked store scores each clause once, when it is added, and gives it a ticket with the scores and
the number of arrivals before it.  For each evaluation it keeps a queue of ranks, ordered by score
and, for equal scores, by arrival, and a register tells when the clause with a given number arrived.
`RankedStore.extractBest?` takes out the first clause of the queue whose turn it is.
-/

namespace Refutation

/-- A place in a queue. -/
structure Rank where
  /-- The score. -/
  score : Nat
  /-- How many clauses had arrived before. -/
  arrival : Nat
deriving DecidableEq, Repr, Inhabited

namespace Rank

/-- A lower score comes first; equal scores are ordered by arrival. -/
instance : Ord Rank := ⟨compareLex (compareOn (·.score)) (compareOn (·.arrival))⟩

instance : Std.TransOrd Rank :=
  inferInstanceAs (Std.TransCmp (compareLex (compareOn Rank.score) (compareOn Rank.arrival)))

instance : Std.LawfulEqOrd Rank where
  eq_of_compare {a b} h := by
    obtain ⟨h₁, h₂⟩ := compareLex_eq_eq.1 h
    have h₁ : a.score = b.score := Std.LawfulEqOrd.eq_of_compare h₁
    have h₂ : a.arrival = b.arrival := Std.LawfulEqOrd.eq_of_compare h₂
    cases a
    cases b
    simp_all

end Rank

/-- Ranks in increasing order. -/
abbrev RankQueue := OrderedMap Rank Unit

/-- A waiting clause. -/
structure Ticket where
  /-- The clause. -/
  entry : Entry
  /-- How many clauses had arrived before. -/
  arrival : Nat
  /-- The scores, one for each evaluation. -/
  scores : List Nat
deriving DecidableEq, Repr, Inhabited

/-- Clauses waiting in several queues at once. -/
structure RankedStore where
  /-- The evaluations and whose turn it is. -/
  schedule : Schedule
  /-- The waiting clauses, oldest first. -/
  tickets : List Ticket
  /-- For each evaluation the ranks of the waiting clauses. -/
  queues : List RankQueue
  /-- For each waiting clause, by number, how many clauses had arrived before it. -/
  register : OrderedMap Nat Nat
  /-- How many clauses have arrived. -/
  arrivals : Nat
deriving DecidableEq

namespace RankedStore

/-- The store without clauses. -/
def empty (schedule : Schedule) : RankedStore :=
  ⟨schedule, [], schedule.evaluations.map fun _ => .empty, .empty, 0⟩

instance : Inhabited RankedStore := ⟨empty default⟩

variable (s : RankedStore)

/-- The waiting clauses, oldest first. -/
def toList : List Entry := s.tickets.map (·.entry)

/-- The ticket of the clause that came after the given number of arrivals. -/
def ticket? (arrival : Nat) : Option Ticket := s.tickets.find? fun t => t.arrival = arrival

/-- The scores of the clause with the given number. -/
def scores? (n : Nat) : Option (List Nat) := do
  let arrival ← s.register.get? n
  (s.ticket? arrival).map (·.scores)

/-- Add a clause at the place that its scores give it.  A clause that is already waiting stays where
it is and is not scored again. -/
def insert (e : Entry) : RankedStore :=
  if s.register.contains e.number then s
  else
    let (scores, schedule) := s.schedule.evaluate e.clause
    { schedule := schedule
      tickets := s.tickets ++ [⟨e, s.arrivals, scores⟩]
      queues := s.queues.zipWith (fun q score => q.insert ⟨score, s.arrivals⟩ ()) scores
      register := s.register.insert e.number s.arrivals
      arrivals := s.arrivals + 1 }

/-- Take a ticket out of the store, its ranks out of all queues and its clause out of the
register. -/
def remove (t : Ticket) : RankedStore :=
  { s with
    tickets := s.tickets.filter fun u => u.arrival ≠ t.arrival
    queues := s.queues.zipWith (fun q score => q.erase ⟨score, t.arrival⟩) t.scores
    register := s.register.erase t.entry.number }

/-- Take out the clause that came after the given number of arrivals. -/
def extractAt? (arrival : Nat) : Option (Entry × RankedStore) :=
  (s.ticket? arrival).map fun t => (t.entry, s.remove t)

/-- Take out the clause with the given number. -/
def extract? (n : Nat) : Option (Entry × RankedStore) := do
  let arrival ← s.register.get? n
  s.extractAt? arrival

/-- Take out the clause with the least score under evaluation `i`, the oldest of equals. -/
def extractBestBy? (i : Nat) : Option (Entry × RankedStore) := do
  let q ← s.queues[i]?
  let (rank, _) ← q.first?
  s.extractAt? rank.arrival

/-- Take out the best clause under the evaluation whose turn it is.  Nobody loses a turn if no
clause is waiting. -/
def extractBest? : Option (Entry × RankedStore) :=
  if s.tickets.isEmpty then none
  else
    let (i, schedule) := s.schedule.next
    extractBestBy? { s with schedule := schedule } i

/-- Take out the oldest clause. -/
def extractFirst? : Option (Entry × RankedStore) := do
  let t ← s.tickets.head?
  s.extractAt? t.arrival

instance : ClauseQueue RankedStore where
  insert := insert
  extract? := extract?
  toList := toList
  partners s l := partnersIn s.toList l
  subsuming s _ := s.toList
  subsumed s _ := s.toList
  next? := extractBest?

end RankedStore

end Refutation
