import Refutation.Proofs.Schedule
import Refutation.Proofs.Store.Ranked
import Mathlib.Data.List.MinMax

/-!
# Ranked stores as waiting lists

A ranked store keeps its clauses in a list of tickets, in one queue for each evaluation and in a
register.  Seen from outside it is a waiting list: the clauses with their scores, in the order in
which they were added.  Here each operation is described on waiting lists, where nothing is stored
twice, and ranked stores are shown to answer as waiting lists do, whatever operations are made on
them.

* `WaitingList.perform` : what each operation answers and what it leaves.
* `WaitingList.best?_eq_some` : the best member has the least score and is the oldest with that
  score.
* `RankedStore.Valid.perform` : one operation on a ranked store is that on its waiting list.
* `ranked_store_refines_list` : so is any sequence of operations, and the tables of the store agree
  after it.
-/

namespace Refutation

/-! ### Waiting lists -/

/-- An operation on clauses that wait. -/
inductive QueueOp where
  /-- Add a clause. -/
  | add (e : Entry)
  /-- Take out the clause with the given number. -/
  | extract (n : Nat)
  /-- Take out the best clause under evaluation `i`. -/
  | bestBy (i : Nat)
  /-- Take out the best clause under the evaluation whose turn it is. -/
  | best
  /-- Take out the oldest clause. -/
  | first
deriving DecidableEq

/-- Perform operations one after the other, and collect the answers. -/
def performAll {σ : Type} (perform : σ → QueueOp → Option Entry × σ) :
    List QueueOp → σ → List (Option Entry) × σ
  | [], s => ([], s)
  | op :: ops, s =>
    let (answer, s) := perform s op
    let (answers, s) := performAll perform ops s
    (answer :: answers, s)

/-- The clauses that wait and their scores, oldest first. -/
structure WaitingList where
  /-- The evaluations and whose turn it is. -/
  schedule : Schedule
  /-- The clauses with their scores. -/
  members : List (Entry × List Nat)
deriving DecidableEq

namespace WaitingList

variable (w : WaitingList)

/-- The clause with the given number waits. -/
def Waits (n : Nat) : Prop := ∃ m ∈ w.members, m.1.number = n

instance (n : Nat) : Decidable (w.Waits n) :=
  inferInstanceAs (Decidable (∃ m ∈ w.members, m.1.number = n))

/-- Score a clause and add it as the youngest member, unless it waits already. -/
def add (e : Entry) : WaitingList :=
  if w.Waits e.number then w
  else ⟨(w.schedule.evaluate e.clause).2, w.members ++ [(e, (w.schedule.evaluate e.clause).1)]⟩

/-- Answer a member and take it out; without one the list stays as it is. -/
def takeOut : Option (Entry × List Nat) → Option Entry × WaitingList
  | some m => (some m.1, { w with members := w.members.erase m })
  | none => (none, w)

/-- The member with the least score under evaluation `i`, the oldest of equals. -/
def best? (i : Nat) : Option (Entry × List Nat) :=
  if i < w.schedule.size then w.members.argmin fun m => m.2.getD i 0 else none

/-- The list after a turn has been taken. -/
def next : WaitingList := { w with schedule := w.schedule.next.2 }

/-- What an operation answers and what it leaves. -/
def perform : QueueOp → Option Entry × WaitingList
  | .add e => (none, w.add e)
  | .extract n => w.takeOut (w.members.find? fun m => m.1.number = n)
  | .bestBy i => w.takeOut (w.best? i)
  | .best =>
    if w.members.isEmpty then (none, w) else w.next.takeOut (w.next.best? w.schedule.next.1)
  | .first => w.takeOut w.members.head?

variable {w}

theorem best?_eq_some {i : Nat} (hi : i < w.schedule.size) {m : Entry × List Nat}
    {older younger : List (Entry × List Nat)} (hmembers : w.members = older ++ m :: younger)
    (holder : ∀ k ∈ older, m.2.getD i 0 < k.2.getD i 0)
    (hyounger : ∀ k ∈ younger, m.2.getD i 0 ≤ k.2.getD i 0) : w.best? i = some m := by
  rw [best?, if_pos hi, hmembers]
  clear hmembers
  induction older with
  | nil =>
    rw [List.nil_append, List.argmin_cons]
    cases hmin : younger.argmin fun m => m.2.getD i 0 with
    | none => rfl
    | some k => exact if_neg (Nat.not_lt.2 (hyounger k (List.argmin_mem hmin)))
  | cons k older ih =>
    obtain ⟨hk, holder⟩ := List.forall_mem_cons.1 holder
    rw [List.cons_append, List.argmin_cons, ih holder]
    exact if_pos hk

end WaitingList

/-! ### The waiting list of a ranked store -/

namespace RankedStore

/-- Give the answer of an extraction; one that fails leaves the store as it is. -/
def answer (s : RankedStore) : Option (Entry × RankedStore) → Option Entry × RankedStore
  | some (e, s') => (some e, s')
  | none => (none, s)

/-- Perform an operation. -/
def perform (s : RankedStore) : QueueOp → Option Entry × RankedStore
  | .add e => (none, s.insert e)
  | .extract n => s.answer (s.extract? n)
  | .bestBy i => s.answer (s.extractBestBy? i)
  | .best => s.answer s.extractBest?
  | .first => s.answer s.extractFirst?

/-- What is seen of a store from outside. -/
def view (s : RankedStore) : WaitingList := ⟨s.schedule, s.tickets.map fun t => (t.entry, t.scores)⟩

variable {s : RankedStore} {t : Ticket}

theorem waits_view {n : Nat} : s.view.Waits n ↔ ∃ t ∈ s.tickets, t.entry.number = n := by
  simp [WaitingList.Waits, view]

theorem toList_eq (s : RankedStore) : s.toList = s.view.members.map (·.1) := by
  simp [toList, view]

theorem Valid.size_view (hs : s.Valid) : s.view.schedule.size = s.queues.length := hs.evaluations

theorem Valid.insert_of_waits (hs : s.Valid) {e : Entry} (h : s.view.Waits e.number) :
    s.insert e = s := by
  rw [RankedStore.insert, if_pos (hs.contains_register.2 (waits_view.1 h))]

theorem Valid.perform_add (hs : s.Valid) (e : Entry) :
    (s.insert e).Valid ∧ (s.insert e).view = s.view.add e := by
  by_cases hwaits : s.view.Waits e.number
  · rw [hs.insert_of_waits hwaits, WaitingList.add, if_pos hwaits]
    exact ⟨hs, rfl⟩
  · have hnew : s.register.contains e.number = false := by
      rw [← Bool.not_eq_true, hs.contains_register, ← waits_view]
      exact hwaits
    have hother : ∀ d ∈ s.toList, d.number ≠ e.number := by
      intro d hd hnumber
      obtain ⟨t, ht, rfl⟩ := List.mem_map.1 hd
      exact hwaits (waits_view.2 ⟨t, ht, hnumber⟩)
    refine ⟨(hs.insert hother).1, ?_⟩
    rw [WaitingList.add, if_neg hwaits, RankedStore.insert, hnew]
    simp [view]

theorem Valid.view_remove (hs : s.Valid) (ht : t ∈ s.tickets) :
    (s.remove t).view = { s.view with members := s.view.members.erase (t.entry, t.scores) } := by
  have hnodup : (s.tickets.map fun t => (t.entry, t.scores)).Nodup := by
    refine List.Nodup.of_map (fun m => m.1.number) ?_
    simpa [toList, Function.comp_def] using hs.nodup
  simp only [view, RankedStore.remove, hnodup.erase_eq_filter, List.filter_map]
  congr 2
  refine List.filter_congr fun u hu => ?_
  rw [Function.comp_apply, Bool.eq_iff_iff, decide_eq_true_iff, bne_iff_ne]
  refine not_congr ⟨fun h => ?_, fun h => ?_⟩
  · rw [hs.eq_of_arrival_eq hu ht h]
  · rw [hs.eq_of_number_eq hu ht (congrArg (fun m => m.1.number) h)]

/-- An extraction that takes out the member that the waiting list takes out. -/
theorem Valid.answer_some (hs : s.Valid) (ht : t ∈ s.tickets) {o : Option (Entry × RankedStore)}
    (ho : o = some (t.entry, s.remove t)) {m? : Option (Entry × List Nat)}
    (hm : m? = some (t.entry, t.scores)) (s' : RankedStore) :
    (s'.answer o).2.Valid ∧ ((s'.answer o).1, (s'.answer o).2.view) = s.view.takeOut m? := by
  rw [ho, hm]
  exact ⟨hs.remove ht, Prod.ext rfl (hs.view_remove ht)⟩

theorem Valid.perform_extract (hs : s.Valid) (n : Nat) :
    (s.answer (s.extract? n)).2.Valid ∧
      ((s.answer (s.extract? n)).1, (s.answer (s.extract? n)).2.view) =
        s.view.takeOut (s.view.members.find? fun m => m.1.number = n) := by
  have hfind : (s.view.members.find? fun m => m.1.number = n) =
      (s.tickets.find? fun t => t.entry.number = n).map fun t => (t.entry, t.scores) := by
    rw [view, List.find?_map]
    rfl
  cases hticket : s.tickets.find? fun t => t.entry.number = n with
  | some t =>
    have ht := List.mem_of_find?_eq_some hticket
    obtain rfl : t.entry.number = n := by simpa using List.find?_some hticket
    refine hs.answer_some ht (hs.extract?_number ht) ?_ s
    rw [hfind, hticket, Option.map_some]
  | none =>
    have hnone : s.extract? n = none := by
      rw [← Option.not_isSome_iff_eq_none, Option.isSome_iff_exists]
      rintro ⟨⟨e, s'⟩, h⟩
      obtain ⟨t, ht, hnumber, -⟩ := hs.extract? h
      simpa [hnumber] using List.find?_eq_none.1 hticket t ht
    rw [hfind, hticket, hnone]
    exact ⟨hs, rfl⟩

theorem Valid.exists_best? (hs : s.Valid) {i : Nat} (hi : i < s.queues.length)
    (hwaiting : s.tickets ≠ []) :
    ∃ t ∈ s.tickets, s.extractBestBy? i = some (t.entry, s.remove t) ∧
      s.view.best? i = some (t.entry, t.scores) := by
  obtain ⟨t, ht, hextract, hbest⟩ := hs.exists_extractBestBy? hi hwaiting
  refine ⟨t, ht, hextract, ?_⟩
  obtain ⟨older, younger, htickets⟩ := List.append_of_mem ht
  have hsorted := hs.sorted
  rw [htickets, List.pairwise_append, List.pairwise_cons] at hsorted
  obtain ⟨-, -, hbefore⟩ := hsorted
  have hmembers : s.view.members = older.map (fun t => (t.entry, t.scores)) ++
      (t.entry, t.scores) :: younger.map fun t => (t.entry, t.scores) := by
    simp [view, htickets]
  refine WaitingList.best?_eq_some (hs.size_view.symm ▸ hi) hmembers ?_ ?_
  · intro k hk
    obtain ⟨u, hu, rfl⟩ := List.mem_map.1 hk
    -- an older member with the same score would be better
    have hlt := hbefore u hu t List.mem_cons_self
    refine (hbest u (by simp [htickets, hu])).resolve_right fun h => ?_
    exact Nat.not_lt.2 h.2 hlt
  · intro k hk
    obtain ⟨u, hu, rfl⟩ := List.mem_map.1 hk
    exact (hbest u (by simp [htickets, hu])).elim Nat.le_of_lt fun h => Nat.le_of_eq h.1

theorem Valid.extractBestBy?_eq_none (hs : s.Valid) {i : Nat}
    (h : s.tickets = [] ∨ s.queues.length ≤ i) : s.extractBestBy? i = none := by
  cases hqueue : s.queues[i]? with
  | none => simp [extractBestBy?, hqueue]
  | some q =>
    have hlt : i < s.queues.length := (List.getElem?_eq_some_iff.1 hqueue).1
    have hnil : s.tickets = [] := h.resolve_right (Nat.not_le.2 hlt)
    have hfirst : q.first? = none := by
      rw [← Option.not_isSome_iff_eq_none, Option.isSome_iff_exists]
      rintro ⟨⟨rank, x⟩, hfirst⟩
      have hget := q.mem_entries_iff.1 (List.mem_of_mem_head? hfirst)
      obtain ⟨t, ht, -⟩ := (hs.queued i q hqueue rank).1 (Option.isSome_iff_exists.2 ⟨x, hget⟩)
      simp [hnil] at ht
    simp [extractBestBy?, hqueue, hfirst]

theorem Valid.perform_bestBy (hs : s.Valid) (i : Nat) :
    (s.answer (s.extractBestBy? i)).2.Valid ∧
      ((s.answer (s.extractBestBy? i)).1, (s.answer (s.extractBestBy? i)).2.view) =
        s.view.takeOut (s.view.best? i) := by
  by_cases hnone : s.tickets = [] ∨ s.queues.length ≤ i
  · have hbest : s.view.best? i = none := by
      rw [WaitingList.best?]
      split
      · next hi =>
        have hnil := hnone.resolve_right (Nat.not_le.2 (hs.size_view ▸ hi))
        simp [view, hnil]
      · rfl
    rw [hs.extractBestBy?_eq_none hnone, hbest]
    exact ⟨hs, rfl⟩
  · obtain ⟨hwaiting, hi⟩ := not_or.1 hnone
    obtain ⟨t, ht, hextract, hbest⟩ := hs.exists_best? (Nat.not_le.1 hi) hwaiting
    exact hs.answer_some ht hextract hbest s

theorem Valid.perform_best (hs : s.Valid) :
    (s.answer s.extractBest?).2.Valid ∧
      ((s.answer s.extractBest?).1, (s.answer s.extractBest?).2.view) = s.view.perform .best := by
  by_cases hwaiting : s.tickets = []
  · have hnone : s.extractBest? = none := by simp [RankedStore.extractBest?, hwaiting]
    rw [hnone, WaitingList.perform, if_pos (by simp [view, hwaiting])]
    exact ⟨hs, rfl⟩
  · obtain ⟨t, ht, hextract, hbest⟩ := hs.next.exists_best? hs.next_lt hwaiting
    rw [WaitingList.perform, if_neg (by simpa [view] using hwaiting)]
    exact hs.next.answer_some ht ((extractBest?_of_ne_nil hwaiting).trans hextract) hbest s

theorem Valid.perform_first (hs : s.Valid) :
    (s.answer s.extractFirst?).2.Valid ∧
      ((s.answer s.extractFirst?).1, (s.answer s.extractFirst?).2.view) =
        s.view.takeOut s.view.members.head? := by
  have hhead : s.view.members.head? = s.tickets.head?.map fun t => (t.entry, t.scores) := by
    simp [view]
  cases hticket : s.tickets.head? with
  | some t =>
    have ht := List.mem_of_mem_head? hticket
    refine hs.answer_some ht ?_ (by rw [hhead, hticket, Option.map_some]) s
    simp only [extractFirst?, hticket, Option.bind_eq_bind, Option.bind_some]
    exact hs.extractAt?_arrival ht
  | none =>
    have hnone : s.extractFirst? = none := by simp [extractFirst?, hticket]
    rw [hhead, hticket, hnone]
    exact ⟨hs, rfl⟩

/-- **An operation on a ranked store is that on its waiting list**, and it keeps the tables in
agreement. -/
theorem Valid.perform (hs : s.Valid) (op : QueueOp) :
    (s.perform op).2.Valid ∧ ((s.perform op).1, (s.perform op).2.view) = s.view.perform op := by
  cases op with
  | add e => exact ⟨(hs.perform_add e).1, Prod.ext rfl (hs.perform_add e).2⟩
  | extract n => exact hs.perform_extract n
  | bestBy i => exact hs.perform_bestBy i
  | best => exact hs.perform_best
  | first => exact hs.perform_first

/-- **So is any sequence of operations.** -/
theorem valid_performAll (hs : s.Valid) (ops : List QueueOp) :
    (performAll perform ops s).2.Valid ∧
      ((performAll perform ops s).1, (performAll perform ops s).2.view) =
        performAll WaitingList.perform ops s.view := by
  induction ops generalizing s with
  | nil => exact ⟨hs, rfl⟩
  | cons op ops ih =>
    obtain ⟨hvalid, hop⟩ := hs.perform op
    obtain ⟨hvalid', hops⟩ := ih hvalid
    refine ⟨hvalid', ?_⟩
    simp only [performAll, ← hop, ← hops]

theorem valid_empty_of_inUse {schedule : Schedule} (h : schedule.InUse) : (empty schedule).Valid :=
  valid_empty h.proper.current h.length_ratings

end RankedStore

/-- **A ranked store behaves as a list of clauses with their scores, in the order in which they were
added.** -/
theorem ranked_store_refines_list {schedule : Schedule} (h : schedule.InUse) (ops : List QueueOp) :
    let store := performAll RankedStore.perform ops (RankedStore.empty schedule)
    let list := performAll WaitingList.perform ops ⟨schedule, []⟩
    store.1 = list.1 ∧ store.2.view = list.2 ∧ store.2.Valid ∧
      ∀ e : Entry, list.2.Waits e.number → store.2.insert e = store.2 := by
  intro store list
  obtain ⟨hvalid, heq⟩ := RankedStore.valid_performAll (RankedStore.valid_empty_of_inUse h) ops
  obtain ⟨hanswers, hview⟩ := Prod.mk.inj heq
  refine ⟨hanswers, hview, hvalid, fun e he => hvalid.insert_of_waits ?_⟩
  rw [hview]
  exact he

/-- The constant `a` under the given number of function symbols. -/
def nested : Nat → Term
  | 0 => .app "a" []
  | depth + 1 => .app "f" [nested depth]

/-- A unit clause that is the heavier the deeper its term is. -/
def deepFact (n depth : Nat) : Entry := ⟨n, .of [.pos (.app "p" [nested depth])]⟩

/-- Two facts of the same weight behind a heavier one; the older of the two is added twice, taken
out and added again. -/
def readdedTie : List QueueOp :=
  [.add (deepFact 0 3), .add (deepFact 1 0), .add (deepFact 2 0), .add (deepFact 1 0), .bestBy 0,
    .add (deepFact 1 0), .bestBy 2, .extract 7, .best, .best, .best, .best, .first,
    .add (deepFact 3 1)]

theorem ranked_store_refines_list_readdedTie :
    let store :=
      performAll RankedStore.perform readdedTie (RankedStore.empty Heuristic.pickGiven2.schedule)
    Heuristic.pickGiven2.schedule.InUse ∧
      store.1 = [none, none, none, none, some (deepFact 1 0), none, none, none, some (deepFact 2 0),
        some (deepFact 1 0), some (deepFact 0 3), none, none, none] ∧
      store.2.view.members = [(deepFact 3 1, [6, 5])] ∧ store.2.Valid := by
  intro store
  have h : Heuristic.pickGiven2.schedule.InUse := .of (Heuristic.of_rated _)
  obtain ⟨hanswers, hview, hvalid, -⟩ := ranked_store_refines_list h readdedTie
  refine ⟨h, ?_, ?_, hvalid⟩
  · rw [hanswers]
    decide +kernel
  · rw [hview]
    decide +kernel

end Refutation
