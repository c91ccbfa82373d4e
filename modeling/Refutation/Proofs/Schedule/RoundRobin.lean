import Refutation.Proofs.Schedule
import Mathlib.Order.Interval.Finset.Nat

/-!
# The order of the turns

The turns of a round in their order are those of the first evaluation, as many as its rating says,
then those of the second, and so on.  `Rotation.turnAt` reads off the ratings whose turn is the
`j`-th of a round; the counters of a rotation step through the places of a round and begin again
after the last one, so the `k`-th turn of all is the one at place `k` modulo the length of a round.
Scoring clauses in between does not touch the counters.

* `Rotation.turnAt_eq_iff` : the turn at a place belongs to the position whose turns are there.
* `Rotation.Proper.place_next` : the places of a round come one after the other.
* `Schedule.turns_eq` : **the turns of a schedule are those at successive places of a round.**
* `Schedule.getElem?_turns_eq_some_iff` : which turn is the `k`-th.
* `Rotation.count_window` : as many turns as make a round, from anywhere on, are the turns of a
  round.
* `weighted_round_robin` : the turns go round the evaluations in proportion to their ratings.
-/

namespace Refutation

namespace Rotation

variable {r : Rotation} {ratings : List Nat} {i j : Nat}

/-! ### The turns of a round -/

/-- The position whose turn is at place `j` of a round. -/
def turnAt : List Nat → Nat → Nat
  | [], _ => 0
  | n :: ratings, j => if j < n then 0 else turnAt ratings (j - n) + 1

/-- **The turn at a place belongs to the position whose turns are there.** -/
theorem turnAt_eq_iff (hj : j < ratings.foldr (· + ·) 0) :
    turnAt ratings j = i ↔ turnsBefore ratings i ≤ j ∧ j < turnsBefore ratings (i + 1) := by
  induction ratings generalizing i j with
  | nil => exact absurd hj (Nat.not_lt_zero j)
  | cons n ratings ih =>
    rw [List.foldr_cons] at hj
    rw [turnAt, turnsBefore_cons]
    split_ifs with hfirst
    · cases i with
      | zero => exact iff_of_true rfl ⟨Nat.zero_le j, hfirst⟩
      | succ i => rw [turnsBefore_cons]; omega
    · cases i with
      | zero => exact iff_of_false (Nat.succ_ne_zero _) fun h => hfirst h.2
      | succ i => rw [Nat.add_right_cancel_iff, ih (by omega), turnsBefore_cons]; omega

/-- The turns of a round are those of the first position, followed by those of the others. -/
theorem map_turnAt_cons (n : Nat) (ratings : List Nat) (m : Nat) :
    (List.range (n + m)).map (turnAt (n :: ratings)) =
      List.replicate n 0 ++ ((List.range m).map (turnAt ratings)).map (· + 1) := by
  rw [List.range_add, List.map_append, List.map_map, List.map_map]
  congr 1
  · refine List.eq_replicate_iff.2 ⟨by simp, fun k hk => ?_⟩
    obtain ⟨j, hj, rfl⟩ := List.mem_map.1 hk
    rw [turnAt, if_pos (List.mem_range.1 hj)]
  · refine List.map_congr_left fun j _ => ?_
    simp [turnAt]

/-- In a round each position has as many turns as its rating says. -/
theorem count_round (ratings : List Nat) (i : Nat) :
    ((List.range (ratings.foldr (· + ·) 0)).map (turnAt ratings)).count i = ratings.getD i 0 := by
  induction ratings generalizing i with
  | nil => rfl
  | cons n ratings ih =>
    rw [List.foldr_cons, map_turnAt_cons, List.count_append]
    cases i with
    | zero =>
      have hothers : (((List.range (ratings.foldr (· + ·) 0)).map (turnAt ratings)).map
          (· + 1)).count 0 = 0 :=
        List.count_eq_zero.2 (by simp)
      rw [List.count_replicate_self, hothers, Nat.add_zero, List.getD_cons_zero]
    | succ i =>
      have hfirst : (List.replicate n 0).count (i + 1) = 0 := List.count_eq_zero.2 (by simp)
      rw [hfirst, Nat.zero_add, List.count_map_of_injective _ _ Nat.succ_injective, ih,
        List.getD_cons_succ]

/-- **As many turns as make a round, from anywhere on, are the turns of a round in some order.** -/
theorem count_window (ratings : List Nat) (n i : Nat) :
    ((List.range' n (ratings.foldr (· + ·) 0)).map fun k =>
      turnAt ratings (k % ratings.foldr (· + ·) 0)).count i = ratings.getD i 0 := by
  generalize hlength : ratings.foldr (· + ·) 0 = length
  have hplaces : ((List.range' n length).map (· % length)).Perm (List.range length) := by
    have hmod := Nat.multiset_Ico_map_mod n length
    rw [Multiset.Ico, Nat.Ico_eq_range', Nat.add_sub_cancel_left] at hmod
    exact Multiset.coe_eq_coe.1 hmod
  rw [← count_round, hlength, ← (hplaces.map (turnAt ratings)).count_eq, List.map_map]
  rfl

/-! ### The counters -/

theorem Proper.place_next (h : r.Proper) : r.next.2.place = (r.place + 1) % r.round := by
  rw [h.next.2]
  split_ifs with hlast
  · rw [hlast, Nat.mod_self]
  · have hplace := h.place_lt_round
    rw [Nat.mod_eq_of_lt (by omega)]

theorem Proper.turnAt_place (h : r.Proper) : turnAt r.ratings r.place = r.current :=
  (turnAt_eq_iff h.place_lt_round).2 ⟨Nat.le_add_right _ _, h.place_lt_turnsBefore⟩

end Rotation

namespace Schedule

/-! ### The turns of a schedule -/

/-- What a schedule is asked. -/
inductive Request where
  /-- Whose turn is it? -/
  | next
  /-- What are the scores of the clause? -/
  | evaluate (c : Clause)
deriving DecidableEq

/-- The answers to the requests for a turn, where the requests are made one after the other. -/
def turns : List Request → Schedule → List Nat
  | [], _ => []
  | .next :: requests, s => s.next.1 :: turns requests s.next.2
  | .evaluate c :: requests, s => turns requests (s.evaluate c).2

variable {s : Schedule}

/-- **The turns of a schedule are those at successive places of a round**, whatever is scored in
between. -/
theorem turns_eq (h : s.rotation.Proper) (requests : List Request) :
    turns requests s = (List.range (requests.count .next)).map fun k =>
      Rotation.turnAt s.rotation.ratings ((s.rotation.place + k) % s.rotation.round) := by
  -- along the requests; the place in the round carries over from one to the next
  induction requests generalizing s with
  | nil => rfl
  | cons request requests ih =>
    cases request with
    | evaluate c =>
      rw [List.count_cons_of_ne (by simp)]
      exact ih (s := (s.evaluate c).2) h
    | next =>
      rw [List.count_cons_self, List.range_succ_eq_map, List.map_cons, List.map_map, turns,
        ih h.next.1]
      congr 1
      · rw [Nat.add_zero, Nat.mod_eq_of_lt h.place_lt_round, h.turnAt_place, next_fst]
      · refine List.map_congr_left fun k _ => ?_
        simp only [rotation_next, Rotation.ratings_next, Rotation.round_next, h.place_next,
          Function.comp, Nat.mod_add_mod]
        congr 2
        omega

section

variable {rated : List (Evaluation × Nat)} (hs : Schedule.of rated = .ok s)
    (requests : List Request)

include hs

/-- A schedule that has just been built begins with the first place. -/
theorem turns_of : turns requests s = (List.range (requests.count .next)).map fun k =>
    Rotation.turnAt s.rotation.ratings (k % s.rotation.round) := by
  have hplace : s.rotation.place = 0 := by
    obtain ⟨-, -, rfl⟩ := of_eq_ok_iff.1 hs
    rfl
  rw [turns_eq (InUse.of hs).proper, hplace]
  simp only [Nat.zero_add]

/-- **The `k`-th turn belongs to the position whose turns are at place `k` modulo the length of a
round.** -/
theorem getElem?_turns_eq_some_iff (k i : Nat) : (turns requests s)[k]? = some i ↔
    k < requests.count .next ∧
    Rotation.turnsBefore s.rotation.ratings i ≤ k % s.rotation.round ∧
    k % s.rotation.round < Rotation.turnsBefore s.rotation.ratings (i + 1) := by
  have hpositive : 0 < s.rotation.round := Nat.zero_lt_of_lt (InUse.of hs).proper.place_lt_round
  have hplace : k % s.rotation.round < s.rotation.ratings.foldr (· + ·) 0 := Nat.mod_lt k hpositive
  rw [turns_of hs, ← Rotation.turnAt_eq_iff hplace, List.getElem?_map, Option.map_eq_some_iff]
  simp only [List.getElem?_eq_some_iff, List.length_range, List.getElem_range]
  constructor
  · rintro ⟨_, ⟨hk, rfl⟩, hturn⟩
    exact ⟨hk, hturn⟩
  · rintro ⟨hk, hturn⟩
    exact ⟨k, ⟨hk, rfl⟩, hturn⟩

/-- Of as many successive turns as make a round, each position has as many as its rating says. -/
theorem count_turns {n : Nat} (hn : n + s.rotation.round ≤ requests.count .next) (i : Nat) :
    (((turns requests s).drop n).take s.rotation.round).count i = s.rotation.ratings.getD i 0 := by
  have hwindow : ((List.range (requests.count .next)).drop n).take s.rotation.round =
      List.range' n s.rotation.round := by
    rw [List.take_drop, List.take_range, Nat.min_eq_left hn, List.range_eq_range', List.drop_range',
      Nat.mul_one, Nat.zero_add, Nat.add_sub_cancel_left]
  rw [turns_of hs, ← List.map_drop, ← List.map_take, hwindow]
  exact Rotation.count_window s.rotation.ratings n i

end

end Schedule

/-- **Whose turn it is goes round the evaluations in proportion to their ratings.**  Of the requests
for a turn, counted from zero and with any clauses scored in between, the `k`-th is answered with
the position `i` for which `k` modulo the sum of all ratings is at least the sum of the ratings
before `i` and less than that sum with the rating of `i`.  So of any successive requests, as many as
the sum of the ratings, each position gets as many as its rating. -/
theorem weighted_round_robin {rated : List (Evaluation × Nat)} {s : Schedule}
    (hs : Schedule.of rated = .ok s) (requests : List Schedule.Request) :
    s.rotation.ratings = rated.map (·.2) ∧
    (s.turns requests).length = requests.count .next ∧
    (∀ k i, (s.turns requests)[k]? = some i ↔
      k < requests.count .next ∧
      Rotation.turnsBefore s.rotation.ratings i ≤ k % s.rotation.round ∧
      k % s.rotation.round < Rotation.turnsBefore s.rotation.ratings (i + 1)) ∧
    ∀ n i, n + s.rotation.round ≤ requests.count .next →
      (((s.turns requests).drop n).take s.rotation.round).count i =
        s.rotation.ratings.getD i 0 := by
  refine ⟨?_, ?_, Schedule.getElem?_turns_eq_some_iff hs requests, fun n i hn =>
    Schedule.count_turns hs requests hn i⟩
  · obtain ⟨-, -, rfl⟩ := Schedule.of_eq_ok_iff.1 hs
    rfl
  · rw [Schedule.turns_of hs, List.length_map, List.length_range]

/-- Requests for five turns, with clauses scored after the first and after the fourth. -/
def fiveTurns : List Schedule.Request :=
  [.next, .evaluate default, .next, .next, .next, .evaluate default, .next]

/-- The schedule that decides twice by weight and once by age: turn number four is the second one by
weight of the second round, and of the three turns from number one on two are by weight and one is
by age. -/
theorem weighted_round_robin_pickGiven2 :
    Schedule.of Heuristic.pickGiven2.rated = .ok Heuristic.pickGiven2.schedule ∧
    (Heuristic.pickGiven2.schedule.turns fiveTurns)[4]? = some 0 ∧
    (((Heuristic.pickGiven2.schedule.turns fiveTurns).drop 1).take 3).count 0 = 2 ∧
    (((Heuristic.pickGiven2.schedule.turns fiveTurns).drop 1).take 3).count 1 = 1 := by
  have hs := Heuristic.pickGiven2.of_rated
  obtain ⟨-, -, hturn, hshare⟩ := weighted_round_robin hs fiveTurns
  exact ⟨hs, (hturn 4 0).2 (by decide), hshare 1 0 (by decide), hshare 1 1 (by decide)⟩

end Refutation
