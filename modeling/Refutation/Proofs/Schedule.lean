import Refutation.Schedule
import Mathlib.Data.List.Basic

/-!
# Turns of a schedule

The turns of a round are numbered from zero: first those of the first evaluation, as many as its
rating says, then those of the second, and so on (`Rotation.place`).  Each turn leads to the next
place and the last one back to the first, so an evaluation has to wait less than a round for its
turn.

* `Schedule.InUse` : the schedules that can be built, at any time of their use.
* `Rotation.Proper.next` : a turn leads to the next place.
* `Rotation.Proper.wait_next` : a turn shortens the wait of an evaluation whose turn it is not.
-/

namespace Refutation

namespace Rotation

/-! ### The place in a round -/

/-- The number of turns in a round: the sum of the ratings. -/
def round (r : Rotation) : Nat := r.ratings.foldr (· + ·) 0

/-- The number of turns in a round before those of position `k`. -/
def turnsBefore (ratings : List Nat) : Nat → Nat
  | 0 => 0
  | k + 1 => turnsBefore ratings k + ratings.getD k 0

/-- The number of turns that have been taken in this round. -/
def place (r : Rotation) : Nat := turnsBefore r.ratings r.current + r.used

/-- It is the turn of a position that has turns left, and every position has turns. -/
structure Proper (r : Rotation) : Prop where
  /-- There is no rating zero. -/
  positive : ∀ k < r.ratings.length, 0 < r.ratings.getD k 0
  /-- The place in the round is one of its positions. -/
  current : r.current < r.ratings.length
  /-- The position has turns left. -/
  used : r.used < r.ratings.getD r.current 0

variable {r : Rotation} {ratings : List Nat} {k j : Nat}

theorem proper_start (hne : ratings ≠ []) (hpositive : ∀ n ∈ ratings, 0 < n) :
    (start ratings).Proper := by
  have hrating : ∀ k < ratings.length, 0 < ratings.getD k 0 := by
    intro k hk
    rw [List.getD_eq_getElem?_getD, List.getElem?_eq_getElem hk, Option.getD_some]
    exact hpositive _ (List.getElem_mem hk)
  have hlength : 0 < ratings.length := List.length_pos_iff.2 hne
  exact ⟨hrating, hlength, hrating 0 hlength⟩

theorem turnsBefore_mono (h : k ≤ j) : turnsBefore ratings k ≤ turnsBefore ratings j := by
  induction h with
  | refl => exact Nat.le_refl _
  | step _ ih => exact Nat.le_trans ih (Nat.le_add_right _ _)

theorem turnsBefore_cons (n : Nat) (ratings : List Nat) (k : Nat) :
    turnsBefore (n :: ratings) (k + 1) = n + turnsBefore ratings k := by
  induction k with
  | zero => simp [turnsBefore]
  | succ k ih => rw [turnsBefore, ih, turnsBefore, List.getD_cons_succ, Nat.add_assoc]

theorem turnsBefore_length (ratings : List Nat) :
    turnsBefore ratings ratings.length = ratings.foldr (· + ·) 0 := by
  induction ratings with
  | nil => rfl
  | cons n ratings ih => rw [List.length_cons, turnsBefore_cons, ih, List.foldr_cons]

theorem Proper.turnsBefore_lt (h : r.Proper) (hk : k < r.ratings.length) (hkj : k < j) :
    turnsBefore r.ratings k < turnsBefore r.ratings j :=
  calc turnsBefore r.ratings k
    _ < turnsBefore r.ratings (k + 1) := Nat.lt_add_of_pos_right (h.positive k hk)
    _ ≤ turnsBefore r.ratings j := turnsBefore_mono hkj

theorem Proper.turnsBefore_lt_round (h : r.Proper) (hk : k < r.ratings.length) :
    turnsBefore r.ratings k < r.round := by
  rw [round, ← turnsBefore_length]
  exact h.turnsBefore_lt hk hk

theorem Proper.place_lt_turnsBefore (h : r.Proper) :
    r.place < turnsBefore r.ratings (r.current + 1) :=
  Nat.add_lt_add_left h.used _

theorem Proper.place_lt_round (h : r.Proper) : r.place < r.round := by
  rw [round, ← turnsBefore_length]
  exact Nat.lt_of_lt_of_le h.place_lt_turnsBefore (turnsBefore_mono h.current)

/-- At the place of the first turn of a position it is the turn of that position. -/
theorem Proper.current_eq (h : r.Proper) (hk : k < r.ratings.length)
    (hplace : r.place = turnsBefore r.ratings k) : r.current = k := by
  have hstarted : turnsBefore r.ratings r.current ≤ r.place := Nat.le_add_right _ _
  have hleft := h.place_lt_turnsBefore
  rcases Nat.lt_trichotomy r.current k with hlt | heq | hgt
  · have hover : turnsBefore r.ratings (r.current + 1) ≤ turnsBefore r.ratings k :=
      turnsBefore_mono hlt
    omega
  · exact heq
  · have hover := h.turnsBefore_lt hk hgt
    omega

/-! ### One turn -/

@[simp] theorem ratings_next (r : Rotation) : r.next.2.ratings = r.ratings := by
  simp only [next]
  split <;> rfl

@[simp] theorem next_fst (r : Rotation) : r.next.1 = r.current := by
  simp only [next]
  split <;> rfl

@[simp] theorem round_next (r : Rotation) : r.next.2.round = r.round := by
  rw [round, ratings_next, round]

/-- **A turn leads to the next place**, and the last one of a round to the first. -/
theorem Proper.next (h : r.Proper) :
    r.next.2.Proper ∧ r.next.2.place = if r.place + 1 = r.round then 0 else r.place + 1 := by
  obtain ⟨ratings, current, used⟩ := r
  have hround : turnsBefore ratings ratings.length = round ⟨ratings, current, used⟩ :=
    turnsBefore_length ratings
  have hplace : place ⟨ratings, current, used⟩ = turnsBefore ratings current + used := rfl
  have hlast : turnsBefore ratings (current + 1) =
    turnsBefore ratings current + ratings.getD current 0 := rfl
  have hcurrent : current < ratings.length := h.current
  have hused : used < ratings.getD current 0 := h.used
  by_cases hturns : ratings.getD current 0 ≤ used + 1
  · -- all turns of the position have been taken
    simp only [Rotation.next, if_pos hturns]
    by_cases hend : current + 1 = ratings.length
    · have hmod : (current + 1) % ratings.length = 0 := by rw [hend, Nat.mod_self]
      have hpositive := h.positive 0 (Nat.zero_lt_of_lt hcurrent)
      rw [hmod]
      refine ⟨⟨h.positive, Nat.zero_lt_of_lt hcurrent, hpositive⟩, ?_⟩
      rw [hend] at hlast
      rw [if_pos (by omega)]
      rfl
    · have hlt : current + 1 < ratings.length := by omega
      have hbefore := h.turnsBefore_lt_round hlt
      rw [Nat.mod_eq_of_lt hlt]
      refine ⟨⟨h.positive, hlt, h.positive _ hlt⟩, ?_⟩
      change turnsBefore ratings (current + 1) < _ at hbefore
      rw [if_neg (by omega)]
      change turnsBefore ratings (current + 1) + 0 = _
      omega
  · simp only [Rotation.next, if_neg hturns]
    have hbefore : turnsBefore ratings (current + 1) ≤ turnsBefore ratings ratings.length :=
      turnsBefore_mono hcurrent
    refine ⟨⟨h.positive, hcurrent, Nat.lt_of_not_le hturns⟩, ?_⟩
    rw [if_neg (by omega)]
    rfl

/-! ### Waiting for a turn -/

/-- The number of turns before the first turn of position `k` comes. -/
def wait (r : Rotation) (k : Nat) : Nat :=
  if r.place ≤ turnsBefore r.ratings k then turnsBefore r.ratings k - r.place
  else turnsBefore r.ratings k + r.round - r.place

theorem Proper.wait_lt_round (h : r.Proper) (hk : k < r.ratings.length) : r.wait k < r.round := by
  have hbefore := h.turnsBefore_lt_round hk
  have hplace := h.place_lt_round
  unfold wait
  split <;> omega

/-- A turn shortens the wait, unless it is that of the position itself. -/
theorem Proper.wait_next (h : r.Proper) (hk : k < r.ratings.length) (hother : r.current ≠ k) :
    r.next.2.wait k + 1 = r.wait k := by
  have hbefore := h.turnsBefore_lt_round hk
  have hplace := h.place_lt_round
  have hne : r.place ≠ turnsBefore r.ratings k := fun heq => hother (h.current_eq hk heq)
  rw [wait, wait, ratings_next, round_next, h.next.2]
  split_ifs <;> omega

end Rotation

/-! ### Schedules in use -/

namespace Schedule

/-- A schedule at some time of its use: it was built from evaluations with ratings, it has scored
clauses, and turns have been taken. -/
inductive InUse : Schedule → Prop
  /-- It has just been built. -/
  | of {rated s} (h : Schedule.of rated = .ok s) : InUse s
  /-- It has scored a clause. -/
  | evaluate {s} (h : InUse s) (c : Clause) : InUse (s.evaluate c).2
  /-- A turn has been taken. -/
  | next {s} (h : InUse s) : InUse s.next.2

variable {s : Schedule}

@[simp] theorem rotation_evaluate (s : Schedule) (c : Clause) :
    (s.evaluate c).2.rotation = s.rotation := rfl

@[simp] theorem size_evaluate (s : Schedule) (c : Clause) : (s.evaluate c).2.size = s.size := by
  simp [size, evaluate]

@[simp] theorem evaluations_next (s : Schedule) : s.next.2.evaluations = s.evaluations := rfl

@[simp] theorem rotation_next (s : Schedule) : s.next.2.rotation = s.rotation.next.2 := rfl

@[simp] theorem next_fst (s : Schedule) : s.next.1 = s.rotation.current := s.rotation.next_fst

theorem of_eq_ok_iff {rated : List (Evaluation × Nat)} : Schedule.of rated = .ok s ↔
    rated ≠ [] ∧ (∀ p ∈ rated, 0 < p.2) ∧ s = ⟨rated.map (·.1), .start (rated.map (·.2))⟩ := by
  unfold Schedule.of
  split
  · next hempty => simp_all
  · next hempty =>
    have hne : rated ≠ [] := by simpa using hempty
    split
    · next p hp =>
      have hzero : p.2 = 0 := by simpa using List.find?_some hp
      simp only [reduceCtorEq, false_iff]
      rintro ⟨-, hpositive, -⟩
      exact Nat.ne_of_gt (hpositive p (List.mem_of_find?_eq_some hp)) hzero
    · next hnone =>
      have hpositive : ∀ p ∈ rated, 0 < p.2 := by
        simpa [Nat.pos_iff_ne_zero] using List.find?_eq_none.1 hnone
      rw [Except.ok.injEq, eq_comm]
      exact ⟨fun h => ⟨hne, hpositive, h⟩, fun h => h.2.2⟩

theorem InUse.length_ratings (h : s.InUse) : s.rotation.ratings.length = s.size := by
  induction h with
  | of h =>
    obtain ⟨-, -, rfl⟩ := of_eq_ok_iff.1 h
    simp [Rotation.start, size]
  | evaluate _ c ih => simpa using ih
  | next _ ih => simpa [size] using ih

theorem InUse.proper (h : s.InUse) : s.rotation.Proper := by
  induction h with
  | of h =>
    obtain ⟨hne, hpositive, rfl⟩ := of_eq_ok_iff.1 h
    refine Rotation.proper_start (by simpa using hne) fun n hn => ?_
    obtain ⟨p, hp, rfl⟩ := List.mem_map.1 hn
    exact hpositive p hp
  | evaluate _ c ih => exact ih
  | next _ ih => exact ih.next.1

end Schedule

end Refutation
