import Refutation.Proofs.Store.WaitingList

/-!
# Evaluation by age rules out starvation

Where one of the evaluations is by age, its turn takes out the oldest clause.  It has its turn in
every round, so a clause that waits behind `m` older ones is taken out within `m + 1` rounds,
however good the clauses are that are added meanwhile.  This needs a counter that does not overflow:
after an overflow the youngest clause looks oldest.

The bound is carried by a budget: the turns until the evaluation by age has its next one, and a
round for each clause ahead.  Every call for the best clause lowers the budget of a clause that goes
on waiting, and no other operation raises it (`WaitingList.Orderly.budget_perform`).

* `additions` : how many clauses are added by operations, which is what the counter needs room for.
* `WaitingList.Orderly` : scores by age are in the order of the list; every operation keeps this.
* `WaitingList.Orderly.exists_leaves` : a clause leaves before its budget is used up.
* `starvation_ruled_out` : **the bound for ranked stores.**
* `starvation_bound_fails` : it fails for a clause that is added again, and after an overflow.
-/

namespace Refutation

/-- The operation adds a clause. -/
def QueueOp.isAdd : QueueOp → Bool
  | .add _ => true
  | _ => false

/-- How many clauses the operations add, or try to add. -/
def additions (ops : List QueueOp) : Nat := ops.countP (·.isAdd)

theorem additions_append (ops ops' : List QueueOp) :
    additions (ops ++ ops') = additions ops + additions ops' := List.countP_append

theorem additions_cons (op : QueueOp) (ops : List QueueOp) :
    additions (op :: ops) = additions [op] + additions ops := additions_append [op] ops

namespace WaitingList

variable {w : WaitingList} {k n j room : Nat}

/-! ### Scores by age -/

/-- Evaluation `k` is by age, its scores are in the order of the list, and its counter has room for
so many further clauses. -/
structure Orderly (k room : Nat) (w : WaitingList) : Prop where
  /-- The schedule is one that can be in use. -/
  inUse : w.schedule.InUse
  /-- Different clauses have different numbers. -/
  distinct : (w.members.map (·.1.number)).Nodup
  /-- Evaluation `k` is by age, and has scored the clauses. -/
  clock : ∃ count, w.schedule.evaluations[k]? = some (.fifo count) ∧ count + room < UInt64.size ∧
    ∀ m ∈ w.members, m.2.getD k 0 ≤ count
  /-- An older clause has a lower score. -/
  aging : w.members.Pairwise fun m m' => m.2.getD k 0 < m'.2.getD k 0

@[simp] theorem schedule_takeOut (w : WaitingList) (m? : Option (Entry × List Nat)) :
    (w.takeOut m?).2.schedule = w.schedule := by
  cases m? <;> rfl

theorem members_takeOut_sublist (w : WaitingList) (m? : Option (Entry × List Nat)) :
    (w.takeOut m?).2.members.Sublist w.members := by
  cases m? with
  | none => exact .refl _
  | some m => exact List.erase_sublist

namespace Orderly

theorem empty {schedule : Schedule} (h : schedule.InUse) {count : Nat}
    (hfifo : schedule.evaluations[k]? = some (.fifo count)) (hroom : count + room < UInt64.size) :
    Orderly k room ⟨schedule, []⟩ :=
  ⟨h, .nil, ⟨count, hfifo, hroom, List.forall_mem_nil _⟩, .nil⟩

theorem takeOut (h : w.Orderly k room) (m? : Option (Entry × List Nat)) :
    (w.takeOut m?).2.Orderly k room := by
  have hsub := w.members_takeOut_sublist m?
  obtain ⟨count, hclock, hroom, hscores⟩ := h.clock
  refine ⟨?_, h.distinct.sublist (hsub.map _),
    ⟨count, ?_, hroom, fun m hm => hscores m (hsub.subset hm)⟩, h.aging.sublist hsub⟩
  · rw [schedule_takeOut]
    exact h.inUse
  · rw [schedule_takeOut]
    exact hclock

theorem next (h : w.Orderly k room) : w.next.Orderly k room :=
  ⟨h.inUse.next, h.distinct, h.clock, h.aging⟩

theorem add (h : w.Orderly k (room + 1)) (e : Entry) : (w.add e).Orderly k room := by
  obtain ⟨count, hclock, hroom, hscores⟩ := h.clock
  have hless : count + 1 + room < UInt64.size := by omega
  unfold WaitingList.add
  split
  · exact ⟨h.inUse, h.distinct, ⟨count, hclock, by omega, hscores⟩, h.aging⟩
  · next hwaits =>
    -- there is room for this clause, so the counter is not cut
    have hwrap : Evaluation.wrap (count + 1) = count + 1 := Nat.mod_eq_of_lt (by omega)
    have hscore : (w.schedule.evaluate e.clause).1.getD k 0 = count + 1 := by
      simp [Schedule.evaluate, hclock, Evaluation.score, hwrap]
    refine ⟨h.inUse.evaluate e.clause, ?_, ⟨count + 1, ?_, hless, ?_⟩, ?_⟩
    · rw [List.map_append, List.nodup_append]
      refine ⟨h.distinct, by simp, fun n hn n' hn' => ?_⟩
      obtain ⟨m, hm, rfl⟩ := List.mem_map.1 hn
      obtain rfl : n' = e.number := by simpa using hn'
      exact fun heq => hwaits ⟨m, hm, heq⟩
    · simp [Schedule.evaluate, hclock, Evaluation.score, hwrap]
    · intro m hm
      rcases List.mem_append.1 hm with hm | hm
      · exact Nat.le_succ_of_le (hscores m hm)
      · obtain rfl := List.mem_singleton.1 hm
        exact Nat.le_of_eq hscore
    · rw [List.pairwise_append]
      refine ⟨h.aging, List.pairwise_singleton _ _, fun m hm m' hm' => ?_⟩
      obtain rfl := List.mem_singleton.1 hm'
      rw [hscore]
      exact Nat.lt_succ_of_le (hscores m hm)

/-- Every operation keeps the scores by age in order; adding a clause uses up some room. -/
theorem perform {op : QueueOp} (h : w.Orderly k (room + additions [op])) :
    (w.perform op).2.Orderly k room := by
  cases op with
  | add e => exact h.add e
  | extract n => exact h.takeOut _
  | bestBy i => exact h.takeOut _
  | best =>
    rw [WaitingList.perform]
    split
    · exact h
    · exact h.next.takeOut _
  | first => exact h.takeOut _

theorem lt_size (h : w.Orderly k room) : k < w.schedule.size := by
  obtain ⟨count, hclock, -, -⟩ := h.clock
  exact (List.getElem?_eq_some_iff.1 hclock).1

/-- The best member under the evaluation by age is the oldest one. -/
theorem best?_eq_head? (h : w.Orderly k room) : w.best? k = w.members.head? := by
  cases hmembers : w.members with
  | nil => simp [best?, hmembers]
  | cons m younger =>
    have haging := h.aging
    rw [hmembers, List.pairwise_cons] at haging
    have hsplit : w.members = [] ++ m :: younger := hmembers
    exact best?_eq_some h.lt_size hsplit (List.forall_mem_nil _) fun m' hm' =>
      Nat.le_of_lt (haging.1 m' hm')

end Orderly

/-! ### Clauses ahead -/

/-- The clause with number `n` waits behind `j` older ones. -/
def WaitsBehind (w : WaitingList) (n j : Nat) : Prop :=
  ∃ older m younger, w.members = older ++ m :: younger ∧ m.1.number = n ∧ older.length = j

theorem WaitsBehind.waits (h : w.WaitsBehind n j) : w.Waits n := by
  obtain ⟨older, m, younger, hmembers, hnumber, -⟩ := h
  exact ⟨m, by simp [hmembers], hnumber⟩

theorem WaitsBehind.add (h : w.WaitsBehind n j) (e : Entry) : (w.add e).WaitsBehind n j := by
  unfold WaitingList.add
  split
  · exact h
  · obtain ⟨older, m, younger, hmembers, hnumber, hlength⟩ := h
    exact ⟨older, m, younger ++ [(e, (w.schedule.evaluate e.clause).1)], by simp [hmembers],
      hnumber, hlength⟩

theorem Orderly.not_waits_takeOut (h : w.Orderly k room) {m : Entry × List Nat}
    (hm : m ∈ w.members) :
    ¬(w.takeOut (some m)).2.Waits m.1.number := by
  rintro ⟨m', hm', hnumber⟩
  have hnodup : w.members.Nodup := .of_map _ h.distinct
  obtain ⟨hne, hm'⟩ := hnodup.mem_erase_iff.1 hm'
  exact hne (List.inj_on_of_nodup_map h.distinct hm' hm hnumber)

/-- Where a member is taken out, a clause that goes on waiting has not more clauses ahead. -/
theorem Orderly.takeOut_waitsBehind (h : w.Orderly k room) (hn : w.WaitsBehind n j)
    (m? : Option (Entry × List Nat)) :
    ¬(w.takeOut m?).2.Waits n ∨ ∃ j' ≤ j, (w.takeOut m?).2.WaitsBehind n j' := by
  cases m? with
  | none => exact .inr ⟨j, Nat.le_refl j, hn⟩
  | some m' =>
    obtain ⟨older, m, younger, hmembers, rfl, rfl⟩ := hn
    have hleft : (w.takeOut (some m')).2.members = (older ++ m :: younger).erase m' :=
      congrArg (·.erase m') hmembers
    by_cases holder : m' ∈ older
    · rw [List.erase_append_left _ holder] at hleft
      exact .inr ⟨_, List.length_erase_le, older.erase m', m, younger, hleft, rfl, rfl⟩
    · rw [List.erase_append_right _ holder] at hleft
      by_cases hm : m' = m
      · rw [hm]
        exact .inl (h.not_waits_takeOut (by simp [hmembers]))
      · rw [List.erase_cons_tail (by simpa using Ne.symm hm)] at hleft
        exact .inr ⟨_, Nat.le_refl _, older, m, younger.erase m', hleft, rfl, rfl⟩

/-- Where the oldest member is taken out, a clause that goes on waiting has one clause less
ahead. -/
theorem Orderly.takeOut_head?_waitsBehind (h : w.Orderly k room) (hn : w.WaitsBehind n j) :
    ¬(w.takeOut w.members.head?).2.Waits n ∨
      ∃ j', j' + 1 = j ∧ (w.takeOut w.members.head?).2.WaitsBehind n j' := by
  obtain ⟨older, m, younger, hmembers, rfl, rfl⟩ := hn
  cases older with
  | nil =>
    have hhead : w.members.head? = some m := by simp [hmembers]
    rw [hhead]
    exact .inl (h.not_waits_takeOut (by simp [hmembers]))
  | cons m' older =>
    have hhead : w.members.head? = some m' := by simp [hmembers]
    have hleft : (w.takeOut w.members.head?).2.members = older ++ m :: younger := by
      rw [hhead]
      simp [WaitingList.takeOut, hmembers]
    exact .inr ⟨older.length, rfl, older, m, younger, hleft, rfl, rfl⟩

/-! ### The budget of a clause -/

/-- How many calls for the best clause a clause behind `j` others can wait: until the evaluation by
age has had its next turn, and then a round for each clause ahead. -/
def budget (w : WaitingList) (k j : Nat) : Nat :=
  w.schedule.rotation.wait k + 1 + j * w.schedule.rotation.round

theorem Orderly.budget_le (h : w.Orderly k room) (j : Nat) :
    w.budget k j ≤ (j + 1) * w.schedule.rotation.round := by
  have hwait := h.inUse.proper.wait_lt_round (h.inUse.length_ratings ▸ h.lt_size)
  rw [budget, Nat.add_mul, Nat.one_mul]
  omega

/-- A clause that goes on waiting after a turn has used up some of its budget. -/
theorem Orderly.budget_best (h : w.Orderly k room) (hn : w.WaitsBehind n j) :
    ¬(w.perform .best).2.Waits n ∨ ∃ j', (w.perform .best).2.WaitsBehind n j' ∧
      (w.perform .best).2.budget k j' + 1 ≤ w.budget k j := by
  have hperform : w.perform .best = w.next.takeOut (w.next.best? w.schedule.rotation.current) := by
    obtain ⟨m, hm, -⟩ := hn.waits
    have hne : w.members ≠ [] := List.ne_nil_of_mem hm
    rw [WaitingList.perform, if_neg (by simpa using hne), Schedule.next_fst]
  have hproper := h.inUse.proper
  have hk : k < w.schedule.rotation.ratings.length := h.inUse.length_ratings ▸ h.lt_size
  have hbudget : ∀ m? j', (w.next.takeOut m?).2.budget k j' =
      w.schedule.rotation.next.2.wait k + 1 + j' * w.schedule.rotation.round := by
    intro m? j'
    rw [budget, schedule_takeOut, WaitingList.next, Schedule.rotation_next, Rotation.round_next]
  rw [hperform]
  by_cases hturn : w.schedule.rotation.current = k
  · -- the evaluation by age takes out the oldest clause
    rw [hturn, h.next.best?_eq_head?]
    refine (h.next.takeOut_head?_waitsBehind hn).imp_right ?_
    rintro ⟨j', rfl, hn'⟩
    refine ⟨j', hn', ?_⟩
    have hwait := hproper.next.1.wait_lt_round (by simpa using hk)
    rw [Rotation.round_next] at hwait
    rw [hbudget, budget, Nat.add_mul, Nat.one_mul]
    omega
  · refine (h.next.takeOut_waitsBehind hn _).imp_right ?_
    rintro ⟨j', hj', hn'⟩
    refine ⟨j', hn', ?_⟩
    have hwait := hproper.wait_next hk hturn
    have hround := Nat.mul_le_mul_right w.schedule.rotation.round hj'
    rw [hbudget, budget]
    omega

/-- **A clause that goes on waiting has used up some of its budget** if the best clause was called
for, and otherwise has no more left than before. -/
theorem Orderly.budget_perform (h : w.Orderly k room) (hn : w.WaitsBehind n j) (op : QueueOp) :
    ¬(w.perform op).2.Waits n ∨ ∃ j', (w.perform op).2.WaitsBehind n j' ∧
      (w.perform op).2.budget k j' + [op].count .best ≤ w.budget k j := by
  have htakeOut : ∀ m?, ¬(w.takeOut m?).2.Waits n ∨ ∃ j', (w.takeOut m?).2.WaitsBehind n j' ∧
      (w.takeOut m?).2.budget k j' ≤ w.budget k j := by
    intro m?
    refine (h.takeOut_waitsBehind hn m?).imp_right ?_
    rintro ⟨j', hj', hn'⟩
    refine ⟨j', hn', ?_⟩
    rw [budget, schedule_takeOut, budget]
    exact Nat.add_le_add_left (Nat.mul_le_mul_right _ hj') _
  cases op with
  | add e =>
    refine .inr ⟨j, hn.add e, Nat.le_of_eq ?_⟩
    change (w.add e).budget k j = _
    rw [budget, budget, WaitingList.add]
    split <;> rfl
  | extract n => exact htakeOut _
  | bestBy i => exact htakeOut _
  | best => exact h.budget_best hn
  | first => exact htakeOut _

theorem round_perform (w : WaitingList) (op : QueueOp) :
    (w.perform op).2.schedule.rotation.round = w.schedule.rotation.round := by
  cases op with
  | add e =>
    rw [perform, WaitingList.add]
    split <;> rfl
  | extract n => rw [perform, schedule_takeOut]
  | bestBy i => rw [perform, schedule_takeOut]
  | best =>
    rw [perform]
    split
    · rfl
    · rw [schedule_takeOut, next, Schedule.rotation_next, Rotation.round_next]
  | first => rw [perform, schedule_takeOut]

theorem orderly_performAll {ops : List QueueOp} (h : w.Orderly k (additions ops + room)) :
    (performAll perform ops w).2.Orderly k room ∧
      (performAll perform ops w).2.schedule.rotation.round = w.schedule.rotation.round := by
  induction ops generalizing w with
  | nil =>
    have hnone : additions [] + room = room := Nat.zero_add room
    exact ⟨hnone ▸ h, rfl⟩
  | cons op ops ih =>
    rw [additions_cons, Nat.add_assoc, Nat.add_comm] at h
    obtain ⟨horderly, hround⟩ := ih h.perform
    exact ⟨horderly, hround.trans (w.round_perform op)⟩

/-- **A clause leaves before its budget is used up**, if the counter has room for what is added. -/
theorem Orderly.exists_leaves {ops : List QueueOp} (h : w.Orderly k (additions ops))
    (hn : w.WaitsBehind n j) (hcalls : w.budget k j ≤ ops.count .best) :
    ∃ ops₁ ops₂, ops = ops₁ ++ ops₂ ∧ ops₁.count .best ≤ w.budget k j ∧
      ¬(performAll WaitingList.perform ops₁ w).2.Waits n := by
  induction ops generalizing w j with
  | nil =>
    rw [budget, List.count_nil] at hcalls
    omega
  | cons op ops ih =>
    have hcount : ∀ ops : List QueueOp,
        (op :: ops).count .best = [op].count .best + ops.count .best := by
      intro ops
      rw [← List.count_append, List.singleton_append]
    rcases h.budget_perform hn op with hleft | ⟨j', hn', hbudget⟩
    · refine ⟨[op], ops, rfl, ?_, hleft⟩
      have : [op].count QueueOp.best ≤ 1 := List.count_le_length
      rw [budget]
      omega
    · rw [hcount] at hcalls
      rw [additions_cons, Nat.add_comm] at h
      obtain ⟨ops₁, ops₂, rfl, hcalls₁, hleft⟩ := ih h.perform hn' (by omega)
      refine ⟨op :: ops₁, ops₂, rfl, ?_, hleft⟩
      rw [hcount]
      omega

theorem waits_of_waits_perform {op : QueueOp} (h : (w.perform op).2.Waits n) :
    w.Waits n ∨ ∃ y, op = .add y ∧ y.number = n := by
  have htakeOut : ∀ (v : WaitingList) m?, (v.takeOut m?).2.Waits n → v.Waits n := by
    rintro v m? ⟨m, hm, hnumber⟩
    exact ⟨m, (v.members_takeOut_sublist m?).subset hm, hnumber⟩
  cases op with
  | add e =>
    change (w.add e).Waits n at h
    rw [WaitingList.add] at h
    split at h
    · exact .inl h
    · obtain ⟨m, hm, hnumber⟩ := h
      rcases List.mem_append.1 hm with hm | hm
      · exact .inl ⟨m, hm, hnumber⟩
      · obtain rfl := List.mem_singleton.1 hm
        exact .inr ⟨e, rfl, hnumber⟩
  | extract n => exact .inl (htakeOut _ _ h)
  | bestBy i => exact .inl (htakeOut _ _ h)
  | best =>
    rw [WaitingList.perform] at h
    split at h
    · exact .inl h
    · exact .inl (htakeOut w.next _ h)
  | first => exact .inl (htakeOut _ _ h)

theorem exists_added {ops : List QueueOp} (h : ¬w.Waits n)
    (hend : (performAll WaitingList.perform ops w).2.Waits n) :
    ∃ ops₁ y ops₂, ops = ops₁ ++ .add y :: ops₂ ∧ y.number = n ∧
      ¬(performAll WaitingList.perform ops₁ w).2.Waits n := by
  induction ops generalizing w with
  | nil => exact absurd hend h
  | cons op ops ih =>
    by_cases hwaits : (w.perform op).2.Waits n
    · obtain ⟨y, rfl, hnumber⟩ := (waits_of_waits_perform hwaits).resolve_left h
      exact ⟨[], y, ops, rfl, hnumber, h⟩
    · obtain ⟨ops₁, y, ops₂, rfl, hnumber, hleft⟩ := ih hwaits hend
      exact ⟨op :: ops₁, y, ops₂, rfl, hnumber, hleft⟩

end WaitingList

/-! ### Ranked stores -/

theorem performAll_append {σ : Type} (perform : σ → QueueOp → Option Entry × σ)
    (ops₁ ops₂ : List QueueOp) (s : σ) :
    (performAll perform (ops₁ ++ ops₂) s).2 =
      (performAll perform ops₂ (performAll perform ops₁ s).2).2 := by
  induction ops₁ generalizing s with
  | nil => rfl
  | cons op ops₁ ih => exact ih _

/-- The store after a sequence of operations. -/
def RankedStore.after (s : RankedStore) (ops : List QueueOp) : RankedStore :=
  (performAll RankedStore.perform ops s).2

theorem RankedStore.view_after {s : RankedStore} (hs : s.Valid) (ops : List QueueOp) :
    (s.after ops).Valid ∧ (s.after ops).view = (performAll WaitingList.perform ops s.view).2 := by
  obtain ⟨hvalid, heq⟩ := valid_performAll hs ops
  exact ⟨hvalid, congrArg Prod.snd heq⟩

/-- **Evaluation by age rules out starvation**: a clause with `m` older ones ahead when it is added
is taken out within `m + 1` rounds of calls for the best clause, whatever is added or taken out in
between, as long as the counter of the evaluation does not overflow.  If the clause waits after
that, it has been added again. -/
theorem starvation_ruled_out {schedule : Schedule} (h : schedule.InUse) {count : Nat}
    (hfifo : .fifo count ∈ schedule.evaluations) (before after : List QueueOp) (x : Entry)
    (hroom : count + additions (before ++ .add x :: after) < UInt64.size)
    {s : RankedStore} (hs : s = (RankedStore.empty schedule).after (before ++ [.add x]))
    {older younger : List Entry} {e : Entry} (hmembers : s.toList = older ++ e :: younger)
    (he : e.number = x.number)
    (hcalls : (older.length + 1) * schedule.rotation.round ≤ after.count .best) :
    (∃ ops₁ ops₂, after = ops₁ ++ ops₂ ∧
      ops₁.count .best ≤ (older.length + 1) * schedule.rotation.round ∧
      ¬(s.after ops₁).view.Waits x.number) ∧
    ((s.after after).view.Waits x.number → ∃ ops₁ y ops₂, after = ops₁ ++ .add y :: ops₂ ∧
      y.number = x.number ∧ ¬(s.after ops₁).view.Waits x.number) := by
  obtain ⟨k, hk⟩ := List.mem_iff_getElem?.1 hfifo
  obtain ⟨hvalid, hview⟩ := RankedStore.view_after (RankedStore.valid_empty_of_inUse h)
    (before ++ [.add x])
  rw [← hs] at hvalid hview
  rw [List.append_cons, additions_append] at hroom
  obtain ⟨horderly, hround⟩ := WaitingList.orderly_performAll (.empty h hk hroom)
  change s.view = (performAll WaitingList.perform _ ⟨schedule, []⟩).2 at hview
  rw [← hview] at horderly hround
  have hafter : ∀ ops, (s.after ops).view = (performAll WaitingList.perform ops s.view).2 :=
    fun ops => (RankedStore.view_after hvalid ops).2
  have hbehind : s.view.WaitsBehind x.number older.length := by
    obtain ⟨ms, m, ms', hview, hms, hm, -⟩ : ∃ ms m ms', s.view.members = ms ++ m :: ms' ∧
        ms.map (·.1) = older ∧ m.1 = e ∧ ms'.map (·.1) = younger := by
      rw [RankedStore.toList_eq, List.map_eq_append_iff] at hmembers
      obtain ⟨ms, rest, hsplit, hms, hrest⟩ := hmembers
      obtain ⟨m, ms', rfl, hm, hms'⟩ := List.map_eq_cons_iff.1 hrest
      exact ⟨ms, m, ms', hsplit, hms, hm, hms'⟩
    refine ⟨ms, m, ms', hview, hm ▸ he, ?_⟩
    rw [← hms, List.length_map]
  have hbudget := horderly.budget_le older.length
  rw [hround] at hbudget
  obtain ⟨ops₁, ops₂, rfl, hcalls₁, hleft⟩ :=
    horderly.exists_leaves hbehind (Nat.le_trans hbudget hcalls)
  refine ⟨⟨ops₁, ops₂, rfl, Nat.le_trans hcalls₁ hbudget, ?_⟩, fun hwaits => ?_⟩
  · rw [hafter]
    exact hleft
  · rw [hafter, performAll_append] at hwaits
    obtain ⟨ops₃, y, ops₄, rfl, hnumber, hleft'⟩ := WaitingList.exists_added hleft hwaits
    refine ⟨ops₁ ++ ops₃, y, ops₄, by simp, hnumber, ?_⟩
    rw [hafter, performAll_append]
    exact hleft'

/-- Lighter facts are added between the calls for the best clause. -/
def lighterFactsLater : List QueueOp :=
  [.add (deepFact 2 0), .best, .add (deepFact 3 0), .best, .best, .add (deepFact 4 0), .best,
    .add (deepFact 5 0), .best, .add (deepFact 6 0), .best]

/-- A deep fact behind another one is taken out by the sixth call, although lighter facts come
meanwhile. -/
theorem starvation_ruled_out_lighterFactsLater :
    let s := (RankedStore.empty Heuristic.pickGiven2.schedule).after
      ([.add (deepFact 0 4)] ++ [.add (deepFact 1 3)])
    0 + additions ([.add (deepFact 0 4)] ++ .add (deepFact 1 3) :: lighterFactsLater) <
        UInt64.size ∧
      s.toList = [deepFact 0 4] ++ deepFact 1 3 :: [] ∧
      ([deepFact 0 4].length + 1) * Heuristic.pickGiven2.schedule.rotation.round ≤
        lighterFactsLater.count .best ∧
      ¬(s.after lighterFactsLater).view.Waits 1 := by
  intro s
  have h : Heuristic.pickGiven2.schedule.InUse := .of (Heuristic.of_rated _)
  have hmembers : s.toList = [deepFact 0 4] ++ deepFact 1 3 :: [] := by decide +kernel
  have hcalls : ([deepFact 0 4].length + 1) * Heuristic.pickGiven2.schedule.rotation.round ≤
      lighterFactsLater.count .best := by decide
  have hfifo : .fifo 0 ∈ Heuristic.pickGiven2.schedule.evaluations := by decide
  have hroom : 0 + additions ([.add (deepFact 0 4)] ++ .add (deepFact 1 3) :: lighterFactsLater) <
      UInt64.size := by decide
  obtain ⟨-, hagain⟩ := starvation_ruled_out h hfifo [.add (deepFact 0 4)] lighterFactsLater
    (deepFact 1 3) hroom rfl hmembers rfl hcalls
  refine ⟨hroom, hmembers, hcalls, fun hwaits => ?_⟩
  obtain ⟨ops₁, y, ops₂, hops, hnumber, -⟩ := hagain hwaits
  have hother : ∀ op ∈ lighterFactsLater, ∀ y, op = .add y → y.number ≠ 1 := by
    simp [lighterFactsLater, deepFact]
  exact hother (.add y) (by simp [hops]) y rfl hnumber

/-- **The bound fails in two cases**, for a clause that is added again and after an overflow.  In
both the only evaluation is by age.

* The second fact has one older fact ahead when it is added.  After two calls for the best clause it
  waits, as it was taken out by the first call and then added again.
* The first fact gets the highest score that there is, and the second one the score zero.  So the
  second one is taken out by the only call, and the first one waits on although it was never added
  again. -/
theorem starvation_bound_fails :
    (¬ ∀ (schedule : Schedule) (count : Nat) (before after : List QueueOp) (x : Entry)
      (s : RankedStore) (older younger : List Entry) (e : Entry), schedule.InUse →
      .fifo count ∈ schedule.evaluations →
      count + additions (before ++ .add x :: after) < UInt64.size →
      s = (RankedStore.empty schedule).after (before ++ [.add x]) →
      s.toList = older ++ e :: younger → e.number = x.number →
      after.count .best = (older.length + 1) * schedule.rotation.round →
      ¬(s.after after).view.Waits x.number) ∧
    (¬ ∀ (schedule : Schedule) (count : Nat) (before after : List QueueOp) (x : Entry)
      (s : RankedStore) (older younger : List Entry) (e : Entry), schedule.InUse →
      .fifo count ∈ schedule.evaluations →
      (∀ y, .add y ∈ after → y.number ≠ x.number) →
      s = (RankedStore.empty schedule).after (before ++ [.add x]) →
      s.toList = older ++ e :: younger → e.number = x.number →
      after.count .best = (older.length + 1) * schedule.rotation.round →
      ¬(s.after after).view.Waits x.number) := by
  constructor
  · intro h
    refine h Heuristic.fifo.schedule 0 [.add (deepFact 1 0)]
      [.extract 1, .best, .add (deepFact 1 0), .add (deepFact 0 0), .best] (deepFact 0 0) _
      [deepFact 1 0] [] (deepFact 0 0) (.of (Heuristic.of_rated _)) (by decide)
        (by decide) rfl ?_ rfl rfl ?_
    · decide +kernel
    · decide +kernel
  · intro h
    have hother : ∀ y, .add y ∈ [.add (deepFact 1 0), QueueOp.best] → y.number ≠ 0 := by
      simp [deepFact]
    have hrated : Schedule.of [(.fifo (UInt64.size - 2), 1)] =
        .ok ⟨[.fifo (UInt64.size - 2)], .start [1]⟩ := rfl
    refine h ⟨[.fifo (UInt64.size - 2)], .start [1]⟩ (UInt64.size - 2) []
      [.add (deepFact 1 0), .best] (deepFact 0 0) _ [] [] (deepFact 0 0) (.of hrated)
      List.mem_cons_self hother rfl ?_ rfl rfl ?_
    · decide +kernel
    · decide +kernel

end Refutation
