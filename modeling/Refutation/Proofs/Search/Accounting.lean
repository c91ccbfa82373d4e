import Refutation.Proofs.Search.Refinement

/-!
# The counters account for all clauses

Every clause that enters a search, at the start or as a conclusion, waits, or was processed, or was
dropped for a reason that is counted.  Within a step some clauses are none of this: the given clause
once it is taken out, and the conclusions that have not been taken in yet.  `Search.State.Balanced`
keeps count of those; every operation of the procedure settles some of them or brings in new ones.
Between two steps none is left, unless the empty clause ended the search in the midst of one.

* `Search.State.Balanced` : the counters account for all but a number of clauses.
* `Search.State.Balanced.absorb` : taking in conclusions settles them all or ends the search.
* `Search.State.Accounted.step` : **a step leaves no clause unaccounted for** as long as no proof is
  found.
* `Search.counters_account_for_clauses` : neither does a full search.
-/

namespace Refutation

open LawfulStore

namespace Search

namespace State

variable {P U : Type} [ClauseStore P] [ClauseQueue U]

/-- The search started with `m` clauses, and the counters account for all clauses but `n`. -/
structure Balanced (s : State P U) (m n : Nat) : Prop where
  /-- The clauses at the start. -/
  initial : s.statistics.initial = m
  /-- A clause that became processed still is, unless a given clause subsumed it. -/
  processed : (ClauseStore.toList s.processed).length + s.statistics.backwardSubsumed =
    s.statistics.processed
  /-- A clause that entered waits, became processed or was dropped, or is one of the `n`. -/
  entered : s.statistics.initial + s.statistics.resolvents + s.statistics.factors =
    (ClauseStore.toList s.unprocessed).length + s.statistics.processed +
      s.statistics.forwardSubsumed + s.statistics.tautologiesDeleted + n

/-- The search started with `m` clauses, and the counters account for all clauses exactly if no
proof is found. -/
def Accounted (s : State P U) (m : Nat) : Prop :=
  ∃ n, s.Balanced m n ∧ (n = 0 ↔ s.status ≠ .proofFound)

variable {policy : Policy} {s : State P U} {m n : Nat} {given : Entry}

theorem Balanced.accounted (hs : s.Balanced m 0) (hstatus : s.status ≠ .proofFound) :
    s.Accounted m :=
  ⟨0, hs, iff_of_true rfl hstatus⟩

theorem Accounted.balanced (hs : s.Accounted m) (hrunning : s.status = .running) :
    s.Balanced m 0 := by
  obtain ⟨n, hbalanced, hn⟩ := hs
  obtain rfl := hn.2 (by simp [hrunning])
  exact hbalanced

theorem Accounted.halt {status : Status} (hs : s.Accounted m) (hrunning : s.status = .running)
    (hstatus : status ≠ .proofFound) : ({ s with status := status } : State P U).Accounted m := by
  have hbalanced := hs.balanced hrunning
  exact Balanced.accounted ⟨hbalanced.initial, hbalanced.processed, hbalanced.entered⟩ hstatus

/-! ### Operations -/

namespace Balanced

theorem dropTautology (hs : s.Balanced m (n + 1)) : s.dropTautology.Balanced m n := by
  refine ⟨hs.initial, hs.processed, hs.entered.trans ?_⟩
  simp only [State.dropTautology]
  omega

theorem succeed (hs : s.Balanced m (n + 1)) (empty : Entry) : (s.succeed empty).Accounted m :=
  ⟨n + 1, ⟨hs.initial, hs.processed, hs.entered⟩, iff_of_false n.succ_ne_zero (not_not_intro rfl)⟩

section Queue

variable [LawfulQueue U] (hU : Valid s.unprocessed)

include hU

theorem take {unprocessed : U} (hs : s.Balanced m n)
    (hnext : ClauseQueue.next? s.unprocessed = some (given, unprocessed)) :
    (s.take unprocessed).Balanced m (n + 1) := by
  obtain ⟨-, hgiven, hlist⟩ := LawfulQueue.next_some hU hnext
  have hlength := length_without_add_one (nodup hU) hgiven
  rw [← hlist] at hlength
  refine ⟨hs.initial, hs.processed, hs.entered.trans ?_⟩
  simp only [State.take]
  omega

variable (hlt : ∀ e ∈ ClauseStore.toList s.unprocessed, e.number < s.archive.size)

include hlt

theorem enqueue (hs : s.Balanced m (n + 1)) (c : Clause) : (s.enqueue c).Balanced m n := by
  obtain ⟨-, hlist, -⟩ := enqueue_spec hU hlt c
  refine ⟨hs.initial, hs.processed, hs.entered.trans ?_⟩
  rw [hlist, List.length_append, List.length_singleton]
  simp only [State.enqueue]
  omega

/-- **Conclusions are all accounted for**, unless one of them is empty. -/
theorem absorb {cs : List Clause} (hs : s.Balanced m cs.length) (hrunning : s.status = .running) :
    (absorb policy cs s).Accounted m := by
  induction cs generalizing s with
  | nil => exact hs.accounted (by simp [hrunning])
  | cons c cs ih =>
    rw [absorb_cons]
    split_ifs
    · exact Balanced.succeed (s := { s with archive := (s.archive.record c).2 })
        ⟨hs.initial, hs.processed, hs.entered⟩ _
    · exact ih hU hlt hs.dropTautology hrunning
    · obtain ⟨hU', -, hlt'⟩ := enqueue_spec hU hlt (policy.tidy c)
      exact ih hU' hlt' (hs.enqueue hU hlt _) hrunning

end Queue

variable [LawfulStore P] (hP : Valid s.processed)

include hP

theorem subsumeBackward (hs : s.Balanced m n) (policy : Policy) (given : Entry) :
    (s.subsumeBackward policy given).Balanced m n := by
  rw [subsumeBackward_eq]
  split_ifs
  · refine ⟨hs.initial, ?_, hs.entered⟩
    have hlength := length_removeSubsumed hP given
    have hprocessed := hs.processed
    dsimp only
    omega
  · exact hs

variable (hnew : ∀ d ∈ ClauseStore.toList s.processed, d.number ≠ given.number)

include hnew

/-- The given clause is accounted for, and the conclusions with it are not yet. -/
theorem activate (hs : s.Balanced m 1) : (s.activate given).Balanced m
    ((resolvents given s.processed s.names).1 ++
      (factors given (resolvents given s.processed s.names).2).1).length := by
  obtain ⟨-, hlist⟩ := insert_spec hP hnew
  have hprocessed := hs.processed
  have hentered := hs.entered
  refine ⟨hs.initial, ?_, ?_⟩
  · simp only [State.activate, hlist, List.length_append, List.length_singleton]
    omega
  · simp only [State.activate, List.length_append]
    omega

end Balanced

/-! ### Steps -/

variable [LawfulStore P] [LawfulQueue U]

/-- The inferences account for the given clause, and all conclusions are taken in. -/
theorem Balanced.infer (hs : s.Balanced m 1) (hrunning : s.status = .running)
    (hP : Valid s.processed) (hU : Valid s.unprocessed)
    (hlt : ∀ e ∈ ClauseStore.toList s.unprocessed, e.number < s.archive.size)
    (hnew : ∀ d ∈ ClauseStore.toList s.processed, d.number ≠ given.number) :
    (s.infer policy given).Accounted m := by
  rw [infer_eq]
  exact Balanced.absorb (s := s.activate given) hU hlt (hs.activate hP hnew) hrunning

/-- **Processing accounts for the given clause**, whatever becomes of it. -/
theorem Balanced.process (hs : s.Balanced m 1) (hrunning : s.status = .running)
    (hP : Valid s.processed) (hU : Valid s.unprocessed)
    (hlt : ∀ e ∈ ClauseStore.toList s.processed ++ ClauseStore.toList s.unprocessed,
      e.number < s.archive.size)
    (hnew : ∀ d ∈ ClauseStore.toList s.processed, d.number ≠ given.number) :
    (s.process policy given).Accounted m := by
  have hne : s.status ≠ .proofFound := by simp [hrunning]
  rw [process_eq]
  by_cases htautology : (policy.deleteTautologies && given.clause.isTautology) = true
  · rw [if_pos htautology]
    exact hs.dropTautology.accounted hne
  rw [if_neg htautology]
  have hbalanced := hs.subsumeBackward hP policy given
  obtain ⟨processed, n, hP', hthins, hbackward⟩ := subsumeBackward_spec policy hP given
  rw [hbackward] at hbalanced ⊢
  split_ifs
  · refine Balanced.accounted ⟨hbalanced.initial, hbalanced.processed,
      hbalanced.entered.trans ?_⟩ hne
    dsimp only
    omega
  · obtain ⟨selected, A, hselect, hsize, hselected⟩ := exists_select policy
      { s with processed := processed, statistics.backwardSubsumed := n } given
    rw [hselect]
    -- a store ignores a clause whose number it has, so the number must be new to the processed ones
    have hprocessed : ∀ d ∈ ClauseStore.toList processed, d.number ≠ selected.number := by
      intro d hd
      have hd' := hthins.sublist.subset hd
      rcases hselected with rfl | hnumber
      · exact hnew d hd'
      · rw [hnumber]
        exact Nat.ne_of_lt (hlt d (List.mem_append_left _ hd'))
    exact Balanced.infer ⟨hbalanced.initial, hbalanced.processed, hbalanced.entered⟩ hrunning hP' hU
      (fun e he => Nat.lt_of_lt_of_le (hlt e (List.mem_append_right _ he)) hsize) hprocessed

/-- **A step leaves no clause unaccounted for**, unless it finds a proof. -/
theorem Accounted.step {h : History} (hconsistent : s.Consistent h) (hs : s.Accounted m)
    (elapsed : Duration) : (s.step policy elapsed).Accounted m := by
  rw [step_eq]
  by_cases hterminal : s.status.isTerminal = true
  · rw [if_pos hterminal]
    exact hs
  have hrunning : s.status = .running := by simpa [Status.isTerminal] using hterminal
  rw [if_neg hterminal]
  split_ifs
  · exact hs.halt hrunning (by decide)
  cases hnext : ClauseQueue.next? s.unprocessed with
  | none => exact hs.halt hrunning (by decide)
  | some p =>
    obtain ⟨given, unprocessed⟩ := p
    obtain ⟨hU, hgiven, hlist⟩ := LawfulQueue.next_some hconsistent.unprocessed hnext
    -- the given clause has left the queue and is counted nowhere yet
    have htaken := (hs.balanced hrunning).take hconsistent.unprocessed hnext
    dsimp only
    split_ifs
    · exact htaken.succeed given
    have hnodup := hconsistent.snapshot.nodup
    rw [List.map_append, List.nodup_append] at hnodup
    refine htaken.process hrunning hconsistent.processed hU (fun e he => ?_) fun d hd =>
      hnodup.2.2 _ (List.mem_map_of_mem hd) _ (List.mem_map_of_mem hgiven)
    refine hconsistent.snapshot.lt_size
      (List.mem_append.2 ((List.mem_append.1 he).imp_right fun he => ?_))
    exact (mem_without.1 (hlist ▸ he)).1

end State

variable {P U : Type} [ClauseStore P] [ClauseQueue U] [LawfulStore P] [LawfulQueue U]
  {policy : Policy} {s s₀ : State P U} {h h₀ : History} {m : Nat}

/-- **A run leaves no clause unaccounted for**, unless it ends with a proof. -/
theorem Run.accounted (hconsistent : s₀.Consistent h₀) (hs₀ : s₀.Accounted m)
    (run : Run policy s₀ h₀ s h) : s.Accounted m := by
  induction run with
  | start => exact hs₀
  | step run elapsed ih => exact ih.step (run.moves hconsistent).2 elapsed
  | giveUp _ hrunning ih => exact ih.halt hrunning (by decide)

theorem accounted_startFull {params : Params} {S : List Clause} {s : FullState}
    (hs : startFull params S = .ok s) : s.Accounted S.length := by
  have hsnapshot := (startFull_spec hs).1
  have hstatus : s.status = .running := congrArg Snapshot.status hsnapshot
  have hprocessed : ClauseStore.toList s.processed = [] := congrArg Snapshot.processed hsnapshot
  have hunprocessed : (ClauseStore.toList s.unprocessed).length = S.length := by
    rw [show ClauseStore.toList s.unprocessed = _ from congrArg Snapshot.unprocessed hsnapshot]
    simp [Snapshot.start]
  obtain rfl := eq_of_signature hs
  refine State.Balanced.accounted ⟨rfl, ?_, ?_⟩ (by rw [hstatus]; decide)
  · rw [hprocessed]
    rfl
  · rw [hunprocessed]
    rfl

/-- **The counters account for every clause of a search.**  In every state the clauses that became
processed are the processed ones and those that were subsumed by given clauses.  All clauses at the
start and all conclusions wait, became processed or were dropped, and are counted as such, exactly
as long as no proof is found. -/
theorem counters_account_for_clauses {params : Params} {S : List Clause} {s₀ s : FullState}
    {h : History} (hs₀ : startFull params S = .ok s₀) (run : Run params.policy s₀ (.start s₀) s h) :
    s.statistics.initial = S.length ∧
      (ClauseStore.toList s.processed).length + s.statistics.backwardSubsumed =
        s.statistics.processed ∧
      (s.status ≠ .proofFound ↔
        s.statistics.initial + s.statistics.resolvents + s.statistics.factors =
          (ClauseStore.toList s.unprocessed).length + s.statistics.processed +
            s.statistics.forwardSubsumed + s.statistics.tautologiesDeleted) := by
  obtain ⟨n, hbalanced, hn⟩ := run.accounted (startFull_spec hs₀).2 (accounted_startFull hs₀)
  refine ⟨hbalanced.initial, hbalanced.processed, hn.symm.trans ?_⟩
  rw [hbalanced.entered]
  exact Nat.add_eq_left.symm

/-- A choice, a tautology, a clause that the factor of the choice subsumes, and a rule. -/
def choiceWithRedundancies : List Clause :=
  [⟨"choice", .axiomatic, [.pos (.app "p" [.var "X"]), .pos (.app "p" [.var "Y"])], none⟩,
    ⟨"trivial", .axiomatic, [.pos (.app "q" []), .neg (.app "q" [])], none⟩,
    ⟨"special", .axiomatic, [.pos (.app "p" [.app "a" []]), .pos (.app "q" [])], none⟩,
    ⟨"rule", .axiomatic, [.neg (.app "p" [.app "a" []]), .pos (.app "q" [])], none⟩]

/-- Here every counter moves: of six clauses four become processed, of which two are subsumed later,
one is dropped as a tautology, and one because a processed clause subsumes it. -/
theorem counters_account_for_clauses_choiceWithRedundancies : ∃ s₀ s h,
    startFull ({} : Params).withRedundancyElimination choiceWithRedundancies = .ok s₀ ∧
      Run ({} : Params).withRedundancyElimination.policy s₀ (.start s₀) s h ∧
      s.statistics = ⟨4, 4, 1, 1, 1, 1, 2, 6⟩ ∧ s.status = .saturated ∧
      (ClauseStore.toList s.processed).length + s.statistics.backwardSubsumed =
        s.statistics.processed ∧
      s.statistics.initial + s.statistics.resolvents + s.statistics.factors =
        (ClauseStore.toList s.unprocessed).length + s.statistics.processed +
          s.statistics.forwardSubsumed + s.statistics.tautologiesDeleted := by
  let params := ({} : Params).withRedundancyElimination
  let s₀ : FullState := .start .empty (.empty params.heuristic.schedule) choiceWithRedundancies
  have hstart : startFull params choiceWithRedundancies = .ok s₀ := rfl
  obtain ⟨h, run⟩ := run_saturate params.policy 7 s₀ (.start s₀)
  have hstatistics : (s₀.saturate params.policy 7).statistics = ⟨4, 4, 1, 1, 1, 1, 2, 6⟩ := by cbv
  have hsaturated : (s₀.saturate params.policy 7).status = .saturated := by cbv
  obtain ⟨-, hprocessed, hentered⟩ := counters_account_for_clauses hstart run
  exact ⟨s₀, _, h, hstart, run, hstatistics, hsaturated, hprocessed,
    hentered.1 (by rw [hsaturated]; decide)⟩

end Search

end Refutation
