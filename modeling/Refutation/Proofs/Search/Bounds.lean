import Refutation.Proofs.Search.Refinement

/-!
# Bounds on the number of steps

The number of given clauses can be bounded in two ways: by the parameters, which every step looks
at, and by the caller, who steps the search and counts.  Each step of a running search either ends
it or gives one more clause, so that both counts agree as long as the search runs.  Hence both
bounds stop it at the same point, and a search that ends before the bound ends as if there were
none.

* `Search.State.StepsTo`, `Search.State.stepsTo_step` : **what a step of a running search can do**
  to the status, the result and the number of given clauses.
* `Search.State.Ends` : stepping a search until it is over.
* `Search.State.ends_saturate` : a bound in the parameters acts like a bound on the calls.
* `Search.State.OnlyCutShort` : bounds stop a search, and do nothing else.
* `Search.State.IsSettled` : the search is over, and its result is what the status says.
* `Search.bounds_only_cut_short` : this is so in full and plain searches.
-/

namespace Refutation

namespace Search

/-- The parameters with another bound on the number of given clauses. -/
def Params.bounded (params : Params) (bound : Option Nat) : Params :=
  { params with maxIterations := bound }

/-- The policy with another bound on the number of given clauses. -/
def Policy.bounded (policy : Policy) (bound : Option Nat) : Policy :=
  { policy with maxIterations := bound }

namespace Policy

variable {policy : Policy} (htimeout : policy.timeout = none)

include htimeout

theorem isExhausted_bounded_none (n : Nat) (elapsed : Duration) :
    (policy.bounded none).isExhausted n elapsed = false := by
  simp [isExhausted, bounded, htimeout]

theorem isExhausted_bounded_some (k n : Nat) (elapsed : Duration) :
    (policy.bounded (some k)).isExhausted n elapsed = decide (k ≤ n) := by
  simp [isExhausted, bounded, htimeout]

theorem isExhausted_elapsed (n : Nat) (elapsed elapsed' : Duration) :
    policy.isExhausted n elapsed = policy.isExhausted n elapsed' := by
  simp [isExhausted, htimeout]

end Policy

namespace State

/-! ### What a step does to status, result and the number of given clauses -/

section

variable {P U : Type}

theorem isTerminal_or_running (s : State P U) :
    s.status.isTerminal = true ∨ s.status = .running := by
  cases hstatus : s.status <;> simp [Status.isTerminal]

/-- No clause has been given in between, and the search stands where it stood or has found the empty
clause. -/
structure Processes (s s' : State P U) : Prop where
  /-- No clause was given. -/
  iterations : s'.statistics.iterations = s.statistics.iterations
  /-- The empty clause may have been found. -/
  outcome : (s'.status = s.status ∧ s'.result = s.result) ∨
    (s'.status = .proofFound ∧ ∃ e, s'.result = some e ∧ e.clause.isEmpty = true)

theorem Processes.refl (s : State P U) : s.Processes s := ⟨rfl, .inl ⟨rfl, rfl⟩⟩

/-- Only the status, the result and the number of given clauses matter for the state before. -/
theorem Processes.of_eq {s s' t : State P U} (h : s'.Processes t)
    (hiterations : s'.statistics.iterations = s.statistics.iterations)
    (hstatus : s'.status = s.status) (hresult : s'.result = s.result) : s.Processes t :=
  ⟨h.iterations.trans hiterations, hstatus ▸ hresult ▸ h.outcome⟩

theorem processes_absorb [ClauseQueue U] (policy : Policy) (cs : List Clause) (s : State P U) :
    s.Processes (absorb policy cs s) := by
  induction cs generalizing s with
  | nil => exact .refl s
  | cons c cs ih =>
    rw [absorb_cons]
    split_ifs with hempty
    · exact ⟨rfl, .inr ⟨rfl, _, rfl, hempty⟩⟩
    · exact (ih s.dropTautology).of_eq rfl rfl rfl
    · exact (ih (s.enqueue (policy.tidy c))).of_eq rfl rfl rfl

theorem Processes.trans {s s' s'' : State P U} (h : s.Processes s') (h' : s'.Processes s'') :
    s.Processes s'' := by
  refine ⟨h'.iterations.trans h.iterations, ?_⟩
  rcases h'.outcome with ⟨hstatus, hresult⟩ | hfound
  · rw [hstatus, hresult]
    exact h.outcome
  · exact .inr hfound

theorem processes_process [ClauseStore P] [ClauseQueue U] (policy : Policy) (s : State P U)
    (given : Entry) : s.Processes (s.process policy given) := by
  have hbackward : s.Processes (s.subsumeBackward policy given) := by
    rw [subsumeBackward_eq]
    split_ifs <;> exact .of_eq (.refl _) rfl rfl rfl
  rw [process_eq]
  split_ifs
  · exact .of_eq (.refl _) rfl rfl rfl
  · exact ⟨hbackward.iterations, hbackward.outcome⟩
  · refine hbackward.trans ?_
    obtain ⟨selected, A, hselect, -⟩ := exists_select policy (s.subsumeBackward policy given) given
    rw [hselect, infer_eq]
    exact (processes_absorb policy _ _).of_eq rfl rfl rfl

theorem absorb_bounded [ClauseQueue U] (policy : Policy) (b : Option Nat) (cs : List Clause)
    (s : State P U) : absorb (policy.bounded b) cs s = absorb policy cs s := by
  induction cs generalizing s with
  | nil => rfl
  | cons c cs ih =>
    rw [absorb_cons, absorb_cons, ih, ih]
    rfl

end

section

variable {P U : Type} {s s' : State P U}

/-- What a step of a running search can do to the status, the result and the number of given
clauses. -/
inductive StepsTo (s : State P U) : State P U → Prop
  /-- It gives up. -/
  | giveUp : StepsTo s s.giveUp
  /-- No clause is left to give. -/
  | saturate : StepsTo s { s with status := .saturated }
  /-- A clause is given and processed. -/
  | give {t : State P U} (unprocessed : U) (h : (s.take unprocessed).Processes t) : StepsTo s t

theorem StepsTo.iterations (h : s.StepsTo s') (hrunning : s'.status = .running) :
    s'.statistics.iterations = s.statistics.iterations + 1 := by
  cases h with
  | giveUp => cases hrunning
  | saturate => cases hrunning
  | give unprocessed h => exact h.iterations

/-- There is a result exactly after a proof, and it is the empty clause. -/
structure Reports (s : State P U) : Prop where
  /-- After a proof there is an empty clause. -/
  found : s.status = .proofFound → ∃ e, s.result = some e ∧ e.clause.isEmpty = true
  /-- Otherwise there is none. -/
  other : s.status ≠ .proofFound → s.result = none

theorem Reports.isSome_iff (hs : s.Reports) : s.result.isSome = true ↔ s.status = .proofFound := by
  by_cases hstatus : s.status = .proofFound
  · obtain ⟨e, he, -⟩ := hs.found hstatus
    simp [he, hstatus]
  · simp [hs.other hstatus, hstatus]

theorem Reports.isEmpty (hs : s.Reports) {e : Entry} (he : s.result = some e) :
    e.clause.isEmpty = true := by
  obtain ⟨e', he', hempty⟩ := hs.found (hs.isSome_iff.1 (by rw [he]; rfl))
  obtain rfl := Option.some.inj (he.symm.trans he')
  exact hempty

theorem StepsTo.reports (h : s.StepsTo s') (hs : s.Reports) (hrunning : s.status = .running) :
    s'.Reports := by
  have hnone : s.result = none := hs.other (by simp [hrunning])
  cases h with
  | giveUp => exact ⟨nofun, fun _ => hnone⟩
  | saturate => exact ⟨nofun, fun _ => hnone⟩
  | give unprocessed h =>
    rcases h.outcome with ⟨hstatus, hresult⟩ | ⟨hstatus, hfound⟩
    · have hstatus' : s'.status = .running := hstatus.trans hrunning
      exact ⟨fun hfound => absurd (hstatus'.symm.trans hfound) (by decide),
        fun _ => hresult.trans hnone⟩
    · exact ⟨fun _ => hfound, fun hother => absurd hstatus hother⟩

end

section

variable {P U : Type} [ClauseStore P] [ClauseQueue U] {policy : Policy} {s s' : State P U}

/-- **A step of a running search does one of these things.** -/
theorem stepsTo_step (policy : Policy) (elapsed : Duration) (hrunning : s.status = .running) :
    s.StepsTo (s.step policy elapsed) := by
  rw [step_eq, if_neg (by simp [hrunning, Status.isTerminal])]
  split_ifs
  · exact .giveUp
  · cases ClauseQueue.next? s.unprocessed with
    | none => exact .saturate
    | some p =>
      obtain ⟨given, unprocessed⟩ := p
      dsimp only
      split_ifs with hempty
      · exact .give unprocessed ⟨rfl, .inr ⟨rfl, given, rfl, hempty⟩⟩
      · exact .give unprocessed (processes_process policy _ given)

theorem step_of_isTerminal (h : s.status.isTerminal = true) (policy : Policy) (elapsed : Duration) :
    s.step policy elapsed = s := by
  rw [step_eq, if_pos h]

theorem process_bounded (policy : Policy) (b : Option Nat) (s : State P U) (given : Entry) :
    s.process (policy.bounded b) given = s.process policy given := by
  rw [process_eq, process_eq, infer_eq, infer_eq, absorb_bounded]
  rfl

theorem step_bounded {b b' : Option Nat} {elapsed elapsed' : Duration}
    (h : (policy.bounded b).isExhausted s.statistics.iterations elapsed =
      (policy.bounded b').isExhausted s.statistics.iterations elapsed') :
    s.step (policy.bounded b) elapsed = s.step (policy.bounded b') elapsed' := by
  simp only [step_eq, h, process_bounded]

/-! ### Searching until the end -/

/-- Stepping the search until it is over, at any times, leads to the last state. -/
inductive Ends (policy : Policy) : State P U → State P U → Prop
  /-- The search is over. -/
  | done {t : State P U} (h : t.status.isTerminal = true) : Ends policy t t
  /-- The search goes on after one more step. -/
  | step {t r : State P U} (h : t.status = .running) (elapsed : Duration)
    (rest : Ends policy (t.step policy elapsed) r) : Ends policy t r

theorem Ends.eq_of_isTerminal (h : Ends policy s s') (hterminal : s.status.isTerminal = true) :
    s' = s := by
  cases h with
  | done => rfl
  | step hrunning => simp [hrunning, Status.isTerminal] at hterminal

/-- Without a time limit the last state does not depend on the times of the steps. -/
theorem Ends.unique (htimeout : policy.timeout = none) (h : Ends policy s s') {s'' : State P U}
    (h' : Ends policy s s'') : s'' = s' := by
  induction h with
  | done hterminal => exact h'.eq_of_isTerminal hterminal
  | @step s s' hrunning elapsed _ ih =>
    cases h' with
    | done hterminal => simp [hrunning, Status.isTerminal] at hterminal
    | step _ elapsed' rest =>
      have hstep : s.step policy elapsed' = s.step policy elapsed :=
        step_bounded (policy.isExhausted_elapsed htimeout _ elapsed' elapsed)
      exact ih (hstep ▸ rest)

theorem saturate_of_isTerminal (h : s.status.isTerminal = true) (policy : Policy) (n : Nat) :
    s.saturate policy n = s := by
  cases n <;> rw [saturate, if_pos h]

theorem saturate_zero (h : s.status = .running) : s.saturate policy 0 = s.giveUp := by
  rw [saturate, if_neg (by simp [h, Status.isTerminal])]

theorem saturate_succ (h : s.status = .running) (n : Nat) :
    s.saturate policy (n + 1) = (s.step policy .zero).saturate policy n := by
  rw [saturate, if_neg (by simp [h, Status.isTerminal])]

/-- **A bound in the parameters acts like a bound on the calls.** -/
theorem ends_saturate (htimeout : policy.timeout = none) {n k : Nat}
    (hk : s.status = .running → s.statistics.iterations + n = k) :
    Ends (policy.bounded (some k)) s (s.saturate (policy.bounded none) n) := by
  induction n generalizing s with
  | zero =>
    rcases s.isTerminal_or_running with hterminal | hrunning
    · rw [saturate_of_isTerminal hterminal]
      exact .done hterminal
    · -- the next step finds the bound reached
      have hstep : s.step (policy.bounded (some k)) .zero = s.giveUp := by
        rw [step_eq, if_neg (by simp [hrunning, Status.isTerminal]), if_pos]
        rw [Policy.isExhausted_bounded_some htimeout, decide_eq_true_eq]
        exact Nat.le_of_eq (hk hrunning).symm
      rw [saturate_zero hrunning]
      refine .step hrunning .zero ?_
      rw [hstep]
      exact .done rfl
  | succ n ih =>
    rcases s.isTerminal_or_running with hterminal | hrunning
    · rw [saturate_of_isTerminal hterminal]
      exact .done hterminal
    · have hk' := hk hrunning
      have hstep : s.step (policy.bounded (some k)) .zero = s.step (policy.bounded none) .zero := by
        apply step_bounded
        rw [Policy.isExhausted_bounded_some htimeout, Policy.isExhausted_bounded_none htimeout,
          decide_eq_false_iff_not]
        omega
      rw [saturate_succ hrunning]
      refine .step hrunning .zero ?_
      rw [hstep]
      refine ih fun hrunning' => ?_
      have hnext := (stepsTo_step (policy.bounded none) .zero hrunning).iterations hrunning'
      omega

/-- A search that ends before the caller gives up ends in the same way if the caller waits
longer. -/
theorem saturate_of_le {n m : Nat} (hle : n ≤ m) (h : (s.saturate policy n).status ≠ .gaveUp) :
    s.saturate policy m = s.saturate policy n := by
  induction n generalizing s m with
  | zero =>
    rcases s.isTerminal_or_running with hterminal | hrunning
    · rw [saturate_of_isTerminal hterminal, saturate_of_isTerminal hterminal]
    · rw [saturate_zero hrunning] at h
      exact absurd rfl h
  | succ n ih =>
    obtain ⟨m, rfl⟩ : ∃ m', m = m' + 1 := ⟨m - 1, by omega⟩
    rcases s.isTerminal_or_running with hterminal | hrunning
    · rw [saturate_of_isTerminal hterminal, saturate_of_isTerminal hterminal]
    · rw [saturate_succ hrunning] at h ⊢
      rw [saturate_succ hrunning]
      exact ih (by omega) h

theorem ends_of_saturate {n : Nat} (h : (s.saturate policy n).status ≠ .gaveUp) :
    Ends policy s (s.saturate policy n) := by
  induction n generalizing s with
  | zero =>
    rcases s.isTerminal_or_running with hterminal | hrunning
    · rw [saturate_of_isTerminal hterminal]
      exact .done hterminal
    · rw [saturate_zero hrunning] at h
      exact absurd rfl h
  | succ n ih =>
    rcases s.isTerminal_or_running with hterminal | hrunning
    · rw [saturate_of_isTerminal hterminal]
      exact .done hterminal
    · rw [saturate_succ hrunning] at h ⊢
      exact .step hrunning .zero (ih h)

/-! ### Bounds on a search from its start -/

/-- Nothing has been done yet, whatever clauses there are. -/
structure IsNew (s : State P U) : Prop where
  /-- The search is not over. -/
  running : s.status = .running
  /-- There is no result. -/
  result : s.result = none
  /-- No clause has been given. -/
  iterations : s.statistics.iterations = 0

/-- Bounds on the number of given clauses stop a search, and do nothing else. -/
structure OnlyCutShort (policy : Option Nat → Policy) (s : State P U) : Prop where
  /-- With a bound in the policy the search ends, where it ends for a caller who bounds the
  calls. -/
  bound_iff (k : Nat) {r : State P U} : Ends (policy (some k)) s r ↔ r = s.saturate (policy none) k
  /-- If it did not give up, then it ends in the same state with every greater bound. -/
  greater {k m : Nat} (hle : k ≤ m) {r : State P U} (hr : Ends (policy (some k)) s r)
    (hstatus : r.status ≠ .gaveUp) {r' : State P U} : Ends (policy (some m)) s r' ↔ r' = r
  /-- So it does without a bound. -/
  unbounded {k : Nat} {r : State P U} (hr : Ends (policy (some k)) s r)
    (hstatus : r.status ≠ .gaveUp)
    {r' : State P U} : Ends (policy none) s r' ↔ r' = r

/-- Nothing changes a search that is over, and it has a result exactly if there is a proof. -/
structure IsSettled (policy : Policy) (s : State P U) : Prop where
  /-- A further step changes nothing. -/
  step_eq (elapsed : Duration) : s.step policy elapsed = s
  /-- Searching on changes nothing. -/
  ends_iff {r : State P U} : Ends policy s r ↔ r = s
  /-- Searching on with a bound changes nothing. -/
  saturate_eq (n : Nat) : s.saturate policy n = s
  /-- There is a result exactly after a proof. -/
  result_iff : s.result.isSome = true ↔ s.status = .proofFound
  /-- The result is the empty clause. -/
  result_empty : ∀ e, s.result = some e → e.clause.isEmpty = true

theorem IsNew.onlyCutShort (hnew : s.IsNew) (htimeout : policy.timeout = none) :
    s.OnlyCutShort policy.bounded := by
  have hends (k : Nat) : Ends (policy.bounded (some k)) s (s.saturate (policy.bounded none) k) :=
    ends_saturate htimeout fun _ => by rw [hnew.iterations, Nat.zero_add]
  have hunique {b : Option Nat} {r r' : State P U} (hr : Ends (policy.bounded b) s r) :
      Ends (policy.bounded b) s r' ↔ r' = r := by
    have htimeout' : (policy.bounded b).timeout = none := htimeout
    refine ⟨hr.unique htimeout', ?_⟩
    rintro rfl
    exact hr
  refine ⟨fun k r => hunique (hends k), fun {k m} hle r hr hstatus r' => ?_,
    fun {k} r hr hstatus r' => ?_⟩
  · obtain rfl := (hunique (hends k)).1 hr
    rw [← saturate_of_le hle hstatus]
    exact hunique (hends m)
  · obtain rfl := (hunique (hends k)).1 hr
    exact hunique (ends_of_saturate hstatus)

end

end State

section

variable {P U : Type} [ClauseStore P] [ClauseQueue U] {policy : Policy} {s₀ s : State P U}
  {h₀ h : History}

theorem Run.reports (run : Run policy s₀ h₀ s h) (hs₀ : s₀.Reports) : s.Reports := by
  induction run with
  | start => exact hs₀
  | @step s h _ elapsed ih =>
    rcases s.isTerminal_or_running with hterminal | hrunning
    · rw [State.step_of_isTerminal hterminal]
      exact ih
    · exact (State.stepsTo_step policy elapsed hrunning).reports ih hrunning
  | giveUp _ hrunning ih => exact State.StepsTo.giveUp.reports ih hrunning

/-- **A search that is over stays as it is**, and its result is what the status says. -/
theorem Run.isSettled (run : Run policy s₀ h₀ s h) (hnew : s₀.IsNew)
    (hterminal : s.status.isTerminal = true) : s.IsSettled policy := by
  have hreports : s.Reports := run.reports
    ⟨fun hfound => absurd (hnew.running.symm.trans hfound) (by decide), fun _ => hnew.result⟩
  have hends {r : State P U} : s.Ends policy r ↔ r = s := by
    refine ⟨fun hr => hr.eq_of_isTerminal hterminal, ?_⟩
    rintro rfl
    exact .done hterminal
  exact ⟨State.step_of_isTerminal hterminal policy, hends,
    State.saturate_of_isTerminal hterminal policy, hreports.isSome_iff, fun _ => hreports.isEmpty⟩

end

theorem isNew_startFull {params : Params} {S : List Clause} {s : FullState}
    (hs : startFull params S = .ok s) : s.IsNew := by
  rw [eq_of_signature hs]
  exact ⟨rfl, rfl, rfl⟩

theorem isNew_startPlain {S : List Clause} {s : PlainState} (hs : startPlain S = .ok s) :
    s.IsNew := by
  rw [eq_of_signature hs]
  exact ⟨rfl, rfl, rfl⟩

/-- **Bounds on the number of given clauses only cut a search short.**  Without a time limit, a
bound in the parameters ends every new search in the state in which a caller leaves it who makes
that many calls and then gives up, and a search that did not give up ends in the same state with
every greater bound and without one.  Whatever the parameters are, a search that is over stays as it
is, and its result is the empty clause after a proof and nothing otherwise.  All searches that start
from clauses are new. -/
theorem bounds_only_cut_short (params : Params) :
    ((∀ S s₀, startFull params S = .ok s₀ → s₀.IsNew) ∧
      ∀ s₀ : FullState, s₀.IsNew →
        (params.timeout = none → s₀.OnlyCutShort fun k => (params.bounded k).policy) ∧
        ∀ s h, Run params.policy s₀ (.start s₀) s h → s.status.isTerminal = true →
          s.IsSettled params.policy) ∧
    (∀ S s₀, startPlain S = .ok s₀ → s₀.IsNew) ∧
      ∀ s₀ : PlainState, s₀.IsNew →
        (params.timeout = none → s₀.OnlyCutShort fun k => (params.bounded k).plainPolicy) ∧
        ∀ s h, Run params.plainPolicy s₀ (.start s₀) s h → s.status.isTerminal = true →
          s.IsSettled params.plainPolicy := by
  refine ⟨⟨fun S s₀ => isNew_startFull, fun s₀ hnew => ⟨fun htimeout => ?_, fun s h run => ?_⟩⟩,
    fun S s₀ => isNew_startPlain, fun s₀ hnew => ⟨fun htimeout => ?_, fun s h run => ?_⟩⟩
  · have hpolicy : params.policy.timeout = none := htimeout
    exact hnew.onlyCutShort hpolicy
  · exact run.isSettled hnew
  · have hpolicy : params.plainPolicy.timeout = none := htimeout
    exact hnew.onlyCutShort hpolicy
  · exact run.isSettled hnew

/-- A fact and its negation. -/
def assertedAndDenied : List Clause :=
  [⟨"asserted", .axiomatic, [.pos (.app "p" [])], none⟩,
    ⟨"denied", .negatedConjecture, [.neg (.app "p" [])], none⟩]

/-- Two given clauses are enough to refute a fact and its negation, and one is not: with the bound
two both searches end as they do without a bound. -/
theorem bounds_only_cut_short_assertedAndDenied :
    (∃ s₀ r r', startFull {} assertedAndDenied = .ok s₀ ∧ s₀.IsNew ∧
      s₀.Ends (({} : Params).bounded (some 1)).policy r ∧ r.status = .gaveUp ∧
      s₀.Ends (({} : Params).bounded (some 2)).policy r' ∧ r'.status = .proofFound ∧
      s₀.Ends (({} : Params).bounded none).policy r' ∧ r'.IsSettled ({} : Params).policy) ∧
    ∃ s₀ r r', startPlain assertedAndDenied = .ok s₀ ∧ s₀.IsNew ∧
      s₀.Ends (({} : Params).bounded (some 1)).plainPolicy r ∧ r.status = .gaveUp ∧
      s₀.Ends (({} : Params).bounded (some 2)).plainPolicy r' ∧ r'.status = .proofFound ∧
      s₀.Ends (({} : Params).bounded none).plainPolicy r' ∧
      r'.IsSettled ({} : Params).plainPolicy := by
  obtain ⟨⟨hnew, hfull⟩, hnew', hplain⟩ := bounds_only_cut_short {}
  constructor
  · let s₀ : FullState := .start .empty (.empty ({} : Params).heuristic.schedule) assertedAndDenied
    have hs₀ : s₀.IsNew := hnew assertedAndDenied s₀ rfl
    obtain ⟨hcut, hsettled⟩ := hfull s₀ hs₀
    have hgaveUp : (s₀.saturate (({} : Params).bounded none).policy 1).status = .gaveUp := by cbv
    have hproof : (s₀.saturate (({} : Params).bounded none).policy 2).status = .proofFound := by cbv
    have hends := ((hcut rfl).bound_iff 2).2 rfl
    obtain ⟨h, run⟩ := run_saturate ({} : Params).policy 2 s₀ (.start s₀)
    exact ⟨s₀, _, _, rfl, hs₀, ((hcut rfl).bound_iff 1).2 rfl, hgaveUp, hends, hproof,
      ((hcut rfl).unbounded hends (by rw [hproof]; decide)).2 rfl,
      hsettled _ h run (by rw [hproof]; rfl)⟩
  · let s₀ : PlainState := .start .empty .empty assertedAndDenied
    have hs₀ : s₀.IsNew := hnew' assertedAndDenied s₀ rfl
    obtain ⟨hcut, hsettled⟩ := hplain s₀ hs₀
    have hgaveUp : (s₀.saturate (({} : Params).bounded none).plainPolicy 1).status = .gaveUp := by
      cbv
    have hproof : (s₀.saturate (({} : Params).bounded none).plainPolicy 2).status =
        .proofFound := by cbv
    have hends := ((hcut rfl).bound_iff 2).2 rfl
    obtain ⟨h, run⟩ := run_saturate ({} : Params).plainPolicy 2 s₀ (.start s₀)
    exact ⟨s₀, _, _, rfl, hs₀, ((hcut rfl).bound_iff 1).2 rfl, hgaveUp, hends, hproof,
      ((hcut rfl).unbounded hends (by rw [hproof]; decide)).2 rfl,
      hsettled _ h run (by rw [hproof]; rfl)⟩

end Search

end Refutation
